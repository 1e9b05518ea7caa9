import Mathlib.Data.List.Basic
import Mathlib.Order.Defs.LinearOrder
import Wms.Lib.Instances

/-!
# Vectors kept in the order of a key

A vector whose elements ascend strictly by a key is searched by bisection: the
first place whose key is not below the one sought. The element there is the one
with the key when there is one, an element taken out there leaves the others in
order, and one put in there is in order too. The bisection and a scan from the
front find the same place, so the scan is what is defined.
-/

namespace Wms.Lib

universe u v

variable {α : Type u} {κ : Type v} [LinearOrder κ] (key : α → κ)

/-- `lower_bound`: the first place whose key is not below `k`. -/
def lowerBound (xs : List α) (k : κ) : ℕ :=
  (xs.takeWhile fun x => key x < k).length

/-- The element there, when it has the key. -/
def lookupKey (xs : List α) (k : κ) : Option α :=
  xs[lowerBound key xs k]?.filter fun x => key x = k

/-- The vector without the element there. -/
def eraseKey (xs : List α) (k : κ) : List α := xs.eraseIdx (lowerBound key xs k)

/-- The vector with `x` put in before the place of its key. -/
def insertKey (xs : List α) (x : α) : List α :=
  xs.insertIdx (lowerBound key xs (key x)) x

/-- The keys ascend strictly: the vector is sorted, and no key is twice in it. -/
def Ascending (xs : List α) : Prop := xs.Pairwise fun x y => key x < key y

variable {key} {xs : List α} {k : κ} {x y : α}

theorem lowerBound_cons (x : α) (xs : List α) (k : κ) :
    lowerBound key (x :: xs) k =
      if key x < k then lowerBound key xs k + 1 else 0 := by
  unfold lowerBound
  by_cases h : key x < k
  · rw [List.takeWhile_cons_of_pos (by simpa using h), if_pos h]
    rfl
  · rw [List.takeWhile_cons_of_neg (by simpa using h), if_neg h]
    rfl

theorem lowerBound_le (xs : List α) (k : κ) : lowerBound key xs k ≤ xs.length :=
  (List.takeWhile_sublist _).length_le

theorem Ascending.above (h : Ascending key (x :: xs)) (hle : k ≤ key x)
    (hy : y ∈ xs) : key y ≠ k :=
  (lt_of_le_of_lt hle ((List.pairwise_cons.mp h).1 y hy)).ne'

/-! ## The search -/

theorem lookupKey_cons (x : α) (xs : List α) (k : κ) :
    lookupKey key (x :: xs) k =
      if key x < k then lookupKey key xs k
      else if key x = k then some x else none := by
  unfold lookupKey
  rw [lowerBound_cons]
  by_cases hlt : key x < k
  · rw [if_pos hlt, if_pos hlt, List.getElem?_cons_succ]
  · rw [if_neg hlt, if_neg hlt, List.getElem?_cons_zero]
    by_cases heq : key x = k <;> simp [heq]

theorem lookupKey_eq_some (h : Ascending key xs) :
    lookupKey key xs k = some x ↔ x ∈ xs ∧ key x = k := by
  induction xs with
  | nil => simp [lookupKey]
  | cons y xs ih =>
      rw [lookupKey_cons]
      have hx : x ∈ xs → ¬ k ≤ key y ∨ key x ≠ k := by
        intro hx
        by_cases hle : k ≤ key y
        · exact .inr (h.above hle hx)
        · exact .inl hle
      split
      · next hlt =>
          rw [ih (List.pairwise_cons.mp h).2, List.mem_cons]
          constructor
          · exact fun hm => ⟨.inr hm.1, hm.2⟩
          · intro hm
            rcases hm.1 with rfl | hm'
            · exact absurd hm.2 hlt.ne
            · exact ⟨hm', hm.2⟩
      · next hle =>
          rw [not_lt] at hle
          split
          · next heq =>
              constructor
              · intro hs
                cases hs
                exact ⟨List.mem_cons_self, heq⟩
              · intro hm
                rcases List.mem_cons.mp hm.1 with rfl | hm'
                · rfl
                · exact absurd hm.2 (h.above hle hm')
          · next hne =>
              constructor
              · intro hs
                cases hs
              · intro hm
                rcases List.mem_cons.mp hm.1 with rfl | hm'
                · exact absurd hm.2 hne
                · exact absurd hm.2 (h.above hle hm')

theorem lookupKey_eq_none (h : Ascending key xs) :
    lookupKey key xs k = none ↔ ∀ x ∈ xs, key x ≠ k := by
  constructor
  · intro hn x hx hk
    rw [(lookupKey_eq_some h).mpr ⟨hx, hk⟩] at hn
    cases hn
  · intro hall
    cases hs : lookupKey key xs k with
    | none => rfl
    | some x =>
        obtain ⟨hx, hk⟩ := (lookupKey_eq_some h).mp hs
        exact absurd hk (hall x hx)

/-- No two elements have one key. -/
theorem Ascending.inj (h : Ascending key xs) (hx : x ∈ xs) (hy : y ∈ xs)
    (hkey : key x = key y) : x = y := by
  have hfind := (lookupKey_eq_some h).mpr ⟨hx, hkey⟩
  rw [(lookupKey_eq_some h).mpr ⟨hy, rfl⟩] at hfind
  exact (Option.some.inj hfind).symm

theorem length_eraseKey_lt (h : lookupKey key xs k = some x) :
    (eraseKey key xs k).length < xs.length := by
  have hlt : lowerBound key xs k < xs.length := by
    by_contra hge
    rw [lookupKey, List.getElem?_eq_none (by omega)] at h
    cases h
  rw [eraseKey, List.length_eraseIdx_of_lt hlt]
  omega

/-! ## Taking out and putting in -/

theorem Ascending.eraseKey (h : Ascending key xs) (k : κ) :
    Ascending key (eraseKey key xs k) :=
  List.Pairwise.sublist (List.eraseIdx_sublist xs _) h

theorem mem_eraseKey (h : Ascending key xs) (hx : lookupKey key xs k = some x) :
    y ∈ eraseKey key xs k ↔ y ∈ xs ∧ key y ≠ k := by
  induction xs with
  | nil => cases hx
  | cons z xs ih =>
      rw [lookupKey_cons] at hx
      unfold Wms.Lib.eraseKey
      rw [lowerBound_cons]
      by_cases hlt : key z < k
      · rw [if_pos hlt] at hx
        rw [if_pos hlt, List.eraseIdx_cons_succ, List.mem_cons, List.mem_cons]
        have := ih (List.pairwise_cons.mp h).2 hx
        unfold Wms.Lib.eraseKey at this
        rw [this]
        constructor
        · intro hy
          rcases hy with rfl | hy
          · exact ⟨.inl rfl, hlt.ne⟩
          · exact ⟨.inr hy.1, hy.2⟩
        · intro hy
          rcases hy.1 with rfl | hm
          · exact .inl rfl
          · exact .inr ⟨hm, hy.2⟩
      · rw [if_neg hlt] at hx
        rw [if_neg hlt, List.eraseIdx_cons_zero, List.mem_cons]
        by_cases heq : key z = k
        · constructor
          · exact fun hy => ⟨.inr hy, h.above heq.ge hy⟩
          · intro hy
            rcases hy.1 with rfl | hm
            · exact absurd heq hy.2
            · exact hm
        · rw [if_neg heq] at hx
          cases hx

theorem lookupKey_eraseKey (h : Ascending key xs) (hx : lookupKey key xs k = some x) :
    lookupKey key (eraseKey key xs k) k = none :=
  (lookupKey_eq_none (h.eraseKey k)).mpr fun _ hy => ((mem_eraseKey h hx).mp hy).2

theorem insertKey_cons (z : α) (xs : List α) (x : α) :
    insertKey key (z :: xs) x =
      if key z < key x then z :: insertKey key xs x else x :: z :: xs := by
  unfold insertKey
  rw [lowerBound_cons]
  split <;> rfl

theorem mem_insertKey : y ∈ insertKey key xs x ↔ y = x ∨ y ∈ xs :=
  List.mem_insertIdx (lowerBound_le xs _)

theorem Ascending.insertKey (h : Ascending key xs) (hnew : ∀ y ∈ xs, key y ≠ key x) :
    Ascending key (insertKey key xs x) := by
  induction xs with
  | nil => exact List.pairwise_singleton _ _
  | cons z xs ih =>
      obtain ⟨hz, hxs⟩ := List.pairwise_cons.mp h
      rw [insertKey_cons]
      split
      · next hlt =>
          refine List.pairwise_cons.mpr ⟨?_, ih hxs fun y hy =>
            hnew y (List.mem_cons_of_mem _ hy)⟩
          intro y hy
          rcases mem_insertKey.mp hy with rfl | hy
          · exact hlt
          · exact hz y hy
      · next hle =>
          have hlt : key x < key z :=
            lt_of_le_of_ne (not_lt.mp hle) (hnew z List.mem_cons_self).symm
          refine List.pairwise_cons.mpr ⟨?_, h⟩
          intro y hy
          rcases List.mem_cons.mp hy with rfl | hy
          · exact hlt
          · exact lt_trans hlt (hz y hy)

end Wms.Lib
