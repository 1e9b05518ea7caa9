import Mathlib.Data.List.Chain
import Mathlib.Data.List.Infix
import Wms.Lib.Instances

/-!
# Runs of one element

A list in which every run of an element has been made one, and a list without
the element at its end. Both are stated for any element of any type with
decidable equality. What matters to the callers is that `squeeze` reads a list
in pieces: what is before a run, the run, and what is behind it.
-/

namespace Wms.Lib

variable {α : Type*} [DecidableEq α] {a : α}

/-- Every run of `a` is made one `a`. -/
def squeeze (a : α) : List α → List α
  | [] => []
  | x :: xs => if x = a ∧ xs.head? = some a then squeeze a xs else x :: squeeze a xs

/-- One `a` at the end is removed. -/
def dropFinal (a : α) (xs : List α) : List α :=
  if xs.getLast? = some a then xs.dropLast else xs

/-- No two `a` stand together. -/
def Single (a : α) (xs : List α) : Prop := xs.IsChain fun x y => ¬ (x = a ∧ y = a)

/-! ## Squeezing -/

@[simp] theorem squeeze_nil (a : α) : squeeze a [] = [] := rfl

theorem squeeze_cons (a x : α) (xs : List α) :
    squeeze a (x :: xs) =
      if x = a ∧ xs.head? = some a then squeeze a xs else x :: squeeze a xs := rfl

theorem squeeze_cons_of_ne {x : α} (h : x ≠ a) (xs : List α) :
    squeeze a (x :: xs) = x :: squeeze a xs := by
  rw [squeeze_cons, if_neg (fun hx => h hx.1)]

theorem squeeze_append {xs : List α} (h : a ∉ xs) (ys : List α) :
    squeeze a (xs ++ ys) = xs ++ squeeze a ys := by
  induction xs with
  | nil => rfl
  | cons x xs ih =>
      rw [List.mem_cons, not_or] at h
      rw [List.cons_append, squeeze_cons_of_ne (Ne.symm h.1), ih h.2, List.cons_append]

/-- A run is one element, and the rest is behind it. -/
theorem squeeze_run (a : α) (xs : List α) :
    squeeze a (a :: xs) = a :: squeeze a (xs.dropWhile (· = a)) := by
  induction xs with
  | nil => simp [squeeze_cons]
  | cons x xs ih =>
      by_cases hx : x = a
      · rw [hx, squeeze_cons, if_pos ⟨rfl, rfl⟩, ih, List.dropWhile_cons_of_pos (by simp)]
      · have hhead : ¬ (a = a ∧ (x :: xs).head? = some a) := by
          intro h
          exact hx (Option.some.inj h.2)
        rw [squeeze_cons, if_neg hhead, List.dropWhile_cons_of_neg (by simp [hx])]

/-- What is no `a` is kept. -/
theorem mem_squeeze_of_ne {x : α} {xs : List α} (h : x ∈ xs) (hx : x ≠ a) :
    x ∈ squeeze a xs := by
  induction xs with
  | nil => cases h
  | cons y ys ih =>
      rw [squeeze_cons]
      rcases List.mem_cons.mp h with rfl | h
      · rw [if_neg (fun hboth => hx hboth.1)]
        exact List.mem_cons_self
      · split
        · exact ih h
        · exact List.mem_cons_of_mem y (ih h)

theorem head?_squeeze (a : α) (xs : List α) : (squeeze a xs).head? = xs.head? := by
  induction xs with
  | nil => rfl
  | cons x xs ih =>
      rw [squeeze_cons]
      split
      next h => rw [ih, h.2, List.head?_cons, h.1]
      next => rfl

theorem getLast?_squeeze (a : α) (xs : List α) :
    (squeeze a xs).getLast? = xs.getLast? := by
  induction xs with
  | nil => rfl
  | cons x xs ih =>
      rw [squeeze_cons]
      split
      next h =>
          cases xs with
          | nil => cases h.2
          | cons y ys => rw [ih, List.getLast?_cons_cons]
      next =>
          cases xs with
          | nil => rfl
          | cons y ys =>
              have hne : squeeze a (y :: ys) ≠ [] := by
                intro hnil
                have hhead := head?_squeeze a (y :: ys)
                rw [hnil] at hhead
                cases hhead
              rw [List.getLast?_cons, List.getLast?_cons, ih]

theorem single_squeeze (a : α) (xs : List α) : Single a (squeeze a xs) := by
  induction xs with
  | nil => exact List.IsChain.nil
  | cons x xs ih =>
      rw [squeeze_cons]
      split
      next => exact ih
      next h =>
          refine List.isChain_cons.mpr ⟨?_, ih⟩
          intro y hy hboth
          rw [head?_squeeze] at hy
          exact h ⟨hboth.1, hboth.2 ▸ hy⟩

theorem squeeze_of_single {xs : List α} (h : Single a xs) : squeeze a xs = xs := by
  induction xs with
  | nil => rfl
  | cons x xs ih =>
      have hchain := List.isChain_cons.mp h
      rw [squeeze_cons, if_neg (fun hboth => hchain.1 a hboth.2 ⟨hboth.1, rfl⟩), ih hchain.2]

omit [DecidableEq α] in
theorem single_of_not_mem {xs : List α} (h : a ∉ xs) : Single a xs := by
  induction xs with
  | nil => exact List.IsChain.nil
  | cons x xs ih =>
      rw [List.mem_cons, not_or] at h
      exact List.isChain_cons.mpr ⟨fun y _ hboth => h.1 hboth.1.symm, ih h.2⟩

omit [DecidableEq α] in
/-- One more piece in front of a list that does not begin with `a`. -/
theorem Single.append_cons {w xs : List α} (h : Single a xs) (hw : a ∉ w)
    (hhead : xs.head? ≠ some a) : Single a (w ++ a :: xs) := by
  induction w with
  | nil =>
      refine List.isChain_cons.mpr ⟨?_, h⟩
      intro y hy hboth
      exact hhead (hboth.2 ▸ hy)
  | cons x w ih =>
      rw [List.mem_cons, not_or] at hw
      exact List.isChain_cons.mpr ⟨fun y _ hboth => hw.1 hboth.1.symm, ih hw.2⟩

omit [DecidableEq α] in
theorem Single.no_pair {xs : List α} (h : Single a xs) : ¬ [a, a] <:+: xs := by
  intro hin
  have hpair := List.IsChain.infix h hin
  simp at hpair

/-! ## The end -/

theorem dropFinal_of_ne {xs : List α} (h : xs.getLast? ≠ some a) :
    dropFinal a xs = xs := if_neg h

theorem mem_dropFinal_of_ne {x : α} {xs : List α} (h : x ∈ xs) (hx : x ≠ a) :
    x ∈ dropFinal a xs := by
  rw [dropFinal]
  split
  next hlast =>
      obtain ⟨ys, rfl⟩ := List.getLast?_eq_some_iff.mp hlast
      rw [List.dropLast_concat]
      rcases List.mem_append.mp h with h | h
      · exact h
      · exact absurd (List.mem_singleton.mp h) hx
  next => exact h

theorem Single.dropFinal {xs : List α} (h : Single a xs) : Single a (dropFinal a xs) := by
  rw [Wms.Lib.dropFinal]
  split
  · exact h.prefix (List.dropLast_prefix xs)
  · exact h

end Wms.Lib
