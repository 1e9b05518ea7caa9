import Mathlib.Data.List.Nodup
import Mathlib.Order.Defs.LinearOrder
import Wms.Lib.Instances

/-!
# Maps in the order of their keys

The entries of a map as an iteration visits them, each key once. A map is
determined by which entries it has, and each operation is described by that.
-/

namespace Wms.Lib

universe u v w

/-- A map as the list of its entries, in the order of the keys. -/
structure OrderedMap (κ : Type u) (ν : Type v) [LinearOrder κ] where
  entries : List (κ × ν)
  sorted : entries.Pairwise fun a b => a.1 < b.1

namespace OrderedMap

variable {κ : Type u} {ν : Type v} {ν' : Type w} [LinearOrder κ]

/-- No entries. -/
def empty : OrderedMap κ ν := ⟨[], .nil⟩

/-- What is under a key. -/
def find? (m : OrderedMap κ ν) (k : κ) : Option ν :=
  (m.entries.find? fun e => e.1 = k).map Prod.snd

/-- An entry where its key belongs. -/
def insertEntry (k : κ) (v : ν) : List (κ × ν) → List (κ × ν)
  | [] => [(k, v)]
  | e :: es =>
      if k < e.1 then (k, v) :: e :: es
      else if e.1 = k then (k, v) :: es
      else e :: insertEntry k v es

theorem mem_insertEntry {k : κ} {v : ν} {e : κ × ν} {es : List (κ × ν)}
    (h : e ∈ insertEntry k v es) : e = (k, v) ∨ e ∈ es := by
  induction es with
  | nil => exact .inl (List.mem_singleton.mp h)
  | cons x es ih =>
      unfold insertEntry at h
      split at h
      · exact List.mem_cons.mp h
      · split at h
        · rcases List.mem_cons.mp h with h | h
          · exact .inl h
          · exact .inr (List.mem_cons_of_mem _ h)
        · rcases List.mem_cons.mp h with h | h
          · exact .inr (h ▸ List.mem_cons_self)
          · exact (ih h).imp_right (List.mem_cons_of_mem _)

theorem sorted_insertEntry (k : κ) (v : ν) {es : List (κ × ν)}
    (h : es.Pairwise fun a b => a.1 < b.1) :
    (insertEntry k v es).Pairwise fun a b => a.1 < b.1 := by
  induction es with
  | nil => exact List.pairwise_singleton _ _
  | cons x es ih =>
      obtain ⟨hx, hes⟩ := List.pairwise_cons.mp h
      unfold insertEntry
      split
      · next hlt =>
          refine List.pairwise_cons.mpr ⟨fun y hy => ?_, h⟩
          rcases List.mem_cons.mp hy with rfl | hy
          · exact hlt
          · exact lt_trans hlt (hx y hy)
      · next hle =>
          split
          · next heq => exact List.pairwise_cons.mpr ⟨heq ▸ hx, hes⟩
          · next hne =>
              refine List.pairwise_cons.mpr ⟨fun y hy => ?_, ih hes⟩
              rcases mem_insertEntry hy with rfl | hy
              · exact lt_of_le_of_ne (not_lt.mp hle) hne
              · exact hx y hy

/-- `m[k] = v` -/
def set (m : OrderedMap κ ν) (k : κ) (v : ν) : OrderedMap κ ν :=
  ⟨insertEntry k v m.entries, sorted_insertEntry k v m.sorted⟩

/-- What `insert` finds or puts there. -/
def getOr (m : OrderedMap κ ν) (k : κ) (v : ν) : ν := (m.find? k).getD v

/-- The entries of a kind, the others erased. -/
def filter (m : OrderedMap κ ν) (p : κ × ν → Bool) : OrderedMap κ ν :=
  ⟨m.entries.filter p, m.sorted.filter p⟩

/-- A function of the keys and the values. -/
def mapValues (m : OrderedMap κ ν) (f : κ → ν → ν') : OrderedMap κ ν' where
  entries := m.entries.map fun e => (e.1, f e.1 e.2)
  sorted := List.Pairwise.map _ (fun _ _ h => h) m.sorted

instance : Membership (κ × ν) (OrderedMap κ ν) := ⟨fun m e => e ∈ m.entries⟩

variable {m m' : OrderedMap κ ν} {k : κ} {v : ν} {e : κ × ν}

theorem mem_def : e ∈ m ↔ e ∈ m.entries := Iff.rfl

theorem not_mem_empty : e ∉ (empty : OrderedMap κ ν) := List.not_mem_nil

theorem nodup_keys (m : OrderedMap κ ν) : (m.entries.map Prod.fst).Nodup :=
  List.Pairwise.map _ (fun _ _ h => ne_of_lt h) m.sorted

theorem eq_of_key_eq {e' : κ × ν} (he : e ∈ m) (he' : e' ∈ m)
    (h : e.1 = e'.1) : e = e' :=
  List.inj_on_of_nodup_map m.nodup_keys he he' h

/-- A map is the set of its entries. -/
theorem ext_mem (h : ∀ e, e ∈ m ↔ e ∈ m') : m = m' := by
  have hperm : m.entries.Perm m'.entries :=
    (List.perm_ext_iff_of_nodup m.nodup_keys.of_map m'.nodup_keys.of_map).mpr h
  have heq : m.entries = m'.entries :=
    hperm.eq_of_pairwise
      (fun a b _ _ hab hba => absurd hab (lt_asymm hba)) m.sorted m'.sorted
  cases m
  cases m'
  cases heq
  rfl

theorem find?_eq_some : m.find? k = some v ↔ (k, v) ∈ m := by
  unfold find?
  rw [Option.map_eq_some_iff]
  constructor
  · rintro ⟨e, he, rfl⟩
    have hkey := List.find?_some he
    rw [decide_eq_true_eq] at hkey
    rw [← hkey]
    exact List.mem_of_find?_eq_some he
  · intro h
    cases he : m.entries.find? fun e => e.1 = k with
    | none =>
        have hno := List.find?_eq_none.mp he (k, v) h
        exact absurd (decide_eq_true rfl) hno
    | some e =>
        have hkey := List.find?_some he
        rw [decide_eq_true_eq] at hkey
        have heq := eq_of_key_eq (List.mem_of_find?_eq_some he) h hkey
        exact ⟨e, rfl, by rw [heq]⟩

theorem mem_set : e ∈ m.set k v ↔ e = (k, v) ∨ e ∈ m ∧ e.1 ≠ k := by
  obtain ⟨es, hes⟩ := m
  show e ∈ insertEntry k v es ↔ e = (k, v) ∨ e ∈ es ∧ e.1 ≠ k
  induction es with
  | nil => simp [insertEntry]
  | cons x es ih =>
      obtain ⟨hx, hrest⟩ := List.pairwise_cons.mp hes
      have hne : ∀ y ∈ x :: es, k < x.1 → y.1 ≠ k := by
        intro y hy hlt heq
        rcases List.mem_cons.mp hy with rfl | hy
        · exact absurd heq (ne_of_gt hlt)
        · exact absurd (heq ▸ hx y hy) (lt_asymm hlt)
      unfold insertEntry
      split
      · next hlt =>
          rw [List.mem_cons]
          exact or_congr_right ⟨fun h => ⟨h, hne e h hlt⟩, And.left⟩
      · split
        · next heq =>
            rw [List.mem_cons, List.mem_cons]
            refine or_congr_right ⟨fun h => ⟨.inr h, ?_⟩, ?_⟩
            · exact heq ▸ ne_of_gt (hx e h)
            · rintro ⟨rfl | h, hek⟩
              · exact absurd heq hek
              · exact h
        · next hxk =>
            rw [List.mem_cons, List.mem_cons, ih hrest]
            constructor
            · rintro (rfl | h | ⟨h, hne⟩)
              · exact .inr ⟨.inl rfl, hxk⟩
              · exact .inl h
              · exact .inr ⟨.inr h, hne⟩
            · rintro (h | ⟨rfl | h, hne⟩)
              · exact .inr (.inl h)
              · exact .inl rfl
              · exact .inr (.inr ⟨h, hne⟩)

theorem find?_set_self (m : OrderedMap κ ν) (k : κ) (v : ν) :
    (m.set k v).find? k = some v :=
  find?_eq_some.mpr (mem_set.mpr (.inl rfl))

theorem find?_set_of_ne {j : κ} (h : j ≠ k) (m : OrderedMap κ ν) (v : ν) :
    (m.set k v).find? j = m.find? j := by
  refine Option.ext fun x => ?_
  show (m.set k v).find? j = some x ↔ m.find? j = some x
  rw [find?_eq_some, find?_eq_some, mem_set]
  constructor
  · rintro (heq | ⟨hmem, -⟩)
    · exact absurd (congrArg Prod.fst heq) h
    · exact hmem
  · exact fun hmem => .inr ⟨hmem, h⟩

theorem mem_filter {p : κ × ν → Bool} : e ∈ m.filter p ↔ e ∈ m ∧ p e = true :=
  List.mem_filter

theorem mem_mapValues {f : κ → ν → ν'} {e : κ × ν'} :
    e ∈ m.mapValues f ↔ ∃ x ∈ m, e = (x.1, f x.1 x.2) := by
  show e ∈ m.entries.map _ ↔ _
  rw [List.mem_map]
  exact exists_congr fun x => and_congr_right fun _ => eq_comm

theorem eq_empty_iff : m.entries = [] ↔ ∀ e, e ∉ m :=
  List.eq_nil_iff_forall_not_mem

end OrderedMap

end Wms.Lib
