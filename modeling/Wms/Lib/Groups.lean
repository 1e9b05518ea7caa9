import Mathlib.Data.List.Induction
import Wms.Lib.OrderedMap

/-!
# A list sorted into groups

A loop that puts every element at the end of the list its key has in a map. A
group is what a filter makes of the list, in its order, and only groups with an
element are there.
-/

namespace Wms.Lib

universe u v

variable {α : Type u} {κ : Type v} [LinearOrder κ]

/-- The members of a list, each under its key and in their order. -/
def group (key : α → κ) (xs : List α) : OrderedMap κ (List α) :=
  xs.foldl (fun m x => m.set (key x) (m.getOr (key x) [] ++ [x])) .empty

section
variable {key : α → κ} {xs g : List α} {x : α} {k : κ}

theorem group_snoc : group key (xs ++ [x]) =
    (group key xs).set (key x) ((group key xs).getOr (key x) [] ++ [x]) := by
  rw [group, List.foldl_append]
  rfl

theorem find?_group : (group key xs).find? k =
    if xs.filter (fun x => key x = k) = [] then none
    else some (xs.filter fun x => key x = k) := by
  induction xs using List.reverseRecOn with
  | nil => rfl
  | append_singleton xs x ih =>
      rw [group_snoc, List.filter_append]
      by_cases hx : key x = k
      · subst hx
        have hold : (group key xs).getOr (key x) [] =
            xs.filter fun y => key y = key x := by
          rw [OrderedMap.getOr, ih]
          split
          next hnil => exact hnil.symm
          next => rfl
        rw [OrderedMap.find?_set_self, hold]
        simp
      · rw [OrderedMap.find?_set_of_ne (Ne.symm hx), ih]
        simp [hx]

theorem mem_group : (k, g) ∈ (group key xs).entries ↔
    g = xs.filter (fun x => key x = k) ∧ g ≠ [] := by
  rw [← OrderedMap.mem_def, ← OrderedMap.find?_eq_some, find?_group]
  split
  next hnil =>
      constructor
      · intro h
        cases h
      · rintro ⟨rfl, hne⟩
        exact absurd hnil hne
  next hne =>
      constructor
      · intro h
        obtain rfl := Option.some.inj h
        exact ⟨rfl, hne⟩
      · rintro ⟨rfl, -⟩
        rfl

/-- Every element is in the group of its key. -/
theorem exists_group (key : α → κ) (h : x ∈ xs) :
    ∃ g, (key x, g) ∈ (group key xs).entries ∧ x ∈ g := by
  have hmem : x ∈ xs.filter fun y => key y = key x :=
    List.mem_filter.mpr ⟨h, decide_eq_true rfl⟩
  exact ⟨_, mem_group.mpr ⟨rfl, List.ne_nil_of_mem hmem⟩, hmem⟩

end

end Wms.Lib
