import Mathlib.Data.List.Sort
import Wms.Lib.Instances

/-!
# Sorting keeps the order of what is equal

A list in some order is sorted by a relation that does not tell all of its
elements apart: those that it does not tell apart are still in the old order.
-/

namespace Wms.Lib

universe u

/-- In the order of `r`, and where that decides nothing in the order of `s`. -/
def Stably {α : Type u} (r s : α → α → Prop) (a b : α) : Prop :=
  r a b ∧ (r b a → s a b)

section
variable {α : Type u} {r s : α → α → Prop} [DecidableRel r]
  [IsTrans α r] [Std.Total r] [IsTrans α s]

omit [DecidableRel r] [Std.Total r] in
theorem Stably.trans {a b c : α} (hab : Stably r s a b) (hbc : Stably r s b c) :
    Stably r s a c := by
  refine ⟨IsTrans.trans _ _ _ hab.1 hbc.1, fun hca => ?_⟩
  exact IsTrans.trans _ _ _ (hab.2 (IsTrans.trans _ _ _ hbc.1 hca))
    (hbc.2 (IsTrans.trans _ _ _ hca hab.1))

theorem pairwise_orderedInsert {a : α} {l : List α} (ha : ∀ b ∈ l, s a b)
    (h : l.Pairwise (Stably r s)) :
    (l.orderedInsert r a).Pairwise (Stably r s) := by
  induction l with
  | nil => exact List.pairwise_singleton _ _
  | cons b l ih =>
      obtain ⟨hb, hl⟩ := List.pairwise_cons.mp h
      rw [List.orderedInsert_cons]
      split
      · next hab =>
          have hfirst : Stably r s a b := ⟨hab, fun _ => ha b List.mem_cons_self⟩
          refine List.pairwise_cons.mpr ⟨fun c hc => ?_, h⟩
          rcases List.mem_cons.mp hc with rfl | hc
          · exact hfirst
          · exact hfirst.trans (hb c hc)
      · next hab =>
          have hba : r b a := (total_of r b a).resolve_right hab
          have hrest := ih (fun c hc => ha c (List.mem_cons_of_mem b hc)) hl
          refine List.pairwise_cons.mpr ⟨fun c hc => ?_, hrest⟩
          rcases (List.mem_orderedInsert r).mp hc with rfl | hc
          · exact ⟨hba, fun h => absurd h hab⟩
          · exact hb c hc

theorem pairwise_insertionSort_stably {l : List α} (h : l.Pairwise s) :
    (l.insertionSort r).Pairwise (Stably r s) := by
  induction l with
  | nil => exact .nil
  | cons a l ih =>
      obtain ⟨ha, hl⟩ := List.pairwise_cons.mp h
      refine pairwise_orderedInsert (fun b hb => ?_) (ih hl)
      exact ha b ((List.perm_insertionSort r l).mem_iff.mp hb)

end

end Wms.Lib
