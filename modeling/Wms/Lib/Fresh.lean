import Wms.Lib.Lts

/-!
# Runs whose labels bring new names

A label may bring a name into the state. Where no name is brought twice, each is
unknown to the state that it is brought to, so an invariant that needs the
names to be new holds throughout.
-/

namespace Wms.Lib

universe u v w

variable {σ : Type u} {ℓ : Type v} {ν : Type w} {next : σ → ℓ → Option σ}

/-- The invariant of a step with an unknown name, along a run without a name
brought twice. -/
theorem run_invariant_of_fresh (known : σ → ν → Prop) (brings : ℓ → Option ν)
    {I : σ → Prop}
    (hstep : ∀ s l s', I s → (∀ n, brings l = some n → ¬ known s n) →
      next s l = some s' →
      I s' ∧ ∀ n, known s' n → known s n ∨ brings l = some n)
    {s s' : σ} {ls : List ℓ} (hi : I s) (hnodup : (ls.filterMap brings).Nodup)
    (hnew : ∀ n ∈ ls.filterMap brings, ¬ known s n)
    (hrun : run next s ls = some s') : I s' := by
  induction ls generalizing s with
  | nil => exact Option.some.inj hrun ▸ hi
  | cons l ls ih =>
      cases hn : next s l with
      | none => simp [run, hn] at hrun
      | some t =>
          rw [run_cons_of_next hn] at hrun
          have hfirst : ∀ n, brings l = some n → ¬ known s n := by
            intro n hb
            exact hnew n (List.mem_filterMap.mpr ⟨l, List.mem_cons_self, hb⟩)
          obtain ⟨hi', hknown⟩ := hstep s l t hi hfirst hn
          have hrest : ∀ n ∈ ls.filterMap brings,
              n ∈ (l :: ls).filterMap brings := by
            intro n hmem
            obtain ⟨l', hl', hb⟩ := List.mem_filterMap.mp hmem
            exact List.mem_filterMap.mpr ⟨l', List.mem_cons_of_mem l hl', hb⟩
          refine ih hi' ?_ (fun n hmem hk => ?_) hrun
          · exact (List.Sublist.filterMap brings
              (List.sublist_cons_self l ls)).nodup hnodup
          · rcases hknown n hk with hk | hb
            · exact hnew n (hrest n hmem) hk
            · rw [List.filterMap_cons_some hb] at hnodup
              exact (List.nodup_cons.mp hnodup).1 hmem

end Wms.Lib
