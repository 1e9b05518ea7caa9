import Mathlib.Data.List.Basic
import Wms.Lib.Instances

/-!
# Runs of a labelled step function

Every concurrent component of this development is a step function
`next : σ → ℓ → Option σ`: the label names who moves and what the world
answers, `none` says the move is not enabled. A run is a list of labels,
so a concrete interleaving can be evaluated, and `steps` lists what the run
went through, each state paired with the label that leaves it.

The two induction rules below are stated with a side condition on steps,
because most of what is proved here holds only on the runs that avoid one
particular move. The unconditional rules are the instance with no condition.
-/

namespace Wms.Lib

universe u v

variable {σ : Type u} {ℓ : Type v} (next : σ → ℓ → Option σ)

/-- The state a run ends in; `none` when some label was not enabled. -/
def run : σ → List ℓ → Option σ
  | s, [] => some s
  | s, l :: ls =>
      match next s l with
      | none => none
      | some s' => run s' ls

/-- The steps of a run: every state it leaves, with the label it leaves by. -/
def steps : σ → List ℓ → List (σ × ℓ)
  | _, [] => []
  | s, l :: ls =>
      match next s l with
      | none => []
      | some s' => (s, l) :: steps s' ls

/-- A run all of whose steps meet a condition. -/
def Meets (ok : σ → ℓ → Prop) (s : σ) (ls : List ℓ) : Prop :=
  ∀ p ∈ steps next s ls, ok p.1 p.2

variable {next}

@[simp] theorem run_nil (s : σ) : run next s [] = some s := rfl

@[simp] theorem steps_nil (s : σ) : steps next s [] = [] := rfl

theorem run_cons_of_next {s s' : σ} {l : ℓ} {ls : List ℓ}
    (h : next s l = some s') : run next s (l :: ls) = run next s' ls := by
  simp only [run, h]

theorem steps_cons_of_next {s s' : σ} {l : ℓ} {ls : List ℓ}
    (h : next s l = some s') :
    steps next s (l :: ls) = (s, l) :: steps next s' ls := by
  simp only [steps, h]

theorem run_append (s : σ) (ls ms : List ℓ) :
    run next s (ls ++ ms) = (run next s ls).bind fun s' => run next s' ms := by
  induction ls generalizing s with
  | nil => rfl
  | cons l ls ih =>
      simp only [List.cons_append, run]
      cases next s l with
      | none => rfl
      | some s' => exact ih s'

/-- An invariant of the steps that meet `ok` holds where such a run ends. -/
theorem run_invariant {I : σ → Prop} {ok : σ → ℓ → Prop}
    (hstep : ∀ s l s', I s → ok s l → next s l = some s' → I s')
    {s s' : σ} {ls : List ℓ} (hi : I s) (hok : Meets next ok s ls)
    (hrun : run next s ls = some s') : I s' := by
  induction ls generalizing s with
  | nil =>
      simp only [run, Option.some.injEq] at hrun
      exact hrun ▸ hi
  | cons l ls ih =>
      cases hn : next s l with
      | none => simp [run, hn] at hrun
      | some t =>
          rw [run_cons_of_next hn] at hrun
          have hall : ∀ p ∈ (s, l) :: steps next t ls, ok p.1 p.2 := by
            rw [← steps_cons_of_next hn]; exact hok
          refine ih (hstep s l t hi (hall _ List.mem_cons_self) hn) ?_ hrun
          exact fun p hp => hall p (List.mem_cons_of_mem _ hp)

/-- What a step does with a state is mirrored, step by step, in another state. No
run gets stuck then. -/
theorem run_simulation {τ : Type v} {R : σ → τ → Prop} {mirror : τ → ℓ → τ}
    {ls : List ℓ} (hstep : ∀ s t, R s t → ∀ l ∈ ls,
      ∃ s', next s l = some s' ∧ R s' (mirror t l)) {s : σ} {t : τ} (hr : R s t) :
    ∃ s', run next s ls = some s' ∧ R s' (ls.foldl mirror t) := by
  induction ls generalizing s t with
  | nil => exact ⟨s, rfl, hr⟩
  | cons l ls ih =>
      obtain ⟨s', hn, hr'⟩ := hstep s t hr l List.mem_cons_self
      rw [run_cons_of_next hn]
      exact ih (fun s t hr m hm => hstep s t hr m (List.mem_cons_of_mem _ hm)) hr'

/-- Where an invariant enables every label and is kept. -/
theorem run_progress {I : σ → Prop}
    (hstep : ∀ s l, I s → ∃ s', next s l = some s' ∧ I s') {s : σ} (hi : I s)
    (ls : List ℓ) : ∃ s', run next s ls = some s' ∧ I s' :=
  @run_simulation _ _ _ PUnit (fun s _ => I s) (fun _ _ => .unit) ls
    (fun s _ hi l _ => hstep s l hi) s .unit hi

/-- The same invariant holds in every state such a run leaves, whether or not
the run can be completed. -/
theorem steps_invariant {I : σ → Prop} {ok : σ → ℓ → Prop}
    (hstep : ∀ s l s', I s → ok s l → next s l = some s' → I s')
    {s : σ} {ls : List ℓ} (hi : I s) (hok : Meets next ok s ls) :
    ∀ p ∈ steps next s ls, I p.1 := by
  induction ls generalizing s with
  | nil => simp
  | cons l ls ih =>
      cases hn : next s l with
      | none => simp [steps, hn]
      | some t =>
          have hall : ∀ p ∈ (s, l) :: steps next t ls, ok p.1 p.2 := by
            rw [← steps_cons_of_next hn]; exact hok
          rw [steps_cons_of_next hn]
          intro p hp
          rcases List.mem_cons.mp hp with rfl | hp
          · exact hi
          · exact ih (hstep s l t hi (hall _ List.mem_cons_self) hn)
              (fun q hq => hall q (List.mem_cons_of_mem _ hq)) p hp

/-- Where a step keeps `A` exactly when it meets `ok`, a run keeps it throughout
exactly when all of its steps do. -/
theorem prefixes_iff {I A : σ → Prop} {ok : σ → ℓ → Prop} {s : σ} {ls : List ℓ}
    (hstep : ∀ s l s', l ∈ ls → I s → A s → next s l = some s' →
      I s' ∧ (A s' ↔ ok s l)) (hi : I s) (ha : A s) :
    (∀ pre s', pre <+: ls → run next s pre = some s' → A s') ↔
      Meets next ok s ls := by
  induction ls generalizing s with
  | nil =>
      constructor
      · intro _ p hp
        cases hp
      · intro _ pre s' hpre hrun
        obtain rfl := List.prefix_nil.mp hpre
        exact Option.some.inj hrun ▸ ha
  | cons l ls ih =>
      cases hn : next s l with
      | none =>
          constructor
          · intro _ p hp
            simp [steps, hn] at hp
          · intro _ pre s' hpre hrun
            cases pre with
            | nil => exact Option.some.inj hrun ▸ ha
            | cons l' pre =>
                obtain ⟨rfl, -⟩ := List.cons_prefix_cons.mp hpre
                simp [run, hn] at hrun
      | some t =>
          obtain ⟨hi', ha'⟩ := hstep s l t List.mem_cons_self hi ha hn
          have hrest := fun ha'' => ih (fun s l s' hl =>
            hstep s l s' (List.mem_cons_of_mem _ hl)) hi' ha''
          constructor
          · intro hall p hp
            have hat : A t := by
              refine hall [l] t (List.cons_prefix_cons.mpr
                ⟨rfl, ls, rfl⟩) ?_
              rw [run_cons_of_next hn, run_nil]
            rw [steps_cons_of_next hn] at hp
            rcases List.mem_cons.mp hp with rfl | hp
            · exact ha'.mp hat
            · refine (hrest hat).mp (fun pre s' hpre hrun => ?_) p hp
              refine hall (l :: pre) s' (List.cons_prefix_cons.mpr ⟨rfl, hpre⟩) ?_
              rw [run_cons_of_next hn]
              exact hrun
          · intro hok pre s' hpre hrun
            have hall : ∀ p ∈ (s, l) :: steps next t ls, ok p.1 p.2 := by
              rw [← steps_cons_of_next hn]
              exact hok
            have hat := ha'.mpr (hall _ List.mem_cons_self)
            cases pre with
            | nil => exact Option.some.inj hrun ▸ ha
            | cons l' pre =>
                obtain ⟨rfl, htail⟩ := List.cons_prefix_cons.mp hpre
                rw [run_cons_of_next hn] at hrun
                exact (hrest hat).mpr (fun p hp =>
                  hall p (List.mem_cons_of_mem _ hp)) pre s' htail hrun

/-- Where every step from `I` is enabled, and comes back to `I` with the answer
`A` exactly when it meets `ok`, every step of a run does so exactly when all of
them meet it. -/
theorem answers_iff {J I : σ → Prop} {A : ℓ → σ → Prop} {ok : σ → ℓ → Prop}
    (hstep : ∀ s l, J s → I s →
      ∃ s', next s l = some s' ∧ J s' ∧ (I s' ∧ A l s' ↔ ok s l))
    {s : σ} {ls : List ℓ} (hj : J s) (hi : I s) :
    (∀ pre l, pre ++ [l] <+: ls →
        ∃ s', run next s (pre ++ [l]) = some s' ∧ I s' ∧ A l s') ↔
      Meets next ok s ls := by
  induction ls generalizing s with
  | nil =>
      constructor
      · intro _ p hp
        cases hp
      · intro _ pre l hpre
        simp at hpre
  | cons l ls ih =>
      obtain ⟨t, hn, hj', hok⟩ := hstep s l hj hi
      have hmeets : Meets next ok s (l :: ls) ↔ ok s l ∧ Meets next ok t ls := by
        unfold Meets
        rw [steps_cons_of_next hn, List.forall_mem_cons]
      rw [hmeets, ← hok]
      constructor
      · intro hall
        have hfirst : I t ∧ A l t := by
          obtain ⟨s', hrun, hs'⟩ := hall [] l ⟨ls, rfl⟩
          rw [List.nil_append, run_cons_of_next hn, run_nil] at hrun
          exact Option.some.inj hrun ▸ hs'
        refine ⟨hfirst, (ih hj' hfirst.1).mp fun pre l' hpre => ?_⟩
        obtain ⟨s', hrun, hs'⟩ :=
          hall (l :: pre) l' (List.cons_prefix_cons.mpr ⟨rfl, hpre⟩)
        rw [List.cons_append, run_cons_of_next hn] at hrun
        exact ⟨s', hrun, hs'⟩
      · intro ⟨hfirst, hrest⟩ pre l' hpre
        cases pre with
        | nil =>
            obtain ⟨rfl, -⟩ := List.cons_prefix_cons.mp hpre
            refine ⟨t, ?_, hfirst⟩
            rw [List.nil_append, run_cons_of_next hn, run_nil]
        | cons l'' pre =>
            obtain ⟨rfl, htail⟩ := List.cons_prefix_cons.mp hpre
            rw [List.cons_append, run_cons_of_next hn]
            exact (ih hj' hfirst.1).mpr hrest pre l' htail

theorem label_mem_of_steps {s : σ} {ls : List ℓ} {p : σ × ℓ}
    (hp : p ∈ steps next s ls) : p.2 ∈ ls := by
  induction ls generalizing s with
  | nil => cases hp
  | cons l ls ih =>
      cases hn : next s l with
      | none => simp [steps, hn] at hp
      | some t =>
          rw [steps_cons_of_next hn] at hp
          rcases List.mem_cons.mp hp with rfl | hp
          · exact List.mem_cons_self
          · exact List.mem_cons_of_mem _ (ih hp)

theorem meets_true (next : σ → ℓ → Option σ) (s : σ) (ls : List ℓ) :
    Meets next (fun _ _ => True) s ls := fun _ _ => trivial

end Wms.Lib
