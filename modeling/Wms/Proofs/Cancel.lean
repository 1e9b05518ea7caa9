import Wms.Proofs.Start

/-!
# A cancel against a start

A cancel of a job that was not started yet logs an abort, looks at the lock
and, if nobody has it, purges the job. The order matters: a start that gets
the lock later finds the abort, and one that has not delivered yet has the
lock. From such a look on the job is `Doomed`, and it stays so.

The look says nothing about a start that is already over, although the status
the cancel decides by may be from before it.
-/

namespace Wms.Interface

open Wms.Lib Wms.Lib.Proc
open Wms.Core (Source EnQueuedResult)

/-- There is an abort, nothing has been delivered, and no process is past its
look for an abort. -/
structure Doomed (s : State) (φ : ℕ → Phase) : Prop where
  aborted : found s.env.history .aborts ≠ []
  undelivered : s.env.history.any isDelivery = false
  unchecked : ∀ p t, s.tasks p = some t → ∀ fd, φ p ≠ .checked fd

/-- A job that a cancel has purged is doomed, and so is one that a cancel is
about to purge. -/
structure Cancelled (s : State) (φ : ℕ → Phase) : Prop where
  tracked : Tracked s φ
  doomed : (cancelPurged s.env.history = true ∨
    ∃ p t, s.tasks p = some t ∧ t.request = .cancel ∧ φ p = .cleared) →
      Doomed s φ

/-! ## Phases that are entered -/

theorem closed_ne_cleared {ph : Phase} (h : ph.closed = .cleared) :
    ph = .cleared := by
  cases ph with
  | cleared => rfl
  | _ => cases h

theorem closed_ne_checked {ph : Phase} {fd : ℕ} : ph.closed ≠ .checked fd := by
  cases ph with
  | _ => exact fun h => by cases h

/-- A process passes its look for an abort by the query. -/
theorem checked_of_move {ph : Phase} {fd : ℕ} {c : Call} {r : Answer c}
    (hc : ∀ proxy, c ≠ .queryEvents proxy .aborts)
    (h : ph.move c r = .checked fd) : ph = .checked fd := by
  by_cases hcalm : c.calm = true
  · rwa [move_calm ph hcalm] at h
  cases c with
  | queryEvents proxy q =>
      cases q with
      | networkServer => exact h
      | aborts => exact absurd rfl (hc proxy)
  | operationLock =>
      rcases r with e | fd'
      · cases e with
        | cannotOpen => exact h
        | cannotLock => exact absurd h closed_ne_checked
      · cases h
  | operationUnlock fd' => exact absurd h closed_ne_checked
  | isOperationLocked =>
      rcases r with e | ⟨_ | _⟩
      · exact h
      · cases ph with
        | _ => cases h
      · exact h
  | deliver command =>
      rcases r with e | u
      · exact h
      · cases h
  | doPurge force isParent => exact h
  | logEvent kind =>
      cases kind with
      | abort reason =>
          rcases r with code | _ | _
          · cases ph with
            | before => cases h
            | _ => exact h
          · exact h
          · exact h
      | _ => exact absurd rfl hcalm
  | _ => exact absurd rfl hcalm

/-- And the query finds nothing only if there is no abort. -/
theorem checked_of_query {ph : Phase} {p fd : ℕ} {env : Env} {proxy : Bool}
    {a : Answer (.queryEvents proxy .aborts)}
    (h : ph.move (.queryEvents proxy .aborts)
      (answer p env (.queryEvents proxy .aborts) a) = .checked fd) :
    ph = .checked fd ∨ found env.history .aborts = [] := by
  cases hr : answer p env (.queryEvents proxy .aborts) a with
  | ok events =>
      rw [hr] at h
      exact .inl h
  | error e =>
      rw [hr] at h
      cases e with
      | noEntry => exact .inr (found_of_noEntry hr)
      | temporary code => exact .inl h
      | definite code => exact .inl h

/-- A process clears its purge by its own look at the lock. -/
theorem cleared_of_move {ph : Phase} {c : Call} {r : Answer c}
    (hc : c ≠ .isOperationLocked) (h : ph.move c r = .cleared) :
    ph = .cleared := by
  by_cases hcalm : c.calm = true
  · rwa [move_calm ph hcalm] at h
  cases c with
  | isOperationLocked => exact absurd rfl hc
  | operationLock =>
      rcases r with e | fd
      · cases e with
        | cannotOpen => exact h
        | cannotLock => exact closed_ne_cleared h
      · cases h
  | operationUnlock fd => exact closed_ne_cleared h
  | deliver command =>
      rcases r with e | u
      · exact h
      · cases h
  | doPurge force isParent => exact h
  | queryEvents proxy q =>
      cases q with
      | networkServer => exact h
      | aborts =>
          rcases r with e | events
          · cases e with
            | noEntry =>
                cases ph with
                | inside fd => cases h
                | _ => exact h
            | _ => exact h
          · exact h
  | logEvent kind =>
      cases kind with
      | abort reason =>
          rcases r with code | _ | _
          · cases ph with
            | before => cases h
            | _ => exact h
          · exact h
          · exact h
      | _ => exact absurd rfl hcalm
  | _ => exact absurd rfl hcalm

/-- A look at the lock that clears a purge has found nobody with the lock. -/
theorem cleared_of_look {ph : Phase} {p : ℕ} {env : Env}
    {a : Answer .isOperationLocked}
    (h : ph.move .isOperationLocked (answer p env .isOperationLocked a) =
      .cleared) :
    ph = .cleared ∨ ph = .aborted ∧ env.lock.free p = true ∧
      answer p env .isOperationLocked a = .ok false := by
  obtain ⟨history, lock, directory, jdlToStart⟩ := env
  rcases a with e | locked
  · exact .inl h
  · cases directory with
    | false => exact .inl h
    | true =>
        have hanswer : answer p ⟨history, lock, true, jdlToStart⟩
            .isOperationLocked (.ok locked) = .ok (lock.lockedFor p) := rfl
        rw [hanswer] at h ⊢
        cases hl : lock.lockedFor p with
        | true =>
            rw [hl] at h
            exact .inl h
        | false =>
            rw [hl] at h
            have hfree : lock.free p = true := by
              simpa [RecordLock.lockedFor] using hl
            cases ph with
            | aborted => exact .inr ⟨rfl, hfree, rfl⟩
            | cleared => exact .inl rfl
            | _ => cases h

/-! ## Steps -/

section
variable {cfg : Config} {s s' : State} {φ : ℕ → Phase}

/-- Doomed is doomed, whatever a process does next. -/
theorem doomed_step (ht : Tracked s φ) (hd : Doomed s φ) {p : ℕ}
    {ans : (c : Call) → Answer c} (hok : looksLocked s (.step p ans) = true)
    (h : next cfg s (.step p ans) = some s') :
    Doomed s' (phaseAfter s φ (.step p ans)) := by
  obtain ⟨request, c, k, hp, _, rfl⟩ := next_step h
  have hwp := ht.follows p _ hp _ (honest_of_looksLocked ht hok hp)
  obtain ⟨later, hlater, happends⟩ :=
    history_effect request p s.env c (answer p s.env c (ans c))
  have hnot : ¬ Delivers c (answer p s.env c (ans c)) := by
    intro hdelivers
    obtain ⟨fd, hfd⟩ := checked_of_delivers hdelivers hwp.1
    exact hd.unchecked p _ hp fd hfd
  refine ⟨found_effect_ne hd.aborted, ?_, ?_⟩
  · show (effect _ _ _ _ _).history.any isDelivery = false
    rw [hlater, List.any_append, hd.undelivered, Bool.false_or]
    cases happends with
    | delivery command hdelivers => exact absurd hdelivers hnot
    | _ => rfl
  · intro q t hq fd
    rw [phaseAfter_step hp]
    by_cases hqp : q = p
    · rw [hqp, Function.update_self]
      intro hchecked
      by_cases hc : ∃ proxy, c = .queryEvents proxy .aborts
      · obtain ⟨proxy, rfl⟩ := hc
        rcases checked_of_query hchecked with hph | hnone
        · exact hd.unchecked p _ hp fd hph
        · exact hd.aborted hnone
      · have hne : ∀ proxy, c ≠ .queryEvents proxy .aborts :=
          fun proxy he => hc ⟨proxy, he⟩
        exact hd.unchecked p _ hp fd (checked_of_move hne hchecked)
    · dsimp only at hq
      rw [Function.update_of_ne hqp] at hq ⊢
      exact hd.unchecked q t hq fd

/-- A look at the lock that finds it free before anything was delivered. -/
theorem doomed_of_look (ht : Tracked s φ) {p : ℕ} {ans : (c : Call) → Answer c}
    (hok : cancelsFirst s (.step p ans) = true)
    {k : Answer .isOperationLocked → WmpProc Unit}
    (hp : s.tasks p = some ⟨.cancel, .call .isOperationLocked k⟩)
    (haborted : φ p = .aborted) (hfree : s.env.lock.free p = true)
    (hanswer : answer p s.env .isOperationLocked (ans .isOperationLocked) =
      .ok false) : Doomed s φ := by
  have hfits := ht.fits p _ hp
  rw [haborted] at hfits
  refine ⟨hfits, ?_, ?_⟩
  · unfold cancelsFirst at hok
    dsimp only at hok
    rw [calling_eq hp] at hok
    dsimp only at hok
    rw [hanswer] at hok
    simpa using hok
  · intro q t hq fd hfd
    have hheld := ht.fits q t hq
    rw [hfd] at hheld
    have hpq : p = q := RecordLock.eq_of_free hheld hfree
    rw [← hpq, haborted] at hfd
    cases hfd

theorem cancelled_step (hs : Cancelled s φ) {p : ℕ}
    {ans : (c : Call) → Answer c} (hok : purgesUnstarted s (.step p ans))
    (h : next cfg s (.step p ans) = some s') :
    Cancelled s' (phaseAfter s φ (.step p ans)) := by
  refine ⟨tracked_next hs.tracked hok.2 h, fun hwhy => ?_⟩
  refine doomed_step hs.tracked ?_ hok.2 h
  obtain ⟨request, c, k, hp, _, rfl⟩ := next_step h
  have hwp := hs.tracked.follows p _ hp _
    (honest_of_looksLocked hs.tracked hok.2 hp)
  obtain ⟨later, hlater, happends⟩ :=
    history_effect request p s.env c (answer p s.env c (ans c))
  rcases hwhy with hpurged | ⟨q, t, hq, hrequest, hcleared⟩
  · dsimp only at hpurged
    rw [hlater, cancelPurged, List.any_append, Bool.or_eq_true] at hpurged
    rcases hpurged with hpurged | hpurged
    · exact hs.doomed (.inl hpurged)
    · cases happends with
      | nothing => cases hpurged
      | event e => cases hpurged
      | moved => cases hpurged
      | delivery command hdelivers => cases hpurged
      | purge hpurges =>
          cases request with
          | start => cases hpurged
          | cancel =>
              exact hs.doomed (.inr ⟨p, _, hp, rfl,
                cleared_of_purges hpurges hwp.1⟩)
  · rw [phaseAfter_step hp] at hcleared
    dsimp only at hq
    by_cases hqp : q = p
    · subst hqp
      rw [Function.update_self] at hq hcleared
      cases hq
      cases hrequest
      by_cases hc : c = .isOperationLocked
      · subst hc
        rcases cleared_of_look hcleared with hph | ⟨hph, hfree, hanswer⟩
        · exact hs.doomed (.inr ⟨q, _, hp, rfl, hph⟩)
        · exact doomed_of_look hs.tracked hok.1 hp hph hfree hanswer
      · exact hs.doomed (.inr ⟨q, _, hp, rfl, cleared_of_move hc hcleared⟩)
    · rw [Function.update_of_ne hqp] at hq hcleared
      exact hs.doomed (.inr ⟨q, t, hq, hrequest, hcleared⟩)

/-- The other steps: nothing is delivered or purged, and no phase entered. -/
theorem cancelled_of_fewer (hs : Cancelled s φ) {φ' : ℕ → Phase}
    (htracked : Tracked s' φ') {later : List Entry}
    (hhistory : s'.env.history = s.env.history ++ later)
    (hlater : cancelPurged later = false ∧ later.any isDelivery = false)
    (htasks : ∀ p t, s'.tasks p = some t →
      φ' p = .before ∨ s.tasks p = some t ∧ φ' p = φ p) : Cancelled s' φ' := by
  refine ⟨htracked, fun hwhy => ?_⟩
  have hd : Doomed s φ := by
    refine hs.doomed ?_
    rcases hwhy with hpurged | ⟨p, t, hp, hrequest, hcleared⟩
    · rw [hhistory, cancelPurged, List.any_append, Bool.or_eq_true] at hpurged
      rcases hpurged with hpurged | hpurged
      · exact .inl hpurged
      · exact absurd hpurged (Bool.eq_false_iff.mp hlater.1)
    · rcases htasks p t hp with hbefore | ⟨hp', hph⟩
      · rw [hbefore] at hcleared
        cases hcleared
      · exact .inr ⟨p, t, hp', hrequest, hph ▸ hcleared⟩
  refine ⟨?_, ?_, fun p t hp fd hfd => ?_⟩
  · rw [hhistory]
    exact found_append_ne hd.aborted
  · rw [hhistory, List.any_append, hd.undelivered, hlater.2]
    rfl
  · rcases htasks p t hp with hbefore | ⟨hp', hph⟩
    · rw [hbefore] at hfd
      cases hfd
    · exact hd.unchecked p t hp' fd (hph ▸ hfd)

theorem cancelled_next (hs : Cancelled s φ) {l : Label}
    (hok : purgesUnstarted s l) (h : next cfg s l = some s') :
    Cancelled s' (phaseAfter s φ l) := by
  have htracked := tracked_next hs.tracked hok.2 h
  cases l with
  | step p ans => exact cancelled_step hs hok h
  | component e =>
      unfold next at h
      dsimp only at h
      split at h
      · cases h
        exact cancelled_of_fewer hs htracked rfl ⟨rfl, rfl⟩
          fun p t hp => .inr ⟨hp, rfl⟩
      · cases h
  | receive p request =>
      unfold next at h
      dsimp only at h
      split at h
      · cases h
      · cases h
        refine cancelled_of_fewer hs htracked (List.append_nil _).symm
          ⟨rfl, rfl⟩ fun q t hq => ?_
        by_cases hqp : q = p
        · rw [hqp]
          exact .inl (Function.update_self _ _ _)
        · dsimp only at hq
          rw [Function.update_of_ne hqp] at hq
          exact .inr ⟨hq, Function.update_of_ne hqp _ _⟩
  | finish p =>
      unfold next at h
      dsimp only at h
      split at h
      · cases h
      · split at h
        · cases h
          exact cancelled_of_fewer hs htracked (List.append_nil _).symm
            ⟨rfl, rfl⟩ fun q t hq => .inr ⟨(some_of_update_none hq).2, rfl⟩
        · cases h
  | exit p =>
      cases h
      exact cancelled_of_fewer hs htracked (List.append_nil _).symm
        ⟨rfl, rfl⟩ fun q t hq => .inr ⟨(some_of_update_none hq).2, rfl⟩

end

/-- A job that a cancel has purged is never delivered, in every run of the
kind. -/
theorem undelivered_of_purgesUnstarted (cfg : Config) (events : List Event)
    (jdl : String) (ls : List Label) (s : State)
    (hok : Meets (next cfg) purgesUnstarted (init events jdl) ls)
    (hrun : run (next cfg) (init events jdl) ls = some s)
    (hpurged : cancelPurged s.env.history = true) :
    s.env.history.any isDelivery = false := by
  have hinit : Cancelled (init events jdl) fun _ => .before := by
    refine ⟨tracked_init events jdl, ?_⟩
    rintro (hpurged | ⟨p, t, hp, _, _⟩)
    · have hnone : cancelPurged (events.map .event) = false := by
        rw [cancelPurged, List.any_map, List.any_eq_false]
        exact fun e _ h => by cases h
      exact absurd hpurged (Bool.eq_false_iff.mp hnone)
    · cases hp
  have hinv : ∃ φ, Cancelled s φ :=
    run_invariant (I := fun s => ∃ φ, Cancelled s φ)
      (fun s l s' ⟨φ, hs⟩ hok hn => ⟨_, cancelled_next hs hok hn⟩)
      ⟨_, hinit⟩ hok hrun
  obtain ⟨φ, hs⟩ := hinv
  exact (hs.doomed (.inl hpurged)).undelivered

/-! The cancel has its status from before the start, and looks at the lock
after it. -/

/-- The cancel has asked for the status after 8 steps. -/
def lateCancel : List Label :=
  [.receive 0 .start, .receive 1 .cancel] ++ sampleSteps 1 8 ++
    sampleSteps 0 34 ++ sampleSteps 1 14

theorem not_undelivered_lateCancel :
    ∃ s, run (next sampleConfig) (init sampleEvents "jdl") lateCancel = some s ∧
      cancelPurged s.env.history = true ∧
      s.env.history.any isDelivery = true := by
  have hend : (run (next sampleConfig) (init sampleEvents "jdl")
      lateCancel).map (fun s => (cancelPurged s.env.history,
        s.env.history.any isDelivery)) = some (true, true) := by decide +kernel
  obtain ⟨s, hrun, hs⟩ := Option.map_eq_some_iff.mp hend
  obtain ⟨hpurged, hdelivered⟩ := Prod.mk.inj hs
  exact ⟨s, hrun, hpurged, hdelivered⟩

/-- The start comes too late: the job has been aborted and purged, and what it
still has of the description is of no use. -/
def earlyCancel : List Label :=
  [.receive 0 .start] ++ sampleSteps 0 14 ++ [.receive 1 .cancel] ++
    sampleSteps 1 22 ++ [.finish 1] ++ sampleSteps 0 1

theorem undelivered_earlyCancel :
    ∃ s, run (next sampleConfig) (init sampleEvents "jdl") earlyCancel = some s ∧
      cancelPurged s.env.history = true ∧
      s.env.history.any isDelivery = false := by
  have hok : ((steps (next sampleConfig) (init sampleEvents "jdl")
      earlyCancel).all fun p =>
        cancelsFirst p.1 p.2 && looksLocked p.1 p.2) = true := by decide +kernel
  have hend : (run (next sampleConfig) (init sampleEvents "jdl")
      earlyCancel).map (fun s => cancelPurged s.env.history) =
        some true := by decide +kernel
  obtain ⟨s, hrun, hs⟩ := Option.map_eq_some_iff.mp hend
  refine ⟨s, hrun, hs, undelivered_of_purgesUnstarted sampleConfig sampleEvents
    "jdl" earlyCancel s (fun p hp => ?_) hrun hs⟩
  have hstep := List.all_eq_true.mp hok p hp
  rwa [Bool.and_eq_true] at hstep

end Wms.Interface
