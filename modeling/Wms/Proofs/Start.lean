import Wms.Proofs.Phases

/-!
# Between the lock and the delivery

The phases of all processes, tied to the state they share: a process that is
inside has the lock by its descriptor, one that has let go of it has not, and
one that has logged an abort finds it. The lock is exclusive, so no two
processes are inside, and nothing is delivered by anybody who is not.

That is not enough for one delivery. The permission to start is looked up
before the lock is asked for, and a process that has waited for the lock is
inside with a permission that may be long out of date. Nor is it enough for a
cancel to look at the lock, because the start may be over by then.
-/

namespace Wms.Interface

open Wms.Lib Wms.Lib.Proc
open Wms.Core (Source EnQueuedResult)

/-! ## What one call does -/

/-- A request has been delivered by this call. -/
def Delivers : (c : Call) → Answer c → Prop
  | .deliver _, .ok () => True
  | _, _ => False

/-- The directory has been removed by this call. -/
def Purges : (c : Call) → Answer c → Prop
  | .doPurge _ _, .ok true => True
  | _, _ => False

/-- What a call may append to the history. -/
inductive Appends (request : Request) (c : Call) (r : Answer c) :
    List Entry → Prop where
  | nothing : Appends request c r []
  | event (e : Event) : Appends request c r [.event e]
  | purge (h : Purges c r) : Appends request c r [.purge request]
  | delivery (command : String) (h : Delivers c r) :
      Appends request c r [.delivery command]
  | moved : Appends request c r [.moved]

theorem history_effect (request : Request) (p : ℕ) (env : Env) (c : Call)
    (r : Answer c) :
    ∃ later, (effect request p env c r).history = env.history ++ later ∧
      Appends request c r later := by
  have hsame : env.history = env.history ++ [] := (List.append_nil _).symm
  cases c with
  | logEvent kind =>
      cases r with
      | logged seqcode => exact ⟨_, rfl, .event _⟩
      | _ => exact ⟨[], hsame, .nothing⟩
  | doPurge force isParent =>
      rcases r with e | ⟨_ | _⟩
      · exact ⟨[], hsame, .nothing⟩
      · exact ⟨[], hsame, .nothing⟩
      · exact ⟨_, rfl, .purge trivial⟩
  | deliver command =>
      cases r with
      | error what => exact ⟨[], hsame, .nothing⟩
      | ok u => exact ⟨_, rfl, .delivery command trivial⟩
  | operationLock =>
      rcases r with e | fd
      · cases e <;> exact ⟨[], hsame, .nothing⟩
      · exact ⟨[], hsame, .nothing⟩
  | isOperationLocked =>
      rcases r with e | locked
      · cases e <;> exact ⟨[], hsame, .nothing⟩
      · cases locked <;> exact ⟨[], hsame, .nothing⟩
  | writeJdl text => cases r <;> exact ⟨[], hsame, .nothing⟩
  | renameJdl =>
      cases r with
      | false => exact ⟨[], hsame, .nothing⟩
      | true => exact ⟨_, rfl, .moved⟩
  | _ => exact ⟨[], hsame, .nothing⟩

theorem checked_of_delivers {request : Request} {ph : Phase} {c : Call}
    {r : Answer c} (h : Delivers c r) (hallows : ph.allows request c r) :
    ∃ fd, ph = .checked fd := by
  cases c with
  | deliver command =>
      cases r with
      | error what => cases h
      | ok u => exact hallows
  | _ => cases h

theorem cleared_of_purges {ph : Phase} {c : Call} {r : Answer c}
    (h : Purges c r) (hallows : ph.allows .cancel c r) : ph = .cleared := by
  cases c with
  | doPurge force isParent =>
      rcases r with e | ⟨_ | _⟩
      · cases h
      · cases h
      · exact hallows rfl
  | _ => cases h

theorem found_append (history later : List Entry) (q : Query) :
    found (history ++ later) q = found history q ++ found later q := by
  unfold found lbEvents
  rw [List.filterMap_append, List.filter_append]

theorem found_append_ne {history later : List Entry} {q : Query}
    (h : found history q ≠ []) : found (history ++ later) q ≠ [] := by
  rw [found_append]
  exact List.append_ne_nil_of_left_ne_nil h _

theorem found_effect_ne {request : Request} {p : ℕ} {env : Env} {c : Call}
    {r : Answer c} {q : Query} (h : found env.history q ≠ []) :
    found (effect request p env c r).history q ≠ [] := by
  obtain ⟨later, hlater, _⟩ := history_effect request p env c r
  rw [hlater]
  exact found_append_ne h

/-- The calls that do something to the lock file. -/
def Call.locks : Call → Bool
  | .operationLock => true
  | .operationUnlock _ => true
  | .isOperationLocked => true
  | _ => false

theorem lock_effect {request : Request} {p : ℕ} {env : Env} {c : Call}
    (h : c.locks = false) (r : Answer c) :
    (effect request p env c r).lock = env.lock := by
  cases c with
  | operationLock => cases h
  | operationUnlock fd => cases h
  | isOperationLocked => cases h
  | logEvent kind => cases r <;> rfl
  | doPurge force isParent => rcases r with e | ⟨_ | _⟩ <;> rfl
  | deliver command => cases r <;> rfl
  | writeJdl text => cases r <;> rfl
  | renameJdl => cases r <;> rfl
  | _ => rfl

/-! ## Phases that fit the state -/

/-- What a phase says about the lock and the events. -/
def Phase.Fits (env : Env) (p : ℕ) : Phase → Prop
  | .inside fd => env.lock.HeldBy p fd
  | .checked fd => env.lock.HeldBy p fd
  | .released => env.lock.holder ≠ some p
  | .aborted => found env.history .aborts ≠ []
  | .cleared => found env.history .aborts ≠ []
  | _ => True

/-- A phase fits as long as the lock that is held is kept and the one that is
not held stays so. -/
theorem fits_kept {env env' : Env} {p : ℕ} {ph : Phase} (h : ph.Fits env p)
    (hheld : ∀ fd, env.lock.HeldBy p fd → env'.lock.HeldBy p fd)
    (hne : env.lock.holder ≠ some p → env'.lock.holder ≠ some p)
    (hfound : found env.history .aborts ≠ [] → found env'.history .aborts ≠ []) :
    ph.Fits env' p := by
  cases ph with
  | inside fd => exact hheld fd h
  | checked fd => exact hheld fd h
  | released => exact hne h
  | aborted => exact hfound h
  | cleared => exact hfound h
  | _ => trivial

theorem fits_same_lock {env env' : Env} {p : ℕ} {ph : Phase} (h : ph.Fits env p)
    (hlock : env'.lock = env.lock)
    (hfound : found env.history .aborts ≠ [] → found env'.history .aborts ≠ []) :
    ph.Fits env' p := by
  refine fits_kept h (fun fd hheld => ?_) (fun hne => ?_) hfound
  · rw [hlock]
    exact hheld
  · rw [hlock]
    exact hne

section
variable {request : Request} {p : ℕ} {env : Env} {ph : Phase}

/-- A process that closes the file is without the lock. -/
theorem fits_closed {env' : Env} (h : ph.Fits env p)
    (hheld : ∀ fd, env.lock.HeldBy p fd → ph = .inside fd ∨ ph = .checked fd →
      env'.lock.holder ≠ some p)
    (hne : env.lock.holder ≠ some p → env'.lock.holder ≠ some p)
    (hfound : found env.history .aborts ≠ [] → found env'.history .aborts ≠ []) :
    ph.closed.Fits env' p := by
  cases ph with
  | inside fd => exact hheld fd h (.inl rfl)
  | checked fd => exact hheld fd h (.inr rfl)
  | released => exact hne h
  | aborted => exact hfound h
  | cleared => exact hfound h
  | _ => trivial

theorem fits_seenFree {env' : Env} (h : ph.Fits env p)
    (hclosed : ph.closed.Fits env' p)
    (hfound : found env.history .aborts ≠ [] → found env'.history .aborts ≠ []) :
    ph.seenFree.Fits env' p := by
  cases ph with
  | aborted => exact hfound h
  | _ => exact hclosed

/-- The calls that leave the lock alone. -/
theorem fits_move_unlocked {c : Call} (hc : c.locks = false) (r : Answer c)
    (h : ph.Fits env p) : (ph.move c r).Fits (effect request p env c r) p := by
  have hsame : ph.Fits (effect request p env c r) p :=
    fits_same_lock h (lock_effect hc r) found_effect_ne
  cases c with
  | operationLock => cases hc
  | operationUnlock fd => cases hc
  | isOperationLocked => cases hc
  | logEvent kind =>
      cases kind with
      | abort reason =>
          cases r with
          | logged seqcode =>
              cases ph with
              | before =>
                  show found (env.history ++ [.event _]) .aborts ≠ []
                  rw [found_append]
                  exact List.append_ne_nil_of_right_ne_nil _
                    (List.cons_ne_nil _ _)
              | _ => exact hsame
          | _ => exact hsame
      | _ => exact hsame
  | queryEvents proxy q =>
      cases q with
      | networkServer => exact hsame
      | aborts =>
          rcases r with e | events
          · cases e with
            | noEntry =>
                cases ph with
                | inside fd => exact hsame
                | _ => exact hsame
            | _ => exact hsame
          · exact hsame
  | deliver command =>
      cases r with
      | error what => exact hsame
      | ok u => trivial
  | _ => exact hsame

/-- The lock is refused, or given with the next descriptor. -/
theorem answer_operationLock (p : ℕ) (env : Env) (a : Answer .operationLock) :
    (∃ e, answer p env .operationLock a = .error e) ∨
      (∃ fd, a = .ok fd) ∧ env.directory = true ∧
        answer p env .operationLock a = .ok env.lock.fresh := by
  obtain ⟨history, lock, directory, jdlToStart⟩ := env
  rcases a with e | fd
  · exact .inl ⟨e, rfl⟩
  · cases directory with
    | false => exact .inl ⟨.cannotOpen, rfl⟩
    | true => exact .inr ⟨⟨fd, rfl⟩, rfl, rfl⟩

theorem fits_lockRefused (h : ph.Fits env p) (e : LockError) :
    (ph.move .operationLock (.error e)).Fits
      (effect request p env .operationLock (.error e)) p := by
  cases e with
  | cannotOpen => exact h
  | cannotLock =>
      exact fits_closed h (fun _ _ _ => RecordLock.holder_touch_ne)
        (fun hne => RecordLock.holder_touch_of_ne hne) fun h => h

/-- A call keeps the phase of its process fitting. -/
theorem fits_move {c : Call} (a : Answer c) (h : ph.Fits env p)
    (hallows : ph.allows request c (answer p env c a)) :
    (ph.move c (answer p env c a)).Fits
      (effect request p env c (answer p env c a)) p := by
  cases c with
  | operationLock =>
      rcases answer_operationLock p env a with ⟨e, he⟩ | ⟨_, _, hfd⟩
      · rw [he]
        exact fits_lockRefused h e
      · rw [hfd]
        exact RecordLock.heldBy_acquire
  | operationUnlock fd =>
      refine fits_closed h (fun fd' hheld hph => ?_)
        (fun hne => RecordLock.holder_close_of_ne hne) fun h => h
      have hfd : fd' = fd := hallows fd' hph
      exact RecordLock.holder_close_ne (hfd ▸ hheld.2)
  | isOperationLocked =>
      have hopened : ph.Fits { env with lock := env.lock.openFile p } p :=
        fits_kept h (fun _ hheld => RecordLock.heldBy_openFile hheld)
          (fun hne => hne) fun h => h
      have hclosed : ph.closed.Fits { env with lock := env.lock.touch p } p :=
        fits_closed h (fun _ _ _ => RecordLock.holder_touch_ne)
          (fun hne => RecordLock.holder_touch_of_ne hne) fun h => h
      rcases answer p env .isOperationLocked a with e | locked
      · cases e with
        | cannotOpen => exact h
        | cannotLock => exact hopened
      · cases locked with
        | true => exact hopened
        | false => exact fits_seenFree h hclosed fun h => h
  | _ => exact fits_move_unlocked rfl _ h

/-- And the phases of the others: whoever has the lock is left alone. -/
theorem fits_other {c : Call} {q : ℕ} (hq : q ≠ p) (a : Answer c)
    (henabled : enabled p env c a = true) (h : ph.Fits env q) :
    ph.Fits (effect request p env c (answer p env c a)) q := by
  have htouch : ph.Fits { env with lock := env.lock.touch p } q :=
    fits_kept h (fun _ hheld => RecordLock.heldBy_touch hheld hq)
      (fun hne => RecordLock.holder_touch_of_ne hne) fun h => h
  have hopened : ph.Fits { env with lock := env.lock.openFile p } q :=
    fits_kept h (fun _ hheld => RecordLock.heldBy_openFile hheld)
      (fun hne => hne) fun h => h
  cases c with
  | operationLock =>
      rcases answer_operationLock p env a with ⟨e, he⟩ | ⟨⟨fd, rfl⟩, hdir, hfd⟩
      · rw [he]
        cases e with
        | cannotOpen => exact h
        | cannotLock => exact htouch
      · have hfree : env.lock.free p = true := by
          simpa [enabled, hdir] using henabled
        rw [hfd]
        refine fits_kept h (fun fd' hheld => ?_) (fun _ => ?_) fun h => h
        · exact absurd (RecordLock.eq_of_free hheld hfree).symm hq
        · exact fun hsome => hq (Option.some.inj hsome).symm
  | operationUnlock fd =>
      exact fits_kept h (fun _ hheld => RecordLock.heldBy_close hheld hq)
        (fun hne => RecordLock.holder_close_of_ne hne) fun h => h
  | isOperationLocked =>
      rcases answer p env .isOperationLocked a with e | locked
      · cases e with
        | cannotOpen => exact h
        | cannotLock => exact hopened
      · cases locked with
        | true => exact hopened
        | false => exact htouch
  | _ => exact fits_same_lock h (lock_effect rfl _) found_effect_ne

end

/-! ## All processes -/

/-- The phase of every process that handles a request: its program keeps to
the phase and the phase to the state. -/
structure Tracked (s : State) (φ : ℕ → Phase) : Prop where
  follows : ∀ p t, s.tasks p = some t →
    wp (phases t.request) (fun _ _ => True) (fun _ _ => True) (φ p) t.program
  fits : ∀ p t, s.tasks p = some t → (φ p).Fits s.env p

theorem tracked_init (events : List Event) (jdl : String) :
    Tracked (init events jdl) fun _ => .before := by
  constructor
  · intro p t h
    cases h
  · intro p t h
    cases h

theorem found_of_noEntry {history : List Entry} {q : Query}
    {r : Except QueryError (List Event)}
    (h : lbAnswer history q r = .error .noEntry) : found history q = [] := by
  unfold lbAnswer at h
  split at h
  · cases h
  · cases h
  · split at h
    · next hnone => exact hnone
    · cases h

/-- What a step of a process is. -/
theorem next_step {cfg : Config} {s s' : State} {p : ℕ}
    {ans : (c : Call) → Answer c} (h : next cfg s (.step p ans) = some s') :
    ∃ request c k, s.tasks p = some ⟨request, .call c k⟩ ∧
      enabled p s.env c (ans c) = true ∧
      s' = ⟨effect request p s.env c (answer p s.env c (ans c)),
        Function.update s.tasks p
          (some ⟨request, k (answer p s.env c (ans c))⟩)⟩ := by
  unfold next at h
  dsimp only at h
  split at h
  · cases h
  · next t ht =>
    obtain ⟨request, program⟩ := t
    cases program with
    | ret a => cases h
    | throw e => cases h
    | call c k =>
        unfold stepTask at h
        dsimp only at h
        split at h
        · next hen =>
          cases h
          exact ⟨request, c, k, ht, hen, rfl⟩
        · cases h

theorem calling_eq {s : State} {p : ℕ} {request : Request} {c : Call}
    {k : Answer c → WmpProc Unit}
    (h : s.tasks p = some ⟨request, .call c k⟩) :
    calling s p = some (request, c) := by
  unfold calling
  rw [h]

section
variable {cfg : Config} {s s' : State} {φ : ℕ → Phase}

/-- The answers given are honest: who is without the lock finds an abort. -/
theorem honest_of_looksLocked (ht : Tracked s φ) {p : ℕ}
    {ans : (c : Call) → Answer c} (hok : looksLocked s (.step p ans) = true)
    {request : Request} {c : Call} {k : Answer c → WmpProc Unit}
    (hp : s.tasks p = some ⟨request, .call c k⟩) :
    (φ p).honest c (answer p s.env c (ans c)) := by
  have hfits := ht.fits p _ hp
  unfold looksLocked at hok
  dsimp only at hok
  rw [calling_eq hp] at hok
  cases c with
  | queryEvents proxy q =>
      cases q with
      | networkServer => trivial
      | aborts =>
          cases hr : answer p s.env (.queryEvents proxy .aborts)
              (ans (.queryEvents proxy .aborts)) with
          | ok events => trivial
          | error e =>
              cases e with
              | temporary code => trivial
              | definite code => trivial
              | noEntry =>
                  intro hph
                  rw [hph] at hfits
                  have hnone := found_of_noEntry hr
                  rw [hnone] at hok
                  simp only [Bool.or_eq_true, decide_eq_true_eq] at hok
                  rcases hok with hok | hok
                  · exact hfits hok
                  · cases hok
  | _ => trivial

/-- The phases after a step. -/
def phaseAfter (s : State) (φ : ℕ → Phase) : Label → ℕ → Phase
  | .receive p _ => Function.update φ p .before
  | .step p ans =>
      match calling s p with
      | some (_, c) =>
          Function.update φ p ((φ p).move c (answer p s.env c (ans c)))
      | none => φ
  | _ => φ

theorem phaseAfter_step {p : ℕ} {ans : (c : Call) → Answer c}
    {request : Request} {c : Call} {k : Answer c → WmpProc Unit}
    (hp : s.tasks p = some ⟨request, .call c k⟩) :
    phaseAfter s φ (.step p ans) =
      Function.update φ p ((φ p).move c (answer p s.env c (ans c))) := by
  unfold phaseAfter
  dsimp only
  rw [calling_eq hp]

/-- Changes around the tasks that stay. -/
theorem tracked_of_fewer (ht : Tracked s φ)
    (htasks : ∀ p t, s'.tasks p = some t → s.tasks p = some t)
    (hfits : ∀ p t, s'.tasks p = some t → (φ p).Fits s.env p →
      (φ p).Fits s'.env p) : Tracked s' φ :=
  ⟨fun p t hp => ht.follows p t (htasks p t hp),
    fun p t hp => hfits p t hp (ht.fits p t (htasks p t hp))⟩

theorem some_of_update_none {tasks : ℕ → Option Task} {p q : ℕ} {t : Task}
    (h : Function.update tasks p none q = some t) : q ≠ p ∧ tasks q = some t := by
  by_cases hq : q = p
  · rw [hq, Function.update_self] at h
    cases h
  · rw [Function.update_of_ne hq] at h
    exact ⟨hq, h⟩

theorem tracked_step (ht : Tracked s φ) {p : ℕ} {ans : (c : Call) → Answer c}
    (hok : looksLocked s (.step p ans) = true)
    (h : next cfg s (.step p ans) = some s') :
    Tracked s' (phaseAfter s φ (.step p ans)) := by
  obtain ⟨request, c, k, hp, hen, rfl⟩ := next_step h
  have hwp := ht.follows p _ hp _ (honest_of_looksLocked ht hok hp)
  rw [phaseAfter_step hp]
  constructor
  · intro q t hq
    by_cases hqp : q = p
    · subst hqp
      dsimp only at hq
      rw [Function.update_self] at hq ⊢
      cases hq
      exact hwp.2
    · dsimp only at hq
      rw [Function.update_of_ne hqp] at hq ⊢
      exact ht.follows q t hq
  · intro q t hq
    by_cases hqp : q = p
    · subst hqp
      rw [Function.update_self]
      exact fits_move _ (ht.fits q _ hp) hwp.1
    · dsimp only at hq
      rw [Function.update_of_ne hqp] at hq ⊢
      exact fits_other hqp _ hen (ht.fits q t hq)

/-- Every step keeps the phases. -/
theorem tracked_next (ht : Tracked s φ) {l : Label}
    (hok : looksLocked s l = true) (h : next cfg s l = some s') :
    Tracked s' (phaseAfter s φ l) := by
  cases l with
  | component e =>
      unfold next at h
      dsimp only at h
      split at h
      · cases h
        exact tracked_of_fewer ht (fun p t hp => hp) fun p t _ hfits =>
          fits_same_lock hfits rfl found_append_ne
      · cases h
  | receive p request =>
      unfold next at h
      dsimp only at h
      split at h
      · cases h
      · cases h
        constructor
        · intro q t hq
          by_cases hqp : q = p
          · subst hqp
            dsimp only at hq
            rw [Function.update_self] at hq
            cases hq
            show wp _ _ _ (Function.update φ q Phase.before q) _
            rw [Function.update_self]
            exact wp_handler cfg request
          · dsimp only at hq
            rw [Function.update_of_ne hqp] at hq
            show wp _ _ _ (Function.update φ p Phase.before q) _
            rw [Function.update_of_ne hqp]
            exact ht.follows q t hq
        · intro q t hq
          show (Function.update φ p Phase.before q).Fits s.env q
          by_cases hqp : q = p
          · rw [hqp, Function.update_self]
            trivial
          · dsimp only at hq
            rw [Function.update_of_ne hqp] at hq ⊢
            exact ht.fits q t hq
  | step p ans => exact tracked_step ht hok h
  | finish p =>
      unfold next at h
      dsimp only at h
      split at h
      · cases h
      · split at h
        · cases h
          exact tracked_of_fewer ht (fun q t hq => (some_of_update_none hq).2)
            fun q t _ hfits => hfits
        · cases h
  | exit p =>
      cases h
      refine tracked_of_fewer ht (fun q t hq => (some_of_update_none hq).2)
        fun q t hq hfits => ?_
      have hne := (some_of_update_none hq).1
      exact fits_kept hfits (fun _ hheld => RecordLock.heldBy_exit hheld hne)
        (fun hnot => RecordLock.holder_exit_of_ne hnot) fun h => h

end

/-! ## One delivery

Nothing is delivered while a delivery stands, because a process that is inside
was given the lock when none did and has been alone since. -/

theorem standing_append (history later : List Entry) :
    standing (history ++ later) = later.foldl stand (standing history) :=
  List.foldl_append

theorem failed_of_not_standing {between : List Entry}
    (h : between.foldl stand true = false) :
    ∃ e, .event e ∈ between ∧ isEnqueuedFail e = true := by
  induction between with
  | nil => cases h
  | cons x between ih =>
      rw [List.foldl_cons] at h
      have hrest : between.foldl stand true = false →
          ∃ e, .event e ∈ x :: between ∧ isEnqueuedFail e = true := by
        intro hb
        obtain ⟨e, he, hfail⟩ := ih hb
        exact ⟨e, List.mem_cons_of_mem _ he, hfail⟩
      cases x with
      | delivery command => exact hrest h
      | purge request => exact hrest h
      | moved => exact hrest h
      | event e =>
          cases hfail : isEnqueuedFail e with
          | true => exact ⟨e, List.mem_cons_self, hfail⟩
          | false =>
              have hstand : stand true (.event e) = true := by
                show (true && !isEnqueuedFail e) = true
                rw [hfail]
                rfl
              rw [hstand] at h
              exact hrest h

/-- One more entry, a delivery only when none stands. -/
theorem startedOnce_append {history : List Entry} {x : Entry}
    (h : StartedOnce history)
    (hx : isDelivery x = true → standing history = false) :
    StartedOnce (history ++ [x]) := by
  intro earlier between later a b heq
  rcases List.eq_nil_or_concat later with rfl | ⟨rest, y, rfl⟩
  · have heq' : history ++ [x] =
        (earlier ++ .delivery a :: between) ++ [.delivery b] := heq
    obtain ⟨hhist, hxb⟩ := List.append_inj' heq' rfl
    cases hxb
    have hstand := hx rfl
    rw [hhist, standing_append, List.foldl_cons] at hstand
    exact failed_of_not_standing hstand
  · have heq' : history ++ [x] =
        (earlier ++ .delivery a :: between ++ .delivery b :: rest) ++ [y] := by
      rw [heq]
      simp only [List.append_assoc, List.cons_append, List.concat_eq_append]
    exact h earlier between rest a b (List.append_inj' heq' rfl).1

theorem startedOnce_events (events : List Event) :
    StartedOnce (events.map .event) := by
  intro earlier between later x y heq
  have hmem : Entry.delivery x ∈ events.map Entry.event := by
    rw [heq]
    simp
  obtain ⟨e, _, he⟩ := List.mem_map.mp hmem
  cases he

/-- The process has the lock open. -/
def Phase.holds (ph : Phase) : Prop := ∃ fd, ph = .inside fd ∨ ph = .checked fd

theorem heldBy_of_holds {env : Env} {p : ℕ} {ph : Phase} (h : ph.holds)
    (hfits : ph.Fits env p) : ∃ fd, env.lock.HeldBy p fd := by
  obtain ⟨fd, rfl | rfl⟩ := h
  · exact ⟨fd, hfits⟩
  · exact ⟨fd, hfits⟩

/-- The lock is exclusive. -/
theorem eq_of_holds {env : Env} {p q : ℕ} {ph ph' : Phase} (hp : ph.holds)
    (hq : ph'.holds) (hfp : ph.Fits env p) (hfq : ph'.Fits env q) : p = q := by
  obtain ⟨fd, hheld, _⟩ := heldBy_of_holds hp hfp
  obtain ⟨fd', hheld', _⟩ := heldBy_of_holds hq hfq
  rw [hheld] at hheld'
  exact Option.some.inj hheld'

theorem holds_of_closed {ph : Phase} (h : ph.closed.holds) : ph.holds := by
  obtain ⟨fd, h⟩ := h
  cases ph with
  | inside fd' => exact ⟨fd', .inl rfl⟩
  | checked fd' => exact ⟨fd', .inr rfl⟩
  | _ => exact ⟨fd, h⟩

theorem holds_of_seenFree {ph : Phase} (h : ph.seenFree.holds) : ph.holds := by
  cases ph with
  | aborted => rcases h with ⟨fd, h | h⟩ <;> cases h
  | _ => exact holds_of_closed h

/-- The lock is got by asking for it, and not kept through a delivery. -/
theorem holds_of_move {ph : Phase} {c : Call} {r : Answer c}
    (hc : c ≠ .operationLock) (h : (ph.move c r).holds) :
    ph.holds ∧ ¬ Delivers c r := by
  have hsame : c.calm = true → ph.holds ∧ ¬ Delivers c r := by
    intro hcalm
    rw [move_calm ph hcalm r] at h
    refine ⟨h, ?_⟩
    cases c with
    | deliver command => cases hcalm
    | _ => exact fun h => h
  cases c with
  | operationLock => exact absurd rfl hc
  | operationUnlock fd => exact ⟨holds_of_closed h, fun h => h⟩
  | isOperationLocked =>
      rcases r with e | ⟨_ | _⟩
      · exact ⟨h, fun h => h⟩
      · exact ⟨holds_of_seenFree h, fun h => h⟩
      · exact ⟨h, fun h => h⟩
  | deliver command =>
      cases r with
      | error what => exact ⟨h, fun h => h⟩
      | ok u => rcases h with ⟨fd, h | h⟩ <;> cases h
  | doPurge force isParent => exact ⟨h, fun h => h⟩
  | queryEvents proxy q =>
      cases q with
      | networkServer => exact hsame rfl
      | aborts =>
          refine ⟨?_, fun h => h⟩
          rcases r with e | events
          · cases e with
            | noEntry =>
                cases ph with
                | inside fd => exact ⟨fd, .inl rfl⟩
                | _ => exact h
            | _ => exact h
          · exact h
  | logEvent kind =>
      refine ⟨?_, fun h => h⟩
      cases kind with
      | abort reason =>
          cases r with
          | logged seqcode =>
              cases ph with
              | before => rcases h with ⟨fd, h | h⟩ <;> cases h
              | _ => exact h
          | _ => exact h
      | _ => exact (hsame rfl).1
  | _ => exact hsame rfl

/-- The lock may also be had already when it is asked for and refused. -/
theorem holds_of_move_lock {ph : Phase} {r : Answer .operationLock}
    (h : (ph.move .operationLock r).holds) : ph.holds ∨ ∃ fd, r = .ok fd := by
  rcases r with e | fd
  · cases e with
    | cannotOpen => exact .inl h
    | cannotLock => exact .inl (holds_of_closed h)
  · exact .inr ⟨fd, rfl⟩

/-- The phases are tracked, no delivery stands where a process is inside, and
so far there has been one at a time. -/
structure OneStart (s : State) (φ : ℕ → Phase) : Prop where
  tracked : Tracked s φ
  fresh : ∀ p t, s.tasks p = some t → (φ p).holds →
    standing s.env.history = false
  once : StartedOnce s.env.history

theorem standing_of_appends {request : Request} {c : Call} {r : Answer c}
    {history later : List Entry} (h : Appends request c r later)
    (hc : ¬ Delivers c r) (hs : standing history = false) :
    standing (history ++ later) = false := by
  rw [standing_append, hs]
  cases h with
  | nothing => rfl
  | event e => rfl
  | purge h => rfl
  | moved => rfl
  | delivery command h => exact absurd h hc

section
variable {cfg : Config} {s s' : State} {φ : ℕ → Phase}

/-- A process that is inside after a step saw no delivery standing before it,
and has not delivered anything. -/
theorem fresh_of_step (hs : OneStart s φ) {p : ℕ} {ans : (c : Call) → Answer c}
    (hok : grantedFresh s (.step p ans) = true) {request : Request} {c : Call}
    {k : Answer c → WmpProc Unit}
    (hp : s.tasks p = some ⟨request, .call c k⟩)
    (h : ((φ p).move c (answer p s.env c (ans c))).holds) :
    ¬ Delivers c (answer p s.env c (ans c)) ∧
      standing s.env.history = false := by
  by_cases hc : c = .operationLock
  · subst hc
    refine ⟨fun hd => hd, ?_⟩
    rcases holds_of_move_lock h with hph | ⟨fd, hfd⟩
    · exact hs.fresh p _ hp hph
    · unfold grantedFresh at hok
      dsimp only at hok
      rw [calling_eq hp] at hok
      dsimp only at hok
      rw [hfd] at hok
      simpa using hok
  · obtain ⟨hph, hnot⟩ := holds_of_move hc h
    exact ⟨hnot, hs.fresh p _ hp hph⟩

theorem oneStart_step (hs : OneStart s φ) {p : ℕ} {ans : (c : Call) → Answer c}
    (hok : startsFresh s (.step p ans))
    (h : next cfg s (.step p ans) = some s') :
    OneStart s' (phaseAfter s φ (.step p ans)) := by
  have htracked := tracked_next hs.tracked hok.2 h
  obtain ⟨request, c, k, hp, _, rfl⟩ := next_step h
  have hwp := hs.tracked.follows p _ hp _
    (honest_of_looksLocked hs.tracked hok.2 hp)
  obtain ⟨later, hlater, happends⟩ :=
    history_effect request p s.env c (answer p s.env c (ans c))
  refine ⟨htracked, ?_, ?_⟩
  · intro q t hq hholds
    show standing (effect _ _ _ _ _).history = false
    rw [hlater]
    rw [phaseAfter_step hp] at hholds
    by_cases hqp : q = p
    · rw [hqp, Function.update_self] at hholds
      obtain ⟨hnot, hstand⟩ := fresh_of_step hs hok.1 hp hholds
      exact standing_of_appends happends hnot hstand
    · dsimp only at hq
      rw [Function.update_of_ne hqp] at hq hholds
      refine standing_of_appends happends (fun hd => hqp ?_)
        (hs.fresh q t hq hholds)
      obtain ⟨fd, hfd⟩ := checked_of_delivers hd hwp.1
      exact eq_of_holds hholds ⟨fd, .inr hfd⟩ (hs.tracked.fits q t hq)
        (hs.tracked.fits p _ hp)
  · show StartedOnce (effect _ _ _ _ _).history
    rw [hlater]
    cases happends with
    | nothing => exact (List.append_nil _).symm ▸ hs.once
    | event e => exact startedOnce_append hs.once fun h => by cases h
    | purge hpurge => exact startedOnce_append hs.once fun h => by cases h
    | moved => exact startedOnce_append hs.once fun h => by cases h
    | delivery command hd =>
        obtain ⟨fd, hfd⟩ := checked_of_delivers hd hwp.1
        exact startedOnce_append hs.once fun _ => hs.fresh p _ hp ⟨fd, .inr hfd⟩

theorem oneStart_next (hs : OneStart s φ) {l : Label} (hok : startsFresh s l)
    (h : next cfg s l = some s') : OneStart s' (phaseAfter s φ l) := by
  have htracked := tracked_next hs.tracked hok.2 h
  cases l with
  | step p ans => exact oneStart_step hs hok h
  | component e =>
      unfold next at h
      dsimp only at h
      split at h
      · cases h
        refine ⟨htracked, fun p t hp hholds => ?_, ?_⟩
        · show standing (s.env.history ++ [.event e]) = false
          rw [standing_append, hs.fresh p t hp hholds]
          rfl
        · exact startedOnce_append hs.once fun h => by cases h
      · cases h
  | receive p request =>
      unfold next at h
      dsimp only at h
      split at h
      · cases h
      · cases h
        refine ⟨htracked, fun q t hq hholds => ?_, hs.once⟩
        by_cases hqp : q = p
        · have hbefore : phaseAfter s φ (.receive p request) q = .before := by
            rw [hqp]
            exact Function.update_self _ _ _
          rw [hbefore] at hholds
          rcases hholds with ⟨fd, h | h⟩ <;> cases h
        · have hsame : phaseAfter s φ (.receive p request) q = φ q :=
            Function.update_of_ne hqp _ _
          rw [hsame] at hholds
          dsimp only at hq
          rw [Function.update_of_ne hqp] at hq
          exact hs.fresh q t hq hholds
  | finish p =>
      unfold next at h
      dsimp only at h
      split at h
      · cases h
      · split at h
        · cases h
          exact ⟨htracked, fun q t hq hholds =>
            hs.fresh q t (some_of_update_none hq).2 hholds, hs.once⟩
        · cases h
  | exit p =>
      cases h
      exact ⟨htracked, fun q t hq hholds =>
        hs.fresh q t (some_of_update_none hq).2 hholds, hs.once⟩

end

/-- Between two deliveries an enqueuing has failed, in every run of the kind. -/
theorem startedOnce_of_startsFresh (cfg : Config) (events : List Event)
    (jdl : String) (ls : List Label) (s : State)
    (hok : Meets (next cfg) startsFresh (init events jdl) ls)
    (hrun : run (next cfg) (init events jdl) ls = some s) :
    StartedOnce s.env.history := by
  have hinv : ∃ φ, OneStart s φ :=
    run_invariant (I := fun s => ∃ φ, OneStart s φ)
      (fun s l s' ⟨φ, hs⟩ hok hn => ⟨_, oneStart_next hs hok hn⟩)
      ⟨_, tracked_init events jdl, fun p t h => (by cases h),
        startedOnce_events events⟩ hok hrun
  obtain ⟨φ, hs⟩ := hinv
  exact hs.once

theorem exists_delivery {x : Entry} (h : isDelivery x = true) :
    ∃ command, x = .delivery command := by
  cases x with
  | delivery command => exact ⟨command, rfl⟩
  | _ => cases h

theorem two_deliveries {history : List Entry}
    (h : 2 ≤ history.countP isDelivery) :
    ∃ earlier between later x y,
      history = earlier ++ .delivery x :: between ++ .delivery y :: later := by
  induction history with
  | nil => simp at h
  | cons a history ih =>
      cases ha : isDelivery a with
      | false =>
          rw [List.countP_cons_of_neg (by rw [ha]; exact Bool.false_ne_true)] at h
          obtain ⟨earlier, between, later, x, y, heq⟩ := ih h
          exact ⟨a :: earlier, between, later, x, y, by rw [heq]; rfl⟩
      | true =>
          rw [List.countP_cons_of_pos ha] at h
          obtain ⟨b, hb, hdelivery⟩ := List.countP_pos_iff.mp
            (show 0 < history.countP isDelivery by omega)
          obtain ⟨between, later, heq⟩ := List.append_of_mem hb
          obtain ⟨x, rfl⟩ := exists_delivery ha
          obtain ⟨y, rfl⟩ := exists_delivery hdelivery
          exact ⟨[], between, later, x, y, by rw [heq]; rfl⟩

/-- Where no failure was logged that is one delivery at most. -/
theorem deliveries_le_one {history : List Entry} (h : StartedOnce history)
    (hfail : (lbEvents history).any isEnqueuedFail = false) :
    history.countP isDelivery ≤ 1 := by
  have hnone : ∀ e, .event e ∈ history → isEnqueuedFail e = false := by
    intro e he
    rw [List.any_eq_false] at hfail
    exact Bool.eq_false_iff.mpr
      (hfail e (List.mem_filterMap.mpr ⟨.event e, he, rfl⟩))
  by_contra hlt
  have htwo : 2 ≤ history.countP isDelivery := by omega
  obtain ⟨earlier, between, later, x, y, heq⟩ := two_deliveries htwo
  obtain ⟨e, he, hfails⟩ := h earlier between later x y heq
  have hmem : Entry.event e ∈ history := by
    rw [heq]
    simp [he]
  rw [hnone e hmem] at hfails
  cases hfails

/-! Two processes look up the permission before either has the lock. -/

def sampleConfig : Config where
  jobId := "https://lb:9000/job"
  lbProxy := false
  asyncJobStart := false
  maxInputSandboxFiles := 100
  maxOutputSandboxFiles := 100

/-- Everything goes well, for a single job. -/
def sampleAnswer : (c : Call) → Answer c
  | .work _ => .ok ()
  | .authorize => .ok ()
  | .drained => .ok false
  | .existsFile _ => true
  | .readJdl => .ok ""
  | .jdlSequenceCode => .ok none
  | .reply => false
  | .sendFault => ()
  | .queryEvents _ _ => .ok []
  | .logEvent _ => .logged "NS"
  | .logNodeEvent _ _ => .logged "NS"
  | .setSequenceCode _ => .ok ()
  | .incrementSequenceCode => .ok ()
  | .getSequence => "NS"
  | .operationLock => .ok 0
  | .operationUnlock _ => false
  | .isOperationLocked => .ok false
  | .jobStatus => .ok ⟨none, false, .submitted, .ok⟩
  | .doPurge _ _ => .ok true
  | .getType _ => .ok .job
  | .parseJob _ => .ok ⟨none, none, .normal⟩
  | .parseDag _ => .ok ⟨none, []⟩
  | .finish jdl _ => .ok jdl
  | .command jdl => .ok jdl
  | .deliver _ => .ok ()
  | .forwardCancel _ => .ok ()
  | .writeJdl _ => .ok ()
  | .renameJdl => true

def sampleEvents : List Event :=
  [⟨.networkServer, "UI", .regJob none none none⟩]

def sampleSteps (p n : ℕ) : List Label :=
  List.replicate n (.step p sampleAnswer)

/-- Process 1 has its permission when process 0 is given the lock. -/
def staleStart : List Label :=
  [.receive 0 .start, .receive 1 .start] ++ sampleSteps 0 14 ++
    sampleSteps 1 14 ++ sampleSteps 0 20 ++ sampleSteps 1 16

theorem not_startedOnce_staleStart :
    ∃ s, run (next sampleConfig) (init sampleEvents "jdl") staleStart = some s ∧
      ¬ StartedOnce s.env.history := by
  have hend : (run (next sampleConfig) (init sampleEvents "jdl")
      staleStart).map (fun s => (s.env.history.countP isDelivery,
        (lbEvents s.env.history).any isEnqueuedFail)) =
        some (2, false) := by decide +kernel
  obtain ⟨s, hrun, hs⟩ := Option.map_eq_some_iff.mp hend
  obtain ⟨hcount, hfail⟩ := Prod.mk.inj hs
  refine ⟨s, hrun, fun honce => ?_⟩
  have hle := deliveries_le_one honce hfail
  omega

/-- Started once, and the next start is refused. -/
def startedThenRefused : List Label :=
  [.receive 0 .start] ++ sampleSteps 0 34 ++
    [.finish 0, .receive 1 .start] ++ sampleSteps 1 10 ++ [.finish 1]

theorem startedOnce_startedThenRefused :
    ∃ s, run (next sampleConfig) (init sampleEvents "jdl") startedThenRefused =
        some s ∧ s.env.history.countP isDelivery = 1 ∧
      StartedOnce s.env.history := by
  have hok : ((steps (next sampleConfig) (init sampleEvents "jdl")
      startedThenRefused).all fun p =>
        grantedFresh p.1 p.2 && looksLocked p.1 p.2) = true := by decide +kernel
  have hcount : (run (next sampleConfig) (init sampleEvents "jdl")
      startedThenRefused).map (fun s => s.env.history.countP isDelivery) =
        some 1 := by decide +kernel
  obtain ⟨s, hrun, hs⟩ := Option.map_eq_some_iff.mp hcount
  refine ⟨s, hrun, hs, startedOnce_of_startsFresh sampleConfig sampleEvents "jdl"
    startedThenRefused s (fun p hp => ?_) hrun⟩
  have hstep := List.all_eq_true.mp hok p hp
  rwa [Bool.and_eq_true] at hstep

end Wms.Interface
