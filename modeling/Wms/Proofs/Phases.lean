import Wms.Interface.Start

/-!
# The phases of a request

What a process may do next depends on a few things it has done: whether it
has been given the lock and has not let go of it, whether it has looked for an
abort since, whether it has logged one itself. `Phase` keeps these apart, and
`phases` says how each call moves between them and in which of them a delivery
and a purge may be made. That the programs keep to it is shown stage by stage,
by their weakest preconditions.

The stages fall into three groups. Most move nothing at all. A description is
filled in with the lock, which may get lost on the way only if the stage ends
in an exception. What handles the exception has no lock any more when it goes
on, so it has to come across the abort it has logged.
-/

namespace Wms.Interface

open Wms.Lib Wms.Lib.Proc
open Wms.Core (Source EnQueuedResult)

/-! ## Phases -/

/-- `inside` and `checked` are with the lock, before and after the look for an
abort; `released` without it again. `aborted` and `cleared` are those of a
request that has logged an abort, and has then found the lock free. -/
inductive Phase where
  | before
  | inside (fd : ℕ)
  | checked (fd : ℕ)
  | released
  | done
  | aborted
  | cleared
  deriving DecidableEq

/-- The file has been closed. -/
def Phase.closed : Phase → Phase
  | .inside _ => .released
  | .checked _ => .released
  | ph => ph

/-- The lock has been looked at and nobody else has it. -/
def Phase.seenFree : Phase → Phase
  | .aborted => .cleared
  | ph => ph.closed

/-- What a call does to the phase. -/
def Phase.move (ph : Phase) : (c : Call) → Answer c → Phase
  | .operationLock, .ok fd => .inside fd
  | .operationLock, .error .cannotLock => ph.closed
  | .operationUnlock _, _ => ph.closed
  | .isOperationLocked, .ok false => ph.seenFree
  | .logEvent (.abort _), .logged _ =>
      match ph with
      | .before => .aborted
      | ph => ph
  | .queryEvents _ .aborts, .error .noEntry =>
      match ph with
      | .inside fd => .checked fd
      | ph => ph
  | .deliver _, .ok () => .done
  | _, _ => ph

/-- A process that has let go of the lock finds an abort. -/
def Phase.honest (ph : Phase) : (c : Call) → Answer c → Prop
  | .queryEvents _ .aborts, .error .noEntry => ph ≠ .released
  | _, _ => True

/-- A process closes the descriptor it has the lock by. -/
def Phase.ownsOnly (ph : Phase) (fd : ℕ) : Prop :=
  ∀ fd', ph = .inside fd' ∨ ph = .checked fd' → fd' = fd

/-- A delivery is made with the lock and after the look for an abort, the purge
of a cancel after its look at the lock. -/
def Phase.allows (request : Request) (ph : Phase) : (c : Call) → Answer c → Prop
  | .operationUnlock fd, _ => ph.ownsOnly fd
  | .deliver _, .ok () => ∃ fd, ph = .checked fd
  | .doPurge _ _, .ok true => request = .cancel → ph = .cleared
  | _, _ => True

/-- The contract by which the phases are followed. -/
def phases (request : Request) : Contract Phase Call Answer where
  world := fun ph c r => (r, ph.move c r)
  assume := Phase.honest
  guard := Phase.allows request

/-! ## Calls that move nothing -/

/-- A call in the middle of a phase. -/
def Call.calm : Call → Bool
  | .operationLock => false
  | .operationUnlock _ => false
  | .isOperationLocked => false
  | .deliver _ => false
  | .doPurge _ _ => false
  | .queryEvents _ .aborts => false
  | .logEvent (.abort _) => false
  | _ => true

theorem move_calm (ph : Phase) {c : Call} (h : c.calm = true) (r : Answer c) :
    ph.move c r = ph := by
  cases c with
  | operationLock => cases h
  | operationUnlock fd => cases h
  | isOperationLocked => cases h
  | deliver command => cases h
  | queryEvents proxy q =>
      cases q with
      | aborts => cases h
      | networkServer => rfl
  | logEvent kind =>
      cases kind with
      | abort reason => cases h
      | _ => rfl
  | _ => rfl

theorem allows_calm (request : Request) (ph : Phase) {c : Call}
    (h : c.calm = true) (r : Answer c) : ph.allows request c r := by
  cases c with
  | operationUnlock fd => cases h
  | deliver command => cases h
  | doPurge force isParent => cases h
  | _ => trivial

/-- A program of such calls only. -/
def Calm {α : Type} (p : WmpProc α) : Prop := CallsOnly (fun c => c.calm = true) p

/-- A program that ends in the phase it began in. -/
def Stays {α : Type} (request : Request) (ph : Phase) (p : WmpProc α) : Prop :=
  wp (phases request) (fun s _ => s = ph) (fun s _ => s = ph) ph p

section
variable {α β : Type} {request : Request} {ph : Phase}

theorem calm_ask {c : Call} (h : c.calm = true) : Calm (ask c) :=
  callsOnly_perform h

theorem calm_ofExcept (r : Except Exn α) : Calm (.ofExcept r : WmpProc α) :=
  callsOnly_ofExcept r

theorem calm_bind {p : WmpProc α} {f : α → WmpProc β} (hp : Calm p)
    (hf : ∀ a, Calm (f a)) : Calm (p >>= f) := callsOnly_bind hp hf

theorem calm_tryCatch {p : WmpProc α} {h : Exn → WmpProc α} (hp : Calm p)
    (hh : ∀ e, Calm (h e)) : Calm (p.tryCatch h) := callsOnly_tryCatch hp hh

theorem calm_work (w : Work) : Calm (work w) :=
  calm_bind (calm_ask rfl) fun r => calm_ofExcept r

theorem callsOnly_logLaps {P : Call → Prop} {log : WmpProc LogResult}
    (h : CallsOnly P log) (left : ℕ) : CallsOnly P (logLaps log left) := by
  induction left with
  | zero =>
      unfold logLaps
      refine callsOnly_bind h fun r => ?_
      cases r with
      | _ => trivial
  | succ n ih =>
      unfold logLaps
      refine callsOnly_bind h fun r => ?_
      cases r with
      | failed => exact ih
      | _ => trivial

theorem callsOnly_work {P : Call → Prop} {w : Work} (h : P (.work w)) :
    CallsOnly P (work w) := by
  refine callsOnly_bind (callsOnly_perform h) fun r => ?_
  exact callsOnly_ofExcept r

theorem callsOnly_logTries {P : Call → Prop} {kind : EventKind}
    (h : P (.logEvent kind)) (n : ℕ) : CallsOnly P (logTries kind n) := by
  induction n with
  | zero => trivial
  | succ n ih =>
      refine callsOnly_bind (callsOnly_perform h) fun r => ?_
      cases r with
      | logged code => trivial
      | _ => exact ih

theorem callsOnly_logEvent {P : Call → Prop} {kind : EventKind}
    (h : P (.logEvent kind)) : CallsOnly P (logEvent kind) := by
  refine callsOnly_logLaps ?_ _
  exact callsOnly_perform h

theorem calm_logEvent {kind : EventKind} (h : (Call.logEvent kind).calm = true) :
    Calm (logEvent kind) :=
  callsOnly_logEvent h

theorem callsOnly_logListener {P : Call → Prop} (h : P (.logEvent .listener)) :
    CallsOnly P logListener := by
  refine callsOnly_bind (callsOnly_logTries h _) fun logged => ?_
  split <;> trivial

theorem callsOnly_queryLaps {P : Call → Prop} {q : Query}
    (h : ∀ proxy, P (.queryEvents proxy q)) (proxy : Bool) (n : ℕ) :
    CallsOnly P (queryLaps q proxy n) := by
  induction n generalizing proxy with
  | zero => trivial
  | succ n ih =>
      have honce : CallsOnly P (queryOnce proxy q) := by
        refine callsOnly_bind (callsOnly_perform (h _)) fun r => ?_
        split
        · refine callsOnly_bind ?_ fun r => trivial
          exact callsOnly_perform (h _)
        · trivial
      refine callsOnly_bind honce fun r => ?_
      obtain ⟨r, proxy'⟩ := r
      dsimp only
      split
      · split
        · trivial
        · exact ih proxy'
      · trivial

theorem callsOnly_isStartAllowed {P : Call → Prop}
    (h : ∀ proxy, P (.queryEvents proxy .networkServer)) (cfg : Config) :
    CallsOnly P (isStartAllowed cfg) := by
  refine callsOnly_bind (callsOnly_queryLaps h _ _) fun r => ?_
  cases r with
  | error e => trivial
  | ok events => exact callsOnly_ofExcept _

theorem calm_isStartAllowed (cfg : Config) : Calm (isStartAllowed cfg) :=
  callsOnly_isStartAllowed (fun _ => rfl) cfg

theorem calm_getLastEventSeqCode (cfg : Config) :
    Calm (getLastEventSeqCode cfg) := by
  refine calm_bind (callsOnly_queryLaps (fun _ => rfl) _ _) fun r => ?_
  cases r with
  | error e => trivial
  | ok events => trivial

theorem stays_calm {p : WmpProc α} (h : Calm p) : Stays request ph p := by
  refine wp_of_callsOnly (I := fun s => s = ph) ?_ h rfl
  rintro s c r hc rfl _
  exact ⟨allows_calm request s hc r, move_calm s hc r⟩

/-! Programs are followed through their phases with these. -/

variable {Q : Phase → α → Prop} {E : Phase → Exn → Prop}

theorem wp_then {p : WmpProc α} {f : α → WmpProc β} {Q : Phase → β → Prop}
    (hp : Stays request ph p) (hE : ∀ e, E ph e)
    (hf : ∀ a, wp (phases request) Q E ph (f a)) :
    wp (phases request) Q E ph (p >>= f) := by
  refine (wp_bind _ _ _).mpr (wp_mono ?_ ?_ hp)
  · rintro s a rfl
    exact hf a
  · rintro s e rfl
    exact hE e

theorem wp_stays {p : WmpProc α} (hp : Stays request ph p)
    (hQ : ∀ a, Q ph a) (hE : ∀ e, E ph e) : wp (phases request) Q E ph p := by
  refine wp_mono ?_ ?_ hp
  · rintro s a rfl
    exact hQ a
  · rintro s e rfl
    exact hE e

end

/-! ## Starting, stage by stage -/

section
variable {α : Type}

/-- Once a phase has been left behind, an abort changes nothing. -/
theorem stays_logAbort {request : Request} {ph : Phase} (h : ph ≠ .before)
    (reason : String) : Stays request ph (ask (.logEvent (.abort reason))) := by
  intro r _
  refine ⟨trivial, ?_⟩
  cases r with
  | logged code =>
      cases ph with
      | before => exact absurd rfl h
      | _ => rfl
  | _ => rfl

theorem stays_logLaps {request : Request} {ph : Phase} {log : WmpProc LogResult}
    (h : Stays request ph log) (left : ℕ) : Stays request ph (logLaps log left) := by
  induction left with
  | zero =>
      unfold logLaps
      refine wp_then h (fun _ => rfl) fun r => ?_
      cases r with
      | _ => exact rfl
  | succ n ih =>
      unfold logLaps
      refine wp_then h (fun _ => rfl) fun r => ?_
      cases r with
      | failed => exact ih
      | _ => exact rfl

theorem stays_logTries {request : Request} {ph : Phase} {kind : EventKind}
    (h : Stays request ph (ask (.logEvent kind))) (n : ℕ) :
    Stays request ph (logTries kind n) := by
  induction n with
  | zero => exact rfl
  | succ n ih =>
      refine wp_then h (fun _ => rfl) fun r => ?_
      cases r with
      | logged code => exact rfl
      | _ => exact ih

theorem stays_abort {request : Request} {ph : Phase} (h : ph ≠ .before)
    (reason : String) : Stays request ph (logEvent (.abort reason)) :=
  stays_logLaps (stays_logAbort h reason) _

/-- A purge is made in one phase or another; it moves none. -/
theorem stays_jobpurge {request : Request} {ph : Phase}
    (h : request = .cancel → ph = .cleared) (checkstate : Bool) :
    Stays request ph (jobpurge checkstate) := by
  refine wp_then (stays_calm (calm_work _)) (fun _ => rfl) fun _ => ?_
  refine wp_then (stays_calm (calm_tryCatch (calm_work _) fun _ => calm_work _))
    (fun _ => rfl) fun _ => ?_
  refine wp_then (stays_calm (calm_work _)) (fun _ => rfl) fun _ => ?_
  refine wp_then (stays_calm (calm_ask rfl)) (fun _ => rfl) fun r => ?_
  refine wp_then (stays_calm (calm_ofExcept r)) (fun _ => rfl) fun status => ?_
  dsimp only
  split
  · have hpurge : Stays request ph
        (ask (.doPurge status.parent.isSome status.parent.isSome)) := by
      intro r _
      refine ⟨?_, rfl⟩
      cases r with
      | error e => trivial
      | ok purged =>
          cases purged with
          | false => trivial
          | true => exact h
    refine wp_then hpurge (fun _ => rfl) fun r => ?_
    refine wp_then (stays_calm (calm_ofExcept r)) (fun _ => rfl) fun purged => ?_
    split <;> exact rfl
  · exact rfl

/-- What is called while a description is filled in, its limits apart. -/
def Call.fills : Call → Bool
  | .work _ => true
  | .getType _ => true
  | .parseJob _ => true
  | .parseDag _ => true
  | .getSequence => true
  | .finish _ _ => true
  | .logEvent .listener => true
  | _ => false

theorem calm_of_fills {c : Call} (h : c.fills = true) : c.calm = true := by
  cases c with
  | logEvent kind =>
      cases kind with
      | listener => rfl
      | _ => cases h
  | work w => rfl
  | getType jdl => rfl
  | parseJob jdl => rfl
  | parseDag jdl => rfl
  | getSequence => rfl
  | finish jdl code => rfl
  | _ => cases h

/-- A stage that keeps `I`, and leaves `J` when it ends in an exception. -/
def Fills {σ : Type} (K : Contract σ Call Answer) (I J : σ → Prop)
    (p : WmpProc α) : Prop :=
  ∀ s, I s → wp K (fun s _ => I s) (fun s _ => J s) s p

section
variable {σ : Type} {K : Contract σ Call Answer} {I J : σ → Prop}

theorem fills_bind {β : Type} {p : WmpProc α} {f : α → WmpProc β}
    (hp : Fills K I J p) (hf : ∀ a, Fills K I J (f a)) :
    Fills K I J (p >>= f) := by
  intro s hs
  refine (wp_bind _ _ _).mpr (wp_mono ?_ (fun _ _ h => h) (hp s hs))
  intro s' a hs'
  exact hf a s' hs'

/-- The filling of a description keeps `I` where its calls do and where a
description that is too large is given up with `J`. -/
structure Filling (K : Contract σ Call Answer) (I J : σ → Prop) : Prop where
  weaken : ∀ s, I s → J s
  keeps : ∀ s c r, c.fills = true → I s → K.assume s c r →
    K.guard s c r ∧ I (K.world s c r).2
  tooMany : ∀ reason, Fills K I J (tooManyFiles reason)

variable (h : Filling K I J)
include h

theorem Filling.calls {p : WmpProc α}
    (hp : CallsOnly (fun c => c.fills = true) p) : Fills K I J p := by
  intro s hs
  refine wp_mono (fun _ _ hs => hs) (fun s _ hs => h.weaken s hs)
    (wp_of_callsOnly (I := I) ?_ hp hs)
  intro s c r hc hs hr
  exact h.keeps s c r hc hs hr

theorem Filling.ask {c : Call} (hc : c.fills = true) : Fills K I J (ask c) :=
  h.calls (callsOnly_perform hc)

theorem Filling.ofExcept (r : Except Exn α) :
    Fills K I J (.ofExcept r : WmpProc α) :=
  h.calls (callsOnly_ofExcept r)

theorem Filling.work {β : Type} (w : Work) {f : Unit → WmpProc β}
    (hf : ∀ a, Fills K I J (f a)) : Fills K I J (work w >>= f) :=
  fills_bind (h.calls (callsOnly_work rfl)) hf

theorem Filling.checkInputSandbox (cfg : Config) (size : Option ℕ) :
    Fills K I J (checkInputSandbox cfg size) := by
  cases size with
  | none => exact h.calls trivial
  | some size =>
      unfold Interface.checkInputSandbox
      dsimp only
      split
      · exact h.tooMany _
      · exact h.calls trivial

theorem Filling.checkOutputSandbox (cfg : Config) (size : Option ℕ) :
    Fills K I J (checkOutputSandbox cfg size) := by
  cases size with
  | none => exact h.calls trivial
  | some size =>
      unfold Interface.checkOutputSandbox
      dsimp only
      split
      · exact h.tooMany _
      · exact h.calls trivial

theorem Filling.finish (jdl : String) : Fills K I J (finish jdl) :=
  fills_bind (h.ask rfl) fun _ => fills_bind (h.ask rfl) fun r => h.ofExcept r

theorem Filling.prepareJob (cfg : Config) (jdl : String) :
    Fills K I J (prepareJob cfg jdl) := by
  refine fills_bind (h.ask rfl) fun r => ?_
  refine fills_bind (h.ofExcept r) fun jad => ?_
  refine h.work _ fun _ => ?_
  refine fills_bind (h.checkInputSandbox _ _) fun _ => ?_
  refine h.work _ fun _ => ?_
  refine fills_bind (h.checkOutputSandbox _ _) fun _ => ?_
  refine h.work _ fun _ => h.work _ fun _ => ?_
  have htype : CallsOnly (fun c => c.fills = true) (checkJobType jad.jobType) := by
    cases jad.jobType with
    | interactive => exact callsOnly_logListener rfl
    | _ => trivial
  refine fills_bind (h.calls htype) fun _ => ?_
  exact h.work _ fun _ => h.finish jdl

theorem Filling.prepareNodes (cfg : Config) (dag : DagAd)
    (nodes : List NodeAd) : Fills K I J (prepareNodes cfg dag nodes) := by
  induction nodes with
  | nil => exact h.calls trivial
  | cons node nodes ih =>
      refine fills_bind ?_ fun _ => ih
      refine h.work _ fun _ => ?_
      refine fills_bind (h.checkInputSandbox _ _) fun _ => ?_
      refine h.work _ fun _ => h.work _ fun _ => ?_
      refine fills_bind (h.checkOutputSandbox _ _) fun _ => ?_
      refine h.work _ fun _ => h.calls ?_
      cases node.jobType with
      | _ => trivial

theorem Filling.checkNodes (cfg : Config) (nodes : List NodeAd) :
    Fills K I J (checkNodes cfg nodes) := by
  induction nodes with
  | nil => exact h.calls trivial
  | cons node nodes ih =>
      exact fills_bind (h.checkInputSandbox _ _) fun _ => ih

theorem Filling.prepareDag (cfg : Config) (jdl : String) (dag : DagAd) :
    Fills K I J (prepareDag cfg jdl dag) := by
  refine h.work _ fun _ => ?_
  refine fills_bind (h.prepareNodes _ _ _) fun _ => ?_
  refine h.work _ fun _ => ?_
  refine fills_bind (h.checkNodes _ _) fun _ => ?_
  refine h.work _ fun _ => h.work _ fun _ => ?_
  exact h.work _ fun _ => h.work _ fun _ => h.finish jdl

end

/-! A description is filled in with the lock. If that fails, the lock is there
still or it has been lost in a look at it. -/

theorem wp_purgeUnlessLocked_inside (fd : ℕ) :
    wp (phases .start) (fun s _ => s = .inside fd ∨ s = .released)
      (fun s _ => s = .inside fd ∨ s = .released) (.inside fd)
      purgeUnlessLocked := by
  intro r _
  refine ⟨trivial, ?_⟩
  cases r with
  | error e => cases e <;> exact .inl rfl
  | ok locked =>
      cases locked with
      | true => exact .inl rfl
      | false =>
          have hpurge : Stays .start .released (jobpurge false) :=
            stays_jobpurge (fun h => by cases h) false
          exact wp_stays hpurge (fun _ => .inr rfl) fun _ => .inr rfl

theorem filling_inside (fd : ℕ) :
    Filling (phases .start) (fun s => s = .inside fd)
      (fun s => s = .inside fd ∨ s = .released) where
  weaken := fun _ hs => .inl hs
  keeps := by
    intro s c r hc hs _
    have hcalm := calm_of_fills hc
    refine ⟨allows_calm .start s hcalm r, ?_⟩
    show s.move c r = .inside fd
    rw [move_calm s hcalm r, hs]
  tooMany := by
    intro reason s hs
    rw [hs]
    have habort : Stays .start (.inside fd) (logAbortEventSync reason) :=
      stays_logTries (stays_logAbort (fun h => by cases h) reason) _
    refine (wp_bind _ _ _).mpr ?_
    refine wp_then habort (fun _ => .inl rfl) fun logged => ?_
    cases logged with
    | false => exact .inl rfl
    | true => exact wp_purgeUnlessLocked_inside fd

/-! What a handler leaves has no lock, and a description that goes on from
there will find its abort. -/

/-- The phases in which a failed description is handled. -/
def Failed (fd : ℕ) (ph : Phase) : Prop := ph = .inside fd ∨ ph = .released

theorem ne_before_of_failed {fd : ℕ} {ph : Phase} (h : Failed fd ph) :
    ph ≠ .before := by
  rcases h with rfl | rfl
  · exact fun h => by cases h
  · exact fun h => by cases h

theorem wp_operationUnlock {fd : ℕ} {ph : Phase} (h : Failed fd ph) :
    wp (phases .start) (fun s _ => s = .released) (fun _ _ => True) ph
      (operationUnlock (some fd)) := by
  intro r _
  rcases h with rfl | rfl
  · refine ⟨?_, rfl⟩
    rintro fd' (h | h)
    · cases h
      rfl
    · cases h
  · refine ⟨?_, rfl⟩
    rintro fd' (h | h)
    · cases h
    · cases h

/-- The common part of the handlers: an event, and the lock is let go of. -/
theorem wp_unlockThen {fd : ℕ} {ph : Phase} (h : Failed fd ph)
    {p : WmpProc (Option String)} (hp : ∀ s, s = .released →
      wp (phases .start) (fun s _ => Failed fd s) (fun _ _ => True) s p) :
    wp (phases .start) (fun s _ => Failed fd s) (fun _ _ => True) ph
      (operationUnlock (some fd) >>= fun _ => p) :=
  (wp_bind _ _ _).mpr
    (wp_mono (fun s _ hs => hp s hs) (fun _ _ h => h) (wp_operationUnlock h))

/-- A handler ends with an exception or goes on without the lock. -/
def Handles (fd : ℕ) (h : Exn → WmpProc (Option String)) : Prop :=
  ∀ ph e, Failed fd ph →
    wp (phases .start) (fun s _ => Failed fd s) (fun _ _ => True) ph (h e)

theorem handles_jobFailed (cfg : Config) (jdl : String) (fd : ℕ) :
    Handles fd (jobFailed cfg jdl (some fd)) := by
  intro ph e hph
  have hfail : ∀ what : String,
      Stays .start ph (logEvent (.enQueued .fail what)) :=
    fun what => stays_calm (calm_logEvent rfl)
  cases e with
  | requestAd what =>
      refine wp_then (hfail _) (fun _ => trivial) fun _ => ?_
      refine wp_then (stays_abort (ne_before_of_failed hph) _)
        (fun _ => trivial) fun _ => ?_
      refine wp_unlockThen hph fun s hs => ?_
      split
      · exact .inr hs
      · trivial
  | jobOperation code what =>
      refine wp_then (hfail _) (fun _ => trivial) fun _ => ?_
      refine wp_unlockThen hph fun s hs => ?_
      split
      · exact .inr hs
      · trivial
  | _ =>
      refine wp_then (hfail _) (fun _ => trivial) fun _ => ?_
      refine wp_unlockThen hph fun s hs => ?_
      split
      · exact .inr hs
      · trivial

theorem calm_abortNodes (reason : String) (nodes : List NodeAd) :
    Calm (abortNodes reason nodes) := by
  induction nodes with
  | nil => trivial
  | cons node nodes ih =>
      have hlog : Calm (logNodeEvent node.jobId (.abort reason)) :=
        callsOnly_logLaps (calm_ask (c := .logNodeEvent _ _) rfl) _
      exact calm_bind (calm_work _) fun _ => calm_bind hlog fun _ => ih

theorem handles_dagFailed (dag : DagAd) (fd : ℕ) :
    Handles fd (dagFailed dag (some fd)) := by
  intro ph e hph
  have hfail : ∀ what : String,
      Stays .start ph (logEvent (.enQueued .fail what)) :=
    fun what => stays_calm (calm_logEvent rfl)
  cases e with
  | requestAd what =>
      refine wp_then (hfail _) (fun _ => trivial) fun _ => ?_
      refine wp_then (stays_abort (ne_before_of_failed hph) _)
        (fun _ => trivial) fun _ => ?_
      refine wp_then (stays_calm (calm_abortNodes _ _)) (fun _ => trivial)
        fun _ => ?_
      exact wp_unlockThen hph fun s hs => trivial
  | jobOperation code what =>
      refine wp_then (hfail _) (fun _ => trivial) fun _ => ?_
      exact wp_unlockThen hph fun s hs => trivial
  | _ =>
      refine wp_then (hfail _) (fun _ => trivial) fun _ => ?_
      exact wp_unlockThen hph fun s hs => trivial

theorem wp_handled {fd : ℕ} {p : WmpProc String}
    {h : Exn → WmpProc (Option String)}
    (hp : Fills (phases .start) (fun s => s = .inside fd)
      (fun s => s = .inside fd ∨ s = .released) p) (hh : Handles fd h) :
    wp (phases .start) (fun s _ => Failed fd s) (fun _ _ => True) (.inside fd)
      (Proc.tryCatch (p >>= fun text => pure (some text)) h) := by
  refine (wp_tryCatch _ _ _).mpr ((wp_bind _ _ _).mpr
    (wp_mono ?_ ?_ (hp (.inside fd) rfl)))
  · intro s text hs
    exact .inl hs
  · intro s e hs
    exact hh s e hs

theorem wp_prepare (cfg : Config) (jdl : String) (fd : ℕ) :
    wp (phases .start) (fun s _ => Failed fd s) (fun _ _ => True) (.inside fd)
      (prepare cfg jdl (some fd)) := by
  refine wp_then (stays_calm (calm_ask rfl)) (fun _ => trivial) fun r => ?_
  refine wp_then (stays_calm (calm_ofExcept r)) (fun _ => trivial) fun type => ?_
  cases type with
  | job =>
      exact wp_handled ((filling_inside fd).prepareJob _ _)
        (handles_jobFailed _ _ _)
  | dag =>
      refine wp_then (stays_calm (calm_ask rfl)) (fun _ => trivial) fun r => ?_
      refine wp_then (stays_calm (calm_ofExcept r)) (fun _ => trivial)
        fun dag => ?_
      exact wp_handled ((filling_inside fd).prepareDag _ _ _)
        (handles_dagFailed _ _)

/-! Forwarding is the one place where something is delivered. -/

/-- What may be done in every phase. -/
def Call.harmless : Call → Bool
  | .operationUnlock _ => false
  | .deliver _ => false
  | .doPurge _ _ => false
  | _ => true

theorem wp_harmless {β : Type} {request : Request} {p : WmpProc β} (ph : Phase)
    (h : CallsOnly (fun c => c.harmless = true) p) :
    wp (phases request) (fun _ _ => True) (fun _ _ => True) ph p := by
  refine wp_of_callsOnly (I := fun _ => True) ?_ h trivial
  intro s c r hc _ _
  refine ⟨?_, trivial⟩
  cases c with
  | operationUnlock fd => cases hc
  | deliver command => cases hc
  | doPurge force isParent => cases hc
  | _ => trivial

theorem harmless_of_calm {β : Type} {p : WmpProc β} (h : Calm p) :
    CallsOnly (fun c => c.harmless = true) p := by
  refine callsOnly_mono ?_ h
  intro c hc
  cases c with
  | operationUnlock fd => cases hc
  | deliver command => cases hc
  | doPurge force isParent => cases hc
  | _ => rfl

theorem harmless_logEvent (kind : EventKind) :
    CallsOnly (fun c => c.harmless = true) (logEvent kind) := by
  refine callsOnly_logLaps ?_ _
  exact callsOnly_perform rfl

/-- The phases in which an abort is looked for. -/
def Looking (fd : ℕ) (ph : Phase) : Prop := Failed fd ph ∨ ph = .checked fd

/-- The look counts when nothing was found, and without the lock something
is. -/
def Looked (fd : ℕ) (ph : Phase) (r : Except QueryError (List Event)) : Prop :=
  Looking fd ph ∧ (r = .error .noEntry → ph = .checked fd)

theorem wp_askAborts {fd : ℕ} {ph : Phase} (h : Looking fd ph) (proxy : Bool) :
    wp (phases .start) (fun s r => Looked fd s r) (fun _ _ => True) ph
      (ask (.queryEvents proxy .aborts)) := by
  intro r hr
  refine ⟨trivial, ?_⟩
  cases r with
  | ok events => exact ⟨h, fun he => by cases he⟩
  | error e =>
      cases e with
      | noEntry =>
          obtain (rfl | rfl) | rfl := h
          · exact ⟨.inr rfl, fun _ => rfl⟩
          · exact absurd rfl (hr : Phase.released ≠ .released)
          · exact ⟨.inr rfl, fun _ => rfl⟩
      | temporary code => exact ⟨h, fun he => by cases he⟩
      | definite code => exact ⟨h, fun he => by cases he⟩

theorem wp_queryOnce {fd : ℕ} {ph : Phase} (h : Looking fd ph) (proxy : Bool) :
    wp (phases .start) (fun s r => Looked fd s r.1) (fun _ _ => True) ph
      (queryOnce proxy .aborts) := by
  refine (wp_bind _ _ _).mpr (wp_mono ?_ (fun _ _ h => h) (wp_askAborts h proxy))
  intro s r hs
  split
  · refine (wp_bind _ _ _).mpr
      (wp_mono ?_ (fun _ _ h => h) (wp_askAborts hs.1 false))
    exact fun s r hs => hs
  · exact hs

theorem wp_queryLaps {fd : ℕ} {ph : Phase} (h : Looking fd ph) (proxy : Bool)
    (n : ℕ) :
    wp (phases .start) (fun s r => Looked fd s r) (fun _ _ => True) ph
      (queryLaps .aborts proxy n) := by
  induction n generalizing ph proxy with
  | zero => exact ⟨h, fun he => by cases he⟩
  | succ n ih =>
      refine (wp_bind _ _ _).mpr
        (wp_mono ?_ (fun _ _ h => h) (wp_queryOnce h proxy))
      rintro s ⟨r, proxy'⟩ hs
      dsimp only
      split
      · split
        · exact ⟨hs.1, fun he => by cases he⟩
        · exact ih hs.1 proxy'
      · exact hs

theorem wp_isAborted {fd : ℕ} {ph : Phase} (h : Failed fd ph) (cfg : Config) :
    wp (phases .start) (fun s r => r = none → s = .checked fd)
      (fun _ _ => True) ph (isAborted cfg) := by
  refine (wp_bind _ _ _).mpr
    (wp_mono ?_ (fun _ _ h => h) (wp_queryLaps (.inl h) cfg.lbProxy _))
  intro s r hs
  split
  · exact fun _ => hs.2 rfl
  · trivial
  · exact fun he => by cases he

/-- With the lock still, or after the delivery. -/
def Forwarding (fd : ℕ) (ph : Phase) : Prop := ph = .checked fd ∨ ph = .done

theorem wp_wmpSubmit (jdl : String) (fd : ℕ) :
    wp (phases .start) (fun s _ => Forwarding fd s) (fun _ _ => True)
      (.checked fd) (wmpSubmit jdl) := by
  refine wp_then (stays_calm (calm_ask rfl)) (fun _ => trivial) fun r => ?_
  refine wp_then (stays_calm (calm_ofExcept r)) (fun _ => trivial)
    fun command => ?_
  have hlog : ∀ s kind, Forwarding fd s → (Call.logEvent kind).calm = true →
      wp (phases .start) (fun s _ => Forwarding fd s)
        (fun s _ => Forwarding fd s) s (logEvent kind) :=
    fun s kind hs hkind => wp_stays (stays_calm (calm_logEvent hkind))
      (fun _ => hs) fun _ => hs
  have hforward : wp (phases .start) (fun s _ => Forwarding fd s)
      (fun s _ => Forwarding fd s) (.checked fd) (fForward command) := by
    intro r _
    cases r with
    | ok u => exact ⟨⟨fd, rfl⟩, .inr rfl⟩
    | error what => exact ⟨trivial, .inl rfl⟩
  have hlogged : wp (phases .start) (fun s _ => Forwarding fd s)
      (fun s _ => Forwarding fd s) (.checked fd)
      (fForward command >>= fun _ => logEvent (.enQueued .ok "")) :=
    (wp_bind _ _ _).mpr
      (wp_mono (fun s _ hs => hlog s _ hs rfl) (fun _ _ h => h) hforward)
  exact (wp_tryCatch _ _ _).mpr (wp_mono (fun _ _ h => h)
    (fun s e hs => wp_mono (fun _ _ h => h) (fun _ _ _ => trivial)
      (hlog s _ hs rfl)) hlogged)

theorem wp_forward (cfg : Config) (jdl : String) {fd : ℕ} {ph : Phase}
    (h : Failed fd ph) :
    wp (phases .start) (fun _ _ => True) (fun _ _ => True) ph
      (forward cfg (some fd) jdl) := by
  refine (wp_bind _ _ _).mpr
    (wp_mono ?_ (fun _ _ h => h) (wp_isAborted h cfg))
  intro s r hs
  cases r with
  | some reason => trivial
  | none =>
      rw [hs rfl]
      refine wp_then (stays_calm (calm_work _)) (fun _ => trivial) fun _ => ?_
      refine (wp_bind _ _ _).mpr
        (wp_mono (fun s _ hs => ?_) (fun _ _ h => h) (wp_wmpSubmit jdl fd))
      refine wp_then (stays_calm (calm_ask rfl)) (fun _ => trivial) fun r => ?_
      refine wp_then (stays_calm (calm_ofExcept r)) (fun _ => trivial)
        fun _ => ?_
      refine wp_then (stays_calm (calm_ask rfl)) (fun _ => trivial) fun _ => ?_
      refine fun _ _ => ⟨?_, trivial⟩
      rintro fd' h
      rcases hs with rfl | rfl
      · rcases h with h | h
        · cases h
        · cases h
          rfl
      · rcases h with h | h
        · cases h
        · cases h

theorem wp_operationLock (ph : Phase) :
    wp (phases .start) (fun s fd => s = .inside fd) (fun _ _ => True) ph
      operationLock := by
  intro r _
  refine ⟨trivial, ?_⟩
  cases r with
  | error e => cases e <;> trivial
  | ok fd => exact rfl

theorem wp_submit (cfg : Config) (jdl : String) (ph : Phase) :
    wp (phases .start) (fun _ _ => True) (fun _ _ => True) ph
      (submit cfg jdl) := by
  refine (wp_bind _ _ _).mpr
    (wp_mono (fun s fd hs => ?_) (fun _ _ h => h) (wp_operationLock ph))
  rw [hs]
  refine wp_then (stays_calm (calm_logEvent rfl)) (fun _ => trivial) fun _ => ?_
  refine wp_then (stays_calm (calm_logEvent rfl)) (fun _ => trivial) fun _ => ?_
  refine (wp_bind _ _ _).mpr
    (wp_mono (fun s r hs => ?_) (fun _ _ h => h) (wp_prepare cfg jdl fd))
  cases r with
  | none => trivial
  | some text => exact wp_forward cfg text hs

theorem calm_checkStart (cfg : Config) : Calm (checkStart cfg) := by
  refine calm_bind (calm_isStartAllowed cfg) fun r => ?_
  obtain ⟨seqcode, event⟩ := r
  dsimp only
  split
  · trivial
  · split
    · trivial
    · exact calm_bind (calm_ask rfl) fun r => calm_bind (calm_ofExcept r) fun _ =>
        calm_bind (calm_ask rfl) fun r => calm_ofExcept r

theorem calm_readJdlToStart (cfg : Config) : Calm (readJdlToStart cfg) := by
  refine calm_bind (calm_ask rfl) fun found => ?_
  split
  · trivial
  · refine calm_bind ?_ fun _ => calm_bind (calm_ask rfl) fun r => calm_ofExcept r
    unfold answerClient
    split
    · refine calm_bind (calm_ask rfl) fun failed => ?_
      split
      · exact calm_ask rfl
      · trivial
    · trivial

/-- Before the lock a purge may be made, and nothing is delivered. -/
theorem wp_abortExpired (e : Exn) :
    wp (phases .start) (fun _ _ => True) (fun _ _ => True) .before
      (abortExpired e) := by
  unfold abortExpired
  split
  · refine wp_then (stays_calm (calm_ask rfl)) (fun _ => trivial) fun r => ?_
    refine wp_then (stays_calm (calm_ofExcept r)) (fun _ => trivial) fun _ => ?_
    refine (wp_bind _ _ _).mpr (wp_mono (fun s _ _ => ?_) (fun _ _ h => h)
      (wp_harmless _ (harmless_logEvent _)))
    exact wp_stays (stays_jobpurge (fun h => by cases h) false)
      (fun _ => trivial) fun _ => trivial
  · trivial

/-- The authorization ends well in the phase it began in. -/
theorem wp_authorizeStart :
    wp (phases .start) (fun s _ => s = .before) (fun _ _ => True) .before
      authorizeStart := by
  refine wp_then (stays_calm (calm_work _)) (fun _ => trivial) fun _ => ?_
  refine wp_then (stays_calm (calm_work _)) (fun _ => trivial) fun _ => ?_
  refine wp_then (stays_calm (calm_work _)) (fun _ => trivial) fun _ => ?_
  refine wp_then (stays_calm (calm_ask rfl)) (fun _ => trivial) fun r => ?_
  have hauthorized : wp (phases .start) (fun s _ => s = .before)
      (fun _ _ => True) .before
      ((Proc.ofExcept r).tryCatch authorizationFailed) := by
    cases r with
    | ok u => exact rfl
    | error e =>
        exact (wp_bind _ _ _).mpr
          (wp_mono (fun _ _ _ => trivial) (fun _ _ h => h) (wp_abortExpired e))
  refine (wp_bind _ _ _).mpr (wp_mono ?_ (fun _ _ h => h) hauthorized)
  rintro s _ rfl
  refine wp_then (stays_calm (calm_ask rfl)) (fun _ => trivial) fun found => ?_
  split
  · trivial
  · refine wp_then (stays_calm (calm_ask rfl)) (fun _ => trivial) fun r => ?_
    refine wp_then (stays_calm (calm_ofExcept r)) (fun _ => trivial)
      fun drained => ?_
    split
    · trivial
    · refine wp_stays (stays_calm ?_) (fun _ => rfl) fun _ => trivial
      exact calm_bind (calm_work _) fun _ => calm_bind (calm_work _) fun _ =>
        calm_work _

theorem wp_jobStart (cfg : Config) :
    wp (phases .start) (fun _ _ => True) (fun _ _ => True) .before
      (jobStart cfg) := by
  refine (wp_bind _ _ _).mpr
    (wp_mono (fun s _ hs => ?_) (fun _ _ h => h) wp_authorizeStart)
  refine wp_then (stays_calm (calm_checkStart cfg)) (fun _ => trivial) fun _ => ?_
  refine wp_then (stays_calm (calm_readJdlToStart cfg)) (fun _ => trivial)
    fun jdl => ?_
  exact wp_submit cfg jdl s

end

/-! ## Cancelling -/

section
variable {α : Type}

/-- Before the abort is logged and once it is. -/
theorem wp_logAbortEventSync (reason : String) :
    wp (phases .cancel) (fun s logged => logged = true → s = .aborted)
      (fun _ _ => True) .before (logAbortEventSync reason) := by
  unfold logAbortEventSync
  induction logRetryCount with
  | zero => exact fun h => by cases h
  | succ n ih =>
      intro r _
      refine ⟨trivial, ?_⟩
      cases r with
      | logged code => exact fun _ => rfl
      | _ => exact ih

theorem wp_purgeUnlessLocked :
    wp (phases .cancel) (fun _ _ => True) (fun _ _ => True) .aborted
      purgeUnlessLocked := by
  intro r _
  refine ⟨trivial, ?_⟩
  cases r with
  | error e => cases e <;> trivial
  | ok locked =>
      cases locked with
      | true => trivial
      | false =>
          have hpurge : Stays .cancel .cleared (jobpurge false) :=
            stays_jobpurge (fun _ => rfl) false
          exact wp_stays hpurge (fun _ => trivial) fun _ => trivial

theorem wp_cancelSubmitted :
    wp (phases .cancel) (fun _ _ => True) (fun _ _ => True) .before
      cancelSubmitted := by
  refine wp_then (stays_calm (calm_ask rfl)) (fun _ => trivial) fun r => ?_
  refine wp_then (stays_calm (calm_ofExcept r)) (fun _ => trivial) fun _ => ?_
  have hpurge : wp (phases .cancel) (fun _ _ => True) (fun _ _ => True) .before
      (abortAndPurge "Cancelled by user") := by
    refine (wp_bind _ _ _).mpr
      (wp_mono (fun s logged hs => ?_) (fun _ _ h => h) (wp_logAbortEventSync _))
    cases logged with
    | false => trivial
    | true =>
        rw [hs rfl]
        exact wp_purgeUnlessLocked
  refine (wp_bind _ _ _).mpr (wp_mono (fun s _ _ => ?_) (fun _ _ h => h) hpurge)
  exact wp_harmless s (harmless_of_calm (calm_work _))

theorem calm_cancelForwarded : Calm cancelForwarded :=
  calm_bind (calm_ask rfl) fun _ => calm_bind (calm_ask rfl) fun r =>
    calm_bind (calm_ofExcept r) fun _ => calm_logEvent rfl

theorem wp_cancelByStatus (status : JobStatus) :
    wp (phases .cancel) (fun _ _ => True) (fun _ _ => True) .before
      (cancelByStatus status) := by
  have hforwarded : wp (phases .cancel) (fun _ _ => True) (fun _ _ => True)
      .before cancelForwarded :=
    wp_harmless _ (harmless_of_calm calm_cancelForwarded)
  unfold cancelByStatus
  split
  · split
    · exact wp_cancelSubmitted
    · exact hforwarded
  · exact hforwarded
  · exact hforwarded
  · exact hforwarded
  · exact hforwarded
  · split
    · exact hforwarded
    · trivial
  · trivial

theorem calm_cancelSeqcode (cfg : Config) (status : JobStatus) :
    Calm (cancelSeqcode cfg status) := by
  unfold cancelSeqcode
  split
  · exact calm_bind (calm_work _) fun _ => calm_getLastEventSeqCode cfg
  · refine calm_bind (calm_ask rfl) fun r => calm_bind (calm_ofExcept r)
      fun code => ?_
    split
    · exact calm_getLastEventSeqCode cfg
    · trivial

theorem calm_continueUnlessEmpty (seqcode : String) :
    Calm (continueUnlessEmpty seqcode) := by
  unfold continueUnlessEmpty
  split
  · exact calm_bind (calm_ask rfl) fun r => calm_bind (calm_ofExcept r) fun _ =>
      calm_bind (calm_ask rfl) fun r => calm_ofExcept r
  · trivial

theorem wp_jobCancel (cfg : Config) :
    wp (phases .cancel) (fun _ _ => True) (fun _ _ => True) .before
      (jobCancel cfg) := by
  refine wp_then (stays_calm (calm_work _)) (fun _ => trivial) fun _ => ?_
  refine wp_then (stays_calm (calm_ask rfl)) (fun _ => trivial) fun r => ?_
  refine wp_then (stays_calm (calm_ofExcept r)) (fun _ => trivial) fun _ => ?_
  refine wp_then (stays_calm (calm_work _)) (fun _ => trivial) fun _ => ?_
  refine wp_then (stays_calm (calm_work _)) (fun _ => trivial) fun _ => ?_
  refine wp_then (stays_calm (calm_work _)) (fun _ => trivial) fun _ => ?_
  refine wp_then (stays_calm (calm_work _)) (fun _ => trivial) fun _ => ?_
  refine wp_then (stays_calm (calm_work _)) (fun _ => trivial) fun _ => ?_
  refine wp_then (stays_calm (calm_ask rfl)) (fun _ => trivial) fun r => ?_
  refine wp_then (stays_calm (calm_ofExcept r)) (fun _ => trivial)
    fun status => ?_
  split
  · trivial
  · refine wp_then (stays_calm (calm_cancelSeqcode cfg status))
      (fun _ => trivial) fun seqcode => ?_
    refine wp_then (stays_calm (calm_continueUnlessEmpty seqcode))
      (fun _ => trivial) fun _ => ?_
    refine wp_then (stays_calm (calm_work _)) (fun _ => trivial) fun _ => ?_
    exact wp_cancelByStatus status

end

/-- Every request keeps to its phases. -/
theorem wp_handler (cfg : Config) (request : Request) :
    wp (phases request) (fun _ _ => True) (fun _ _ => True) .before
      (handler cfg request) := by
  cases request with
  | start => exact wp_jobStart cfg
  | cancel => exact wp_jobCancel cfg

end Wms.Interface
