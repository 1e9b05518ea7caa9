import Wms.Proofs.Stages

/-!
# How often one processing of a job ends

A job that has been processed is delivered, or aborted, or cancelled and
purged, or back in the queue. This file counts how many of these happen in
one run of the processor.

Nothing the processor asks for twice decides anything, so the answers of a
run are taken as a function of the call. Under it a run is a list of calls
and a result, `summary` keeps the outcomes and the result, and each stage has
its summary. All stages from the token's number on come to one outcome, or to
none and an exception, which the handlers turn into one. So two outcomes have
to come from before: from the stay in limbo, which postpones the job and goes
on, and from the pass over the directory, which aborts it once for every
token after the first and goes on too. `once_iff` says when they do not.
-/

namespace Wms.Core

open Wms.Lib Wms.Lib.Proc

/-- What may become of a request. -/
inductive Outcome where
  | delivered
  | aborted
  | cancelled
  | postponed
  deriving DecidableEq, Repr

/-- An answer to each call. -/
abbrev Answers := (c : Call) → Answer c

/-- The outcome a call amounts to under its answer. -/
def outcomeOf (ans : Answers) : Call → Option Outcome
  | .deliver dest request =>
      match ans (.deliver dest request) with
      | .ok () => some .delivered
      | .error _ => none
  | .log (.abort _) => some .aborted
  | .purge => some .cancelled
  | .scheduleAt _ => some .postponed
  | _ => none

/-- The outcomes of a run, in order, and its result. -/
def summary {α : Type} (ans : Answers) (p : WmProc α) :
    List Outcome × Except Exn α :=
  ((replay ans p).1.filterMap (outcomeOf ans), (replay ans p).2)

section
variable {α β : Type} {ans : Answers}

theorem summary_pure (a : α) :
    summary ans (pure a : WmProc α) = ([], .ok a) := rfl

theorem summary_throw (e : Exn) :
    summary ans (.throw e : WmProc α) = ([], .error e) := rfl

theorem summary_ofExcept (r : Except Exn α) :
    summary ans (Proc.ofExcept r) = ([], r) := by
  cases r <;> rfl

theorem summary_ask (c : Call) (f : Answer c → WmProc β) :
    summary ans (ask c >>= f) =
      ((outcomeOf ans c).toList ++ (summary ans (f (ans c))).1,
        (summary ans (f (ans c))).2) := by
  show (List.filterMap (outcomeOf ans) (c :: _), _) = _
  rw [List.filterMap_cons]
  cases outcomeOf ans c <;> rfl

theorem summary_bind_ok {p : WmProc α} {f : α → WmProc β}
    {os : List Outcome} {a : α} (h : summary ans p = (os, .ok a)) :
    summary ans (p >>= f) =
      (os ++ (summary ans (f a)).1, (summary ans (f a)).2) := by
  obtain ⟨hos, ha⟩ := Prod.mk.inj h
  have hp : replay ans p = ((replay ans p).1, .ok a) := Prod.ext rfl ha
  simp only [summary, bind_eq, replay_bind]
  rw [hp]
  simp [← hos]

theorem summary_bind_error {p : WmProc α} {f : α → WmProc β}
    {os : List Outcome} {e : Exn} (h : summary ans p = (os, .error e)) :
    summary ans (p >>= f) = (os, .error e) := by
  obtain ⟨hos, he⟩ := Prod.mk.inj h
  have hp : replay ans p = ((replay ans p).1, .error e) := Prod.ext rfl he
  simp only [summary, bind_eq, replay_bind]
  rw [hp]
  simp [← hos]

theorem summary_tryCatch_ok {p : WmProc α} {g : Exn → WmProc α}
    {os : List Outcome} {a : α} (h : summary ans p = (os, .ok a)) :
    summary ans (p.tryCatch g) = (os, .ok a) := by
  obtain ⟨hos, ha⟩ := Prod.mk.inj h
  have hp : replay ans p = ((replay ans p).1, .ok a) := Prod.ext rfl ha
  simp only [summary, replay_tryCatch]
  rw [hp]
  simp [← hos]

theorem summary_tryCatch_error {p : WmProc α} {g : Exn → WmProc α}
    {os : List Outcome} {e : Exn} (h : summary ans p = (os, .error e)) :
    summary ans (p.tryCatch g) =
      (os ++ (summary ans (g e)).1, (summary ans (g e)).2) := by
  obtain ⟨hos, he⟩ := Prod.mk.inj h
  have hp : replay ans p = ((replay ans p).1, .error e) := Prod.ext rfl he
  simp only [summary, replay_tryCatch]
  rw [hp]
  simp [← hos]

theorem outcomeOf_quiet {c : Call} (h : c.quiet = true) :
    outcomeOf ans c = none := by
  cases c with
  | log e => cases e <;> simp_all [Call.quiet, outcomeOf]
  | _ => simp_all [Call.quiet, outcomeOf]

/-- A quiet program has no outcome. -/
theorem summary_quiet (ans : Answers) {p : WmProc α} (h : Quiet p) :
    (summary ans p).1 = [] := by
  simp only [summary, List.filterMap_eq_nil_iff]
  exact fun c hc => outcomeOf_quiet (replay_callsOnly ans h c hc)

theorem summary_quiet_cases (ans : Answers) {p : WmProc α} (h : Quiet p) :
    (∃ a, summary ans p = ([], .ok a)) ∨
      ∃ e, summary ans p = ([], .error e) := by
  have hos := summary_quiet ans h
  cases hr : (summary ans p).2 with
  | ok a => exact .inl ⟨a, Prod.ext hos hr⟩
  | error e => exact .inr ⟨e, Prod.ext hos hr⟩

end

/-! ## The ends -/

section
variable {α : Type} {ans : Answers} (cfg : Config)

theorem summary_unrecoverable (msg : String) :
    summary ans (unrecoverable msg) = ([.aborted], .ok ()) := rfl

theorem summary_postpone (reason : String) :
    summary ans (postpone cfg reason) = ([.postponed], .ok ()) := by
  unfold postpone logPending
  split <;> rfl

/-- The handlers turn an exception into one outcome. -/
theorem summary_handle (ans : Answers) (e : Exn) :
    ∃ o, o ≠ .delivered ∧ summary ans (handle cfg e) = ([o], .ok ()) := by
  obtain ⟨msg, h | h⟩ := handle_cases cfg e
  · exact ⟨.aborted, by decide, by rw [h, summary_unrecoverable]⟩
  · exact ⟨.postponed, by decide, by rw [h, summary_postpone]⟩

/-- A program that ends a job once, or leaves that to the handlers. -/
def Settles (ans : Answers) (p : WmProc Unit) : Prop :=
  (∃ o, o ≠ .postponed ∧ summary ans p = ([o], .ok ())) ∨
    ∃ e, summary ans p = ([], .error e)

theorem settles_bind_of {p : WmProc α} {f : α → WmProc Unit} (hp : Quiet p)
    (hf : ∀ a, summary ans p = ([], .ok a) → Settles ans (f a)) :
    Settles ans (p >>= f) := by
  rcases summary_quiet_cases ans hp with ⟨a, ha⟩ | ⟨e, he⟩
  · have hbind : summary ans (p >>= f) = summary ans (f a) := by
      rw [summary_bind_ok ha, List.nil_append]
    rw [Settles, hbind]
    exact hf a ha
  · exact .inr ⟨e, summary_bind_error he⟩

theorem settles_bind {p : WmProc α} {f : α → WmProc Unit} (hp : Quiet p)
    (hf : ∀ a, Settles ans (f a)) : Settles ans (p >>= f) :=
  settles_bind_of hp fun a _ => hf a

theorem settles_ask {c : Call} {f : Answer c → WmProc Unit}
    (hc : c.quiet = true) (hf : ∀ a, Settles ans (f a)) :
    Settles ans (ask c >>= f) := settles_bind (quiet_ask hc) hf

/-! ## The stages -/

theorem settles_purgeCancelled : Settles ans purgeCancelled :=
  .inl ⟨.cancelled, by decide, rfl⟩

theorem settles_passOn (dest : Output) (cmd : Request) (output : String) :
    Settles ans (passOn dest cmd output) := by
  unfold passOn
  cases h : ans (.deliver dest cmd) with
  | ok u =>
      refine .inl ⟨.delivered, by decide, ?_⟩
      rw [summary_ask]
      simp only [outcomeOf, h]
      rfl
  | error what =>
      refine .inr ⟨.cannotDeliverFatal, ?_⟩
      rw [summary_ask]
      simp only [outcomeOf, h]
      rfl

theorem settles_submitPlanned (planned : Planned) (isReplan : Bool) :
    Settles ans (submitPlanned cfg planned isReplan) := by
  refine settles_ask rfl fun _ => ?_
  refine settles_bind (quiet_of_plain (plain_logCeinfoHost _ _)) fun _ => ?_
  refine settles_ask rfl fun _ => settles_ask rfl fun _ => ?_
  refine settles_bind (quiet_of_plain plain_cancelledMeanwhile) fun cancelled => ?_
  cases cancelled with
  | true => exact settles_purgeCancelled
  | false => exact settles_passOn _ _ _

theorem settles_submit (ad : Jdl) (isReplan : Bool) :
    Settles ans (submit cfg ad isReplan) :=
  settles_ask rfl fun _ => settles_ask rfl fun _ =>
    settles_bind (quiet_ofExcept _) fun _ => settles_submitPlanned cfg _ _

theorem settles_deliverStage (ad : Jdl) (tokenFile : Text)
    (isReplan : Bool) :
    Settles ans (deliverStage cfg ad tokenFile isReplan) :=
  settles_bind (quiet_renameTokenStage _ _ _) fun _ =>
    settles_ask rfl fun _ => settles_submit cfg _ _

/-- The number in a token's name becomes the number in the description, so
no request is ever taken for one that another has overtaken. -/
theorem replansStage_result {ad ad' : Jdl} {last : Option Text} {n : ℤ}
    (h : summary ans (replansStage cfg ad last) = ([], .ok (n, ad'))) :
    n = 0 ∨ ad'.replansCount = some n := by
  unfold replansStage at h
  split at h
  · simp only [summary_pure, Prod.mk.injEq, Except.ok.injEq] at h
    exact .inl h.2.1.symm
  · split at h
    · simp [summary_throw] at h
    · rw [summary_ask] at h
      simp only [summary_pure, Prod.mk.injEq, Except.ok.injEq] at h
      obtain ⟨-, rfl, rfl⟩ := h
      exact .inr rfl

theorem submitCase_ne_dropped {ad : Jdl} {n : ℤ}
    (h : n = 0 ∨ ad.replansCount = some n) : submitCase ad n ≠ .dropped := by
  unfold submitCase
  simp only []
  split
  · simp
  · next hnot =>
      split
      · next hover =>
          simp only [Bool.and_eq_true, decide_eq_true_eq] at hnot hover
          rcases h with rfl | h
          · omega
          · rw [h, Option.getD_some] at hover
            omega
      · simp

theorem settles_tokenStages {command : Command} {ad : Jdl}
    {info : Option LbInfo} {n : ℤ} (h : n = 0 ∨ ad.replansCount = some n) :
    Settles ans (tokenStages cfg command ad info n) := by
  refine settles_bind (quiet_resubmitTokenStage _ _ _ _) fun _ => ?_
  split
  · split
    · exact settles_deliverStage _ _ _ _
    · next hdropped => exact absurd hdropped (submitCase_ne_dropped h)
    · exact settles_bind (quiet_firstTokenStage _ _) fun _ =>
        settles_deliverStage _ _ _ _
  · exact settles_deliverStage _ _ _ _

theorem settles_fromToken (command : Command) (ad : Jdl)
    (info : Option LbInfo) (last : Option Text) :
    Settles ans (do
      let (replansCount, ad) ← replansStage cfg ad last
      tokenStages cfg command ad info replansCount) :=
  settles_bind_of (quiet_of_plain (plain_replansStage _ _ _)) fun _ hr =>
    settles_tokenStages cfg (replansStage_result cfg hr)

/-- The pass over the directory aborts the job for every token it meets with
another one in hand. -/
theorem summary_scanTokens (ans : Answers) (found : Option Text) (leaves : List Text) :
    ∃ last, summary ans (scanTokens cfg found leaves) =
      (List.replicate
        (found.elim (leaves.countP (isTokenFile cfg) - 1)
          fun _ => leaves.countP (isTokenFile cfg)) .aborted, .ok last) := by
  unfold scanTokens
  induction leaves generalizing found with
  | nil => cases found <;> exact ⟨_, rfl⟩
  | cons leaf rest ih =>
      by_cases htoken : isTokenFile cfg leaf
      · cases found with
        | none =>
            obtain ⟨last, hlast⟩ := ih (some leaf)
            refine ⟨last, ?_⟩
            simp only [scanTokensWith, htoken, if_true, hlast, Option.elim,
              List.countP_cons_of_pos, Nat.add_sub_cancel]
        | some t =>
            obtain ⟨last, hlast⟩ := ih (some t)
            refine ⟨last, ?_⟩
            simp only [scanTokensWith, htoken, if_true, Option.elim,
              List.countP_cons_of_pos]
            rw [summary_bind_ok (summary_unrecoverable _), hlast,
              List.replicate_succ]
            rfl
      · obtain ⟨last, hlast⟩ := ih found
        refine ⟨last, ?_⟩
        simp only [scanTokensWith, htoken, Bool.false_eq_true, if_false, hlast,
          List.countP_cons_of_neg, not_false_eq_true]

/-! ## How far a run gets

Each condition is one of the processor's own tests, on the answers it is
given. -/

/-- The request passes the checks at the entry. -/
def passesEntry (ans : Answers) (state : SubmitState) : Prop :=
  ans .proxyExpired = .ok false ∧
    isRequestExpired cfg state.ad state.createdAt (ans .now) = false

/-- What the stay in limbo is decided on could be retrieved. -/
def limboAnswered (ans : Answers) : Prop :=
  ∃ status events, ans .jobStatus = .ok status ∧
    queryResult false (ans (.query .recovery)) = .ok events

/-- The request is entered from limbo while `in_limbo` holds. -/
def heldInLimbo (ans : Answers) (state : SubmitState) : Prop :=
  state.lastCheckpointing = .limbo ∧
    ∃ status events, ans .jobStatus = .ok status ∧
      queryResult false (ans (.query .recovery)) = .ok events ∧
      inLimbo status events = true

/-- What a resubmission asks is answered. -/
def resubmitAnswered (ans : Answers) (state : SubmitState) : Prop :=
  state.command = .jobresubmit →
    ∃ events submitted jobAd,
      queryResult true (ans (.query .interesting)) = .ok events ∧
      ans (.query .originalJdl) = .ok submitted ∧
      firstJobText submitted = .ad jobAd

/-- The conditions on which the pass over the directory is reached, once the
processing is out of limbo. -/
def uncancelled (ans : Answers) (state : SubmitState) : Prop :=
  resubmitAnswered ans state ∧ ans (.existsCancelToken .processor) = false

/-- The run comes to the pass over the job's directory. -/
def reachesScan (ans : Answers) (state : SubmitState) : Prop :=
  passesEntry cfg ans state ∧
    (state.lastCheckpointing = .limbo → limboAnswered ans) ∧
    uncancelled ans state

/-- How many tokens there are in the directory. -/
def tokenCount (ans : Answers) : ℕ :=
  (ans .listSandbox).leaves.countP (isTokenFile cfg)

/-- The directory cannot be read to its end. -/
def scanFails (ans : Answers) : Prop := (ans .listSandbox).error.isSome = true

/-- When a processing ends once: a request that is not held in limbo meets at
most one token, or two in a pass that fails; one that is held is stopped by a
pass that fails, with at most one token. -/
def EndsOnce (ans : Answers) (state : SubmitState) : Prop :=
  (reachesScan cfg ans state →
    tokenCount cfg ans ≤ 1 ∨ (tokenCount cfg ans = 2 ∧ scanFails ans)) ∧
  (passesEntry cfg ans state → heldInLimbo ans state →
    reachesScan cfg ans state ∧ scanFails ans ∧ tokenCount cfg ans ≤ 1)

theorem summary_doQueryEvents (ans : Answers) (q : Query) (b : Bool) :
    summary ans (doQueryEvents q b) = ([], queryResult b (ans (.query q))) := by
  unfold doQueryEvents
  rw [summary_ask, summary_ofExcept]
  rfl

theorem summary_getRecoveryEvents (ans : Answers) :
    summary ans getRecoveryEvents =
      ([], queryResult false (ans (.query .recovery))) :=
  summary_doQueryEvents ans .recovery false

theorem summary_jobStatus (ans : Answers) :
    summary ans jobStatus =
      ([], match ans .jobStatus with
        | .ok status => .ok status
        | .error what => .error (.cannotCreateLBContext what)) := by
  unfold jobStatus
  rw [summary_ask]
  cases ans .jobStatus <;> rfl

/-- The body of the stay in limbo, from the answers it depends on. -/
theorem summary_limboBody {status : Option JobStat} {events : List LbEvent}
    (hstatus : ans .jobStatus = .ok status)
    (hevents : queryResult false (ans (.query .recovery)) = .ok events) :
    summary ans (limboStage cfg .limbo) =
      (if inLimbo status events then [.postponed] else [], .ok true) := by
  refine summary_tryCatch_ok ?_
  have h1 := summary_jobStatus ans
  rw [hstatus] at h1
  have h2 := summary_getRecoveryEvents ans
  rw [hevents] at h2
  rw [summary_bind_ok h1, summary_bind_ok h2]
  cases inLimbo status events with
  | true =>
      have hwait : summary ans (leaveOrWait cfg true) =
          ([.postponed], .ok ()) := summary_postpone cfg _
      rw [summary_bind_ok hwait]
      rfl
  | false => rfl

theorem summary_limboBody_failed (h : ¬ limboAnswered ans) :
    summary ans (limboStage cfg .limbo) = ([], .ok false) ∨
      ∃ e, summary ans (limboStage cfg .limbo) = ([], .error e) := by
  have h1 := summary_jobStatus ans
  have h2 := summary_getRecoveryEvents ans
  -- the first of the two that fails ends the body with its exception
  have hbody : ∀ f : Option JobStat → List LbEvent → WmProc Bool,
      ∃ e, summary ans (do f (← jobStatus) (← getRecoveryEvents)) =
        ([], .error e) := by
    intro f
    cases hstatus : ans .jobStatus with
    | error what =>
        rw [hstatus] at h1
        exact ⟨_, summary_bind_error h1⟩
    | ok status =>
        rw [hstatus] at h1
        cases hevents : queryResult false (ans (.query .recovery)) with
        | ok events => exact absurd ⟨status, events, hstatus, hevents⟩ h
        | error e =>
            rw [hevents] at h2
            exact ⟨e, by
              rw [summary_bind_ok h1, summary_bind_error h2]; rfl⟩
  obtain ⟨e, he⟩ := hbody fun status events => do
    leaveOrWait cfg (inLimbo status events)
    pure true
  cases e with
  | lbQueryFailed => exact .inl (summary_tryCatch_error he)
  | _ => exact .inr ⟨_, summary_tryCatch_error he⟩

theorem limboStage_cases (ans : Answers) (state : SubmitState) :
    (heldInLimbo ans state ∧ limboAnswered ans ∧
      summary ans (limboStage cfg state.lastCheckpointing) =
        ([.postponed], .ok true)) ∨
    (¬ heldInLimbo ans state ∧
      (state.lastCheckpointing = .limbo → limboAnswered ans) ∧
      summary ans (limboStage cfg state.lastCheckpointing) =
        ([], .ok true)) ∨
    (¬ heldInLimbo ans state ∧
      ¬ (state.lastCheckpointing = .limbo → limboAnswered ans) ∧
      (summary ans (limboStage cfg state.lastCheckpointing) =
          ([], .ok false) ∨
        ∃ e, summary ans (limboStage cfg state.lastCheckpointing) =
          ([], .error e))) := by
  by_cases hlimbo : state.lastCheckpointing = .limbo
  · rw [hlimbo]
    by_cases hanswered : limboAnswered ans
    · obtain ⟨status, events, hstatus, hevents⟩ := hanswered
      rw [summary_limboBody cfg hstatus hevents]
      cases hin : inLimbo status events with
      | true =>
          exact .inl ⟨⟨hlimbo, status, events, hstatus, hevents, hin⟩,
            ⟨status, events, hstatus, hevents⟩, rfl⟩
      | false =>
          refine .inr (.inl ⟨?_, fun _ => ⟨status, events, hstatus, hevents⟩,
            rfl⟩)
          rintro ⟨-, status', events', hstatus', hevents', hin'⟩
          rw [hstatus, Except.ok.injEq] at hstatus'
          rw [hevents, Except.ok.injEq] at hevents'
          rw [← hstatus', ← hevents', hin] at hin'
          cases hin'
    · refine .inr (.inr ⟨?_, fun h => hanswered (h rfl),
        summary_limboBody_failed cfg hanswered⟩)
      rintro ⟨-, status, events, hstatus, hevents, -⟩
      exact hanswered ⟨status, events, hstatus, hevents⟩
  · refine .inr (.inl ⟨fun h => hlimbo h.1, fun h => absurd h hlimbo, ?_⟩)
    simp only [limboStage, if_neg hlimbo]
    exact summary_pure true

/-- The data of a resubmission are retrieved exactly when both queries are
answered and the description can be parsed. -/
theorem resubmitStage_cases (ans : Answers) :
    (∃ info ad, summary ans (resubmitStage cfg) = ([], .ok (info, ad)) ∧
      ∃ events submitted jobAd,
        queryResult true (ans (.query .interesting)) = .ok events ∧
        ans (.query .originalJdl) = .ok submitted ∧
        firstJobText submitted = .ad jobAd) ∨
    ((∃ e, summary ans (resubmitStage cfg) = ([], .error e)) ∧
      ¬ ∃ events submitted jobAd,
        queryResult true (ans (.query .interesting)) = .ok events ∧
        ans (.query .originalJdl) = .ok submitted ∧
        firstJobText submitted = .ad jobAd) := by
  have hinfo : summary ans (retrieveLbInfo cfg) =
      ([], (queryResult true (ans (.query .interesting))).map fun events =>
        { deepCount := (getRetryCounts events).1
          shallowCount := (getRetryCounts events).2
          previousMatches := getPreviousMatches cfg events
          previousMatchesSimple :=
            (getPreviousMatches cfg events).map (·.1) }) := by
    have hquery := summary_doQueryEvents ans .interesting true
    unfold retrieveLbInfo getInterestingEvents
    cases hevents : queryResult true (ans (.query .interesting)) with
    | error e =>
        rw [hevents] at hquery
        exact summary_bind_error hquery
    | ok events =>
        rw [hevents] at hquery
        rw [summary_bind_ok hquery]
        rfl
  have hjdl : summary ans getOriginalJdl =
      ([], ((ans (.query .originalJdl)).map firstJobText).mapError
        queryError) := by
    unfold getOriginalJdl
    rw [summary_ask]
    cases ans (.query .originalJdl) <;> rfl
  unfold resubmitStage
  cases hevents : queryResult true (ans (.query .interesting)) with
  | error e =>
      rw [hevents] at hinfo
      refine .inr ⟨⟨e, summary_bind_error hinfo⟩, ?_⟩
      rintro ⟨_, _, _, h, -⟩
      cases h
  | ok events =>
      rw [hevents] at hinfo
      rw [summary_bind_ok hinfo]
      cases hsub : ans (.query .originalJdl) with
      | error error =>
          rw [hsub] at hjdl
          refine .inr ⟨⟨_, by rw [summary_bind_error hjdl]; rfl⟩, ?_⟩
          rintro ⟨_, _, _, -, h, -⟩
          cases h
      | ok submitted =>
          rw [hsub] at hjdl
          rw [summary_bind_ok hjdl]
          cases htext : firstJobText submitted with
          | ad jobAd =>
              exact .inl ⟨_, _, rfl, events, submitted, jobAd, rfl, rfl, htext⟩
          | _ =>
              refine .inr ⟨⟨_, rfl⟩, ?_⟩
              rintro ⟨_, _, _, -, h, h'⟩
              cases h
              rw [htext] at h'
              cases h'

/-- The stages from the cancel token on: one outcome if the token is there;
otherwise an abort for every surplus token, and one more end unless the pass
has failed. -/
theorem sandboxStages_cases (ans : Answers) (command : Command) (ad : Jdl)
    (info : Option LbInfo) :
    (ans (.existsCancelToken .processor) = true ∧
      summary ans (sandboxStages cfg command ad info) =
        ([.cancelled], .ok ())) ∨
    (ans (.existsCancelToken .processor) = false ∧ scanFails ans ∧
      summary ans (sandboxStages cfg command ad info) =
        (List.replicate (tokenCount cfg ans - 1) .aborted, .ok ())) ∨
    (ans (.existsCancelToken .processor) = false ∧ ¬ scanFails ans ∧
      ∃ p, Settles ans p ∧ summary ans (sandboxStages cfg command ad info) =
        (List.replicate (tokenCount cfg ans - 1) .aborted ++
          (summary ans p).1, (summary ans p).2)) := by
  unfold sandboxStages
  cases hcancel : ans (.existsCancelToken .processor) with
  | true =>
      refine .inl ⟨rfl, ?_⟩
      rw [summary_ask, hcancel]
      rfl
  | false =>
      obtain ⟨last, hlast⟩ :=
        summary_scanTokens cfg ans none (ans .listSandbox).leaves
      rw [summary_ask, hcancel]
      simp only [Bool.false_eq_true, if_false]
      rw [summary_ask, summary_bind_ok hlast]
      cases herror : (ans .listSandbox).error with
      | some what =>
          refine .inr (.inl ⟨trivial, by rw [scanFails, herror]; rfl, ?_⟩)
          simp only [outcomeOf, tokenCount, Option.toList_none, Option.elim,
            List.nil_append, summary_pure, List.append_nil]
      | none =>
          refine .inr (.inr ⟨trivial, by rw [scanFails, herror]; simp,
            _, settles_fromToken cfg command ad info last, ?_⟩)
          simp only [outcomeOf, tokenCount, Option.toList_none, Option.elim,
            List.nil_append]

theorem entryChecks_cases (ans : Answers) (state : SubmitState) :
    (passesEntry cfg ans state ∧
      summary ans (entryChecks cfg state) = ([], .ok true)) ∨
    (¬ passesEntry cfg ans state ∧
      summary ans (entryChecks cfg state) = ([.aborted], .ok false)) := by
  unfold entryChecks passesEntry
  cases hproxy : ans .proxyExpired with
  | error e =>
      refine .inr ⟨by simp, ?_⟩
      rw [summary_ask, hproxy]
      cases e <;> rfl
  | ok expired =>
      cases expired with
      | true =>
          refine .inr ⟨by simp, ?_⟩
          rw [summary_ask, hproxy]
          rfl
      | false =>
          rw [summary_ask, hproxy]
          simp only []
          rw [summary_ask]
          cases isRequestExpired cfg state.ad state.createdAt (ans .now) with
          | true => exact .inr ⟨by simp, rfl⟩
          | false => exact .inl ⟨⟨trivial, rfl⟩, rfl⟩

/-- A program that aborts some times over and then settles. -/
def SettlesAfter (ans : Answers) (n : ℕ) (p : WmProc Unit) : Prop :=
  ∃ q, Settles ans q ∧
    summary ans p =
      (List.replicate n .aborted ++ (summary ans q).1, (summary ans q).2)

theorem settlesAfter_of_settles {p : WmProc Unit} (h : Settles ans p) :
    SettlesAfter ans 0 p := ⟨p, h, rfl⟩

/-- How a program that starts there ends: in one way before the pass over the
directory, or with the aborts of the pass and, unless it fails, one end. -/
def EndsAfterScan (ans : Answers) (state : SubmitState) (p : WmProc Unit) :
    Prop :=
  (¬ uncancelled ans state ∧ SettlesAfter ans 0 p) ∨
  (uncancelled ans state ∧ scanFails ans ∧
    summary ans p =
      (List.replicate (tokenCount cfg ans - 1) .aborted, .ok ())) ∨
  (uncancelled ans state ∧ ¬ scanFails ans ∧
    SettlesAfter ans (tokenCount cfg ans - 1) p)

theorem endsAfterScan_congr {state : SubmitState} {p q : WmProc Unit}
    (h : summary ans p = summary ans q)
    (hq : EndsAfterScan cfg ans state q) : EndsAfterScan cfg ans state p := by
  simp only [EndsAfterScan, SettlesAfter, h]
  exact hq

theorem endsAfterScan_sandboxStages {state : SubmitState}
    (hanswered : resubmitAnswered ans state) (command : Command) (ad : Jdl)
    (info : Option LbInfo) :
    EndsAfterScan cfg ans state (sandboxStages cfg command ad info) := by
  rcases sandboxStages_cases cfg ans command ad info with
    ⟨hcancel, hsum⟩ | ⟨hcancel, hfails, hsum⟩ | ⟨hcancel, hfails, hsettles⟩
  · refine .inl ⟨fun h => ?_, purgeCancelled, settles_purgeCancelled, hsum⟩
    have hfalse := h.2
    rw [hcancel] at hfalse
    cases hfalse
  · exact .inr (.inl ⟨⟨hanswered, hcancel⟩, hfails, hsum⟩)
  · exact .inr (.inr ⟨⟨hanswered, hcancel⟩, hfails, hsettles⟩)

theorem endsAfterScan_afterLimbo (ans : Answers) (state : SubmitState) :
    EndsAfterScan cfg ans state (afterLimbo cfg state) := by
  by_cases hcommand : state.command = .jobresubmit
  · rcases resubmitStage_cases cfg ans with
      ⟨info, ad, hsum, hanswered⟩ | ⟨⟨e, hsum⟩, hnot⟩
    · refine endsAfterScan_congr cfg ?_ (endsAfterScan_sandboxStages cfg
        (fun _ => hanswered) state.command ad (some info))
      rw [afterLimbo, if_pos hcommand, summary_bind_ok hsum, List.nil_append]
    · refine .inl ⟨fun h => hnot (h.1 hcommand),
        settlesAfter_of_settles (.inr ⟨e, ?_⟩)⟩
      rw [afterLimbo, if_pos hcommand, summary_bind_error hsum]
  · refine endsAfterScan_congr cfg ?_ (endsAfterScan_sandboxStages cfg
      (fun h => absurd h hcommand) state.command state.ad none)
    rw [afterLimbo, if_neg hcommand]

/-- The outcomes of a program under the handlers. -/
def handled (ans : Answers) (p : WmProc Unit) : List Outcome :=
  (summary ans (p.tryCatch (handle cfg))).1

theorem handled_ok {p : WmProc Unit} {os : List Outcome}
    (h : summary ans p = (os, .ok ())) : handled cfg ans p = os := by
  rw [handled, summary_tryCatch_ok h]

theorem handled_append {p q : WmProc Unit} {os : List Outcome}
    (h : summary ans p = (os ++ (summary ans q).1, (summary ans q).2)) :
    handled cfg ans p = os ++ handled cfg ans q := by
  unfold handled
  cases hq : (summary ans q).2 with
  | ok u =>
      rw [hq] at h
      have hq' : summary ans q = ((summary ans q).1, .ok ()) :=
        Prod.ext rfl hq
      rw [summary_tryCatch_ok h, summary_tryCatch_ok hq']
  | error e =>
      rw [hq] at h
      have hq' : summary ans q = ((summary ans q).1, .error e) :=
        Prod.ext rfl hq
      rw [summary_tryCatch_error h, summary_tryCatch_error hq',
        List.append_assoc]

/-- The handlers complete what has been left to them. -/
theorem handled_settlesAfter {n : ℕ} {p : WmProc Unit}
    (h : SettlesAfter ans n p) :
    ∃ o, handled cfg ans p = List.replicate n .aborted ++ [o] := by
  obtain ⟨q, ⟨o, -, hq⟩ | ⟨e, hq⟩, hp⟩ := h
  · rw [hq] at hp
    exact ⟨o, handled_ok cfg hp⟩
  · rw [hq, List.append_nil] at hp
    obtain ⟨o, -, ho⟩ := summary_handle cfg ans e
    exact ⟨o, by rw [handled, summary_tryCatch_error hp, ho]⟩

/-! ## The whole processor -/

/-- The outcomes of a run that has left limbo with `os`: it stops before the
pass over the directory, or with a pass that fails, or goes through. -/
def EndsAfterLimbo (ans : Answers) (state : SubmitState)
    (os total : List Outcome) : Prop :=
  (¬ reachesScan cfg ans state ∧ ∃ o, total = os ++ [o]) ∨
  (reachesScan cfg ans state ∧ scanFails ans ∧
    total = os ++ List.replicate (tokenCount cfg ans - 1) .aborted) ∨
  (reachesScan cfg ans state ∧ ¬ scanFails ans ∧
    ∃ o, total = os ++
      (List.replicate (tokenCount cfg ans - 1) .aborted ++ [o]))

theorem endsAfterLimbo_singleJob {state : SubmitState} {os : List Outcome}
    (hentry : passesEntry cfg ans state)
    (hanswered : state.lastCheckpointing = .limbo → limboAnswered ans)
    (hsum : summary ans (limboStage cfg state.lastCheckpointing) =
      (os, .ok true)) :
    EndsAfterLimbo cfg ans state os
      (handled cfg ans (singleJob cfg state)) := by
  have hjob : handled cfg ans (singleJob cfg state) =
      os ++ handled cfg ans (afterLimbo cfg state) :=
    handled_append cfg (summary_bind_ok hsum)
  have hreach : reachesScan cfg ans state ↔ uncancelled ans state :=
    ⟨fun h => h.2.2, fun h => ⟨hentry, hanswered, h⟩⟩
  rw [EndsAfterLimbo, hjob, hreach]
  rcases endsAfterScan_afterLimbo cfg ans state with
    ⟨hnot, hsettles⟩ | ⟨hscan, hfails, hrun⟩ | ⟨hscan, hfails, hsettles⟩
  · obtain ⟨o, ho⟩ := handled_settlesAfter cfg hsettles
    exact .inl ⟨hnot, o, by rw [ho]; rfl⟩
  · exact .inr (.inl ⟨hscan, hfails, by rw [handled_ok cfg hrun]⟩)
  · obtain ⟨o, ho⟩ := handled_settlesAfter cfg hsettles
    exact .inr (.inr ⟨hscan, hfails, o, by rw [ho]⟩)

/-- A run that stops in limbo ends at most once. -/
theorem handled_limbo_stopped {state : SubmitState}
    (h : summary ans (limboStage cfg state.lastCheckpointing) =
        ([], .ok false) ∨
      ∃ e, summary ans (limboStage cfg state.lastCheckpointing) =
        ([], .error e)) :
    (handled cfg ans (singleJob cfg state)).length ≤ 1 := by
  rcases h with hsum | ⟨e, hsum⟩
  · have hjob : summary ans (singleJob cfg state) = ([], .ok ()) :=
      summary_bind_ok hsum
    rw [handled_ok cfg hjob]
    exact Nat.zero_le 1
  · have hjob : summary ans (singleJob cfg state) = ([], .error e) :=
      summary_bind_error hsum
    obtain ⟨o, -, ho⟩ := summary_handle cfg ans e
    rw [handled, summary_tryCatch_error hjob, ho]
    exact Nat.le_refl 1

/-- The outcomes of one run of the processor. -/
def outcomes (other : JobType → WmProc Unit) (ans : Answers) :
    List Outcome := (summary ans (submitProcessor cfg other)).1

theorem outcomes_cases (other : JobType → WmProc Unit)
    (hsingle : jobType (ans .load).ad = .single) :
    (¬ passesEntry cfg ans (ans .load) ∧
      outcomes cfg other ans = [.aborted]) ∨
    (passesEntry cfg ans (ans .load) ∧
      outcomes cfg other ans = handled cfg ans (singleJob cfg (ans .load))) := by
  unfold outcomes submitProcessor
  rw [summary_ask, hsingle]
  rcases entryChecks_cases cfg ans (ans .load) with
    ⟨hentry, hsum⟩ | ⟨hentry, hsum⟩
  · refine .inr ⟨hentry, ?_⟩
    rw [summary_bind_ok hsum]
    rfl
  · refine .inl ⟨hentry, ?_⟩
    rw [summary_bind_ok hsum]
    rfl

/-- A run out of limbo with its one outcome must add none. -/
theorem endsOnce_of_held {state : SubmitState} {total : List Outcome}
    (hentry : passesEntry cfg ans state) (hheld : heldInLimbo ans state)
    (h : EndsAfterLimbo cfg ans state [.postponed] total) :
    (total.length ≤ 1 ∧ (heldInLimbo ans state → .delivered ∉ total)) ↔
      EndsOnce cfg ans state := by
  rcases h with ⟨hscan, o, rfl⟩ | ⟨hscan, hfails, rfl⟩ |
    ⟨hscan, hfails, o, rfl⟩
  · exact iff_of_false (fun h => absurd h.1 (by simp))
      (fun h => hscan (h.2 hentry hheld).1)
  · constructor
    · rintro ⟨hlen, -⟩
      simp only [List.length_append, List.length_replicate,
        List.length_singleton] at hlen
      have hle : tokenCount cfg ans ≤ 1 := by omega
      exact ⟨fun _ => .inl hle, fun _ _ => ⟨hscan, hfails, hle⟩⟩
    · intro h
      have hle := (h.2 hentry hheld).2.2
      refine ⟨?_, fun _ => ?_⟩
      · simp only [List.length_append, List.length_replicate,
          List.length_singleton]
        omega
      · simp [List.mem_replicate]
  · refine iff_of_false (fun h => absurd h.1 ?_)
      (fun h => hfails (h.2 hentry hheld).2.1)
    simp only [List.length_append, List.length_singleton]
    omega

/-- A run that is not held has the pass over the directory to end it. -/
theorem endsOnce_of_not_held {state : SubmitState} {total : List Outcome}
    (hheld : ¬ heldInLimbo ans state)
    (h : EndsAfterLimbo cfg ans state [] total) :
    (total.length ≤ 1 ∧ (heldInLimbo ans state → .delivered ∉ total)) ↔
      EndsOnce cfg ans state := by
  have hiff : EndsOnce cfg ans state ↔ (reachesScan cfg ans state →
      tokenCount cfg ans ≤ 1 ∨ (tokenCount cfg ans = 2 ∧ scanFails ans)) :=
    ⟨fun h => h.1, fun h => ⟨h, fun _ hh => absurd hh hheld⟩⟩
  rw [hiff]
  rcases h with ⟨hscan, o, rfl⟩ | ⟨hscan, hfails, rfl⟩ |
    ⟨hscan, hfails, o, rfl⟩
  · exact iff_of_true ⟨by simp, fun h => absurd h hheld⟩
      (fun h => absurd h hscan)
  · constructor
    · rintro ⟨hlen, -⟩ -
      simp only [List.nil_append, List.length_replicate] at hlen
      by_cases h2 : tokenCount cfg ans = 2
      · exact .inr ⟨h2, hfails⟩
      · exact .inl (by omega)
    · intro h
      refine ⟨?_, fun hh => absurd hh hheld⟩
      simp only [List.nil_append, List.length_replicate]
      rcases h hscan with h | ⟨h, -⟩ <;> omega
  · constructor
    · rintro ⟨hlen, -⟩ -
      simp only [List.nil_append, List.length_append, List.length_replicate,
        List.length_singleton] at hlen
      exact .inl (by omega)
    · intro h
      refine ⟨?_, fun hh => absurd hh hheld⟩
      simp only [List.nil_append, List.length_append, List.length_replicate,
        List.length_singleton]
      rcases h hscan with h | ⟨-, h⟩
      · omega
      · exact absurd h hfails

/-- One run ends a job at most once, and delivers nothing that is held in
limbo, exactly when the run meets `EndsOnce`. -/
theorem endsOnce_iff (other : JobType → WmProc Unit) (ans : Answers)
    (hsingle : jobType (ans .load).ad = .single) :
    ((outcomes cfg other ans).length ≤ 1 ∧
      (heldInLimbo ans (ans .load) → .delivered ∉ outcomes cfg other ans)) ↔
    EndsOnce cfg ans (ans .load) := by
  rcases outcomes_cases cfg other hsingle with
    ⟨hentry, hos⟩ | ⟨hentry, hos⟩
  · rw [hos]
    refine iff_of_true ⟨Nat.le_refl 1, fun _ => by simp⟩
      ⟨fun h => absurd h.1 hentry, fun h => absurd h hentry⟩
  · rw [hos]
    rcases limboStage_cases cfg ans (ans .load) with
      ⟨hheld, hanswered, hsum⟩ | ⟨hheld, hanswered, hsum⟩ |
      ⟨hheld, hanswered, hsum⟩
    · exact endsOnce_of_held cfg hentry hheld
        (endsAfterLimbo_singleJob cfg hentry (fun _ => hanswered) hsum)
    · exact endsOnce_of_not_held cfg hheld
        (endsAfterLimbo_singleJob cfg hentry hanswered hsum)
    · exact iff_of_true
        ⟨handled_limbo_stopped cfg hsum, fun h => absurd h hheld⟩
        ⟨fun h => absurd h.2.1 hanswered, fun _ h => absurd h hheld⟩

end

/-! ## Two runs that end twice -/

def sampleState (checkpoint : Checkpoint) : SubmitState where
  command := .jobsubmit
  ad := { shallowRetryCount := some (-1) }
  lastCheckpointing := checkpoint
  createdAt := 0

/-- Everything succeeds; the LB status and events and the entries of the
job's directory are given. -/
def sampleAnswers (state : SubmitState) (status : JobState)
    (events : List LbEvent) (leaves : List Text) : Answers
  | .load => state
  | .proxyExpired => .ok false
  | .now => 10
  | .jobStatus => .ok (some ⟨status, false⟩)
  | .jobStatusIn => some ⟨status, false⟩
  | .query _ => .ok events
  | .createContext => .ok ()
  | .loggingJob => true
  | .lbSequenceCode => ""
  | .existsCancelToken _ => false
  | .listSandbox => ⟨leaves, none⟩
  | .existsFile _ => true
  | .createToken _ => true
  | .rename _ _ => ⟨false, .other 0⟩
  | .plan _ => .ok ⟨['c', 'e'], "", [], ""⟩
  | .deliver _ _ => .ok ()
  | .openWmInput => .ok ()
  | .deliverToWm _ => .ok ()
  | .storeAd _ => ()
  | .storeCheckpoint _ => ()
  | .log _ => ()
  | .unlinkCancelToken => ()
  | .purge => ()
  | .unlink _ => ()
  | .scheduleAt _ => ()
  | .schedule _ => ()
  | .removeFromInput => ()

/-- A request that is ready and enqueued, and so held in limbo. -/
def heldAnswers : Answers :=
  sampleAnswers (sampleState .limbo) .ready
    [⟨.workloadManager, 0, .enQueued .start "jc" .empty ""⟩] []

/-- It is postponed and delivered in one run. -/
theorem not_endsOnce_held :
    outcomes sampleConfig (fun _ => pure ()) heldAnswers =
        [.postponed, .delivered] ∧
      ¬ ((outcomes sampleConfig (fun _ => pure ()) heldAnswers).length ≤ 1 ∧
        (heldInLimbo heldAnswers (heldAnswers .load) →
          .delivered ∉ outcomes sampleConfig (fun _ => pure ()) heldAnswers)) :=
  ⟨rfl, fun h => absurd h.1 (by decide)⟩

/-- A job with two tokens is aborted and delivered. -/
example : outcomes sampleConfig (fun _ => pure ())
    (sampleAnswers (sampleState .start) .waiting []
      [['t', '_', '0'], ['t', '_', '1']]) = [.aborted, .delivered] := rfl

/-- A request that finds itself out of limbo is delivered, and no more. -/
theorem endsOnce_released :
    EndsOnce sampleConfig (sampleAnswers (sampleState .limbo) .waiting [] [])
      (sampleState .limbo) :=
  (endsOnce_iff sampleConfig (fun _ => pure ())
    (sampleAnswers (sampleState .limbo) .waiting [] []) rfl).mp
    ⟨by decide, fun h => by
      obtain ⟨-, status, events, hstatus, hevents, hin⟩ := h
      cases hstatus
      cases hevents
      cases hin⟩

end Wms.Core
