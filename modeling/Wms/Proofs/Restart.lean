import Wms.Core.Restart
import Wms.Proofs.Outcomes

/-!
# How often a request is delivered

A task that has neither delivered the job nor put a processor in the queue
may do one of the two, once. Counting what has been delivered, what is in the
queue and the tasks that may still do something, the total never grows while
the manager runs, so one request brings it to one and no further. `Safe` says
of a program that it keeps to this, and every stage of the processor does,
with two exceptions that the runs considered here have to avoid.

The first is the stay in limbo, which puts the processor back in the queue
and delivers the job all the same. The second is not in the processor: a
recovery starts from nothing, and what it puts in the queue comes on top of
what was delivered before the stop.
-/

namespace Wms.Core.Restart

open Wms.Lib Wms.Lib.Proc Wms.Core

/-! ## Programs that act once -/

/-- What the processor says when it is held in limbo. -/
def heldMessage : EventKind := .pending " waiting in limbo"

/-- The state is whether the program has acted; it may act when it has not. -/
def once : Contract Bool Call Answer where
  world := fun acted c r => (r, acted || ends c r)
  assume := fun _ c _ => c ≠ .log heldMessage
  guard := fun acted c r => ends c r = true → acted = false

/-- A program that acts at most once, and throws only if it has not. -/
def Safe {α : Type} (p : WmProc α) : Prop :=
  wp once (fun _ _ => True) (fun acted _ => acted = false) false p

/-- A program that never acts. -/
def Idle {α : Type} (p : WmProc α) : Prop :=
  CallsOnly (fun c => ∀ r, ends c r = false) p

section
variable {α β : Type}

theorem idle_of_quiet {p : WmProc α} (h : Quiet p) : Idle p := by
  have hcall : ∀ c : Call, c.quiet = true → ∀ r, ends c r = false := by
    intro c hc r
    cases c <;> first | rfl | cases hc
  unfold Quiet at h
  induction p with
  | ret a => trivial
  | throw e => trivial
  | call c k ih => exact ⟨hcall c h.1, fun r => ih r (h.2 r)⟩

theorem wp_idle {p : WmProc α} (h : Idle p) (acted : Bool) :
    wp once (fun s _ => s = acted) (fun s _ => s = acted) acted p := by
  refine wp_of_callsOnly (I := fun s => s = acted) ?_ h rfl
  intro s c r hc hs _
  refine ⟨fun hends => ?_, ?_⟩
  · rw [hc r] at hends
    cases hends
  · show (s || ends c r) = acted
    rw [hc r, Bool.or_false, hs]

theorem safe_idle {p : WmProc α} (h : Idle p) : Safe p :=
  wp_mono (fun _ _ _ => trivial) (fun _ _ hs => hs) (wp_idle h false)

/-- What never acts leaves the rest its chance. -/
theorem safe_bind {p : WmProc α} {f : α → WmProc β} (hp : Idle p)
    (hf : ∀ a, Safe (f a)) : Safe (p >>= f) := by
  refine (wp_bind _ _ _).mpr (wp_mono ?_ (fun _ _ hs => hs) (wp_idle hp false))
  rintro s a rfl
  exact hf a

theorem safe_ask {c : Call} {f : Answer c → WmProc β}
    (hc : c.quiet = true) (hf : ∀ a, Safe (f a)) : Safe (ask c >>= f) :=
  safe_bind (idle_of_quiet (quiet_ask hc)) hf

/-- A last action. -/
theorem safe_last (c : Call) : Safe (ask c) :=
  fun _ _ => ⟨fun _ => rfl, trivial⟩

end

/-! ## The stages of the processor -/

theorem idle_unrecoverable (msg : String) : Idle (unrecoverable msg) :=
  ⟨fun _ => rfl, fun _ => ⟨fun _ => rfl, fun _ => trivial⟩⟩

theorem safe_postpone (cfg : Config) (reason : String) :
    Safe (postpone cfg reason) :=
  safe_bind (idle_of_quiet (quiet_of_plain (plain_logPending reason))) fun _ =>
    safe_ask rfl fun _ => safe_last _

theorem safe_handle (cfg : Config) (e : Exn) : Safe (handle cfg e) := by
  obtain ⟨msg, h | h⟩ := handle_cases cfg e
  · rw [h]
    exact safe_idle (idle_unrecoverable msg)
  · rw [h]
    exact safe_postpone cfg msg

theorem safe_passOn (dest : Output) (cmd : Request) (output : String) :
    Safe (passOn dest cmd output) := by
  refine fun r _ => ⟨fun _ => rfl, ?_⟩
  cases r with
  | ok u => exact fun _ _ => ⟨fun h => (by cases h), trivial⟩
  | error what => exact fun _ _ => ⟨fun _ => rfl, rfl⟩

theorem idle_purgeCancelled : Idle purgeCancelled :=
  ⟨fun _ => rfl, fun _ => ⟨fun _ => rfl, fun _ => ⟨fun _ => rfl,
    fun _ => trivial⟩⟩⟩

theorem safe_submit (cfg : Config) (ad : Jdl) (isReplan : Bool) :
    Safe (submit cfg ad isReplan) := by
  refine safe_ask rfl fun _ => safe_ask rfl fun planned => ?_
  refine safe_bind (callsOnly_ofExcept _) fun plannedAd => ?_
  refine safe_ask rfl fun _ => ?_
  refine safe_bind (idle_of_quiet (quiet_of_plain (plain_logCeinfoHost _ _))) fun _ => ?_
  refine safe_ask rfl fun _ => safe_ask rfl fun _ => ?_
  refine safe_bind (idle_of_quiet (quiet_of_plain plain_cancelledMeanwhile)) fun cancelled => ?_
  cases cancelled with
  | true => exact safe_idle idle_purgeCancelled
  | false => exact safe_passOn _ _ _

theorem safe_deliverStage (cfg : Config) (ad : Jdl) (tokenFile : Text)
    (isReplan : Bool) : Safe (deliverStage cfg ad tokenFile isReplan) :=
  safe_bind (idle_of_quiet (quiet_renameTokenStage _ _ _)) fun _ =>
    safe_ask rfl fun _ => safe_submit _ _ _

theorem safe_tokenStages (cfg : Config) (command : Command) (ad : Jdl)
    (info : Option LbInfo) (n : ℤ) :
    Safe (tokenStages cfg command ad info n) := by
  refine safe_bind (idle_of_quiet (quiet_resubmitTokenStage _ _ _ _))
    fun _ => ?_
  split
  · split
    · exact safe_deliverStage _ _ _ _
    · exact safe_idle (idle_of_quiet (quiet_pure _))
    · exact safe_bind (idle_of_quiet (quiet_firstTokenStage _ _)) fun _ =>
        safe_deliverStage _ _ _ _
  · exact safe_deliverStage _ _ _ _

theorem idle_scanTokens (cfg : Config) (leaves : List Text)
    (found : Option Text) : Idle (scanTokens cfg found leaves) :=
  callsOnly_scanTokensWith cfg (fun _ => idle_unrecoverable _) leaves found

theorem safe_sandboxStages (cfg : Config) (command : Command) (ad : Jdl)
    (info : Option LbInfo) :
    Safe (sandboxStages cfg command ad info) := by
  refine safe_ask rfl fun cancelled => ?_
  split
  · exact safe_idle ⟨fun _ => rfl, fun _ => ⟨fun _ => rfl,
      fun _ => ⟨fun _ => rfl, fun _ => trivial⟩⟩⟩
  · refine safe_ask rfl fun listing => ?_
    refine safe_bind (idle_scanTokens cfg _ _) fun last => ?_
    split
    · exact safe_idle (idle_of_quiet (quiet_pure _))
    · exact safe_bind (idle_of_quiet (quiet_of_plain (plain_replansStage _ _ _))) fun _ =>
        safe_tokenStages _ _ _ _ _

theorem safe_afterLimbo (cfg : Config) (state : SubmitState) :
    Safe (afterLimbo cfg state) := by
  unfold afterLimbo
  split
  · exact safe_bind (idle_of_quiet (quiet_of_plain (plain_resubmitStage cfg))) fun _ =>
      safe_sandboxStages _ _ _ _
  · exact safe_sandboxStages _ _ _ _

/-- A program that has not acted when it ends, in whichever way. -/
def Waits {α : Type} (p : WmProc α) : Prop :=
  wp once (fun acted _ => acted = false) (fun acted _ => acted = false) false p

theorem waits_idle {α : Type} {p : WmProc α} (h : Idle p) : Waits p :=
  wp_idle h false

theorem waits_bind {α β : Type} {p : WmProc α} {f : α → WmProc β}
    (hp : Waits p) (hf : ∀ a, Waits (f a)) : Waits (p >>= f) := by
  refine (wp_bind _ _ _).mpr (wp_mono ?_ (fun _ _ hs => hs) hp)
  rintro s a rfl
  exact hf a

/-- A request that is not held in limbo is not put back in the queue there;
one that is held would announce it. -/
theorem waits_leaveOrWait (cfg : Config) (held : Bool) :
    Waits (leaveOrWait cfg held) := by
  cases held with
  | true =>
      have hmsg : (" waiting in limbo" : String) ≠ "" := by decide
      show Waits (logPending " waiting in limbo" >>= _)
      unfold logPending
      rw [if_pos hmsg]
      exact fun _ h => absurd rfl h
  | false => exact waits_idle (idle_of_quiet (quiet_ask rfl))

theorem waits_limboStage (cfg : Config) (checkpoint : Checkpoint) :
    Waits (limboStage cfg checkpoint) := by
  unfold limboStage
  split
  · refine (wp_tryCatch _ _ _).mpr (wp_mono (fun _ _ hs => hs) ?_
      (waits_bind (waits_idle (idle_of_quiet (quiet_of_plain plain_jobStatus))) fun status =>
        waits_bind
          (waits_idle (idle_of_quiet (quiet_of_plain (plain_doQueryEvents _ _)))) fun events =>
          waits_bind (waits_leaveOrWait cfg _) fun _ => rfl))
    rintro acted e rfl
    cases e <;> rfl
  · exact waits_idle (idle_of_quiet (quiet_pure true))

theorem safe_singleJob (cfg : Config) (state : SubmitState) :
    Safe (singleJob cfg state) := by
  refine (wp_bind _ _ _).mpr
    (wp_mono ?_ (fun _ _ hs => hs) (waits_limboStage cfg _))
  rintro acted on rfl
  cases on with
  | true => exact safe_afterLimbo cfg state
  | false => exact safe_idle (idle_of_quiet (quiet_pure ()))

theorem idle_entryChecks (cfg : Config) (state : SubmitState) :
    Idle (entryChecks cfg state) := by
  have habort : ∀ msg, Idle (unrecoverable msg >>= fun _ => pure false) :=
    fun msg => callsOnly_bind (idle_unrecoverable msg) fun _ => trivial
  refine callsOnly_bind (callsOnly_perform fun _ => rfl) fun proxy => ?_
  cases proxy with
  | error e => cases e <;> exact habort _
  | ok expired =>
      cases expired with
      | true => exact habort _
      | false =>
          refine callsOnly_bind (callsOnly_perform fun _ => rfl) fun now => ?_
          split
          · exact habort _
          · trivial

/-- The processor acts at most once, held in limbo excepted. -/
theorem safe_processor (cfg : Config) : Safe (processor cfg) := by
  refine safe_ask rfl fun state => safe_bind (idle_entryChecks cfg state)
    fun on => ?_
  cases on with
  | false => exact safe_idle (idle_of_quiet (quiet_pure ()))
  | true =>
      refine (wp_tryCatch _ _ _).mpr (wp_mono (fun _ _ _ => trivial)
        (fun acted e (hacted : acted = false) => ?_) (?_ : Safe _))
      · subst hacted
        exact wp_mono (fun _ _ _ => trivial) (fun _ _ hs => hs)
          (safe_handle cfg e)
      · split
        · exact safe_singleJob cfg state
        · exact safe_idle (idle_of_quiet (quiet_pure ()))

/-! ## The recovery of a request -/

theorem safe_scheduleRecovered (limbo : Option Bool) :
    Safe (scheduleRecovered limbo) := by
  cases limbo with
  | some limbo => exact safe_last _
  | none => exact safe_idle (idle_of_quiet (quiet_pure ()))

/-- A program that only puts queries to the LB. -/
def Enquires {α : Type} (p : WmProc α) : Prop :=
  CallsOnly (fun c => ∃ q, c = .query q) p

theorem enquires_doQueryEvents (q : Query) (b : Bool) :
    Enquires (doQueryEvents q b) :=
  callsOnly_bind (callsOnly_perform ⟨q, rfl⟩) fun _ => callsOnly_ofExcept _

theorem enquires_limboOrFailed {events : WmProc (List LbEvent)}
    {decide_ : List LbEvent → WmProc (Option Bool)} (he : Enquires events)
    (hd : ∀ l, Enquires (decide_ l)) :
    Enquires (limboOrFailed events decide_) := by
  refine callsOnly_tryCatch (callsOnly_bind he hd) fun e => ?_
  cases e <;> trivial

theorem enquires_recoverSubmit (status : Option JobStat) :
    Enquires (recoverSubmit status) := by
  refine enquires_limboOrFailed (enquires_doQueryEvents _ _) fun events => ?_
  split
  · trivial
  · split <;> trivial

theorem enquires_recoverResubmit (status : Option JobStat) :
    Enquires (recoverResubmit status) := by
  unfold recoverResubmit
  split
  · trivial
  · exact enquires_limboOrFailed (enquires_doQueryEvents _ _) fun _ => trivial

theorem idle_of_enquires {α : Type} {p : WmProc α} (h : Enquires p) :
    Idle p := by
  refine callsOnly_mono ?_ h
  rintro c ⟨q, rfl⟩ r
  rfl

/-- A recovery puts at most one processor in the queue. -/
theorem safe_requestRecovery (command : Command) :
    Safe (requestRecovery command (pure ())) := by
  have hignore : Safe (ask .removeFromInput) :=
    safe_idle (idle_of_quiet (quiet_ask rfl))
  have hdone : Safe (pure () : WmProc Unit) :=
    safe_idle (idle_of_quiet (quiet_pure ()))
  unfold requestRecovery
  split
  · exact hignore
  · refine safe_ask rfl fun context => ?_
    cases context with
    | error what => exact hdone
    | ok u =>
        refine safe_ask rfl fun status => ?_
        split
        · split
          · exact hdone
          · exact safe_bind (idle_of_enquires (enquires_recoverSubmit status))
              fun limbo =>
              safe_scheduleRecovered limbo
        · exact safe_bind (idle_of_enquires (enquires_recoverResubmit status))
            fun limbo =>
            safe_scheduleRecovered limbo
        · exact hdone
        · exact hignore

/-- The calls a recovery makes for a single job. -/
def recoveryCall : Call → Bool
  | .schedule _ => true
  | .removeFromInput => true
  | .createContext => true
  | .jobStatusIn => true
  | .query _ => true
  | _ => false

/-- A program of the calls of a recovery. -/
def Recovers {α : Type} (p : WmProc α) : Prop :=
  CallsOnly (recoveryCall · = true) p

theorem recovers_of_enquires {α : Type} {p : WmProc α} (h : Enquires p) :
    Recovers p := by
  refine callsOnly_mono ?_ h
  rintro c ⟨q, rfl⟩
  rfl

theorem recovers_requestRecovery (command : Command) :
    Recovers (requestRecovery command (pure ())) := by
  have hask : ∀ {c : Call}, recoveryCall c = true → Recovers (ask c) :=
    fun h => callsOnly_perform h
  have hschedule : ∀ limbo, Recovers (scheduleRecovered limbo) := by
    intro limbo
    cases limbo with
    | some limbo => exact hask rfl
    | none => trivial
  unfold requestRecovery
  split
  · exact hask rfl
  · refine callsOnly_bind (hask rfl) fun context => ?_
    cases context with
    | error what => trivial
    | ok u =>
        refine callsOnly_bind (hask rfl) fun status => ?_
        split
        · split
          · trivial
          · exact callsOnly_bind
              (recovers_of_enquires (enquires_recoverSubmit status)) hschedule
        · exact callsOnly_bind
            (recovers_of_enquires (enquires_recoverResubmit status)) hschedule
        · trivial
        · exact hask rfl

/-- A recovery says nothing, and acts by putting the request in the queue. -/
theorem recoveryCall_cases {c : Call} (h : recoveryCall c = true) :
    (∃ check, c = .schedule check) ∨
      (c ≠ .log heldMessage ∧ ∀ r, ends c r = false) := by
  cases c with
  | schedule check => exact .inl ⟨check, rfl⟩
  | log e => cases h
  | deliver dest request => cases h
  | scheduleAt t => cases h
  | _ => exact .inr ⟨by simp, fun _ => rfl⟩

/-! ## One step -/

/-- The call a task makes next. -/
def nextCall (t : Task) : Option Call :=
  match t.program with
  | .call c _ => some c
  | _ => none

/-- A request that delivers once at most. -/
def TaskSafe (t : Task) : Prop :=
  wp once (fun _ _ => True) (fun _ _ => True) t.ended t.program

theorem taskSafe_of_safe {p : WmProc Unit} (h : Safe p) : TaskSafe ⟨p, false⟩ :=
  wp_mono (fun _ _ _ => trivial) (fun _ _ _ => trivial) h

/-- What a call adds to the deliveries and the queue is what `ends` says. -/
theorem effect_total (env : Env) (c : Call) (r : Answer c) :
    (effect env c r).delivered + (effect env c r).queued =
      env.delivered + env.queued + if ends c r then 1 else 0 := by
  cases c with
  | deliver dest request =>
      cases r with
      | ok u =>
          show env.delivered + 1 + env.queued = env.delivered + env.queued + 1
          omega
      | error what => rfl
  | _ => rfl

/-- A call that does not act delivers nothing and queues nothing. -/
theorem effect_of_not_ends (env : Env) {c : Call} {r : Answer c}
    (h : ends c r = false) :
    (effect env c r).delivered = env.delivered ∧
      (effect env c r).queued = env.queued := by
  cases c with
  | deliver dest request =>
      cases r with
      | ok u => cases h
      | error what => exact ⟨rfl, rfl⟩
  | scheduleAt t => cases h
  | schedule c => cases h
  | _ => exact ⟨rfl, rfl⟩

/-- A step of a task is a call it is allowed to make, with an answer to it. -/
theorem stepTask_cases {env : Env} {t : Task} {ans : (c : Call) → Answer c}
    {r : Env × Task} (h : stepTask env t ans = some r) :
    ∃ c k a, t.program = .call c k ∧
      r = (effect env c a, ⟨k a, t.ended || ends c a⟩) := by
  unfold stepTask at h
  split at h
  next c k hp =>
    injection h with h
    exact ⟨c, k, _, hp, h.symm⟩
  next => cases h

/-- A task that does not stay in limbo keeps to its one action. -/
theorem taskSafe_call {t : Task} {c : Call} {k : Answer c → WmProc Unit}
    (hsafe : TaskSafe t) (hp : t.program = .call c k)
    (hheld : c ≠ .log heldMessage) (a : Answer c) :
    (ends c a = true → t.ended = false) ∧
      TaskSafe ⟨k a, t.ended || ends c a⟩ := by
  unfold TaskSafe at hsafe
  rw [hp] at hsafe
  exact hsafe a hheld

/-! ## Whole runs -/

/-- A task that may still act. -/
def fresh (t : Task) : Bool := !t.ended

/-- What was delivered, and what may still come to be. -/
def budget (s : State) : ℕ :=
  s.env.delivered + s.env.queued + s.tasks.countP fresh

/-- While a request is recovered nothing works on it, and what the recovery
has not put in the queue is not there. -/
def RecoverySafe (env : Env) (t : Task) : Prop :=
  TaskSafe t ∧ Recovers t.program ∧
    (t.ended = false → env.queued = 0)

/-- No task works on the request, and no processor waits to do so. -/
def AtRest (s : State) : Prop :=
  s.env.queued = 0 ∧ s.tasks = []

/-- The invariant of the runs. -/
structure Inv (s : State) : Prop where
  budget_le : budget s ≤ 1
  tasks_safe : ∀ t ∈ s.tasks, TaskSafe t
  unread_rest : s.unread = true →
    AtRest s ∧ s.env.delivered = 0 ∧ s.recovering = none
  down_rest : s.up = false → AtRest s ∧ s.recovering = none
  recovering_alone : ∀ t, s.recovering = some t →
    RecoverySafe s.env t ∧ s.tasks = []

/-- What the processor is about to say when it is held in limbo. -/
def isHeld : Option Call → Bool
  | some (.log (.pending " waiting in limbo")) => true
  | _ => false

/-- Whether a call schedules a request. -/
def isSchedule : Option Call → Bool
  | some (.schedule _) => true
  | _ => false

/-- The steps that are allowed: no recovery puts a job that was delivered
back in the queue, and no processor is held in limbo. -/
def undisturbed (s : State) : Label → Bool
  | .recover _ =>
      !(isSchedule (s.recovering.bind nextCall) && s.env.delivered ≠ 0)
  | .step i _ => !isHeld (s.tasks[i]?.bind nextCall)
  | _ => true

theorem inv_init (request : SubmitState) (lb : List LbEvent) :
    Inv (init request lb) where
  budget_le := Nat.zero_le 1
  tasks_safe := fun _ h => by cases h
  unread_rest := fun _ => ⟨⟨rfl, rfl⟩, rfl, rfl⟩
  down_rest := fun h => by cases h
  recovering_alone := fun _ h => by cases h

/-- A worker at work means the manager is up, past its recovery, and has
read the request. -/
theorem Inv.at_work {s : State} (h : Inv s) (hne : s.tasks ≠ []) :
    s.unread = false ∧ s.up = true ∧ s.recovering = none := by
  refine ⟨?_, ?_, ?_⟩
  · cases hu : s.unread with
    | false => rfl
    | true => exact absurd (h.unread_rest hu).1.2 hne
  · cases hu : s.up with
    | true => rfl
    | false => exact absurd (h.down_rest hu).1.2 hne
  · cases hr : s.recovering with
    | none => rfl
    | some t => exact absurd (h.recovering_alone t hr).2 hne

theorem working_iff (s : State) :
    working s = true ↔ s.up = true ∧ s.recovering = none := by
  simp [working]

/-- Exchanging a task for what is left of it after a call keeps the count of
tasks that may act in step with `ends`. -/
theorem countP_fresh_set {tasks : List Task} {i : ℕ} {t : Task}
    (hi : tasks[i]? = some t) (p : WmProc Unit) (acts : Bool)
    (hacts : acts = true → t.ended = false) :
    (tasks.set i ⟨p, t.ended || acts⟩).countP fresh +
      (if acts then 1 else 0) = tasks.countP fresh := by
  obtain ⟨hlt, hget⟩ := List.getElem?_eq_some_iff.mp hi
  rw [List.countP_set hlt, hget]
  cases acts with
  | true =>
      have hf : fresh t = true := by rw [fresh, hacts rfl]; rfl
      have hpos : 0 < tasks.countP fresh :=
        List.countP_pos_iff.mpr ⟨t, List.mem_of_getElem? hi, hf⟩
      rw [hf, Bool.or_true]
      show tasks.countP fresh - 1 + 0 + 1 = tasks.countP fresh
      omega
  | false =>
      rw [Bool.or_false]
      show tasks.countP fresh - (if fresh t = true then 1 else 0) +
        (if fresh t = true then 1 else 0) + 0 = tasks.countP fresh
      split
      next hf =>
        have hpos : 0 < tasks.countP fresh :=
          List.countP_pos_iff.mpr ⟨t, List.mem_of_getElem? hi, hf⟩
        omega
      next => omega

/-! One lemma for each kind of step. -/

theorem inv_component {s : State} (h : Inv s) (e : LbEvent) :
    Inv { s with env := { s.env with lb := s.env.lb ++ [e] } } where
  budget_le := h.budget_le
  tasks_safe := h.tasks_safe
  unread_rest := h.unread_rest
  down_rest := h.down_rest
  recovering_alone := h.recovering_alone

theorem inv_dispatch {s : State} (h : Inv s) (hw : working s = true)
    (hu : s.unread = true) :
    Inv { s with
      unread := false
      env := effect s.env (.schedule .start) () } := by
  obtain ⟨⟨hqueued, htasks⟩, hdelivered, hnone⟩ := h.unread_rest hu
  obtain ⟨hup, -⟩ := (working_iff s).mp hw
  refine ⟨?_, h.tasks_safe, fun hu => (by cases hu), fun hd => ?_,
    fun t ht => ?_⟩
  · show s.env.delivered + (s.env.queued + 1) + s.tasks.countP fresh ≤ 1
    rw [hqueued, hdelivered, htasks]
    exact Nat.le_refl 1
  · exact absurd (hup.symm.trans hd) (by decide)
  · exact absurd (hnone.symm.trans ht) (by simp)

theorem inv_start {s : State} (cfg : Config) (h : Inv s)
    (hw : working s = true) (hq : s.env.queued ≠ 0) :
    Inv { s with
      env := { s.env with queued := s.env.queued - 1 }
      tasks := s.tasks ++ [⟨processor cfg, false⟩] } := by
  obtain ⟨hup, hnone⟩ := (working_iff s).mp hw
  refine ⟨?_, fun t ht => ?_, fun hu => ?_, fun hd => ?_, fun t ht => ?_⟩
  · have hbudget := h.budget_le
    unfold budget at hbudget
    show s.env.delivered + (s.env.queued - 1) +
      List.countP fresh (s.tasks ++ [⟨processor cfg, false⟩]) ≤ 1
    rw [List.countP_append]
    show s.env.delivered + (s.env.queued - 1) +
      (s.tasks.countP fresh + 1) ≤ 1
    omega
  · rcases List.mem_append.mp ht with ht | ht
    · exact h.tasks_safe t ht
    · rw [List.mem_singleton] at ht
      subst ht
      exact taskSafe_of_safe (safe_processor cfg)
  · exact absurd (h.unread_rest hu).1.1 hq
  · exact absurd (hup.symm.trans hd) (by decide)
  · exact absurd (hnone.symm.trans ht) (by simp)

theorem inv_step {s : State} (h : Inv s) {i : ℕ} {t : Task}
    (hi : s.tasks[i]? = some t) (hheld : isHeld (nextCall t) = false)
    {ans : (c : Call) → Answer c} {r : Env × Task}
    (hr : stepTask s.env t ans = some r) :
    Inv { s with env := r.1, tasks := s.tasks.set i r.2 } := by
  obtain ⟨c, k, a, hp, rfl⟩ := stepTask_cases hr
  have hmem : t ∈ s.tasks := List.mem_of_getElem? hi
  have hc : c ≠ .log heldMessage := by
    rintro rfl
    rw [nextCall, hp] at hheld
    cases hheld
  obtain ⟨hacts, hsafe⟩ := taskSafe_call (h.tasks_safe t hmem) hp hc a
  obtain ⟨hunread, hup, hnone⟩ := h.at_work (List.ne_nil_of_mem hmem)
  refine ⟨?_, fun t' ht' => ?_, fun hu => ?_, fun hd => ?_, fun t' ht' => ?_⟩
  · have hbudget := h.budget_le
    have htotal := effect_total s.env c a
    have hcount := countP_fresh_set hi (k a) (ends c a) hacts
    unfold budget at hbudget ⊢
    show (effect s.env c a).delivered + (effect s.env c a).queued +
      (s.tasks.set i ⟨k a, t.ended || ends c a⟩).countP fresh ≤ 1
    omega
  · rcases List.mem_or_eq_of_mem_set ht' with ht' | rfl
    · exact h.tasks_safe t' ht'
    · exact hsafe
  · exact absurd (hunread.symm.trans hu) (by decide)
  · exact absurd (hup.symm.trans hd) (by decide)
  · exact absurd (hnone.symm.trans ht') (by simp)

theorem inv_finish {s : State} (h : Inv s) {i : ℕ} {t : Task}
    (hi : s.tasks[i]? = some t) :
    Inv { s with tasks := s.tasks.eraseIdx i } := by
  obtain ⟨hunread, hup, hnone⟩ :=
    h.at_work (List.ne_nil_of_mem (List.mem_of_getElem? hi))
  refine ⟨?_, fun t' ht' => ?_, fun hu => ?_, fun hd => ?_, fun t' ht' => ?_⟩
  · have hcount : (s.tasks.eraseIdx i).countP fresh ≤ s.tasks.countP fresh :=
      (List.eraseIdx_sublist s.tasks i).countP_le
    have hbudget := h.budget_le
    unfold budget at hbudget ⊢
    show s.env.delivered + s.env.queued +
      (s.tasks.eraseIdx i).countP fresh ≤ 1
    omega
  · exact h.tasks_safe t' (List.mem_of_mem_eraseIdx ht')
  · exact absurd (hunread.symm.trans hu) (by decide)
  · exact absurd (hup.symm.trans hd) (by decide)
  · exact absurd (hnone.symm.trans ht') (by simp)

theorem inv_cleanup {s : State} (h : Inv s) :
    Inv { s with env := { s.env with memory := none, file := false } } where
  budget_le := h.budget_le
  tasks_safe := h.tasks_safe
  unread_rest := h.unread_rest
  down_rest := h.down_rest
  recovering_alone := h.recovering_alone

theorem inv_crash {s : State} (h : Inv s) :
    Inv { s with
      env := { s.env with memory := none, queued := 0 }
      up := false
      recovering := none
      tasks := [] } := by
  refine ⟨?_, fun t ht => (by cases ht), fun hu => ?_,
    fun _ => ⟨⟨rfl, rfl⟩, rfl⟩, fun t ht => by cases ht⟩
  · have hbudget := h.budget_le
    unfold budget at hbudget ⊢
    show s.env.delivered + 0 + 0 ≤ 1
    omega
  · exact ⟨⟨rfl, rfl⟩, (h.unread_rest hu).2.1, rfl⟩

theorem inv_restart {s : State} (h : Inv s) (hup : s.up = false) :
    Inv { s with
      up := true
      unread := false
      recovering :=
        if s.env.file then
          some ⟨requestRecovery s.env.request.command (pure ()), false⟩
        else none } := by
  obtain ⟨⟨hqueued, htasks⟩, -⟩ := h.down_rest hup
  refine ⟨h.budget_le, h.tasks_safe, fun hu => (by cases hu),
    fun hd => (by cases hd), fun t ht => ⟨?_, htasks⟩⟩
  simp only [Option.ite_none_right_eq_some, Option.some.injEq] at ht
  obtain ⟨-, rfl⟩ := ht
  exact ⟨taskSafe_of_safe (safe_requestRecovery _),
    recovers_requestRecovery _, fun _ => hqueued⟩

theorem inv_recover {s : State} (h : Inv s) {t : Task}
    (ht : s.recovering = some t)
    (hnew : isSchedule (nextCall t) = true → s.env.delivered = 0)
    {ans : (c : Call) → Answer c} {r : Env × Task}
    (hr : stepTask s.env t ans = some r) :
    Inv { s with env := r.1, recovering := some r.2 } := by
  obtain ⟨c, k, a, hp, rfl⟩ := stepTask_cases hr
  obtain ⟨⟨hsafe, hrecovers, hqueued⟩, htasks⟩ := h.recovering_alone t ht
  rw [hp] at hrecovers
  obtain ⟨hcall, hrest⟩ := hrecovers
  have hbudget := h.budget_le
  unfold budget at hbudget
  rcases recoveryCall_cases hcall with ⟨check, rfl⟩ | ⟨hheld, hidle⟩
  · obtain ⟨hacts, hsafe'⟩ := taskSafe_call hsafe hp (by simp) a
    have hdelivered : s.env.delivered = 0 := by
      refine hnew ?_
      rw [nextCall, hp]
      rfl
    have hnone : s.env.queued = 0 := hqueued (hacts rfl)
    refine ⟨?_, h.tasks_safe, fun hu => ?_, fun hd => ?_, fun t' ht' => ?_⟩
    · show s.env.delivered + (s.env.queued + 1) + s.tasks.countP fresh ≤ 1
      rw [hdelivered, hnone, htasks]
      exact Nat.le_refl 1
    · exact absurd ((h.unread_rest hu).2.2.symm.trans ht) (by simp)
    · exact absurd ((h.down_rest hd).2.symm.trans ht) (by simp)
    · cases ht'
      refine ⟨⟨hsafe', hrest a, fun hend => ?_⟩, htasks⟩
      exact absurd hend (by simp [ends])
  · obtain ⟨-, hsafe'⟩ := taskSafe_call hsafe hp hheld a
    obtain ⟨hsame, hsame'⟩ := effect_of_not_ends s.env (hidle a)
    refine ⟨?_, h.tasks_safe, fun hu => ?_, fun hd => ?_, fun t' ht' => ?_⟩
    · show (effect s.env c a).delivered + (effect s.env c a).queued +
        s.tasks.countP fresh ≤ 1
      rw [hsame, hsame']
      exact hbudget
    · exact absurd ((h.unread_rest hu).2.2.symm.trans ht) (by simp)
    · exact absurd ((h.down_rest hd).2.symm.trans ht) (by simp)
    · cases ht'
      refine ⟨⟨hsafe', hrest a, fun hend => ?_⟩, htasks⟩
      show (effect s.env c a).queued = 0
      rw [hsame']
      rw [hidle a, Bool.or_false] at hend
      exact hqueued hend

/-- An undisturbed step keeps the invariant. -/
theorem inv_next (cfg : Config) (s : State) (l : Label) (s' : State)
    (h : Inv s) (hok : undisturbed s l = true)
    (hn : next cfg s l = some s') :
    Inv s' := by
  unfold next at hn
  split at hn
  next e =>
    split at hn
    · cases hn
    · cases hn
      exact inv_component h e
  next =>
    split at hn
    next hw =>
      obtain ⟨hw, hu⟩ := Bool.and_eq_true_iff.mp hw
      cases hn
      exact inv_dispatch h hw hu
    next => cases hn
  next =>
    split at hn
    next hw =>
      simp only [Bool.and_eq_true, decide_eq_true_eq] at hw
      cases hn
      exact inv_start cfg h hw.1 hw.2
    next => cases hn
  next i ans =>
    split at hn
    · cases hn
    next t hi =>
      obtain ⟨r, hr, rfl⟩ := Option.map_eq_some_iff.mp hn
      refine inv_step h hi ?_ hr
      have hheld := Bool.not_eq_true' _ ▸ hok
      rwa [hi] at hheld
  next i =>
    split at hn
    · cases hn
    next t hi =>
      split at hn
      · cases hn
        exact inv_finish h hi
      · cases hn
  next =>
    split at hn
    · cases hn
      exact inv_cleanup h
    · cases hn
  next =>
    cases hn
    exact inv_crash h
  next =>
    split at hn
    · cases hn
    next hup =>
      cases hn
      exact inv_restart h (Bool.eq_false_iff.mpr hup)
  next ans =>
    split at hn
    · cases hn
    next t ht =>
      obtain ⟨r, hr, rfl⟩ := Option.map_eq_some_iff.mp hn
      refine inv_recover h ht (fun hnew => ?_) hr
      simp only [undisturbed, ht, Option.bind_some, hnew] at hok
      simpa using hok
  next =>
    split at hn
    · cases hn
    next t ht =>
      split at hn
      · cases hn
        exact ⟨h.budget_le, h.tasks_safe,
          fun hu => ⟨(h.unread_rest hu).1, (h.unread_rest hu).2.1, rfl⟩,
          fun hd => ⟨(h.down_rest hd).1, rfl⟩, fun t' ht' => by cases ht'⟩
      · cases hn

/-- One request is delivered at most once in every undisturbed run, however
often the manager stops in it. -/
theorem delivered_le_one (cfg : Config) (request : SubmitState)
    (lb : List LbEvent) (ls : List Label) (s : State)
    (hok : Meets (next cfg) (fun s l => undisturbed s l = true)
      (init request lb) ls)
    (hrun : run (next cfg) (init request lb) ls = some s) :
    s.env.delivered ≤ 1 := by
  have hinv : Inv s :=
    run_invariant (inv_next cfg) (inv_init request lb) hok hrun
  have hbudget := hinv.budget_le
  unfold budget at hbudget
  omega

/-! ## Two runs

Everything succeeds. The status matters in the recovery only. -/

def sampleSteps (n : ℕ) : List Label :=
  List.replicate n (.step 0 (sampleAnswers (sampleState .start) .ready [] []))

def sampleRecovery (status : JobState) : List Label :=
  [.crash, .restart] ++
    List.replicate 4 (.recover (sampleAnswers (sampleState .start) status [] []))
    ++ [.recovered, .start]

/-- The manager stops when the whole processing is done but for the removal
of the request file. -/
def stopAfterOk : List Label :=
  [.dispatch, .start] ++ sampleSteps 15 ++ sampleRecovery .ready ++
    sampleSteps 15

/-- The last event is ENQUEUED OK, which is no limbo, so the job starts
again. -/
theorem not_delivered_le_one_stopAfterOk :
    ∃ s, run (next sampleConfig) (init (sampleState .start) []) stopAfterOk =
      some s ∧ s.env.delivered = 2 :=
  ⟨_, rfl, rfl⟩

/-- Here it stops before it has logged ENQUEUED START. -/
def stopAfterMatch : List Label :=
  [.dispatch, .start] ++ sampleSteps 9 ++ sampleRecovery .waiting ++
    sampleSteps 15

theorem delivered_le_one_stopAfterMatch :
    ∃ s, run (next sampleConfig) (init (sampleState .start) []) stopAfterMatch =
      some s ∧ s.env.delivered = 1 ∧ s.env.delivered ≤ 1 := by
  have hok : ((steps (next sampleConfig) (init (sampleState .start) [])
      stopAfterMatch).all fun p => undisturbed p.1 p.2) = true := rfl
  exact ⟨_, rfl, rfl, delivered_le_one sampleConfig (sampleState .start) []
    stopAfterMatch _ (List.all_eq_true.mp hok) rfl⟩

end Wms.Core.Restart
