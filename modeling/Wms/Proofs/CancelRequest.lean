import Wms.Core.CancelRequest

/-!
# What a cancel does to the children of a request

The calls of one run, read off the program child by child. The loop reaches a
child when all before it have a state and have answered the query of their
events; what is done about it follows from its own answers alone.
-/

namespace Wms.Core.Cancel

open Wms.Lib

variable (ans : (c : Call) → Answer c)

/-! ## One child -/

/-- The calls of `forward`, up to the first that throws. -/
def forwardCalls (i : ℕ) : List Call :=
  .changeLoggingJob i ::
    if (ans (.changeLoggingJob i)).isOk then
      .logCancelled (some i) ::
        if (ans (.logCancelled (some i))).isOk then
          .changeLoggingJobBack i ::
            if (ans (.changeLoggingJobBack i)).isOk then [.cancel (some i)]
            else []
        else []
    else []

/-- The events that the query of a child answers, unless it throws. -/
def childEvents (i : ℕ) : Except Exn (List LbEvent) :=
  queryResult false (ans (.cancelEvents (some i)))

/-- The child is cancelled already, or done. -/
def settled (state : JobState) (events : List LbEvent) : Bool :=
  isLastCancelledByWm events || (state = .done && isLastDone events .ok)

/-- The WM has passed the child on. -/
def passedOn (state : JobState) (events : List LbEvent) : Bool :=
  !(state = .done && isLastDone events .failed) &&
    isLastEnQueuedByWm events .ok

/-- The cancel is passed on to the child. -/
def forwards (jobtype : StatType) (state : JobState) (events : List LbEvent) :
    Bool :=
  !settled state events && (passedOn state events || jobtype = .dag) &&
    state ≠ .aborted

/-- Nothing is done about the child. -/
def leaves (jobtype : StatType) (state : JobState) (events : List LbEvent) :
    Bool :=
  !settled state events && !(passedOn state events || jobtype = .dag)

section
variable {ans} {jobtype : StatType} {state : JobState} {i : ℕ}

theorem replay_orThrow (c : Call) (h : Answer c = Except Exn Unit) :
    Proc.replay ans (orThrow c h) = ([c], h ▸ ans c) := by
  rw [orThrow, ask, Proc.bind_eq, Proc.perform_bind, Proc.replay_call]
  cases (h ▸ ans c : Except Exn Unit) <;> rfl

theorem replay_forward :
    Proc.replay ans (forward i) = (forwardCalls ans i, .ok ()) := by
  rw [forward, Proc.replay_tryCatch]
  simp only [Proc.bind_eq, Proc.replay_bind, replay_orThrow, forwardCalls]
  cases ans (.changeLoggingJob i) with
  | error e => rfl
  | ok _ =>
      cases ans (.logCancelled (some i)) with
      | error e => rfl
      | ok _ =>
          cases ans (.changeLoggingJobBack i) with
          | error e => rfl
          | ok _ => cases ans (.cancel (some i)) <;> rfl

theorem replay_getCancelEvents (job : Option ℕ) :
    Proc.replay ans (getCancelEvents job) =
      ([.cancelEvents job], queryResult false (ans (.cancelEvents job))) := by
  rw [getCancelEvents, ask, Proc.bind_eq, Proc.perform_bind, Proc.replay_call]
  cases queryResult false (ans (.cancelEvents job)) <;> rfl

/-- What is done about a child once its events are there. -/
theorem childStage_eq : childStage jobtype i state =
    getCancelEvents (some i) >>= fun events =>
      if forwards jobtype state events then forward i >>= fun _ => pure false
      else pure (leaves jobtype state events) := by
  refine congrArg (getCancelEvents (some i) >>= ·) (funext fun events => ?_)
  by_cases hwm : isLastCancelledByWm events = true
  · simp [forwards, leaves, settled, hwm]
  by_cases hok : (decide (state = .done) && isLastDone events .ok) = true
  · simp [forwards, leaves, settled, hok]
  have hsettled : settled state events = false := by
    rw [settled, Bool.or_eq_false_iff]
    exact ⟨Bool.eq_false_iff.mpr hwm, Bool.eq_false_iff.mpr hok⟩
  rw [if_neg hwm, if_neg hok]
  change (if passedOn state events = true then _ else _) = _
  have hforwards : forwards jobtype state events =
      ((passedOn state events || jobtype = .dag) && state ≠ .aborted) := by
    rw [forwards, hsettled, Bool.not_false, Bool.true_and]
  have hleaves : leaves jobtype state events =
      !(passedOn state events || jobtype = .dag) := by
    rw [leaves, hsettled, Bool.not_false, Bool.true_and]
  rw [hforwards, hleaves]
  by_cases hpassed : passedOn state events = true
  · rw [if_pos hpassed, hpassed]
    by_cases hab : state = .aborted <;> simp [hab]
  · rw [if_neg hpassed, Bool.eq_false_iff.mpr hpassed]
    by_cases hdag : jobtype = .dag <;> by_cases hab : state = .aborted <;>
      simp [hdag, hab]

theorem replay_childStage : Proc.replay ans (childStage jobtype i state) =
    match childEvents ans i with
    | .error e => ([.cancelEvents (some i)], .error e)
    | .ok events => (.cancelEvents (some i) ::
        if forwards jobtype state events then forwardCalls ans i else [],
      .ok (leaves jobtype state events)) := by
  rw [childStage_eq, Proc.bind_eq, Proc.replay_bind, replay_getCancelEvents,
    childEvents]
  cases queryResult false (ans (.cancelEvents (some i))) with
  | error e => rfl
  | ok events =>
      cases hf : forwards jobtype state events with
      | true =>
          have hleaves : leaves jobtype state events = false := by
            simp only [forwards, leaves] at hf ⊢
            grind
          simp [hf, hleaves, Proc.replay_bind, replay_forward]
      | false => simp [hf]

end

/-! ## The loop over the children -/

section
variable (jobtype : StatType) (states : ℕ → Option JobState)

/-- The children whose state and events the loop has got. -/
def reached (is : List ℕ) : List ℕ :=
  is.takeWhile fun i => (states i).isSome && (childEvents ans i).isOk

/-- What ends the loop with an exception. -/
def fails : List ℕ → Option Exn
  | [] => none
  | i :: rest =>
      match states i, childEvents ans i with
      | some _, .error e => some e
      | some _, .ok _ => fails rest
      | none, _ => none

/-- What is true of a child, by the answers about it. -/
def onChild (p : StatType → JobState → List LbEvent → Bool) (i : ℕ) : Bool :=
  match states i, childEvents ans i with
  | some state, .ok events => p jobtype state events
  | _, _ => false

/-- The calls made about the first child and those after it. -/
def loopCalls : List ℕ → List Call
  | [] => []
  | i :: rest =>
      .createToken i ::
        if (states i).isSome then
          .cancelEvents (some i) ::
            ((if onChild ans jobtype states forwards i then forwardCalls ans i
              else []) ++
            if (childEvents ans i).isOk then loopCalls rest else [])
        else []

variable {ans jobtype states} {i : ℕ} {is : List ℕ}

theorem reached_cons_ok (hs : (states i).isSome) (he : (childEvents ans i).isOk) :
    reached ans states (i :: is) = i :: reached ans states is := by
  rw [reached, List.takeWhile_cons, hs, he]
  rfl

theorem reached_cons_not
    (hne : ((states i).isSome && (childEvents ans i).isOk) = false) :
    reached ans states (i :: is) = [] := by
  rw [reached, List.takeWhile_cons, hne]
  rfl

theorem replay_childrenLoop (incomplete : Bool) :
    Proc.replay ans (childrenLoop jobtype states is incomplete) =
      (loopCalls ans jobtype states is,
        match fails ans states is with
        | some e => .error e
        | none => .ok (incomplete ||
            (reached ans states is).any (onChild ans jobtype states leaves))) := by
  induction is generalizing incomplete with
  | nil => simp [childrenLoop, loopCalls, fails, reached]
  | cons i rest ih =>
      rw [childrenLoop, ask, Proc.bind_eq, Proc.perform_bind, Proc.replay_call]
      cases hs : states i with
      | none =>
          rw [reached_cons_not (by rw [hs]; rfl)]
          simp [loopCalls, fails, hs]
      | some state =>
          cases he : childEvents ans i with
          | error e =>
              simp [loopCalls, fails, onChild, hs, he, Proc.replay_bind,
                replay_childStage, Except.isOk, Except.toBool]
          | ok events =>
              rw [reached_cons_ok (by rw [hs]; rfl) (by rw [he]; rfl)]
              simp only [loopCalls, fails, onChild, hs, he, Proc.bind_eq,
                Proc.replay_bind, replay_childStage, ih, Option.isSome_some,
                Except.isOk, Except.toBool, if_true, List.any_cons,
                List.cons_append]
              rw [← Bool.or_assoc, Bool.or_comm incomplete]

theorem mem_takeWhile_range (p : ℕ → Bool) (start n : ℕ) :
    i ∈ (List.range' start n).takeWhile p ↔
      start ≤ i ∧ i < start + n ∧ ∀ k, start ≤ k → k ≤ i → p k = true := by
  induction n generalizing start with
  | zero => simp; omega
  | succ n ih =>
      rw [List.range'_succ, List.takeWhile_cons]
      cases hp : p start with
      | false =>
          simp only [Bool.false_eq_true, if_false, List.not_mem_nil, false_iff]
          rintro ⟨hle, -, hall⟩
          rw [hall start (Nat.le_refl _) hle] at hp
          cases hp
      | true =>
          rw [if_pos rfl, List.mem_cons, ih]
          constructor
          · rintro (rfl | ⟨hle, hlt, hall⟩)
            · refine ⟨Nat.le_refl _, by omega, fun k hk hk' => ?_⟩
              rwa [Nat.le_antisymm hk' hk]
            · refine ⟨by omega, by omega, fun k hk hk' => ?_⟩
              rcases Nat.eq_or_lt_of_le hk with rfl | hk
              · exact hp
              · exact hall k hk hk'
          · rintro ⟨hle, hlt, hall⟩
            rcases Nat.eq_or_lt_of_le hle with rfl | hle
            · exact .inl rfl
            · exact .inr ⟨hle, by omega, fun k hk hk' => hall k (by omega) hk'⟩

/-- The loop gets to a child over those before it. -/
theorem mem_reached_range {n : ℕ} : i ∈ reached ans states (List.range n) ↔
    i < n ∧ ∀ k ≤ i, (states k).isSome ∧ (childEvents ans k).isOk := by
  rw [reached, List.range_eq_range', mem_takeWhile_range]
  simp

end

/-! ## Who is cancelled -/

section
variable {ans} {jobtype : StatType} {states : ℕ → Option JobState} {i : ℕ}
  {is : List ℕ} {context : Option ℕ} {us cs : List Call} {who : Option ℕ}

theorem contextAfter_append : contextAfter ans context (us ++ cs) =
    contextAfter ans (contextAfter ans context us) cs := by
  induction us generalizing context with
  | nil => rfl
  | cons u us ih => cases u <;> exact ih

theorem contextAfter_cons (c : Call) : contextAfter ans context (c :: cs) =
    contextAfter ans (contextAfter ans context [c]) cs :=
  @contextAfter_append ans context [c] cs

theorem cancelled_append : cancelled ans context (us ++ cs) =
    cancelled ans context us ++ cancelled ans (contextAfter ans context us) cs := by
  induction us generalizing context with
  | nil => rfl
  | cons u us ih =>
      rw [contextAfter_cons]
      cases u <;> simp only [List.cons_append, cancelled, ih]

theorem cancelled_forward : who ∈ cancelled ans context (forwardCalls ans i) ↔
    (ans (.changeLoggingJob i)).isOk ∧ who = some i := by
  rw [forwardCalls]
  cases hchange : ans (.changeLoggingJob i) with
  | error e => simp [cancelled, Except.isOk, Except.toBool]
  | ok _ =>
      cases hlog : ans (.logCancelled (some i)) with
      | error e => simp [cancelled, contextAfter, hchange, Except.isOk, Except.toBool]
      | ok _ =>
          cases hback : ans (.changeLoggingJobBack i) <;>
            simp [cancelled, contextAfter, hchange, Except.isOk, Except.toBool]

theorem contextAfter_forward :
    contextAfter ans context (forwardCalls ans i) = context ∨
      contextAfter ans context (forwardCalls ans i) = none ∨
      (ans (.changeLoggingJob i)).isOk ∧
        contextAfter ans context (forwardCalls ans i) = some i := by
  rw [forwardCalls]
  cases hchange : ans (.changeLoggingJob i) with
  | error e => simp [contextAfter, hchange, Except.isOk, Except.toBool]
  | ok _ =>
      cases hlog : ans (.logCancelled (some i)) with
      | error e => simp [contextAfter, hchange, Except.isOk, Except.toBool]
      | ok _ =>
          cases hback : ans (.changeLoggingJobBack i) <;>
            simp [contextAfter, hchange, hback, Except.isOk, Except.toBool]

theorem loopCalls_cons_reached (hs : (states i).isSome)
    (he : (childEvents ans i).isOk) :
    loopCalls ans jobtype states (i :: is) =
      [.createToken i, .cancelEvents (some i)] ++
        (if onChild ans jobtype states forwards i then forwardCalls ans i
          else []) ++ loopCalls ans jobtype states is := by
  rw [loopCalls, if_pos hs, if_pos he]
  simp

/-- No more is done at the child at which the loop ends. -/
theorem loopCalls_cons_not
    (hne : ((states i).isSome && (childEvents ans i).isOk) = false) :
    loopCalls ans jobtype states (i :: is) = .createToken i ::
      if (states i).isSome then [.cancelEvents (some i)] else [] := by
  rw [loopCalls]
  cases hs : states i with
  | none => rfl
  | some state =>
      rw [hs, Option.isSome_some, Bool.true_and] at hne
      have hforwards : onChild ans jobtype states forwards i = false := by
        rw [onChild, hs]
        cases he : childEvents ans i with
        | error e => rfl
        | ok events =>
            rw [he] at hne
            cases hne
      simp [hforwards, hne]

/-- The children that are forwarded are the ones the loop cancels, and it leaves
the logging context where it was, or with the job of the request, or with one
of these. -/
theorem cancelled_loop : (who ∈ cancelled ans context
      (loopCalls ans jobtype states is) ↔
        ∃ i ∈ reached ans states is, onChild ans jobtype states forwards i ∧
          (ans (.changeLoggingJob i)).isOk ∧ who = some i) ∧
    (contextAfter ans context (loopCalls ans jobtype states is) = context ∨
      contextAfter ans context (loopCalls ans jobtype states is) = none ∨
      contextAfter ans context (loopCalls ans jobtype states is) ∈
        cancelled ans context (loopCalls ans jobtype states is)) := by
  induction is generalizing context with
  | nil => simp [loopCalls, cancelled, contextAfter, reached]
  | cons i rest ih =>
      cases hr : (states i).isSome && (childEvents ans i).isOk with
      | false =>
          rw [reached_cons_not hr, loopCalls_cons_not hr]
          split <;> simp [cancelled, contextAfter]
      | true =>
          obtain ⟨hs, he⟩ := Bool.and_eq_true_iff.mp hr
          rw [reached_cons_ok hs he, loopCalls_cons_reached hs he]
          have hfirst : cancelled ans context
              [.createToken i, .cancelEvents (some i)] = [] := rfl
          have hcontext : contextAfter ans context
              [.createToken i, .cancelEvents (some i)] = context := rfl
          simp only [cancelled_append, contextAfter_append, hfirst, hcontext,
            List.nil_append]
          cases hf : onChild ans jobtype states forwards i with
          | false =>
              obtain ⟨hmem, hafter⟩ := @ih context
              rw [if_neg Bool.false_ne_true]
              refine ⟨?_, hafter⟩
              rw [cancelled, contextAfter, List.nil_append, hmem]
              simp [hf]
          | true =>
              rw [if_pos rfl]
              obtain ⟨hmem, hafter⟩ :=
                @ih (contextAfter ans context (forwardCalls ans i))
              constructor
              · rw [List.mem_append, cancelled_forward, hmem]
                simp [hf]
              · rw [List.mem_append, cancelled_forward]
                rcases hafter with hafter | hafter | hafter
                · rw [hafter]
                  rcases contextAfter_forward with h | h | ⟨hok, h⟩
                  · exact .inl h
                  · exact .inr (.inl h)
                  · exact .inr (.inr (.inl ⟨hok, h⟩))
                · exact .inr (.inl hafter)
                · exact .inr (.inr (.inr hafter))

end

/-! ## A whole run -/

section
variable {ans} {jobtype : StatType} {i : ℕ} {context : Option ℕ}
  {who : Option ℕ} {s : ChildrenStat}

variable (ans) in
/-- Whether a child that was reached is still under processing. -/
def leftOne (jobtype : StatType) (s : ChildrenStat) : Bool :=
  (reached ans s.state (List.range s.childrenNum)).any
    (onChild ans jobtype s.state leaves)

theorem replay_collection (hs : ans .childrenStatus = .ok (some s)) :
    Proc.replay ans (collectionCancel jobtype) =
      match fails ans s.state (List.range s.childrenNum) with
      | some e => (.childrenStatus :: loopCalls ans jobtype s.state
          (List.range s.childrenNum), .error e)
      | none => (.childrenStatus :: (loopCalls ans jobtype s.state
            (List.range s.childrenNum) ++
          (Proc.replay ans (finish (leftOne ans jobtype s))).1),
        (Proc.replay ans (finish (leftOne ans jobtype s))).2) := by
  rw [collectionCancel, ask, Proc.bind_eq, Proc.perform_bind, Proc.call_bind,
    Proc.replay_call, hs]
  simp only [Proc.ofExcept, Proc.ret_bind, Proc.bind_eq, Proc.replay_bind,
    replay_childrenLoop, Bool.false_or, leftOne]
  cases fails ans s.state (List.range s.childrenNum) <;> rfl

theorem replay_collection_unanswered
    (hs : ∀ s, ans .childrenStatus ≠ .ok (some s)) :
    (Proc.replay ans (collectionCancel jobtype)).1 = [.childrenStatus] := by
  rw [collectionCancel, ask, Proc.bind_eq, Proc.perform_bind, Proc.call_bind,
    Proc.replay_call]
  cases h : ans .childrenStatus with
  | error e => rfl
  | ok s =>
      cases s with
      | none => rfl
      | some s => exact absurd h (hs s)

theorem cancelled_finish (left : Bool) : cancelled ans context
    (Proc.replay ans (finish left)).1 = if left then [] else [context] := by
  cases left with
  | true => rfl
  | false =>
      simp only [finish, Bool.false_eq_true, if_false, Proc.bind_eq,
        Proc.replay_bind, replay_orThrow]
      cases ans (.logCancelled none) with
      | error e => rfl
      | ok _ => cases ans .logDoneCancelled <;> rfl

theorem some_mem_cancelled_collection
    (hs : ans .childrenStatus = .ok (some s)) :
    some i ∈ cancelled ans none
        (Proc.replay ans (collectionCancel jobtype)).1 ↔
      i ∈ reached ans s.state (List.range s.childrenNum) ∧
        onChild ans jobtype s.state forwards i ∧
        (ans (.changeLoggingJob i)).isOk := by
  obtain ⟨hmem, hafter⟩ := @cancelled_loop ans jobtype s.state
    (List.range s.childrenNum) none (some i)
  have hloop : some i ∈ cancelled ans none
      (loopCalls ans jobtype s.state (List.range s.childrenNum)) ↔
        i ∈ reached ans s.state (List.range s.childrenNum) ∧
          onChild ans jobtype s.state forwards i ∧
          (ans (.changeLoggingJob i)).isOk := by
    rw [hmem]
    constructor
    · rintro ⟨k, hk, hf, hok, hik⟩
      obtain rfl := Option.some.inj hik
      exact ⟨hk, hf, hok⟩
    · exact fun ⟨hk, hf, hok⟩ => ⟨i, hk, hf, hok, rfl⟩
  rw [replay_collection hs, ← hloop]
  cases fails ans s.state (List.range s.childrenNum) with
  | some e => exact Iff.rfl
  | none =>
      change some i ∈ cancelled ans none (loopCalls ans jobtype s.state _ ++ _) ↔ _
      rw [cancelled_append, List.mem_append, cancelled_finish]
      refine ⟨?_, .inl⟩
      rintro (h | h)
      · exact h
      · split at h
        · cases h
        · rw [List.mem_singleton] at h
          rcases hafter with hafter | hafter | hafter
          · rw [hafter] at h
            cases h
          · rw [hafter] at h
            cases h
          · rwa [h]

theorem cancelled_giveUp :
    cancelled ans context (Proc.replay ans giveUp).1 = [] := rfl

/-- A single job is cancelled even where what follows throws. -/
theorem cancelled_forwardSingle : who ∈ cancelled ans none (Proc.replay ans
    (Proc.tryCatch (do orThrow (.logCancelled none) rfl
                       orThrow (.cancel none) rfl) fun _ => giveUp)).1 ↔
      who = none := by
  rw [Proc.replay_tryCatch]
  simp only [Proc.bind_eq, Proc.replay_bind, replay_orThrow]
  cases hlog : ans (.logCancelled none) with
  | error e =>
      simp [cancelled, contextAfter, cancelled_giveUp]
  | ok _ =>
      cases hcancel : ans (.cancel none) <;>
        simp [cancelled, contextAfter, cancelled_giveUp]

theorem cancelled_single {status : Option Stat} : who ∈ cancelled ans none
      (Proc.replay ans (singleCancel status)).1 ↔
    who = none ∧ ans .existsToken = true ∧
      ∃ events, queryResult false (ans (.cancelEvents none)) = .ok events ∧
        ¬ (isInState .done status && isLastDone events .ok) ∧
        (!(isInState .done status && isLastDone events .failed) &&
          isLastEnQueuedByWm events .ok) ∧ ¬ isInState .aborted status := by
  rw [singleCancel, ask, Proc.bind_eq, Proc.perform_bind, Proc.replay_call]
  cases htoken : ans .existsToken with
  | false => simp [cancelled]
  | true =>
      simp only [Bool.not_true, Bool.false_eq_true, if_false, Proc.bind_eq,
        Proc.replay_bind, replay_getCancelEvents]
      cases he : queryResult false (ans (.cancelEvents none)) with
      | error e => simp [cancelled]
      | ok events =>
          have hskip : ∀ cs, cancelled ans none
              (.existsToken :: ([.cancelEvents none] ++ cs)) =
                cancelled ans none cs := fun _ => rfl
          simp only [hskip, Except.ok.injEq, exists_eq_left']
          by_cases hok : (isInState .done status && isLastDone events .ok) = true
          · simp [hok, cancelled]
          rw [if_neg hok]
          by_cases hp : (!(isInState .done status && isLastDone events .failed) &&
              isLastEnQueuedByWm events .ok) = true
          · rw [if_pos hp]
            by_cases hab : isInState .aborted status = true
            · simp [hab, cancelled]
            · rw [if_pos (by simpa using hab)]
              refine Iff.trans cancelled_forwardSingle ?_
              exact ⟨fun h => ⟨h, trivial, hok, hp, hab⟩, And.left⟩
          · rw [if_neg hp, cancelled_giveUp]
            exact iff_of_false List.not_mem_nil fun h => hp h.2.2.2.1

end

/-! ## Jobs that are done -/

section
variable {ans} {history : Option ℕ → List LbEvent} {events : List LbEvent}
  {c : DoneStatus} {jobtype : StatType} {i : ℕ}

variable (ans) (history) in
/-- A query that gets events gets those of the job that match its
conditions. -/
def LbExact : Prop :=
  ∀ job events, queryResult false (ans (.cancelEvents job)) = .ok events →
    events = (history job).filter selects

variable (ans) (history) in
/-- A single job, or a child, that is done, and the last that the log monitor
has said is that it went well. -/
def Finished : Option ℕ → Prop
  | none => ans .jobStatus = .ok (some ⟨.job, .done⟩) ∧
      isLastDone (history none) .ok = true
  | some i => ∃ s, ans .childrenStatus = .ok (some s) ∧
      s.state i = some .done ∧ isLastDone (history (some i)) .ok = true

variable (history) in
/-- The WM has cancelled the child before. -/
def CancelledByWm (i : ℕ) : Prop :=
  ∃ e ∈ history (some i), isCancelledEvent e ∧ e.source = .workloadManager

/-- The query leaves all done events out. -/
theorem isLastDone_selects :
    isLastDone (events.filter selects) c = false := by
  refine Bool.eq_false_iff.mpr fun hdone => ?_
  obtain ⟨before, t, after, hsplit, -⟩ := isLastDone_iff.mp hdone
  have hmem : (⟨.logMonitor, t, .done c⟩ : LbEvent) ∈ events.filter selects := by
    rw [hsplit]
    exact List.mem_append_right before List.mem_cons_self
  exact Bool.false_ne_true (List.mem_filter.mp hmem).2

theorem findLast_filter {p q : LbEvent → Bool} (hpq : ∀ e, p e = true → q e = true) :
    findLast p (events.filter q) = findLast p events := by
  rw [findLast, findLast, ← List.filter_reverse, List.find?_filter]
  congr 1
  funext e
  cases hp : p e with
  | false => simp
  | true => simp [hpq e hp]

theorem isLastEnQueuedByWm_selects (r : EnQueuedResult) :
    isLastEnQueuedByWm (events.filter selects) r = isLastEnQueuedByWm events r := by
  rw [isLastEnQueuedByWm, isLastEnQueuedByWm, findLast_filter]
  intro e he
  rw [isEnQueuedToJc, Bool.and_eq_true] at he
  rw [selects, he.1, Bool.true_or, he.2]
  rfl

/-- Of the cancel events the query gets those of the WM. -/
theorem isLastCancelledByWm_selects :
    isLastCancelledByWm ((history (some i)).filter selects) = true ↔
      CancelledByWm history i := by
  rw [isLastCancelledByWm]
  constructor
  · intro h
    split at h
    · next e he =>
        have hmem := List.mem_of_find?_eq_some he
        rw [List.mem_reverse, List.mem_filter] at hmem
        exact ⟨e, hmem.1, List.find?_some he, of_decide_eq_true h⟩
    · cases h
  · rintro ⟨e, he, hcancel, hwm⟩
    have hmem : e ∈ ((history (some i)).filter selects).reverse := by
      rw [List.mem_reverse, List.mem_filter, selects, hcancel, hwm]
      exact ⟨he, by simp⟩
    have hsome := List.find?_isSome.mpr ⟨e, hmem, hcancel⟩
    obtain ⟨e', he'⟩ := Option.isSome_iff_exists.mp hsome
    rw [findLast, he']
    have hmem' := List.mem_of_find?_eq_some he'
    rw [List.mem_reverse, List.mem_filter, selects, Bool.and_eq_true] at hmem'
    exact hmem'.2.2

/-- A done child is forwarded unless the WM has cancelled it before. -/
theorem onChild_forwards_done {s : ChildrenStat} (hlb : LbExact ans history)
    (hs : s.state i = some .done) (he : (childEvents ans i).isOk) :
    onChild ans jobtype s.state forwards i = true ↔
      ¬ CancelledByWm history i ∧ (jobtype = .dag ∨
        isLastEnQueuedByWm (history (some i)) .ok = true) := by
  cases hevents : childEvents ans i with
  | error e =>
      rw [hevents] at he
      cases he
  | ok events =>
      obtain rfl := hlb (some i) events hevents
      rw [onChild, hs, hevents, ← isLastCancelledByWm_selects]
      simp only [forwards, settled, passedOn, isLastDone_selects,
        isLastEnQueuedByWm_selects]
      simp [or_comm]

theorem calls_single {state : JobState}
    (hs : ans .jobStatus = .ok (some ⟨.job, state⟩)) :
    (Proc.replay ans cancelProcessor).1 =
      .jobStatus :: (Proc.replay ans (singleCancel (some ⟨.job, state⟩))).1 := by
  rw [cancelProcessor, ask, Proc.bind_eq, Proc.perform_bind, Proc.replay_call,
    hs]

theorem calls_collection {state : JobState} (hjob : jobtype ≠ .job)
    (hs : ans .jobStatus = .ok (some ⟨jobtype, state⟩)) :
    (Proc.replay ans cancelProcessor).1 =
      .jobStatus :: (Proc.replay ans (collectionCancel jobtype)).1 := by
  rw [cancelProcessor, ask, Proc.bind_eq, Proc.perform_bind, Proc.replay_call,
    hs]
  cases jobtype with
  | job => exact absurd rfl hjob
  | collection => rfl
  | dag => rfl

/-- No job is known to be one where there is no status. -/
theorem finished_none_cancelled (hs : ∀ jobtype state,
      ans .jobStatus ≠ .ok (some ⟨jobtype, state⟩)) :
    ∀ who ∈ cancelled ans none (Proc.replay ans cancelProcessor).1,
      ¬ Finished ans history who := by
  cases hstatus : ans .jobStatus with
  | error e =>
      have hrun : cancelled ans none (Proc.replay ans cancelProcessor).1 = [] := by
        rw [cancelProcessor, ask, Proc.bind_eq, Proc.perform_bind,
          Proc.replay_call, hstatus]
        cases e <;> rfl
      simp [hrun]
  | ok status =>
      rcases status with _ | ⟨jobtype, state⟩
      · have hrun : (Proc.replay ans cancelProcessor).1 =
            .jobStatus :: (Proc.replay ans (singleCancel none)).1 := by
          rw [cancelProcessor, ask, Proc.bind_eq, Proc.perform_bind,
            Proc.replay_call, hstatus]
        intro who hwho
        rw [hrun] at hwho
        obtain ⟨rfl, -⟩ := cancelled_single.mp hwho
        rw [Finished, hstatus]
        simp
      · exact absurd hstatus (hs jobtype state)

theorem spared_single {state : JobState} (hlb : LbExact ans history)
    (hs : ans .jobStatus = .ok (some ⟨.job, state⟩)) :
    (∀ who ∈ cancelled ans none (Proc.replay ans cancelProcessor).1,
      ¬ Finished ans history who) ↔
    (state = .done → ans .existsToken = true →
      (queryResult false (ans (.cancelEvents none))).isOk →
      isLastDone (history none) .ok = true →
      isLastEnQueuedByWm (history none) .ok = false) := by
  have hmem : ∀ who, who ∈ cancelled ans none
      (Proc.replay ans cancelProcessor).1 ↔ who ∈ cancelled ans none
        (Proc.replay ans (singleCancel (some ⟨.job, state⟩))).1 := fun who => by
    rw [calls_single hs]
    rfl
  have hfinished : Finished ans history none ↔
      state = .done ∧ isLastDone (history none) .ok = true := by
    rw [Finished, hs]
    simp
  simp only [hmem, cancelled_single]
  constructor
  · intro h hdone htoken hok hlast
    subst hdone
    cases hevents : queryResult false (ans (.cancelEvents none)) with
    | error e =>
        rw [hevents] at hok
        cases hok
    | ok events =>
        obtain rfl := hlb none events hevents
        refine Bool.eq_false_iff.mpr fun henq => ?_
        refine h none ⟨rfl, htoken, _, hevents, ?_, ?_, by simp [isInState]⟩
          (hfinished.mpr ⟨rfl, hlast⟩)
        · simp [isLastDone_selects]
        · simp [isLastDone_selects, isLastEnQueuedByWm_selects, henq]
  · rintro h who ⟨rfl, htoken, events, hevents, -, hpassed, -⟩ hfin
    obtain ⟨rfl, hlast⟩ := hfinished.mp hfin
    obtain rfl := hlb none events hevents
    have henq := h rfl htoken (by rw [hevents]; rfl) hlast
    rw [Bool.and_eq_true, isLastEnQueuedByWm_selects, henq] at hpassed
    cases hpassed.2

theorem spared_collection {state : JobState} (hlb : LbExact ans history)
    (hjob : jobtype ≠ .job)
    (hstatus : ans .jobStatus = .ok (some ⟨jobtype, state⟩)) :
    (∀ who ∈ cancelled ans none (Proc.replay ans cancelProcessor).1,
      ¬ Finished ans history who) ↔
    ∀ s i, ans .childrenStatus = .ok (some s) →
      i ∈ reached ans s.state (List.range s.childrenNum) →
      s.state i = some .done → isLastDone (history (some i)) .ok = true →
      (ans (.changeLoggingJob i)).isOk →
      CancelledByWm history i ∨ jobtype ≠ .dag ∧
        isLastEnQueuedByWm (history (some i)) .ok = false := by
  have hmem : ∀ who, who ∈ cancelled ans none
      (Proc.replay ans cancelProcessor).1 ↔ who ∈ cancelled ans none
        (Proc.replay ans (collectionCancel jobtype)).1 := fun who => by
    rw [calls_collection hjob hstatus]
    rfl
  have hnone : ¬ Finished ans history none := by
    rw [Finished, hstatus]
    simp [hjob]
  simp only [hmem]
  constructor
  · intro h s i hs hi hdone hlast hchange
    have hok := (mem_reached_range.mp hi).2 i (Nat.le_refl i)
    refine Classical.byContradiction fun hnot => ?_
    rw [not_or, not_and_or, not_not, Bool.not_eq_false] at hnot
    refine h (some i) ((some_mem_cancelled_collection hs).mpr ⟨hi, ?_, hchange⟩)
      ⟨s, hs, hdone, hlast⟩
    exact (onChild_forwards_done hlb hdone hok.2).mpr hnot
  · intro h who hwho hfin
    rcases who with _ | i
    · exact hnone hfin
    · obtain ⟨s, hs, hdone, hlast⟩ := hfin
      obtain ⟨hi, hf, hchange⟩ := (some_mem_cancelled_collection hs).mp hwho
      have hok := (mem_reached_range.mp hi).2 i (Nat.le_refl i)
      obtain ⟨hwm, hnot⟩ := (onChild_forwards_done hlb hdone hok.2).mp hf
      rcases h s i hs hi hdone hlast hchange with hc | ⟨hdag, henq⟩
      · exact hwm hc
      · rw [henq] at hnot
        exact hnot.elim hdag Bool.false_ne_true

/-- No finished job is cancelled exactly where no finished single job was passed
on by the WM, and no finished child that the loop reaches was passed on, or is
in a DAG, without being cancelled by the WM before. -/
theorem finished_spared_iff (hlb : LbExact ans history) :
    (∀ who ∈ cancelled ans none (Proc.replay ans cancelProcessor).1,
      ¬ Finished ans history who) ↔
    (ans .jobStatus = .ok (some ⟨.job, .done⟩) → ans .existsToken = true →
      (queryResult false (ans (.cancelEvents none))).isOk →
      isLastDone (history none) .ok = true →
      isLastEnQueuedByWm (history none) .ok = false) ∧
    ∀ jobtype state s i, ans .jobStatus = .ok (some ⟨jobtype, state⟩) →
      jobtype ≠ .job → ans .childrenStatus = .ok (some s) →
      i ∈ reached ans s.state (List.range s.childrenNum) →
      s.state i = some .done → isLastDone (history (some i)) .ok = true →
      (ans (.changeLoggingJob i)).isOk →
      CancelledByWm history i ∨ jobtype ≠ .dag ∧
        isLastEnQueuedByWm (history (some i)) .ok = false := by
  by_cases hs : ∃ jobtype state, ans .jobStatus = .ok (some ⟨jobtype, state⟩)
  · obtain ⟨jobtype, state, hs⟩ := hs
    by_cases hjob : jobtype = .job
    · subst hjob
      rw [spared_single hlb hs, hs]
      refine ⟨fun h => ⟨fun hd => h (by simpa using hd), ?_⟩, fun h hd =>
        h.1 (by rw [hd])⟩
      intro jobtype' state' s i heq hne
      simp only [Except.ok.injEq, Option.some.injEq, Stat.mk.injEq] at heq
      exact absurd heq.1.symm hne
    · rw [spared_collection hlb hjob hs]
      constructor
      · refine fun h => ⟨fun hs' => ?_, fun jobtype' state' s i hs' _ => ?_⟩
        · rw [hs] at hs'
          simp only [Except.ok.injEq, Option.some.injEq, Stat.mk.injEq] at hs'
          exact absurd hs'.1 hjob
        · rw [hs] at hs'
          simp only [Except.ok.injEq, Option.some.injEq, Stat.mk.injEq] at hs'
          exact hs'.1 ▸ h s i
      · exact fun h s i => h.2 jobtype state s i hs hjob
  · refine iff_of_true (finished_none_cancelled fun jobtype state h =>
      hs ⟨jobtype, state, h⟩) ⟨fun h => absurd ⟨_, _, h⟩ hs, ?_⟩
    exact fun jobtype state s i h => absurd ⟨_, _, h⟩ hs

end

/-! ## Children that are handled -/

section
variable {ans} {jobtype : StatType} {states : ℕ → Option JobState} {i : ℕ}
  {is : List ℕ} {s : ChildrenStat} {state : JobState}

variable (ans) in
/-- Nothing throws while a child is forwarded. -/
def Forwardable (i : ℕ) : Prop :=
  (ans (.changeLoggingJob i)).isOk ∧ (ans (.logCancelled (some i))).isOk ∧
    (ans (.changeLoggingJobBack i)).isOk ∧ (ans (.cancel (some i))).isOk

variable (ans) in
/-- A child was found to be cancelled by the WM, done or aborted, or its cancel
was passed on. -/
def Handled (cs : List Call) (s : ChildrenStat) (i : ℕ) : Prop :=
  (.cancelEvents (some i) ∈ cs ∧ ∃ state events, s.state i = some state ∧
      childEvents ans i = .ok events ∧
        (settled state events = true ∨ state = .aborted)) ∨
    .cancel (some i) ∈ cs ∧ (ans (.cancel (some i))).isOk

variable (ans) in
/-- The parent is done with when all children are handled, and otherwise it is
left alone and looked at once more. -/
def CompletesHandled (cs : List Call) : Prop :=
  (∃ s, ans .childrenStatus = .ok (some s) ∧
    ∀ i < s.childrenNum, Handled ans cs s i) ∨
  (∀ log, .purge log ∉ cs) ∧ .logDoneCancelled ∉ cs ∧ .logCancelled none ∉ cs ∧
    cs.count .scheduleAgain = 1

/-- A child is forwarded by four calls at most. -/
theorem mem_forward {c : Call} (hc : c ∈ forwardCalls ans i) :
    c = .changeLoggingJob i ∨ c = .logCancelled (some i) ∨
      c = .changeLoggingJobBack i ∨ c = .cancel (some i) := by
  rw [forwardCalls] at hc
  by_cases h₁ : (ans (.changeLoggingJob i)).isOk <;>
    by_cases h₂ : (ans (.logCancelled (some i))).isOk <;>
    by_cases h₃ : (ans (.changeLoggingJobBack i)).isOk <;>
    simp [h₁, h₂, h₃] at hc <;> grind

/-- The calls of the loop are about children. -/
theorem loopCalls_children {c : Call} (hc : c ∈ loopCalls ans jobtype states is) :
    (∀ log, c ≠ .purge log) ∧ c ≠ .logDoneCancelled ∧ c ≠ .logCancelled none ∧
      c ≠ .scheduleAgain := by
  have hforward : ∀ i, ∀ c ∈ forwardCalls ans i, (∀ log, c ≠ .purge log) ∧
      c ≠ .logDoneCancelled ∧ c ≠ .logCancelled none ∧ c ≠ .scheduleAgain := by
    intro i c hc
    rcases mem_forward hc with rfl | rfl | rfl | rfl <;> simp
  induction is with
  | nil => simp [loopCalls] at hc
  | cons i rest ih =>
      cases hr : (states i).isSome && (childEvents ans i).isOk with
      | false =>
          rw [loopCalls_cons_not hr] at hc
          split at hc <;> simp at hc
          · rcases hc with rfl | rfl <;> simp
          · subst hc
            simp
      | true =>
          obtain ⟨hs, he⟩ := Bool.and_eq_true_iff.mp hr
          rw [loopCalls_cons_reached hs he] at hc
          simp only [List.mem_append, List.mem_cons, List.not_mem_nil,
            or_false] at hc
          rcases hc with ((rfl | rfl) | hc) | hc
          · simp
          · simp
          · split at hc
            · exact hforward i c hc
            · cases hc
          · exact ih hc

theorem cancel_mem_forward :
    .cancel (some i) ∈ forwardCalls ans i ↔
      (ans (.changeLoggingJob i)).isOk ∧ (ans (.logCancelled (some i))).isOk ∧
        (ans (.changeLoggingJobBack i)).isOk := by
  rw [forwardCalls]
  by_cases h₁ : (ans (.changeLoggingJob i)).isOk <;>
    by_cases h₂ : (ans (.logCancelled (some i))).isOk <;>
    by_cases h₃ : (ans (.changeLoggingJobBack i)).isOk <;> simp [h₁, h₂, h₃]

theorem forward_about {k : ℕ} {c : Call} (hc : c ∈ forwardCalls ans k) :
    c ≠ .cancelEvents (some i) ∧ (c = .cancel (some i) → k = i) := by
  rcases mem_forward hc with rfl | rfl | rfl | rfl <;> simp

theorem cancel_mem_loop : .cancel (some i) ∈ loopCalls ans jobtype states is ↔
    i ∈ reached ans states is ∧ onChild ans jobtype states forwards i = true ∧
      .cancel (some i) ∈ forwardCalls ans i := by
  induction is with
  | nil => simp [loopCalls, reached]
  | cons k rest ih =>
      cases hr : (states k).isSome && (childEvents ans k).isOk with
      | false =>
          rw [reached_cons_not hr, loopCalls_cons_not hr]
          split <;> simp
      | true =>
          obtain ⟨hs, he⟩ := Bool.and_eq_true_iff.mp hr
          rw [reached_cons_ok hs he, loopCalls_cons_reached hs he]
          simp only [List.mem_append, List.mem_cons, List.not_mem_nil, or_false,
            reduceCtorEq, false_or, ih]
          constructor
          · rintro (h | ⟨hi, hf, hc⟩)
            · split at h
              · next hf =>
                  obtain rfl := (forward_about h).2 rfl
                  exact ⟨.inl rfl, hf, h⟩
              · cases h
            · exact ⟨.inr hi, hf, hc⟩
          · rintro ⟨rfl | hi, hf, hc⟩
            · rw [if_pos hf]
              exact .inl hc
            · exact .inr ⟨hi, hf, hc⟩

theorem events_mem_loop (hs : (states i).isSome) (he : (childEvents ans i).isOk) :
    .cancelEvents (some i) ∈ loopCalls ans jobtype states is ↔
      i ∈ reached ans states is := by
  induction is with
  | nil => simp [loopCalls, reached]
  | cons k rest ih =>
      cases hr : (states k).isSome && (childEvents ans k).isOk with
      | false =>
          rw [reached_cons_not hr, loopCalls_cons_not hr]
          have hne : i ≠ k := by
            rintro rfl
            rw [hs, he] at hr
            cases hr
          split <;> simp [hne]
      | true =>
          obtain ⟨hs', he'⟩ := Bool.and_eq_true_iff.mp hr
          rw [reached_cons_ok hs' he', loopCalls_cons_reached hs' he']
          simp only [List.mem_append, List.mem_cons, List.not_mem_nil, or_false,
            reduceCtorEq, false_or, ih, Call.cancelEvents.injEq,
            Option.some.injEq]
          refine or_congr_left ⟨?_, .inl⟩
          rintro (h | h)
          · exact h
          · split at h
            · exact absurd rfl (forward_about h).1
            · cases h

/-- What the run calls, where the status of the children is there. -/
theorem mem_calls_collection {c : Call} (hjob : jobtype ≠ .job)
    (hstatus : ans .jobStatus = .ok (some ⟨jobtype, state⟩))
    (hs : ans .childrenStatus = .ok (some s)) :
    c ∈ (Proc.replay ans cancelProcessor).1 ↔
      c = .jobStatus ∨ c = .childrenStatus ∨
        c ∈ loopCalls ans jobtype s.state (List.range s.childrenNum) ∨
        fails ans s.state (List.range s.childrenNum) = none ∧
          c ∈ (Proc.replay ans (finish (leftOne ans jobtype s))).1 := by
  rw [calls_collection hjob hstatus, replay_collection hs]
  cases fails ans s.state (List.range s.childrenNum) with
  | some e => simp
  | none => simp

theorem finish_left : (Proc.replay ans (finish true)).1 = [.scheduleAgain] := rfl

theorem finish_done {c : Call} (hc : c ∈ (Proc.replay ans (finish false)).1) :
    c = .logCancelled none ∨ c = .logDoneCancelled ∨ c = .purge .cancelDone := by
  simp only [finish, Bool.false_eq_true, if_false, Proc.bind_eq,
    Proc.replay_bind, replay_orThrow] at hc
  cases hlog : ans (.logCancelled none) with
  | error e =>
      simp only [hlog, List.mem_singleton] at hc
      exact .inl hc
  | ok _ =>
      cases hdone : ans .logDoneCancelled <;>
        simp [hlog, hdone, ask, Proc.perform] at hc <;> grind

/-- The end of a run is not about a child. -/
theorem not_mem_finish {left : Bool} {c : Call}
    (hc : c = .cancelEvents (some i) ∨ c = .cancel (some i)) :
    c ∉ (Proc.replay ans (finish left)).1 := by
  intro hmem
  cases left with
  | true =>
      rw [finish_left, List.mem_singleton] at hmem
      rcases hc with rfl | rfl <;> cases hmem
  | false => rcases hc with rfl | rfl <;> rcases finish_done hmem with h | h | h <;>
      cases h

theorem about_mem_calls {c : Call} (hjob : jobtype ≠ .job)
    (hstatus : ans .jobStatus = .ok (some ⟨jobtype, state⟩))
    (hs : ans .childrenStatus = .ok (some s))
    (hc : c = .cancelEvents (some i) ∨ c = .cancel (some i)) :
    c ∈ (Proc.replay ans cancelProcessor).1 ↔
      c ∈ loopCalls ans jobtype s.state (List.range s.childrenNum) := by
  rw [mem_calls_collection hjob hstatus hs]
  have hne : c ≠ .jobStatus ∧ c ≠ .childrenStatus := by
    rcases hc with rfl | rfl <;> simp
  simp [hne, not_mem_finish hc]

theorem onChild_ok {p : StatType → JobState → List LbEvent → Bool}
    {st : JobState} {events : List LbEvent} (hs : states i = some st)
    (he : childEvents ans i = .ok events) :
    onChild ans jobtype states p i = p jobtype st events := by
  rw [onChild, hs, he]

/-- A child is handled where the loop has reached it, has not left it to the WM
and has forwarded it without an exception, if at all. -/
theorem handled_iff (hjob : jobtype ≠ .job)
    (hstatus : ans .jobStatus = .ok (some ⟨jobtype, state⟩))
    (hs : ans .childrenStatus = .ok (some s)) :
    Handled ans (Proc.replay ans cancelProcessor).1 s i ↔
      i ∈ reached ans s.state (List.range s.childrenNum) ∧
        (onChild ans jobtype s.state leaves i = false ∧
            (onChild ans jobtype s.state forwards i = true → Forwardable ans i) ∨
          s.state i = some .aborted) := by
  rw [Handled, about_mem_calls hjob hstatus hs (.inl rfl),
    about_mem_calls hjob hstatus hs (.inr rfl), cancel_mem_loop,
    cancel_mem_forward]
  constructor
  · rintro (⟨hmem, st, events, hst, he, hfound⟩ | ⟨⟨hi, hf, h₁, h₂, h₃⟩, h₄⟩)
    · refine ⟨(events_mem_loop (by rw [hst]; rfl) (by rw [he]; rfl)).mp hmem, ?_⟩
      rcases hfound with hset | rfl
      · refine .inl ⟨?_, fun hf => ?_⟩
        · rw [onChild_ok hst he, leaves, hset]
          rfl
        · rw [onChild_ok hst he, forwards, hset] at hf
          cases hf
      · exact .inr hst
    · refine ⟨hi, .inl ⟨?_, fun _ => ⟨h₁, h₂, h₃, h₄⟩⟩⟩
      cases hst : s.state i with
      | none => rw [onChild, hst]
      | some st =>
          cases he : childEvents ans i with
          | error e => rw [onChild, hst, he]
          | ok events =>
              rw [onChild_ok hst he] at hf ⊢
              simp only [forwards, leaves] at hf ⊢
              grind
  · rintro ⟨hi, hfound⟩
    obtain ⟨hsome, hok⟩ := (mem_reached_range.mp hi).2 i (Nat.le_refl i)
    have hmem : .cancelEvents (some i) ∈ loopCalls ans jobtype s.state _ :=
      (events_mem_loop hsome hok).mpr hi
    obtain ⟨st, hst⟩ := Option.isSome_iff_exists.mp hsome
    cases he : childEvents ans i with
    | error e =>
        rw [he] at hok
        cases hok
    | ok events =>
        by_cases hdone : settled st events = true ∨ st = .aborted
        · exact .inl ⟨hmem, st, events, hst, rfl, hdone⟩
        · rw [not_or] at hdone
          rcases hfound with ⟨hleft, hforward⟩ | hab
          · have hf : onChild ans jobtype s.state forwards i = true := by
              rw [onChild_ok hst he] at hleft ⊢
              simp only [forwards, leaves] at hleft ⊢
              grind
            obtain ⟨h₁, h₂, h₃, h₄⟩ := hforward hf
            exact .inr ⟨⟨hi, hf, h₁, h₂, h₃⟩, h₄⟩
          · rw [hst, Option.some.injEq] at hab
            exact absurd hab hdone.2

/-- The calls of a cancel that is not about children. -/
def Call.Single : Call → Prop
  | .jobStatus | .existsToken | .cancelEvents none | .logCancelled none
  | .cancel none | .unregisterProxy | .purge _ => True
  | _ => False

theorem singleCancel_calls (status : Option Stat) :
    Proc.CallsOnly Call.Single (singleCancel status) := by
  have hthrow : ∀ (c : Call) (h : Answer c = Except Exn Unit), c.Single →
      Proc.CallsOnly Call.Single (orThrow c h) := fun c h hc =>
    Proc.callsOnly_bind (Proc.callsOnly_perform hc) fun _ =>
      Proc.callsOnly_ofExcept _
  have hgive : Proc.CallsOnly Call.Single giveUp :=
    Proc.callsOnly_bind (Proc.callsOnly_perform trivial) fun _ =>
      Proc.callsOnly_perform trivial
  refine Proc.callsOnly_bind (Proc.callsOnly_perform trivial) fun token => ?_
  split
  · trivial
  refine Proc.callsOnly_bind (Proc.callsOnly_bind (Proc.callsOnly_perform trivial)
    fun _ => Proc.callsOnly_ofExcept _) fun events => ?_
  split
  · trivial
  split
  · split
    · refine Proc.callsOnly_tryCatch ?_ fun _ => hgive
      exact Proc.callsOnly_bind (hthrow _ _ trivial) fun _ => hthrow _ _ trivial
    · trivial
  · exact hgive

theorem unanswered_calls (hs : ∀ st, ans .jobStatus ≠ .ok (some st)) :
    ∀ c ∈ (Proc.replay ans cancelProcessor).1, c.Single := by
  intro c hc
  rw [cancelProcessor, ask, Proc.bind_eq, Proc.perform_bind,
    Proc.replay_call] at hc
  rcases List.mem_cons.mp hc with rfl | hc
  · trivial
  · cases hstatus : ans .jobStatus with
    | error e =>
        rw [hstatus] at hc
        cases e <;> cases hc
    | ok status =>
        rw [hstatus] at hc
        rcases status with _ | st
        · exact Proc.replay_callsOnly ans (singleCancel_calls none) c hc
        · exact absurd hstatus (hs st)

/-- Without an answer about the request or its children nothing is scheduled
again. -/
theorem unhandled_unanswered (hs : ∀ st, ans .jobStatus ≠ .ok (some st)) :
    CompletesHandled ans (Proc.replay ans cancelProcessor).1 ↔
      ∃ s, ans .childrenStatus = .ok (some s) ∧ s.childrenNum = 0 := by
  have hcalls := unanswered_calls hs
  constructor
  · rintro (⟨s, hchildren, hall⟩ | ⟨-, -, -, hcount⟩)
    · refine ⟨s, hchildren, Nat.eq_zero_of_not_pos fun hpos => ?_⟩
      rcases hall 0 hpos with ⟨hmem, -⟩ | ⟨hmem, -⟩
      · exact hcalls _ hmem
      · exact hcalls _ hmem
    · have hmem := List.count_pos_iff.mp (hcount ▸ Nat.one_pos)
      exact (hcalls _ hmem).elim
  · rintro ⟨s, hchildren, hzero⟩
    exact .inl ⟨s, hchildren, fun i hi => absurd hi (by omega)⟩

/-- The parent is looked at once more exactly where a child was left. -/
theorem comesBack_iff (hjob : jobtype ≠ .job)
    (hstatus : ans .jobStatus = .ok (some ⟨jobtype, state⟩)) :
    ((∀ log, .purge log ∉ (Proc.replay ans cancelProcessor).1) ∧
        .logDoneCancelled ∉ (Proc.replay ans cancelProcessor).1 ∧
        .logCancelled none ∉ (Proc.replay ans cancelProcessor).1 ∧
        (Proc.replay ans cancelProcessor).1.count .scheduleAgain = 1) ↔
      ∃ s, ans .childrenStatus = .ok (some s) ∧
        fails ans s.state (List.range s.childrenNum) = none ∧
        leftOne ans jobtype s = true := by
  constructor
  · rintro ⟨-, -, -, hcount⟩
    have hmem := List.count_pos_iff.mp (hcount ▸ Nat.one_pos)
    by_cases hs : ∃ s, ans .childrenStatus = .ok (some s)
    · obtain ⟨s, hs⟩ := hs
      rw [mem_calls_collection hjob hstatus hs] at hmem
      rcases hmem with h | h | h | ⟨hfails, h⟩
      · cases h
      · cases h
      · exact absurd rfl (loopCalls_children h).2.2.2
      · refine ⟨s, hs, hfails, ?_⟩
        cases hleft : leftOne ans jobtype s with
        | true => rfl
        | false =>
            rw [hleft] at h
            rcases finish_done h with h | h | h <;> cases h
    · rw [calls_collection hjob hstatus, replay_collection_unanswered
        fun s h => hs ⟨s, h⟩] at hmem
      simp at hmem
  · rintro ⟨s, hs, hfails, hleft⟩
    have hcalls : (Proc.replay ans cancelProcessor).1 =
        .jobStatus :: .childrenStatus :: (loopCalls ans jobtype s.state
          (List.range s.childrenNum) ++ [.scheduleAgain]) := by
      rw [calls_collection hjob hstatus, replay_collection hs, hfails, hleft,
        finish_left]
    have hloop := fun (c : Call) => @loopCalls_children ans jobtype s.state
      (List.range s.childrenNum) c
    have hzero : (loopCalls ans jobtype s.state (List.range s.childrenNum)).count
        .scheduleAgain = 0 :=
      List.count_eq_zero.mpr fun h => (hloop _ h).2.2.2 rfl
    rw [hcalls]
    refine ⟨fun log h => ?_, fun h => ?_, fun h => ?_, ?_⟩
    · simp at h
      exact (hloop _ h).1 log rfl
    · simp at h
      exact (hloop _ h).2.1 rfl
    · simp at h
      exact (hloop _ h).2.2.1 rfl
    · simp [hzero]

theorem all_handled_iff (hjob : jobtype ≠ .job)
    (hstatus : ans .jobStatus = .ok (some ⟨jobtype, state⟩))
    (hs : ans .childrenStatus = .ok (some s)) :
    (∀ i < s.childrenNum, Handled ans (Proc.replay ans cancelProcessor).1 s i) ↔
      ∀ i < s.childrenNum, (s.state i).isSome ∧ (childEvents ans i).isOk ∧
        (onChild ans jobtype s.state leaves i = false ∧
            (onChild ans jobtype s.state forwards i = true → Forwardable ans i) ∨
          s.state i = some .aborted) := by
  simp only [handled_iff hjob hstatus hs, mem_reached_range]
  constructor
  · intro h i hi
    obtain ⟨⟨-, hall⟩, hfound⟩ := h i hi
    exact ⟨(hall i (Nat.le_refl i)).1, (hall i (Nat.le_refl i)).2, hfound⟩
  · intro h i hi
    refine ⟨⟨hi, fun k hk => ?_⟩, (h i hi).2.2⟩
    obtain ⟨hsome, hok, -⟩ := h k (Nat.lt_of_le_of_lt hk hi)
    exact ⟨hsome, hok⟩

/-- A run completes a collection only when its children are handled, and
otherwise comes back to it, exactly where the statuses are answered and some
child is left to the WM with no query failing, or all children can be
handled. -/
theorem completes_handled_iff
    (hcoll : ∀ st, ans .jobStatus = .ok (some st) → st.jobtype ≠ .job) :
    CompletesHandled ans (Proc.replay ans cancelProcessor).1 ↔
      ∃ s, ans .childrenStatus = .ok (some s) ∧ (s.childrenNum = 0 ∨
        ∃ jobtype state, ans .jobStatus = .ok (some ⟨jobtype, state⟩) ∧
          (fails ans s.state (List.range s.childrenNum) = none ∧
              leftOne ans jobtype s = true ∨
            ∀ i < s.childrenNum, (s.state i).isSome ∧ (childEvents ans i).isOk ∧
              (onChild ans jobtype s.state leaves i = false ∧
                  (onChild ans jobtype s.state forwards i = true →
                    Forwardable ans i) ∨
                s.state i = some .aborted))) := by
  by_cases hs : ∃ st, ans .jobStatus = .ok (some st)
  · obtain ⟨⟨jobtype, state⟩, hstatus⟩ := hs
    have hjob := hcoll _ hstatus
    rw [CompletesHandled, comesBack_iff hjob hstatus]
    constructor
    · rintro (⟨s, hs, hall⟩ | ⟨s, hs, hfails, hleft⟩)
      · exact ⟨s, hs, .inr ⟨jobtype, state, hstatus,
          .inr ((all_handled_iff hjob hstatus hs).mp hall)⟩⟩
      · exact ⟨s, hs, .inr ⟨jobtype, state, hstatus, .inl ⟨hfails, hleft⟩⟩⟩
    · rintro ⟨s, hs, hzero | ⟨jobtype', state', hstatus', hcond⟩⟩
      · exact .inl ⟨s, hs, fun i hi => absurd hi (by omega)⟩
      · rw [hstatus] at hstatus'
        simp only [Except.ok.injEq, Option.some.injEq, Stat.mk.injEq] at hstatus'
        obtain ⟨rfl, -⟩ := hstatus'
        rcases hcond with ⟨hfails, hleft⟩ | hall
        · exact .inr ⟨s, hs, hfails, hleft⟩
        · exact .inl ⟨s, hs, (all_handled_iff hjob hstatus hs).mpr hall⟩
  · rw [unhandled_unanswered fun st h => hs ⟨st, h⟩]
    constructor
    · rintro ⟨s, hchildren, hzero⟩
      exact ⟨s, hchildren, .inl hzero⟩
    · rintro ⟨s, hchildren, hzero | ⟨jobtype, state, hstatus, -⟩⟩
      · exact ⟨s, hchildren, hzero⟩
      · exact absurd ⟨_, hstatus⟩ hs

end

/-! ## Examples of a run -/

/-- LB answers what it has, and nothing throws but what is said of child 0. -/
def answering (status : Stat) (children : ChildrenStat)
    (history : Option ℕ → List LbEvent) (first : Except Exn Unit) :
    (c : Call) → Answer c
  | .jobStatus => .ok (some status)
  | .childrenStatus => .ok (some children)
  | .createToken _ => true
  | .existsToken => true
  | .cancelEvents job => .ok ((history job).filter selects)
  | .changeLoggingJob 0 => first
  | .changeLoggingJob _ => .ok ()
  | .changeLoggingJobBack _ => .ok ()
  | .logCancelled _ => .ok ()
  | .logDoneCancelled => .ok ()
  | .cancel _ => .ok ()
  | .unregisterProxy => ()
  | .purge _ => ()
  | .scheduleAgain => ()

theorem answering_exact (status : Stat) (children : ChildrenStat)
    (history : Option ℕ → List LbEvent) (first : Except Exn Unit) :
    LbExact (answering status children history first) history := by
  intro job events h
  exact (Except.ok.inj h).symm

/-- Passed on by the WM, then done. -/
def wentWell (cancel : List LbEvent) : List LbEvent :=
  ⟨.workloadManager, 1, .enQueued .ok "" .empty ""⟩ ::
    ⟨.logMonitor, 2, .done .ok⟩ :: cancel

/-- The child is finished, and has been cancelled by the WM before. -/
theorem finished_spared_cancelled :
    Finished (answering ⟨.dag, .running⟩ ⟨1, [some .done]⟩
        (fun _ => wentWell [⟨.workloadManager, 3, .cancel⟩]) (.ok ()))
      (fun _ => wentWell [⟨.workloadManager, 3, .cancel⟩]) (some 0) ∧
    ∀ who ∈ cancelled (answering ⟨.dag, .running⟩ ⟨1, [some .done]⟩
        (fun _ => wentWell [⟨.workloadManager, 3, .cancel⟩]) (.ok ())) none
        (Proc.replay (answering ⟨.dag, .running⟩ ⟨1, [some .done]⟩
          (fun _ => wentWell [⟨.workloadManager, 3, .cancel⟩]) (.ok ()))
          cancelProcessor).1,
      ¬ Finished (answering ⟨.dag, .running⟩ ⟨1, [some .done]⟩
        (fun _ => wentWell [⟨.workloadManager, 3, .cancel⟩]) (.ok ()))
        (fun _ => wentWell [⟨.workloadManager, 3, .cancel⟩]) who := by
  refine ⟨⟨_, rfl, rfl, by decide⟩,
    (finished_spared_iff (answering_exact _ _ _ _)).mpr
      ⟨fun h => (by cases h), fun jobtype state s i _ _ _ _ _ _ _ => .inl ?_⟩⟩
  exact ⟨⟨.workloadManager, 3, .cancel⟩, by simp [wentWell], rfl, rfl⟩

/-- A single job, and the child of a collection, that were passed on by the WM
and went well. -/
theorem finished_cancelled :
    (∃ who ∈ cancelled (answering ⟨.job, .done⟩ ⟨0, []⟩
        (fun _ => wentWell []) (.ok ())) none
        (Proc.replay (answering ⟨.job, .done⟩ ⟨0, []⟩ (fun _ => wentWell [])
          (.ok ())) cancelProcessor).1,
      Finished (answering ⟨.job, .done⟩ ⟨0, []⟩ (fun _ => wentWell [])
        (.ok ())) (fun _ => wentWell []) who) ∧
    ∃ who ∈ cancelled (answering ⟨.collection, .running⟩ ⟨1, [some .done]⟩
        (fun _ => wentWell []) (.ok ())) none
        (Proc.replay (answering ⟨.collection, .running⟩ ⟨1, [some .done]⟩
          (fun _ => wentWell []) (.ok ())) cancelProcessor).1,
      Finished (answering ⟨.collection, .running⟩ ⟨1, [some .done]⟩
        (fun _ => wentWell []) (.ok ())) (fun _ => wentWell []) who := by
  refine ⟨⟨none, by decide, rfl, by decide⟩, some 0, by decide, _, rfl, rfl, ?_⟩
  decide

/-- A collection with a child that runs and one that is ready, whose cancels are
passed on, and a third one that is aborted. -/
theorem completes_handled_forwarded :
    CompletesHandled (answering ⟨.collection, .running⟩
        ⟨3, [some .running, some .ready, some .aborted]⟩
        (fun _ => wentWell []) (.ok ()))
      (Proc.replay (answering ⟨.collection, .running⟩
        ⟨3, [some .running, some .ready, some .aborted]⟩
        (fun _ => wentWell []) (.ok ())) cancelProcessor).1 := by
  refine (completes_handled_iff fun st h => ?_).mpr ⟨_, rfl, .inr
    ⟨_, _, rfl, .inr fun i hi => ?_⟩⟩
  · rw [← Option.some.inj (Except.ok.inj h)]
    decide
  · have hthree : i = 0 ∨ i = 1 ∨ i = 2 := by
      have hlt : i < 3 := hi
      omega
    rcases hthree with rfl | rfl | rfl
    · exact ⟨rfl, rfl, .inl ⟨rfl, fun _ => ⟨rfl, rfl, rfl, rfl⟩⟩⟩
    · exact ⟨rfl, rfl, .inl ⟨rfl, fun _ => ⟨rfl, rfl, rfl, rfl⟩⟩⟩
    · exact ⟨rfl, rfl, .inr rfl⟩

/-- A child without a state, and a child whose cancel throws: the collection is
purged all the same. -/
theorem completes_unhandled :
    ¬ CompletesHandled (answering ⟨.collection, .running⟩ ⟨1, [none]⟩
        (fun _ => wentWell []) (.ok ()))
      (Proc.replay (answering ⟨.collection, .running⟩ ⟨1, [none]⟩
        (fun _ => wentWell []) (.ok ())) cancelProcessor).1 ∧
    ¬ CompletesHandled (answering ⟨.collection, .running⟩ ⟨1, [some .running]⟩
        (fun _ => wentWell []) (.error .unknown))
      (Proc.replay (answering ⟨.collection, .running⟩ ⟨1, [some .running]⟩
        (fun _ => wentWell []) (.error .unknown)) cancelProcessor).1 := by
  constructor
  · rintro (⟨s, hs, hall⟩ | ⟨hpurge, -⟩)
    · obtain rfl := Option.some.inj (Except.ok.inj hs)
      rcases hall 0 Nat.one_pos with ⟨hmem, -⟩ | ⟨hmem, -⟩
      · revert hmem
        decide
      · revert hmem
        decide
    · exact hpurge .cancelDone (by decide)
  · rintro (⟨s, hs, hall⟩ | ⟨hpurge, -⟩)
    · obtain rfl := Option.some.inj (Except.ok.inj hs)
      rcases hall 0 Nat.one_pos with ⟨-, st, events, hst, hev, hfound⟩ | ⟨hmem, -⟩
      · obtain rfl := Option.some.inj hst
        obtain rfl := Except.ok.inj hev
        revert hfound
        decide
      · revert hmem
        decide
    · exact hpurge .cancelDone (by decide)

end Wms.Core.Cancel
