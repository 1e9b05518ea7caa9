import Mathlib.Data.List.Induction
import Wms.Core.Budget
import Wms.Proofs.Outcomes

/-!
# Retry budgets

The counts a processor reads from the LB are the counts of what the manager
has logged: `getRetryCounts` looks for the last deep resubmission from the
front, event by event, which comes to the same as starting the shallow count
anew at each of them. A processor checks the count and then logs at most one
resubmission, so it stays within the limits. The replanner logs one without a
check, so it does only where there is room.
-/

namespace Wms.Core.Budget

open Wms.Lib Wms.Lib.Proc Wms.Core

/-! ## The counts -/

theorem fromLastDeep_snoc_deep {e : LbEvent} (he : isDeepResubmission e = true)
    (l : List LbEvent) : fromLastDeepResubmission (l ++ [e]) = [e] := by
  induction l with
  | nil => rfl
  | cons x l ih =>
      have hany : (l ++ [e]).any isDeepResubmission = true := by
        simp [he]
      rw [List.cons_append, fromLastDeepResubmission, if_pos hany]
      exact ih

theorem fromLastDeep_snoc {e : LbEvent} (he : isDeepResubmission e = false)
    (l : List LbEvent) :
    fromLastDeepResubmission (l ++ [e]) = fromLastDeepResubmission l ++ [e] := by
  induction l with
  | nil => rfl
  | cons x l ih =>
      have hany : (l ++ [e]).any isDeepResubmission =
          l.any isDeepResubmission := by simp [he]
      rw [List.cons_append, fromLastDeepResubmission, hany,
        fromLastDeepResubmission]
      split
      · exact ih
      · rfl

theorem not_shallow_of_deep {e : LbEvent} (h : isDeepResubmission e = true) :
    isShallowResubmission e = false := by
  obtain ⟨source, timestamp, kind⟩ := e
  cases kind with
  | resubmission result reason tag => cases result <;> first | rfl | cases h
  | _ => cases h

@[simp] theorem shallowSinceDeep_snoc (lb : List LbEvent) (e : LbEvent) :
    shallowSinceDeep (lb ++ [e]) =
      if isWmDeep e then 0
      else if isWmShallow e then shallowSinceDeep lb + 1
      else shallowSinceDeep lb := by
  unfold shallowSinceDeep
  rw [List.foldl_append]
  rfl

@[simp] theorem deepLogged_snoc (lb : List LbEvent) (e : LbEvent) :
    deepLogged (lb ++ [e]) = deepLogged lb + if isWmDeep e then 1 else 0 := by
  unfold deepLogged
  rw [List.countP_append, List.countP_singleton]

/-- What the log of a job looks like: resubmissions are the manager's, and
every description is the job's. -/
structure Fair (jdl : Jdl) (lb : List LbEvent) : Prop where
  resubmission : ∀ e ∈ lb, e.source = .bigHelper →
    isResubmission e.kind = false
  description : ∀ e ∈ lb, e.source = .networkServer →
    ∀ queue reason j, e.kind = .enQueued .ok queue (.ad j) reason → j = jdl

theorem fair_nil (jdl : Jdl) : Fair jdl [] :=
  ⟨fun _ h => (by cases h), fun _ h => by cases h⟩

theorem fair_snoc {jdl : Jdl} {lb : List LbEvent} (h : Fair jdl lb)
    {e : LbEvent}
    (hr : e.source = .bigHelper → isResubmission e.kind = false)
    (hd : e.source = .networkServer → ∀ queue reason j,
      e.kind = .enQueued .ok queue (.ad j) reason → j = jdl) :
    Fair jdl (lb ++ [e]) := by
  constructor
  · intro x hx
    rcases List.mem_append.mp hx with hx | hx
    · exact h.resubmission x hx
    · rw [List.mem_singleton] at hx
      subst hx
      exact hr
  · intro x hx
    rcases List.mem_append.mp hx with hx | hx
    · exact h.description x hx
    · rw [List.mem_singleton] at hx
      subst hx
      exact hd

theorem fair_logged {jdl : Jdl} {lb : List LbEvent} (h : Fair jdl lb)
    (e : EventKind) : Fair jdl (lb ++ [logged e]) :=
  fair_snoc h (fun hs => by cases hs) (fun hs => by cases hs)

/-- Among the resubmissions of a job, the interesting ones are the
manager's. -/
theorem selects_of_resubmission {e : LbEvent}
    (hr : e.source = .bigHelper → isResubmission e.kind = false)
    (he : isResubmission e.kind = true) :
    Query.interesting.selects e = decide (e.source = .workloadManager) := by
  have hhelper : ¬ e.source = .bigHelper := by
    intro hs
    rw [hr hs] at he
    cases he
  simp [Query.selects, he, hhelper]

theorem isResubmission_of_deep {e : LbEvent}
    (h : isDeepResubmission e = true) : isResubmission e.kind = true := by
  obtain ⟨source, timestamp, kind⟩ := e
  cases kind <;> first | rfl | cases h

theorem isResubmission_of_shallow {e : LbEvent}
    (h : isShallowResubmission e = true) : isResubmission e.kind = true := by
  obtain ⟨source, timestamp, kind⟩ := e
  cases kind <;> first | rfl | cases h

/-- The first count is the number of deep resubmissions logged. -/
theorem deepCount_eq {jdl : Jdl} {lb : List LbEvent} (h : Fair jdl lb) :
    (getRetryCounts (lb.filter Query.interesting.selects)).1 =
      deepLogged lb := by
  show ((lb.filter Query.interesting.selects).countP isDeepResubmission : ℤ) =
    deepLogged lb
  rw [List.countP_filter]
  unfold deepLogged
  congr 1
  refine List.countP_congr fun e he => ?_
  cases hdeep : isDeepResubmission e with
  | false => simp [isWmDeep, hdeep]
  | true =>
      rw [selects_of_resubmission (h.resubmission e he)
        (isResubmission_of_deep hdeep)]
      simp [isWmDeep, hdeep]

/-- Looking for the last deep resubmission from the front comes to the same
as starting the count anew at every deep one. -/
theorem countP_fromLastDeep (l : List LbEvent) :
    (fromLastDeepResubmission l).countP isShallowResubmission =
      l.foldl (fun n e =>
        if isDeepResubmission e then 0
        else if isShallowResubmission e then n + 1 else n) 0 := by
  induction l using List.reverseRecOn with
  | nil => rfl
  | append_singleton l e ih =>
      rw [List.foldl_append, List.foldl_cons, List.foldl_nil, ← ih]
      cases hdeep : isDeepResubmission e with
      | true =>
          rw [fromLastDeep_snoc_deep hdeep, List.countP_singleton,
            not_shallow_of_deep hdeep]
          rfl
      | false =>
          rw [fromLastDeep_snoc hdeep, List.countP_append,
            List.countP_singleton]
          cases isShallowResubmission e <;> rfl

/-- The second is the number of shallow ones since the last deep one. -/
theorem shallowCount_eq {jdl : Jdl} {lb : List LbEvent} (h : Fair jdl lb) :
    (getRetryCounts (lb.filter Query.interesting.selects)).2 =
      shallowSinceDeep lb := by
  show (((fromLastDeepResubmission (lb.filter Query.interesting.selects)).countP
    isShallowResubmission : ℕ) : ℤ) = shallowSinceDeep lb
  rw [countP_fromLastDeep, List.foldl_filter]
  unfold shallowSinceDeep
  congr 1
  refine List.foldl_ext _ _ _ fun n e he => ?_
  have hsel := selects_of_resubmission (h.resubmission e he)
  unfold isWmDeep isWmShallow
  cases hdeep : isDeepResubmission e with
  | true =>
      rw [hsel (isResubmission_of_deep hdeep), not_shallow_of_deep hdeep]
      simp
  | false =>
      cases hshallow : isShallowResubmission e with
      | true =>
          rw [hsel (isResubmission_of_shallow hshallow)]
          simp
      | false => simp

theorem firstJobText_eq {jdl j : Jdl} {lb : List LbEvent} (h : Fair jdl lb)
    (hj : firstJobText (lb.filter Query.originalJdl.selects) = .ad j) :
    j = jdl := by
  have hmem : ∀ (l : List LbEvent), firstJobText l = .ad j →
      ∃ e ∈ l, ∃ queue reason, e.kind = .enQueued .ok queue (.ad j) reason := by
    intro l
    induction l with
    | nil => intro hl; cases hl
    | cons e l ih =>
        intro hl
        unfold firstJobText at hl
        split at hl
        next queue job reason hkind =>
          split at hl
          next =>
            obtain ⟨x, hx, hxj⟩ := ih hl
            exact ⟨x, List.mem_cons_of_mem _ hx, hxj⟩
          next =>
            subst hl
            exact ⟨e, List.mem_cons_self, queue, reason, hkind⟩
        next =>
          obtain ⟨x, hx, hxj⟩ := ih hl
          exact ⟨x, List.mem_cons_of_mem _ hx, hxj⟩
  obtain ⟨e, he, queue, reason, hkind⟩ := hmem _ hj
  rw [List.mem_filter] at he
  have hsource : e.source = .networkServer := by
    have hsel := he.2
    simp [Query.selects] at hsel
    exact hsel.2
  exact h.description e he.1 hsource queue reason j hkind

/-! ## What the stages log -/

/-- The LB is all that counts; the rest may answer what it likes. -/
def lbOnly : Contract (List LbEvent) Call Answer := Contract.free lbWorld

/-- A call that logs no resubmission. -/
def silent : Call → Bool
  | .log (.resubmission _ _ _) => false
  | _ => true

theorem silent_of_calm {c : Call} (h : c.calm = true) : silent c = true := by
  cases c with
  | log e => cases e <;> first | rfl | cases h
  | _ => rfl

def Silent {α : Type} (p : WmProc α) : Prop := CallsOnly (silent · = true) p

section
variable {α β : Type}

theorem silent_program_of_calm {p : WmProc α} (h : Calm p) : Silent p :=
  callsOnly_mono (fun _ => silent_of_calm) h

theorem silent_ask_bind {c : Call} {f : Answer c → WmProc β}
    (hc : silent c = true) (hf : ∀ a, Silent (f a)) : Silent (ask c >>= f) :=
  callsOnly_bind (callsOnly_perform hc) hf

/-- A property of the log that only resubmissions can break. -/
def Lasts (I : List LbEvent → Prop) : Prop :=
  ∀ lb e, isResubmission e = false → I lb → I (lb ++ [logged e])

theorem wp_silent {I : List LbEvent → Prop} (hI : Lasts I) {p : WmProc α}
    (hp : Silent p) {lb : List LbEvent} (hlb : I lb) :
    wp lbOnly (fun lb _ => I lb) (fun lb _ => I lb) lb p := by
  refine wp_of_callsOnly ?_ hp hlb
  intro lb c r hc hlb _
  refine ⟨trivial, ?_⟩
  cases c with
  | log e =>
      refine hI lb e ?_ hlb
      cases e <;> first | rfl | cases hc
  | _ => exact hlb

/-- A silent step and what follows. -/
theorem wp_silent_bind {I : List LbEvent → Prop} (hI : Lasts I)
    {Q : List LbEvent → β → Prop} {E : List LbEvent → Exn → Prop}
    {p : WmProc α} {f : α → WmProc β} {lb : List LbEvent} (hp : Silent p)
    (hlb : I lb) (hE : ∀ lb e, I lb → E lb e)
    (hf : ∀ lb a, I lb → wp lbOnly Q E lb (f a)) :
    wp lbOnly Q E lb (p >>= f) :=
  (wp_bind _ _ _).mpr (wp_mono hf hE (wp_silent hI hp hlb))

end

theorem silent_createToken (leaf : Text) : Silent (createToken leaf) := by
  refine silent_ask_bind rfl fun created => ?_
  cases created <;> trivial

theorem silent_firstTokenStage (ad : Jdl) (tokenFile : Text) :
    Silent (firstTokenStage ad tokenFile) := by
  unfold firstTokenStage
  split
  · refine silent_ask_bind rfl fun found => ?_
    split
    · exact silent_createToken _
    · trivial
  · trivial

theorem silent_submit (cfg : Config) (ad : Jdl) (isReplan : Bool) :
    Silent (submit cfg ad isReplan) := by
  refine silent_ask_bind rfl fun _ => silent_ask_bind rfl fun planned => ?_
  refine callsOnly_bind (callsOnly_ofExcept _) fun plannedAd => ?_
  refine silent_ask_bind rfl fun _ => ?_
  refine callsOnly_bind (silent_program_of_calm
    (calm_of_plain (plain_logCeinfoHost _ _))) fun _ => ?_
  refine silent_ask_bind rfl fun _ => silent_ask_bind rfl fun _ => ?_
  refine callsOnly_bind (silent_program_of_calm
    (calm_of_plain plain_cancelledMeanwhile)) fun cancelled => ?_
  split
  · exact silent_program_of_calm calm_purgeCancelled
  · refine silent_ask_bind rfl fun delivered => ?_
    cases delivered with
    | ok u => exact callsOnly_perform rfl
    | error what => exact silent_ask_bind rfl fun _ => trivial

theorem silent_deliverStage (cfg : Config) (ad : Jdl) (tokenFile : Text)
    (isReplan : Bool) : Silent (deliverStage cfg ad tokenFile isReplan) := by
  refine callsOnly_bind ?_ fun _ =>
    silent_ask_bind rfl fun _ => silent_submit cfg ad isReplan
  unfold renameTokenStage
  split
  · refine silent_ask_bind rfl fun res => ?_
    split <;> trivial
  · trivial

/-! ## Within the limits -/

variable {cfg : Config} {jdl : Jdl}

/-- A log within the limits. -/
def Kept (cfg : Config) (jdl : Jdl) (lb : List LbEvent) : Prop :=
  Fair jdl lb ∧ withinBudget cfg jdl lb

/-- What a resubmission has been told, for the log as it is. -/
def Informed (jdl ad : Jdl) (info : Option LbInfo) (lb : List LbEvent) : Prop :=
  ∀ i, info = some i →
    i.deepCount = deepLogged lb ∧ i.shallowCount = shallowSinceDeep lb ∧
      ad.retryCount = jdl.retryCount ∧
      ad.shallowRetryCount = jdl.shallowRetryCount

theorem counts_logged {e : EventKind} (he : isResubmission e = false)
    (lb : List LbEvent) :
    deepLogged (lb ++ [logged e]) = deepLogged lb ∧
      shallowSinceDeep (lb ++ [logged e]) = shallowSinceDeep lb := by
  have hdeep : isWmDeep (logged e) = false := by
    cases e <;> first | rfl | cases he
  have hshallow : isWmShallow (logged e) = false := by
    cases e <;> first | rfl | cases he
  simp [hdeep, hshallow]

theorem lasts_kept : Lasts (Kept cfg jdl) := by
  rintro lb e he ⟨hfair, hbudget⟩
  obtain ⟨hdeep, hshallow⟩ := counts_logged he lb
  refine ⟨fair_logged hfair e, ?_⟩
  unfold withinBudget
  rw [hdeep, hshallow]
  exact hbudget

theorem lasts_informed (ad : Jdl) (info : Option LbInfo) :
    Lasts fun lb => Kept cfg jdl lb ∧ Informed jdl ad info lb := by
  rintro lb e he ⟨hkept, hinfo⟩
  obtain ⟨hdeep, hshallow⟩ := counts_logged he lb
  refine ⟨lasts_kept lb e he hkept, ?_⟩
  unfold Informed
  rw [hdeep, hshallow]
  exact hinfo

/-- A count that passes the check has room for one more. -/
theorem room_of_checkDeepCount {ad : Jdl} {count : ℤ} (hcount : 0 ≤ count)
    (hok : checkDeepCount cfg ad count = .ok ())
    (had : ad.retryCount = jdl.retryCount) :
    count + 1 ≤ deepLimit cfg jdl := by
  unfold checkDeepCount at hok
  unfold deepLimit
  rw [had] at hok
  cases hretry : jdl.retryCount with
  | none =>
      rw [hretry] at hok
      have hjob : count ≥ 0 := hcount
      simp [hjob] at hok
  | some n =>
      rw [hretry] at hok
      simp only [] at hok
      rw [Option.getD_some]
      by_cases hneg : n < 0
      · rw [if_pos hneg, if_pos hcount] at hok
        cases hok
      · rw [if_neg hneg] at hok
        split at hok
        · cases hok
        · split at hok
          · cases hok
          · omega

theorem room_of_checkShallowCount {ad : Jdl} {count : ℤ} (hcount : 0 ≤ count)
    (hok : checkShallowCount cfg ad count = .ok ())
    (had : ad.shallowRetryCount = jdl.shallowRetryCount) :
    count + 1 ≤ shallowLimit cfg jdl := by
  unfold checkShallowCount at hok
  unfold shallowLimit
  rw [had] at hok
  cases hretry : jdl.shallowRetryCount with
  | none =>
      rw [hretry] at hok
      have hjob : count ≥ 0 := hcount
      simp [hjob] at hok
  | some n =>
      rw [hretry] at hok
      simp only [] at hok
      rw [Option.getD_some]
      by_cases hneg : n < 0
      · rw [if_pos hneg, if_pos hcount] at hok
        cases hok
      · rw [if_neg hneg] at hok
        split at hok
        · cases hok
        · by_cases hmax : cfg.maxShallowRetryCount < 0
          · rw [if_pos hmax, if_pos hcount] at hok
            cases hok
          · rw [if_neg hmax] at hok
            split at hok
            · cases hok
            · omega

theorem kept_deep {lb : List LbEvent} (h : Kept cfg jdl lb) (reason : String)
    (tag : Text) (hroom : (deepLogged lb : ℤ) + 1 ≤ deepLimit cfg jdl) :
    Kept cfg jdl (lb ++ [logged (.resubmission .willResub reason tag)]) := by
  refine ⟨fair_logged h.1 _, ?_, ?_⟩
  · rw [deepLogged_snoc]
    show ((deepLogged lb + 1 : ℕ) : ℤ) ≤ deepLimit cfg jdl
    omega
  · rw [shallowSinceDeep_snoc]
    show (0 : ℤ) ≤ shallowLimit cfg jdl
    unfold shallowLimit
    omega

theorem kept_shallow {lb : List LbEvent} (h : Kept cfg jdl lb) (reason : String)
    (tag : Text)
    (hroom : (shallowSinceDeep lb : ℤ) + 1 ≤ shallowLimit cfg jdl) :
    Kept cfg jdl (lb ++ [logged (.resubmission .shallow reason tag)]) := by
  refine ⟨fair_logged h.1 _, ?_, ?_⟩
  · rw [deepLogged_snoc]
    exact h.2.1
  · rw [shallowSinceDeep_snoc]
    show ((shallowSinceDeep lb + 1 : ℕ) : ℤ) ≤ shallowLimit cfg jdl
    omega

/-! ## A request -/

/-- The counts are those of the log. -/
theorem wp_retrieveLbInfo {lb : List LbEvent} (h : Fair jdl lb) :
    wp lbOnly
      (fun lb' i => lb' = lb ∧ i.deepCount = (deepLogged lb : ℤ) ∧
        i.shallowCount = (shallowSinceDeep lb : ℤ))
      (fun lb' _ => lb' = lb) lb (retrieveLbInfo cfg) := by
  intro r _
  refine ⟨trivial, ?_⟩
  cases r with
  | error e => exact rfl
  | ok events => exact ⟨rfl, deepCount_eq h, shallowCount_eq h⟩

/-- The description is the registered one. -/
theorem wp_getOriginalJdl {lb : List LbEvent} (h : Fair jdl lb) :
    wp lbOnly (fun lb' text => lb' = lb ∧ ∀ j, text = .ad j → j = jdl)
      (fun lb' _ => lb' = lb) lb getOriginalJdl := by
  intro r _
  refine ⟨trivial, ?_⟩
  cases r with
  | error e => exact rfl
  | ok events => exact ⟨rfl, fun j hj => firstJobText_eq h hj⟩

/-- A resubmission works with the counts of the log and the limits of the
registered description. -/
theorem informed_resubmitStage {lb : List LbEvent} (h : Kept cfg jdl lb) :
    wp lbOnly
      (fun lb r => Kept cfg jdl lb ∧ Informed jdl r.2 (some r.1) lb)
      (fun lb _ => Kept cfg jdl lb) lb (resubmitStage cfg) := by
  have hkeep : ∀ (lb' : List LbEvent) (e : Exn), lb' = lb → Kept cfg jdl lb' :=
    fun lb' _ hlb => hlb ▸ h
  refine (wp_bind _ _ _).mpr (wp_mono ?_ hkeep (wp_retrieveLbInfo h.1))
  rintro lb' i ⟨rfl, hdeep, hshallow⟩
  refine (wp_bind _ _ _).mpr (wp_mono ?_ hkeep (wp_getOriginalJdl h.1))
  rintro lb' text ⟨rfl, htext⟩
  cases text with
  | empty => exact h
  | unparsable what => exact h
  | ad j =>
      rw [htext j rfl]
      refine fun _ _ => ⟨trivial, h, ?_⟩
      rintro i' hi'
      cases hi'
      exact ⟨hdeep, hshallow, rfl, rfl⟩

theorem kept_resubmitTokenStage {ad : Jdl} {info : Option LbInfo}
    {lb : List LbEvent} (h : Kept cfg jdl lb) (hinfo : Informed jdl ad info lb)
    (tokenFile : Text) :
    wp lbOnly (fun lb _ => Kept cfg jdl lb) (fun lb _ => Kept cfg jdl lb) lb
      (resubmitTokenStage cfg ad tokenFile info) := by
  cases info with
  | none => exact h
  | some info =>
      obtain ⟨hdeep, hshallow, hretry, hshallowRetry⟩ := hinfo info rfl
      have hd : (0 : ℤ) ≤ info.deepCount := hdeep ▸ Int.natCast_nonneg _
      have hs : (0 : ℤ) ≤ info.shallowCount := hshallow ▸ Int.natCast_nonneg _
      have hlogDeep : ∀ reason tag, checkDeepCount cfg ad info.deepCount = .ok () →
          Kept cfg jdl (lb ++ [logged (.resubmission .willResub reason tag)]) := by
        intro reason tag hcheck
        refine kept_deep h reason tag ?_
        rw [← hdeep]
        exact room_of_checkDeepCount hd hcheck hretry
      unfold resubmitTokenStage
      dsimp only
      split
      · refine fun res _ => ⟨trivial, ?_⟩
        dsimp only [ret_bind]
        split
        · exact h
        · refine fun found _ => ⟨trivial, ?_⟩
          dsimp only [ret_bind]
          split
          · cases hcheck : checkShallowCount cfg ad info.shallowCount with
            | error e => exact h
            | ok u =>
                refine fun _ _ => ⟨trivial, kept_shallow h _ _ ?_⟩
                rw [← hshallow]
                exact room_of_checkShallowCount hs hcheck hshallowRetry
          · cases hcheck : checkDeepCount cfg ad info.deepCount with
            | error e => exact h
            | ok u =>
                exact fun _ _ => ⟨trivial, wp_silent lasts_kept
                  (silent_createToken _) (hlogDeep _ _ hcheck)⟩
      · cases hcheck : checkDeepCount cfg ad info.deepCount with
        | error e => exact h
        | ok u => exact fun _ _ => ⟨trivial, hlogDeep _ _ hcheck⟩

theorem kept_tokenStages {ad : Jdl} {info : Option LbInfo} {lb : List LbEvent}
    (h : Kept cfg jdl lb) (hinfo : Informed jdl ad info lb) (command : Command)
    (n : ℤ) :
    wp lbOnly (fun lb _ => Kept cfg jdl lb) (fun lb _ => Kept cfg jdl lb) lb
      (tokenStages cfg command ad info n) := by
  refine (wp_bind _ _ _).mpr (wp_mono ?_ (fun _ _ hk => hk)
    (kept_resubmitTokenStage h hinfo _))
  intro lb _ hk
  refine wp_silent lasts_kept ?_ hk
  split
  · split
    · exact silent_deliverStage _ _ _ _
    · trivial
    · exact callsOnly_bind (silent_firstTokenStage _ _) fun _ =>
        silent_deliverStage _ _ _ _
  · exact silent_deliverStage _ _ _ _

/-- The number of the token does not change the limits of a description. -/
theorem informed_replansStage {ad : Jdl} {info : Option LbInfo}
    {lb : List LbEvent} (h : Kept cfg jdl lb) (hinfo : Informed jdl ad info lb)
    (last : Option Text) :
    wp lbOnly (fun lb r => Kept cfg jdl lb ∧ Informed jdl r.2 info lb)
      (fun lb _ => Kept cfg jdl lb) lb (replansStage cfg ad last) := by
  unfold replansStage
  split
  · exact ⟨h, hinfo⟩
  · split
    · exact h
    · exact fun _ _ => ⟨trivial, h, hinfo⟩

theorem kept_sandboxStages {ad : Jdl} {info : Option LbInfo}
    {lb : List LbEvent} (h : Kept cfg jdl lb) (hinfo : Informed jdl ad info lb)
    (command : Command) :
    wp lbOnly (fun lb _ => Kept cfg jdl lb) (fun lb _ => Kept cfg jdl lb) lb
      (sandboxStages cfg command ad info) := by
  have hlasts : Lasts fun lb => Kept cfg jdl lb ∧ Informed jdl ad info lb :=
    lasts_informed ad info
  refine wp_silent_bind (p := ask (.existsCancelToken .processor)) hlasts
    (callsOnly_perform rfl) ⟨h, hinfo⟩ (fun _ _ hk => hk.1) fun lb cancelled hk => ?_
  split
  · refine wp_silent lasts_kept ?_ hk.1
    exact silent_ask_bind rfl fun _ => silent_ask_bind rfl fun _ =>
      callsOnly_perform rfl
  · refine wp_silent_bind (p := ask .listSandbox) hlasts
      (callsOnly_perform rfl) hk (fun _ _ hk => hk.1) fun lb listing hk => ?_
    refine wp_silent_bind hlasts
      (silent_program_of_calm (calm_scanTokens cfg _ _)) hk
      (fun _ _ hk => hk.1) fun lb last hk => ?_
    split
    · exact hk.1
    · refine (wp_bind _ _ _).mpr (wp_mono ?_ (fun _ _ hk => hk)
        (informed_replansStage hk.1 hk.2 last))
      rintro lb r ⟨hk, hinfo⟩
      exact kept_tokenStages hk hinfo command r.1

theorem kept_afterLimbo {lb : List LbEvent} (h : Kept cfg jdl lb)
    (state : SubmitState) :
    wp lbOnly (fun lb _ => Kept cfg jdl lb) (fun lb _ => Kept cfg jdl lb) lb
      (afterLimbo cfg state) := by
  unfold afterLimbo
  split
  · refine (wp_bind _ _ _).mpr (wp_mono ?_ (fun _ _ hk => hk)
      (informed_resubmitStage h))
    rintro lb r ⟨hk, hinfo⟩
    exact kept_sandboxStages hk hinfo _
  · exact kept_sandboxStages h (fun i hi => by cases hi) _

/-- A request stays within the limits. -/
theorem kept_submitProcessor {lb : List LbEvent} (h : Kept cfg jdl lb) :
    wp lbOnly (fun lb _ => Kept cfg jdl lb) (fun lb _ => Kept cfg jdl lb) lb
      (submitProcessor cfg fun _ => pure ()) := by
  refine wp_silent_bind (p := ask .load) lasts_kept (callsOnly_perform rfl) h
    (fun _ _ hk => hk) fun lb state hk => ?_
  refine wp_silent_bind lasts_kept
    (silent_program_of_calm (calm_entryChecks cfg state)) hk
    (fun _ _ hk => hk) fun lb on hk => ?_
  split
  · refine (wp_tryCatch _ _ _).mpr (wp_mono (fun _ _ hk => hk)
      (fun lb e (hk : Kept cfg jdl lb) => wp_silent lasts_kept
        (silent_program_of_calm (calm_handle cfg e)) hk) ?_)
    split
    · refine wp_silent_bind lasts_kept
        (silent_program_of_calm (calm_limboStage cfg _)) hk
        (fun _ _ hk => hk) fun lb on hk => ?_
      split
      · exact kept_afterLimbo hk state
      · exact hk
    · exact hk
  · exact hk

/-! ## A replanning -/

theorem plain_replanCandidate : Plain replanCandidate := by
  have hdescription : Plain replanDescription := by
    refine callsOnly_tryCatch (callsOnly_bind plain_getOriginalJdl
      fun text => ?_) fun _ => trivial
    cases text <;> trivial
  refine callsOnly_bind hdescription fun jobAd => ?_
  cases jobAd with
  | none => trivial
  | some jobAd =>
      dsimp only
      split
      · trivial
      · split
        · trivial
        · refine plain_ask_bind rfl fun context => ?_
          cases context with
          | error what => trivial
          | ok u =>
              exact plain_ask_bind rfl fun _ =>
                callsOnly_bind plain_getLastMatchedCeid fun _ => trivial

theorem calm_replanUnrecoverable (msg : String) :
    Calm (replanUnrecoverable msg) := ⟨rfl, fun _ => trivial⟩

theorem calm_replanScan (cfg : Config) (leaves : List Text)
    (found : Option Text) : Calm (replanScan cfg found leaves) :=
  callsOnly_scanTokensWith cfg (fun _ => calm_replanUnrecoverable _) leaves found

theorem calm_replanToken (cfg : Config) : Calm (replanToken cfg) := by
  refine calm_ask_bind rfl fun listing => ?_
  refine callsOnly_bind (calm_replanScan cfg _ _) fun found => ?_
  split <;> trivial

theorem silent_replanPrepared (cfg : Config) : Silent (replanPrepared cfg) := by
  refine callsOnly_bind (silent_program_of_calm
    (calm_of_plain plain_replanCandidate)) fun jobAd => ?_
  cases jobAd with
  | none => trivial
  | some jobAd =>
      refine callsOnly_bind (silent_program_of_calm (calm_replanToken cfg))
        fun found => ?_
      cases found with
      | none => trivial
      | some found =>
          refine callsOnly_bind (silent_ask_bind rfl fun _ => trivial)
            fun moved => ?_
          split
          · refine callsOnly_bind ?_ fun _ => ?_
            · unfold checkReplans
              split
              · exact silent_ask_bind rfl fun _ => callsOnly_perform rfl
              · trivial
            · refine silent_ask_bind rfl fun opened => ?_
              cases opened <;> trivial
          · trivial

/-- A replanning that comes to its events logs one shallow resubmission. -/
theorem kept_requestReplan {lb : List LbEvent} (h : Kept cfg jdl lb)
    (hroom : (shallowSinceDeep lb : ℤ) < shallowLimit cfg jdl) (jobAd : Jdl) :
    wp lbOnly (fun lb _ => Kept cfg jdl lb) (fun lb _ => Kept cfg jdl lb) lb
      (requestReplan cfg jobAd) := by
  intro _ _
  refine ⟨trivial, wp_silent lasts_kept ?_ (kept_shallow h _ _ (by omega))⟩
  refine silent_ask_bind rfl fun _ => silent_ask_bind rfl fun delivered => ?_
  cases delivered <;> exact callsOnly_perform rfl

/-- A look of the replanner stays within the limits if there is room, or if it
comes to nothing. -/
theorem kept_replan {lb : List LbEvent} (h : Kept cfg jdl lb)
    (o : Oracle Call Answer)
    (hroom : roomForReplan cfg jdl lb (.replan o) = true) :
    Kept cfg jdl (logAfter o lb (replan cfg)) := by
  have hprepared : Kept cfg jdl (exec lbWorld o 0 lb (replanPrepared cfg)).state ∧
      shallowSinceDeep (exec lbWorld o 0 lb (replanPrepared cfg)).state =
        shallowSinceDeep lb :=
    wp_exec_state o (K := lbOnly)
      (I := fun lb' => Kept cfg jdl lb' ∧
        shallowSinceDeep lb' = shallowSinceDeep lb)
      (keeps_free lbWorld o 0 lb (replanPrepared cfg))
      (wp_silent (fun lb' e he hk =>
          ⟨lasts_kept lb' e he hk.1, (counts_logged he lb').2.trans hk.2⟩)
        (silent_replanPrepared cfg) ⟨h, rfl⟩)
  have hroom : replans cfg o lb = true →
      (shallowSinceDeep lb : ℤ) < shallowLimit cfg jdl := by
    intro hreplans
    simpa [roomForReplan, hreplans] using hroom
  unfold replans at hroom
  unfold logAfter replan
  rw [bind_eq, exec_bind]
  rcases hd : exec lbWorld o 0 lb (replanPrepared cfg) with ⟨result, calls, lb'⟩
  rw [hd] at hprepared hroom
  obtain ⟨hkept, hcount⟩ := hprepared
  cases result with
  | error e => exact hkept
  | ok prepared =>
      cases prepared with
      | none => exact hkept
      | some jobAd =>
          refine wp_exec_state o (K := lbOnly)
            (keeps_free lbWorld o calls lb' (requestReplan cfg jobAd))
            (kept_requestReplan hkept ?_ jobAd)
          show (shallowSinceDeep lb' : ℤ) < shallowLimit cfg jdl
          rw [show shallowSinceDeep lb' = shallowSinceDeep lb from hcount]
          exact hroom rfl

/-! ## Whole runs -/

theorem kept_nil (cfg : Config) (jdl : Jdl) : Kept cfg jdl [] := by
  refine ⟨fair_nil jdl, ?_, ?_⟩
  · show (0 : ℤ) ≤ deepLimit cfg jdl
    unfold deepLimit
    omega
  · show (0 : ℤ) ≤ shallowLimit cfg jdl
    unfold shallowLimit
    omega

theorem kept_registered {lb : List LbEvent} (h : Kept cfg jdl lb)
    (timestamp : ℤ) (queue reason : String) :
    Kept cfg jdl (lb ++
      [⟨.networkServer, timestamp, .enQueued .ok queue (.ad jdl) reason⟩]) := by
  refine ⟨fair_snoc h.1 (fun hs => by cases hs) ?_, ?_⟩
  · rintro - queue' reason' j hkind
    cases hkind
    rfl
  · unfold withinBudget
    rw [deepLogged_snoc, shallowSinceDeep_snoc]
    exact h.2

theorem fair_component {lb : List LbEvent} (h : Fair jdl lb) {e : LbEvent}
    (he : isForeign e = true) : Fair jdl (lb ++ [e]) := by
  obtain ⟨source, timestamp, kind⟩ := e
  refine fair_snoc h (fun hs => ?_) fun hs queue reason j hkind => ?_
  · cases hs
    cases kind <;> first | rfl | cases he
  · cases hs
    cases hkind
    cases he

theorem kept_component {lb : List LbEvent} (h : Kept cfg jdl lb) {e : LbEvent}
    (he : isForeign e = true) : Kept cfg jdl (lb ++ [e]) := by
  have hsource : e.source ≠ .workloadManager := by
    intro hs
    obtain ⟨source, timestamp, kind⟩ := e
    cases hs
    cases he
  refine ⟨fair_component h.1 he, ?_⟩
  unfold withinBudget
  rw [deepLogged_snoc, shallowSinceDeep_snoc]
  simp only [isWmDeep, isWmShallow, hsource, decide_false, Bool.false_and]
  exact h.2

theorem kept_next (cfg : Config) (jdl : Jdl) (lb : List LbEvent) (l : Label)
    (lb' : List LbEvent) (h : Kept cfg jdl lb)
    (hok : roomForReplan cfg jdl lb l = true)
    (hn : next cfg jdl lb l = some lb') :
    Kept cfg jdl lb' := by
  cases l with
  | registered timestamp queue reason =>
      cases hn
      exact kept_registered h timestamp queue reason
  | component e =>
      unfold next at hn
      dsimp only at hn
      split at hn
      next he =>
        cases hn
        exact kept_component h he
      next => cases hn
  | process o =>
      cases hn
      exact wp_exec_state o (K := lbOnly) (keeps_free lbWorld o 0 lb _)
        (kept_submitProcessor h)
  | replan o =>
      cases hn
      exact kept_replan h o hok

/-- Requests and replannings, in any number and order, keep a job within its
limits as long as the replanner has room. -/
theorem withinBudget_of_room (cfg : Config) (jdl : Jdl) (ls : List Label)
    (lb : List LbEvent)
    (hok : Meets (next cfg jdl)
      (fun lb l => roomForReplan cfg jdl lb l = true) [] ls)
    (hrun : run (next cfg jdl) [] ls = some lb) : withinBudget cfg jdl lb := by
  have hkept : Kept cfg jdl lb :=
    run_invariant (kept_next cfg jdl) (kept_nil cfg jdl) hok hrun
  exact hkept.2

/-- A job that may be resubmitted once, as a shallow resubmission. -/
def onceShallow : Jdl where
  shallowRetryCount := some 1
  enableWmsFeedback := true

/-- Everything succeeds, on a CREAM computing element, with a token. -/
def creamAnswers (token : Text) : (c : Call) → Answer c
  | .plan _ => .ok ⟨"ce/cream-q".toList, "", [], ""⟩
  | .load => ⟨.jobsubmit, onceShallow, .start, 0⟩
  | c => sampleAnswers (sampleState .start) .scheduled [] [token] c

/-- A job that is submitted, and then replanned some times. -/
def replanned (tokens : List Text) : List Label :=
  .registered 0 "wm" "" :: .process (fun _ => creamAnswers ['t', '_', '0']) ::
    tokens.map fun token => .replan fun _ => creamAnswers token

/-- A second replanning goes beyond the limit. -/
theorem not_withinBudget_replanned :
    ∃ lb, run (next sampleConfig onceShallow) []
        (replanned [['t', '_', '0'], ['t', '_', '1']]) = some lb ∧
      shallowSinceDeep lb = 2 ∧ shallowLimit sampleConfig onceShallow = 1 ∧
      ¬ withinBudget sampleConfig onceShallow lb :=
  ⟨_, rfl, rfl, rfl, fun h => absurd h.2 (by decide)⟩

/-- The first one does not. -/
theorem withinBudget_of_room_replanned :
    ∃ lb, run (next sampleConfig onceShallow) []
        (replanned [['t', '_', '0']]) = some lb ∧
      shallowSinceDeep lb = 1 ∧ withinBudget sampleConfig onceShallow lb := by
  have hok : ((steps (next sampleConfig onceShallow) []
      (replanned [['t', '_', '0']])).all fun p =>
        roomForReplan sampleConfig onceShallow p.1 p.2) = true := rfl
  exact ⟨_, rfl, rfl, withinBudget_of_room sampleConfig onceShallow
    (replanned [['t', '_', '0']]) _ (List.all_eq_true.mp hok) rfl⟩

end Wms.Core.Budget
