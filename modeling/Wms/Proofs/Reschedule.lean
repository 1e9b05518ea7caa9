import Wms.Proofs.Sandbox

/-!
# Requests of the replanner

A submission whose description carries a count may be a request of the
replanner. It is one if its count is the number of the token, and it can be
dropped if the token has got a larger number since. But the number of the
token is written into the description before the two are compared, so the
number is compared with itself: a count that has been overtaken is never
noticed, and every token with a positive number makes a reschedule.
-/

namespace Wms.Core.Reschedule

open Wms.Lib Wms.Lib.Proc Wms.Core

variable (cfg : Config)

/-- The token with a number, under either name. -/
def tokenNamed (n : ℤ) (held : Bool) : Text :=
  if held then tokenTmpFile (getReallyrunningToken cfg n)
  else getReallyrunningToken cfg n

/-- What follows the pass over the directory. -/
def afterListing (ad : Jdl) (listing : Listing) : WmProc Unit := do
  let lastTokenFile ← scanTokens cfg none listing.leaves
  match listing.error with
  | some _ => pure ()
  | none =>
      let (replansCount, ad) ← replansStage cfg ad lastTokenFile
      tokenStages cfg .jobsubmit ad none replansCount

/-- The same with the handlers around it. -/
def rest (ad : Jdl) (listing : Listing) : WmProc Unit :=
  Proc.tryCatch (afterListing cfg ad listing) (handle cfg)

/-- The processing of a request that has been loaded. -/
def processed (other : JobType → WmProc Unit) (state : SubmitState) :
    WmProc Unit := do
  if ← entryChecks cfg state then
    Proc.tryCatch
      (match jobType state.ad with
        | .single => singleJob cfg state
        | kind => other kind)
      (handle cfg)

/-- A call that leaves the token files of a directory as they are. -/
def leavesTokens : Call → Bool
  | .createToken _ => false
  | .rename _ _ => false
  | .unlink leaf => !isTokenFile cfg leaf
  | _ => true

/-- A call that neither delivers nor logs. -/
def silent : Call → Bool
  | .log _ => false
  | .deliver _ _ => false
  | .deliverToWm _ => false
  | _ => true

/-- Only requests for a reschedule are delivered. -/
def reschedules : Call → Bool
  | .deliver _ request => request.command = "Reschedule"
  | .deliverToWm _ => false
  | _ => true

/-- The job is submitted as a reschedule, with its tokens left alone. -/
def Rescheduled (ad : Jdl) (p : WmProc Unit) : Prop :=
  (∃ replansCount,
    let ad := { ad with replansCount := some replansCount }
    p = Proc.tryCatch
      (do
        ask (.storeAd ad)
        ask (.unlink maradona)
        submit cfg ad true)
      (handle cfg)) ∧
  CallsOnly (fun c => leavesTokens cfg c = true ∧ reschedules c = true) p

/-- Nothing is delivered or logged, and the tokens are left alone. -/
def LeftAlone (p : WmProc Unit) : Prop :=
  CallsOnly (fun c => leavesTokens cfg c = true ∧ silent c = true) p

/-- What becomes of a request with a count from a token with a number. -/
def Recognised (ad : Jdl) (k n : ℤ) (p : WmProc Unit) : Prop :=
  (n = k → Rescheduled cfg ad p) ∧ (k < n → LeftAlone cfg p)

variable {cfg} {ad : Jdl} {listing : Listing} {leaf : Text} {c : ℤ}

/-! ## What is left once the directory has been read -/

theorem ne_listSandbox_of_opening {c : Call} (h : c.opening = true) :
    c ≠ .listSandbox := by
  rintro rfl
  cases h

theorem callsOnly_of_opening {α : Type} {p : WmProc α} (h : Opening p) :
    CallsOnly (· ≠ .listSandbox) p :=
  callsOnly_mono (fun _ => ne_listSandbox_of_opening) h

/-- Whatever has been answered before, the rest is the same. -/
theorem eq_rest_of_after {other : JobType → WmProc Unit} {state : SubmitState}
    (hcommand : state.command = .jobsubmit) (htype : jobType state.ad = .single)
    {q : WmProc Unit}
    (h : After .listSandbox listing (processed cfg other state) q) :
    q = rest cfg state.ad listing := by
  obtain ⟨go, h⟩ :=
    after_bind (callsOnly_of_opening (opening_entryChecks cfg state)) h
  cases go with
  | false => cases h
  | true =>
      rw [if_pos rfl, htype] at h
      rcases after_tryCatch h with ⟨q', hin, rfl⟩ | ⟨e, h⟩
      · obtain ⟨on, h⟩ :=
          after_bind (callsOnly_of_opening (opening_limboStage cfg _)) hin
        cases on with
        | false => cases h
        | true =>
            rw [if_pos rfl, afterLimbo, hcommand, if_neg (by decide)] at h
            cases h with
            | later _ cancelled h =>
                cases cancelled with
                | true =>
                    refine absurd h (not_after_of_callsOnly ?_)
                    exact ⟨by rintro ⟨⟩, fun _ => ⟨by rintro ⟨⟩, fun _ =>
                      ⟨by rintro ⟨⟩, fun _ => trivial⟩⟩⟩
                | false =>
                    cases h with
                    | here => rfl
                    | later hne => exact absurd rfl hne
      · exact absurd h
          (not_after_of_callsOnly (callsOnly_of_opening (opening_handle cfg e)))

/-! ## What it does, by the number of the token -/

theorem afterListing_one (hend : listing.error = none)
    (hone : listing.leaves.filter (isTokenFile cfg) = [leaf]) :
    afterListing cfg ad listing =
      (replansStage cfg ad (some leaf)).bind fun r =>
        tokenStages cfg .jobsubmit r.2 none r.1 := by
  unfold afterListing scanTokens
  rw [Sandbox.scanTokensWith_one hone, hend]
  rfl

/-- The number is compared with itself. -/
theorem submitCase_self (ad : Jdl) (c : ℤ) :
    submitCase { ad with replansCount := some c } c =
      if 0 < c then .reschedule else .first := by
  unfold submitCase
  by_cases hpos : 0 < c
  · simp [hpos]
  · simp [hpos]

theorem tokenStages_reschedule (h : submitCase ad c = .reschedule) :
    tokenStages cfg .jobsubmit ad none c =
      deliverStage cfg ad (getReallyrunningToken cfg c) true := by
  simp only [tokenStages, resubmitTokenStage, pure_eq, bind_eq, ret_bind, h,
    if_true]

theorem tokenStages_first (h : submitCase ad c = .first) :
    tokenStages cfg .jobsubmit ad none c = (do
      firstTokenStage ad (getReallyrunningToken cfg c)
      deliverStage cfg ad (getReallyrunningToken cfg c) false) := by
  simp only [tokenStages, resubmitTokenStage, pure_eq, bind_eq, ret_bind, h,
    if_true]

section
variable (hend : listing.error = none)
  (hone : listing.leaves.filter (isTokenFile cfg) = [leaf])
include hend hone

theorem rest_of_none
    (hcast : cfg.lexicalCastFloat (afterLastUnderscore leaf) = none) :
    rest cfg ad listing = unrecoverable "bad lexical cast" := by
  unfold rest
  rw [afterListing_one hend hone]
  unfold replansStage
  dsimp only
  rw [hcast]
  rfl

theorem rest_of_some
    (hcast : cfg.lexicalCastFloat (afterLastUnderscore leaf) = some c) :
    rest cfg ad listing =
      Proc.tryCatch
        (do
          ask (.storeAd { ad with replansCount := some c })
          tokenStages cfg .jobsubmit { ad with replansCount := some c } none c)
        (handle cfg) := by
  unfold rest
  rw [afterListing_one hend hone]
  unfold replansStage
  dsimp only
  rw [hcast]
  rfl

theorem rest_of_pos
    (hcast : cfg.lexicalCastFloat (afterLastUnderscore leaf) = some c)
    (hpos : 0 < c) :
    rest cfg ad listing =
      Proc.tryCatch
        (do
          ask (.storeAd { ad with replansCount := some c })
          ask (.unlink maradona)
          submit cfg { ad with replansCount := some c } true)
        (handle cfg) := by
  rw [rest_of_some hend hone hcast,
    tokenStages_reschedule ((submitCase_self ad c).trans (if_pos hpos))]
  rfl

theorem rest_of_nonpos
    (hcast : cfg.lexicalCastFloat (afterLastUnderscore leaf) = some c)
    (hpos : ¬ 0 < c) :
    rest cfg ad listing =
      Proc.tryCatch
        (do
          ask (.storeAd { ad with replansCount := some c })
          firstTokenStage { ad with replansCount := some c }
            (getReallyrunningToken cfg c)
          deliverStage cfg { ad with replansCount := some c }
            (getReallyrunningToken cfg c) false)
        (handle cfg) := by
  rw [rest_of_some hend hone hcast,
    tokenStages_first ((submitCase_self ad c).trans (if_neg hpos))]

end

/-! ## Submissions as a reschedule -/

theorem maradona_not_token : isTokenFile cfg maradona = false := by
  rw [Bool.eq_false_iff]
  intro h
  exact absurd (Sandbox.underscore_mem_of_matchesPrefix h) (by decide)

theorem reschedules_of_plain {c : Call} (h : c.plain = true) :
    leavesTokens cfg c = true ∧ reschedules c = true := by
  cases c with
  | log e => exact ⟨rfl, rfl⟩
  | _ => first | exact ⟨rfl, rfl⟩ | cases h

theorem reschedules_of_opening {c : Call} (h : c.opening = true) :
    leavesTokens cfg c = true ∧ reschedules c = true := by
  cases c with
  | log e => exact ⟨rfl, rfl⟩
  | _ => first | exact ⟨rfl, rfl⟩ | cases h

theorem reschedules_submit (ad : Jdl) :
    CallsOnly (fun c => leavesTokens cfg c = true ∧ reschedules c = true)
      (submit cfg ad true) := by
  refine callsOnly_bind (callsOnly_perform ⟨rfl, rfl⟩) fun _ =>
    callsOnly_bind (callsOnly_perform ⟨rfl, rfl⟩) fun planned =>
      callsOnly_bind (callsOnly_ofExcept _) fun plannedAd => ?_
  refine callsOnly_bind (callsOnly_perform ⟨rfl, rfl⟩) fun _ =>
    callsOnly_bind
      (callsOnly_mono (fun _ => reschedules_of_plain) (plain_logCeinfoHost _ _))
      fun _ => callsOnly_bind (callsOnly_perform ⟨rfl, rfl⟩) fun _ =>
        callsOnly_bind (callsOnly_perform ⟨rfl, rfl⟩) fun code => ?_
  refine callsOnly_bind
    (callsOnly_mono (fun _ => reschedules_of_plain) plain_cancelledMeanwhile)
    fun cancelled => ?_
  cases cancelled with
  | true => exact ⟨⟨rfl, rfl⟩, fun _ => ⟨⟨rfl, rfl⟩, fun _ => ⟨⟨rfl, rfl⟩,
      fun _ => trivial⟩⟩⟩
  | false =>
      refine ⟨⟨rfl, rfl⟩, fun delivered => ?_⟩
      cases delivered with
      | ok _ => exact ⟨⟨rfl, rfl⟩, fun _ => trivial⟩
      | error what => exact ⟨⟨rfl, rfl⟩, fun _ => trivial⟩

/-- A planned job is logged as matched. -/
theorem not_leftAlone_submit (ad : Jdl) (isReplan : Bool) :
    ¬ LeftAlone cfg (Proc.tryCatch
      (do
        ask (.storeAd ad)
        ask (.unlink maradona)
        submit cfg ad isReplan)
      (handle cfg)) := by
  intro h
  have hlog := ((((h.2 ()).2 ()).2 "").2 (.ok ⟨[], "", [], ""⟩)).1.2
  cases hlog

/-! ## The condition -/

section
variable (hend : listing.error = none)
  (hone : listing.leaves.filter (isTokenFile cfg) = [leaf])
include hend hone

theorem rescheduled_of_pos
    (hcast : cfg.lexicalCastFloat (afterLastUnderscore leaf) = some c)
    (hpos : 0 < c) : Rescheduled cfg ad (rest cfg ad listing) := by
  rw [rest_of_pos hend hone hcast hpos]
  refine ⟨⟨c, rfl⟩, callsOnly_tryCatch ?_ fun e =>
    callsOnly_mono (fun _ => reschedules_of_opening) (opening_handle cfg e)⟩
  refine ⟨⟨rfl, rfl⟩, fun _ => ⟨⟨?_, rfl⟩, fun _ => reschedules_submit _⟩⟩
  show (!isTokenFile cfg maradona) = true
  rw [maradona_not_token]
  rfl

theorem pos_of_rescheduled (henabled : shallowResubmissionIsEnabled ad = true)
    (h : Rescheduled cfg ad (rest cfg ad listing)) :
    ∃ c > 0, cfg.lexicalCastFloat (afterLastUnderscore leaf) = some c := by
  obtain ⟨⟨replansCount, hrest⟩, hcalls⟩ := h
  cases hcast : cfg.lexicalCastFloat (afterLastUnderscore leaf) with
  | none =>
      rw [rest_of_none hend hone hcast] at hrest
      cases hrest
  | some c =>
      by_cases hpos : 0 < c
      · exact ⟨c, hpos, rfl⟩
      · have hon : shallowResubmissionIsEnabled
            { ad with replansCount := some c } = true := henabled
        rw [rest_of_nonpos hend hone hcast hpos] at hcalls
        unfold firstTokenStage at hcalls
        rw [hon, if_pos rfl] at hcalls
        have htoken := (((hcalls.2 ()).2 false).1).1
        cases htoken

theorem not_leftAlone (henabled : shallowResubmissionIsEnabled ad = true) :
    ¬ LeftAlone cfg (rest cfg ad listing) := by
  cases hcast : cfg.lexicalCastFloat (afterLastUnderscore leaf) with
  | none =>
      rw [rest_of_none hend hone hcast]
      intro h
      cases h.1.2
  | some c =>
      by_cases hpos : 0 < c
      · rw [rest_of_pos hend hone hcast hpos]
        exact not_leftAlone_submit _ true
      · have hon : shallowResubmissionIsEnabled
            { ad with replansCount := some c } = true := henabled
        rw [rest_of_nonpos hend hone hcast hpos]
        unfold firstTokenStage
        rw [hon, if_pos rfl]
        intro h
        have htoken := (((h.2 ()).2 false).1).1
        cases htoken

end

/-- Once the directory has been read, with one token in it, the rest is the
same whatever has been answered before; and it deals with the count of the
request as it must only if the token has a smaller number, or the same number
and that is read as a positive one. -/
theorem recognised_iff (cfg : Config) (other : JobType → WmProc Unit)
    (state : SubmitState) (n : ℤ) (held : Bool) (listing : Listing)
    (hcommand : state.command = .jobsubmit) (htype : jobType state.ad = .single)
    (henabled : shallowResubmissionIsEnabled state.ad = true)
    (hend : listing.error = none)
    (hone : listing.leaves.filter (isTokenFile cfg) = [tokenNamed cfg n held]) :
    (∀ q, After .listSandbox listing (processed cfg other state) q →
      q = rest cfg state.ad listing) ∧
    ∀ k, state.ad.replansCount = some k → 0 < k →
      (Recognised cfg state.ad k n (rest cfg state.ad listing) ↔
        n < k ∨ n = k ∧ ∃ c > 0,
          cfg.lexicalCastFloat (afterLastUnderscore (tokenNamed cfg n held)) =
            some c) := by
  refine ⟨fun q h => eq_rest_of_after hcommand htype h, fun k _ _ => ?_⟩
  constructor
  · rintro ⟨hequal, hlarger⟩
    rcases Int.lt_trichotomy n k with h | h | h
    · exact .inl h
    · exact .inr ⟨h, pos_of_rescheduled hend hone henabled (hequal h)⟩
    · exact absurd (hlarger h) (not_leftAlone hend hone henabled)
  · rintro (h | ⟨rfl, c, hpos, hcast⟩)
    · exact ⟨fun heq => by omega, fun hlt => by omega⟩
    · exact ⟨fun _ => rescheduled_of_pos hend hone hcast hpos, fun hlt => by omega⟩

/-! ## What is delivered -/

variable {ans : (c : Call) → Answer c}

theorem cancelledMeanwhile_false
    (hcancel : (ans .loggingJob && ans (.existsCancelToken .delivery)) = false) :
    (replay ans cancelledMeanwhile).2 = .ok false := by
  show (replay ans (if ans .loggingJob = true then _ else _)).2 = _
  cases hjob : ans .loggingJob with
  | true =>
      rw [hjob, Bool.true_and] at hcancel
      exact congrArg Except.ok hcancel
  | false => rfl

theorem deliver_mem_submit {jdl : Jdl} {plannedAd : Planned} {isReplan : Bool}
    (hplan : ans (.plan { jdl with lbSequenceCode := ans .lbSequenceCode }) =
      .ok plannedAd)
    (hcancel : (ans .loggingJob && ans (.existsCancelToken .delivery)) = false) :
    .deliver (if isCreamCe plannedAd.ceId then .ice else .jc)
        (submitCommandCreate
          { plannedAd with lbSequenceCode := ans .lbSequenceCode } isReplan) ∈
      (replay ans (submit cfg jdl isReplan)).1 := by
  have hceinfo : (replay ans (logCeinfoHost cfg plannedAd.ceinfoHostName)).2 =
      .ok () := by
    unfold logCeinfoHost
    split <;> rfl
  refine List.mem_cons_of_mem _ (List.mem_cons_of_mem _ ?_)
  rw [hplan]
  refine List.mem_cons_of_mem _ ?_
  change _ ∈ (replay ans
    ((logCeinfoHost cfg plannedAd.ceinfoHostName).bind _)).1
  refine mem_replay_bind hceinfo
    (List.mem_cons_of_mem _ (List.mem_cons_of_mem _ ?_))
  change _ ∈ (replay ans (cancelledMeanwhile.bind _)).1
  exact mem_replay_bind (cancelledMeanwhile_false hcancel) List.mem_cons_self

/-- A request that is submitted as a reschedule is passed on as it was planned
from the description with the count of the token, unless it is cancelled
meanwhile. -/
theorem deliver_of_rescheduled {p : WmProc Unit} (h : Rescheduled cfg ad p) :
    ∃ replansCount, ∀ plannedAd,
      ans (.plan { ad with
        replansCount := some replansCount
        lbSequenceCode := ans .lbSequenceCode }) = .ok plannedAd →
      (ans .loggingJob && ans (.existsCancelToken .delivery)) = false →
      .deliver (if isCreamCe plannedAd.ceId then .ice else .jc)
          (submitCommandCreate
            { plannedAd with lbSequenceCode := ans .lbSequenceCode } true) ∈
        (replay ans p).1 := by
  obtain ⟨⟨replansCount, rfl⟩, -⟩ := h
  refine ⟨replansCount, fun plannedAd hplan hcancel => mem_replay_tryCatch ?_⟩
  refine List.mem_cons_of_mem _ (List.mem_cons_of_mem _ ?_)
  exact deliver_mem_submit hplan hcancel

/-! ## A request that has been overtaken, and one that has not -/

/-- The commands that are delivered to the next component. -/
def delivered : List Call → List String
  | [] => []
  | .deliver _ request :: calls => request.command :: delivered calls
  | _ :: calls => delivered calls

def sampleRequest : SubmitState :=
  ⟨.jobsubmit, Sandbox.replannedJob, .start, 0⟩

/-- The request with count 1 is delivered though the token has number 2. -/
theorem not_recognised_overtaken :
    ¬ Recognised sampleConfig sampleRequest.ad 1 2
        (rest sampleConfig sampleRequest.ad
          ⟨[tokenNamed sampleConfig 2 false], none⟩) ∧
      delivered (replay
        (sampleAnswers sampleRequest .scheduled []
          [tokenNamed sampleConfig 2 false])
        (submitProcessor sampleConfig fun _ => pure ())).1 = ["Reschedule"] := by
  have hone : [tokenNamed sampleConfig 2 false].filter
      (isTokenFile sampleConfig) = [tokenNamed sampleConfig 2 false] := rfl
  exact ⟨fun h => absurd (h.2 (by decide)) (not_leftAlone rfl hone rfl), rfl⟩

theorem recognised_iff_inTurn :
    Rescheduled sampleConfig sampleRequest.ad
      (rest sampleConfig sampleRequest.ad
        ⟨[tokenNamed sampleConfig 1 false], none⟩) := by
  have h := (recognised_iff sampleConfig (fun _ => pure ()) sampleRequest 1 false
    ⟨[tokenNamed sampleConfig 1 false], none⟩ rfl rfl rfl rfl rfl).2 1 rfl
    (by decide)
  exact (h.mpr (.inr ⟨rfl, 1, by decide, rfl⟩)).1 rfl

end Wms.Core.Reschedule
