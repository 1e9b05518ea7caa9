import Wms.Ice.Submit

/-!
# What the parts of a submission call

Every part of the submission command but two works for the job it was given:
it writes no entry other than the one of that job, and writes it under the same
owner. The two are the start and the scope guard that removes the entry, and
they are the only ones that call CREAM for a start or delete from the table.
Each lemma reads this off one function of the source.
-/

namespace Wms.Ice

open Wms.Lib Proc

/-- Two jobs with the same identifier, user, servers and proxy. -/
structure SameOwner (a b : JobRow) : Prop where
  gridJobid : b.gridJobid = a.gridJobid
  userDn : b.userDn = a.userDn
  proxyRenewable : b.proxyRenewable = a.proxyRenewable
  myproxyAddress : b.myproxyAddress = a.myproxyAddress
  isbproxyTimeEnd : b.isbproxyTimeEnd = a.isbproxyTimeEnd
  creamAddress : b.creamAddress = a.creamAddress

theorem SameOwner.refl (a : JobRow) : SameOwner a a :=
  ⟨rfl, rfl, rfl, rfl, rfl, rfl⟩

theorem SameOwner.trans {a b c : JobRow} (h : SameOwner a b)
    (h' : SameOwner b c) : SameOwner a c where
  gridJobid := h'.gridJobid.trans h.gridJobid
  userDn := h'.userDn.trans h.userDn
  proxyRenewable := h'.proxyRenewable.trans h.proxyRenewable
  myproxyAddress := h'.myproxyAddress.trans h.myproxyAddress
  isbproxyTimeEnd := h'.isbproxyTimeEnd.trans h.isbproxyTimeEnd
  creamAddress := h'.creamAddress.trans h.creamAddress

theorem sameOwner_setDelegationId (j : CreamJob) (s : Text) :
    SameOwner j.toJobRow (j.setDelegationId s).toJobRow :=
  ⟨rfl, rfl, rfl, rfl, rfl, rfl⟩

theorem sameOwner_setLeaseId (j : CreamJob) (s : Text) :
    SameOwner j.toJobRow (j.setLeaseId s).toJobRow :=
  ⟨rfl, rfl, rfl, rfl, rfl, rfl⟩

theorem sameOwner_setStatus (j : CreamJob) (st : JobStatus) :
    SameOwner j.toJobRow (j.setStatus st).toJobRow :=
  ⟨rfl, rfl, rfl, rfl, rfl, rfl⟩

theorem sameOwner_setCreamDbid (j : CreamJob) (n : ℕ) :
    SameOwner j.toJobRow (j.setCreamDbid n).toJobRow :=
  ⟨rfl, rfl, rfl, rfl, rfl, rfl⟩

theorem sameOwner_setCompleteCreamJobid (j : CreamJob) (s : Text) :
    SameOwner j.toJobRow (j.setCompleteCreamJobid s).toJobRow :=
  ⟨rfl, rfl, rfl, rfl, rfl, rfl⟩

theorem sameOwner_setCreamJobid (cfg : Config) (j : CreamJob) (s : Text) :
    SameOwner j.toJobRow (j.setCreamJobid cfg s).toJobRow :=
  ⟨rfl, rfl, rfl, rfl, rfl, rfl⟩

theorem sameOwner_registeredJob (cfg : Config) {job : JobRow} {j : CreamJob}
    (hj : SameOwner job j.toJobRow) (delegation : Text)
    (registered : Registered) :
    SameOwner job (registeredJob cfg j delegation registered).toJobRow :=
  hj.trans <| (sameOwner_setDelegationId j _).trans <|
    (sameOwner_setLeaseId _ _).trans <| (sameOwner_setStatus _ _).trans <|
    (sameOwner_setCreamDbid _ _).trans <|
    (sameOwner_setCompleteCreamJobid _ _).trans <|
    sameOwner_setCreamJobid cfg _ _

/-- A call that neither starts a job nor removes an entry, and writes at most
the entry of `job`. -/
def Quiet (job : JobRow) : Call → Prop
  | .creamStart _ _ _ => False
  | .db (.removeJobByGid _) => False
  | .db (.createJob row) => SameOwner job row
  | .db (.updateJob j _) => SameOwner job j.toJobRow
  | _ => True

/-- A call that has nothing to do with the table of jobs and starts nothing. -/
def Aside : Call → Prop
  | .creamStart _ _ _ => False
  | .db (.removeJobByGid _) => False
  | .db (.createJob _) => False
  | .db (.updateJob _ _) => False
  | _ => True

theorem Aside.quiet {c : Call} (h : Aside c) (job : JobRow) : Quiet job c := by
  cases c with
  | db op =>
      cases op with
      | createJob row => exact h.elim
      | updateJob j token => exact h.elim
      | _ => exact h
  | _ => exact h

variable {job : JobRow}

theorem jobs_run_of_aside {op : DbOp} (h : Aside (.db op)) (db : Db) :
    (db.run op).2.jobs = db.jobs := by
  cases op with
  | createJob row => exact h.elim
  | updateJob j token => exact h.elim
  | removeJobByGid gid => exact h.elim
  | createDelegation row =>
      simp only [Db.run]
      cases hc : db.createDelegation row with
      | none => rfl
      | some db' =>
          unfold Db.createDelegation at hc
          split at hc
          · cases hc
          · simp only [Option.some.injEq] at hc
            exact hc ▸ rfl
  | _ => rfl

/-- What a quiet operation does to the table of jobs. -/
theorem jobs_run {op : DbOp} (h : Quiet job (.db op)) (db : Db) :
    (db.run op).2.jobs = db.jobs ∨
      (∃ row, SameOwner job row ∧ (db.run op).2 = db.createJob row) ∨
      ∃ j token, SameOwner job j.toJobRow ∧
        (db.run op).2 = db.updateJob j token := by
  cases op with
  | createJob row => exact Or.inr (Or.inl ⟨row, h, rfl⟩)
  | updateJob j token => exact Or.inr (Or.inr ⟨j, token, h, rfl⟩)
  | removeJobByGid gid => exact h.elim
  | _ =>
      left
      apply jobs_run_of_aside
      trivial

/-- An entry that is there stays there. -/
theorem job?_run {op : DbOp} (h : Quiet job (.db op)) {db : Db}
    (hentry : (db.job? job.gridJobid).isSome = true) :
    ((db.run op).2.job? job.gridJobid).isSome = true := by
  rcases jobs_run h db with hsame | ⟨row, hrow, heq⟩ | ⟨j, token, hj, heq⟩
  · unfold Db.job? at hentry ⊢
    rw [hsame]
    exact hentry
  · rw [heq, ← hrow.gridJobid, Db.job?_createJob]
    rfl
  · rw [heq]
    rw [← hj.gridJobid] at hentry ⊢
    rw [Db.job?_updateJob, Option.isSome_map]
    exact hentry

theorem ne_start_of_quiet {c : Call} (h : Quiet job c) :
    ∀ url proxy jobId, c ≠ .creamStart url proxy jobId := by
  rintro url proxy jobId rfl
  exact h

theorem within_ask {c : Call} (h : Quiet job c) :
    Within (Quiet job) (fun _ => True) (ask c) :=
  within_perform h fun _ => trivial

theorem within_updateJob_of {P : Call → Prop} {j : CreamJob}
    (h : ∀ token, P (.db (.updateJob j token))) :
    Within P (fun _ => True) (updateJob j) := by
  unfold updateJob
  split
  · trivial
  · exact within_perform (h _) fun _ => trivial

theorem within_updateJob {j : CreamJob} (h : SameOwner job j.toJobRow) :
    Within (Quiet job) (fun _ => True) (updateJob j) :=
  within_updateJob_of fun _ => h

/-- What `logEvent` calls, and the two jobs it may return. -/
theorem within_logEvent_of {P : Call → Prop} {event : LbEvent} {j : CreamJob}
    {useCancel updatedb : Bool} (hlog : P (.log event j.toJobRow))
    (hupdate : ∀ code token,
      P (.db (.updateJob (withSeqCode j useCancel code) token))) :
    Within P (fun j' => j' = j ∨
        ∃ code, j' = (withSeqCode j useCancel code).resetChangeFlags)
      (logEvent event j useCancel updatedb) := by
  unfold logEvent
  simp only [bind_eq, pure_eq]
  refine within_bind (within_perform hlog fun _ => trivial) fun code _ => ?_
  split
  · exact Or.inl rfl
  · rename_i newSeqCode
    refine within_bind (Q := fun _ => True) ?_
      fun _ _ => Or.inr ⟨newSeqCode, rfl⟩
    unfold updateJobIf
    split
    · exact within_updateJob_of (hupdate newSeqCode)
    · exact (within_ret ()).mpr trivial

theorem throws_updateJob (j : CreamJob) : Throws (· = .abort) (updateJob j) := by
  unfold updateJob
  split
  · exact rfl
  · exact throws_perform _

theorem throws_logEvent (event : LbEvent) (j : CreamJob)
    (useCancel updatedb : Bool) :
    Throws (· = .abort) (logEvent event j useCancel updatedb) := by
  unfold logEvent
  simp only [bind_eq, pure_eq]
  refine throws_bind (throws_perform _) fun code => ?_
  split
  · trivial
  · refine throws_bind ?_ fun _ => trivial
    unfold updateJobIf
    split
    · exact throws_updateJob _
    · trivial

private theorem sameOwner_withSeqCode {j : CreamJob}
    (h : SameOwner job j.toJobRow) (useCancel : Bool) (code : Text) :
    SameOwner job (withSeqCode j useCancel code).toJobRow := by
  cases useCancel with
  | false => exact h.trans ⟨rfl, rfl, rfl, rfl, rfl, rfl⟩
  | true => exact h.trans ⟨rfl, rfl, rfl, rfl, rfl, rfl⟩

theorem within_logEvent {j : CreamJob} (h : SameOwner job j.toJobRow)
    (event : LbEvent) (useCancel updatedb : Bool) :
    Within (Quiet job) (fun j' => SameOwner job j'.toJobRow)
      (logEvent event j useCancel updatedb) := by
  refine within_mono (fun _ hc => hc) ?_
    (within_logEvent_of (P := Quiet job) trivial fun code token =>
      sameOwner_withSeqCode h useCancel code)
  rintro j' (rfl | ⟨code, rfl⟩)
  · exact h
  · exact sameOwner_withSeqCode h useCancel code

theorem within_resubmitJob {j : CreamJob} (h : SameOwner job j.toJobRow)
    (reason : Text) :
    Within (Quiet job) (fun _ => True) (resubmitJob j reason) := by
  unfold resubmitJob
  simp only [bind_eq, pure_eq]
  refine within_bind (within_ask trivial) fun off _ => ?_
  split
  · exact (within_ret ()).mpr trivial
  refine within_bind (within_ask trivial) fun proxyTimeEnd _ => ?_
  refine within_bind (within_ask trivial) fun t _ => ?_
  split
  · exact within_bind (within_logEvent h _ _ _) fun _ _ => trivial
  refine within_bind (within_logEvent h _ _ _) fun j₁ h₁ => ?_
  refine within_bind (within_logEvent h₁ _ _ _) fun j₂ h₂ => ?_
  refine within_bind (within_ask trivial) fun put _ => ?_
  cases put with
  | ok => exact within_bind (within_logEvent h₂ _ _ _) fun _ _ => trivial
  | error what =>
      refine within_bind (within_logEvent h₂ _ _ _) fun _ _ => ?_
      refine within_bind (within_logEvent ?_ _ _ _) fun _ _ => trivial
      exact h₂.trans ⟨rfl, rfl, rfl, rfl, rfl, rfl⟩

theorem within_aside {c : Call} (h : Aside c) :
    Within Aside (fun _ => True) (ask c) :=
  within_perform h fun _ => trivial

theorem within_asideDb {op : DbOp} (h : Aside (.db op)) :
    Within Aside (fun _ => True) (execDb op) :=
  within_aside h

theorem within_quiet {α : Type} {R : α → Prop} {p : IceProc α}
    (h : Within Aside R p) (job : JobRow) : Within (Quiet job) R p :=
  within_mono (fun _ hc => hc.quiet job) (fun _ h => h) h

/-! ## Proxies and delegations -/

section Managers

variable (lib : Libraries) (cfg : Config)

theorem within_setUserProxyIfLongerLegacy (dn prx : Text) (exptime : ℤ) :
    Within Aside (fun _ => True)
      (setUserProxyIfLongerLegacy lib cfg dn prx exptime) := by
  unfold setUserProxyIfLongerLegacy
  simp only [bind_eq, pure_eq]
  have hstore : ∀ row : ProxyRow, ∀ source target : Text,
      Within Aside (fun _ => True)
        ((ask (.copyProxy source target)).bind fun copied =>
          if copied = true then
            (execDb (.createProxyField row)).bind fun _ => ret true
          else ret false) := by
    intro row source target
    refine within_bind (within_aside trivial) fun copied _ => ?_
    split
    · exact within_bind (within_asideDb trivial) fun _ _ => trivial
    · trivial
  refine within_bind (within_asideDb trivial) fun info _ => ?_
  split
  · exact hstore _ _ _
  split
  · exact hstore _ _ _
  split
  · exact hstore _ _ _
  · trivial

theorem within_setBetterProxy (dn proxyfile myproxy : Text) (t n : ℤ) :
    Within Aside (fun _ => True)
      (setBetterProxy lib cfg dn proxyfile myproxy t n) := by
  unfold setBetterProxy
  simp only [bind_eq, pure_eq]
  refine within_bind (within_aside trivial) fun copied _ => ?_
  split
  · exact within_bind (within_asideDb trivial) fun _ _ => trivial
  · trivial

theorem within_updateBetterProxy (dn myproxy proxyfile : Text) (t : ℤ) :
    Within Aside (fun _ => True)
      (updateBetterProxy lib cfg dn myproxy proxyfile t) := by
  unfold updateBetterProxy
  simp only [bind_eq, pure_eq]
  refine within_bind (within_aside trivial) fun copied _ => ?_
  split
  · exact within_bind (within_asideDb trivial) fun _ _ => trivial
  · trivial

theorem within_incrementUserProxyCounter (j : CreamJob) (t : ℤ) :
    Within Aside (fun _ => True)
      (incrementUserProxyCounter lib cfg j t) := by
  unfold incrementUserProxyCounter
  simp only [bind_eq, pure_eq]
  refine within_bind (within_asideDb trivial) fun info _ => ?_
  split
  · exact within_bind (within_asideDb trivial) fun _ _ => trivial
  · exact within_setBetterProxy lib cfg _ _ _ _ _

theorem within_decrementUserProxyCounter (dn myproxy : Text) :
    Within Aside (fun _ => True)
      (decrementUserProxyCounter dn myproxy) := by
  unfold decrementUserProxyCounter
  simp only [bind_eq, pure_eq]
  refine within_bind (within_asideDb trivial) fun info _ => ?_
  split
  · trivial
  refine within_bind (within_asideDb trivial) fun _ _ => ?_
  split
  · refine within_bind (within_asideDb trivial) fun _ _ => ?_
    exact within_bind (within_asideDb trivial) fun _ _ => trivial
  · trivial

theorem within_newDelegation (j : CreamJob) (useNew : Bool) (digest : Text) :
    Within Aside (fun _ => True) (newDelegation j useNew digest) := by
  unfold newDelegation
  simp only [bind_eq, pure_eq]
  refine within_bind (within_aside trivial) fun id _ => ?_
  refine within_bind (within_aside trivial) fun t _ => ?_
  refine within_bind (within_aside trivial) fun r _ => ?_
  cases r with
  | error what => trivial
  | ok =>
      refine within_bind (within_asideDb trivial) fun created _ => ?_
      split
      · trivial
      · trivial

theorem within_delegate (j : CreamJob) (useNew force : Bool) :
    Within Aside (fun _ => True) (delegate j useNew force) := by
  unfold delegate delegationDigest
  simp only [bind_eq, pure_eq]
  refine within_bind (Q := fun _ => True) ?_ fun digest _ => ?_
  · split
    · trivial
    · exact within_aside trivial
  cases digest with
  | error what => trivial
  | ok digest =>
      refine within_bind (within_asideDb trivial) fun found _ => ?_
      cases found with
      | none => exact within_newDelegation _ _ _
      | some info =>
          dsimp only
          split
          · refine within_bind (within_asideDb trivial) fun _ _ => ?_
            exact within_newDelegation _ _ _
          · trivial

theorem within_redelegate (certfile url id : Text) :
    Within Aside (fun _ => True) (redelegate certfile url id) := by
  unfold redelegate
  simp only [bind_eq, pure_eq]
  refine within_bind (within_asideDb trivial) fun found _ => ?_
  split
  · exact within_bind (within_aside trivial) fun _ _ => trivial
  · trivial

/-! ## The command -/

theorem within_lengthenBetterProxy (j : CreamJob) (sbp : ProxyRow) :
    Within Aside (fun _ => True)
      (lengthenBetterProxy lib cfg j sbp) := by
  unfold lengthenBetterProxy
  split
  · exact within_updateBetterProxy lib cfg _ _ _ _
  · exact (within_ret true).mpr trivial

theorem within_refreshBetterProxy (j : CreamJob) (force : Bool) :
    Within Aside (fun _ => True)
      (refreshBetterProxy lib cfg j force) := by
  unfold refreshBetterProxy getExactBetterProxyByDN
  simp only [bind_eq, pure_eq]
  refine within_bind (within_asideDb trivial) fun info _ => ?_
  split
  · exact within_bind (within_setBetterProxy lib cfg _ _ _ _ _)
      fun _ _ => trivial
  · refine within_bind (within_lengthenBetterProxy lib cfg _ _) fun _ _ => ?_
    refine within_bind (within_asideDb trivial) fun deleg _ => ?_
    exact within_bind (within_aside trivial) fun _ _ => trivial

theorem within_forceDelegation (j : CreamJob) (force : Bool) :
    Within Aside (fun _ => True) (forceDelegation lib cfg j force) := by
  unfold forceDelegation
  split
  · exact within_refreshBetterProxy lib cfg _ _
  · exact (within_ret force).mpr trivial

theorem within_handleDelegation (j : CreamJob) (force : Bool) :
    Within Aside (fun _ => True) (handleDelegation lib cfg j force) := by
  unfold handleDelegation
  simp only [bind_eq, pure_eq]
  refine within_bind (within_forceDelegation lib cfg _ _) fun force' _ => ?_
  refine within_bind (within_delegate _ _ _) fun delegation _ => ?_
  cases delegation with
  | ok id => trivial
  | error what => trivial

theorem within_registerJob (j : CreamJob) (delegation leaseId : Text)
    (forced : Forced) :
    Within Aside (fun _ => True)
      (registerJob cfg j delegation leaseId forced) := by
  unfold registerJob
  simp only [bind_eq, pure_eq]
  refine within_bind (within_aside trivial) fun r _ => ?_
  cases r with
  | result r registered err => trivial
  | blackListFailJob what => trivial
  | gridProxyDelegation =>
      exact within_bind (within_redelegate _ _ _) fun _ _ => trivial
  | delegation what =>
      dsimp only
      split
      · trivial
      · trivial
  | generic what =>
      dsimp only
      split
      · trivial
      · trivial
  | base what => trivial
  | unknown => trivial

theorem within_registerLoop (j : CreamJob) (laps : ℕ) (forced : Forced) :
    Within Aside (fun _ => True)
      (registerLoop lib cfg j laps forced) := by
  induction laps generalizing forced with
  | zero => trivial
  | succ laps ih =>
      unfold registerLoop
      simp only [bind_eq, pure_eq]
      refine within_bind (within_handleDelegation lib cfg _ _) fun d _ => ?_
      refine within_bind (within_registerJob cfg _ _ _ _) fun r _ => ?_
      cases r with
      | error forced' => exact ih forced'
      | ok r =>
          refine within_bind (within_ofExcept fun _ _ => trivial)
            fun again _ => ?_
          cases again with
          | none => trivial
          | some forced' => exact ih forced'

theorem within_attempt {P : Call → Prop} {α : Type} {p : IceProc α}
    (h : Within P (fun _ => True) p) :
    Within P (fun _ => True) (attempt p) := by
  unfold attempt
  simp only [pure_eq]
  refine within_tryCatch (within_bind h fun _ _ => trivial) fun e => ?_
  split
  · trivial
  · trivial

theorem within_saveProxy (j : CreamJob) :
    Within Aside (fun _ => True) (saveProxy lib cfg j) := by
  unfold saveProxy
  split
  · exact within_incrementUserProxyCounter lib cfg _ _
  · exact within_setUserProxyIfLongerLegacy lib cfg _ _ _

theorem within_releaseProxy (j : CreamJob) :
    Within Aside (fun _ => True) (releaseProxy j) := by
  unfold releaseProxy
  simp only [bind_eq, pure_eq]
  split
  · exact within_bind (within_decrementUserProxyCounter _ _) fun _ _ => trivial
  · trivial

theorem within_handleFailure {j : CreamJob} (h : SameOwner job j.toJobRow)
    (e : Exception) :
    Within (Quiet job) (fun _ => True) (handleFailure j e) := by
  unfold handleFailure
  simp only [bind_eq, pure_eq]
  split
  · refine within_bind (within_logEvent h _ _ _) fun j₁ h₁ => ?_
    refine within_bind (within_logEvent ?_ _ _ _) fun j₂ _ => ?_
    · exact h₁.trans ⟨rfl, rfl, rfl, rfl, rfl, rfl⟩
    · exact within_bind (within_quiet (within_releaseProxy _) job) fun _ _ => trivial
  · refine within_bind (within_logEvent ?_ _ _ _) fun j₁ h₁ => ?_
    · exact h.trans ⟨rfl, rfl, rfl, rfl, rfl, rfl⟩
    refine within_bind (within_logEvent h₁ _ _ _) fun j₂ h₂ => ?_
    refine within_bind (within_resubmitJob h₂ _) fun _ _ => ?_
    exact within_bind (within_quiet (within_releaseProxy _) job) fun _ _ => trivial
  · refine within_bind (within_logEvent ?_ _ _ _) fun _ _ => trivial
    exact h.trans ⟨rfl, rfl, rfl, rfl, rfl, rfl⟩
  · trivial

end Managers

end Wms.Ice
