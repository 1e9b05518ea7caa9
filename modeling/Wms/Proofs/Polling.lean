import Mathlib.Data.List.Infix
import Wms.Proofs.Cleanup
import Wms.Proofs.Submission

/-!
# The status changes of a poll

The changes a poll has to apply are those at the positions after the ones that are
logged already, in their order, up to the first with which the job leaves the table.
A purge by CREAM is acted upon at any position. The loop of the poller is compared
with a run over just these changes: it makes the same calls, and goes on only where
something follows a change that has ended the job. A second poll with the same list
finds the row gone, or all its changes counted.
-/

namespace Wms.Ice.Upkeep

open Wms.Lib Wms.Ice Proc

/-! ## The changes to apply -/

/-- The job leaves the table with this change. -/
def leaves (status : JobStatus) : Bool := isTerminal status || status = .purged

/-- The changes up to the one with which the job leaves ICE. -/
def upToLeaving : List (StatusChange × ℕ) → List (StatusChange × ℕ)
  | [] => []
  | c :: cs => if leaves c.1.status then [c] else c :: upToLeaving cs

/-- Of changes whose positions begin with `count`, those after position `n`; a purge by
CREAM counts wherever it is. -/
def pending (n count : ℕ) (changes : List StatusChange) : List (StatusChange × ℕ) :=
  (changes.zipIdx count).filter fun c => n < c.2 || c.1.status = .purged

/-- The changes of a reply that are to be applied. -/
def due (n count : ℕ) (changes : List StatusChange) : List (StatusChange × ℕ) :=
  upToLeaving (pending n count changes)

/-- Something follows a change that has ended the job. -/
def Followed (n count : ℕ) (changes : List StatusChange) : Prop :=
  ∃ c, (due n count changes).getLast? = some c ∧ isTerminal c.1.status ∧
    due n count changes ≠ pending n count changes

/-- How a run over the changes to apply ends: at a change that is ignored, with the
job gone or not found, or with the job. -/
inductive Ending where
  | ignored
  | gone
  | through (job : CreamJob)

/-- Every change is stored, logged and handed on. One of a job that is to be ignored
is only stored, and the last. -/
def applyAll (purgeJobs : Bool) : CreamJob → List (StatusChange × ℕ) → UpkeepProc Ending
  | job, [] => pure (.through job)
  | job, (change, count) :: cs =>
      if change.status = .purged then (forget job).bind fun _ => pure .gone
      else do
        let job ← storeChange job count change
        if ← ignored job then pure .ignored
        else
          let job ← logChange job
          let _ ← resubmitOrPurgeJob purgeJobs job
          applyAll purgeJobs job cs

/-- The row is read, and the changes to apply are applied. -/
def applyDue (purgeJobs : Bool) (info : JobInfo) : UpkeepProc Ending := do
  match ← ice (execDb (.getJobByGid info.gridJobid)) with
  | none => pure .gone
  | some row =>
      applyAll purgeJobs (row.toCreamJob.setWorkerNode info.workerNode)
        (due row.numLoggedStatusChanges 1 info.statusChanges)

section Runs

variable (x : Site) (purgeJobs : Bool) (lb : Oracle AnyCall AnyAnswer)

/-- A poll that has counted some calls. -/
def pollAt (k : ℕ) (env : Env) (info : JobInfo) : Done Env Exception Unit :=
  exec (world x) lb k env (updateSingleJob purgeJobs false info)

/-- The changes that a poll applies. -/
def appliedAt (k : ℕ) (env : Env) (info : JobInfo) : Done Env Exception Ending :=
  exec (world x) lb k env (applyDue purgeJobs info)

/-- A poll applies what is to be applied. What it does with changes that follow the
end of the job is left open. -/
structure Polls (k : ℕ) (env : Env) (info : JobInfo) : Prop where
  applies : (appliedAt x purgeJobs lb k env info).state.effects <+:
    (pollAt x purgeJobs lb k env info).state.effects
  nothingElse :
    (∀ row, env.db.job? info.gridJobid = some row →
      ¬ Followed row.numLoggedStatusChanges 1 info.statusChanges) →
    (pollAt x purgeJobs lb k env info).state = (appliedAt x purgeJobs lb k env info).state
  again : info.statusChanges.length < 2 ^ 16 →
    (∀ a, (appliedAt x purgeJobs lb k env info).result = .ok a → a ≠ .ignored) →
    (pollAt x purgeJobs lb k env info).result = .ok () →
    ∀ lb' k', (pollAt x purgeJobs lb' k' (pollAt x purgeJobs lb k env info).state
      info).state = (pollAt x purgeJobs lb k env info).state
  stopped : (exec (world x) lb k env (updateSingleJob purgeJobs true info)).state = env

end Runs

/-! ## The loop and the changes to apply -/

theorem pending_cons (n count : ℕ) (c : StatusChange) (cs : List StatusChange) :
    pending n count (c :: cs) =
      if n < count ∨ c.status = .purged then (c, count) :: pending n (count + 1) cs
      else pending n (count + 1) cs := by
  unfold pending
  rw [List.zipIdx_cons, List.filter_cons]
  simp only [Bool.or_eq_true, decide_eq_true_eq]

/-- Positions after the first to come that is past `n` are all past it. -/
theorem pending_past {n count : ℕ} (h : n < count) (changes : List StatusChange) :
    pending n count changes = changes.zipIdx count := by
  refine List.filter_eq_self.mpr fun c hc => ?_
  have hle := List.le_snd_of_mem_zipIdx hc
  simp only [Bool.or_eq_true, decide_eq_true_eq]
  exact .inl (by omega)

/-- What is left of the changes after the last one to apply, and where it begins. -/
def leftOver (n : ℕ) : ℕ → List StatusChange → ℕ × List StatusChange
  | count, [] => (count, [])
  | count, c :: cs =>
      if (n < count ∨ c.status = .purged) ∧ leaves c.status then (count + 1, cs)
      else leftOver n (count + 1) cs

variable {x : Site} {purgeJobs : Bool}

/-- What the loop does after a run over the changes to apply. -/
def goOn (purgeJobs : Bool) (n count : ℕ) (changes : List StatusChange) :
    Ending → UpkeepProc Unit
  | .through job =>
      statusLoop purgeJobs (leftOver n count changes).1 job (leftOver n count changes).2
  | _ => pure ()

/-- The count a job has when a change has been stored. -/
theorem within_storeChange (job : CreamJob) (count : ℕ) (c : StatusChange) :
    Within (fun _ => True) (fun j => j.numLoggedStatusChanges = count % 2 ^ 16)
      (storeChange job count c) := by
  unfold storeChange
  refine within_bind (within_any _) fun _ _ => ?_
  exact within_bind (within_any _) fun _ _ => rfl

theorem num_withSeqCode (j : CreamJob) (useCancel : Bool) (code : Text) :
    (withSeqCode j useCancel code).numLoggedStatusChanges = j.numLoggedStatusChanges := by
  unfold withSeqCode
  split <;> rfl

/-- An event leaves everything of a job but its codes. -/
theorem within_logAnyEvent (event : LbEvent ⊕ StatusEvent) (j : CreamJob)
    (useCancel updatedb : Bool) :
    Within (fun _ => True) (fun j' => j' = j ∨
        ∃ code, j' = (withSeqCode j useCancel code).resetChangeFlags)
      (logAnyEvent event j useCancel updatedb) := by
  cases event with
  | inl e => exact within_lift (within_logEvent_of trivial fun _ _ => trivial)
  | inr e =>
      refine within_bind (within_any _) fun code _ => ?_
      cases code with
      | none => exact Or.inl rfl
      | some code => exact within_bind (within_any _) fun _ _ => Or.inr ⟨code, rfl⟩

theorem within_logChange (j : CreamJob) :
    Within (fun _ => True)
      (fun j' => j'.numLoggedStatusChanges = j.numLoggedStatusChanges) (logChange j) := by
  unfold logChange
  split
  · rfl
  · refine within_mono (fun _ h => h) ?_ (within_logAnyEvent _ _ _ _)
    rintro j' (rfl | ⟨code, rfl⟩)
    · rfl
    · exact num_withSeqCode j _ code

/-- A change that is stored, logged and handed on, and what comes after it. -/
def applyThen {α : Type} (purgeJobs : Bool) (job : CreamJob) (count : ℕ) (c : StatusChange)
    (stop : UpkeepProc α) (next : CreamJob → UpkeepProc α) : UpkeepProc α :=
  (storeChange job count c).bind fun job =>
    (ignored job).bind fun ignore =>
      if ignore then stop
      else (logChange job).bind fun job =>
        (resubmitOrPurgeJob purgeJobs job).bind fun _ => next job

theorem applyThen_bind {α β : Type} (job : CreamJob) (count : ℕ) (c : StatusChange)
    (stop : UpkeepProc α) (next : CreamJob → UpkeepProc α) (f : α → UpkeepProc β) :
    (applyThen purgeJobs job count c stop next).bind f =
      applyThen purgeJobs job count c (stop.bind f) fun job => (next job).bind f := by
  unfold applyThen
  rw [bind_bind]
  refine congrArg _ (funext fun job => ?_)
  rw [bind_bind]
  refine congrArg _ (funext fun ignore => ?_)
  cases ignore with
  | true => rfl
  | false =>
      show Proc.bind (Proc.bind _ _) _ = _
      rw [bind_bind]
      refine congrArg _ (funext fun job => ?_)
      rw [bind_bind]

/-- What comes after a change has to be known for a job that counts it only. -/
theorem applyThen_congr {α : Type} {job : CreamJob} {count : ℕ} {c : StatusChange}
    {stop : UpkeepProc α} {next next' : CreamJob → UpkeepProc α}
    (h : ∀ job, job.numLoggedStatusChanges = count % 2 ^ 16 → next job = next' job) :
    applyThen purgeJobs job count c stop next =
      applyThen purgeJobs job count c stop next' := by
  refine bind_congr (within_storeChange job count c) fun job hjob => ?_
  refine congrArg _ (funext fun ignore => ?_)
  cases ignore with
  | true => rfl
  | false =>
      refine bind_congr (within_logChange job) fun job' hjob' => ?_
      rw [h job' (hjob'.trans hjob)]

theorem applyAll_cons (job : CreamJob) {c : StatusChange} (count : ℕ)
    (cs : List (StatusChange × ℕ)) (h : c.status ≠ .purged) :
    applyAll purgeJobs job ((c, count) :: cs) =
      applyThen purgeJobs job count c (pure .ignored) fun job =>
        applyAll purgeJobs job cs := by
  rw [applyAll, if_neg h]
  rfl

theorem statusLoop_cons {job : CreamJob} {c : StatusChange} {count : ℕ}
    (cs : List StatusChange) (h : c.status ≠ .purged)
    (hcount : job.numLoggedStatusChanges < count) :
    statusLoop purgeJobs count job (c :: cs) =
      applyThen purgeJobs job count c (pure ()) fun job =>
        statusLoop purgeJobs (count + 1) job cs := by
  rw [statusLoop, if_neg h, if_pos hcount]
  rfl

theorem due_cons (n count : ℕ) (c : StatusChange) (cs : List StatusChange) :
    due n count (c :: cs) =
      if n < count ∨ c.status = .purged then
        if leaves c.status then [(c, count)] else (c, count) :: due n (count + 1) cs
      else due n (count + 1) cs := by
  unfold due
  rw [pending_cons]
  split
  · rfl
  · rfl

theorem goOn_leaving {n count : ℕ} {c : StatusChange} (cs : List StatusChange)
    (h : n < count ∨ c.status = .purged) (hleaves : leaves c.status) (job : CreamJob) :
    goOn purgeJobs n count (c :: cs) (.through job) =
      statusLoop purgeJobs (count + 1) job cs := by
  unfold goOn
  rw [leftOver, if_pos ⟨h, hleaves⟩]

theorem goOn_cons {n count : ℕ} {c : StatusChange} (cs : List StatusChange)
    (h : ¬ ((n < count ∨ c.status = .purged) ∧ leaves c.status)) :
    goOn purgeJobs n count (c :: cs) = goOn purgeJobs n (count + 1) cs := by
  funext e
  unfold goOn
  rw [leftOver, if_neg h]

theorem forget_bind (job : CreamJob) :
    (forget job).bind (fun _ => (ret () : UpkeepProc Unit)) = forget job := by
  unfold forget
  exact bind_bind _ _ _

/-- The loop makes the run over the changes to apply and goes on from there. A job in
it has counted no change that is still to come, unless these were counted before. -/
theorem statusLoop_eq (n count : ℕ) (job : CreamJob) (changes : List StatusChange)
    (h : ∀ i, count ≤ i → (job.numLoggedStatusChanges < i ↔ n < i)) :
    statusLoop purgeJobs count job changes =
      (applyAll purgeJobs job (due n count changes)).bind
        (goOn purgeJobs n count changes) := by
  induction changes generalizing count job with
  | nil => rfl
  | cons c cs ih =>
      by_cases hpurged : c.status = .purged
      · rw [due_cons, if_pos (.inr hpurged), if_pos (by rw [hpurged]; rfl), applyAll,
          statusLoop, if_pos hpurged, if_pos hpurged, bind_bind]
        exact (forget_bind job).symm
      by_cases hn : n < count
      · have hlater : ∀ job' : CreamJob, job'.numLoggedStatusChanges = count % 2 ^ 16 →
            ∀ i, count + 1 ≤ i → (job'.numLoggedStatusChanges < i ↔ n < i) := by
          intro job' hjob' i hi
          have hle := Nat.mod_le count (2 ^ 16)
          omega
        rw [statusLoop_cons cs hpurged ((h count le_rfl).mpr hn), due_cons,
          if_pos (.inl hn)]
        by_cases hleaves : leaves c.status
        · rw [if_pos hleaves, applyAll_cons job count _ hpurged, applyThen_bind]
          refine applyThen_congr fun job' _ => ?_
          exact (goOn_leaving cs (.inl hn) hleaves job').symm
        · rw [if_neg hleaves, applyAll_cons job count _ hpurged, applyThen_bind,
            goOn_cons cs fun hc => hleaves hc.2]
          exact applyThen_congr fun job' hjob' => ih (count + 1) job' (hlater job' hjob')
      · rw [statusLoop, if_neg hpurged, if_neg fun hc => hn ((h count le_rfl).mp hc), due_cons,
          if_neg fun hc => hc.elim hn hpurged,
          ih (count + 1) job fun i hi => h i (by omega),
          goOn_cons cs fun hc => hc.1.elim hn hpurged]

/-- Where nothing follows the end of the job, nothing is left. -/
theorem leftOver_eq_nil {n count : ℕ} {changes : List StatusChange}
    (hpurged : ∀ c ∈ due n count changes, c.1.status ≠ .purged)
    (h : ¬ Followed n count changes) : (leftOver n count changes).2 = [] := by
  induction changes generalizing count with
  | nil => rfl
  | cons c cs ih =>
      unfold Followed at h
      rw [due_cons] at hpurged h
      rw [pending_cons] at h
      rw [leftOver]
      by_cases hdue : n < count ∨ c.status = .purged
      · rw [if_pos hdue] at hpurged h
        rw [if_pos hdue] at h
        by_cases hleaves : leaves c.status
        · rw [if_pos ⟨hdue, hleaves⟩]
          rw [if_pos hleaves] at hpurged h
          have hne : c.status ≠ .purged := hpurged _ (List.mem_singleton_self _)
          have hterminal : isTerminal c.status := by
            simpa [leaves, hne] using hleaves
          by_contra hcs
          refine h ⟨_, rfl, hterminal, fun hsame => hcs ?_⟩
          rw [pending_past (by have := hdue.resolve_right hne; omega)] at hsame
          simpa using congrArg List.length hsame
        · rw [if_neg fun hc => hleaves hc.2]
          rw [if_neg hleaves] at hpurged h
          refine ih (fun c' hc' => hpurged c' (List.mem_cons_of_mem _ hc')) ?_
          rintro ⟨c', hlast, hterminal, hne⟩
          refine h ⟨c', ?_, hterminal, fun hsame => hne (List.cons.inj hsame).2⟩
          rw [List.getLast?_cons, hlast]
          rfl
      · rw [if_neg fun hc => hdue hc.1]
        rw [if_neg hdue] at hpurged h
        rw [if_neg hdue] at h
        exact ih hpurged h

/-- A run that comes through has met no purge by CREAM. -/
theorem within_applyAll (purgeJobs : Bool) (job : CreamJob) (cs : List (StatusChange × ℕ)) :
    Within (fun _ => True)
      (fun e => ∀ job', e = .through job' → ∀ c ∈ cs, c.1.status ≠ .purged)
      (applyAll purgeJobs job cs) := by
  induction cs generalizing job with
  | nil => exact fun _ _ c hc => absurd hc List.not_mem_nil
  | cons c cs ih =>
      obtain ⟨c, count⟩ := c
      by_cases hpurged : c.status = .purged
      · rw [applyAll, if_pos hpurged]
        refine within_bind (within_any _) fun _ _ => ?_
        intro job' h
        cases h
      · rw [applyAll_cons job count cs hpurged]
        refine within_bind (within_any _) fun j _ => within_bind (within_any _) fun b _ => ?_
        split
        · intro job' h
          cases h
        · refine within_bind (within_any _) fun j _ => within_bind (within_any _) fun _ _ => ?_
          refine within_mono (fun _ h => h) (fun e he job' h c' hc' => ?_) (ih j)
          rcases List.mem_cons.mp hc' with rfl | hmem
          · exact hpurged
          · exact he job' h c' hmem

/-- What has been done is never undone. -/
theorem effects_exec {α : Type} (lb : Oracle AnyCall AnyAnswer) (k : ℕ) (env : Env)
    (p : UpkeepProc α) :
    env.effects <+: (exec (world x) lb k env p).state.effects := by
  refine wp_exec_state (K := contract x) (I := fun e => env.effects <+: e.effects) lb
    (keeps_free _ _ _ _ _) (wp_of_callsOnly (P := fun _ => True) ?_
      (callsOnly_of_within (within_any p)) List.prefix_rfl)
  intro e c r _ he _
  refine ⟨trivial, he.trans ?_⟩
  have hrecord : ∀ c : AnyCall, e.effects <+: (e.record c).effects :=
    fun c => List.prefix_append _ _
  cases c with
  | inl c =>
      cases c with
      | db op =>
          show e.effects <+: (e.after op).effects
          unfold Env.after
          dsimp only
          split
          · exact List.prefix_rfl
          · exact List.prefix_append _ _
      | putRequest gid code =>
          show e.effects <+: (put x e gid code).effects
          unfold put
          split
          · exact hrecord _
          · exact List.prefix_rfl
      | time => exact List.prefix_rfl
      | noResubmit => exact List.prefix_rfl
      | proxyTimeEnd file => exact List.prefix_rfl
      | _ => exact hrecord _
  | inr c =>
      cases c with
      | log event job => exact hrecord _
      | deregisterProxy gid => exact hrecord _
      | creamPurge url proxy jobId => exact hrecord _
      | purgeStorage gid => exact hrecord _
      | _ => exact List.prefix_rfl

/-! ## A row that has gone -/

/-- The row of a job has gone. -/
def Vanished (gid : Text) (env : Env) : Prop := env.db.job? gid = none

/-- All calls but the one that makes an entry. -/
def Upkeeps : AnyCall → Prop
  | .inl (.db (.createJob _)) => False
  | _ => True

theorem vanished_run {gid : Text} {db : Db} {op : DbOp} (hop : Upkeeps (.inl (.db op)))
    (h : db.job? gid = none) : (db.run op).2.job? gid = none := by
  cases op with
  | createJob row => exact hop.elim
  | updateJob j token =>
      by_cases hgid : gid = j.gridJobid
      · subst hgid
        exact (Db.job?_updateJob db j token).trans (by rw [h]; rfl)
      · exact (db.jobs.find?_modify_ne (j.written token) (Db.written_gridJobid j token)
          hgid).trans h
  | removeJobByGid gid' =>
      by_cases hgid : gid = gid'
      · subst hgid
        exact Db.job?_removeJob db gid
      · exact (Table.find?_delete_ne _ hgid).trans h
  | _ =>
      refine (congrArg (fun t => Table.find? t gid) (jobs_run_of_aside ?_ db)).trans h
      trivial

theorem vanished_world {gid : Text} {env : Env} {c : AnyCall} {r : AnyAnswer c}
    (hc : Upkeeps c) (h : Vanished gid env) : Vanished gid (world x env c r).2 := by
  cases c with
  | inl c =>
      cases c with
      | db op => exact vanished_run hc h
      | putRequest gid' code =>
          show Vanished gid (put x env gid' code)
          unfold put
          split
          · exact h
          · exact h
      | _ => exact h
  | inr c => cases c <;> exact h

theorem wp_vanished {α : Type} {gid : Text} {env : Env} {p : UpkeepProc α}
    (hp : CallsOnly Upkeeps p) (h : Vanished gid env) :
    wp (contract x) (fun env' _ => Vanished gid env') (fun env' _ => Vanished gid env') env
      p :=
  wp_of_callsOnly (fun _ _ _ hc hs _ => ⟨trivial, vanished_world hc hs⟩) hp h

theorem within_iceAside {α : Type} {p : IceProc α} {Q : α → Prop}
    (h : Within Ice.Aside Q p) : Within Upkeeps (fun _ => True) (ice p) := by
  refine within_lift (within_mono (fun c hc => ?_) (fun _ _ => trivial) h)
  cases c with
  | db op => cases op <;> first | exact hc.elim | trivial
  | _ => trivial

theorem within_inquire (c : UpkeepCall) :
    Within Upkeeps (fun _ => True) (inquire c) := ⟨trivial, fun _ => trivial⟩

theorem within_updateJob (j : CreamJob) :
    Within Upkeeps (fun _ => True) (ice (updateJob j)) :=
  within_lift (within_updateJob_of fun _ => trivial)

theorem within_logEvent (event : LbEvent) (j : CreamJob) (useCancel updatedb : Bool) :
    Within (fun c => Upkeeps (.inl c)) (fun _ => True)
      (logEvent event j useCancel updatedb) :=
  within_mono (fun _ h => h) (fun _ _ => trivial)
    (within_logEvent_of trivial fun _ _ => trivial)

theorem within_resubmitJob (j : CreamJob) (reason : Text) :
    Within (fun c => Upkeeps (.inl c)) (fun _ => True) (resubmitJob j reason) := by
  unfold resubmitJob
  simp only [bind_eq, pure_eq]
  refine within_bind (within_perform trivial fun _ => trivial) fun off _ => ?_
  split
  · trivial
  refine within_bind (within_perform trivial fun _ => trivial) fun ends _ => ?_
  refine within_bind (Q := fun _ => True) ⟨trivial, fun _ => trivial⟩ fun t _ => ?_
  split
  · exact within_bind (within_logEvent _ _ _ _) fun _ _ => trivial
  refine within_bind (within_logEvent _ _ _ _) fun j₁ _ => ?_
  refine within_bind (within_logEvent _ _ _ _) fun j₂ _ => ?_
  refine within_bind (within_perform trivial fun _ => trivial) fun put _ => ?_
  cases put with
  | ok => exact within_bind (within_logEvent _ _ _ _) fun _ _ => trivial
  | error what =>
      refine within_bind (within_logEvent _ _ _ _) fun _ _ => ?_
      exact within_bind (within_logEvent _ _ _ _) fun _ _ => trivial

theorem within_purgeJob (purgeJobs : Bool) (j : CreamJob) :
    Within Upkeeps (fun _ => True) (purgeJob purgeJobs j) := by
  unfold purgeJob
  simp only [bind_eq, pure_eq]
  refine within_bind (within_inquire _) fun found _ => ?_
  split
  · split
    · refine within_bind (within_iceAside (within_asideDb trivial)) fun info _ => ?_
      refine within_bind (within_inquire _) fun valid _ => ?_
      split
      · exact within_inquire _
      · trivial
    · trivial
  · trivial

/-- The steps after the removal make no entry. -/
theorem within_resubmitIfFailed (j : CreamJob) :
    Within Upkeeps (fun _ => True) (resubmitIfFailed j) := by
  unfold resubmitIfFailed
  split
  · exact within_lift (within_resubmitJob j _)
  · trivial

theorem within_purgeIfTerminal (purgeJobs : Bool) (j : CreamJob) :
    Within Upkeeps (fun _ => True) (purgeIfTerminal purgeJobs j) := by
  unfold purgeIfTerminal
  split
  · exact within_purgeJob purgeJobs j
  · trivial

theorem within_purgeStorageIfCancelled (j : CreamJob) :
    Within Upkeeps (fun _ => True) (purgeStorageIfCancelled j) := by
  unfold purgeStorageIfCancelled
  split
  · exact within_inquire _
  · trivial

theorem within_deregisterIfEnded (j : CreamJob) :
    Within Upkeeps (fun _ => True) (deregisterIfEnded j) := by
  unfold deregisterIfEnded
  split
  · exact within_inquire _
  · trivial

theorem within_forget (j : CreamJob) : Within Upkeeps (fun _ => True) (forget j) :=
  within_bind (within_iceAside (within_releaseProxy j)) fun _ _ =>
    within_lift ⟨trivial, fun _ => trivial⟩

theorem within_removeIfTerminal (j : CreamJob) :
    Within Upkeeps (fun _ => True) (removeIfTerminal j) := by
  unfold removeIfTerminal
  split
  · exact within_forget j
  · trivial

theorem within_resubmitOrPurgeJob (purgeJobs : Bool) (j : CreamJob) :
    Within Upkeeps (fun _ => True) (resubmitOrPurgeJob purgeJobs j) :=
  within_bind (within_deregisterIfEnded j) fun _ _ =>
    within_bind (within_removeIfTerminal j) fun _ _ =>
    within_bind (within_resubmitIfFailed j) fun _ _ =>
    within_bind (within_purgeIfTerminal purgeJobs j) fun _ _ =>
    within_bind (within_purgeStorageIfCancelled j) fun _ _ => trivial

/-- The calls that decide whether a job is ignored. -/
def Looks : AnyCall → Prop
  | .inr (.getJobByCid _) | .inr (.tokenExists _) | .inr (.existsSubsequentToken _) => True
  | _ => False

theorem Looks.upkeeps {c : AnyCall} (h : Looks c) : Upkeeps c := by
  cases c with
  | inl c => exact h.elim
  | inr c => trivial

theorem Looks.world {c : AnyCall} (h : Looks c) (env : Env) (r : AnyAnswer c) :
    (world x env c r).2 = env := by
  cases c with
  | inl c => exact h.elim
  | inr c => cases c <;> first | rfl | exact h.elim

theorem looks_look (c : Option Bool) : Within Looks (fun _ => True) (look c) := by
  cases c <;> trivial

theorem looks_inquire {c : UpkeepCall} (h : Looks (.inr c)) :
    Within Looks (fun _ => True) (inquire c) := ⟨h, fun _ => trivial⟩

theorem looks_ignored (j : CreamJob) : Within Looks (fun _ => True) (ignored j) := by
  unfold ignored
  split
  · trivial
  unfold ignoreJob
  simp only [bind_eq, pure_eq]
  refine within_bind (looks_inquire trivial) fun found _ => ?_
  cases found with
  | none => trivial
  | some job =>
      dsimp only
      split
      · trivial
      split
      · trivial
      refine within_bind (looks_inquire trivial) fun found _ => ?_
      refine within_bind (looks_look _) fun b _ => ?_
      split
      · trivial
      · exact within_bind (looks_inquire trivial) fun _ _ => looks_look _

theorem within_ignored (j : CreamJob) : Within Upkeeps (fun _ => True) (ignored j) :=
  within_mono (fun _ h => h.upkeeps) (fun _ h => h) (looks_ignored j)

theorem within_insertStatOf (status : JobStatus) :
    Within Upkeeps (fun _ => True) (insertStatOf status) := by
  unfold insertStatOf
  split
  all_goals first | trivial | exact within_lift ⟨trivial, fun _ => trivial⟩

theorem within_storing (j : CreamJob) (count : ℕ) (c : StatusChange) :
    Within Upkeeps (fun _ => True) (storeChange j count c) :=
  within_bind (within_insertStatOf c.status) fun _ _ =>
    within_bind (within_updateJob _) fun _ _ => trivial

theorem within_logging (j : CreamJob) : Within Upkeeps (fun _ => True) (logChange j) := by
  unfold logChange
  split
  · trivial
  rename_i event _
  cases event with
  | inl e => exact within_lift (within_logEvent e j _ _)
  | inr e =>
      refine within_bind (within_inquire _) fun code _ => ?_
      cases code with
      | none => trivial
      | some code => exact within_bind (within_updateJob _) fun _ _ => trivial

theorem within_applyThen {α : Type} (j : CreamJob) (count : ℕ) (c : StatusChange)
    {stop : UpkeepProc α} {next : CreamJob → UpkeepProc α}
    (hstop : Within Upkeeps (fun _ => True) stop)
    (hnext : ∀ j, Within Upkeeps (fun _ => True) (next j)) :
    Within Upkeeps (fun _ => True) (applyThen purgeJobs j count c stop next) := by
  refine within_bind (within_storing j count c) fun j _ => ?_
  refine within_bind (within_ignored j) fun ignore _ => ?_
  split
  · exact hstop
  · exact within_bind (within_logging j) fun j _ =>
      within_bind (within_resubmitOrPurgeJob purgeJobs j) fun _ _ => hnext j

theorem upkeeps_applyAll (j : CreamJob) (cs : List (StatusChange × ℕ)) :
    CallsOnly Upkeeps (applyAll purgeJobs j cs) := by
  refine callsOnly_of_within (Q := fun _ => True) ?_
  induction cs generalizing j with
  | nil => trivial
  | cons c cs ih =>
      obtain ⟨c, count⟩ := c
      by_cases hpurged : c.status = .purged
      · rw [applyAll, if_pos hpurged]
        exact within_bind (within_forget j) fun _ _ => trivial
      · rw [applyAll_cons j count cs hpurged]
        exact within_applyThen j count c trivial ih

theorem upkeeps_statusLoop (count : ℕ) (j : CreamJob) (changes : List StatusChange) :
    CallsOnly Upkeeps (statusLoop purgeJobs count j changes) := by
  refine callsOnly_of_within (Q := fun _ => True) ?_
  induction changes generalizing count j with
  | nil => trivial
  | cons c cs ih =>
      by_cases hpurged : c.status = .purged
      · rw [statusLoop, if_pos hpurged]
        exact within_forget j
      by_cases hcount : j.numLoggedStatusChanges < count
      · rw [statusLoop_cons cs hpurged hcount]
        exact within_applyThen j count c trivial fun j => ih (count + 1) j
      · rw [statusLoop, if_neg hpurged, if_neg hcount]
        exact ih (count + 1) j

/-! ## What a poll leaves of a row -/

/-- The job in memory counts what its row counts, where that is still there. -/
structure Tracks (gid : Text) (env : Env) (j : CreamJob) : Prop where
  owner : j.gridJobid = gid
  token : j.changed .tokenFile = false
  count : ∀ row, env.db.job? gid = some row →
    row.numLoggedStatusChanges = j.numLoggedStatusChanges

theorem Tracks.of_db {gid : Text} {env env' : Env} {j : CreamJob} (h : Tracks gid env j)
    (hdb : env'.db = env.db) : Tracks gid env' j :=
  ⟨h.owner, h.token, by rw [hdb]; exact h.count⟩

/-- The row that is written counts what the job counts. -/
theorem count_updateJob {gid : Text} {db : Db} {j : CreamJob} (hgid : j.gridJobid = gid)
    (h : j.changed .numLoggedStatusChanges = false →
      ∀ row, db.job? gid = some row →
        row.numLoggedStatusChanges = j.numLoggedStatusChanges) :
    ∀ row, (db.updateJob j []).job? gid = some row →
      row.numLoggedStatusChanges = j.numLoggedStatusChanges := by
  intro row hrow
  subst hgid
  rw [Db.job?_updateJob] at hrow
  obtain ⟨old, hold, rfl⟩ := Option.map_eq_some_iff.mp hrow
  unfold CreamJob.written
  dsimp only
  split
  · rfl
  · rename_i hflag
    exact h (by simpa using hflag) old hold

/-- What follows the statement that writes a job whose token is not written. -/
theorem wp_written {α : Type} {Q : Env → α → Prop} {E : Env → Exception → Prop}
    {env : Env} {j : CreamJob} (htoken : j.changed .tokenFile = false) {k : Unit → UpkeepProc α}
    (h : wp (contract x) Q E (env.after (.updateJob j [])) (k ())) :
    wp (contract x) Q E env ((ice (updateJob j)).bind k) := by
  unfold updateJob CreamJob.writtenToken
  rw [htoken]
  exact fun _ _ => ⟨trivial, h⟩

theorem wp_insertStatOf {α : Type} {Q : Env → α → Prop} {E : Env → Exception → Prop}
    {env : Env} {status : JobStatus} {k : Unit → UpkeepProc α}
    (h : ∀ env', env'.db = env.db → wp (contract x) Q E env' (k ())) :
    wp (contract x) Q E env ((insertStatOf status).bind k) := by
  unfold insertStatOf
  split
  all_goals first
    | exact h env rfl
    | exact fun _ _ => ⟨trivial, h (env.after _) rfl⟩

theorem wp_storeChange {gid : Text} {env : Env} {j : CreamJob} (h : Tracks gid env j)
    (count : ℕ) (c : StatusChange) :
    wp (contract x)
      (fun env' j' => Tracks gid env' j' ∧ j'.numLoggedStatusChanges = count % 2 ^ 16 ∧
        j'.status = c.status)
      (fun _ _ => True) env (storeChange j count c) := by
  refine wp_insertStatOf fun env₁ hdb => ?_
  have htoken : (withChange j count c).changed .tokenFile = false := by
    simpa [withChange, CreamJob.setStatus, CreamJob.setExitCode, CreamJob.setFailureReason,
      CreamJob.setNumLoggedStatusChanges, CreamJob.touch] using h.token
  refine wp_written htoken ?_
  refine ⟨⟨h.owner, rfl, ?_⟩, rfl, rfl⟩
  refine count_updateJob h.owner fun hflag => ?_
  simp [withChange, CreamJob.setNumLoggedStatusChanges, CreamJob.touch] at hflag

theorem wp_ignored (env : Env) (j : CreamJob) :
    wp (contract x) (fun env' _ => env' = env) (fun env' _ => env' = env) env (ignored j) :=
  wp_of_callsOnly (I := (· = env))
    (fun _ _ r hc hs _ => ⟨trivial, (hc.world _ r).trans hs⟩)
    (callsOnly_of_within (looks_ignored j)) rfl

theorem tracks_withSeqCode {gid : Text} {env : Env} {j : CreamJob} (h : Tracks gid env j)
    (useCancel : Bool) (code : Text) : Tracks gid env (withSeqCode j useCancel code) := by
  unfold withSeqCode
  split
  · exact ⟨h.owner, h.token, h.count⟩
  · exact ⟨h.owner, h.token, h.count⟩

theorem status_withSeqCode (j : CreamJob) (useCancel : Bool) (code : Text) :
    (withSeqCode j useCancel code).status = j.status := by
  unfold withSeqCode
  split <;> rfl

/-- The job an event leaves, and its row. -/
structure LoggedAs (gid : Text) (env : Env) (j j' : CreamJob) : Prop where
  tracks : Tracks gid env j'
  count : j'.numLoggedStatusChanges = j.numLoggedStatusChanges
  status : j'.status = j.status

theorem wp_coded {gid : Text} {env : Env} {j : CreamJob} (h : Tracks gid env j)
    (useCancel : Bool) (code : Text) :
    wp (contract x) (fun env' j' => LoggedAs gid env' j j') (fun _ _ => True) env
      ((ice (updateJob (withSeqCode j useCancel code))).bind fun _ =>
        ret (withSeqCode j useCancel code).resetChangeFlags) := by
  have hcoded := tracks_withSeqCode h useCancel code
  refine wp_written hcoded.token ⟨⟨hcoded.owner, rfl, ?_⟩, num_withSeqCode j _ _,
    status_withSeqCode j _ _⟩
  exact count_updateJob hcoded.owner fun _ => hcoded.count

theorem wp_logAnyEvent {gid : Text} {env : Env} {j : CreamJob} (h : Tracks gid env j)
    (event : LbEvent ⊕ StatusEvent) (useCancel : Bool) :
    wp (contract x) (fun env' j' => LoggedAs gid env' j j') (fun _ _ => True) env
      (logAnyEvent event j useCancel true) := by
  cases event with
  | inl e =>
      refine fun code _ => ⟨trivial, ?_⟩
      cases code with
      | none => exact ⟨h.of_db rfl, rfl, rfl⟩
      | some code =>
          have hlogged : Tracks gid (env.record (.inl (.log e j.toJobRow))) j := h.of_db rfl
          show wp _ _ _ (env.record (.inl (.log e j.toJobRow)))
            ((updateJob (withSeqCode j useCancel code)).bind fun _ =>
              ret (withSeqCode j useCancel code).resetChangeFlags).lift
          rw [lift_bind]
          exact wp_coded hlogged useCancel code
  | inr e =>
      refine fun code _ => ⟨trivial, ?_⟩
      cases code with
      | none => exact ⟨h.of_db rfl, rfl, rfl⟩
      | some code =>
          have hlogged : Tracks gid (env.record (.inr (.log e j.toJobRow))) j := h.of_db rfl
          exact wp_coded hlogged useCancel code

theorem wp_logChange {gid : Text} {env : Env} {j : CreamJob} (h : Tracks gid env j) :
    wp (contract x) (fun env' j' => LoggedAs gid env' j j') (fun _ _ => True) env
      (logChange j) := by
  unfold logChange
  split
  · exact ⟨h, rfl, rfl⟩
  · exact wp_logAnyEvent h _ _

/-- A job that does not leave is handed on without effect. -/
theorem resubmitOrPurgeJob_eq {j : CreamJob} (h : isTerminal j.status = false) :
    resubmitOrPurgeJob purgeJobs j = pure false := by
  cases hst : j.status <;> rw [hst] at h
  all_goals first
    | exact absurd h (by decide)
    | simp [resubmitOrPurgeJob, deregisterIfEnded, removeIfTerminal, resubmitIfFailed,
        purgeIfTerminal, purgeStorageIfCancelled, hst, isTerminal]

theorem wp_removed {gid : Text} (env : Env) {j : CreamJob} (hgid : j.gridJobid = gid) :
    wp (contract x) (fun env' _ => Vanished gid env') (fun _ _ => True) env (forget j) := by
  unfold forget
  refine (wp_bind _ (ice _) _).mpr (wp_mono (fun env' _ _ => ?_) (fun _ _ _ => trivial)
    (wp_of_callsOnly (I := fun _ => True) (fun _ _ _ _ _ _ => ⟨trivial, trivial⟩)
      (callsOnly_of_within (within_any (ice (releaseProxy j)))) trivial))
  refine fun _ _ => ⟨trivial, ?_⟩
  subst hgid
  exact Db.job?_removeJob _ _

theorem wp_handOn {gid : Text} {env : Env} {j : CreamJob} (h : Tracks gid env j) :
    wp (contract x)
      (fun env' _ => if isTerminal j.status then Vanished gid env' else env' = env)
      (fun _ _ => True) env (resubmitOrPurgeJob purgeJobs j) := by
  cases hterminal : isTerminal j.status with
  | false =>
      rw [resubmitOrPurgeJob_eq hterminal]
      rfl
  | true =>
      have hany : wp (contract x) (fun _ _ => True) (fun _ _ => True) env
          (deregisterIfEnded j) :=
        wp_of_callsOnly (fun _ _ _ _ _ _ => ⟨trivial, trivial⟩)
          (callsOnly_of_within (within_any (deregisterIfEnded j))) trivial
      refine (wp_bind _ _ _).mpr (wp_mono (fun env₁ _ _ => ?_) (fun _ _ h => h) hany)
      have hremove : removeIfTerminal j = forget j := if_pos hterminal
      rw [bind_eq, hremove]
      refine (wp_bind _ _ _).mpr (wp_mono (fun env₂ _ h₂ => ?_) (fun _ _ h => h)
        (wp_removed env₁ h.owner))
      refine wp_mono (fun _ _ h => h) (fun _ _ _ => trivial) (wp_vanished ?_ h₂)
      refine callsOnly_of_within (Q := fun _ => True) ?_
      exact within_bind (within_resubmitIfFailed j) fun _ _ =>
        within_bind (within_purgeIfTerminal purgeJobs j) fun _ _ =>
        within_bind (within_purgeStorageIfCancelled j) fun _ _ => trivial

/-- The count of a job when a list of changes has been stored. -/
def lastCount (n : ℕ) (cs : List (StatusChange × ℕ)) : ℕ :=
  (cs.getLast?.map fun c => c.2 % 2 ^ 16).getD n

theorem lastCount_cons (n : ℕ) (c : StatusChange × ℕ) (cs : List (StatusChange × ℕ)) :
    lastCount n (c :: cs) = lastCount (c.2 % 2 ^ 16) cs := by
  unfold lastCount
  rw [List.getLast?_cons]
  cases cs.getLast? <;> rfl

/-- How a run that is not cut short leaves the row: it has gone, or all changes are
counted and none of them has ended the job. -/
def Settled (gid : Text) (n : ℕ) (cs : List (StatusChange × ℕ)) (env : Env) :
    Ending → Prop
  | .ignored => True
  | .gone => Vanished gid env
  | .through j => Vanished gid env ∨ (Tracks gid env j ∧
      j.numLoggedStatusChanges = lastCount n cs ∧ ∀ c ∈ cs, leaves c.1.status = false)

theorem Vanished.settled {gid : Text} {env : Env} (h : Vanished gid env) (n : ℕ)
    (cs : List (StatusChange × ℕ)) (e : Ending) : Settled gid n cs env e := by
  cases e with
  | ignored => trivial
  | gone => exact h
  | through j => exact .inl h

theorem wp_applyAll (purgeJobs : Bool) {gid : Text} {env : Env} {j : CreamJob}
    (h : Tracks gid env j)
    (cs : List (StatusChange × ℕ)) :
    wp (contract x) (fun env' e => Settled gid j.numLoggedStatusChanges cs env' e)
      (fun _ _ => True) env (applyAll purgeJobs j cs) := by
  induction cs generalizing env j with
  | nil => exact .inr ⟨h, rfl, fun _ hc => absurd hc List.not_mem_nil⟩
  | cons c cs ih =>
      obtain ⟨c, count⟩ := c
      by_cases hpurged : c.status = .purged
      · rw [applyAll, if_pos hpurged]
        exact (wp_bind _ _ _).mpr (wp_mono (fun _ _ h => h) (fun _ _ h => h)
          (wp_removed env h.owner))
      rw [applyAll_cons j count cs hpurged]
      refine (wp_bind _ _ _).mpr (wp_mono ?_ (fun _ _ h => h) (wp_storeChange h count c))
      rintro env₁ j₁ ⟨h₁, hcount₁, hstatus₁⟩
      refine (wp_bind _ _ _).mpr (wp_mono ?_ (fun _ _ _ => trivial) (wp_ignored env₁ j₁))
      rintro _ ignore rfl
      cases ignore with
      | true => trivial
      | false =>
          refine (wp_bind _ _ _).mpr (wp_mono ?_ (fun _ _ h => h) (wp_logChange h₁))
          intro env₂ j₂ h₂
          refine (wp_bind _ _ _).mpr (wp_mono ?_ (fun _ _ h => h) (wp_handOn h₂.tracks))
          intro env₃ _ h₃
          rw [h₂.status, hstatus₁] at h₃
          cases hterminal : isTerminal c.status with
          | true =>
              rw [hterminal] at h₃
              refine wp_mono (fun _ e h => h.settled _ _ e) (fun _ _ _ => trivial)
                (wp_vanished (upkeeps_applyAll j₂ cs) h₃)
          | false =>
              rw [hterminal] at h₃
              obtain rfl : env₃ = env₂ := h₃
              refine wp_mono (fun env' e he => ?_) (fun _ _ h => h) (ih h₂.tracks)
              cases e with
              | ignored => trivial
              | gone => exact he
              | through j' =>
                  refine he.imp_right fun ⟨htracks, hlast, hnone⟩ => ⟨htracks, ?_, ?_⟩
                  · rw [hlast, lastCount_cons, h₂.count, hcount₁]
                  · intro c' hc'
                    rcases List.mem_cons.mp hc' with rfl | hmem
                    · simp [leaves, hterminal, hpurged]
                    · exact hnone c' hmem

/-! ## The second poll -/

/-- Where nothing to apply makes the job leave, all of it is applied. -/
theorem due_eq_pending {n count : ℕ} {changes : List StatusChange}
    (h : ∀ c ∈ due n count changes, leaves c.1.status = false) :
    due n count changes = pending n count changes := by
  unfold due at h ⊢
  generalize pending n count changes = cs at h ⊢
  induction cs with
  | nil => rfl
  | cons c cs ih =>
      rw [upToLeaving] at h ⊢
      by_cases hleaves : leaves c.1.status
      · rw [if_pos hleaves] at h
        rw [h c (List.mem_singleton_self c)] at hleaves
        cases hleaves
      · rw [if_neg hleaves] at h ⊢
        rw [ih fun c' hc' => h c' (List.mem_cons_of_mem _ hc')]

/-- A job that has got through a list counts all of it. -/
theorem length_le_lastCount {n count m : ℕ} {changes : List StatusChange}
    (hlen : count + changes.length ≤ 2 ^ 16) (hn : n ≤ m) (hm : count ≤ m + 1)
    (h : ∀ c ∈ pending n count changes, leaves c.1.status = false) :
    count + changes.length ≤ lastCount m (pending n count changes) + 1 := by
  induction changes generalizing count m with
  | nil => exact hm
  | cons c cs ih =>
      rw [List.length_cons] at hlen ⊢
      rw [pending_cons] at h ⊢
      split
      · rename_i hpending
        rw [if_pos hpending] at h
        have hnot : c.status ≠ .purged := by
          intro hpurged
          have hleaves := h _ List.mem_cons_self
          rw [hpurged] at hleaves
          cases hleaves
        have hlt : n < count := hpending.resolve_right hnot
        rw [lastCount_cons]
        dsimp only
        rw [Nat.mod_eq_of_lt (by omega)]
        have hrest : count + 1 + cs.length ≤
            lastCount count (pending n (count + 1) cs) + 1 :=
          ih (by omega) (by omega) (by omega)
            fun c' hc' => h c' (List.mem_cons_of_mem _ hc')
        omega
      · rename_i hpending
        rw [if_neg hpending] at h
        have hle : count ≤ n := by
          by_contra hlt
          exact hpending (.inl (by omega))
        have hrest : count + 1 + cs.length ≤ lastCount m (pending n (count + 1) cs) + 1 :=
          ih (by omega) hn (by omega) h
        omega

theorem ne_purged_of_pending {n count : ℕ} {changes : List StatusChange}
    (h : ∀ c ∈ pending n count changes, leaves c.1.status = false) :
    ∀ c ∈ changes, c.status ≠ .purged := by
  intro c hc hpurged
  obtain ⟨i, hi⟩ : ∃ i, (c, i) ∈ changes.zipIdx count := by
    rw [← List.zipIdx_map_fst count changes] at hc
    obtain ⟨⟨c', i⟩, hi, rfl⟩ := List.mem_map.mp hc
    exact ⟨i, hi⟩
  have hleaves := h (c, i) (List.mem_filter.mpr ⟨hi, by simp [hpurged]⟩)
  rw [show leaves c.status = true by rw [hpurged]; rfl] at hleaves
  cases hleaves

/-- Changes that are all counted are passed over. -/
theorem statusLoop_counted {count : ℕ} {j : CreamJob} {changes : List StatusChange}
    (hcount : count + changes.length ≤ j.numLoggedStatusChanges + 1)
    (h : ∀ c ∈ changes, c.status ≠ .purged) :
    statusLoop purgeJobs count j changes = pure () := by
  induction changes generalizing count with
  | nil => rfl
  | cons c cs ih =>
      rw [List.length_cons] at hcount
      rw [statusLoop, if_neg (h c List.mem_cons_self), if_neg (by omega)]
      exact ih (by omega) fun c' hc' => h c' (List.mem_cons_of_mem _ hc')

variable {lb : Oracle AnyCall AnyAnswer}

/-- The row is read first. -/
theorem exec_read {α : Type} (k : ℕ) (env : Env) (gid : Text)
    (f : Option JobRow → UpkeepProc α) :
    exec (world x) lb k env ((ice (execDb (.getJobByGid gid))).bind f) =
      exec (world x) lb (k + 1) env (f (env.db.job? gid)) := rfl

theorem pollAt_none {env : Env} {info : JobInfo} (h : Vanished info.gridJobid env) (k : ℕ) :
    (pollAt x purgeJobs lb k env info).state = env := by
  unfold pollAt updateSingleJob
  rw [if_neg Bool.false_ne_true, bind_eq, exec_read,
    show env.db.job? info.gridJobid = none from h]
  rfl

theorem pollAt_some {env : Env} {info : JobInfo} {row : JobRow}
    (h : env.db.job? info.gridJobid = some row) (k : ℕ) :
    pollAt x purgeJobs lb k env info =
      exec (world x) lb (k + 1) env (statusLoop purgeJobs 1
        (row.toCreamJob.setWorkerNode info.workerNode) info.statusChanges) := by
  unfold pollAt updateSingleJob
  rw [if_neg Bool.false_ne_true, bind_eq, exec_read, h]

theorem appliedAt_none {env : Env} {info : JobInfo} (h : Vanished info.gridJobid env)
    (k : ℕ) : (appliedAt x purgeJobs lb k env info).state = env := by
  unfold appliedAt applyDue
  rw [bind_eq, exec_read, show env.db.job? info.gridJobid = none from h]
  rfl

theorem appliedAt_some {env : Env} {info : JobInfo} {row : JobRow}
    (h : env.db.job? info.gridJobid = some row) (k : ℕ) :
    appliedAt x purgeJobs lb k env info =
      exec (world x) lb (k + 1) env
        (applyAll purgeJobs (row.toCreamJob.setWorkerNode info.workerNode)
          (due row.numLoggedStatusChanges 1 info.statusChanges)) := by
  unfold appliedAt applyDue
  rw [bind_eq, exec_read, h]

/-- What a poll leaves for the next one with the same list: no row, or one that counts
all of the list. -/
def Quiescent (env : Env) (info : JobInfo) : Prop :=
  Vanished info.gridJobid env ∨
    ∃ row, env.db.job? info.gridJobid = some row ∧
      info.statusChanges.length ≤ row.numLoggedStatusChanges ∧
      ∀ c ∈ info.statusChanges, c.status ≠ .purged

theorem pollAt_quiescent {env : Env} {info : JobInfo} (h : Quiescent env info) (k : ℕ) :
    (pollAt x purgeJobs lb k env info).state = env := by
  rcases h with hgone | ⟨row, hrow, hcount, hpurged⟩
  · exact pollAt_none hgone k
  · rw [pollAt_some hrow, statusLoop_counted ?_ hpurged]
    · rfl
    · show 1 + _ ≤ row.numLoggedStatusChanges + 1
      omega

/-- A poll is the run over the changes to apply, and what the loop does after it. -/
theorem pollAt_cases {env : Env} {info : JobInfo} {row : JobRow}
    (h : env.db.job? info.gridJobid = some row) (k : ℕ) :
    (∃ e, (pollAt x purgeJobs lb k env info).result = .error e ∧
        (pollAt x purgeJobs lb k env info).state =
          (appliedAt x purgeJobs lb k env info).state) ∨
      ∃ e k', (appliedAt x purgeJobs lb k env info).result = .ok e ∧
        pollAt x purgeJobs lb k env info =
          exec (world x) lb k' (appliedAt x purgeJobs lb k env info).state
            (goOn purgeJobs row.numLoggedStatusChanges 1 info.statusChanges e) := by
  rw [pollAt_some h, appliedAt_some h,
    statusLoop_eq row.numLoggedStatusChanges 1 _ _ fun _ _ => Iff.rfl, exec_bind]
  generalize exec (world x) lb (k + 1) env _ = spec
  obtain ⟨result, calls, state⟩ := spec
  cases result with
  | error e => exact .inl ⟨e, rfl, rfl⟩
  | ok e => exact .inr ⟨e, calls, rfl, rfl⟩

/-- What is known of the run over the changes to apply when it has ended. -/
theorem applied_ends {env : Env} {info : JobInfo} {row : JobRow}
    (h : env.db.job? info.gridJobid = some row) {k : ℕ} {e : Ending}
    (he : (appliedAt x purgeJobs lb k env info).result = .ok e) :
    Settled info.gridJobid row.numLoggedStatusChanges
        (due row.numLoggedStatusChanges 1 info.statusChanges)
        (appliedAt x purgeJobs lb k env info).state e ∧
      ∀ j, e = .through j →
        ∀ c ∈ due row.numLoggedStatusChanges 1 info.statusChanges, c.1.status ≠ .purged := by
  rw [appliedAt_some h] at he ⊢
  have htracks : Tracks info.gridJobid env (row.toCreamJob.setWorkerNode info.workerNode) := by
    refine ⟨(Table.find?_eq_some_iff.mp h).2, rfl, fun row' hrow' => ?_⟩
    rw [h] at hrow'
    cases hrow'
    rfl
  have hsettled := wp_exec (K := contract x) lb (keeps_free _ _ (k + 1) _ _)
    (wp_applyAll purgeJobs htracks (due row.numLoggedStatusChanges 1 info.statusChanges))
  have hpurged := wp_exec (K := contract x) lb (keeps_free _ _ (k + 1) env _)
    (wp_of_within (I := fun _ => True) (fun _ _ _ _ _ _ => ⟨trivial, trivial⟩)
      (within_applyAll purgeJobs
        (row.toCreamJob.setWorkerNode info.workerNode)
        (due row.numLoggedStatusChanges 1 info.statusChanges)) (throws_any _) trivial)
  have hworld : (contract x).world = world x := rfl
  rw [hworld, he] at hsettled hpurged
  exact ⟨hsettled, hpurged.2⟩

/-- After a run that has come through without end the loop has nothing left to do. -/
theorem goOn_through {n : ℕ} {changes : List StatusChange} (j : CreamJob)
    (hpurged : ∀ c ∈ due n 1 changes, c.1.status ≠ .purged)
    (h : ¬ Followed n 1 changes) : goOn purgeJobs n 1 changes (.through j) = pure () := by
  unfold goOn
  rw [leftOver_eq_nil hpurged h]
  rfl

theorem not_followed {n : ℕ} {changes : List StatusChange}
    (h : ∀ c ∈ due n 1 changes, leaves c.1.status = false) : ¬ Followed n 1 changes := by
  rintro ⟨c, -, -, hne⟩
  exact hne (due_eq_pending h)

/-- A run over the changes to apply leaves the row to rest. -/
theorem quiescent_of_settled {env : Env} {info : JobInfo} {n : ℕ} {j : CreamJob}
    (hlen : info.statusChanges.length < 2 ^ 16) (htracks : Tracks info.gridJobid env j)
    (hlast : j.numLoggedStatusChanges = lastCount n (due n 1 info.statusChanges))
    (hnone : ∀ c ∈ due n 1 info.statusChanges, leaves c.1.status = false) :
    Quiescent env info := by
  have hpending := due_eq_pending hnone
  rw [hpending] at hlast hnone
  cases hrow : env.db.job? info.gridJobid with
  | none => exact .inl hrow
  | some row =>
      refine .inr ⟨row, hrow, ?_, ne_purged_of_pending hnone⟩
      have hcount := length_le_lastCount (m := n) (by omega) le_rfl (by omega) hnone
      rw [htracks.count row hrow, hlast]
      omega

/-- A poll applies the changes it has to, in order, up to the end of the job, and a second
one with the same list finds nothing to do. -/
theorem polls (x : Site) (purgeJobs : Bool) (lb : Oracle AnyCall AnyAnswer) (k : ℕ)
    (env : Env) (info : JobInfo) : Polls x purgeJobs lb k env info := by
  cases hrow : env.db.job? info.gridJobid with
  | none =>
      have hpoll : (pollAt x purgeJobs lb k env info).state = env := pollAt_none hrow k
      refine ⟨?_, fun _ => hpoll.trans (appliedAt_none hrow k).symm,
        fun _ _ _ lb' k' => ?_, rfl⟩
      · rw [hpoll, appliedAt_none hrow k]
      · rw [hpoll]
        exact pollAt_none hrow k'
  | some row =>
      rcases pollAt_cases hrow k with
        ⟨e, hresult, hstate⟩ | ⟨e, calls, hresult, hpoll⟩
      · refine ⟨by rw [hstate], fun _ => hstate, fun _ _ hok => ?_, rfl⟩
        rw [hresult] at hok
        cases hok
      obtain ⟨hsettled, hpurged⟩ := applied_ends hrow hresult
      refine ⟨?_, fun hnot => ?_,
        fun hlen hignored _ lb' k' => pollAt_quiescent ?_ k', rfl⟩
      · rw [hpoll]
        exact effects_exec lb calls _ _
      · rw [hpoll]
        cases e with
        | ignored => rfl
        | gone => rfl
        | through j =>
            rw [goOn_through j (hpurged j rfl) (hnot row hrow)]
            rfl
      · rw [hpoll]
        cases e with
        | ignored => exact absurd rfl (hignored _ hresult)
        | gone => exact .inl hsettled
        | through j =>
            rcases hsettled with hgone | ⟨htracks, hlast, hnone⟩
            · exact .inl (wp_exec_state (K := contract x) lb (keeps_free _ _ _ _ _)
                (wp_vanished (upkeeps_statusLoop _ _ _) hgone))
            · rw [goOn_through j (hpurged j rfl) (not_followed hnone)]
              exact quiescent_of_settled hlen htracks hlast hnone

/-! ## What is logged -/

/-- The events that have been logged. -/
def loggedEvents (env : Env) : List (LbEvent ⊕ StatusEvent) :=
  env.effects.filterMap fun
    | .inl (.log event _) => some (.inl event)
    | .inr (.log event _) => some (.inr event)
    | _ => none

theorem loggedEvents_record (env : Env) (c : AnyCall) :
    loggedEvents (env.record c) =
      loggedEvents env ++ loggedEvents { env with effects := [c] } := by
  unfold loggedEvents Env.record
  rw [List.filterMap_append]

theorem loggedEvents_after (env : Env) (op : DbOp) :
    loggedEvents (env.after op) = loggedEvents env := by
  unfold loggedEvents Env.after
  cases isQuery op with
  | true => rfl
  | false =>
      rw [if_neg Bool.false_ne_true, List.filterMap_append]
      exact List.append_nil _

/-- There is no event for a job that does not run yet, and none for one that CREAM
has purged or does not know. -/
theorem mkEvent_eq_none_iff {j : CreamJob} {forceDonefailed : Bool} :
    mkEvent j forceDonefailed = none ↔
      j.status ∈ [.registered, .pending, .idle, .purged, .unknown] := by
  unfold mkEvent
  cases j.status with
  | _ => simp

theorem wp_coding {env : Env} {j : CreamJob} (htoken : j.changed .tokenFile = false)
    (useCancel : Bool) (code : Text) :
    wp (contract x) (fun env' _ => loggedEvents env' = loggedEvents env) (fun _ _ => False) env
      ((ice (updateJob (withSeqCode j useCancel code))).bind fun _ =>
        ret (withSeqCode j useCancel code).resetChangeFlags) := by
  refine wp_written ?_ (loggedEvents_after env _)
  unfold withSeqCode
  split
  · exact htoken
  · exact htoken

/-- A change is logged once, as the event of its status, if there is one. -/
theorem loggedEvents_logChange {env : Env} {j : CreamJob}
    (htoken : j.changed .tokenFile = false) :
    wp (contract x)
      (fun env' _ => loggedEvents env' = loggedEvents env ++ (mkEvent j true).toList)
      (fun _ _ => False) env (logChange j) := by
  unfold logChange
  split
  · next hnone =>
      rw [hnone]
      exact (List.append_nil _).symm
  · next event hevent =>
      rw [hevent]
      cases event with
      | inl e =>
          refine fun code _ => ⟨trivial, ?_⟩
          have hrecord : loggedEvents (env.record (.inl (.log e j.toJobRow))) =
              loggedEvents env ++ [.inl e] := loggedEvents_record env _
          cases code with
          | none => exact hrecord
          | some code =>
              show wp _ _ _ (env.record (.inl (.log e j.toJobRow)))
                ((updateJob (withSeqCode j _ code)).bind fun _ =>
                  ret (withSeqCode j _ code).resetChangeFlags).lift
              rw [lift_bind]
              refine wp_mono ?_ (fun _ _ h => h) (wp_coding htoken _ code)
              exact fun env' _ h => h.trans hrecord
      | inr e =>
          refine fun code _ => ⟨trivial, ?_⟩
          have hrecord : loggedEvents (env.record (.inr (.log e j.toJobRow))) =
              loggedEvents env ++ [.inr e] := loggedEvents_record env _
          cases code with
          | none => exact hrecord
          | some code =>
              refine wp_mono ?_ (fun _ _ h => h) (wp_coding htoken _ code)
              exact fun env' _ h => h.trans hrecord

def startedRow : JobRow :=
  { doneRow with status := .idle, numLoggedStatusChanges := 1 }

/-- A job that is held for a while and ends well. -/
example : loggedEvents (pollAt fairSite true (fun _ => unlogged) 0
      { db := Db.createJob {} startedRow }
      { gridJobid := "job".toList, workerNode := "node".toList
        statusChanges := [{ status := .idle }, { status := .running }, { status := .held },
          { status := .running }, { status := .reallyRunning },
          { status := .doneOk }] }).state =
    [.inr .jobRunning, .inr .jobSuspended, .inr .jobResumed, .inr .jobReallyRunning,
      .inr .jobDoneOk] := by decide +kernel

/-! ## A job that is to be ignored -/

/-- Every change is stored, logged and handed on, whatever the tokens say. -/
def applyEach (purgeJobs : Bool) : CreamJob → List (StatusChange × ℕ) → UpkeepProc Unit
  | _, [] => pure ()
  | job, (change, count) :: cs =>
      if change.status = .purged then forget job
      else do
        let job ← storeChange job count change
        let job ← logChange job
        let _ ← resubmitOrPurgeJob purgeJobs job
        applyEach purgeJobs job cs

/-- The same for the changes after those that are logged, and no others. -/
def applyNew (purgeJobs : Bool) (info : JobInfo) : UpkeepProc Unit := do
  match ← ice (execDb (.getJobByGid info.gridJobid)) with
  | none => pure ()
  | some row =>
      applyEach purgeJobs (row.toCreamJob.setWorkerNode info.workerNode)
        (upToLeaving ((info.statusChanges.zipIdx 1).filter fun c =>
          row.numLoggedStatusChanges < c.2))

/-- A poll applies each new change, and a second one nothing. -/
structure PollsEach (x : Site) (purgeJobs : Bool) (lb : Oracle AnyCall AnyAnswer) (env : Env)
    (info : JobInfo) : Prop where
  applies : (pollAt x purgeJobs lb 0 env info).state =
    (exec (world x) lb 0 env (applyNew purgeJobs info)).state
  again : ∀ k, (pollAt x purgeJobs lb k (pollAt x purgeJobs lb 0 env info).state info).state =
    (pollAt x purgeJobs lb 0 env info).state

/-- The token of the job is gone, and there is a later one. -/
def reschedulingSite : Site :=
  { fairSite with
    tokenExists := fun _ => some false
    existsSubsequentToken := fun _ => some true }

def runningRow : JobRow :=
  { doneRow with
    status := .running
    completeCreamJobid := "ce/CREAM1".toList
    tokenFile := "/sandbox/token.txt_0".toList }

theorem not_pollsEach_rescheduled :
    ¬ PollsEach reschedulingSite true (fun _ => unlogged) { db := Db.createJob {} runningRow }
      { gridJobid := "job".toList, workerNode := "node".toList
        statusChanges := [{ status := .doneOk }] } := by
  intro h
  have hlength := congrArg (fun env : Env => env.effects.length) h.applies
  revert hlength
  decide +kernel

end Wms.Ice.Upkeep
