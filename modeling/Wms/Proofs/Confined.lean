import Wms.Proofs.Dirmanager

/-!
# The runs of the directory manager

One argument after another, and one fact about each: something is changed for
it exactly when it passes and the first change is not refused, and then it is
changed where its path leads. So the changes of a run are inside exactly when
these paths lead inside, and the owner of what existed is never in question.

A run that ends well has left everything right that passed. What was skipped
it has left as it was, and for that the run ends with status zero all the
same. A skipped argument may be made right by a later one, a link that is named
before its target for instance; so the equivalence speaks of the arguments as
far as a run has come.
-/

namespace Wms.Dirmanager

open Wms.Lib Wms.Lib.Proc

section
variable {pl : Platform} {job : Job}

/-! ## All arguments -/

variable (pl job) (o : Oracle Call Answer)

/-- One argument in a complete run. -/
structure Handled (pl : Platform) (job : Job) (m : Machine) (dir : Text)
    (d : Done Machine ℕ Unit) : Prop where
  settled : ∀ u, d.result = .ok u → Settled pl job m dir d.state
  stopped : ∀ status, d.result = .error status →
    Stopped pl m dir d.state status

theorem handled_exec (n : ℕ) (m : Machine) (dir : Text) :
    Handled pl job m dir (exec (world pl) o n m (handle job dir)) := by
  have hpost := wp_exec o (keeps_free (world pl) o n m (handle job dir))
    (wp_handle m dir)
  have hfree : (Contract.free (world pl)).world = world pl := rfl
  rw [hfree] at hpost
  constructor
  · intro u hres
    rw [hres] at hpost
    exact hpost
  · intro status hres
    rw [hres] at hpost
    exact hpost

theorem exec_handleAll_cons (n : ℕ) (m : Machine) (dir : Text)
    (dirs : List Text) :
    exec (world pl) o n m (handleAll job (dir :: dirs)) =
      match exec (world pl) o n m (handle job dir) with
      | ⟨.ok _, n', m'⟩ => exec (world pl) o n' m' (handleAll job dirs)
      | ⟨.error status, n', m'⟩ => ⟨.error status, n', m'⟩ := by
  refine (exec_bind (world pl) o n m (handle job dir)
    fun _ => handleAll job dirs).trans ?_
  rcases exec (world pl) o n m (handle job dir) with ⟨_ | _, n', m'⟩ <;> rfl

/-- The first argument of a run and the rest of it. -/
theorem visits_cons (n : ℕ) (m : Machine) (dir : Text) (dirs : List Text) :
    visits pl job o n m (dir :: dirs) =
      ⟨n, m, dir, (exec (world pl) o n m (handle job dir)).state⟩ ::
        match (exec (world pl) o n m (handle job dir)).result with
        | .ok _ => visits pl job o
            (exec (world pl) o n m (handle job dir)).calls
            (exec (world pl) o n m (handle job dir)).state dirs
        | .error _ => [] :=
  rfl

/-- What was changed for the argument of a visit. -/
def Changed (v : Visit) : Prop :=
  judge pl v.before.fs v.dir = .passes ∧
    begins pl job o v.number v.before.fs v.dir = true

/-- What a run leaves, from an argument on. -/
structure Ran (pl : Platform) (job : Job) (o : Oracle Call Answer)
    (fs : FileSystem) (m : Machine) (dirs : List Text) (vs : List Visit)
    (d : Done Machine ℕ Unit) : Prop where
  /-- Every change is one of an argument. -/
  origin : ∀ change ∈ d.state.changes, change ∈ m.changes ∨
    ∃ v ∈ vs, Changed pl job o v ∧
      destination pl v.before.fs v.dir = .ok change.place ∧
      ∀ node, fs.inodes[change.place.inode]? = some node →
        pl.gliteUid = some node.uid
  /-- Every argument for which something is changed has a change. -/
  result : ∀ v ∈ vs, Changed pl job o v →
    ∃ change ∈ d.state.changes,
      destination pl v.before.fs v.dir = .ok change.place
  kept : ∀ change ∈ m.changes, change ∈ d.state.changes
  status : d.result ≠ .error 0
  settled : d.result = .ok () → Grows job m.fs d.state.fs ∧
    (∀ dir ∈ dirs, ∃ v ∈ vs, v.dir = dir) ∧
    ∀ v ∈ vs, Grows job v.before.fs d.state.fs ∧
      judge pl v.before.fs v.dir ≠ .ends ∧
      (judge pl v.before.fs v.dir = .passes → Right pl job d.state.fs v.dir)

/-- The changes of one argument, seen from the run. -/
theorem origin_handle {fs : FileSystem} {n : ℕ} {m m' : Machine} {dir : Text}
    (hfs : Grows job fs m.fs)
    (hm' : m' = (exec (world pl) o n m (handle job dir)).state)
    (h : Touched pl m dir m') :
    (∀ change ∈ m'.changes, change ∈ m.changes ∨
      Changed pl job o ⟨n, m, dir, m'⟩ ∧
        destination pl m.fs dir = .ok change.place ∧
        ∀ node, fs.inodes[change.place.inode]? = some node →
          pl.gliteUid = some node.uid) ∧
    (Changed pl job o ⟨n, m, dir, m'⟩ → ∃ change ∈ m'.changes,
      destination pl m.fs dir = .ok change.place) ∧
    ∀ change ∈ m.changes, change ∈ m'.changes := by
  have hchanged : m'.changes ≠ m.changes ↔ Changed pl job o ⟨n, m, dir, m'⟩ := by
    rw [hm']
    exact changed_handle
  obtain ⟨new, heq, hnew⟩ := h
  rw [heq] at hchanged ⊢
  refine ⟨fun change hc => ?_, fun hc => ?_, fun change hc => ?_⟩
  · rcases List.mem_append.mp hc with hc | hc
    · exact .inl hc
    · refine .inr ⟨hchanged.mp fun hsame => ?_, (hnew change hc).1, ?_⟩
      · rw [List.append_right_eq_self.mp hsame] at hc
        cases hc
      · intro node hn
        obtain ⟨node', hn', _, huid, _⟩ := hfs _ node hn
        rw [← huid]
        exact (hnew change hc).2 node' hn'
  · cases new with
    | nil => exact absurd (List.append_nil _) (hchanged.mpr hc)
    | cons change new =>
        exact ⟨change, List.mem_append_right _ List.mem_cons_self,
          (hnew change List.mem_cons_self).1⟩
  · exact List.mem_append_left _ hc

theorem ran_handleAll {fs : FileSystem} {n : ℕ} {m : Machine}
    (hfs : Grows job fs m.fs) (dirs : List Text) :
    Ran pl job o fs m dirs (visits pl job o n m dirs)
      (exec (world pl) o n m (handleAll job dirs)) := by
  induction dirs generalizing n m with
  | nil =>
      refine ⟨fun change hc => .inl hc, fun v hv => ?_, fun _ h => h,
        fun h => (by cases h), fun _ => ⟨.refl _, fun _ h => ?_, fun v hv => ?_⟩⟩
      · cases hv
      · cases h
      · cases hv
  | cons dir dirs ih =>
      have hhandle := handled_exec pl job o n m dir
      rw [exec_handleAll_cons, visits_cons]
      cases hd : exec (world pl) o n m (handle job dir) with
      | mk result n' m' =>
          rw [hd] at hhandle
          have hm' : m' = (exec (world pl) o n m (handle job dir)).state := by
            rw [hd]
          cases result with
          | error status =>
              have hstopped := hhandle.stopped status rfl
              obtain ⟨horigin, hresult, hkept⟩ :=
                origin_handle pl job o hfs hm' hstopped.touched
              refine ⟨fun change hc => ?_, fun v hv => ?_, hkept,
                fun h => hstopped.status (Except.error.inj h),
                fun h => by cases h⟩
              · exact (horigin change hc).imp_right fun h =>
                  ⟨_, List.mem_cons_self, h⟩
              · rw [List.mem_singleton] at hv
                rw [hv]
                exact hresult
          | ok u =>
              have hsettled := hhandle.settled u rfl
              obtain ⟨horigin, hresult, hkept⟩ :=
                origin_handle pl job o hfs hm' hsettled.touched
              have hrest := ih (n := n') (hfs.trans hsettled.grows)
              refine ⟨fun change hc => ?_, fun v hv hchanged => ?_,
                fun change hc => ?_, hrest.status, fun hres => ?_⟩
              · rcases hrest.origin change hc with hc | ⟨v, hv, hrest⟩
                · exact (horigin change hc).imp_right fun h =>
                    ⟨_, List.mem_cons_self, h⟩
                · exact .inr ⟨v, List.mem_cons_of_mem _ hv, hrest⟩
              · rcases List.mem_cons.mp hv with rfl | hv
                · obtain ⟨change, hc, hdest⟩ := hresult hchanged
                  exact ⟨change, hrest.kept change hc, hdest⟩
                · exact hrest.result v hv hchanged
              · exact hrest.kept change (hkept change hc)
              · obtain ⟨hgrow, hall, hvisits⟩ := hrest.settled hres
                refine ⟨hsettled.grows.trans hgrow, fun dir' hdir' => ?_,
                  fun v hv => ?_⟩
                · rcases List.mem_cons.mp hdir' with rfl | hdir'
                  · exact ⟨_, List.mem_cons_self, rfl⟩
                  · obtain ⟨v, hv, heqv⟩ := hall dir' hdir'
                    exact ⟨v, List.mem_cons_of_mem _ hv, heqv⟩
                · rcases List.mem_cons.mp hv with rfl | hv
                  · exact ⟨hsettled.grows.trans hgrow, hsettled.goesOn,
                      fun hp => right_grows (hsettled.passed hp) hgrow⟩
                  · exact hvisits v hv

/-- A run over the arguments up to one that is skipped ends there. -/
theorem exec_upTo_skipped {n : ℕ} {m : Machine} {dirs : List Text} {v : Visit}
    (hv : v ∈ visits pl job o n m dirs)
    (hskipped : judge pl v.before.fs v.dir = .skipped) :
    ∃ before, before <+: dirs ∧ v.dir ∈ before ∧
      (exec (world pl) o n m (handleAll job before)).result = .ok () ∧
      (exec (world pl) o n m (handleAll job before)).state = v.before := by
  induction dirs generalizing n m with
  | nil => cases hv
  | cons dir dirs ih =>
      have hhandle := handled_exec pl job o n m dir
      rw [visits_cons] at hv
      cases hd : exec (world pl) o n m (handle job dir) with
      | mk result n' m' =>
          rw [hd] at hhandle hv
          rcases List.mem_cons.mp hv with rfl | hv
          · refine ⟨[dir], List.prefix_append [dir] dirs, List.mem_singleton_self _, ?_⟩
            rw [exec_handleAll_cons, hd]
            cases result with
            | error status =>
                exact absurd hskipped (hhandle.stopped status rfl).unskipped
            | ok u =>
                exact ⟨rfl, (hhandle.settled u rfl).skipped hskipped⟩
          · cases result with
            | error status => cases hv
            | ok u =>
                obtain ⟨before, hfront, hmem, hres, hstate⟩ := ih hv
                refine ⟨dir :: before, List.cons_prefix_cons.mpr ⟨rfl, hfront⟩,
                  List.mem_cons_of_mem _ hmem, ?_⟩
                rw [exec_handleAll_cons, hd]
                exact ⟨hres, hstate⟩

/-- The arguments of a shorter run are among those of a longer one. -/
theorem visits_prefix {n : ℕ} {m : Machine} {before dirs : List Text}
    (h : before <+: dirs) {v : Visit} (hv : v ∈ visits pl job o n m before) :
    v ∈ visits pl job o n m dirs := by
  induction before generalizing n m dirs with
  | nil => cases hv
  | cons dir before ih =>
      obtain ⟨later, rfl⟩ := h
      rw [List.cons_append]
      rw [visits_cons] at hv ⊢
      rcases List.mem_cons.mp hv with rfl | hv
      · exact List.mem_cons_self
      · refine List.mem_cons_of_mem _ ?_
        split at hv
        · exact ih (List.prefix_append before later) hv
        · cases hv

end

/-! ## The invocation -/

section
variable {pl : Platform} {inv : Invocation} {job : Job}

theorem plan_upTo (pl : Platform) (inv : Invocation) (dirs : List Text) :
    plan pl (inv.upTo dirs) =
      (plan pl inv).map fun job => { job with dirs := dirs } := by
  unfold plan Invocation.upTo
  dsimp only
  split
  · rfl
  · split
    · rfl
    · split <;> rfl

theorem plan_dirs (h : plan pl inv = .ok job) : job.dirs = inv.dirs := by
  have hsame := plan_upTo pl inv inv.dirs
  have heta : inv.upTo inv.dirs = inv := rfl
  rw [heta, h] at hsame
  exact congrArg Job.dirs (Except.ok.inj hsame)

theorem readOptions_ok {set set' : Settings} {opts : List Opt}
    (h : readOptions pl set opts = .ok set') : ∀ opt ∈ opts, opt ≠ .help := by
  induction opts generalizing set with
  | nil => exact fun opt hopt => (List.not_mem_nil hopt).elim
  | cons opt opts ih =>
      rw [List.forall_mem_cons]
      unfold readOptions at h
      cases opt with
      | help => cases h
      | verbose => exact ⟨by decide, ih h⟩
      | create arg =>
          refine ⟨fun h => Opt.noConfusion h, ?_⟩
          dsimp only at h
          split at h
          · exact ih h
          · cases h
      | group arg => exact ⟨fun h => Opt.noConfusion h, ih h⟩
      | mode arg =>
          refine ⟨fun h => Opt.noConfusion h, ?_⟩
          dsimp only at h
          split at h
          · exact ih h
          · cases h
      | unknown => cases h

/-- What is done is what is requested. -/
theorem requested_of_plan (h : plan pl inv = .ok job) :
    requested pl inv = .ok job := by
  have hopts : ∀ opt ∈ inv.opts, decide (opt ≠ .help) = true := by
    intro opt hopt
    refine decide_eq_true ?_
    have hplan := h
    unfold plan at hplan
    split at hplan
    · cases hplan
    · split at hplan
      · cases hplan
      · next hread => exact readOptions_ok hread opt hopt
  unfold requested
  rw [List.filter_eq_self.mpr hopts]
  exact h

theorem requested_dirs (h : requested pl inv = .ok job) :
    job.dirs = inv.dirs := by
  unfold requested at h
  exact (plan_dirs h :)

variable {o : Oracle Call Answer} {fs : FileSystem}

theorem run_planned (h : plan pl inv = .ok job) :
    run pl inv o fs =
      exec (world pl) o 0 ⟨fs, []⟩ (handleAll job job.dirs) := by
  unfold run main
  rw [h]

theorem run_unplanned {status : ℕ} (h : plan pl inv = .error status) :
    run pl inv o fs = ⟨.error status, 0, ⟨fs, []⟩⟩ := by
  unfold run main
  rw [h]
  rfl

theorem ran_run (h : plan pl inv = .ok job) :
    Ran pl job o fs ⟨fs, []⟩ job.dirs
      (visits pl job o 0 ⟨fs, []⟩ job.dirs) (run pl inv o fs) := by
  rw [run_planned h]
  exact ran_handleAll pl job o (Grows.refl fs) job.dirs

/-- The list of arguments is read nowhere else. -/
theorem handle_dirs (dirs : List Text) (dir : Text) :
    handle { job with dirs := dirs } dir = handle job dir := by
  have hadjust : ∀ r, adjust { job with dirs := dirs } dir r = adjust job dir r := by
    intro r
    cases r with
    | error e => rfl
    | ok node =>
        unfold adjust
        dsimp only
        split
        · refine congrArg (Proc.call _) (funext fun r => ?_)
          cases r with
          | error e => rfl
          | ok u =>
              refine congrArg (Proc.call _) (funext fun r => ?_)
              cases r <;> rfl
        · rfl
  have hmake : makeDir { job with dirs := dirs } dir = makeDir job dir := by
    refine congrArg (Proc.call _) (funext fun r => ?_)
    cases r with
    | error e => rfl
    | ok u =>
        refine congrArg (Proc.call _) (funext fun r => ?_)
        cases r with
        | error e => rfl
        | ok u => exact congrArg (Proc.call _) (funext hadjust)
  unfold handle checkDir
  simp only [hadjust, hmake]

theorem visits_dirs (dirs : List Text) (n : ℕ) (m : Machine)
    (named : List Text) :
    visits pl { job with dirs := dirs } o n m named =
      visits pl job o n m named := by
  induction named generalizing n m with
  | nil => rfl
  | cons dir named ih =>
      rw [visits_cons, visits_cons]
      rw [handle_dirs]
      cases (exec (world pl) o n m (handle job dir)).result with
      | error status => rfl
      | ok u => exact congrArg _ (ih _ _)

theorem handleAll_dirs (dirs named : List Text) :
    handleAll { job with dirs := dirs } named = handleAll job named := by
  induction named with
  | nil => rfl
  | cons dir named ih =>
      show (handle { job with dirs := dirs } dir >>= fun _ => _) = _
      rw [ih, handle_dirs]
      rfl

/-- An orderly run is confined. -/
theorem confined_of_orderly (h : Orderly pl inv o fs) : Confined pl inv o fs := by
  cases hplan : plan pl inv with
  | error status =>
      refine ⟨fun change hc => ?_, fun change hc => ?_, fun hzero job hjob dir hdir => ?_⟩
      · rw [run_unplanned hplan] at hc
        cases hc
      · rw [run_unplanned hplan] at hc
        cases hc
      · rw [run_unplanned hplan] at hzero ⊢
        have hstatus : status = 0 := of_decide_eq_true hzero
        rw [hstatus] at hplan
        rw [requested_dirs hjob] at hdir
        exact h.unhelped hplan job hjob dir hdir
  | ok job =>
      have hran := @ran_run pl inv job o fs hplan
      refine ⟨fun change hc => ?_, fun change hc => ?_,
        fun hzero job' hjob dir hdir => ?_⟩
      · rcases hran.origin change hc with hc | ⟨v, hv, hchanged, hdest, _⟩
        · cases hc
        · obtain ⟨place, hplace, hinside⟩ :=
            h.located job hplan v hv hchanged.1 hchanged.2
          rw [hdest] at hplace
          cases hplace
          exact hinside
      · rcases hran.origin change hc with hc | ⟨v, _, _, _, hown⟩
        · cases hc
        · exact hown
      · have hres : (run pl inv o fs).result = .ok () := by
          cases hr : (run pl inv o fs).result with
          | ok u => rfl
          | error status =>
              rw [hr] at hzero
              have hstatus : status = 0 := of_decide_eq_true hzero
              exact absurd (hstatus ▸ hr) hran.status
        rw [requested_of_plan hplan] at hjob
        cases hjob
        obtain ⟨_, hall, hvisits⟩ := hran.settled hres
        obtain ⟨v, hv, rfl⟩ := hall dir hdir
        obtain ⟨hgrows, hgoesOn, hpassed⟩ := hvisits v hv
        cases hjudge : judge pl v.before.fs v.dir with
        | passes => exact hpassed hjudge
        | skipped => exact right_grows (h.unskipped job hplan v hv hjudge) hgrows
        | ends => exact absurd hjudge hgoesOn

theorem orderly_upTo {dirs : List Text} (hdirs : dirs <+: inv.dirs)
    (h : Orderly pl inv o fs) : Orderly pl (inv.upTo dirs) o fs := by
  have hplanned : ∀ job, plan pl (inv.upTo dirs) = .ok job →
      ∃ job', plan pl inv = .ok job' ∧ job = { job' with dirs := dirs } := by
    intro job hjob
    rw [plan_upTo] at hjob
    cases hplan : plan pl inv with
    | error status =>
        rw [hplan] at hjob
        cases hjob
    | ok job' =>
        rw [hplan] at hjob
        exact ⟨job', rfl, (Except.ok.inj hjob).symm⟩
  have hvisit : ∀ job', plan pl inv = .ok job' →
      ∀ v ∈ visits pl { job' with dirs := dirs } o 0 ⟨fs, []⟩ dirs,
        v ∈ visits pl job' o 0 ⟨fs, []⟩ job'.dirs := by
    intro job' hplan v hv
    rw [visits_dirs] at hv
    rw [plan_dirs hplan]
    exact visits_prefix pl job' o hdirs hv
  refine ⟨fun job hjob v hv hp hb => ?_, fun job hjob v hv hs => ?_,
    fun hzero job hjob dir hdir => ?_⟩
  · obtain ⟨job', hplan, rfl⟩ := hplanned job hjob
    exact h.located job' hplan v (hvisit job' hplan v hv) hp hb
  · obtain ⟨job', hplan, rfl⟩ := hplanned job hjob
    exact h.unskipped job' hplan v (hvisit job' hplan v hv) hs
  · have hplan : plan pl inv = .error 0 := by
      rw [plan_upTo] at hzero
      cases hplan : plan pl inv with
      | error status =>
          rw [hplan] at hzero
          exact hzero
      | ok job' =>
          rw [hplan] at hzero
          cases hzero
    have hrequested : requested pl inv = .ok { job with dirs := inv.dirs } := by
      have hback := plan_upTo pl
        { (inv.upTo dirs) with opts := inv.opts.filter fun opt => opt ≠ .help }
        inv.dirs
      have hjob' : plan pl { (inv.upTo dirs) with
          opts := inv.opts.filter fun opt => opt ≠ .help } = .ok job := hjob
      rw [hjob'] at hback
      exact hback
    exact h.unhelped hplan _ hrequested dir (hdirs.subset hdir)

end

/-- The directory manager is confined with its arguments, and with as many of
them as it has come to at any time, exactly when these runs are orderly. -/
theorem confined_iff (pl : Platform) (inv : Invocation)
    (o : Oracle Call Answer) (fs : FileSystem) :
    (∀ dirs, dirs <+: inv.dirs → Confined pl (inv.upTo dirs) o fs) ↔
      Orderly pl inv o fs := by
  constructor
  · intro hconfined
    have hfull : Confined pl inv o fs := hconfined inv.dirs List.prefix_rfl
    refine ⟨fun job hplan v hv hp hb => ?_, fun job hplan v hv hskipped => ?_,
      fun hzero job hjob dir hdir => ?_⟩
    · obtain ⟨change, hc, hdest⟩ := (ran_run hplan).result v hv ⟨hp, hb⟩
      exact ⟨change.place, hdest, hfull.inside change hc⟩
    · obtain ⟨before, hfront, hmem, hres, hstate⟩ :=
        exec_upTo_skipped pl job o hv hskipped
      rw [plan_dirs hplan] at hfront
      have hplanned : plan pl (inv.upTo before) =
          .ok { job with dirs := before } := by
        rw [plan_upTo, hplan]
        rfl
      have hrun := @run_planned pl _ _ o fs hplanned
      rw [handleAll_dirs] at hrun
      have hright := (hconfined before hfront).complete
        (by rw [hrun, hres]; rfl) _ (requested_of_plan hplanned) v.dir hmem
      rw [hrun, hstate] at hright
      exact hright
    · have hrun := @run_unplanned pl inv o fs _ hzero
      have hright := hfull.complete (by rw [hrun]; rfl) job hjob dir
        (requested_dirs hjob ▸ hdir)
      rw [hrun] at hright
      exact hright
  · exact fun h dirs hdirs => confined_of_orderly (orderly_upTo hdirs h)

/-! A path that does not exist is judged by its text, which says nothing of
where it is. -/

/-- `/etc` and `/var/SandboxDir`, of which the latter is the glite user's. -/
def sampleFs : FileSystem where
  inodes :=
    [⟨.directory [("etc".toList, 1), ("var".toList, 2)], 0, 0, 0o755⟩,
      ⟨.directory [], 0, 0, 0o755⟩,
      ⟨.directory [("SandboxDir".toList, 3)], 0, 0, 0o755⟩,
      ⟨.directory [], 101, 101, 0o773⟩]

def samplePlatform : Platform where
  strtol := fun arg => if arg = "500".toList then some 500 else none
  getgrnam := fun _ => .ok 101
  gliteUser := none
  gliteUid := some 101
  cwd := []
  umasked := fun mode => mode
  inherited := fun parent => parent.gid

/-- No call fails. -/
def allWell : Oracle Call Answer := fun _ c =>
  match c with
  | .stat _ => .error .other
  | .lstat _ => .error .other
  | .realpath _ => []
  | .getpwnam => none
  | .mkdir _ _ => .ok ()
  | .chown _ _ _ => .ok ()
  | .chmod _ _ => .ok ()
  | .rmdir _ => .ok ()

/-- A directory below `/etc` is created and given away. -/
theorem not_confined_newOutside :
    ¬ Confined samplePlatform
      ⟨4, [.create "500".toList], ["/etc/new".toList]⟩ allWell sampleFs := by
  intro h
  have hmem : Change.owned [("new".toList, 4), ("etc".toList, 1)] ∈
      (run samplePlatform ⟨4, [.create "500".toList], ["/etc/new".toList]⟩
        allWell sampleFs).state.changes := by decide +kernel
  have hinside := h.inside _ hmem
  revert hinside
  decide +kernel

/-- Below the sandbox directory the same call is in order. -/
example : (run samplePlatform
    ⟨4, [.create "500".toList], ["/var/SandboxDir/new".toList]⟩
    allWell sampleFs).state.changes.map Change.place =
      List.replicate 4 [("new".toList, 4), ("SandboxDir".toList, 3),
        ("var".toList, 2)] := by decide +kernel

end Wms.Dirmanager
