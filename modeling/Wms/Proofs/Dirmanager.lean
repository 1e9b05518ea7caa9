import Wms.Interface.Dirmanager

/-!
# What the directory manager changes

An argument that passes the checks is changed in one place, the one its path
leads to or the one it is created in, and nothing else is changed for it. What
exists and is changed belongs to the glite user, for the owner that is read is
the owner of what is changed: the last component is no link. An argument that
has been dealt with stays right for the rest of the run.

That the place is inside is not among this. The text of a path that does not
exist says nothing about where its parent is, and a real path that begins with
the right text may be that of a neighbour.

The calls for an argument are followed twice: by a precondition for what holds
afterwards, and one by one for whether anything is changed at all.
-/

namespace Wms.Dirmanager

open Wms.Lib Wms.Lib.Proc

section
variable {pl : Platform} {job : Job}

/-! ## Growing -/

/-- Group and mode are as asked for. -/
def Good (job : Job) (node : Inode) : Prop :=
  (∀ gid, job.newGroup = some gid → node.gid = gid) ∧
    node.mode = modeBits job.newMode

/-- Every inode keeps its owner and its entries, and stays good. -/
def Grows (job : Job) (fs fs' : FileSystem) : Prop :=
  ∀ (i : ℕ) (node : Inode), fs.inodes[i]? = some node →
    ∃ node' : Inode, fs'.inodes[i]? = some node' ∧
      node.kind.Extends node'.kind ∧ node'.uid = node.uid ∧
      (Good job node → Good job node')

theorem Grows.refl (fs : FileSystem) : Grows job fs fs :=
  fun _ node h => ⟨node, h, .refl _, rfl, fun hg => hg⟩

theorem Grows.trans {fs₁ fs₂ fs₃ : FileSystem} (h : Grows job fs₁ fs₂)
    (h' : Grows job fs₂ fs₃) : Grows job fs₁ fs₃ := by
  intro i node hi
  obtain ⟨node₂, hi₂, hk, hu, hg⟩ := h i node hi
  obtain ⟨node₃, hi₃, hk', hu', hg'⟩ := h' i node₂ hi₂
  exact ⟨node₃, hi₃, hk.trans hk', hu'.trans hu, fun hgood => hg' (hg hgood)⟩

theorem Grows.extends {fs fs' : FileSystem} (h : Grows job fs fs') :
    fs.Extends fs' := by
  intro i node hi
  obtain ⟨node', hi', hk, _⟩ := h i node hi
  exact ⟨node', hi', hk⟩

theorem grows_modify (fs : FileSystem) (i : ℕ) {f : Inode → Inode}
    (hk : ∀ node, (f node).kind = node.kind)
    (hu : ∀ node, (f node).uid = node.uid)
    (hg : ∀ node, Good job node → Good job (f node)) :
    Grows job fs (fs.modify i f) := by
  intro j node hj
  by_cases hji : j = i
  · subst hji
    refine ⟨f node, FileSystem.getElem?_modify_self hj f, ?_, hu node, hg node⟩
    rw [hk]
    exact .refl _
  · refine ⟨node, ?_, .refl _, rfl, fun h => h⟩
    rw [FileSystem.getElem?_modify_of_ne hji]
    exact hj

theorem grows_create {fs : FileSystem} {here : Place} (name : Text)
    (node : Inode) : Grows job fs (fs.create here name node) := by
  intro i old hi
  obtain ⟨new, hnew, hk⟩ := FileSystem.extends_create name node i
    old hi
  refine ⟨new, hnew, hk, ?_⟩
  rw [FileSystem.getElem?_create (FileSystem.lt_of_getElem? hi)] at hnew
  by_cases hih : i = here.inode
  · subst hih
    rw [FileSystem.getElem?_modify_self hi] at hnew
    cases hnew
    obtain ⟨kind, uid, gid, mode⟩ := old
    cases kind with
    | _ => exact ⟨rfl, fun h => h⟩
  · rw [FileSystem.getElem?_modify_of_ne hih, hi] at hnew
    cases hnew
    exact ⟨rfl, fun h => h⟩

/-- A change of something that was not there. -/
theorem grows_modify_new {fs fs' : FileSystem} {i : ℕ}
    (h : Grows job fs fs') (hi : fs.inodes.length ≤ i) (f : Inode → Inode) :
    Grows job fs (fs'.modify i f) := by
  intro j node hj
  obtain ⟨node', hj', hrest⟩ := h j node hj
  have hlt := FileSystem.lt_of_getElem? hj
  refine ⟨node', ?_, hrest⟩
  rw [FileSystem.getElem?_modify_of_ne (by omega)]
  exact hj'

theorem giveTo_none_good (node : Inode) (h : Good job node) :
    Good job (giveTo none job.newGroup node) := by
  refine ⟨fun gid hgid => ?_, h.2⟩
  show job.newGroup.getD node.gid = gid
  rw [hgid]
  rfl

theorem setMode_good (node : Inode)
    (h : ∀ gid, job.newGroup = some gid → node.gid = gid) :
    Good job (setMode job.newMode node) :=
  ⟨h, rfl⟩

/-! ## Paths that lead somewhere -/

theorem statAt_eq {fs : FileSystem} {follow : Bool} {path : Text} {node : Inode}
    (h : statAt pl fs follow path = .ok node) :
    ∃ place, fs.resolve pl.cwd follow path = .ok place ∧
      fs.inodes[place.inode]? = some node := by
  unfold statAt at h
  cases hr : fs.resolve pl.cwd follow path with
  | error e =>
      rw [hr] at h
      cases h
  | ok place =>
      rw [hr] at h
      refine ⟨place, rfl, ?_⟩
      have h' : inodeAt fs place = .ok node := h
      unfold inodeAt at h'
      split at h'
      · next node' hn =>
        cases h'
        exact hn
      · cases h'

theorem statAt_of {fs : FileSystem} {follow : Bool} {path : Text}
    {place : Place} {node : Inode}
    (hr : fs.resolve pl.cwd follow path = .ok place)
    (hn : fs.inodes[place.inode]? = some node) :
    statAt pl fs follow path = .ok node := by
  unfold statAt
  rw [hr]
  show inodeAt fs place = .ok node
  unfold inodeAt
  rw [hn]

theorem resolve_error_of_statAt {fs : FileSystem} {path : Text}
    (h : statAt pl fs true path = .error .noEntry) :
    ∃ e, fs.resolve pl.cwd true path = .error e := by
  cases hr : fs.resolve pl.cwd true path with
  | error e => exact ⟨e, rfl⟩
  | ok place =>
      unfold statAt at h
      rw [hr] at h
      have h' : inodeAt fs place = .error .noEntry := h
      unfold inodeAt at h'
      split at h' <;> cases h'

theorem isDir_of_extends {node node' : Inode} (h : isDir node = true)
    (hk : node.kind.Extends node'.kind) : isDir node' = true := by
  obtain ⟨kind, uid, gid, mode⟩ := node
  obtain ⟨kind', uid', gid', mode'⟩ := node'
  cases kind with
  | directory es =>
      obtain ⟨es', hkind, _⟩ := hk.directory
      dsimp only at hkind
      subst hkind
      rfl
  | _ => cases h

/-- What is right stays right. -/
theorem right_grows {fs fs' : FileSystem} {dir : Text} (h : Right pl job fs dir)
    (hg : Grows job fs fs') : Right pl job fs' dir := by
  obtain ⟨node, hstat, hdir, hgid, hmode⟩ := h
  obtain ⟨place, hr, hn⟩ := statAt_eq hstat
  obtain ⟨node', hn', hk, _, hgood⟩ := hg _ node hn
  refine ⟨node', ?_, isDir_of_extends hdir hk, hgood ⟨hgid, hmode⟩⟩
  exact statAt_of (FileSystem.resolve_extends hg.extends hr) hn'

/-! ## `check_dir` -/

/-- All changes of a stage are made at one place. -/
def ChangesAt (m m' : Machine) (place : Place) : Prop :=
  ∃ new, m'.changes = m.changes ++ new ∧ ∀ change ∈ new, change.place = place

theorem ChangesAt.refl (m : Machine) (place : Place) : ChangesAt m m place :=
  ⟨[], (List.append_nil _).symm, fun _ h => by cases h⟩

theorem ChangesAt.trans {m₁ m₂ m₃ : Machine} {place : Place}
    (h : ChangesAt m₁ m₂ place) (h' : ChangesAt m₂ m₃ place) :
    ChangesAt m₁ m₃ place := by
  obtain ⟨new, heq, hnew⟩ := h
  obtain ⟨new', heq', hnew'⟩ := h'
  refine ⟨new ++ new', ?_, fun change hc => ?_⟩
  · rw [heq', heq, List.append_assoc]
  · rcases List.mem_append.mp hc with hc | hc
    · exact hnew change hc
    · exact hnew' change hc

/-- What the adjustment of one directory has done, by its status. -/
def Adjusted (pl : Platform) (job : Job) (m : Machine) (dir : Text)
    (place : Place) (m' : Machine) (status : ℕ) : Prop :=
  ChangesAt m m' place ∧ Grows job m.fs m'.fs ∧
    (status = 0 → Right pl job m'.fs dir)

/-! Each call of the program, answered. What may fail has two outcomes. -/

section
variable {α : Type} {Q : Machine → α → Prop} {E : Machine → ℕ → Prop}
  {m : Machine} {dir : Text}

theorem wp_ask {c : Call} {f : Answer c → DirProc α}
    (h : ∀ r, wp (Contract.free (world pl)) Q E (world pl m c r).2
      (f (world pl m c r).1)) :
    wp (Contract.free (world pl)) Q E m (ask c >>= f) :=
  fun r _ => ⟨trivial, h r⟩

theorem wp_stat {f : Except Errno Inode → DirProc α}
    (h : wp (Contract.free (world pl)) Q E m (f (statAt pl m.fs true dir))) :
    wp (Contract.free (world pl)) Q E m (ask (.stat dir) >>= f) :=
  fun _ _ => ⟨trivial, h⟩

theorem wp_lstat {f : Except Errno Inode → DirProc α}
    (h : wp (Contract.free (world pl)) Q E m (f (statAt pl m.fs false dir))) :
    wp (Contract.free (world pl)) Q E m (ask (.lstat dir) >>= f) :=
  fun _ _ => ⟨trivial, h⟩

theorem wp_realpath {f : Text → DirProc α}
    (h : wp (Contract.free (world pl)) Q E m (f (realpathAt pl m.fs dir))) :
    wp (Contract.free (world pl)) Q E m (ask (.realpath dir) >>= f) :=
  fun _ _ => ⟨trivial, h⟩

theorem wp_getpwnam {f : Option ℕ → DirProc α}
    (h : wp (Contract.free (world pl)) Q E m (f pl.gliteUid)) :
    wp (Contract.free (world pl)) Q E m (ask .getpwnam >>= f) :=
  fun _ _ => ⟨trivial, h⟩

theorem wp_chown {place : Place} {uid gid : Option ℕ}
    {f : Except Errno Unit → DirProc α}
    (hr : m.fs.resolve pl.cwd true dir = .ok place)
    (herror : ∀ e, wp (Contract.free (world pl)) Q E m (f (.error e)))
    (hok : wp (Contract.free (world pl)) Q E
      ⟨m.fs.modify place.inode (giveTo uid gid), m.changes ++ [.owned place]⟩
      (f (.ok ()))) :
    wp (Contract.free (world pl)) Q E m (ask (.chown dir uid gid) >>= f) := by
  refine wp_ask fun r => ?_
  cases r with
  | error e => exact herror e
  | ok u =>
      have heq : world pl m (.chown dir uid gid) (.ok u) =
          (.ok (), ⟨m.fs.modify place.inode (giveTo uid gid),
            m.changes ++ [.owned place]⟩) := by
        show changeAt pl m dir (giveTo uid gid) .owned = _
        unfold changeAt
        rw [hr]
      rw [heq]
      exact hok

theorem wp_chmod {place : Place} {mode : ℕ} {f : Except Errno Unit → DirProc α}
    (hr : m.fs.resolve pl.cwd true dir = .ok place)
    (herror : ∀ e, wp (Contract.free (world pl)) Q E m (f (.error e)))
    (hok : wp (Contract.free (world pl)) Q E
      ⟨m.fs.modify place.inode (setMode mode), m.changes ++ [.moded place]⟩
      (f (.ok ()))) :
    wp (Contract.free (world pl)) Q E m (ask (.chmod dir mode) >>= f) := by
  refine wp_ask fun r => ?_
  cases r with
  | error e => exact herror e
  | ok u =>
      have heq : world pl m (.chmod dir mode) (.ok u) =
          (.ok (), ⟨m.fs.modify place.inode (setMode mode),
            m.changes ++ [.moded place]⟩) := by
        show changeAt pl m dir (setMode mode) .moded = _
        unfold changeAt
        rw [hr]
      rw [heq]
      exact hok

theorem wp_mkdir {mode : ℕ} {f : Except Errno Unit → DirProc α}
    (herror : ∀ e, wp (Contract.free (world pl)) Q E m (f (.error e)))
    (hok : ∀ here name, m.fs.creatable pl.cwd dir = .ok (here, name) →
      wp (Contract.free (world pl)) Q E
        ⟨m.fs.create here name
            (newDirectory pl (m.fs.inodes[here.inode]?) mode),
          m.changes ++ [.created ((name, m.fs.inodes.length) :: here)]⟩
        (f (.ok ()))) :
    wp (Contract.free (world pl)) Q E m (ask (.mkdir dir mode) >>= f) := by
  refine wp_ask fun r => ?_
  cases r with
  | error e => exact herror e
  | ok u =>
      cases hc : m.fs.creatable pl.cwd dir with
      | error e =>
          have heq : world pl m (.mkdir dir mode) (.ok u) = (.error e, m) := by
            show makeAt pl m dir mode = _
            unfold makeAt
            rw [hc]
          rw [heq]
          exact herror e
      | ok found =>
          obtain ⟨here, name⟩ := found
          have heq : world pl m (.mkdir dir mode) (.ok u) =
              (.ok (), ⟨m.fs.create here name
                  (newDirectory pl (m.fs.inodes[here.inode]?) mode),
                m.changes ++
                  [.created ((name, m.fs.inodes.length) :: here)]⟩) := by
            show makeAt pl m dir mode = _
            unfold makeAt
            rw [hc]
          rw [heq]
          exact hok here name hc

theorem changes_rmdir (m : Machine) (dir : Text) (r : Except Errno Unit) :
    (world pl m (.rmdir dir) r).2.changes = m.changes := by
  cases r with
  | error e => rfl
  | ok u =>
      show (removeAt pl m dir).2.changes = m.changes
      unfold removeAt
      split
      · rfl
      · split <;> rfl

end

theorem changesAt_one {m : Machine} {fs : FileSystem} {change : Change}
    (place : Place) (h : change.place = place) :
    ChangesAt m ⟨fs, m.changes ++ [change]⟩ place := by
  refine ⟨[change], rfl, fun c hc => ?_⟩
  rw [List.mem_singleton] at hc
  rw [hc, h]

theorem wp_adjust {m : Machine} {dir : Text} {place : Place} {node : Inode}
    (hr : m.fs.resolve pl.cwd true dir = .ok place)
    (hn : m.fs.inodes[place.inode]? = some node) (hdir : isDir node = true) :
    wp (Contract.free (world pl)) (Adjusted pl job m dir place)
      (fun _ _ => False) m (adjust job dir (.ok node)) := by
  show wp _ _ _ m (if isDir node then _ else _)
  rw [if_pos hdir]
  have hgrow : Grows job m.fs
      (m.fs.modify place.inode (giveTo none job.newGroup)) :=
    grows_modify _ _ (fun _ => rfl) (fun _ => rfl) giveTo_none_good
  have hr' := FileSystem.resolve_extends hgrow.extends hr
  have hn' := FileSystem.getElem?_modify_self hn (giveTo none job.newGroup)
  refine wp_chown hr (fun e => ?_) ?_
  · exact ⟨.refl m place, .refl _, fun h => by cases h⟩
  refine wp_chmod hr' (fun e => ?_) ?_
  · exact ⟨changesAt_one place rfl, hgrow, fun h => by cases h⟩
  have hgroup : ∀ gid, job.newGroup = some gid →
      (giveTo none job.newGroup node).gid = gid := by
    intro gid hgid
    show job.newGroup.getD node.gid = gid
    rw [hgid]
    rfl
  have hgrow' : Grows job m.fs
      ((m.fs.modify place.inode (giveTo none job.newGroup)).modify
        place.inode (setMode job.newMode)) :=
    hgrow.trans (grows_modify _ _ (fun _ => rfl) (fun _ => rfl)
      fun node hg => setMode_good node hg.1)
  have hn'' := FileSystem.getElem?_modify_self hn' (setMode job.newMode)
  refine ⟨(changesAt_one place rfl).trans (changesAt_one place rfl), hgrow',
    fun _ => ?_⟩
  exact ⟨_, statAt_of (FileSystem.resolve_extends hgrow'.extends hr) hn'', hdir,
    hgroup, rfl⟩

/-! A directory that is created is adjusted where it was created. -/

/-- What the creation of a directory has done. -/
def Made (pl : Platform) (job : Job) (m : Machine) (dir : Text) (m' : Machine)
    (status : ℕ) : Prop :=
  (∃ new, m'.changes = m.changes ++ new ∧ ∀ change ∈ new,
    destination pl m.fs dir = .ok change.place ∧
      m.fs.inodes.length ≤ change.place.inode) ∧
    (status = 0 → Grows job m.fs m'.fs ∧ Right pl job m'.fs dir)

theorem made_of_changesAt {m m' : Machine} {dir : Text} {place : Place}
    {status : ℕ} (hd : destination pl m.fs dir = .ok place)
    (h : ChangesAt m m' place)
    (hlen : m.fs.inodes.length ≤ place.inode)
    (hright : status = 0 → Grows job m.fs m'.fs ∧ Right pl job m'.fs dir) :
    Made pl job m dir m' status := by
  obtain ⟨new, heq, hnew⟩ := h
  refine ⟨⟨new, heq, fun change hc => ?_⟩, hright⟩
  rw [hnew change hc]
  exact ⟨hd, hlen⟩

theorem destination_of_creatable {fs : FileSystem} {dir : Text} {e : Errno}
    {here : Place} {name : Text} (hr : fs.resolve pl.cwd true dir = .error e)
    (hc : fs.creatable pl.cwd dir = .ok (here, name)) :
    destination pl fs dir = .ok ((name, fs.inodes.length) :: here) := by
  unfold destination
  rw [hr, hc]
  rfl

theorem wp_makeDir {m : Machine} {dir : Text} {e : Errno}
    (hr : m.fs.resolve pl.cwd true dir = .error e) :
    wp (Contract.free (world pl)) (Made pl job m dir) (fun _ _ => False) m
      (makeDir job dir) := by
  refine wp_mkdir (fun e => ?_) fun here name hc => ?_
  · exact ⟨⟨[], (List.append_nil _).symm, fun _ h => by cases h⟩,
      fun h => by cases h⟩
  have hd := destination_of_creatable hr hc
  have hr₁ : (m.fs.create here name (newDirectory pl
      (m.fs.inodes[here.inode]?) job.newMode)).resolve pl.cwd true dir =
        .ok ((name, m.fs.inodes.length) :: here) :=
    FileSystem.resolve_create hc ⟨[], rfl⟩ true
  have hn₁ := FileSystem.getElem?_create_new m.fs here name
    (newDirectory pl (m.fs.inodes[here.inode]?) job.newMode)
  have hgrow₁ : Grows job m.fs (m.fs.create here name
      (newDirectory pl (m.fs.inodes[here.inode]?) job.newMode)) :=
    grows_create name _
  have hlen : m.fs.inodes.length ≤
      Place.inode ((name, m.fs.inodes.length) :: here) := Nat.le_refl _
  refine wp_chown hr₁ (fun e => ?_) ?_
  · refine wp_ask fun r => ?_
    refine made_of_changesAt hd ?_ hlen fun h => by cases h
    refine ⟨[.created ((name, m.fs.inodes.length) :: here)], ?_, fun c hc => ?_⟩
    · exact changes_rmdir _ _ _
    · rw [List.mem_singleton] at hc
      rw [hc]
      rfl
  have hgrow₂ := grows_modify_new hgrow₁ hlen
    (giveTo job.createUid job.newGroup)
  have hr₂ := FileSystem.resolve_extends
    (FileSystem.extends_modify _ (Place.inode ((name, m.fs.inodes.length) :: here))
      (f := giveTo job.createUid job.newGroup) fun _ => rfl) hr₁
  have hn₂ := FileSystem.getElem?_modify_self hn₁
    (giveTo job.createUid job.newGroup)
  refine wp_stat ?_
  rw [statAt_of hr₂ hn₂]
  refine wp_mono ?_ (fun _ _ h => h) (wp_adjust hr₂ hn₂ rfl)
  rintro m' status ⟨hchanges, hgrow, hright⟩
  refine made_of_changesAt hd ?_ hlen fun h =>
    ⟨hgrow₂.trans hgrow, hright h⟩
  refine ChangesAt.trans ?_ hchanges
  exact (changesAt_one ((name, m.fs.inodes.length) :: here) rfl).trans
    (changesAt_one ((name, m.fs.inodes.length) :: here) rfl)

/-! ## One argument -/

/-- What has been done for an argument, however that ended. -/
def Touched (pl : Platform) (m : Machine) (dir : Text) (m' : Machine) : Prop :=
  ∃ new, m'.changes = m.changes ++ new ∧ ∀ change ∈ new,
    destination pl m.fs dir = .ok change.place ∧
      ∀ node, m.fs.inodes[change.place.inode]? = some node →
        pl.gliteUid = some node.uid

/-- And where the program goes on. -/
structure Settled (pl : Platform) (job : Job) (m : Machine) (dir : Text)
    (m' : Machine) : Prop where
  touched : Touched pl m dir m'
  grows : Grows job m.fs m'.fs
  passed : judge pl m.fs dir = .passes → Right pl job m'.fs dir
  skipped : judge pl m.fs dir = .skipped → m' = m
  goesOn : judge pl m.fs dir ≠ .ends

/-- And where it ends. -/
structure Stopped (pl : Platform) (m : Machine) (dir : Text) (m' : Machine)
    (status : ℕ) : Prop where
  touched : Touched pl m dir m'
  status : status ≠ 0
  unskipped : judge pl m.fs dir ≠ .skipped

theorem Touched.refl (m : Machine) (dir : Text) : Touched pl m dir m :=
  ⟨[], (List.append_nil _).symm, fun _ h => by cases h⟩

/-- What the checks let through: nothing there, or a directory of the glite
user's that the path leads to. -/
inductive Let (pl : Platform) (m : Machine) (dir : Text) : Prop where
  | absent (e : Errno) (h : statAt pl m.fs true dir = .error e)
  | present (place : Place) (node : Inode)
      (hr : m.fs.resolve pl.cwd true dir = .ok place)
      (hn : m.fs.inodes[place.inode]? = some node)
      (hdir : isDir node = true) (hown : pl.gliteUid = some node.uid)

/-- Whether a path is let through, and what that says. -/
structure Judged (pl : Platform) (m : Machine) (dir : Text) (m' : Machine)
    (passed : Bool) : Prop where
  same : m' = m
  admits : passed = true → Let pl m dir
  verdict : judge pl m.fs dir = if passed then .passes else .skipped

/-- No check is made of it to the end. -/
def Ended (pl : Platform) (m : Machine) (dir : Text) (m' : Machine)
    (status : ℕ) : Prop :=
  m' = m ∧ status ≠ 0 ∧ judge pl m.fs dir = .ends

theorem wp_isDirectory {α : Type} {Q : Machine → α → Prop}
    {E : Machine → ℕ → Prop} {m : Machine} {dir : Text} {node : Inode}
    {f : Bool → DirProc α} (hn : statAt pl m.fs true dir = .ok node)
    (h : wp (Contract.free (world pl)) Q E m (f (isDir node))) :
    wp (Contract.free (world pl)) Q E m (isDirectory dir >>= f) := by
  refine (wp_bind _ _ _).mpr (wp_stat ?_)
  rw [hn]
  exact h

/-- The bits of a link tell it from a directory. -/
theorem not_symlink_of_bits {kind : FileKind}
    (h : typeBits kind &&& linkBits = 0) (target : Text) :
    kind ≠ .symlink target := by
  rintro rfl
  revert h
  show ¬ (0o120000 &&& linkBits = 0)
  decide

/-- The owner of an entity that is no link is that of what is changed. -/
theorem owner_of_entity {m : Machine} {dir : Text} {node entity : Inode}
    {place : Place} (hr : m.fs.resolve pl.cwd true dir = .ok place)
    (hn : m.fs.inodes[place.inode]? = some node)
    (hentity : statAt pl m.fs false dir = .ok entity)
    (hbits : typeBits entity.kind &&& linkBits = 0) : entity = node := by
  obtain ⟨place', hr', hn'⟩ := statAt_eq hentity
  have hsame : m.fs.resolve pl.cwd true dir = .ok place' := by
    refine FileSystem.resolve_follow ?_ hr'
    intro node' target hnode'
    rw [hn'] at hnode'
    cases hnode'
    exact not_symlink_of_bits hbits target
  rw [hr] at hsame
  cases hsame
  rw [hn] at hn'
  cases hn'
  rfl

theorem wp_entityAllowed {m : Machine} {dir : Text} {node entity : Inode}
    {place : Place} (hr : m.fs.resolve pl.cwd true dir = .ok place)
    (hn : m.fs.inodes[place.inode]? = some node)
    (hentity : statAt pl m.fs false dir = .ok entity)
    (hjudge : judge pl m.fs dir = judgeEntity pl node (.ok entity)) :
    wp (Contract.free (world pl)) (Judged pl m dir) (Ended pl m dir) m
      (entityAllowed dir entity) := by
  unfold judgeEntity at hjudge
  dsimp only at hjudge
  unfold entityAllowed
  by_cases hbits : typeBits entity.kind &&& linkBits = 0
  · rw [if_neg (not_not.mpr hbits)] at hjudge ⊢
    refine wp_isDirectory (statAt_of hr hn) ?_
    cases hdir : isDir node with
    | false =>
        rw [hdir] at hjudge
        exact ⟨rfl, fun h => (by cases h), hjudge⟩
    | true =>
        rw [hdir] at hjudge
        refine wp_getpwnam ?_
        cases hglite : pl.gliteUid with
        | none =>
            rw [hglite] at hjudge
            exact ⟨rfl, Nat.one_ne_zero, hjudge⟩
        | some uid =>
            rw [hglite] at hjudge
            have hverdict : judge pl m.fs dir =
                if entity.uid = uid then .passes else .skipped := hjudge
            refine ⟨rfl, fun howner => ?_, ?_⟩
            · have huid : entity.uid = uid := of_decide_eq_true howner
              have hsame := owner_of_entity hr hn hentity hbits
              refine .present place node hr hn hdir ?_
              rw [hglite, ← hsame, huid]
            · rw [hverdict]
              by_cases huid : entity.uid = uid
              · rw [if_pos huid, decide_eq_true huid]
                rfl
              · rw [if_neg huid, decide_eq_false huid]
                rfl
  · rw [if_pos hbits] at hjudge ⊢
    exact ⟨rfl, fun h => (by cases h), hjudge⟩

theorem wp_existingAllowed {m : Machine} {dir : Text} {node : Inode}
    (hstat : statAt pl m.fs true dir = .ok node) :
    wp (Contract.free (world pl)) (Judged pl m dir) (Ended pl m dir) m
      (existingAllowed dir) := by
  obtain ⟨place, hr, hn⟩ := statAt_eq hstat
  have hjudge : judge pl m.fs dir =
      if sandboxDir.isPrefixOf (realpathAt pl m.fs dir) then
        judgeEntity pl node (statAt pl m.fs false dir)
      else .skipped := by
    unfold judge
    rw [hstat]
  refine wp_realpath ?_
  cases hfront : sandboxDir.isPrefixOf (realpathAt pl m.fs dir) with
  | false =>
      rw [hfront] at hjudge
      exact ⟨rfl, fun h => (by cases h), hjudge⟩
  | true =>
      rw [hfront, if_pos rfl] at hjudge
      refine wp_lstat ?_
      cases hentity : statAt pl m.fs false dir with
      | error e =>
          rw [hentity] at hjudge
          exact ⟨rfl, fun h => (by cases h), hjudge⟩
      | ok entity =>
          rw [hentity] at hjudge
          exact wp_entityAllowed hr hn hentity hjudge

theorem wp_allowed (m : Machine) (dir : Text) :
    wp (Contract.free (world pl)) (Judged pl m dir) (Ended pl m dir) m
      (allowed dir) := by
  refine (wp_bind _ _ _).mpr (wp_stat ?_)
  have habsent : ∀ e, statAt pl m.fs true dir = .error e →
      judge pl m.fs dir = judgeText dir → Judged pl m dir m (!(hasDots dir)) := by
    intro e he hjudge
    refine ⟨rfl, fun _ => .absent e he, ?_⟩
    rw [hjudge]
    unfold judgeText
    cases hasDots dir <;> rfl
  have hjudge : judge pl m.fs dir = judge pl m.fs dir := rfl
  conv at hjudge => rhs; unfold judge
  cases hstat : statAt pl m.fs true dir with
  | ok node => exact wp_existingAllowed hstat
  | error e =>
      rw [hstat] at hjudge
      cases e with
      | noEntry => exact habsent _ hstat hjudge
      | notDirectory => exact habsent _ hstat hjudge
      | _ => exact ⟨rfl, by decide, hjudge⟩

/-- A path that is let through is adjusted or made. -/
theorem wp_checkDir {m : Machine} {dir : Text} (h : Let pl m dir) :
    wp (Contract.free (world pl))
      (fun m' status => Touched pl m dir m' ∧
        (status = 0 → Grows job m.fs m'.fs ∧ Right pl job m'.fs dir))
      (fun _ _ => False) m (checkDir job dir) := by
  refine wp_stat ?_
  have herror : Touched pl m dir m ∧
      (errStat = 0 → Grows job m.fs m.fs ∧ Right pl job m.fs dir) :=
    ⟨.refl m dir, fun h => by cases h⟩
  cases h with
  | absent e he =>
      rw [he]
      cases e with
      | noEntry =>
          dsimp only
          split
          · obtain ⟨e', hr⟩ := resolve_error_of_statAt he
            refine wp_mono ?_ (fun _ _ h => h) (wp_makeDir hr)
            rintro m' status ⟨⟨new, heq, hnew⟩, hright⟩
            refine ⟨⟨new, heq, fun change hc => ⟨(hnew change hc).1, ?_⟩⟩, hright⟩
            intro node hn
            have hlt := FileSystem.lt_of_getElem? hn
            have hle := (hnew change hc).2
            omega
          · exact herror
      | _ => exact herror
  | present place node hr hn hdir hown =>
      rw [statAt_of hr hn]
      refine wp_mono ?_ (fun _ _ h => h) (wp_adjust hr hn hdir)
      rintro m' status ⟨⟨new, heq, hnew⟩, hgrow, hright⟩
      refine ⟨⟨new, heq, fun change hc => ?_⟩, fun h => ⟨hgrow, hright h⟩⟩
      rw [hnew change hc]
      refine ⟨?_, fun node' hn' => ?_⟩
      · unfold destination
        rw [hr]
      · rw [hn] at hn'
        cases hn'
        exact hown

/-- One argument: what is done for it, and what holds when it is over. -/
theorem wp_handle (m : Machine) (dir : Text) :
    wp (Contract.free (world pl)) (fun m' _ => Settled pl job m dir m')
      (Stopped pl m dir) m (handle job dir) := by
  refine (wp_bind _ _ _).mpr (wp_mono ?_ ?_ (wp_allowed m dir))
  · rintro m' passed ⟨rfl, hlet, hverdict⟩
    cases passed with
    | false =>
        have hskipped : judge pl m'.fs dir = .skipped := hverdict
        refine ⟨.refl m' dir, .refl _, fun h => ?_, fun _ => rfl, fun h => ?_⟩
        · rw [hskipped] at h
          cases h
        · rw [hskipped] at h
          cases h
    | true =>
        have hpasses : judge pl m'.fs dir = .passes := hverdict
        have hnot : ∀ v, v ≠ .passes → judge pl m'.fs dir ≠ v := by
          rintro v hv rfl
          exact hv hpasses
        refine (wp_bind _ _ _).mpr (wp_mono ?_ (fun _ _ h => h.elim)
          (wp_checkDir (hlet rfl)))
        rintro m'' status ⟨htouched, hright⟩
        unfold exitUnlessDone
        split
        · next hzero =>
          obtain ⟨hgrows, hright⟩ := hright hzero
          exact ⟨htouched, hgrows, fun _ => hright,
            fun h => absurd h (hnot _ (by decide)), hnot _ (by decide)⟩
        · next hne =>
          exact ⟨htouched, hne, hnot _ (by decide)⟩
  · rintro m' status ⟨rfl, hstatus, hends⟩
    refine ⟨.refl m' dir, hstatus, fun h => ?_⟩
    rw [hends] at h
    cases h

/-! ## The first change for an argument -/

/-- The list of changes only grows. -/
theorem changes_world (m : Machine) (c : Call) (r : Answer c) :
    m.changes <+: (world pl m c r).2.changes := by
  have hchange : ∀ path f change,
      m.changes <+: (changeAt pl m path f change).2.changes := by
    intro path f change
    unfold changeAt
    split
    · exact List.prefix_rfl
    · exact List.prefix_append _ _
  cases c with
  | mkdir path mode =>
      cases r with
      | error e => exact List.prefix_rfl
      | ok u =>
          show m.changes <+: (makeAt pl m path mode).2.changes
          unfold makeAt
          split
          · exact List.prefix_rfl
          · exact List.prefix_append _ _
  | chown path uid gid =>
      cases r with
      | error e => exact List.prefix_rfl
      | ok u => exact hchange path _ _
  | chmod path mode =>
      cases r with
      | error e => exact List.prefix_rfl
      | ok u => exact hchange path _ _
  | rmdir path => exact (changes_rmdir m path r).symm ▸ List.prefix_rfl
  | _ => exact List.prefix_rfl

theorem changes_exec {α : Type} (o : Oracle Call Answer) (n : ℕ) (m : Machine)
    (prog : DirProc α) :
    m.changes <+: (exec (world pl) o n m prog).state.changes := by
  induction prog generalizing n m with
  | ret a => exact List.prefix_rfl
  | throw e => exact List.prefix_rfl
  | call c k ih => exact (changes_world m c _).trans (ih _ _ _)

/-- The looks at a path that passes. -/
def looks (pl : Platform) (fs : FileSystem) (dir : Text) : ℕ :=
  match statAt pl fs true dir with
  | .ok _ => 5
  | .error _ => 1

section
variable {o : Oracle Call Answer} {n : ℕ} {m : Machine} {dir : Text}

/-- A call that only looks, or is refused. -/
theorem exec_look {α : Type} {c : Call} {a : Answer c} {f : Answer c → DirProc α}
    (h : world pl m c (o n c) = (a, m)) :
    exec (world pl) o n m (ask c >>= f) = exec (world pl) o (n + 1) m (f a) := by
  show exec (world pl) o (n + 1) (world pl m c (o n c)).2
    (f (world pl m c (o n c)).1) = _
  rw [h]

theorem exec_isDirectory {α : Type} {node : Inode} {f : Bool → DirProc α}
    (h : statAt pl m.fs true dir = .ok node) :
    exec (world pl) o n m (isDirectory dir >>= f) =
      exec (world pl) o (n + 1) m (f (isDir node)) := by
  refine (exec_look (c := .stat dir) (a := statAt pl m.fs true dir)
    rfl).trans ?_
  rw [h]
  rfl

theorem exec_existingAllowed {node : Inode}
    (hstat : statAt pl m.fs true dir = .ok node)
    (h : judge pl m.fs dir = .passes) :
    exec (world pl) o n m (existingAllowed dir) = ⟨.ok true, n + 4, m⟩ := by
  unfold judge at h
  rw [hstat] at h
  dsimp only at h
  split at h
  · next hfront =>
    unfold existingAllowed
    rw [exec_look (a := realpathAt pl m.fs dir) rfl, hfront]
    cases hentity : statAt pl m.fs false dir with
    | error e =>
        rw [hentity] at h
        cases h
    | ok entity =>
        rw [hentity] at h
        unfold judgeEntity at h
        dsimp only at h
        show exec (world pl) o (n + 1) m (ask (.lstat dir) >>= _) = _
        rw [exec_look (a := statAt pl m.fs false dir) rfl, hentity]
        dsimp only
        unfold entityAllowed
        split at h
        · cases h
        · next hbits =>
          rw [if_neg hbits]
          split at h
          · cases h
          · next hdir =>
            rw [exec_isDirectory hstat, if_neg hdir]
            refine (exec_look (c := .getpwnam) (a := pl.gliteUid) rfl).trans ?_
            cases hglite : pl.gliteUid with
            | none =>
                rw [hglite] at h
                cases h
            | some uid =>
                rw [hglite] at h
                dsimp only at h
                split at h
                · next huid =>
                  rw [← huid]
                  show Done.mk (.ok (decide (entity.uid = entity.uid))) _ _ = _
                  rw [decide_eq_true rfl]
                · cases h
  · cases h

theorem exec_allowed (h : judge pl m.fs dir = .passes) :
    exec (world pl) o n m (allowed dir) =
      ⟨.ok true, n + looks pl m.fs dir, m⟩ := by
  have hjudge := h
  unfold judge at hjudge
  have htext : judgeText dir = .passes → hasDots dir = false := by
    intro htext
    unfold judgeText at htext
    split at htext
    · cases htext
    · next hdots => exact Bool.eq_false_iff.mpr hdots
  refine (exec_look (c := .stat dir) (a := statAt pl m.fs true dir)
    rfl).trans ?_
  unfold looks
  cases hstat : statAt pl m.fs true dir with
  | error e =>
      rw [hstat] at hjudge
      have habsent : judgeText dir = .passes →
          Done.mk (.ok !(hasDots dir)) (n + 1) m =
            (⟨.ok true, n + 1, m⟩ : Done Machine ℕ Bool) := by
        intro hpasses
        rw [htext hpasses]
        rfl
      cases e with
      | noEntry => exact habsent hjudge
      | notDirectory => exact habsent hjudge
      | _ => cases hjudge
  | ok node => exact exec_existingAllowed hstat h

/-- A stage that begins with a change: it comes to nothing when the change is
refused, and is in the list when it is not. -/
theorem changed_of_first {α : Type} {c : Call} {f : Answer c → DirProc α}
    (change : Change)
    (h : (world pl m c (o n c)).2.changes = m.changes ++ [change]) :
    (exec (world pl) o n m (ask c >>= f)).state.changes ≠ m.changes := by
  intro hsame
  have hfront := @changes_exec pl _ o (n + 1) (world pl m c (o n c)).2
    (f (world pl m c (o n c)).1)
  rw [h] at hfront
  have hlen := hfront.length_le
  have hsame' : (exec (world pl) o (n + 1) (world pl m c (o n c)).2
      (f (world pl m c (o n c)).1)).state.changes = m.changes := hsame
  rw [hsame', List.length_append] at hlen
  exact absurd hlen (by simp)

theorem isDir_of_passes {node : Inode} (hstat : statAt pl m.fs true dir = .ok node)
    (h : judge pl m.fs dir = .passes) : isDir node = true := by
  unfold judge at h
  rw [hstat] at h
  dsimp only at h
  split at h
  · unfold judgeEntity at h
    split at h
    · cases h
    · split at h
      · cases h
      · split at h
        · cases h
        · next hdir => simpa using hdir
  · cases h

theorem changed_adjust {node : Inode} (hstat : statAt pl m.fs true dir = .ok node)
    (hdir : isDir node = true) :
    (exec (world pl) o n m (adjust job dir (.ok node))).state.changes ≠
        m.changes ↔
      succeeded (o n (.chown dir none job.newGroup)) = true := by
  unfold adjust
  dsimp only
  rw [if_pos hdir]
  obtain ⟨place, hr, _⟩ := statAt_eq hstat
  cases ho : o n (.chown dir none job.newGroup) with
  | error e =>
      have hrefused : world pl m (.chown dir none job.newGroup)
          (o n (.chown dir none job.newGroup)) = (.error e, m) := by
        rw [ho]
        rfl
      refine iff_of_false (not_not.mpr ?_) Bool.false_ne_true
      rw [exec_look hrefused]
      rfl
  | ok u =>
      refine iff_of_true (changed_of_first (.owned place) ?_) rfl
      rw [ho]
      show (changeAt pl m dir (giveTo none job.newGroup) .owned).2.changes = _
      unfold changeAt
      rw [hr]

theorem changed_makeDir :
    (exec (world pl) o n m (makeDir job dir)).state.changes ≠ m.changes ↔
      succeeded (o n (.mkdir dir job.newMode)) = true ∧
        succeeded (m.fs.creatable pl.cwd dir) = true := by
  cases ho : o n (.mkdir dir job.newMode) with
  | error e =>
      have hrefused : world pl m (.mkdir dir job.newMode)
          (o n (.mkdir dir job.newMode)) = (.error e, m) := by
        rw [ho]
        rfl
      refine iff_of_false (not_not.mpr ?_) fun h => Bool.false_ne_true h.1
      unfold makeDir
      rw [exec_look hrefused]
      rfl
  | ok u =>
      cases hc : m.fs.creatable pl.cwd dir with
      | error e =>
          refine iff_of_false (not_not.mpr ?_) fun h => Bool.false_ne_true h.2
          have hrefused : world pl m (.mkdir dir job.newMode)
              (o n (.mkdir dir job.newMode)) = (.error e, m) := by
            rw [ho]
            show makeAt pl m dir job.newMode = _
            unfold makeAt
            rw [hc]
          unfold makeDir
          rw [exec_look hrefused]
          rfl
      | ok found =>
          refine iff_of_true (changed_of_first
            (.created ((found.2, m.fs.inodes.length) :: found.1)) ?_) ⟨rfl, rfl⟩
          rw [ho]
          show (makeAt pl m dir job.newMode).2.changes = _
          unfold makeAt
          rw [hc]

theorem changed_checkDir (hjudge : judge pl m.fs dir = .passes) :
    (exec (world pl) o (n + looks pl m.fs dir) m
        (checkDir job dir)).state.changes ≠ m.changes ↔
      begins pl job o n m.fs dir = true := by
  unfold checkDir begins looks
  rw [exec_look (a := statAt pl m.fs true dir) rfl]
  cases hstat : statAt pl m.fs true dir with
  | ok node => exact changed_adjust hstat (isDir_of_passes hstat hjudge)
  | error e =>
      cases e with
      | noEntry =>
          dsimp only
          cases job.optCreate with
          | false =>
              exact iff_of_false (not_not.mpr rfl) Bool.false_ne_true
          | true =>
              rw [if_pos rfl, changed_makeDir, Bool.true_and, Bool.and_eq_true]
      | _ => exact iff_of_false (not_not.mpr rfl) Bool.false_ne_true

theorem changes_exitUnlessDone (prog : DirProc ℕ) :
    (exec (world pl) o n m (prog >>= exitUnlessDone)).state.changes =
      (exec (world pl) o n m prog).state.changes := by
  refine (congrArg (fun d => d.state.changes)
    (exec_bind (world pl) o n m prog exitUnlessDone)).trans ?_
  rcases exec (world pl) o n m prog with ⟨_ | status, n', m'⟩
  · rfl
  · show (exec (world pl) o n' m' (if status = 0 then _ else _)).state.changes = _
    split <;> rfl

/-- Something is changed for an argument exactly when it passes and the first
change is not refused. -/
theorem changed_handle :
    (exec (world pl) o n m (handle job dir)).state.changes ≠ m.changes ↔
      judge pl m.fs dir = .passes ∧ begins pl job o n m.fs dir = true := by
  have hbind := exec_bind (world pl) o n m (allowed dir) fun passed =>
    if passed then checkDir job dir >>= exitUnlessDone else pure ()
  have hpost := wp_exec o (keeps_free (world pl) o n m (allowed dir))
    (wp_allowed m dir)
  by_cases hjudge : judge pl m.fs dir = .passes
  · rw [exec_allowed hjudge] at hbind
    have hchanges : (exec (world pl) o n m (handle job dir)).state.changes =
        (exec (world pl) o (n + looks pl m.fs dir) m
          (checkDir job dir)).state.changes :=
      (congrArg (fun d => d.state.changes) hbind).trans
        (changes_exitUnlessDone (checkDir job dir))
    rw [hchanges, changed_checkDir hjudge]
    exact (and_iff_right hjudge).symm
  · refine iff_of_false (not_not.mpr ?_) fun h => hjudge h.1
    refine (congrArg (fun d => d.state.changes) hbind).trans ?_
    have hfree : (Contract.free (world pl)).world = world pl := rfl
    rw [hfree] at hpost
    revert hpost
    rcases exec (world pl) o n m (allowed dir) with ⟨status | passed, n', m'⟩
    · exact fun hended => congrArg Machine.changes hended.1
    · intro hjudged
      have hverdict := Judged.verdict hjudged
      cases passed with
      | true => exact absurd hverdict hjudge
      | false => exact congrArg Machine.changes (Judged.same hjudged)

end

end

end Wms.Dirmanager
