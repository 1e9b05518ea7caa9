import Wms.Lib.FileSystem
import Wms.Lib.Proc
import Mathlib.Data.Int.Notation

/-!
# The directory manager (`src/org.glite.wms.interface/src/dirmanager/glite-wms-wmproxy-dirmanager.cpp`)

The program that creates the directories of the jobs, and adjusts group and
mode of those that exist. It runs as root whoever calls it, so the checks in
front of `check_dir` are all there is between its arguments and the file
system: one series for a path that exists, another one for a path that does
not. A path that fails one is skipped with a message.

Looking at the file system answers with what is there. Changing it may fail at
any time (`EROFS`, `ENOSPC`, a quota), else it does what it should. The
extraction behind the option `-x` is left out.
-/

namespace Wms.Dirmanager

open Wms.Lib

abbrev Text := List Char

/-! ## Calls -/

/-- An owner or a group that is not to be changed is `none`. -/
inductive Call where
  | stat (path : Text)
  | lstat (path : Text)
  | realpath (path : Text)
  | getpwnam
  | mkdir (path : Text) (mode : ℕ)
  | chown (path : Text) (uid gid : Option ℕ)
  | chmod (path : Text) (mode : ℕ)
  | rmdir (path : Text)

/-- What each system call answers. -/
@[reducible] def Answer : Call → Type
  | .stat _ => Except Errno Inode
  | .lstat _ => Except Errno Inode
  | .realpath _ => Text
  | .getpwnam => Option ℕ
  | .mkdir _ _ => Except Errno Unit
  | .chown _ _ _ => Except Errno Unit
  | .chmod _ _ => Except Errno Unit
  | .rmdir _ => Except Errno Unit

/-- A program that may exit with a status. -/
abbrev DirProc (α : Type) := Proc Call Answer ℕ α

/-- One system call. -/
def ask (c : Call) : DirProc (Answer c) := Proc.perform c

/-! ## `check_dir` -/

/-- The statuses the program exits with. -/
def errOptions : ℕ := 1
def errOutOfMemory : ℕ := 2
def errNoSuchGroup : ℕ := 3
def errStat : ℕ := 4
def errChown : ℕ := 8
def errChmod : ℕ := 16
def errNotADir : ℕ := 32
def errMkdir : ℕ := 64

/-- What the options ask for. -/
structure Job where
  optCreate : Bool
  createUid : Option ℕ
  newGroup : Option ℕ
  newMode : ℕ
  dirs : List Text

/-- `S_ISDIR` -/
def isDir (node : Inode) : Bool :=
  match node.kind with
  | .directory _ => true
  | _ => false

/-- Group and mode of what is there. -/
def adjust (job : Job) (dir : Text) : Except Errno Inode → DirProc ℕ
  | .error _ => pure errStat
  | .ok node =>
      if isDir node then do
        let r ← ask (.chown dir none job.newGroup)
        match r with
        | .error _ => pure errChown
        | .ok _ =>
            let r ← ask (.chmod dir job.newMode)
            match r with
            | .error _ => pure errChmod
            | .ok _ => pure 0
      else pure errNotADir

/-- A directory that cannot be given away is removed again. -/
def makeDir (job : Job) (dir : Text) : DirProc ℕ := do
  let r ← ask (.mkdir dir job.newMode)
  match r with
  | .error _ => pure errMkdir
  | .ok _ =>
      let r ← ask (.chown dir job.createUid job.newGroup)
      match r with
      | .error _ =>
          let _ ← ask (.rmdir dir)
          pure errChown
      | .ok _ =>
          let r ← ask (.stat dir)
          adjust job dir r

/-- A directory that is not there is made, one that is there gets its owner and its
mode. -/
def checkDir (job : Job) (dir : Text) : DirProc ℕ := do
  let r ← ask (.stat dir)
  match r with
  | .error .noEntry =>
      if job.optCreate then makeDir job dir
      else adjust job dir (.error .noEntry)
  | r => adjust job dir r

/-! ## The loop of `main` -/

/-- What a path has to begin with. -/
def sandboxDir : Text := "/var/SandboxDir".toList

/-- The bits of `st_mode` that tell the type. -/
def typeBits : FileKind → ℕ
  | .fifo => 0o010000
  | .characterDevice => 0o020000
  | .directory _ => 0o040000
  | .blockDevice => 0o060000
  | .regular => 0o100000
  | .symlink _ => 0o120000
  | .socket => 0o140000

/-- The bits of a mode that `S_IFLNK` tests. -/
def linkBits : ℕ := 0o120000

/-- Two dots anywhere in the text. -/
def hasDots : Text → Bool
  | [] => false
  | c :: cs => (c = '.' && cs.head? = some '.') || hasDots cs

/-- The status of an uncaught exception. -/
def aborted : ℕ := 134

/-- `boost::filesystem::exists`. -/
def pathExists (dir : Text) : DirProc Bool := do
  let r ← ask (.stat dir)
  match r with
  | .ok _ => pure true
  | .error .noEntry => pure false
  | .error .notDirectory => pure false
  | .error _ => .throw aborted

/-- Whether `stat` says that it is a directory. -/
def isDirectory (dir : Text) : DirProc Bool := do
  let r ← ask (.stat dir)
  match r with
  | .ok node => pure (isDir node)
  | .error _ => pure false

/-- Whether a directory that is no link belongs to the glite user. -/
def ownedByGlite (node : Inode) : DirProc Bool := do
  let r ← ask .getpwnam
  match r with
  | none => .throw 1
  | some uid => pure (node.uid = uid)

/-- The checks of an entity, from what `lstat` says of it. -/
def entityAllowed (dir : Text) (node : Inode) : DirProc Bool := do
  if typeBits node.kind &&& linkBits ≠ 0 then pure false
  else if !(← isDirectory dir) then pure false
  else ownedByGlite node

/-- The checks of a path that exists. What `stat` finds `lstat` finds. -/
def existingAllowed (dir : Text) : DirProc Bool := do
  let destination ← ask (.realpath dir)
  if !sandboxDir.isPrefixOf destination then pure false
  else
    let r ← ask (.lstat dir)
    match r with
    | .error _ => pure false
    | .ok node => entityAllowed dir node

/-- Whether a path passes. One that does not exist is judged by its text. -/
def allowed (dir : Text) : DirProc Bool := do
  if ← pathExists dir then existingAllowed dir
  else pure !(hasDots dir)

/-- `exit` unless the directory was adjusted. -/
def exitUnlessDone (status : ℕ) : DirProc Unit :=
  if status = 0 then pure () else .throw status

/-- One directory of the command line, unless it is skipped. -/
def handle (job : Job) (dir : Text) : DirProc Unit := do
  if ← allowed dir then do
    let status ← checkDir job dir
    exitUnlessDone status
  else pure ()

/-- The loop over the directories. -/
def handleAll (job : Job) : List Text → DirProc Unit
  | [] => pure ()
  | dir :: dirs => do
      handle job dir
      handleAll job dirs

/-! ## Options -/

/-- An option as `getopt` finds it. -/
inductive Opt where
  | verbose
  | help
  | create (arg : Text)
  | group (arg : Text)
  | mode (arg : Text)
  | unknown
  deriving DecidableEq

/-- The arguments, sorted by `getopt` into options and names. -/
structure Invocation where
  argc : ℕ
  opts : List Opt
  dirs : List Text

/-- What the program finds around it: the library and the user data base, the
working directory, and what a new directory gets from the kernel. -/
structure Platform where
  /-- `strtol` with base 0, of a text that is a number to its end. -/
  strtol : Text → Option ℤ
  /-- The group, or whether the memory was exhausted. -/
  getgrnam : Text → Except Bool ℕ
  /-- The environment variable `GLITE_USER`. -/
  gliteUser : Option Text
  /-- The user `glite`. -/
  gliteUid : Option ℕ
  cwd : Place
  umasked : ℕ → ℕ
  inherited : Inode → ℕ

variable (pl : Platform)

/-- The number of an unsigned type; all bits set leave things as they are. -/
def toId (n : ℤ) : Option ℕ :=
  let id := (n % 4294967296).toNat
  if id = 4294967295 then none else some id

/-- What the options set. -/
structure Settings where
  optCreate : Bool := false
  createUid : Option ℕ := some 0
  newGroup : Text
  newMode : ℕ := 0o770

/-- The options in the order of `getopt`; one that is wrong ends the program. -/
def readOptions (set : Settings) : List Opt → Except ℕ Settings
  | [] => .ok set
  | .help :: _ => .error 0
  | .verbose :: opts => readOptions set opts
  | .create arg :: opts =>
      match pl.strtol arg with
      | some uid =>
          readOptions { set with optCreate := true, createUid := toId uid } opts
      | none => .error errOptions
  | .group arg :: opts => readOptions { set with newGroup := arg } opts
  | .mode arg :: opts =>
      match pl.strtol arg with
      | some mode =>
          readOptions { set with newMode := (mode % 4294967296).toNat } opts
      | none => .error errOptions
  | .unknown :: _ => .error errOptions

/-- A group by its number or else by its name. -/
def findGroup (name : Text) : Except ℕ (Option ℕ) :=
  match pl.strtol name with
  | some gid => .ok (toId gid)
  | none =>
      match pl.getgrnam name with
      | .ok gid => .ok (toId gid)
      | .error true => .error errOutOfMemory
      | .error false => .error errNoSuchGroup

/-- What there is to do, or the status the program exits with before it does
anything. -/
def plan (inv : Invocation) : Except ℕ Job :=
  if inv.argc < 2 then .error errOptions
  else
    match readOptions pl { newGroup := pl.gliteUser.getD "glite".toList }
        inv.opts with
    | .error status => .error status
    | .ok set =>
        match findGroup pl set.newGroup with
        | .error status => .error status
        | .ok group =>
            .ok ⟨set.optCreate, set.createUid, group, set.newMode, inv.dirs⟩

/-- The program: the options first, then the directories. -/
def main (inv : Invocation) : DirProc Unit :=
  match plan pl inv with
  | .error status => .throw status
  | .ok job => handleAll job job.dirs

/-! ## The file system under it -/

/-- A change, and where it was made. -/
inductive Change where
  | created (place : Place)
  | owned (place : Place)
  | moded (place : Place)
  deriving DecidableEq

/-- What is changed. -/
def Change.place : Change → Place
  | .created place => place
  | .owned place => place
  | .moded place => place

/-- The file system, and the changes that were made to it. -/
structure Machine where
  fs : FileSystem
  changes : List Change

/-- An empty directory of root's. -/
def newDirectory (parent : Option Inode) (mode : ℕ) : Inode where
  kind := .directory []
  uid := 0
  gid := (parent.map pl.inherited).getD 0
  mode := pl.umasked mode

/-- `chown`: what is not said stays. -/
def giveTo (uid gid : Option ℕ) (node : Inode) : Inode :=
  { node with uid := uid.getD node.uid, gid := gid.getD node.gid }

/-- The bits that `chmod` sets. -/
def modeBits (mode : ℕ) : ℕ := mode % 2 ^ 12

/-- `chmod` -/
def setMode (mode : ℕ) (node : Inode) : Inode :=
  { node with mode := modeBits mode }

/-- The inode of a place. -/
def inodeAt (fs : FileSystem) (place : Place) : Except Errno Inode :=
  match fs.inodes[place.inode]? with
  | some node => .ok node
  | none => .error .other

/-- `stat`, or `lstat` where the last link is not followed. -/
def statAt (fs : FileSystem) (follow : Bool) (path : Text) :
    Except Errno Inode := do
  let place ← fs.resolve pl.cwd follow path
  inodeAt fs place

/-- The text is empty where nothing is found. -/
def realpathAt (fs : FileSystem) (path : Text) : Text :=
  match fs.resolve pl.cwd true path with
  | .error _ => []
  | .ok place => renderPath place.names

/-- A change at the place a path leads to. -/
def changeAt (m : Machine) (path : Text) (f : Inode → Inode)
    (change : Place → Change) : Except Errno Unit × Machine :=
  match m.fs.resolve pl.cwd true path with
  | .error e => (.error e, m)
  | .ok place =>
      (.ok (), ⟨m.fs.modify place.inode f, m.changes ++ [change place]⟩)

/-- `mkdir`, which the caller may not be allowed. -/
def makeAt (m : Machine) (path : Text) (mode : ℕ) :
    Except Errno Unit × Machine :=
  match m.fs.creatable pl.cwd path with
  | .error e => (.error e, m)
  | .ok (here, name) =>
      let node := newDirectory pl (m.fs.inodes[here.inode]?) mode
      (.ok (), ⟨m.fs.create here name node,
        m.changes ++ [.created ((name, m.fs.inodes.length) :: here)]⟩)

/-- Only an empty directory is removed. -/
def removeAt (m : Machine) (path : Text) : Except Errno Unit × Machine :=
  match m.fs.resolve pl.cwd false path with
  | .error e => (.error e, m)
  | .ok place =>
      if m.fs.entries place.inode = some [] then
        (.ok (), { m with fs := m.fs.remove place })
      else (.error .other, m)

/-- How a file system answers the calls. -/
def world : Proc.World Machine Call Answer := fun m c =>
  match c with
  | .stat path => fun _ => (statAt pl m.fs true path, m)
  | .lstat path => fun _ => (statAt pl m.fs false path, m)
  | .realpath path => fun _ => (realpathAt pl m.fs path, m)
  | .getpwnam => fun _ => (pl.gliteUid, m)
  | .mkdir path mode => fun r =>
      match r with
      | .error e => (.error e, m)
      | .ok _ => makeAt pl m path mode
  | .chown path uid gid => fun r =>
      match r with
      | .error e => (.error e, m)
      | .ok _ => changeAt pl m path (giveTo uid gid) .owned
  | .chmod path mode => fun r =>
      match r with
      | .error e => (.error e, m)
      | .ok _ => changeAt pl m path (setMode mode) .moded
  | .rmdir path => fun r =>
      match r with
      | .error e => (.error e, m)
      | .ok _ => removeAt pl m path

/-- A complete run from a file system, with the failures that are offered. -/
def run (inv : Invocation) (o : Proc.Oracle Call Answer) (fs : FileSystem) :
    Proc.Done Machine ℕ Unit :=
  Proc.exec (world pl) o 0 ⟨fs, []⟩ (main pl inv)

/-! ## What the program is for -/

/-- At `/var/SandboxDir` or below it. -/
def Inside (place : Place) : Prop :=
  ["var".toList, "SandboxDir".toList] <+: place.names

instance (place : Place) : Decidable (Inside place) :=
  inferInstanceAs (Decidable (_ <+: _))

/-- A directory with the group and the mode asked for. -/
def Right (job : Job) (fs : FileSystem) (dir : Text) : Prop :=
  ∃ node, statAt pl fs true dir = .ok node ∧ isDir node = true ∧
    (∀ gid, job.newGroup = some gid → node.gid = gid) ∧
    node.mode = modeBits job.newMode

/-- An invocation as if it did not ask for help: what it asks for besides. -/
def requested (inv : Invocation) : Except ℕ Job :=
  plan pl { inv with opts := inv.opts.filter fun opt => opt ≠ .help }

/-- The program ends with status zero, by a return or by an `exit`. -/
def exitsZero : Except ℕ Unit → Bool
  | .ok _ => true
  | .error status => status = 0

/-- The changes of a run are inside and touch nothing that was somebody
else's; and a run that ends with status zero leaves all directories right. -/
structure Confined (inv : Invocation) (o : Proc.Oracle Call Answer)
    (fs : FileSystem) : Prop where
  inside : ∀ change ∈ (run pl inv o fs).state.changes, Inside change.place
  owned : ∀ change ∈ (run pl inv o fs).state.changes, ∀ node,
    fs.inodes[change.place.inode]? = some node → pl.gliteUid = some node.uid
  complete : exitsZero (run pl inv o fs).result = true →
    ∀ job, requested pl inv = .ok job →
      ∀ dir ∈ job.dirs, Right pl job (run pl inv o fs).state.fs dir

/-! ## When it does it -/

/-- Where a path leads, or where it would be created. -/
def destination (fs : FileSystem) (dir : Text) : Except Errno Place :=
  match fs.resolve pl.cwd true dir with
  | .ok place => .ok place
  | .error _ => do
      let (here, name) ← fs.creatable pl.cwd dir
      .ok ((name, fs.inodes.length) :: here)

/-- The place a path really leads to is inside. -/
def Located (fs : FileSystem) (dir : Text) : Prop :=
  ∃ place, destination pl fs dir = .ok place ∧ Inside place

/-- What the checks make of a path. -/
inductive Verdict where
  | passes
  | skipped
  /-- The program ends there. -/
  | ends
  deriving DecidableEq

/-- The checks of an entity, as they come out of a file system: the node is
what the path leads to, the entity what the path itself names. -/
def judgeEntity (node : Inode) : Except Errno Inode → Verdict
  | .error _ => .skipped
  | .ok entity =>
      if typeBits entity.kind &&& linkBits ≠ 0 then .skipped
      else if !isDir node then .skipped
      else
        match pl.gliteUid with
        | none => .ends
        | some uid => if entity.uid = uid then .passes else .skipped

/-- What is said of a path by its letters alone. -/
def judgeText (dir : Text) : Verdict :=
  if hasDots dir then .skipped else .passes

/-- And those of a path. -/
def judge (fs : FileSystem) (dir : Text) : Verdict :=
  match statAt pl fs true dir with
  | .ok node =>
      if sandboxDir.isPrefixOf (realpathAt pl fs dir) then
        judgeEntity pl node (statAt pl fs false dir)
      else .skipped
  | .error .noEntry => judgeText dir
  | .error .notDirectory => judgeText dir
  | .error _ => .ends

/-- Whether the program came to its end. -/
def succeeded {ε α : Type} : Except ε α → Bool
  | .ok _ => true
  | .error _ => false

/-- The first change for a path that passes is not refused: neither by the
answer offered, which comes after two looks at a path that does not exist and
after six at one that does, nor for want of a parent. -/
def begins (job : Job) (o : Proc.Oracle Call Answer) (n : ℕ) (fs : FileSystem)
    (dir : Text) : Bool :=
  match statAt pl fs true dir with
  | .ok _ => succeeded (o (n + 6) (.chown dir none job.newGroup))
  | .error .noEntry =>
      job.optCreate && succeeded (o (n + 2) (.mkdir dir job.newMode)) &&
        succeeded (fs.creatable pl.cwd dir)
  | .error _ => false

/-- An argument in the loop, with the calls made until then, before and
after. -/
structure Visit where
  number : ℕ
  before : Machine
  dir : Text
  after : Machine

/-- The arguments a run comes to. -/
def visits (job : Job) (o : Proc.Oracle Call Answer) :
    ℕ → Machine → List Text → List Visit
  | _, _, [] => []
  | n, m, dir :: dirs =>
      let d := Proc.exec (world pl) o n m (handle job dir)
      ⟨n, m, dir, d.state⟩ ::
        match d.result with
        | .ok _ => visits job o d.calls d.state dirs
        | .error _ => []

/-- A path that passes lies inside, unless nothing can be changed for it; none
is skipped that is not right already; and help is asked for only where all
are. Each is about the file system before the argument is dealt with. -/
structure Orderly (inv : Invocation) (o : Proc.Oracle Call Answer)
    (fs : FileSystem) : Prop where
  located : ∀ job, plan pl inv = .ok job →
    ∀ v ∈ visits pl job o 0 ⟨fs, []⟩ job.dirs,
      judge pl v.before.fs v.dir = .passes →
        begins pl job o v.number v.before.fs v.dir = true →
          Located pl v.before.fs v.dir
  unskipped : ∀ job, plan pl inv = .ok job →
    ∀ v ∈ visits pl job o 0 ⟨fs, []⟩ job.dirs,
      judge pl v.before.fs v.dir = .skipped → Right pl job v.before.fs v.dir
  unhelped : plan pl inv = .error 0 →
    ∀ job, requested pl inv = .ok job → ∀ dir ∈ inv.dirs, Right pl job fs dir

/-- An invocation with the first ones of its arguments. -/
def Invocation.upTo (inv : Invocation) (dirs : List Text) : Invocation :=
  { inv with dirs := dirs }

end Wms.Dirmanager
