import Mathlib.Data.List.Sort
import Wms.Common.Manipulation
import Wms.Lib.Columns
import Wms.Lib.Lts
import Wms.Lib.Table

/-!
# Job directories (`common/src/utilities/jobdir.cpp`, `jobdir_reader.cpp`)

A request is a file: it is written under `tmp`, renamed into `new` by who
delivers it and from there into `old` by who reads it. Any number of processes
deliver, a call to the file system at a time, and one process reads. A name is
made of the clock, of the thread that opened the directory and of a tag.

Names in a directory refer to files, so that two deliveries under one name have
one file open. A delivery that fails, or whose process ends, leaves its file
under `tmp`.
-/

namespace Wms.Common.Utilities.JobDir

open Wms.Lib

/-! ## Names -/

/-- What `universal_time` makes of the clock. -/
structure Ptime where
  year : ℕ
  month : ℕ
  day : ℕ
  hours : ℕ
  minutes : ℕ
  seconds : ℕ
  fractionalSeconds : ℕ
  year_valid : 1400 ≤ year ∧ year < 10000
  date_valid : month < 13 ∧ day < 32
  time_valid : hours < 24 ∧ minutes < 60 ∧ seconds < 60
  fraction_valid : fractionalSeconds < 1000000
  deriving DecidableEq

/-- `num_fractional_digits` -/
def numFractionalDigits : ℕ := 6

/-- The clock, by its parts. -/
def Ptime.parts (t : Ptime) : List ℕ :=
  [t.year, t.month, t.day, t.hours, t.minutes, t.seconds, t.fractionalSeconds]

/-- A fraction of zero is left out. -/
def toIsoString (t : Ptime) : Text :=
  Nat.toDigits 10 t.year ++ column 2 t.month ++ column 2 t.day ++
    'T' :: (column 2 t.hours ++ column 2 t.minutes ++ column 2 t.seconds ++
      if t.fractionalSeconds = 0 then []
      else '.' :: column numFractionalDigits t.fractionalSeconds)

/-- A tag that can be part of a file name. -/
structure Tag where
  text : Text
  plain : '/' ∉ text ∧ '\x00' ∉ text
  deriving DecidableEq

/-- The name of a delivery: its time with a fraction in any case, the identifier of the
caller and the tag. -/
def fileName (t : Ptime) (idStr : Text) (tag : Tag) : Text :=
  let fileName := toIsoString t
  let fileName :=
    if fileName.length = 15 then
      fileName ++ '.' :: List.replicate numFractionalDigits '0'
    else fileName
  let fileName := fileName ++ '_' :: idStr
  if tag.text.isEmpty then fileName else fileName ++ '_' :: tag.text

/-- `id_str`, of a thread. -/
def idStr (thread : ℕ) : Text := Nat.toDigits 10 thread

/-! ## Directories -/

/-- The entries of a directory, by their names. -/
abbrev Directory := Table fun entry : Text × ℕ => entry.1

/-- The names in a directory. -/
def leaves (dir : Directory) : List Text := dir.rows.map fun entry => entry.1

/-- `write` at an offset. A gap before it is filled with NULs. -/
def writeAt (offset : ℕ) (buf file : Text) : Text :=
  file.take offset ++ List.replicate (offset - file.length) '\x00' ++ buf ++
    file.drop (offset + buf.length)

/-- What `JobDirItem::value` makes of a file. -/
def valueOf (file : Text) : Text := file.takeWhile (· ≠ '\x00')

/-- A call of `deliver` that has created its file. -/
structure Delivery where
  call : ℕ
  name : Text
  contents : Text
  file : ℕ
  written : ℕ

/-- A call of `read`: what is left of the entries, and the result so far. -/
structure Reading where
  entries : List Text
  result : List Text

/-- `calls` is how many calls of `deliver` have created a file, `returned` are
those that came to their end, `handed` the items that `read` has returned,
`stranded` those it made before it failed, and `values` what was read of items. -/
structure State where
  files : List Text
  tmp : Directory
  new : Directory
  old : Directory
  calls : ℕ
  deliveries : Table Delivery.call
  returned : List (Text × Text)
  reading : Option Reading
  handed : List Text
  stranded : List Text
  values : List (Text × Text)

/-- Three directories with nothing in them. -/
def init : State where
  files := []
  tmp := .empty
  new := .empty
  old := .empty
  calls := 0
  deliveries := .empty
  returned := []
  reading := none
  handed := []
  stranded := []
  values := []

/-- What a name refers to. -/
def contentsOf (s : State) (dir : Directory) (name : Text) : Option Text :=
  (dir.find? name).bind fun entry => s.files[entry.2]?

/-! ## Delivering -/

/-- The file is created, or made empty where it exists. -/
def openTmp (s : State) (name contents : Text) : State :=
  match s.tmp.find? name with
  | some entry =>
      { s with
        files := s.files.set entry.2 []
        calls := s.calls + 1
        deliveries := s.deliveries.put ⟨s.calls, name, contents, entry.2, 0⟩ }
  | none =>
      { s with
        files := s.files ++ [[]]
        tmp := s.tmp.put (name, s.files.length)
        calls := s.calls + 1
        deliveries := s.deliveries.put ⟨s.calls, name, contents, s.files.length, 0⟩ }

/-- Some more of the contents. -/
def writeSome (s : State) (d : Delivery) (n : ℕ) : State :=
  let buf := (d.contents.drop d.written).take n
  { s with
    files := s.files.modify d.file (writeAt d.written buf)
    deliveries :=
      s.deliveries.put { d with written := d.written + buf.length } }

/-- The last step. Where the name is gone there is an error. -/
def renameToNew (s : State) (d : Delivery) : State :=
  match s.tmp.find? d.name with
  | some entry =>
      { s with
        tmp := s.tmp.delete d.name
        new := s.new.put entry
        deliveries := s.deliveries.delete d.call
        returned := s.returned ++ [(d.name, d.contents)] }
  | none => { s with deliveries := s.deliveries.delete d.call }

/-! ## Reading -/

/-- `new_entries` -/
def newEntries (s : State) : List Text := (leaves s.new).insertionSort (· ≤ ·)

/-- `set_old` and the item for it. An error leaves `read`, and with it all that
it has made. -/
def setOld (s : State) (name : Text) (rest result : List Text) : State :=
  match s.new.find? name with
  | some entry =>
      { s with
        new := s.new.delete name
        old := s.old.put entry
        reading := some ⟨rest, result ++ [name]⟩ }
  | none => { s with reading := none, stranded := s.stranded ++ result }

/-! ## Steps -/

/-- A system call of a delivery or of the reader. -/
inductive Label where
  | create (t : Ptime) (thread : ℕ) (tag : Tag) (contents : Text)
  | write (call n : ℕ)
  | rename (call : ℕ)
  | fail (call : ℕ)
  | newEntries
  | setOld
  | setOldFails
  | endRead
  | value (name : Text)
  | removeFromInput (name : Text)

/-- One of these calls. -/
def next (s : State) : Label → Option State
  | .create t thread tag contents =>
      some (openTmp s (fileName t (idStr thread) tag) contents)
  | .write call n => (s.deliveries.find? call).map fun d => writeSome s d n
  | .rename call =>
      match s.deliveries.find? call with
      | some d =>
          if d.written = d.contents.length then some (renameToNew s d) else none
      | none => none
  | .fail call =>
      (s.deliveries.find? call).map fun d =>
        { s with deliveries := s.deliveries.delete d.call }
  | .newEntries =>
      match s.reading with
      | none => some { s with reading := some ⟨newEntries s, []⟩ }
      | some _ => none
  | .setOld =>
      match s.reading with
      | some ⟨name :: rest, result⟩ => some (setOld s name rest result)
      | _ => none
  | .setOldFails =>
      match s.reading with
      | some ⟨_ :: _, result⟩ =>
          some { s with reading := none, stranded := s.stranded ++ result }
      | _ => none
  | .endRead =>
      match s.reading with
      | some ⟨[], result⟩ =>
          some { s with reading := none, handed := s.handed ++ result }
      | _ => none
  | .value name =>
      if name ∈ s.handed then
        (contentsOf s s.old name).map fun file =>
          { s with values := s.values ++ [(name, valueOf file)] }
      else none
  | .removeFromInput name =>
      if name ∈ s.handed then some { s with old := s.old.delete name } else none

/-! ## What a job directory promises -/

/-- What tells one call of `deliver` from another. -/
def Label.key : Label → Option (Ptime × ℕ × Tag)
  | .create t thread tag _ => some (t, thread, tag)
  | _ => none

/-- What a reading has handed on, or has still to. -/
def moved (s : State) : List Text :=
  (s.reading.map (·.result)).getD [] ++ s.handed ++ s.stranded

/-- Every delivery that has returned is in one place, and complete: it waits
under `new`, or the reader has moved it, and then it has handed it out once or
lost it to an error. What is read is what was delivered. -/
structure Keeps (s : State) : Prop where
  unique : (s.returned.map (·.1)).Nodup
  once : (s.returned.map (·.1)).Perm (leaves s.new ++ moved s)
  waits : ∀ name contents, (name, contents) ∈ s.returned → name ∈ leaves s.new →
    contentsOf s s.new name = some contents
  whole : ∀ name contents, (name, contents) ∈ s.returned → name ∈ leaves s.old →
    contentsOf s s.old name = some contents
  values : ∀ name value, (name, value) ∈ s.values →
    ∃ contents, (name, contents) ∈ s.returned ∧ value = valueOf contents

end Wms.Common.Utilities.JobDir
