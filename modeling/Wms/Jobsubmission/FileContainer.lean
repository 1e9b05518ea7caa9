import Mathlib.Data.Int.Notation
import Mathlib.Logic.Function.Basic
import Wms.Lib.Journal

/-!
# The file container (`src/org.glite.wms.jobsubmission/src/common/file_container.cpp`)

A list kept in a file. Behind a header of fixed size the file holds records,
each with the positions of the records before and after it in the list. The
header says where the list begins and ends, how long it is and what is being
done to it, and has room for copies of what a change overwrites.

The model has the file as the fields of the header and the records by their
positions, so that a write changes one field or one record. `Fault.offRecord`
is not a status of the source. It stands for a write that would hit the middle
of a record or of the header, of which the model cannot say what is left.
-/

namespace Wms.Jobsubmission.FileContainer

open Wms.Lib

abbrev Text := List Char

/-! ## The file -/

/-- `TimeStamp`: the second, and a number within it. -/
structure TimeStamp where
  epoch : ℤ
  counter : ℕ
  deriving DecidableEq, Repr

/-- `operator>` -/
def TimeStamp.gt (s t : TimeStamp) : Bool :=
  decide (s.epoch > t.epoch) ||
    (decide (s.epoch = t.epoch) && decide (s.counter > t.counter))

/-- `ts_counter` is an `unsigned short`. -/
def nextCounter (n : ℕ) : ℕ := (n + 1) % 65536

/-- `update_stamp`, where the clock shows `now`. -/
def TimeStamp.updateStamp (now : ℤ) (s t : TimeStamp) : TimeStamp :=
  let s : TimeStamp :=
    if s.epoch = now then ⟨s.epoch, nextCounter s.counter⟩ else ⟨now, 0⟩
  if s.epoch < t.epoch then ⟨t.epoch, nextCounter t.counter⟩
  else if s.epoch = t.epoch ∧ s.counter ≤ t.counter then
    ⟨s.epoch, nextCounter t.counter⟩
  else s

/-- What a `FileIterator` is written as. -/
structure Links where
  prev : ℕ
  next : ℕ
  deriving DecidableEq, Repr

/-- `FileIterator`, what stands in the header of a record. -/
structure FileIterator where
  prev : ℕ
  next : ℕ
  current : ℕ
  deriving DecidableEq, Repr

/-- The two neighbours that the iterator names. -/
def FileIterator.links (it : FileIterator) : Links := ⟨it.prev, it.next⟩

/-- `filestatus_t`, the status in the header. Its first letters are the change that is going on: data
added at the end, at the beginning or in the middle, data removed, the file cut; the
rest is how far it has come. -/
inductive FileStatus where
  | empty | opened | closed
  | aeIterator | aeLimits | aeWriting | aeWritten
  | abIterator | abWriting | abWritten | abLast | abLimits
  | amIterator1 | amIterator2 | amWriting | amWritten | amLast
  | rdLimits | rdIterator | rdIterator2 | rdIterator3 | rdMark1 | rdMark2
  | ftBegin | ftEnd | adEmpty | rdEmpty
  deriving DecidableEq, Repr

/-- The status after the one `writeDataHere` was called with. -/
def FileStatus.written : FileStatus → FileStatus
  | .aeWriting => .aeWritten
  | .abWriting => .abWritten
  | .amWriting => .amWritten
  | status => status

/-- A record: its links, the data, the state, and its links in the order of the
file. -/
structure Record where
  links : Links
  data : Text
  good : Bool
  fileOrder : Links
  deriving DecidableEq, Repr

/-- What the parts of the header and of a record take. -/
def iteratorSize : ℕ := 16
def sizeSize : ℕ := 23
def headerSize : ℕ := 391

/-- `calculateDataSize`: two headers, two trailers and the data between them. -/
def calculateDataSize (size : ℕ) : ℕ := 4 * iteratorSize + sizeSize + size + 8

/-- `extent` is what the file holds behind the header. A field of the header is
`none` where the file ends before it. -/
@[ext] structure File where
  stamp : Option TimeStamp
  size : Option ℕ
  status : Option FileStatus
  iteratorBackup : Fin 4 → Option FileIterator
  limitsBackup : Option Links
  limits : Option Links
  removed : Option Links
  body : ℕ → Option Record
  extent : ℕ

/-- The file after `ftruncate` to nothing. -/
def File.none : File where
  stamp := .none
  size := .none
  status := .none
  iteratorBackup := fun _ => .none
  limitsBackup := .none
  limits := .none
  removed := .none
  body := fun _ => .none
  extent := 0

/-- Where the file ends; asked only where the header is complete. -/
def File.getEnd (f : File) : ℕ := headerSize + f.extent

/-- The record at a position. -/
def File.recordAt (f : File) (where_ : ℕ) : Option Record :=
  if headerSize ≤ where_ ∧ where_ < f.getEnd then f.body where_ else .none

/-- The single writes. `overwriteStart` is an empty iterator written at
position 0, over the stamp and the first digits of the size. -/
inductive Write where
  | stamp (t : TimeStamp)
  | size (n : ℕ)
  | status (s : FileStatus)
  | emptyBackup
  | iteratorBackup (what : Fin 4) (it : FileIterator)
  | limitsBackup (limits : Links)
  | limits (limits : Links)
  | removed (removed : Links)
  | overwriteStart
  | iterator (where_ : ℕ) (links : Links)
  | dataHeader (where_ : ℕ) (links : Links) (good : Bool)
  | append (r : Record)
  | truncate (size : ℕ)
  deriving DecidableEq, Repr

/-- What a write does to the file. -/
def File.apply (f : File) : Write → File
  | .stamp t => { f with stamp := some t }
  | .size n => { f with size := some n }
  | .status s => { f with status := some s }
  | .emptyBackup =>
      { f with
        iteratorBackup := fun _ => some ⟨0, 0, 0⟩
        limitsBackup := some ⟨0, 0⟩ }
  | .iteratorBackup what it =>
      { f with
        iteratorBackup := Function.update f.iteratorBackup what (some it) }
  | .limitsBackup limits => { f with limitsBackup := some limits }
  | .limits limits => { f with limits := some limits }
  | .removed removed => { f with removed := some removed }
  | .overwriteStart => { f with stamp := some ⟨0, 0⟩, size := some 0 }
  | .iterator p links =>
      { f with
        body := Function.update f.body p
          ((f.body p).map fun r => { r with links := links }) }
  | .dataHeader p links good =>
      { f with
        body := Function.update f.body p
          ((f.body p).map fun r => { r with links := links, good := good }) }
  | .append r =>
      { f with
        body := Function.update f.recordAt f.getEnd (some r)
        extent := f.extent + calculateDataSize r.data.length }
  | .truncate 0 => .none
  | .truncate size =>
      { f with
        body := fun p => (f.recordAt p).filter fun r =>
          decide (p + calculateDataSize r.data.length ≤ size)
        extent := size - headerSize }

instance : Store File Write where
  apply := File.apply

/-! ## A handle -/

/-- The members of `FileContainer` that say what it last saw of its file. -/
structure Handle where
  initialized : Bool
  size : ℕ
  stamp : TimeStamp
  limits : Links
  removed : Links
  deriving DecidableEq, Repr

/-- The codes of `FileContainerError` that are used, and `offRecord`. -/
inductive Fault where
  | syntaxError | ioError | dataError | unavailablePosition | containerModified
  | unrecoverableData | decrementingFromZero | notRemovingLast | offRecord
  | unfinished
  deriving DecidableEq, Repr

/-- A function of the container: it reads the file, writes it and may throw. -/
abbrev FileProg := Prog File Handle Write Fault

/-- The chain of removed records before there is any. -/
def noRemoved : Links := ⟨0xdead, 0xbeef⟩

/-- The constructor, at the time `now`. -/
def fresh (now : ℤ) : Handle where
  initialized := false
  size := 0
  stamp := ⟨now, 0⟩
  limits := ⟨0, 0⟩
  removed := noRemoved

/-- Assigns `fc_limits`. -/
def setLimits (limits : Links) : FileProg Unit :=
  Prog.modify fun h => { h with limits := limits }

/-- Assigns `fc_removed`. -/
def setRemoved (removed : Links) : FileProg Unit :=
  Prog.modify fun h => { h with removed := removed }

/-- Assigns `fc_size`. -/
def setSize (size : ℕ) : FileProg Unit :=
  Prog.modify fun h => { h with size := size }

/-- Assigns `fc_stamp`. -/
def setStamp (stamp : TimeStamp) : FileProg Unit :=
  Prog.modify fun h => { h with stamp := stamp }

/-! ## The fields of the header -/

/-- `writeFileStatus`, with which each step of a change begins or ends. -/
def writeFileStatus (status : FileStatus) : FileProg Unit :=
  Prog.write (.status status)

/-- `readFileStatus` -/
def readFileStatus : FileProg FileStatus := do
  let f ← Prog.store
  Prog.require .syntaxError f.status

/-- A size that cannot be read counts as 0. -/
def readSize : FileProg Unit := do
  let f ← Prog.store
  setSize (f.size.getD 0)

/-- `writeSize`, in the file and in memory. -/
def writeAndSetSize (size : ℕ) : FileProg Unit := do
  Prog.write (.size size)
  setSize size

/-- The file of backups is made anew. -/
def createEmptyBackup (state : FileStatus) : FileProg Unit := do
  Prog.write .emptyBackup
  writeFileStatus state

/-- One of the four backups, and the status that says it is there. -/
def writeIteratorBackup (what : Fin 4) (it : FileIterator)
    (status : FileStatus) : FileProg Unit := do
  Prog.write (.iteratorBackup what it)
  writeFileStatus status

/-- The backup that `writeIteratorBackup` left. -/
def readIteratorBackup (what : Fin 4) : FileProg FileIterator := do
  let f ← Prog.store
  Prog.require .ioError (f.iteratorBackup what)

/-- The backup of both limits. -/
def writeLimitsBackup (status : FileStatus) (limits : Links) :
    FileProg Unit := do
  Prog.write (.limitsBackup limits)
  writeFileStatus status

/-- The backup that `writeLimitsBackup` left. -/
def readLimitsBackup : FileProg Links := do
  let f ← Prog.store
  Prog.require .syntaxError f.limitsBackup

/-- `writeInitialPosition`: the first and the last record. -/
def writeInitialPosition (limits : Links) : FileProg Unit :=
  Prog.write (.limits limits)

/-- The first and the last of the removed records. -/
def writeInitialRemoved (removed : Links) : FileProg Unit :=
  Prog.write (.removed removed)

/-- What `writeInitialPosition` wrote. -/
def readInitialPosition : FileProg Links := do
  let f ← Prog.store
  Prog.require .syntaxError f.limits

/-- The limits of the chain of removed records. -/
def readInitialRemoved : FileProg Links := do
  let f ← Prog.store
  Prog.require .syntaxError f.removed

/-- The stamp in memory goes into the file. -/
def writeStamp : FileProg Unit := do
  let h ← Prog.priv
  Prog.write (.stamp h.stamp)

/-- A stamp that cannot be read leaves the one in the handle. -/
def readStamp : FileProg Unit := do
  let f ← Prog.store
  match f.stamp with
  | some t => setStamp t
  | none => pure ()

/-- `syncData`: memory is filled from the file again. -/
def syncData (stamp : Bool) : FileProg Unit := do
  setLimits (← readInitialPosition)
  setRemoved (← readInitialRemoved)
  readSize
  if stamp then readStamp

/-- The next stamp: a later second, or a greater number in the same one. -/
def updateTimeStamp (now : ℤ) : FileProg Unit := do
  let f ← Prog.store
  let stamp ← Prog.require .syntaxError f.stamp
  let h ← Prog.priv
  setStamp (h.stamp.updateStamp now stamp)
  writeStamp

/-- Whether another process has changed the file. -/
def checkStamp : FileProg Bool := do
  let f ← Prog.store
  let stamp ← Prog.require .syntaxError f.stamp
  let h ← Prog.priv
  pure (stamp.gt h.stamp)

/-! ## Empty files -/

/-- The header of a container without records. -/
def createEmptyFile (now : ℤ) : FileProg Unit := do
  setStamp ⟨now, 0⟩
  writeStamp
  writeAndSetSize 0
  writeFileStatus .opened
  setLimits ⟨headerSize, headerSize⟩
  setRemoved noRemoved
  createEmptyBackup .empty
  writeInitialPosition ⟨headerSize, headerSize⟩
  writeInitialRemoved noRemoved
  writeFileStatus .closed

/-- A size within the header is not modelled. -/
def truncateFile (now : ℤ) (size : ℕ) : FileProg Unit := do
  if size ≠ 0 ∧ size < headerSize then Prog.throw .offRecord
  Prog.write (.truncate size)
  if size = 0 then createEmptyFile now
  writeFileStatus .ftEnd

/-- `eraseFile`: the backup of the new size comes before the cut. -/
def eraseFile (now : ℤ) (size : ℕ) : FileProg Unit := do
  writeIteratorBackup 0 ⟨size, size, size⟩ .ftBegin
  truncateFile now size

/-! ## Iterators and records -/

/-- Where the file ends. -/
def getEnd : FileProg ℕ := do
  let f ← Prog.store
  pure f.getEnd

/-- Reads the header or the trailer of a record that begins within the file. -/
def readIterator (where_ : ℕ) (fileorder : Bool) : FileProg FileIterator := do
  let f ← Prog.store
  if headerSize ≤ where_ ∧ where_ < f.getEnd then
    let r ← Prog.require .syntaxError (f.body where_)
    let links := if fileorder then r.fileOrder else r.links
    pure ⟨links.prev, links.next, where_⟩
  else if where_ = f.getEnd then pure ⟨0, 0, f.getEnd⟩
  else if where_ = 0 then pure ⟨0, 0, 0⟩
  else Prog.throw .unavailablePosition

/-- Writes both ends of the record there. -/
def writeIterator (where_ : ℕ) (it : FileIterator) : FileProg Unit := do
  let f ← Prog.store
  if headerSize ≤ where_ ∨ where_ < f.getEnd then
    if (f.recordAt where_).isSome then Prog.write (.iterator where_ it.links)
    else if where_ = 0 ∧ it.links = ⟨0, 0⟩ then Prog.write .overwriteStart
    else Prog.throw .offRecord
  else Prog.throw .unavailablePosition

/-- The line after the iterator at `where_`. -/
def readSizeAndState (where_ : ℕ) : FileProg (ℕ × Bool) := do
  let f ← Prog.store
  let r ← Prog.require .syntaxError (f.recordAt where_)
  pure (r.data.length, r.good)

/-- The record says from now on that it is erased. -/
def markDataAsErased (it : FileIterator) (status : FileStatus) :
    FileProg Unit := do
  writeIteratorBackup 2 it status
  Prog.write (.dataHeader it.current it.links false)

/-- The same the other way, where what is there is a record. -/
def markDataAsUnerased (it : FileIterator) : FileProg Unit := do
  let _ ← readSizeAndState it.current
  Prog.write (.dataHeader it.current it.links true)

/-- The record itself, with the status before it if it holds anything. -/
def writeDataHere (it : FileIterator) (lit : FileIterator) (data : Text)
    (status : FileStatus) : FileProg Unit := do
  if data.length > 0 then
    writeFileStatus status
    Prog.write (.append ⟨it.links, data, true, lit.links⟩)
  else Prog.throw .dataError
  writeFileStatus status.written

/-- With the iterator, the one in the order of the file and the data. -/
def readDataHere (where_ : ℕ) (force : Bool) :
    FileProg (FileIterator × FileIterator × Text) := do
  let f ← Prog.store
  let r ← Prog.require .syntaxError (f.recordAt where_)
  if r.good || force then
    pure (⟨r.links.prev, r.links.next, where_⟩,
      ⟨r.fileOrder.prev, r.fileOrder.next, 0⟩, r.data)
  else Prog.throw .unavailablePosition

/-- The last record gets a new one behind it. -/
def resetNextOfLast (status : FileStatus) : FileProg Unit := do
  let h ← Prog.priv
  let iter ← readIterator h.limits.next false
  writeIteratorBackup 2 iter status
  let fileEnd ← getEnd
  writeIterator h.limits.next { iter with next := fileEnd }

/-! ## The check after a recovery -/

/-- Whether a difference to the stored size is put right. -/
def isAllowable (allowableSizeOffset detectedOffset : ℤ) : Bool :=
  (decide (allowableSizeOffset > 0) && decide (detectedOffset > 0) &&
      decide (detectedOffset ≤ allowableSizeOffset)) ||
    (decide (allowableSizeOffset < 0) && decide (detectedOffset < 0) &&
      decide (detectedOffset ≥ allowableSizeOffset)) ||
    decide (allowableSizeOffset = 0)

/-- The last element of the list is reached. -/
def checkLast (now allowableSizeOffset : ℤ) (it : FileIterator)
    (maxReachedOffset detectedSize fileEnd : ℕ) : FileProg Unit := do
  let h ← Prog.priv
  if detectedSize ≠ h.size ∧
      isAllowable allowableSizeOffset ((detectedSize : ℤ) - h.size) then
    writeAndSetSize detectedSize
  if maxReachedOffset < fileEnd then
    truncateFile now maxReachedOffset
    let newEnd ← getEnd
    if it.next ≠ newEnd then
      writeIterator it.current { it with next := newEnd }

/-- The loop over the elements, from the one `it` was read at. What was not
read from a record has 0 for its next. The walk ends for want of fuel only
where the links run in a circle. -/
def checkElements (now allowableSizeOffset : ℤ) (fileEnd : ℕ) :
    ℕ → FileIterator → ℕ → ℕ → FileProg Unit
  | 0, _, _, _ => Prog.throw .unfinished
  | fuel + 1, it, maxReachedOffset, detectedSize => do
      let f ← Prog.store
      let h ← Prog.priv
      match f.recordAt it.current with
      | none => Prog.throw .unavailablePosition
      | some r =>
          let currentMaximumOffset :=
            it.current + calculateDataSize r.data.length
          let maxReachedOffset := max maxReachedOffset currentMaximumOffset
          if it.current = h.limits.next then
            checkLast now allowableSizeOffset it maxReachedOffset
              (detectedSize + 1) fileEnd
          else if it.next < headerSize ∨ fileEnd ≤ it.next then
            Prog.throw .unavailablePosition
          else do
            let it ← readIterator it.next false
            checkElements now allowableSizeOffset fileEnd fuel it
              maxReachedOffset (detectedSize + 1)

/-- The records are followed from the first one; the file ends where they do. -/
def checkConsistency (now allowableSizeOffset : ℤ) : FileProg Unit := do
  let fileEnd ← getEnd
  readSize
  let f ← Prog.store
  let h ← Prog.priv
  let it ← readIterator h.limits.prev false
  checkElements now allowableSizeOffset fileEnd (f.extent + 1) it 0 0

/-! ## Recovery -/

/-- A record gets back the links of its backup. -/
def restoreIterator (what : Fin 4) : FileProg Unit := do
  let temp ← readIteratorBackup what
  writeIterator temp.current temp

/-- The limits become those of their backup. -/
def restoreLimits : FileProg Unit := do
  setLimits (← readLimitsBackup)
  let h ← Prog.priv
  writeInitialPosition h.limits

/-- The third backup says which record was marked. -/
def unerase : FileProg Unit := do
  let temp ← readIteratorBackup 2
  markDataAsUnerased temp

/-- The first element that `am_writing` had in front of it names the place of
the record that was being written. -/
def truncateAtNew (now : ℤ) : FileProg Unit := do
  let temp ← readIteratorBackup 0
  let temp ← readIterator temp.current false
  truncateFile now temp.prev

/-- The cases of the switch, each with those it falls through to. -/
def recoverFrom (now : ℤ) : FileStatus → FileProg Unit
  | .closed => pure ()
  | .empty => do
      writeFileStatus .closed
      syncData true
      let f ← Prog.store
      let h ← Prog.priv
      if h.size = 0 ∧ h.limits.prev ≠ f.getEnd then
        eraseFile now 0
        setSize 0
  | .opened | .ftEnd => writeFileStatus .closed
  | .aeWriting | .aeWritten => do
      let limits ← readInitialPosition
      truncateFile now limits.next
      restoreLimits
      restoreIterator 0
      checkConsistency now 1
  | .aeLimits => do
      restoreLimits
      restoreIterator 0
      checkConsistency now 1
  | .aeIterator => do
      restoreIterator 0
      checkConsistency now 1
  | .abLast => do
      restoreIterator 2
      let limits ← readInitialPosition
      truncateFile now limits.prev
      restoreLimits
      restoreIterator 0
      checkConsistency now 1
  | .abWriting | .abWritten => do
      let limits ← readInitialPosition
      truncateFile now limits.prev
      restoreLimits
      restoreIterator 0
      checkConsistency now 1
  | .abLimits => do
      restoreLimits
      restoreIterator 0
      checkConsistency now 1
  | .abIterator => do
      restoreIterator 0
      checkConsistency now 1
  | .amLast => do
      restoreIterator 2
      truncateAtNew now
      restoreIterator 1
      restoreIterator 0
      checkConsistency now 1
  | .amWriting | .amWritten => do
      truncateAtNew now
      restoreIterator 1
      restoreIterator 0
      checkConsistency now 1
  | .amIterator2 => do
      restoreIterator 1
      restoreIterator 0
      checkConsistency now 1
  | .amIterator1 => do
      restoreIterator 0
      checkConsistency now 1
  | .adEmpty => checkConsistency now 1
  | .ftBegin => do
      let temp ← readIteratorBackup 0
      truncateFile now temp.current
  | .rdMark1 => do
      unerase
      restoreIterator 0
      restoreLimits
      checkConsistency now (-1)
  | .rdIterator => do
      restoreIterator 0
      restoreLimits
      checkConsistency now (-1)
  | .rdLimits => do
      restoreLimits
      checkConsistency now (-1)
  | .rdMark2 => do
      unerase
      restoreIterator 1
      restoreIterator 0
      checkConsistency now (-1)
  | .rdIterator3 => do
      restoreIterator 1
      restoreIterator 0
      checkConsistency now (-1)
  | .rdIterator2 => do
      restoreIterator 0
      checkConsistency now (-1)
  | .rdEmpty => checkConsistency now (-1)

/-- `recover_data` after its checks. The copy it makes of the file is left out:
nothing reads it. -/
def recover (now : ℤ) (status : FileStatus) : FileProg Unit := do
  let status ← if status = .closed then readFileStatus else pure status
  recoverFrom now status
  if status ≠ .closed then writeFileStatus .closed

/-- What the constructor does with a file that was there. -/
def initContainer (now : ℤ) : FileProg Unit := do
  readStamp
  setLimits (← readInitialPosition)
  setRemoved (← readInitialRemoved)
  readSize
  let status ← readFileStatus
  if status ≠ .closed then recover now status
  Prog.modify fun h => { h with initialized := true }

/-- Throws where another process has changed the file. -/
def checkModified : FileProg Unit := do
  let modified ← checkStamp
  if modified then Prog.throw .containerModified

/-- What comes after a call that may have found the container modified. -/
def orSync (p : FileProg Unit) (stamp : Bool) : FileProg Unit :=
  p.tryCatch fun
    | .containerModified => syncData stamp
    | e => Prog.throw e

/-- `recover_data`, called by a client or from `checkStream`. -/
def recoverData (now : ℤ) (status : FileStatus) : FileProg Unit := do
  let h ← Prog.priv
  if h.initialized then
    orSync (do let _ ← readFileStatus; checkModified) true
  else initContainer now
  recover now status

/-- Recovers the file unless it was left closed. -/
def checkStream (now : ℤ) : FileProg Unit := do
  let status ← readFileStatus
  if status ≠ .closed then recoverData now status

/-- What each call does first. -/
def checkStreamAndStamp (now : ℤ) : FileProg Unit := do
  checkStream now
  checkModified

/-- How the public operations begin. -/
def begin_ (now : ℤ) (stamp : Bool) : FileProg Unit := do
  let h ← Prog.priv
  if h.initialized then orSync (checkStreamAndStamp now) stamp
  else initContainer now

/-- `createFile` and the rest of `open` for a file that does not exist. -/
def openNew (now : ℤ) : FileProg Unit := do
  createEmptyFile now
  updateTimeStamp now
  Prog.modify fun h => { h with initialized := true }

end Wms.Jobsubmission.FileContainer
