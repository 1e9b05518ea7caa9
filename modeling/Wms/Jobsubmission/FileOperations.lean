import Wms.Jobsubmission.FileContainer

/-!
# The operations of the file container

What `file_container.cpp` offers its clients: insertion, removal, truncation,
compaction and reading.

An insertion comes in three forms, for the end, the beginning and the middle of
the list, and a removal in four. Each saves what it is going to overwrite in the
header and says in the status byte how far it has come. A new record always goes
to the end of the file.
-/

namespace Wms.Jobsubmission.FileContainer

open Wms.Lib

/-! ## Insertion -/

/-- With `fileEnd`, where the record goes. The iterator that is returned is that
of the new record. -/
def addDataAtBegin (data : Text) (fileEnd : ℕ) : FileProg FileIterator := do
  let h ← Prog.priv
  let next := h.limits.prev
  let previous := h.limits.next
  let last := fileEnd + calculateDataSize data.length
  let temp ← readIterator next false
  writeIteratorBackup 0 temp .abIterator
  writeIterator next { temp with prev := fileEnd }
  writeLimitsBackup .abLimits h.limits
  setLimits { h.limits with prev := fileEnd }
  writeInitialPosition { h.limits with prev := fileEnd }
  let it : FileIterator := ⟨0, next, fileEnd⟩
  writeDataHere it ⟨previous, last, fileEnd⟩ data .abWriting
  resetNextOfLast .abLast
  pure it

/-- The record that was the last one is told of its successor, if there is
one. -/
def linkLast (fileEnd : ℕ) : FileProg ℕ := do
  let h ← Prog.priv
  if h.limits.next = fileEnd then pure 0
  else
    let temp ← readIterator h.limits.next false
    writeIteratorBackup 0 temp .aeIterator
    writeIterator h.limits.next { temp with next := fileEnd }
    pure h.limits.next

/-- Behind the last record. -/
def addDataAtEnd (data : Text) (fileEnd : ℕ) : FileProg FileIterator := do
  let h ← Prog.priv
  let next := fileEnd + calculateDataSize data.length
  let previous := h.limits.next
  let prev ← linkLast fileEnd
  writeLimitsBackup .aeLimits h.limits
  setLimits { h.limits with next := fileEnd }
  writeInitialPosition { h.limits with next := fileEnd }
  let it : FileIterator := ⟨prev, next, fileEnd⟩
  writeDataHere it ⟨previous, next, fileEnd⟩ data .aeWriting
  pure it

/-- Before a record that is not the first one. -/
def addDataInMiddle (data : Text) (where_ fileEnd : ℕ) :
    FileProg FileIterator := do
  let h ← Prog.priv
  let previous := h.limits.next
  let last := fileEnd + calculateDataSize data.length
  let temp1 ← readIterator where_ false
  let temp2 ← readIterator temp1.prev false
  writeIteratorBackup 0 temp1 .amIterator1
  writeIteratorBackup 1 temp2 .amIterator2
  writeIterator where_ { temp1 with prev := fileEnd }
  writeIterator temp2.current { temp2 with next := fileEnd }
  let it : FileIterator := ⟨temp1.prev, where_, fileEnd⟩
  writeDataHere it ⟨previous, last, fileEnd⟩ data .amWriting
  resetNextOfLast .amLast
  pure it

/-- How the operations begin that ask for the end of the file first. It is asked
for again only where the container was modified. -/
def beginAt (now : ℤ) (stamp : Bool) : FileProg ℕ := do
  let fileEnd ← getEnd
  let h ← Prog.priv
  if h.initialized then
    (do checkStreamAndStamp now; pure fileEnd).tryCatch fun
      | .containerModified => do syncData stamp; getEnd
      | e => Prog.throw e
  else do
    initContainer now
    pure fileEnd

/-- Which of the three it is. -/
def addDataAt (data : Text) (where_ fileEnd : ℕ) : FileProg FileIterator := do
  let h ← Prog.priv
  if where_ = fileEnd then addDataAtEnd data fileEnd
  else if where_ = h.limits.prev then addDataAtBegin data fileEnd
  else addDataInMiddle data where_ fileEnd

/-- `add_data`: at the end, at the beginning or in the middle. -/
def addData (now : ℤ) (data : Text) (where_ : ℕ) : FileProg FileIterator := do
  let fileEnd ← beginAt now false
  updateTimeStamp now
  writeFileStatus .opened
  let it ← addDataAt data where_ fileEnd
  createEmptyBackup .adEmpty
  let h ← Prog.priv
  writeAndSetSize (h.size + 1)
  writeFileStatus .closed
  pure it

/-! ## Removal -/

/-- The only record: the file is cut behind the header. -/
def removeOnly (now : ℤ) : FileProg Unit := do
  let h ← Prog.priv
  if h.size ≠ 1 then
    (checkConsistency now (1 - h.size)).tryCatch fun
      | .offRecord => Prog.throw .offRecord
      | .unfinished => Prog.throw .unfinished
      | _ => Prog.throw .notRemovingLast
  eraseFile now headerSize
  setLimits ⟨headerSize, headerSize⟩
  setRemoved noRemoved
  writeInitialPosition ⟨headerSize, headerSize⟩
  writeInitialRemoved noRemoved

/-- The last record of the list. -/
def removeLast (iter : FileIterator) (fileEnd : ℕ) : FileProg Unit := do
  let h ← Prog.priv
  writeLimitsBackup .rdLimits h.limits
  setLimits { h.limits with next := iter.prev }
  writeInitialPosition { h.limits with next := iter.prev }
  let temp ← readIterator iter.prev false
  writeIteratorBackup 0 temp .rdIterator
  writeIterator temp.current { temp with next := fileEnd }
  markDataAsErased iter .rdMark1

/-- The first record of the list. -/
def removeFirst (iter : FileIterator) : FileProg Unit := do
  let h ← Prog.priv
  writeLimitsBackup .rdLimits h.limits
  setLimits { h.limits with prev := iter.next }
  writeInitialPosition { h.limits with prev := iter.next }
  let temp ← readIterator iter.next false
  writeIteratorBackup 0 temp .rdIterator
  writeIterator temp.current { temp with prev := 0 }
  markDataAsErased iter .rdMark1

/-- The two neighbours are linked to each other. -/
def removeInMiddle (iter : FileIterator) : FileProg Unit := do
  let next ← readIterator iter.next false
  let prev ← readIterator iter.prev false
  writeIteratorBackup 0 next .rdIterator2
  writeIteratorBackup 1 prev .rdIterator3
  writeIterator next.current { next with prev := prev.current }
  writeIterator prev.current { prev with next := next.current }
  markDataAsErased iter .rdMark2

/-- The record is taken out of the chain, whichever it is in it. -/
def removeDataPointer (now : ℤ) (iter : FileIterator) : FileProg Unit := do
  let fileEnd ← getEnd
  if iter.next = fileEnd ∧ iter.prev = 0 then removeOnly now
  else if iter.next = fileEnd then removeLast iter fileEnd
  else if iter.prev = 0 then removeFirst iter
  else removeInMiddle iter

/-- A stored size of 0 is put right first. It then counts what is left. -/
def sizeToDecrement (now : ℤ) : FileProg Unit := do
  let h ← Prog.priv
  if h.size = 0 then
    (checkConsistency now 0).tryCatch fun
      | .offRecord => Prog.throw .offRecord
      | .unfinished => Prog.throw .unfinished
      | _ => Prog.throw .decrementingFromZero
    let h ← Prog.priv
    setSize (h.size + 1)

/-- `remove_data` -/
def removeData (now : ℤ) (where_ : ℕ) : FileProg Unit := do
  begin_ now false
  updateTimeStamp now
  writeFileStatus .opened
  let iter ← readIterator where_ false
  let state ← readSizeAndState where_
  if state.2 then removeDataPointer now iter
  else Prog.throw .unavailablePosition
  createEmptyBackup .rdEmpty
  sizeToDecrement now
  let h ← Prog.priv
  writeAndSetSize (h.size - 1)
  writeFileStatus .closed

/-! ## Truncation and compaction -/

/-- `truncate` -/
def truncate (now : ℤ) : FileProg Unit := do
  let h ← Prog.priv
  if h.initialized then checkStreamAndStamp now else initContainer now
  eraseFile now 0
  setSize 0

/-- The loop of `fillVector`. -/
def fillFrom (fileEnd : ℕ) : ℕ → ℕ → FileProg (List Text)
  | 0, _ => Prog.throw .unfinished
  | fuel + 1, where_ =>
      if where_ < fileEnd then do
        let r ← readDataHere where_ false
        let rest ← fillFrom fileEnd fuel r.1.next
        pure (r.2.2 :: rest)
      else pure []

/-- The values of a container in their order, for a compaction. -/
def fillVector (now : ℤ) : FileProg (List Text) := do
  let fileEnd ← getEnd
  orSync (checkStreamAndStamp now) true
  let f ← Prog.store
  let h ← Prog.priv
  let it ← readIterator h.limits.prev false
  fillFrom fileEnd (f.extent + 1) it.current

/-- All values at the end. -/
def addAll : List Text → ℕ → FileProg Unit
  | [], _ => pure ()
  | data :: rest, fileEnd => do
      let it ← addDataAtEnd data fileEnd
      addAll rest it.next

/-- `compact_data`: the file is written anew without what was erased. -/
def compactData (now : ℤ) : FileProg Unit := do
  let h ← Prog.priv
  if ¬ h.initialized then initContainer now
  let copy ← fillVector now
  eraseFile now 0
  writeFileStatus .opened
  let fileEnd ← getEnd
  addAll copy fileEnd
  createEmptyBackup .empty
  writeAndSetSize copy.length
  writeFileStatus .closed

/-! ## Reading -/

/-- `read_data` -/
def readData (now : ℤ) (where_ : ℕ) (fileorder : Bool) :
    FileProg (Text × FileIterator) := do
  let fileEnd ← beginAt now true
  if where_ ≤ fileEnd then
    let r ← readDataHere where_ fileorder
    if fileorder then pure (r.2.2, ⟨r.2.1.prev, r.2.1.next, where_⟩)
    else pure (r.2.2, r.1)
  else Prog.throw .unavailablePosition

end Wms.Jobsubmission.FileContainer
