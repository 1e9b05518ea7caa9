import Wms.Jobsubmission.FileOperations

/-!
# The list over a file container

`FileList` and `_file_sequence_t` from `filelist.h` and `filelist.cpp`, the
iterators of `filelist_iterator.cpp`, and the calls of `file_container.cpp` that
they are made of.

An operation is a sequence of calls to the container, and the file may change
its end between two of them. The member `fs_last` is left out: every operation
writes it before it reads it, so it is passed on here as the result. The clock
is read where a record is added or removed, and gives one time for each round of
a loop.
-/

namespace Wms.Jobsubmission.FileContainer

open Wms.Lib

/-! ## The calls of the container -/

/-- Where the first record is. -/
def readBegin (now : ℤ) : FileProg ℕ := do
  begin_ now true
  let h ← Prog.priv
  pure h.limits.prev

/-- Where the file ends. -/
def readEnd (now : ℤ) : FileProg ℕ := do
  begin_ now true
  getEnd

/-- `read_size`. What the check answers is given up where the container is to
be read again. -/
def readSize_ (now : ℤ) : FileProg ℕ := do
  let fileEnd ← getEnd
  let h ← Prog.priv
  let answer : Option Fault ←
    (do
      if h.initialized then checkStreamAndStamp now else initContainer now
      pure none : FileProg (Option Fault)).tryCatch fun
        | .offRecord => Prog.throw .offRecord
        | .unfinished => Prog.throw .unfinished
        | e => pure (some e)
  let fileEnd ←
    if h.initialized ∧ answer = none then getEnd else pure fileEnd
  let h ← Prog.priv
  if answer = some .containerModified ∨ h.limits.prev ≠ fileEnd ∧ h.size = 0 then
    syncData true
  else
    match answer with
    | some e => Prog.throw e
    | none => pure ()
  let h ← Prog.priv
  pure h.size

/-- The iterator of a record. -/
def getIterator (now : ℤ) (where_ : ℕ) : FileProg FileIterator := do
  begin_ now true
  readIterator where_ false

/-- `operator++`: the next record, or the end. -/
def incrementIterator (now : ℤ) (it : FileIterator) :
    FileProg FileIterator := do
  let fileEnd ← beginAt now true
  let h ← Prog.priv
  if it.current = 0 then readIterator h.limits.prev false
  else if it.next = fileEnd then pure ⟨0, 0, fileEnd⟩
  else
    let it ← readIterator it.current false
    readIterator it.next false

/-- `operator--`: the one before, or the last one from the end. -/
def decrementIterator (now : ℤ) (it : FileIterator) :
    FileProg FileIterator := do
  begin_ now true
  let fileEnd ← getEnd
  let h ← Prog.priv
  if it.current = fileEnd then readIterator h.limits.next false
  else if it.prev = 0 then pure ⟨0, 0, 0⟩
  else
    let it ← readIterator it.current false
    readIterator it.prev false

end Wms.Jobsubmission.FileContainer

namespace Wms.Jobsubmission.FileList

open Wms.Lib FileContainer

/-! ## Iterators -/

/-- `_base_iterator_t`, of one container. -/
structure BaseIterator where
  good : Bool
  iterator : FileIterator
  data : Text
  deriving DecidableEq, Repr

/-- The value at an iterator. -/
def readString (now : ℤ) (check : Bool) (it : FileIterator) :
    FileProg BaseIterator := do
  let fileEnd ← readEnd now
  if check = false ∧ it.current = fileEnd then pure ⟨false, it, []⟩
  else
    let r ← readData now it.current false
    pure ⟨true, r.2, r.1⟩

/-! ## The sequence -/

/-- `begin` -/
def getBegin (now : ℤ) : FileProg FileIterator := do
  let begin_ ← readBegin now
  let _ ← readEnd now
  getIterator now begin_

/-- `end` -/
def getEnd (now : ℤ) : FileProg FileIterator := do
  let fileEnd ← readEnd now
  getIterator now fileEnd

/-- A value before a position. -/
def insertData (now : ℤ) (position : ℕ) (val : Text) :
    FileProg FileIterator :=
  addData now val position

/-- The record at a position goes; the answer is the one behind it. -/
def erasePointer (now : ℤ) (position : ℕ) : FileProg FileIterator := do
  let _ ← readEnd now
  let iter ← getIterator now position
  let iter ← incrementIterator now iter
  removeData now position
  let size ← readSize_ now
  if size ≠ 0 then getIterator now iter.current
  else
    let fileEnd ← readEnd now
    getIterator now fileEnd

/-- One round of the loop in `eraseInterval`, with the end it has read. -/
def eraseNext (now : ℤ) (iter : FileIterator) :
    FileProg (FileIterator × ℕ) := do
  let iter ← getIterator now iter.current
  removeData now iter.current
  let iter ← incrementIterator now iter
  let fileEnd ← readEnd now
  pure (iter, fileEnd)

/-- The loop. A round that does not throw has one record less to remove, so
that it never runs out of fuel. -/
def eraseFrom (last : ℕ) : ℕ → (ℕ → ℤ) → FileIterator → FileProg FileIterator
  | 0, _, _ => Prog.throw .unfinished
  | fuel + 1, now, iter => do
      let r ← eraseNext (now 0) iter
      if r.1.current ≠ last ∧ r.1.current ≠ r.2 then
        eraseFrom last fuel (fun k => now (k + 1)) r.1
      else pure r.1

/-- The same for all records of an interval. -/
def eraseInterval (now : ℕ → ℤ) (first last : ℕ) : FileProg FileIterator := do
  let f ← Prog.store
  eraseFrom last (f.extent + 1) now ⟨0, 0, first⟩

/-- One round of the loop in `removeData`, with the end it has read. -/
def removeNext (now : ℤ) (value : Text) (iter : FileIterator) :
    FileProg (FileIterator × ℕ) := do
  let r ← readData now iter.current false
  if r.1 = value then FileContainer.removeData now r.2.current
  let iter ← incrementIterator now r.2
  let fileEnd ← readEnd now
  pure (iter, fileEnd)

/-- The loop of `remove`, which reads on behind each record it erases. -/
def removeFrom (value : Text) : ℕ → (ℕ → ℤ) → FileIterator → FileProg Unit
  | 0, _, _ => Prog.throw .unfinished
  | fuel + 1, now, iter => do
      let r ← removeNext (now 0) value iter
      if r.1.current ≠ r.2 then
        removeFrom value fuel (fun k => now (k + 1)) r.1

/-- `_file_sequence_t::removeData`, the records with a value. -/
def removeValue (now : ℕ → ℤ) (value : Text) : FileProg Unit := do
  let begin_ ← readBegin (now 0)
  let iter ← getIterator (now 0) begin_
  let f ← Prog.store
  removeFrom value (f.extent + 1) now iter

/-- `clear` -/
def clear (now : ℤ) : FileProg Unit := truncate now

/-! ## The list -/

/-- `push_front` -/
def pushFront (now : ℤ) (data : Text) : FileProg Unit := do
  let it ← getBegin now
  let _ ← insertData now it.current data

/-- `push_back` -/
def pushBack (now : ℤ) (data : Text) : FileProg Unit := do
  let it ← getEnd now
  let _ ← insertData now it.current data

/-- `pop_front` -/
def popFront (now : ℤ) : FileProg Unit := do
  let it ← getBegin now
  let _ ← erasePointer now it.current

/-- `pop_back` -/
def popBack (now : ℤ) : FileProg Unit := do
  let it ← getEnd now
  let it ← decrementIterator now it
  let _ ← erasePointer now it.current

/-- `insert` of one value. -/
def insert (now : ℤ) (position : ℕ) (val : Text) : FileProg BaseIterator := do
  let it ← insertData now position val
  readString now false it

/-- Before a position, each value in front of the one that is there. -/
def insertEach (position : ℕ) : (ℕ → ℤ) → List Text → FileProg Unit
  | _, [] => pure ()
  | now, val :: vals => do
      let _ ← insertData (now 0) position val
      insertEach position (fun k => now (k + 1)) vals

/-- The values of a range, each with the end read anew. -/
def insertEachAtEnd : (ℕ → ℤ) → List Text → FileProg Unit
  | _, [] => pure ()
  | now, val :: vals => do
      let it ← getEnd (now 0)
      let _ ← insertData (now 0) it.current val
      insertEachAtEnd (fun k => now (k + 1)) vals

/-- `insert` of a range, which is only possible at the end. -/
def insertRange (now : ℕ → ℤ) (position : ℕ) (vals : List Text) :
    FileProg Unit := do
  let _ ← getBegin (now 0)
  let last ← getEnd (now 0)
  if position = last.current then insertEachAtEnd now vals
  else insertEach position now vals

/-- `erase` of one position. -/
def erase (now : ℤ) (position : ℕ) : FileProg BaseIterator := do
  let it ← erasePointer now position
  readString now false it

/-- `erase` of an interval. -/
def eraseRange (now : ℕ → ℤ) (first last : ℕ) : FileProg BaseIterator := do
  let it ← eraseInterval now first last
  readString (now 0) false it

/-- `remove` -/
def remove (now : ℕ → ℤ) (val : Text) : FileProg Unit := removeValue now val

/-! ## Two lists -/

/-- A file and the handle of its list. -/
structure Opened where
  file : File
  handle : Handle

/-- A call on one of several lists. What is left after an exception is not
followed. -/
def Opened.exec {α : Type} (o : Opened) (m : FileProg α) :
    Except Fault (α × Opened) :=
  match m.run o.file o.handle with
  | ⟨.ok a, h, log⟩ => .ok (a, ⟨Store.applyAll o.file log, h⟩)
  | ⟨.error e, _, _⟩ => .error e

/-- The first two loops of `swapContainer`. -/
def readFrom (now : ℤ) (last : ℕ) : ℕ → FileIterator → FileProg (List Text)
  | 0, _ => Prog.throw .unfinished
  | fuel + 1, it =>
      if it.current ≠ last then do
        let r ← readString now true it
        let next ← incrementIterator now r.iterator
        let rest ← readFrom now last fuel next
        pure (r.data :: rest)
      else pure []

/-- The values in order, as a loop over the iterators reads them. -/
def readAll (now : ℤ) : FileProg (List Text) := do
  let last ← getEnd now
  let first ← getBegin now
  let f ← Prog.store
  readFrom now last.current (f.extent + 1) first

/-- `swapContainer` for an `other` that is not `this`, with the clock of either
loop that inserts. -/
def swapContainer (now : ℤ) (others these : ℕ → ℤ) (this other : Opened) :
    Except Fault (Opened × Opened) := do
  let (me, this) ← this.exec (readAll now)
  let (you, other) ← other.exec (readAll now)
  let ((), this) ← this.exec (clear now)
  let ((), other) ← other.exec (clear now)
  let ((), other) ← other.exec (insertEachAtEnd others me)
  let ((), this) ← this.exec (insertEachAtEnd these you)
  pure (this, other)

end Wms.Jobsubmission.FileList
