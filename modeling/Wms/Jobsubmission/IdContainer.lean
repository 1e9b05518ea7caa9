import Wms.Jobsubmission.RamContainer

/-!
# The container of ids (`common/id_container.cpp`, `pointer_id.cpp`)

The jobs that are known, each with its two ids: as ads in a list file, as a list
in memory, and by two vectors in the order of the ids. A pointer in memory keeps
the position of its ad in the file, and an entry of a vector keeps the pointer.
What changes an ad erases it and appends it again.

A pointer is known by an address that no other pointer ever gets, as in
`ram_container.cpp`. To read through a reference to a pointer that is gone is
undefined, and an exception of the list file leaves the call; `none` stands for
both. Other handles change the file only where `refresh` finds that.
-/

namespace Wms.Jobsubmission.Jccommon

open Wms.Lib LogMonitor

/-! ## The list file -/

/-- The records of the `FileList`, each with its position, and the position of
the next one. -/
structure AdFile where
  records : List (ℕ × IdAd)
  fileEnd : ℕ

namespace AdFile

/-- A file as it is after it was written in one go. -/
def ofAds (ads : List IdAd) : AdFile := ⟨(List.range ads.length).zip ads, ads.length⟩

/-- The ad at a position of the file. -/
def adAt (f : AdFile) (position : ℕ) : Option IdAd :=
  (f.records.find? fun r => r.1 = position).map Prod.snd

/-- `push_back`: the ad goes behind the last one. -/
def pushBack (f : AdFile) (ad : IdAd) : AdFile :=
  ⟨f.records ++ [(f.fileEnd, ad)], f.fileEnd + 1⟩

/-- Throws where there is no record. -/
def erase (f : AdFile) (position : ℕ) : Option AdFile :=
  if (f.adAt position).isSome then
    some { f with records := f.records.filter fun r => r.1 ≠ position }
  else none

end AdFile

/-! ## The pointers -/

/-- A pointer in memory, and where its ad is in the file. -/
structure Pointer extends PointerId where
  position : ℕ

/-- `PointerId( position )` -/
def Pointer.read (r : ℕ × IdAd) : Pointer where
  toPointerId := PointerId.reset ⟨[], [], [], 0, undefinedStatus, 0⟩ r.2
  position := r.1

/-- `PointerId::reset( position )` -/
def Pointer.reset (p : Pointer) (r : ℕ × IdAd) : Pointer where
  toPointerId := p.toPointerId.reset r.2
  position := r.1

/-- An element of `ic_pointers`, without its position in the file. -/
def node (n : ℕ × Pointer) : Node := (n.1, n.2.toPointerId)

/-- `last` is `ic_last`, and `allocated` the address of the next pointer. -/
structure IdContainer where
  inserted : ℕ
  container : AdFile
  pointers : List (ℕ × Pointer)
  edgs : List IdEntry
  condors : List IdEntry
  last : Option ℕ
  allocated : ℕ

namespace IdContainer

/-- What a reference to a pointer reads. -/
def pointerAt (ic : IdContainer) (address : ℕ) : Option Pointer :=
  (ic.pointers.find? fun n => n.1 = address).map Prod.snd

/-! ## The construction -/

/-- The loop of `onConstruct`. -/
def pushRecords (ic : IdContainer) : List (ℕ × IdAd) → IdContainer
  | [] => ic
  | r :: rs =>
      let n : ℕ × Pointer := (ic.allocated, .read r)
      pushRecords { ic with
        pointers := ic.pointers ++ [n]
        edgs := ic.edgs ++ [.of PointerId.edgId (node n)]
        condors := ic.condors ++ [.of PointerId.condorId (node n)]
        allocated := ic.allocated + 1 } rs

/-- `onConstruct`: the indices are filled from the file. -/
def onConstruct (ic : IdContainer) : IdContainer :=
  let ic := ic.pushRecords ic.container.records
  { ic with
    condors := ic.condors.mergeSort IdEntry.precedes
    edgs := ic.edgs.mergeSort IdEntry.precedes }

/-- `IdContainer( filename )` -/
def construct (file : AdFile) : IdContainer :=
  onConstruct ⟨0, file, [], [], [], none, 0⟩

/-! ## The lookups -/

/-- `condor_id`, empty for an identifier that is not there. -/
def condorId (ic : IdContainer) (edgId : Text) : Option Text :=
  match lookupKey IdEntry.id ic.edgs edgId with
  | none => some []
  | some e => (ic.pointerAt e.position).map fun p => p.condorId

/-- `edg_id` -/
def edgId (ic : IdContainer) (condorId : Text) : Option Text :=
  match lookupKey IdEntry.id ic.condors condorId with
  | none => some []
  | some c => (ic.pointerAt c.position).map fun p => p.edgId

/-- `position_by_condor_id` -/
def positionByCondorId (ic : IdContainer) (condorId : Text) : Option ℕ :=
  (lookupKey IdEntry.id ic.condors condorId).map IdEntry.position

/-! ## The changes -/

/-- The flag says that nothing was inserted. The status goes into the ad only. -/
def insert (ic : IdContainer) (edgId condorId sequenceCode : Text) (status : ℤ) :
    Bool × IdContainer :=
  if (lookupKey IdEntry.id ic.edgs edgId).isSome ∨
      (lookupKey IdEntry.id ic.condors condorId).isSome then (true, ic)
  else
    let value : IdAd :=
      ⟨some condorId, some edgId, some sequenceCode, some status, none, none⟩
    let n : ℕ × Pointer := (ic.allocated,
      ⟨⟨condorId, edgId, sequenceCode, 0, undefinedStatus, 0⟩, ic.container.fileEnd⟩)
    (false,
      { inserted := ic.inserted + 1
        container := ic.container.pushBack value
        pointers := ic.pointers ++ [n]
        edgs := insertKey IdEntry.id ic.edgs (.of PointerId.edgId (node n))
        condors := insertKey IdEntry.id ic.condors (.of PointerId.condorId (node n))
        last := some ic.allocated
        allocated := ic.allocated + 1 })

/-- The ad of a pointer is erased and appended as it is now. -/
def replace (ic : IdContainer) (address : ℕ) (p : Pointer) (modified : IdAd) :
    Option IdContainer :=
  match ic.container.erase p.position with
  | none => none
  | some file =>
      some { ic with
        container := file.pushBack modified
        pointers := ic.pointers.map fun n =>
          if n.1 = address then (n.1, n.2.reset (file.fileEnd, modified)) else n }

/-- The ad that `update_pointer` writes. -/
def updated (ad : IdAd) (sequenceCode : Text) (status lastStatus : ℤ) : IdAd :=
  { ad with
    sequenceCode := some sequenceCode
    condorStatus := some status
    lastStatus :=
      if lastStatus ≠ undefinedStatus then some lastStatus else ad.lastStatus }

/-- The ad that `increment_pointer_retry_count` writes. -/
def incremented (ad : IdAd) (count : ℤ) : IdAd :=
  { ad with retryCount := some (count + 1) }

/-- `update_pointer` -/
def updatePointer (ic : IdContainer) (address : ℕ) (sequenceCode : Text)
    (status lastStatus : ℤ) : Option IdContainer :=
  match ic.pointerAt address with
  | none => none
  | some p =>
      match ic.container.adAt p.position with
      | none => none
      | some ad =>
          ic.replace address p (updated ad sequenceCode status lastStatus)

/-- `increment_pointer_retry_count` -/
def incrementPointerRetryCount (ic : IdContainer) (address : ℕ) : Option IdContainer :=
  match ic.pointerAt address with
  | none => none
  | some p =>
      match ic.container.adAt p.position with
      | none => none
      | some ad => ic.replace address p (incremented ad p.retryCount)

/-- The flag says that the list file has thrown. -/
def removePointers (ic : IdContainer) (edgPos condorPos : IdEntry) :
    Option (Bool × IdContainer) :=
  match ic.pointerAt edgPos.position with
  | none => none
  | some p =>
      match ic.container.erase p.position with
      | none => some (true, ic)
      | some file =>
          some (false, { ic with
            container := file
            pointers := ic.pointers.filter fun n => n.1 ≠ edgPos.position
            edgs := eraseKey IdEntry.id ic.edgs edgPos.id
            condors := eraseKey IdEntry.id ic.condors condorPos.id })

/-- The flag says that nothing was removed. -/
def removeByEdgId (ic : IdContainer) (edgId : Text) : Option (Bool × IdContainer) :=
  match lookupKey IdEntry.id ic.edgs edgId with
  | none => some (true, ic)
  | some e =>
      match ic.pointerAt e.position with
      | none => none
      | some p =>
          match lookupKey IdEntry.id ic.condors p.condorId with
          | none => some (true, ic)
          | some c => ic.removePointers e c

/-- `remove_by_condor_id` -/
def removeByCondorId (ic : IdContainer) (condorId : Text) :
    Option (Bool × IdContainer) :=
  match lookupKey IdEntry.id ic.condors condorId with
  | none => some (true, ic)
  | some c =>
      match ic.pointerAt c.position with
      | none => none
      | some p =>
          match lookupKey IdEntry.id ic.edgs p.edgId with
          | none => some (true, ic)
          | some e => ic.removePointers e c

/-- The indexes of a file, built anew. -/
def rebuild (ic : IdContainer) (file : AdFile) : IdContainer :=
  onConstruct { ic with container := file, pointers := [], edgs := [], condors := [] }

/-- `modified` is what other handles have left in the file. -/
def refresh (ic : IdContainer) (modified : Option IdList) : IdContainer :=
  match modified with
  | none => ic
  | some l => ic.rebuild (.ofAds l.ads)

/-- `compact`: the file is written anew and so are the indices. -/
def compact (ic : IdContainer) : IdContainer :=
  { ic.rebuild (.ofAds (ic.container.records.map Prod.snd)) with inserted := 0 }

/-- `clear` -/
def clear (ic : IdContainer) : IdContainer :=
  { ic with container := ⟨[], 0⟩, pointers := [], edgs := [], condors := [] }

/-! ## Calls in any order -/

/-- A job is updated by its id in Condor, as the handlers of the events do. -/
inductive Call where
  | insert (edgId condorId sequenceCode : Text) (status : ℤ)
  | updatePointer (condorId sequenceCode : Text) (status lastStatus : ℤ)
  | incrementPointerRetryCount (condorId : Text)
  | removeByEdgId (edgId : Text)
  | removeByCondorId (condorId : Text)
  | refresh (modified : Option IdList)
  | compact
  | clear

/-- One call of the container. -/
def call (ic : IdContainer) : Call → Option IdContainer
  | .insert edgId condorId sequenceCode status =>
      some (ic.insert edgId condorId sequenceCode status).2
  | .updatePointer condorId sequenceCode status lastStatus =>
      match ic.positionByCondorId condorId with
      | none => some ic
      | some address => ic.updatePointer address sequenceCode status lastStatus
  | .incrementPointerRetryCount condorId =>
      match ic.positionByCondorId condorId with
      | none => some ic
      | some address => ic.incrementPointerRetryCount address
  | .removeByEdgId edgId => (ic.removeByEdgId edgId).map Prod.snd
  | .removeByCondorId condorId => (ic.removeByCondorId condorId).map Prod.snd
  | .refresh modified => some (ic.refresh modified)
  | .compact => some ic.compact
  | .clear => some ic.clear

/-- The file between the two changes that an update makes. -/
def between (ic : IdContainer) (condorId : Text) : Option AdFile :=
  match ic.positionByCondorId condorId with
  | none => none
  | some address =>
      match ic.pointerAt address with
      | none => none
      | some p => ic.container.erase p.position

/-- A call, or the process ends: between two calls, or in an update. -/
inductive Step where
  | call (c : Call)
  | stop
  | stopInUpdate (condorId : Text)

/-- A call, a restart, or a stop within an update and the restart after it. -/
def next (ic : IdContainer) : Step → Option IdContainer
  | .call c => ic.call c
  | .stop => some (construct ic.container)
  | .stopInUpdate condorId =>
      match ic.between condorId with
      | none => some (construct ic.container)
      | some file => some (construct file)

end IdContainer

end Wms.Jobsubmission.Jccommon
