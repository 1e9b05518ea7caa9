import Wms.Jobsubmission.LogMonitor
import Wms.Lib.Lts
import Wms.Lib.SortedVector

/-!
# The ids kept in memory (`common/ram_container.cpp`, `pointer_id.cpp`)

A copy of the list file in which a job is found by either of its ids. The pairs
are the nodes of a list, and two vectors in the order of the ids refer to them.
An entry of a vector keeps its own id, and asks the node for the other one.

A node is known by an address that no other node ever gets, so that a reference
outlives what it refers to. To read or to erase through such a reference is
undefined, and `none` stands for it.
-/

namespace Wms.Jobsubmission.LogMonitor

open Wms.Lib

/-- An ad of the list file. An attribute that is missing, or of another type,
is `none`. -/
structure IdAd where
  condorId : Option Text
  edgId : Option Text
  sequenceCode : Option Text
  condorStatus : Option ℤ
  lastStatus : Option ℤ
  retryCount : Option ℤ

/-- The list file of a consistent `IdContainer`: every ad names both ids, and no
id of either kind is there twice. -/
structure IdList where
  ads : List IdAd
  named : ∀ ad ∈ ads, ad.condorId.isSome ∧ ad.edgId.isSome
  condors : (ads.map IdAd.condorId).Nodup
  edgs : (ads.map IdAd.edgId).Nodup

/-- `PointerId::reset`: what the ad does not say stays as it was. -/
def PointerId.reset (p : PointerId) (ad : IdAd) : PointerId where
  condorId := ad.condorId.getD p.condorId
  edgId := ad.edgId.getD p.edgId
  sequenceCode := ad.sequenceCode.getD p.sequenceCode
  condorStatus := ad.condorStatus.getD p.condorStatus
  lastStatus := ad.lastStatus.getD p.lastStatus
  retryCount := ad.retryCount.getD p.retryCount

/-- A node of `rc_pointers`: its address and what it holds. -/
abbrev Node := ℕ × PointerId

/-- An `EdgId` or a `CondorId`: its own copy of the id, and the node. -/
structure IdEntry where
  position : ℕ
  id : Text
  deriving DecidableEq

/-- The entry of a node, by the id that `key` reads. -/
def IdEntry.of (key : PointerId → Text) (n : Node) : IdEntry := ⟨n.1, key n.2⟩

/-- `x` may stand before `y` in a vector that `Compare` sorts. -/
def IdEntry.precedes (x y : IdEntry) : Bool := x.id ≤ y.id

/-- `allocated` is the address of the next node. -/
structure RamContainer where
  inserted : ℤ
  pointers : List Node
  edgs : List IdEntry
  condors : List IdEntry
  allocated : ℕ

namespace RamContainer

/-- No pointers. -/
def empty : RamContainer := ⟨0, [], [], [], 0⟩

/-- What a reference to a node reads. -/
def pointerAt (rc : RamContainer) (position : ℕ) : Option PointerId :=
  (rc.pointers.find? fun n => n.1 = position).map Prod.snd

/-- `rc_pointers.erase( position )` -/
def erasePointer (rc : RamContainer) (position : ℕ) : Option RamContainer :=
  if (rc.pointerAt position).isSome then
    some { rc with pointers := rc.pointers.filter fun n => n.1 ≠ position }
  else none

/-- `rc_pointers.push_back( p )` -/
def pushPointer (rc : RamContainer) (p : PointerId) : RamContainer :=
  { rc with
    pointers := rc.pointers ++ [(rc.allocated, p)]
    allocated := rc.allocated + 1 }

/-! ## The copy -/

/-- The loop of `internalCopy`. One `PointerId` is reset to ad after ad. -/
def pushAds (rc : RamContainer) (current : PointerId) : List IdAd → RamContainer
  | [] => rc
  | ad :: ads =>
      let current := current.reset ad
      let n : Node := (rc.allocated, current)
      pushAds { rc.pushPointer current with
        edgs := rc.edgs ++ [.of PointerId.edgId n]
        condors := rc.condors ++ [.of PointerId.condorId n] } current ads

/-- The default constructor leaves the three numbers as they are in memory. -/
def internalCopy (rc : RamContainer) (memory : ℤ × ℤ × ℤ) (ic : IdList) :
    RamContainer :=
  let rc := rc.pushAds ⟨[], [], [], memory.1, memory.2.1, memory.2.2⟩ ic.ads
  { rc with
    condors := rc.condors.mergeSort IdEntry.precedes
    edgs := rc.edgs.mergeSort IdEntry.precedes }

/-- `copy`: the pointers of another container, and the indices for them. -/
def copy (rc : RamContainer) (memory : ℤ × ℤ × ℤ) (ic : IdList) : RamContainer :=
  { rc with inserted := 0, pointers := [], edgs := [], condors := [] }.internalCopy
    memory ic

/-! ## The lookups -/

/-- `condor_id`, empty for an identifier that is not there. -/
def condorId (rc : RamContainer) (edgId : Text) : Option Text :=
  match lookupKey IdEntry.id rc.edgs edgId with
  | none => some []
  | some e => (rc.pointerAt e.position).map PointerId.condorId

/-- `edg_id` -/
def edgId (rc : RamContainer) (condorId : Text) : Option Text :=
  match lookupKey IdEntry.id rc.condors condorId with
  | none => some []
  | some c => (rc.pointerAt c.position).map PointerId.edgId

/-! ## The insertion -/

/-- The loop of `insert`: an entry that has one of the two ids goes, with its
node, and the search is repeated. The flag says that both ids were found. -/
def evict (edgId condorId : Text) (rc : RamContainer) :
    Option (RamContainer × Bool) :=
  match _ : lookupKey IdEntry.id rc.edgs edgId,
      _ : lookupKey IdEntry.id rc.condors condorId with
  | some _, some _ => some (rc, true)
  | some e, none =>
      match rc.erasePointer e.position with
      | none => none
      | some rc' =>
          evict edgId condorId
            { rc with
              pointers := rc'.pointers
              edgs := eraseKey IdEntry.id rc.edgs edgId }
  | none, some c =>
      match rc.erasePointer c.position with
      | none => none
      | some rc' =>
          evict edgId condorId
            { rc with
              pointers := rc'.pointers
              condors := eraseKey IdEntry.id rc.condors condorId }
  | none, none => some (rc, false)
termination_by rc.edgs.length + rc.condors.length
decreasing_by
  · have := length_eraseKey_lt ‹lookupKey IdEntry.id rc.edgs edgId = some e›
    omega
  · have := length_eraseKey_lt ‹lookupKey IdEntry.id rc.condors condorId = some c›
    omega

/-- A new node, with an entry in each vector. -/
def add (rc : RamContainer) (edgId condorId : Text) : RamContainer :=
  let p : PointerId := ⟨condorId, edgId, [], 0, undefinedStatus, 0⟩
  let n : Node := (rc.allocated, p)
  { rc.pushPointer p with
    condors := insertKey IdEntry.id rc.condors (.of PointerId.condorId n)
    edgs := insertKey IdEntry.id rc.edgs (.of PointerId.edgId n)
    inserted := rc.inserted + 1 }

/-- `insert`: what was there under either identifier goes first. -/
def insert (rc : RamContainer) (edgId condorId : Text) : Option RamContainer :=
  match rc.evict edgId condorId with
  | none => none
  | some (rc, true) => some rc
  | some (rc, false) => some (rc.add edgId condorId)

/-! ## The removal -/

/-- The flag says that nothing was removed. -/
def removeByCondorId (rc : RamContainer) (condorId : Text) :
    Option (Bool × RamContainer) :=
  match lookupKey IdEntry.id rc.condors condorId with
  | none => some (true, rc)
  | some c =>
      match rc.pointerAt c.position with
      | none => none
      | some p =>
          match lookupKey IdEntry.id rc.edgs p.edgId with
          | none => some (true, rc)
          | some e =>
              match rc.erasePointer e.position with
              | none => none
              | some rc' =>
                  some (false,
                    { rc' with
                      edgs := eraseKey IdEntry.id rc.edgs p.edgId
                      condors := eraseKey IdEntry.id rc.condors condorId
                      inserted := rc.inserted - 1 })

/-! ## Calls in any order -/

/-- The calls of the container. -/
inductive Call where
  | copy (memory : ℤ × ℤ × ℤ) (ic : IdList)
  | insert (edgId condorId : Text)
  | removeByCondorId (condorId : Text)

/-- One call. -/
def next (rc : RamContainer) : Call → Option RamContainer
  | .copy memory ic => some (rc.copy memory ic)
  | .insert edgId condorId => rc.insert edgId condorId
  | .removeByCondorId condorId => (rc.removeByCondorId condorId).map Prod.snd

end RamContainer

end Wms.Jobsubmission.LogMonitor
