import Mathlib.Data.Finset.Insert
import Wms.Core.LbUtils

/-!
# Recovery of a collection (`src/org.glite.wms.core/src/recovery.cpp`)

The branch of `request_recovery` for a collection that was being submitted when
the manager stopped: the request is taken up again as a whole, or the parent
node and those of its children that have to be processed again are put into the
queue of events one by one.
-/

namespace Wms.Core.CollectionRecovery

open Wms.Core

/-! ## What is known of the collection -/

/-- A node of the collection, with its id where its description has one. -/
structure Node where
  name : Text
  jobid : Option Text

/-- The nodes of a collection, no two of one name. -/
structure Collection where
  nodes : List Node
  nodup : (nodes.map Node.name).Nodup

/-- The two arrays in the status of the collection: the ids up to the first null
pointer, and the states, where an undefined one is `none`. An array of states
that is not there is empty. -/
structure CollectionStatus where
  children : Option (List Text)
  childrenStates : List (Option JobStat)

/-- `is_every_children_submitted` -/
def isEveryChildrenSubmitted (s : CollectionStatus) : Bool :=
  s.childrenStates.all fun status => isInState .submitted status

/-- What the LB says for each node, by its name: the events, and whether a
context can be made. -/
structure Environment where
  recoveryEvents : Text → Except Errno (List LbEvent)
  createContext : Text → Except String Unit

/-! ## `select_recoverable_nodes` -/

/-- A node that is scheduled again. -/
structure RecoverableNodeInfo where
  name : Text
  nodeId : Text

/-- The children are read up to the first one without a state. -/
def childrenStatesOf : List Text → List (Option JobStat) → List (Text × JobStat)
  | i :: ids, some j :: states => (i, j) :: childrenStatesOf ids states
  | _, _ => []

/-- The children of whom the L&B knows the state. -/
def selectChildren (s : CollectionStatus) : List (Text × JobStat) :=
  match s.children with
  | none => []
  | some ids => childrenStatesOf ids s.childrenStates

/-- Whether a node is recoverable, from its status and its events. -/
def isRecoverable (status : Option JobStat) (events : List LbEvent) : Bool :=
  if isLastDone events .failed then false
  else if isInState .waiting status then true
  else if events.isEmpty && isInState .submitted status then true
  else if inLimbo status events then false
  else isInState .ready status

/-- One step; whatever is thrown leaves the node out. -/
def selectRecoverableNode (env : Environment) (childrenStates : List (Text × JobStat))
    (recoverableNodes : List RecoverableNodeInfo) (node : Node) :
    List RecoverableNodeInfo :=
  match node.jobid with
  | none => recoverableNodes
  | some nodeId =>
      match childrenStates.lookup nodeId with
      | none => recoverableNodes
      | some status =>
          match queryResult false (env.recoveryEvents node.name) with
          | .error _ => recoverableNodes
          | .ok events =>
              if isRecoverable (some status) events then
                recoverableNodes ++ [⟨node.name, nodeId⟩]
              else recoverableNodes

/-- The nodes that have not got anywhere yet. -/
def selectRecoverableNodes (env : Environment) (collection : Collection)
    (s : CollectionStatus) : List RecoverableNodeInfo :=
  collection.nodes.foldl (selectRecoverableNode env (selectChildren s)) []

/-! ## `create_submit_request` -/

/-- What is done when the last reference to a request goes. -/
inductive Cleanup where
  | removeFromInput
  | removeNodeFromCollection (name : Text)
  deriving DecidableEq

/-- The `SubmitState` of a request for submission. -/
structure State where
  id : Text
  lastCheckpointing : Checkpoint
  cleanup : Cleanup
  deriving DecidableEq

/-- The shared pointer in a `SubmitProcessor`, which may be null. -/
abbrev Processor := Option State

/-- The request for a node, and what is pending of the collection then. Where no
context can be made the pointer is still null when it is returned. -/
def createSubmitRequest (env : Environment) (collectionPending : Finset Text)
    (rni : RecoverableNodeInfo) : Processor × Finset Text :=
  match env.createContext rni.name with
  | .ok () =>
      (some ⟨rni.nodeId, .start, .removeNodeFromCollection rni.name⟩,
        insert rni.name collectionPending)
  | .error _ => (none, collectionPending)

/-! ## `request_recovery` -/

/-- The processors put into the queue, what is pending in the state of the parent,
and whether the request is taken out of the input. -/
structure Recovered where
  scheduled : List Processor
  collectionPending : Finset Text
  ignored : Bool

/-- One of them becomes a request of its own. -/
def scheduleNode (env : Environment) (r : Recovered) (rni : RecoverableNodeInfo) :
    Recovered :=
  let (request, collectionPending) :=
    createSubmitRequest env r.collectionPending rni
  { r with
    scheduled := r.scheduled ++ [request]
    collectionPending := collectionPending }

/-- The collection needs not be recovered node by node. -/
def isWhole (status : Option JobStat) (s : CollectionStatus) : Bool :=
  isInState .submitted status ||
    (isInState .waiting status && isEveryChildrenSubmitted s)

/-- The branch of `request_recovery`, with the status of the parent and that of
the collection. -/
def requestRecovery (env : Environment) (id : Text) (collection : Collection)
    (status : Option JobStat) (collectionStatus : Option CollectionStatus) :
    Recovered :=
  match collectionStatus with
  | none => ⟨[], ∅, true⟩
  | some s =>
      if isWhole status s then
        ⟨[some ⟨id, .start, .removeFromInput⟩], ∅, false⟩
      else
        let recoverableNodes := selectRecoverableNodes env collection s
        recoverableNodes.foldl (scheduleNode env)
          ⟨[some ⟨id, .pending, .removeFromInput⟩], ∅, false⟩

end Wms.Core.CollectionRecovery
