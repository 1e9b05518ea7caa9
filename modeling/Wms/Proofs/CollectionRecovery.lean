import Mathlib.Data.List.Nodup
import Wms.Core.CollectionRecovery

/-!
# A collection is recovered node by node

Which nodes are recoverable is read off their statuses and events. One pass
over the recoverable ones puts a processor into the queue for each. It is a
processor without a request where no context can be made for the node.
-/

namespace Wms.Core.CollectionRecovery

open Wms.Core

variable {env : Environment} {id : Text} {collection : Collection}
  {status : Option JobStat} {s : CollectionStatus}

/-! ## What is recoverable -/

/-- The job still belongs to the manager: it waits, or has been submitted and
nothing has happened since, or is ready and has not been handed over. -/
structure Belongs (child : JobStat) (events : List LbEvent) : Prop where
  not_failed : isLastDone events .failed = false
  state : child.state = .waiting ∨ child.state = .submitted ∧ events = [] ∨
    child.state = .ready ∧ isLastEnQueuedByWm events .start = false

/-- A node is recoverable if its state and its events can be had and the job
still belongs to the manager. -/
def Recoverable (env : Environment) (s : CollectionStatus) (node : Node) : Prop :=
  ∃ nodeId child events, node.jobid = some nodeId ∧
    (selectChildren s).lookup nodeId = some child ∧
    queryResult false (env.recoveryEvents node.name) = .ok events ∧
    Belongs child events

theorem isRecoverable_iff {child : JobStat} {events : List LbEvent} :
    isRecoverable (some child) events = true ↔ Belongs child events := by
  obtain ⟨state, isCollection⟩ := child
  have hiff : Belongs ⟨state, isCollection⟩ events ↔
      isLastDone events .failed = false ∧
      (state = .waiting ∨ state = .submitted ∧ events = [] ∨
        state = .ready ∧ isLastEnQueuedByWm events .start = false) :=
    ⟨fun h => ⟨h.not_failed, h.state⟩, fun h => ⟨h.1, h.2⟩⟩
  rw [hiff]
  unfold isRecoverable inLimbo isInState
  cases hfailed : isLastDone events .failed with
  | true => simp
  | false =>
      cases state <;> cases isLastEnQueuedByWm events .start <;> simp

/-- What one step of the selection adds. -/
def picked (env : Environment) (childrenStates : List (Text × JobStat))
    (node : Node) : Option RecoverableNodeInfo :=
  node.jobid.bind fun nodeId =>
    (childrenStates.lookup nodeId).bind fun child =>
      match queryResult false (env.recoveryEvents node.name) with
      | .error _ => none
      | .ok events =>
          if isRecoverable (some child) events then some ⟨node.name, nodeId⟩
          else none

theorem selectRecoverableNode_eq (env : Environment)
    (childrenStates : List (Text × JobStat)) (nodes : List RecoverableNodeInfo)
    (node : Node) :
    selectRecoverableNode env childrenStates nodes node =
      nodes ++ (picked env childrenStates node).toList := by
  unfold selectRecoverableNode picked
  cases node.jobid with
  | none => exact (List.append_nil _).symm
  | some nodeId =>
      dsimp only [Option.bind_some]
      cases childrenStates.lookup nodeId with
      | none => exact (List.append_nil _).symm
      | some child =>
          dsimp only [Option.bind_some]
          cases queryResult false (env.recoveryEvents node.name) with
          | error e => exact (List.append_nil _).symm
          | ok events =>
              dsimp only
              split
              · rfl
              · exact (List.append_nil _).symm

theorem selectRecoverableNodes_eq (env : Environment) (collection : Collection)
    (s : CollectionStatus) :
    selectRecoverableNodes env collection s =
      collection.nodes.filterMap (picked env (selectChildren s)) := by
  have hfold : ∀ (nodes : List Node) (acc : List RecoverableNodeInfo),
      nodes.foldl (selectRecoverableNode env (selectChildren s)) acc =
        acc ++ nodes.filterMap (picked env (selectChildren s)) := by
    intro nodes
    induction nodes with
    | nil => exact fun acc => (List.append_nil acc).symm
    | cons node nodes ih =>
        intro acc
        rw [List.foldl_cons, ih, selectRecoverableNode_eq, List.append_assoc]
        refine congrArg (acc ++ ·) ?_
        cases hpicked : picked env (selectChildren s) node with
        | none => rw [List.filterMap_cons_none hpicked]; rfl
        | some rni => rw [List.filterMap_cons_some hpicked]; rfl
  exact hfold collection.nodes []

theorem picked_eq_some {node : Node} {rni : RecoverableNodeInfo} :
    picked env (selectChildren s) node = some rni ↔
      Recoverable env s node ∧ node.name = rni.name ∧
        node.jobid = some rni.nodeId := by
  unfold picked Recoverable
  rw [Option.bind_eq_some_iff]
  constructor
  · rintro ⟨nodeId, hid, h⟩
    obtain ⟨child, hchild, h⟩ := Option.bind_eq_some_iff.mp h
    cases hevents : queryResult false (env.recoveryEvents node.name) with
    | error e =>
        rw [hevents] at h
        cases h
    | ok events =>
        rw [hevents] at h
        dsimp only at h
        split at h
        · next hrecoverable =>
            cases h
            exact ⟨⟨nodeId, child, events, hid, hchild, rfl,
              isRecoverable_iff.mp hrecoverable⟩, rfl, hid⟩
        · cases h
  · rintro ⟨⟨nodeId, child, events, hid, hchild, hevents, hbelongs⟩, hname, hid'⟩
    refine ⟨nodeId, hid, Option.bind_eq_some_iff.mpr ⟨child, hchild, ?_⟩⟩
    rw [hevents]
    dsimp only
    rw [if_pos (isRecoverable_iff.mpr hbelongs)]
    rw [hid] at hid'
    cases hid'
    rw [hname]

/-- The recoverable nodes are selected, each under its name. -/
theorem mem_selectRecoverableNodes {name : Text} :
    (∃ rni ∈ selectRecoverableNodes env collection s, rni.name = name) ↔
      ∃ node ∈ collection.nodes, Recoverable env s node ∧ node.name = name := by
  rw [selectRecoverableNodes_eq]
  constructor
  · rintro ⟨rni, hmem, rfl⟩
    obtain ⟨node, hnode, hpicked⟩ := List.mem_filterMap.mp hmem
    obtain ⟨hrecoverable, hname, -⟩ := picked_eq_some.mp hpicked
    exact ⟨node, hnode, hrecoverable, hname⟩
  · rintro ⟨node, hnode, hrecoverable, rfl⟩
    obtain ⟨nodeId, child, events, hid, hrest⟩ := hrecoverable
    have hpicked : picked env (selectChildren s) node = some ⟨node.name, nodeId⟩ :=
      picked_eq_some.mpr ⟨⟨nodeId, child, events, hid, hrest⟩, rfl, hid⟩
    exact ⟨_, List.mem_filterMap.mpr ⟨node, hnode, hpicked⟩, rfl⟩

theorem nodup_selectRecoverableNodes (env : Environment) (collection : Collection)
    (s : CollectionStatus) :
    ((selectRecoverableNodes env collection s).map RecoverableNodeInfo.name).Nodup := by
  rw [selectRecoverableNodes_eq]
  refine List.Nodup.sublist ?_ collection.nodup
  have hsub : ∀ nodes : List Node,
      ((nodes.filterMap (picked env (selectChildren s))).map
        RecoverableNodeInfo.name).Sublist (nodes.map Node.name) := by
    intro nodes
    induction nodes with
    | nil => exact List.Sublist.refl _
    | cons node nodes ih =>
        rw [List.map_cons]
        cases hpicked : picked env (selectChildren s) node with
        | none =>
            rw [List.filterMap_cons_none hpicked]
            exact ih.cons _
        | some rni =>
            rw [List.filterMap_cons_some hpicked, List.map_cons,
              (picked_eq_some.mp hpicked).2.1]
            exact ih.cons_cons _
  exact hsub collection.nodes

/-! ## What is put into the queue -/

/-- The context of a node can be made. -/
def Created (env : Environment) (rni : RecoverableNodeInfo) : Prop :=
  env.createContext rni.name = .ok ()

instance : DecidablePred (Created env) := fun rni =>
  match h : env.createContext rni.name with
  | .ok () => isTrue h
  | .error _ => isFalse fun hok => by
      unfold Created at hok
      rw [h] at hok
      cases hok

/-- The request for a node, and the one for the parent. -/
def nodeState (rni : RecoverableNodeInfo) : State :=
  ⟨rni.nodeId, .start, .removeNodeFromCollection rni.name⟩

def parentState (id : Text) : State := ⟨id, .pending, .removeFromInput⟩

theorem createSubmitRequest_of_created {rni : RecoverableNodeInfo}
    (h : Created env rni) (pending : Finset Text) :
    createSubmitRequest env pending rni =
      (some (nodeState rni), insert rni.name pending) := by
  unfold createSubmitRequest
  rw [h]
  rfl

theorem createSubmitRequest_of_not_created {rni : RecoverableNodeInfo}
    (h : ¬ Created env rni) (pending : Finset Text) :
    createSubmitRequest env pending rni = (none, pending) := by
  unfold createSubmitRequest
  cases hcontext : env.createContext rni.name with
  | ok u => exact absurd hcontext h
  | error what => rfl

/-- What the loop over the recoverable nodes comes to. -/
theorem foldl_scheduleNode (env : Environment) (nodes : List RecoverableNodeInfo)
    (r : Recovered) :
    (nodes.foldl (scheduleNode env) r).scheduled =
        r.scheduled ++ nodes.map (fun rni =>
          if Created env rni then some (nodeState rni) else none) ∧
      ∀ name, name ∈ (nodes.foldl (scheduleNode env) r).collectionPending ↔
        name ∈ r.collectionPending ∨
          ∃ rni ∈ nodes, Created env rni ∧ rni.name = name := by
  induction nodes generalizing r with
  | nil => exact ⟨(List.append_nil _).symm, fun name => by simp⟩
  | cons rni nodes ih =>
      rw [List.foldl_cons, List.map_cons, List.append_cons]
      obtain ⟨hscheduled, hpending⟩ := ih (scheduleNode env r rni)
      rw [hscheduled]
      simp only [hpending, List.mem_cons, exists_eq_or_imp, ← or_assoc]
      unfold scheduleNode
      by_cases hcreated : Created env rni
      · rw [createSubmitRequest_of_created hcreated, if_pos hcreated]
        refine ⟨rfl, fun name => or_congr_left ?_⟩
        rw [Finset.mem_insert, or_comm, eq_comm]
        exact or_congr_right (and_iff_right hcreated).symm
      · rw [createSubmitRequest_of_not_created hcreated, if_neg hcreated]
        refine ⟨rfl, fun name => or_congr_left (or_iff_left ?_).symm⟩
        exact fun h => hcreated h.1

/-- The parent and exactly the nodes selected for which a context could be made
are in the queue, each once, no processor is without a request, and the children
in the queue are those that are pending. -/
structure AsSelected (env : Environment) (id : Text)
    (selected : List RecoverableNodeInfo) (r : Recovered) : Prop where
  scheduled : r.scheduled = some (parentState id) ::
    (selected.filter (Created env ·)).map fun rni => some (nodeState rni)
  once : (selected.map RecoverableNodeInfo.name).Nodup
  not_null : none ∉ r.scheduled
  pending : ∀ name, name ∈ r.collectionPending ↔
    ∃ state, some state ∈ r.scheduled ∧
      state.cleanup = .removeNodeFromCollection name

/-- This is so exactly where a context can be made for every recoverable node. -/
theorem asSelected_iff (env : Environment) (id : Text) (collection : Collection)
    {status : Option JobStat} {s : CollectionStatus}
    (hstatus : isWhole status s = false) :
    AsSelected env id (selectRecoverableNodes env collection s)
        (requestRecovery env id collection status (some s)) ↔
      ∀ node ∈ collection.nodes, Recoverable env s node →
        env.createContext node.name = .ok () := by
  have hrun : requestRecovery env id collection status (some s) =
      (selectRecoverableNodes env collection s).foldl (scheduleNode env)
        ⟨[some (parentState id)], ∅, false⟩ := by
    unfold requestRecovery
    dsimp only
    rw [if_neg (ne_true_of_eq_false hstatus)]
    rfl
  obtain ⟨hscheduled, hpending⟩ := foldl_scheduleNode env
    (selectRecoverableNodes env collection s) ⟨[some (parentState id)], ∅, false⟩
  rw [← hrun] at hscheduled hpending
  constructor
  · rintro ⟨-, -, hnull, -⟩ node hnode hrecoverable
    obtain ⟨rni, hrni, hname⟩ :=
      mem_selectRecoverableNodes.mpr ⟨node, hnode, hrecoverable, rfl⟩
    by_contra hcontext
    refine hnull ?_
    rw [hscheduled]
    refine List.mem_append_right _ (List.mem_map.mpr ⟨rni, hrni, if_neg ?_⟩)
    unfold Created
    rwa [hname]
  · intro hall
    have hcreated : ∀ rni ∈ selectRecoverableNodes env collection s,
        Created env rni := by
      intro rni hrni
      obtain ⟨node, hnode, hrecoverable, hname⟩ :=
        mem_selectRecoverableNodes.mp ⟨rni, hrni, rfl⟩
      unfold Created
      rw [← hname]
      exact hall node hnode hrecoverable
    have hlist : (requestRecovery env id collection status (some s)).scheduled =
        some (parentState id) :: (selectRecoverableNodes env collection s).map
          fun rni => some (nodeState rni) := by
      rw [hscheduled]
      refine congrArg (some (parentState id) :: ·) ?_
      exact List.map_congr_left fun rni hrni => if_pos (hcreated rni hrni)
    refine ⟨?_, nodup_selectRecoverableNodes env collection s, ?_, fun name => ?_⟩
    · rw [hlist, List.filter_eq_self.mpr]
      exact fun rni hrni => decide_eq_true (hcreated rni hrni)
    · rw [hlist]
      intro hmem
      rcases List.mem_cons.mp hmem with h | h
      · cases h
      · obtain ⟨rni, -, hnone⟩ := List.mem_map.mp h
        cases hnone
    · rw [hpending, hlist]
      constructor
      · rintro (h | ⟨rni, hrni, -, rfl⟩)
        · exact absurd h (Finset.notMem_empty name)
        · exact ⟨nodeState rni,
            List.mem_cons_of_mem _ (List.mem_map.mpr ⟨rni, hrni, rfl⟩), rfl⟩
      · rintro ⟨state, hmem, hcleanup⟩
        rcases List.mem_cons.mp hmem with h | h
        · cases h
          cases hcleanup
        · obtain ⟨rni, hrni, hstate⟩ := List.mem_map.mp h
          cases hstate
          cases hcleanup
          exact .inr ⟨rni, hrni, hcreated rni hrni, rfl⟩

/-! ## One node that waits -/

def oneNode : Collection where
  nodes := [⟨['n'], some ['i']⟩]
  nodup := List.nodup_singleton _

def oneWaiting : CollectionStatus := ⟨some [['i']], [some ⟨.waiting, false⟩]⟩

/-- No events, and the answer to the attempt to make a context. -/
def sampleEnvironment (context : Except String Unit) : Environment where
  recoveryEvents := fun _ => .ok []
  createContext := fun _ => context

theorem asSelected_iff_oneNode :
    AsSelected (sampleEnvironment (.ok ())) ['c']
      (selectRecoverableNodes (sampleEnvironment (.ok ())) oneNode oneWaiting)
      (requestRecovery (sampleEnvironment (.ok ())) ['c'] oneNode
        (some ⟨.waiting, true⟩) (some oneWaiting)) :=
  (asSelected_iff (sampleEnvironment (.ok ())) ['c'] oneNode rfl).mpr
    fun _ _ _ => rfl

/-- Without a context a processor without a request is put into the queue. -/
theorem not_asSelected_noContext :
    ¬ AsSelected (sampleEnvironment (.error "no context")) ['c']
      (selectRecoverableNodes (sampleEnvironment (.error "no context")) oneNode
        oneWaiting)
      (requestRecovery (sampleEnvironment (.error "no context")) ['c'] oneNode
        (some ⟨.waiting, true⟩) (some oneWaiting)) := by
  intro h
  exact h.not_null (List.mem_cons_of_mem _ List.mem_cons_self)

end Wms.Core.CollectionRecovery
