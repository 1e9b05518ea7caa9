import Wms.Proofs.BulkMatch

/-!
# The broker information of the nodes of a collection

The jobs of a run note their data access protocols in the broker information of
their matches one after the other, and only then is it written out. What a node
finds in its file is what the last of those on its match has left there.
-/

namespace Wms.Core.Bulk

variable {E K : Type}

/-! ## Pointers -/

section
variable {lib : Libraries E K} {helpers : Helpers E K}

/-- Matches point to what has been allocated. -/
def Points (matches_ : List (Match K)) (heap : Heap E) : Prop :=
  ∀ m ∈ matches_, m.brokerinfo < heap.length

theorem fillEntries_points {entries : List (Entry E K)}
    {matches_ : List (Match K)} {heap : Heap E} (h : Points matches_ heap) :
    heap.length ≤ (fillEntries entries matches_ heap).2.1.length ∧
      Points (fillEntries entries matches_ heap).1
        (fillEntries entries matches_ heap).2.1 := by
  induction entries generalizing matches_ heap with
  | nil => exact ⟨Nat.le_refl _, h⟩
  | cons entry rest ih =>
      rw [fillEntries]
      split
      · exact ⟨Nat.le_refl _, h⟩
      · split
        · split
          · rename_i ceId _ _ _ _ rank brokerinfo _ _
            have hnext : Points (matches_ ++ [⟨ceId, rank, heap.length⟩])
                (heap ++ [brokerinfo]) := by
              intro m hm
              rw [List.length_append, List.length_singleton]
              rcases List.mem_append.mp hm with hm | hm
              · exact Nat.lt_succ_of_lt (h m hm)
              · rw [List.mem_singleton.mp hm]
                exact Nat.lt_succ_self _
            obtain ⟨hle, hpoints⟩ := ih hnext
            rw [List.length_append] at hle
            exact ⟨by omega, hpoints⟩
          · exact ⟨Nat.le_refl _, h⟩
        · exact ih h

theorem fillMatches_points {response : Response E K} {matches_ : List (Match K)}
    {heap : Heap E} (h : Points matches_ heap) :
    heap.length ≤ (fillMatches response matches_ heap).2.1.length ∧
      Points (fillMatches response matches_ heap).1
        (fillMatches response matches_ heap).2.1 := by
  rw [fillMatches]
  split
  · exact ⟨Nat.le_refl _, h⟩
  · split
    · exact ⟨Nat.le_refl _, h⟩
    · split
      · exact ⟨Nat.le_refl _, h⟩
      · exact fillEntries_points h

theorem matchClusters_points {clusters clusters' : Clusters E K}
    {heap heap' : Heap E} (h : ∀ v ∈ clusters, v.2.matches_ = [])
    (hm : matchClusters lib helpers clusters heap = .ok (clusters', heap')) :
    heap.length ≤ heap'.length ∧
      ∀ v ∈ clusters', Points v.2.matches_ heap' := by
  induction clusters generalizing clusters' heap heap' with
  | nil =>
      cases hm
      exact ⟨Nat.le_refl _, fun v hv => (by cases hv)⟩
  | cons v rest ih =>
      rw [matchClusters] at hm
      cases hr : resolve lib helpers v with
      | error what =>
          rw [hr] at hm
          cases hm
      | ok response =>
          rw [hr] at hm
          have hnone : Points v.2.matches_ heap := by
            rw [h v List.mem_cons_self]
            exact fun m hm => (by cases hm)
          obtain ⟨hle, hpoints⟩ :=
            @fillMatches_points E K response v.2.matches_ heap hnone
          cases hrest : matchClusters lib helpers rest
              (fillMatches response v.2.matches_ heap).2.1 with
          | error e =>
              simp only [hrest] at hm
              cases hm
          | ok r =>
              simp only [hrest] at hm
              cases hm
              obtain ⟨hle', hall⟩ :=
                ih (fun u hu => h u (List.mem_cons_of_mem v hu)) hrest
              refine ⟨hle.trans hle', fun u hu => ?_⟩
              rcases List.mem_cons.mp hu with rfl | hu
              · exact fun m hm => Nat.lt_of_lt_of_le (hpoints m hm) hle'
              · exact hall u hu

theorem addNode_matches {key : ClusterKey} {jdl : Ad E} {name : String}
    {clusters : Clusters E K} (h : ∀ v ∈ clusters, v.2.matches_ = []) :
    ∀ v ∈ addNode key jdl name clusters, v.2.matches_ = [] := by
  intro v hv
  rw [addNode] at hv
  split at hv
  · obtain ⟨u, hu, rfl⟩ := List.mem_map.mp hv
    split <;> exact h u hu
  · rcases mem_insertKey.mp hv with rfl | hv
    · rfl
    · exact h v hv

theorem clusterize_matches {dag : Ad E} {nodes : List (String × Ad E)}
    {clusters : Clusters E K} (h : ∀ v ∈ clusters, v.2.matches_ = []) :
    ∀ v ∈ clusterize lib dag nodes clusters, v.2.matches_ = [] := by
  induction nodes generalizing clusters with
  | nil => exact h
  | cons n rest ih => exact ih (addNode_matches h)

end

/-! ## What is noted -/

/-- What the last of the jobs on a match that carry one has noted there. -/
def lastDac : List (ScheduledJob E) → Pointer → Option E
  | [], _ => none
  | job :: rest, p =>
      match lastDac rest p with
      | some dac => some dac
      | none => if job.brokerinfo = p then job.planned dataAccessProtocol else none

theorem noteDac_getElem (planned : Ad E) (q p : Pointer) (heap : Heap E) :
    (noteDac planned q heap)[p]? = heap[p]?.map fun ad =>
      match if q = p then planned dataAccessProtocol else none with
      | some dac => Function.update ad dataAccessProtocol (some dac)
      | none => ad := by
  rw [noteDac]
  cases hd : planned dataAccessProtocol with
  | none => simp
  | some dac =>
      change (heap.modify q _)[p]? = _
      rw [List.getElem?_modify]
      split <;> cases heap[p]? <;> rfl

theorem noteAll_getElem (jobs : List (ScheduledJob E)) (p : Pointer)
    (heap : Heap E) :
    (noteAll jobs heap)[p]? = heap[p]?.map fun ad =>
      match lastDac jobs p with
      | some dac => Function.update ad dataAccessProtocol (some dac)
      | none => ad := by
  induction jobs generalizing heap with
  | nil => simp [noteAll, lastDac]
  | cons job rest ih =>
      rw [noteAll_cons, ih, noteDac_getElem, lastDac, Option.map_map]
      refine congrArg (Option.map · heap[p]?) (funext fun ad => ?_)
      simp only [Function.comp_apply]
      cases lastDac rest p with
      | none => rfl
      | some dac =>
          dsimp only
          split
          · rw [Function.update_idem]
          · rfl

/-! ## What a node is to find -/

/-- The broker information of the match, with the protocol of the node. -/
def wanted (heap : Heap E) (job : ScheduledJob E) : Option (Ad E) :=
  match job.planned dataAccessProtocol with
  | some dac => heap[job.brokerinfo]?.map fun ad =>
      Function.update ad dataAccessProtocol (some dac)
  | none => heap[job.brokerinfo]?

/-- The protocol that a node calls for: its own, or the one that the
match-maker has returned. -/
def wantedDac (heap : Heap E) (job : ScheduledJob E) : Option E :=
  match job.planned dataAccessProtocol with
  | some dac => some dac
  | none => heap[job.brokerinfo]?.bind fun ad => ad dataAccessProtocol

theorem lastDac_eq_none {jobs : List (ScheduledJob E)} {p : Pointer}
    (h : lastDac jobs p = none) :
    ∀ job ∈ jobs, job.brokerinfo = p → job.planned dataAccessProtocol = none := by
  induction jobs with
  | nil => exact fun job hjob => (by cases hjob)
  | cons j rest ih =>
      rw [lastDac] at h
      split at h
      · cases h
      · rename_i hrest
        intro job hjob hp
        rcases List.mem_cons.mp hjob with rfl | hjob
        · rwa [if_pos hp] at h
        · exact ih hrest job hjob hp

theorem noted_eq_wanted_iff {heap : Heap E} {jobs : List (ScheduledJob E)}
    {job : ScheduledJob E} (hmem : job ∈ jobs)
    (hp : job.brokerinfo < heap.length) :
    (noteAll jobs heap)[job.brokerinfo]? = wanted heap job ↔
      ∀ dac, lastDac jobs job.brokerinfo = some dac →
        wantedDac heap job = some dac := by
  have hupdate : ∀ (ad : Ad E) (x y : Option E),
      Function.update ad dataAccessProtocol x =
        Function.update ad dataAccessProtocol y ↔ x = y := by
    intro ad x y
    refine ⟨fun h => ?_, fun h => by rw [h]⟩
    have happ := congrFun h dataAccessProtocol
    rwa [Function.update_self, Function.update_self] at happ
  rw [noteAll_getElem, wanted, wantedDac, List.getElem?_eq_getElem hp]
  cases hl : lastDac jobs job.brokerinfo with
  | none =>
      rw [lastDac_eq_none hl job hmem rfl]
      simp
  | some dac =>
      have hall : ∀ x : Option E,
          (∀ dac', some dac = some dac' → x = some dac') ↔ x = some dac :=
        fun x => ⟨fun h => h dac rfl, fun h dac' hd => h.trans hd⟩
      rw [hall]
      cases hd : job.planned dataAccessProtocol with
      | some own =>
          simp only [Option.map_some, Option.some.injEq]
          rw [hupdate, Option.some.injEq, eq_comm]
      | none =>
          simp only [Option.map_some, Option.some.injEq, Option.bind_some]
          constructor
          · intro h
            rw [← h, Function.update_self]
          · intro h
            rw [← h, Function.update_eq_self]

/-! ## The files -/

theorem writeBrokerinfos_getElem {lib : Libraries E K} {passes : ℕ → Bool}
    {heap : Heap E} {jobs : List (ScheduledJob E)} {n i : ℕ}
    {file : String × Option (Ad E)} {job : ScheduledJob E}
    (hfile : (writeBrokerinfos lib passes heap jobs n)[i]? = some file)
    (hjob : jobs[i]? = some job) :
    (lib.getInputSandboxPath job.planned).map (· ++ "/.BrokerInfo") =
        some file.1 ∧
      file.2 = heap[job.brokerinfo]? := by
  induction jobs generalizing n i with
  | nil => cases hjob
  | cons j rest ih =>
      rw [writeBrokerinfos] at hfile
      split at hfile
      · cases hfile
      · next path hpath =>
        cases i with
        | zero =>
            cases hfile
            cases hjob
            exact ⟨congrArg (Option.map _) hpath, rfl⟩
        | succ i =>
            rw [List.getElem?_cons_succ] at hfile hjob
            split at hfile
            · exact ih hfile hjob
            · cases hfile

section
variable (lib : Libraries E K) (helpers : Helpers E K) (coll : Collection E)
  [LinearOrder K] (d : Doubles K) (draws : ℕ → Draw d) (passes : ℕ → Bool)
  (pending : Finset String)

/-- The file of a node, where it comes to writing it, is the one in the node's
input sandbox, and has what the node is to find there. -/
def PerNode : Prop :=
  ∀ clusters heap jobs,
    matchClusters lib helpers (clustersOf lib coll) [] = .ok (clusters, heap) →
    (doBulkMm lib helpers coll d draws pending).result = .ok jobs →
    ∀ (i : ℕ) (file : String × Option (Ad E)) (job : ScheduledJob E),
      (submitCollection lib helpers coll d draws passes pending)[i]? =
        some file → jobs[i]? = some job →
      (lib.getInputSandboxPath job.planned).map (· ++ "/.BrokerInfo") =
          some file.1 ∧
        file.2 = wanted heap job

/-- Among the nodes on the same match, the last that carries a protocol carries
the one that the node calls for. -/
def Undisturbed : Prop :=
  ∀ clusters heap jobs,
    matchClusters lib helpers (clustersOf lib coll) [] = .ok (clusters, heap) →
    (doBulkMm lib helpers coll d draws pending).result = .ok jobs →
    ∀ (i : ℕ) (file : String × Option (Ad E)) (job : ScheduledJob E),
      (submitCollection lib helpers coll d draws passes pending)[i]? =
        some file → jobs[i]? = some job →
      ∀ dac, lastDac jobs job.brokerinfo = some dac →
        wantedDac heap job = some dac

variable {lib helpers coll d draws passes pending} {clusters : Clusters E K}
  {heap : Heap E} {jobs : List (ScheduledJob E)}

theorem doBulkMm_result
    (hm : matchClusters lib helpers (clustersOf lib coll) [] =
      .ok (clusters, heap))
    (hr : (doBulkMm lib helpers coll d draws pending).result = .ok jobs) :
    (doBulkMm lib helpers coll d draws pending).heap = noteAll jobs heap ∧
      ∀ job ∈ jobs, job.brokerinfo < heap.length := by
  have hadapt : ∀ p ∈ allChosen lib d draws clusters 0,
      (helpers.adapt p.1).isOk := by
    refine Classical.byContradiction fun hno => ?_
    rw [not_forall₂] at hno
    obtain ⟨p, hp, hno⟩ := hno
    obtain ⟨e, he⟩ := @doBulkMm_error E K lib helpers coll _ d draws clusters
      heap pending hm ⟨p, hp, hno⟩
    rw [hr] at he
    cases he
  rw [doBulkMm_ok hm hadapt] at hr ⊢
  cases hr
  refine ⟨rfl, fun job hjob => ?_⟩
  obtain ⟨p, hp, rfl⟩ := List.mem_map.mp hjob
  obtain ⟨v, hv, -, hmem, -⟩ := allChosen_spec 0 |>.2 p hp
  have hnone : ∀ v ∈ clustersOf lib coll, v.2.matches_ = [] :=
    clusterize_matches fun v hv => (by cases hv)
  exact (matchClusters_points hnone hm).2 v hv p.2 hmem

/-- A node finds its own broker information if no other node on its match has
noted a different protocol there after it, or at all where it has none. -/
theorem brokerinfo_per_node_iff (lib : Libraries E K) (helpers : Helpers E K)
    (coll : Collection E) (d : Doubles K) (draws : ℕ → Draw d)
    (passes : ℕ → Bool) (pending : Finset String) :
    PerNode lib helpers coll d draws passes pending ↔
      Undisturbed lib helpers coll d draws passes pending := by
  refine forall₃_congr fun clusters heap jobs => ?_
  refine forall₂_congr fun hm hr => ?_
  refine forall₃_congr fun i file job => forall₂_congr fun hfile hjob => ?_
  obtain ⟨hheap, hpoints⟩ := doBulkMm_result hm hr
  have hmem := List.mem_of_getElem? hjob
  rw [submitCollection, hr] at hfile
  obtain ⟨hpath, hfound⟩ := writeBrokerinfos_getElem hfile hjob
  rw [hfound, hheap, noted_eq_wanted_iff hmem (hpoints job hmem)]
  exact and_iff_right hpath

end

/-! Two nodes with the same requirements, which are a cluster with one match.
The first carries a protocol. -/

def byRequirements : Libraries Literal ℤ :=
  { plainLibraries with
    getSignificantAttributes := fun _ => some ["Requirements"] }

def oneProtocol : Collection Literal where
  ad := fun _ => none
  nodes :=
    [("a", fun name =>
        if name = "Requirements" then some (.bool true)
        else if name = dataAccessProtocol then some (.string "gsiftp")
        else none),
      ("b", fun name =>
        if name = "Requirements" then some (.bool true) else none)]
  nodup := by decide

/-- The second node finds the protocol of the first. -/
theorem protocol_of_another :
    ((submitCollection byRequirements serving oneProtocol integers zeros
      (fun _ => true) ∅).map fun file =>
        file.2.bind fun ad => ad dataAccessProtocol) =
      [some (.string "gsiftp"), some (.string "gsiftp")] ∧
    ¬PerNode byRequirements serving oneProtocol integers zeros
      (fun _ => true) ∅ := by
  refine ⟨by decide, fun h => ?_⟩
  have hfile := (h _ _ _ rfl rfl 1 _ _ rfl rfl).2
  have hdac := congrArg (fun found : Option (Ad Literal) =>
    found.bind fun ad => ad dataAccessProtocol) hfile
  exact absurd hdac (by decide)

end Wms.Core.Bulk
