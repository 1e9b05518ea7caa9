import Mathlib.Data.List.Nodup
import Mathlib.Data.Finset.Insert
import Mathlib.Data.List.Perm.Basic
import Wms.Core.BulkMatch

/-!
# Where bulk match-making puts the nodes

The clusters part the nodes by their keys. In a cluster with matches every node
gets a position that exists, since the search goes for a number that is not
above the last sum, and in one without all are pending. The rest follows the
nodes through the clusters in their order.
-/

namespace Wms.Core.Bulk

variable {E K : Type}

/-! ## Clusters -/

section
variable (lib : Libraries E K) (dag : Ad E)

/-- The key of a node. -/
def keyOf (v : String × Ad E) : ClusterKey := makeKey lib v.2 dag v.1

/-- The clusters of the nodes gone through so far. -/
structure Groups (nodes : List (String × Ad E)) (clusters : Clusters E K) :
    Prop where
  keys : (clusters.map Prod.fst).Nodup
  names : ∀ v ∈ clusters,
    v.2.names = (nodes.filter (keyOf lib dag · = v.1)).map Prod.fst
  covers : ∀ n ∈ nodes, ∃ v ∈ clusters, v.1 = keyOf lib dag n

variable {lib dag} {nodes : List (String × Ad E)} {clusters : Clusters E K}
  {key : ClusterKey}

theorem mem_insertKey {cluster : Cluster E K} {v : ClusterKey × Cluster E K} :
    v ∈ insertKey key cluster clusters ↔ v = (key, cluster) ∨ v ∈ clusters := by
  induction clusters with
  | nil => simp [insertKey]
  | cons u rest ih =>
      rw [insertKey]
      split
      · exact List.mem_cons
      · rw [List.mem_cons, ih, List.mem_cons]
        exact ⟨fun h => h.elim (fun h => .inr (.inl h))
          fun h => h.elim .inl fun h => .inr (.inr h),
          fun h => h.elim (fun h => .inr (.inl h))
            fun h => h.elim .inl fun h => .inr (.inr h)⟩

theorem nodup_insertKey {cluster : Cluster E K}
    (hkeys : (clusters.map Prod.fst).Nodup) (hnew : key ∉ clusters.map Prod.fst) :
    ((insertKey key cluster clusters).map Prod.fst).Nodup := by
  induction clusters with
  | nil => simp [insertKey]
  | cons u rest ih =>
      rw [insertKey]
      split
      · exact List.nodup_cons.mpr ⟨hnew, hkeys⟩
      · obtain ⟨hu, hrest⟩ := List.nodup_cons.mp hkeys
        rw [List.map_cons, List.mem_cons, not_or] at hnew
        refine List.nodup_cons.mpr ⟨fun hmem => ?_, ih hrest hnew.2⟩
        obtain ⟨v, hv, heq⟩ := List.mem_map.mp hmem
        rcases mem_insertKey.mp hv with rfl | hv
        · exact hnew.1 heq
        · exact hu (heq ▸ List.mem_map_of_mem hv)

theorem groups_addNode {name : String} {jdl : Ad E}
    (h : Groups lib dag nodes clusters) :
    Groups lib dag (nodes ++ [(name, jdl)])
      (addNode (makeKey lib jdl dag name) jdl name clusters) := by
  have hnames : ∀ key, ((nodes ++ [(name, jdl)]).filter
      (keyOf lib dag · = key)).map Prod.fst =
        (nodes.filter (keyOf lib dag · = key)).map Prod.fst ++
          if makeKey lib jdl dag name = key then [name] else [] := by
    intro key
    rw [List.filter_append, List.map_append, List.filter_singleton]
    by_cases hkey : makeKey lib jdl dag name = key <;> simp [keyOf, hkey]
  rw [addNode]
  split
  · rename_i hany
    refine ⟨?_, fun v hv => ?_, fun n hn => ?_⟩
    · have hfst : (clusters.map fun v =>
          if v.1 = makeKey lib jdl dag name then (v.1, v.2.push jdl name)
          else v).map Prod.fst = clusters.map Prod.fst := by
        rw [List.map_map]
        refine List.map_congr_left fun v _ => ?_
        simp only [Function.comp_apply]
        split <;> rfl
      rw [hfst]
      exact h.keys
    · obtain ⟨u, hu, rfl⟩ := List.mem_map.mp hv
      split
      · rename_i heq
        rw [hnames, if_pos heq.symm]
        change u.2.names ++ [name] = _
        rw [h.names u hu]
      · rename_i hne
        rw [hnames, if_neg fun heq => hne heq.symm, List.append_nil]
        exact h.names u hu
    · have hold : ∃ u ∈ clusters, u.1 = keyOf lib dag n := by
        rcases List.mem_append.mp hn with hn | hn
        · exact h.covers n hn
        · cases List.mem_singleton.mp hn
          obtain ⟨u, hu, heq⟩ := List.any_eq_true.mp hany
          exact ⟨u, hu, of_decide_eq_true heq⟩
      obtain ⟨u, hu, heq⟩ := hold
      refine ⟨_, List.mem_map_of_mem hu, ?_⟩
      split <;> exact heq
  · rename_i hany
    have hnew : makeKey lib jdl dag name ∉ clusters.map Prod.fst := by
      intro hmem
      obtain ⟨u, hu, heq⟩ := List.mem_map.mp hmem
      exact hany (List.any_eq_true.mpr ⟨u, hu, decide_eq_true heq⟩)
    refine ⟨nodup_insertKey h.keys hnew, fun v hv => ?_, fun n hn => ?_⟩
    · rcases mem_insertKey.mp hv with rfl | hv
      · rw [hnames, if_pos rfl]
        have hnone : nodes.filter (keyOf lib dag · = makeKey lib jdl dag name) =
            [] := by
          rw [List.filter_eq_nil_iff]
          intro n hn heq
          obtain ⟨u, hu, hkey⟩ := h.covers n hn
          exact hnew (of_decide_eq_true heq ▸ hkey ▸ List.mem_map_of_mem hu)
        rw [hnone]
        rfl
      · have hne : makeKey lib jdl dag name ≠ v.1 := fun heq =>
          hnew (heq ▸ List.mem_map_of_mem hv)
        rw [hnames, if_neg hne, List.append_nil]
        exact h.names v hv
    · rcases List.mem_append.mp hn with hn | hn
      · obtain ⟨u, hu, heq⟩ := h.covers n hn
        exact ⟨u, mem_insertKey.mpr (.inr hu), heq⟩
      · cases List.mem_singleton.mp hn
        exact ⟨_, mem_insertKey.mpr (.inl rfl), rfl⟩

theorem groups_clusterize {done : List (String × Ad E)}
    (h : Groups lib dag done clusters) :
    Groups lib dag (done ++ nodes) (clusterize lib dag nodes clusters) := by
  induction nodes generalizing done clusters with
  | nil => rwa [List.append_nil]
  | cons n rest ih =>
      obtain ⟨name, jdl⟩ := n
      have hnext := ih (@groups_addNode E K lib dag done clusters name jdl h)
      rw [List.append_assoc] at hnext
      exact hnext

theorem mem_names (h : Groups lib dag nodes clusters)
    (hnd : (nodes.map Prod.fst).Nodup) {n : String × Ad E} (hn : n ∈ nodes)
    {v : ClusterKey × Cluster E K} (hv : v ∈ clusters) :
    n.1 ∈ v.2.names ↔ keyOf lib dag n = v.1 := by
  rw [h.names v hv, List.mem_map]
  constructor
  · rintro ⟨u, hu, heq⟩
    obtain ⟨hu, hkey⟩ := List.mem_filter.mp hu
    rw [← List.inj_on_of_nodup_map hnd hu hn heq]
    exact of_decide_eq_true hkey
  · intro hkey
    exact ⟨n, List.mem_filter.mpr ⟨hn, decide_eq_true hkey⟩, rfl⟩

/-- No cluster has a name twice, and no two have one in common. -/
theorem nodup_names (h : Groups lib dag nodes clusters)
    (hnd : (nodes.map Prod.fst).Nodup) :
    (clusters.flatMap fun v => v.2.names).Nodup := by
  rw [List.nodup_flatMap]
  refine ⟨fun v hv => ?_, ?_⟩
  · rw [h.names v hv]
    exact hnd.sublist (List.filter_sublist.map Prod.fst)
  · have hpair : clusters.Pairwise fun u v => u.1 ≠ v.1 :=
      List.pairwise_map.mp h.keys
    refine List.Pairwise.imp_of_mem (fun {u v} hu hv hne => ?_) hpair
    intro name hname hname'
    have hmem : name ∈ u.2.names := hname
    rw [h.names u hu] at hmem
    obtain ⟨n, hn, rfl⟩ := List.mem_map.mp hmem
    have hnodes := (List.mem_filter.mp hn).1
    exact hne (((mem_names h hnd hnodes hu).mp hname).symm.trans
      ((mem_names h hnd hnodes hv).mp hname'))

end

/-! ## Keys -/

section
variable {lib : Libraries E K} {dag : Ad E}

/-- A value is never empty, so the key made of a name is nobody else's. -/
theorem keyOf_eq_iff {n n' : String × Ad E} :
    keyOf lib dag n = keyOf lib dag n' ↔
      significantPairs lib n.2 dag = significantPairs lib n'.2 dag ∧
        (significantPairs lib n.2 dag = [] → n.1 = n'.1) := by
  have hvalue : ∀ (jdl : Ad E) (name : String),
      significantPairs lib jdl dag ≠ [(name, "")] := by
    intro jdl name heq
    have hmem : (name, "") ∈ significantPairs lib jdl dag := by
      rw [heq]
      exact List.mem_singleton_self _
    obtain ⟨attr, -, hattr⟩ := List.mem_filterMap.mp hmem
    obtain ⟨expr, -, hexpr⟩ := Option.map_eq_some_iff.mp hattr
    exact lib.unparse_ne expr (congrArg Prod.snd hexpr)
  rw [keyOf, keyOf, makeKey, makeKey]
  by_cases h : significantPairs lib n.2 dag = [] <;>
    by_cases h' : significantPairs lib n'.2 dag = []
  · rw [if_pos h, if_pos h', h, h']
    simp
  · rw [if_pos h, if_neg h', h]
    exact ⟨fun heq => absurd heq.symm (hvalue n'.2 n.1),
      fun heq => absurd heq.1.symm h'⟩
  · rw [if_neg h, if_pos h', h']
    exact ⟨fun heq => absurd heq (hvalue n.2 n'.1), fun heq => absurd heq.1 h⟩
  · rw [if_neg h, if_neg h']
    exact ⟨fun heq => ⟨heq, fun h'' => absurd h'' h⟩, fun heq => heq.1⟩

end

/-! ## The choice -/

section
variable [LinearOrder K] (d : Doubles K)

variable {d} in
theorem sums_ge {acc x : K} {ws : List K} (hws : ∀ w ∈ ws, d.ofNat 0 ≤ w)
    (hx : x ∈ partialSum.sums d acc ws) : acc ≤ x := by
  induction ws generalizing acc with
  | nil => cases hx
  | cons w rest ih =>
      have hw := d.le_add acc w (hws w List.mem_cons_self)
      rcases List.mem_cons.mp hx with rfl | hx
      · exact hw
      · exact hw.trans (ih (fun u hu => hws u (List.mem_cons_of_mem w hu)) hx)

/-- The sums are in order, as the search in them needs. -/
theorem partialSum_sorted {ws : List K} (hws : ∀ w ∈ ws, d.ofNat 0 ≤ w) :
    (partialSum d ws).Pairwise (· ≤ ·) := by
  have hsums : ∀ (ws : List K) (acc : K), (∀ w ∈ ws, d.ofNat 0 ≤ w) →
      (partialSum.sums d acc ws).Pairwise (· ≤ ·) := by
    intro ws
    induction ws with
    | nil => exact fun _ _ => List.Pairwise.nil
    | cons w rest ih =>
        intro acc hws
        have hrest := fun u hu => hws u (List.mem_cons_of_mem w hu)
        exact List.pairwise_cons.mpr ⟨fun x => sums_ge hrest, ih _ hrest⟩
  cases ws with
  | nil => exact List.Pairwise.nil
  | cons w rest =>
      have hrest := fun u hu => hws u (List.mem_cons_of_mem w hu)
      exact List.pairwise_cons.mpr ⟨fun x => sums_ge hrest, hsums rest w hrest⟩

theorem length_partialSum (ws : List K) :
    (partialSum d ws).length = ws.length := by
  have hsums : ∀ (ws : List K) (acc : K),
      (partialSum.sums d acc ws).length = ws.length := by
    intro ws
    induction ws with
    | nil => exact fun _ => rfl
    | cons w rest ih => exact fun acc => congrArg (· + 1) (ih _)
  cases ws with
  | nil => rfl
  | cons w rest => exact congrArg (· + 1) (hsums rest w)

theorem partialSum_nonneg {ws : List K} (hws : ∀ w ∈ ws, d.ofNat 0 ≤ w) :
    ∀ x ∈ partialSum d ws, d.ofNat 0 ≤ x := by
  cases ws with
  | nil => exact fun x hx => (by cases hx)
  | cons w rest =>
      intro x hx
      have hw := hws w List.mem_cons_self
      rcases List.mem_cons.mp hx with rfl | hx
      · exact hw
      · exact hw.trans
          (sums_ge (fun u hu => hws u (List.mem_cons_of_mem w hu)) hx)

/-- What the nodes choose by: nonnegative numbers, one for each candidate. -/
structure Weighs (distribution : List K) (n : ℕ) : Prop where
  nonneg : ∀ x ∈ distribution, d.ofNat 0 ≤ x
  length : distribution.length = n

variable {d} in
theorem selectDestination_lt {distribution : List K} {n : ℕ}
    (h : Weighs d distribution n) (u : Draw d) (hn : n ≠ 0) :
    ∃ i < n, selectDestination d distribution u = some i := by
  have hne : distribution ≠ [] := by
    rintro rfl
    exact hn h.length.symm
  rw [selectDestination, List.getLast?_eq_some_getLast hne]
  refine ⟨_, ?_, rfl⟩
  have hlast := List.getLast_mem hne
  have hle := d.mul_le u.1 _ u.2.1 u.2.2 (h.nonneg _ hlast)
  rw [← h.length, lowerBound]
  refine List.findIdx_lt_length_of_exists ⟨_, hlast, ?_⟩
  simpa using hle

theorem le_maxRank (m : Match K) (rest : List (Match K)) :
    ∀ m' ∈ m :: rest, m'.rank ≤ maxRank m rest := by
  have hfold : ∀ (ms : List (Match K)) (rank : K),
      let best := ms.foldl (fun rank m => if rank < m.rank then m.rank else rank)
        rank
      rank ≤ best ∧ ∀ m' ∈ ms, m'.rank ≤ best := by
    intro ms
    induction ms with
    | nil => exact fun rank => ⟨le_refl rank, fun m' hm' => (by cases hm')⟩
    | cons u rest ih =>
        intro rank
        obtain ⟨hle, hall⟩ := ih (if rank < u.rank then u.rank else rank)
        have hrank : rank ≤ (if rank < u.rank then u.rank else rank) ∧
            u.rank ≤ (if rank < u.rank then u.rank else rank) := by
          split
          · exact ⟨le_of_lt ‹_›, le_refl _⟩
          · exact ⟨le_refl _, not_lt.mp ‹_›⟩
        refine ⟨hrank.1.trans hle, fun m' hm' => ?_⟩
        rcases List.mem_cons.mp hm' with rfl | hm'
        · exact hrank.2.trans hle
        · exact hall m' hm'
  intro m' hm'
  rcases List.mem_cons.mp hm' with rfl | hm'
  · exact (hfold rest m'.rank).1
  · exact (hfold rest m.rank).2 m' hm'

theorem exists_maxRank (m : Match K) (rest : List (Match K)) :
    ∃ m' ∈ m :: rest, m'.rank = maxRank m rest := by
  have hfold : ∀ (ms : List (Match K)) (rank : K),
      let best := ms.foldl (fun rank m => if rank < m.rank then m.rank else rank)
        rank
      rank = best ∨ ∃ m' ∈ ms, m'.rank = best := by
    intro ms
    induction ms with
    | nil => exact fun rank => .inl rfl
    | cons u rest ih =>
        intro rank
        rcases ih (if rank < u.rank then u.rank else rank) with hbest | hbest
        · by_cases hlt : rank < u.rank
          · rw [if_pos hlt] at hbest
            exact .inr ⟨u, List.mem_cons_self, by
              rw [List.foldl_cons, if_pos hlt]
              exact hbest⟩
          · rw [if_neg hlt] at hbest
            exact .inl (by
              rw [List.foldl_cons, if_neg hlt]
              exact hbest)
        · obtain ⟨m', hm', heq⟩ := hbest
          exact .inr ⟨m', List.mem_cons_of_mem u hm', heq⟩
  rcases hfold rest m.rank with hbest | ⟨m', hm', heq⟩
  · exact ⟨m, List.mem_cons_self, hbest⟩
  · exact ⟨m', List.mem_cons_of_mem m hm', heq⟩

variable (lib : Libraries E K)

/-- A match that a node of a cluster may get. -/
def Suitable (cluster : Cluster E K) (m : Match K) : Prop :=
  m ∈ cluster.matches_ ∧
    (stochastic lib cluster = false →
      ∀ m' ∈ cluster.matches_, m'.rank ≤ m.rank)

variable {lib} {cluster : Cluster E K}

theorem candidates_nil (h : cluster.matches_ = []) :
    (candidates lib d cluster).2 = [] := by
  rw [candidates, h]
  split
  · rw [makeDistribution]
    rfl
  · rfl

theorem makeDistribution_weighs (matches_ : List (Match K)) (f : K) :
    Weighs d (makeDistribution d matches_ f) matches_.length := by
  refine ⟨?_, ?_⟩
  · refine partialSum_nonneg d fun w hw => ?_
    obtain ⟨r, -, rfl⟩ := List.mem_map.mp hw
    exact d.atan_ge _
  · rw [makeDistribution, length_partialSum, List.length_map, List.length_map]

/-- Where there are matches, there are candidates, and every one is suitable. -/
theorem candidates_suitable (h : cluster.matches_ ≠ []) : ∃ n, n ≠ 0 ∧
    Weighs d (candidates lib d cluster).2 n ∧
      ∀ i < n, ∃ m, (candidates lib d cluster).1[i]? = some m ∧
        Suitable lib cluster m := by
  rw [candidates]
  by_cases hfuzzy : stochastic lib cluster = true
  · rw [if_pos hfuzzy]
    refine ⟨cluster.matches_.length, fun hlen => h (List.length_eq_zero_iff.mp hlen),
      makeDistribution_weighs d _ _, fun i hi => ?_⟩
    refine ⟨_, List.getElem?_eq_getElem hi, List.getElem_mem hi, fun hnot => ?_⟩
    rw [hfuzzy] at hnot
    cases hnot
  · rw [if_neg hfuzzy]
    cases hms : cluster.matches_ with
    | nil => exact absurd hms h
    | cons m rest =>
        obtain ⟨best, hbest, hrank⟩ := exists_maxRank m rest
        have hmem : best ∈ (m :: rest).filter (·.rank = maxRank m rest) :=
          List.mem_filter.mpr ⟨hbest, decide_eq_true hrank⟩
        refine ⟨((m :: rest).filter (·.rank = maxRank m rest)).length, ?_, ⟨?_, ?_⟩,
          fun i hi => ?_⟩
        · exact fun hlen => List.ne_nil_of_mem hmem (List.length_eq_zero_iff.mp hlen)
        · refine partialSum_nonneg d fun w hw => ?_
          rw [List.eq_of_mem_replicate hw]
          exact d.zero_le_one
        · rw [length_partialSum, List.length_replicate]
          rfl
        · obtain ⟨m₀, hm₀⟩ :
              ∃ m₀, ((m :: rest).filter (·.rank = maxRank m rest))[i]? = some m₀ :=
            ⟨_, List.getElem?_eq_getElem hi⟩
          obtain ⟨hin, heq⟩ := List.mem_filter.mp (List.mem_of_getElem? hm₀)
          refine ⟨m₀, ?_, ?_, fun _ m' hm' => ?_⟩
          · change ((m :: rest).filter (·.rank = maxRank m rest) ++ _)[i]? = _
            rw [List.getElem?_append_left hi, hm₀]
          · rw [hms]
            exact hin
          · rw [hms] at hm'
            rw [of_decide_eq_true heq]
            exact le_maxRank m rest m' hm'

end

/-! ## The nodes of one cluster -/

section
variable (lib : Libraries E K) (helpers : Helpers E K) (coll : Collection E)

/-- The job that a node with its match becomes. -/
def jobOf (p : String × Match K) : ScheduledJob E where
  planned := addBrokerinfoToIsb lib
    (makePlannedJdl lib (getJdl coll p.1) p.2)
  adapted :=
    match helpers.adapt p.1 with
    | .ok adapted => adapted
    | .error _ => fun _ => none
  brokerinfo := p.2.brokerinfo

/-- What the scheduled jobs leave in the broker information. -/
def noteAll (jobs : List (ScheduledJob E)) (heap : Heap E) : Heap E :=
  jobs.foldl (fun heap job => noteDac job.planned job.brokerinfo heap) heap

/-- The nodes that get a match, and the match. -/
def assigned (matches_ : List (Match K)) :
    List (String × Option ℕ) → List (String × Match K)
  | [] => []
  | (_, none) :: rest => assigned matches_ rest
  | (name, some i) :: rest =>
      match matches_[i]? with
      | none => assigned matches_ rest
      | some m => (name, m) :: assigned matches_ rest

/-- The nodes that got no destination. -/
def leftOut : List (String × Option ℕ) → List String
  | [] => []
  | (name, none) :: rest => name :: leftOut rest
  | (_, some _) :: rest => leftOut rest

/-- The pending set with more names in it. -/
def leave (names : List String) (pending : Finset String) : Finset String :=
  names.foldl (fun pending name => insert name pending) pending

theorem mem_leave {names : List String} {pending : Finset String}
    {name : String} :
    name ∈ leave names pending ↔ name ∈ pending ∨ name ∈ names := by
  induction names generalizing pending with
  | nil => simp [leave]
  | cons n rest ih =>
      rw [leave, List.foldl_cons]
      change name ∈ leave rest _ ↔ _
      rw [ih, Finset.mem_insert, List.mem_cons]
      exact ⟨fun h => h.elim (fun h => h.elim (fun h => .inr (.inl h)) .inl)
          fun h => .inr (.inr h),
        fun h => h.elim (fun h => .inl (.inr h))
          fun h => h.elim (fun h => .inl (.inl h)) .inr⟩

variable {lib helpers coll}

theorem noteDac_planned (p : String × Match K) (heap : Heap E) :
    noteDac (makePlannedJdl lib (getJdl coll p.1) p.2) p.2.brokerinfo heap =
      noteDac (jobOf lib helpers coll p).planned
        (jobOf lib helpers coll p).brokerinfo heap := by
  have hdac : (jobOf lib helpers coll p).planned dataAccessProtocol =
      makePlannedJdl lib (getJdl coll p.1) p.2 dataAccessProtocol :=
    lib.setInputSandbox_dac _ _
  rw [noteDac, noteDac, hdac]
  rfl

theorem noteAll_cons (job : ScheduledJob E) (jobs : List (ScheduledJob E))
    (heap : Heap E) : noteAll (job :: jobs) heap =
      noteAll jobs (noteDac job.planned job.brokerinfo heap) := rfl

theorem noteAll_append (jobs jobs' : List (ScheduledJob E)) (heap : Heap E) :
    noteAll (jobs ++ jobs') heap = noteAll jobs' (noteAll jobs heap) :=
  List.foldl_append

/-- The loop over the nodes of a cluster, where every destination exists. -/
theorem scheduleNodes_ok {matches_ : List (Match K)}
    {ds : List (String × Option ℕ)} (s : Progress E)
    (hds : ∀ p ∈ ds, ∀ i, p.2 = some i → ∃ m, matches_[i]? = some m)
    (hadapt : ∀ p ∈ assigned matches_ ds, (helpers.adapt p.1).isOk) :
    scheduleNodes lib helpers coll matches_ ds s =
      ({ s with
          jobs := s.jobs ++ (assigned matches_ ds).map (jobOf lib helpers coll)
          pending := leave (leftOut ds) s.pending
          heap := noteAll ((assigned matches_ ds).map (jobOf lib helpers coll))
            s.heap }, .ok ()) := by
  induction ds generalizing s with
  | nil => simp [scheduleNodes, assigned, leftOut, leave, noteAll]
  | cons p rest ih =>
      have hrest := fun q hq => hds q (List.mem_cons_of_mem p hq)
      obtain ⟨name, dest⟩ := p
      cases dest with
      | none => exact ih _ hrest hadapt
      | some i =>
          obtain ⟨m, hm⟩ := hds _ List.mem_cons_self i rfl
          rw [assigned, hm] at hadapt
          have hadapted := hadapt (name, m) List.mem_cons_self
          rw [scheduleNodes, assigned, hm]
          cases ha : helpers.adapt name with
          | error what =>
              rw [ha] at hadapted
              cases hadapted
          | ok adapted =>
              dsimp only
              rw [ih _ hrest fun q hq => hadapt q (List.mem_cons_of_mem _ hq)]
              have hjob : jobOf lib helpers coll (name, m) =
                  ⟨addBrokerinfoToIsb lib
                    (makePlannedJdl lib (getJdl coll name) m), adapted,
                    m.brokerinfo⟩ := by
                rw [jobOf, ha]
              have hnote :=
                @noteDac_planned E K lib helpers coll (name, m) s.heap
              rw [List.map_cons, noteAll_cons, ← hnote, hjob, List.append_assoc]
              rfl

theorem scheduleNodes_error {matches_ : List (Match K)}
    {ds : List (String × Option ℕ)} (s : Progress E)
    (hds : ∀ p ∈ ds, ∀ i, p.2 = some i → ∃ m, matches_[i]? = some m)
    (hadapt : ∃ p ∈ assigned matches_ ds, ¬(helpers.adapt p.1).isOk) :
    ∃ e, (scheduleNodes lib helpers coll matches_ ds s).2 = .error e := by
  induction ds generalizing s with
  | nil =>
      obtain ⟨p, hp, -⟩ := hadapt
      cases hp
  | cons p rest ih =>
      have hrest := fun q hq => hds q (List.mem_cons_of_mem p hq)
      obtain ⟨name, dest⟩ := p
      cases dest with
      | none => exact ih _ hrest hadapt
      | some i =>
          obtain ⟨m, hm⟩ := hds _ List.mem_cons_self i rfl
          rw [assigned, hm] at hadapt
          rw [scheduleNodes, hm]
          cases ha : helpers.adapt name with
          | error what => exact ⟨.helper what, by simp only⟩
          | ok adapted =>
              refine ih _ hrest ?_
              obtain ⟨p, hp, hno⟩ := hadapt
              rcases List.mem_cons.mp hp with rfl | hp
              · rw [ha] at hno
                exact absurd rfl hno
              · exact ⟨p, hp, hno⟩

end

/-! ## One cluster, and all of them -/

section
variable (lib : Libraries E K) [LinearOrder K] (d : Doubles K)
  (draws : ℕ → Draw d)

/-- The destinations of the nodes of a cluster, from a random number on. -/
def destinationsOf (cluster : Cluster E K) (drawn : ℕ) :
    List (String × Option ℕ) :=
  cluster.names.zip (selectDestinations d (candidates lib d cluster).2 draws
    cluster.names drawn).1

/-- How many draws there have been after a cluster. -/
def drawnAfter (cluster : Cluster E K) (drawn : ℕ) : ℕ :=
  (selectDestinations d (candidates lib d cluster).2 draws cluster.names
    drawn).2

/-- The nodes of a cluster that get a match. -/
def chosenIn (cluster : Cluster E K) (drawn : ℕ) : List (String × Match K) :=
  assigned (candidates lib d cluster).1 (destinationsOf lib d draws cluster drawn)

/-- The destinations of all nodes. -/
def allChosen : Clusters E K → ℕ → List (String × Match K)
  | [], _ => []
  | v :: rest, drawn =>
      chosenIn lib d draws v.2 drawn ++
        allChosen rest (drawnAfter lib d draws v.2 drawn)

/-- The nodes of the clusters without a match. -/
def unmatched (clusters : Clusters E K) : List String :=
  (clusters.filter (·.2.matches_.isEmpty)).flatMap fun v => v.2.names

/-- The nodes of the clusters with matches. -/
def matched (clusters : Clusters E K) : List String :=
  (clusters.filter (!·.2.matches_.isEmpty)).flatMap fun v => v.2.names

variable {lib d draws} {cluster : Cluster E K} {drawn : ℕ}

theorem zip_selectDestinations_nil (names : List String) :
    names.zip (selectDestinations d [] draws names drawn).1 =
      names.map fun name => (name, none) := by
  induction names generalizing drawn with
  | nil => rfl
  | cons name rest ih => exact congrArg ((name, none) :: ·) ih

theorem zip_selectDestinations {distribution : List K} {n : ℕ}
    (h : Weighs d distribution n) (hn : n ≠ 0) (names : List String) :
    (names.zip (selectDestinations d distribution draws names drawn).1).map
        Prod.fst = names ∧
      ∀ p ∈ names.zip (selectDestinations d distribution draws names drawn).1,
        ∃ i < n, p.2 = some i := by
  induction names generalizing drawn with
  | nil => exact ⟨rfl, fun p hp => (by cases hp)⟩
  | cons name rest ih =>
      obtain ⟨hfst, hall⟩ :=
        @ih (if distribution = [] then drawn else drawn + 1)
      refine ⟨congrArg (name :: ·) hfst, fun p hp => ?_⟩
      rcases List.mem_cons.mp hp with rfl | hp
      · exact selectDestination_lt h (draws drawn) hn
      · exact hall p hp

omit [LinearOrder K] in
theorem assigned_spec {matches_ : List (Match K)} {P : Match K → Prop}
    {ds : List (String × Option ℕ)}
    (h : ∀ p ∈ ds, ∃ i m, p.2 = some i ∧ matches_[i]? = some m ∧ P m) :
    (assigned matches_ ds).map Prod.fst = ds.map Prod.fst ∧
      leftOut ds = [] ∧ ∀ p ∈ assigned matches_ ds, P p.2 := by
  induction ds with
  | nil => exact ⟨rfl, rfl, fun p hp => (by cases hp)⟩
  | cons p rest ih =>
      obtain ⟨hfst, hleft, hall⟩ :=
        ih fun q hq => h q (List.mem_cons_of_mem p hq)
      obtain ⟨i, m, hi, hm, hP⟩ := h p List.mem_cons_self
      obtain ⟨name, dest⟩ := p
      cases hi
      rw [assigned, hm]
      refine ⟨congrArg (name :: ·) hfst, hleft, fun q hq => ?_⟩
      rcases List.mem_cons.mp hq with rfl | hq
      · exact hP
      · exact hall q hq

/-- A cluster with matches: every node gets a suitable one. -/
theorem chosenIn_spec (h : cluster.matches_ ≠ []) :
    (chosenIn lib d draws cluster drawn).map Prod.fst = cluster.names ∧
      leftOut (destinationsOf lib d draws cluster drawn) = [] ∧
      (∀ p ∈ destinationsOf lib d draws cluster drawn, ∀ i, p.2 = some i →
        ∃ m, (candidates lib d cluster).1[i]? = some m) ∧
      ∀ p ∈ chosenIn lib d draws cluster drawn, Suitable lib cluster p.2 := by
  obtain ⟨n, hn, hweighs, hsuit⟩ := candidates_suitable d h
  obtain ⟨hfst, hall⟩ :=
    @zip_selectDestinations K _ d draws drawn _ n hweighs hn cluster.names
  have hds : ∀ p ∈ destinationsOf lib d draws cluster drawn, ∃ i m,
      p.2 = some i ∧ (candidates lib d cluster).1[i]? = some m ∧
        Suitable lib cluster m := by
    intro p hp
    obtain ⟨i, hi, heq⟩ := hall p hp
    obtain ⟨m, hm, hs⟩ := hsuit i hi
    exact ⟨i, m, heq, hm, hs⟩
  obtain ⟨hassigned, hleft, hP⟩ := assigned_spec hds
  refine ⟨hassigned.trans hfst, hleft, fun p hp i hi => ?_, hP⟩
  obtain ⟨j, m, hj, hm, -⟩ := hds p hp
  rw [hi] at hj
  cases hj
  exact ⟨m, hm⟩

/-- A cluster without any: all its nodes are left. -/
theorem chosenIn_nil (h : cluster.matches_ = []) :
    chosenIn lib d draws cluster drawn = [] ∧
      leftOut (destinationsOf lib d draws cluster drawn) = cluster.names ∧
      ∀ p ∈ destinationsOf lib d draws cluster drawn, p.2 = none := by
  have hds : destinationsOf lib d draws cluster drawn =
      cluster.names.map fun name => (name, none) := by
    rw [destinationsOf, candidates_nil d h, zip_selectDestinations_nil]
  rw [chosenIn, hds]
  refine ⟨?_, ?_, fun p hp => ?_⟩
  · induction cluster.names with
    | nil => rfl
    | cons name rest ih => exact ih
  · induction cluster.names with
    | nil => rfl
    | cons name rest ih => exact congrArg (name :: ·) ih
  · obtain ⟨name, -, rfl⟩ := List.mem_map.mp hp
    rfl

/-- Every destination of a cluster exists. -/
theorem destination_exists : ∀ p ∈ destinationsOf lib d draws cluster drawn,
    ∀ i, p.2 = some i → ∃ m, (candidates lib d cluster).1[i]? = some m := by
  intro p hp i hi
  by_cases h : cluster.matches_ = []
  · rw [chosenIn_nil h |>.2.2 p hp] at hi
    cases hi
  · exact (chosenIn_spec h).2.2.1 p hp i hi

variable {helpers : Helpers E K} {coll : Collection E}

theorem schedule_ok (s : Progress E)
    (h : ∀ p ∈ chosenIn lib d draws cluster s.drawn,
      (helpers.adapt p.1).isOk) :
    schedule lib helpers coll d draws cluster s =
      ({ jobs := s.jobs ++ (chosenIn lib d draws cluster s.drawn).map
          (jobOf lib helpers coll)
         pending := leave (leftOut (destinationsOf lib d draws cluster s.drawn))
          s.pending
         heap := noteAll ((chosenIn lib d draws cluster s.drawn).map
          (jobOf lib helpers coll)) s.heap
         drawn := drawnAfter lib d draws cluster s.drawn }, .ok ()) :=
  scheduleNodes_ok { s with drawn := drawnAfter lib d draws cluster s.drawn }
    destination_exists h

theorem schedule_error (s : Progress E)
    (h : ∃ p ∈ chosenIn lib d draws cluster s.drawn,
      ¬(helpers.adapt p.1).isOk) :
    ∃ e, (schedule lib helpers coll d draws cluster s).2 = .error e :=
  scheduleNodes_error { s with drawn := drawnAfter lib d draws cluster s.drawn }
    destination_exists h

variable {clusters : Clusters E K}

theorem leave_append (names names' : List String) (pending : Finset String) :
    leave (names ++ names') pending = leave names' (leave names pending) :=
  List.foldl_append

omit [LinearOrder K] in
theorem unmatched_cons (v : ClusterKey × Cluster E K) :
    unmatched (v :: clusters) =
      (if v.2.matches_.isEmpty then v.2.names else []) ++ unmatched clusters := by
  rw [unmatched, List.filter_cons]
  split <;> rfl

omit [LinearOrder K] in
theorem matched_cons (v : ClusterKey × Cluster E K) :
    matched (v :: clusters) =
      (if v.2.matches_.isEmpty then [] else v.2.names) ++ matched clusters := by
  rw [matched, List.filter_cons]
  cases v.2.matches_.isEmpty <;> rfl

theorem leftOut_eq (v : ClusterKey × Cluster E K) :
    leftOut (destinationsOf lib d draws v.2 drawn) =
      if v.2.matches_.isEmpty then v.2.names else [] := by
  by_cases h : v.2.matches_ = []
  · rw [(chosenIn_nil h).2.1, h]
    rfl
  · rw [(chosenIn_spec h).2.1, if_neg fun he => h (List.isEmpty_iff.mp he)]

theorem scheduleClusters_ok (s : Progress E)
    (h : ∀ p ∈ allChosen lib d draws clusters s.drawn,
      (helpers.adapt p.1).isOk) :
    ∃ drawn, scheduleClusters lib helpers coll d draws clusters s =
      ({ jobs := s.jobs ++ (allChosen lib d draws clusters s.drawn).map
          (jobOf lib helpers coll)
         pending := leave (unmatched clusters) s.pending
         heap := noteAll ((allChosen lib d draws clusters s.drawn).map
          (jobOf lib helpers coll)) s.heap
         drawn := drawn }, .ok ()) := by
  induction clusters generalizing s with
  | nil => exact ⟨s.drawn, by simp [scheduleClusters, allChosen, unmatched,
      leave, noteAll]⟩
  | cons v rest ih =>
      have hv := @schedule_ok E K lib _ d draws v.2 helpers coll s fun p hp =>
        h p (List.mem_append_left _ hp)
      rw [scheduleClusters, hv]
      obtain ⟨drawn, hrest⟩ := ih
        { jobs := s.jobs ++ (chosenIn lib d draws v.2 s.drawn).map
            (jobOf lib helpers coll)
          pending := leave (leftOut (destinationsOf lib d draws v.2 s.drawn))
            s.pending
          heap := noteAll ((chosenIn lib d draws v.2 s.drawn).map
            (jobOf lib helpers coll)) s.heap
          drawn := drawnAfter lib d draws v.2 s.drawn }
        fun p hp => h p (List.mem_append_right _ hp)
      refine ⟨drawn, hrest.trans ?_⟩
      rw [allChosen, List.map_append, noteAll_append, List.append_assoc,
        unmatched_cons, leave_append, leftOut_eq]

theorem scheduleClusters_error (s : Progress E)
    (h : ∃ p ∈ allChosen lib d draws clusters s.drawn,
      ¬(helpers.adapt p.1).isOk) :
    ∃ e, (scheduleClusters lib helpers coll d draws clusters s).2 = .error e := by
  induction clusters generalizing s with
  | nil =>
      obtain ⟨p, hp, -⟩ := h
      cases hp
  | cons v rest ih =>
      rw [scheduleClusters]
      by_cases hv : ∃ p ∈ chosenIn lib d draws v.2 s.drawn,
          ¬(helpers.adapt p.1).isOk
      · obtain ⟨e, he⟩ := @schedule_error E K lib _ d draws v.2 helpers coll s hv
        split
        · rename_i hs
          rw [hs] at he
          cases he
        · exact ⟨_, rfl⟩
      · have hok : ∀ p ∈ chosenIn lib d draws v.2 s.drawn,
            (helpers.adapt p.1).isOk := fun p hp =>
          Classical.byContradiction fun hno => hv ⟨p, hp, hno⟩
        rw [schedule_ok s hok]
        refine ih _ ?_
        obtain ⟨p, hp, hno⟩ := h
        rcases List.mem_append.mp hp with hp | hp
        · exact absurd ⟨p, hp, hno⟩ hv
        · exact ⟨p, hp, hno⟩

theorem allChosen_spec (drawn : ℕ) :
    (allChosen lib d draws clusters drawn).map Prod.fst = matched clusters ∧
      ∀ p ∈ allChosen lib d draws clusters drawn,
        ∃ v ∈ clusters, p.1 ∈ v.2.names ∧ Suitable lib v.2 p.2 := by
  induction clusters generalizing drawn with
  | nil => exact ⟨rfl, fun p hp => (by cases hp)⟩
  | cons v rest ih =>
      obtain ⟨hfst, hall⟩ := ih (drawnAfter lib d draws v.2 drawn)
      rw [allChosen, List.map_append, matched_cons, hfst]
      by_cases h : v.2.matches_ = []
      · rw [(chosenIn_nil h).1, h]
        refine ⟨rfl, fun p hp => ?_⟩
        obtain ⟨u, hu, hp'⟩ := hall p hp
        exact ⟨u, List.mem_cons_of_mem v hu, hp'⟩
      · obtain ⟨hnames, -, -, hsuit⟩ :=
          @chosenIn_spec E K lib _ d draws v.2 drawn h
        rw [hnames, if_neg fun he => h (List.isEmpty_iff.mp he)]
        refine ⟨rfl, fun p hp => ?_⟩
        rcases List.mem_append.mp hp with hp | hp
        · have hname := List.mem_map_of_mem (f := Prod.fst) hp
          rw [hnames] at hname
          exact ⟨v, List.mem_cons_self, hname, hsuit p hp⟩
        · obtain ⟨u, hu, hp'⟩ := hall p hp
          exact ⟨u, List.mem_cons_of_mem v hu, hp'⟩

end

/-! ## The match-maker's part -/

section
variable {lib : Libraries E K} {helpers : Helpers E K} {dag : Ad E}

/-- The match-maker gives the clusters their matches and changes nothing else
in them. -/
theorem matchClusters_keeps {clusters clusters' : Clusters E K} {heap heap' : Heap E}
    (h : matchClusters lib helpers clusters heap = .ok (clusters', heap')) :
    clusters'.map (fun v => (v.1, v.2.names)) =
      clusters.map fun v => (v.1, v.2.names) := by
  induction clusters generalizing clusters' heap heap' with
  | nil =>
      cases h
      rfl
  | cons v rest ih =>
      rw [matchClusters] at h
      cases hr : resolve lib helpers v with
      | error what =>
          rw [hr] at h
          cases h
      | ok response =>
          rw [hr] at h
          cases hrest : matchClusters lib helpers rest
              (fillMatches response v.2.matches_ heap).2.1 with
          | error e =>
              simp only [hrest] at h
              cases h
          | ok r =>
              simp only [hrest] at h
              cases h
              exact congrArg ((v.1, v.2.names) :: ·) (ih hrest)

/-- So they still are groups of the nodes. -/
theorem groups_of_keeps {nodes : List (String × Ad E)}
    {clusters clusters' : Clusters E K} (h : Groups lib dag nodes clusters)
    (hsame : clusters'.map (fun v => (v.1, v.2.names)) =
      clusters.map fun v => (v.1, v.2.names)) :
    Groups lib dag nodes clusters' := by
  have hother : ∀ v ∈ clusters', ∃ u ∈ clusters, u.1 = v.1 ∧
      u.2.names = v.2.names := by
    intro v hv
    have hmem : (v.1, v.2.names) ∈ clusters.map fun v => (v.1, v.2.names) := by
      rw [← hsame]
      exact List.mem_map_of_mem hv
    obtain ⟨u, hu, heq⟩ := List.mem_map.mp hmem
    exact ⟨u, hu, (Prod.mk.inj heq).1, (Prod.mk.inj heq).2⟩
  refine ⟨?_, fun v hv => ?_, fun n hn => ?_⟩
  · have hfst := congrArg (List.map Prod.fst) hsame
    rw [List.map_map, List.map_map] at hfst
    exact (congrArg List.Nodup hfst).mpr h.keys
  · obtain ⟨u, hu, hkey, hnames⟩ := hother v hv
    rw [← hnames, ← hkey]
    exact h.names u hu
  · obtain ⟨u, hu, heq⟩ := h.covers n hn
    have hmem : (u.1, u.2.names) ∈ clusters'.map fun v => (v.1, v.2.names) := by
      rw [hsame]
      exact List.mem_map_of_mem hu
    obtain ⟨v, hv, heq'⟩ := List.mem_map.mp hmem
    exact ⟨v, hv, (Prod.mk.inj heq').1.trans heq⟩

end

/-! ## What a run does with the nodes -/

section
variable (lib : Libraries E K) (helpers : Helpers E K) (coll : Collection E)

/-- The clusters of a collection before the match-maker is asked. -/
def clustersOf : Clusters E K := clusterize lib coll.ad coll.nodes []

/-- The significant attributes of a node, with their values. -/
def pairsOf (n : String × Ad E) : ClusterKey :=
  significantPairs lib n.2 coll.ad

variable [LinearOrder K]

/-- Every node is placed once: `clusters` is what the match-maker has answered,
`chosen` the nodes that got a match. -/
structure Placed (clusters : Clusters E K) (chosen : List (String × Match K))
    (run : Run E) : Prop where
  returns : run.result = .ok (chosen.map (jobOf lib helpers coll))
  once : (chosen.map Prod.fst).Nodup
  nodes : ∀ n ∈ chosen.map Prod.fst, n ∈ coll.nodes.map Prod.fst
  either : ∀ n ∈ coll.nodes.map Prod.fst,
    n ∈ chosen.map Prod.fst ↔ n ∉ run.pending
  covers : ∀ n ∈ coll.nodes.map Prod.fst,
    ∃! v, v ∈ clusters ∧ n ∈ v.2.names
  clustered : ∀ n ∈ coll.nodes, ∀ n' ∈ coll.nodes,
    (∃ v ∈ clusters, n.1 ∈ v.2.names ∧ n'.1 ∈ v.2.names) ↔
      n.1 = n'.1 ∨
        pairsOf lib coll n ≠ [] ∧ pairsOf lib coll n = pairsOf lib coll n'
  pending : ∀ v ∈ clusters, ∀ n ∈ v.2.names,
    n ∈ run.pending ↔ v.2.matches_ = []
  best : ∀ p ∈ chosen, ∃ v ∈ clusters, p.1 ∈ v.2.names ∧
    p.2 ∈ v.2.matches_ ∧ (stochastic lib v.2 = false →
      ∀ m ∈ v.2.matches_, m.rank ≤ p.2.rank)

variable (d : Doubles K) (draws : ℕ → Draw d)

/-- The nodes are placed by a run, by what the match-maker answers for their
clusters. -/
def Places (pending : Finset String) : Prop :=
  ∃ clusters heap, matchClusters lib helpers (clustersOf lib coll) [] =
      .ok (clusters, heap) ∧
    ∃ chosen, Placed lib helpers coll clusters chosen
      (doBulkMm lib helpers coll d draws pending)

omit [LinearOrder K] in
/-- The match-maker answers for every cluster, and where it has a match for
one, none of its nodes is pending beforehand or refused by the adapter. -/
def Served (pending : Finset String) : Prop :=
  ∃ clusters heap, matchClusters lib helpers (clustersOf lib coll) [] =
      .ok (clusters, heap) ∧
    ∀ v ∈ clusters, v.2.matches_ ≠ [] → ∀ n ∈ v.2.names,
      (helpers.adapt n).isOk ∧ n ∉ pending

variable {lib helpers coll d draws} {clusters : Clusters E K} {heap : Heap E}
  {pending : Finset String}

omit [LinearOrder K] in
theorem groups_matched (h : matchClusters lib helpers (clustersOf lib coll) [] =
    .ok (clusters, heap)) : Groups lib coll.ad coll.nodes clusters := by
  have hempty : Groups lib coll.ad [] ([] : Clusters E K) :=
    ⟨List.nodup_nil, fun v hv => (by cases hv), fun n hn => (by cases hn)⟩
  have hgroups : Groups lib coll.ad coll.nodes (clustersOf lib coll) :=
    groups_clusterize hempty
  exact groups_of_keeps hgroups (matchClusters_keeps h)

theorem doBulkMm_ok (h : matchClusters lib helpers (clustersOf lib coll) [] =
      .ok (clusters, heap))
    (hadapt : ∀ p ∈ allChosen lib d draws clusters 0,
      (helpers.adapt p.1).isOk) :
    doBulkMm lib helpers coll d draws pending =
      ⟨leave (unmatched clusters) pending,
        noteAll ((allChosen lib d draws clusters 0).map (jobOf lib helpers coll))
          heap,
        .ok ((allChosen lib d draws clusters 0).map
          (jobOf lib helpers coll))⟩ := by
  obtain ⟨drawn, hs⟩ := @scheduleClusters_ok E K lib _ d draws helpers coll
    clusters ⟨[], pending, heap, 0⟩ hadapt
  rw [clustersOf] at h
  rw [doBulkMm, h]
  simp only [hs, List.nil_append]

theorem doBulkMm_error (h : matchClusters lib helpers (clustersOf lib coll) [] =
      .ok (clusters, heap))
    (hadapt : ∃ p ∈ allChosen lib d draws clusters 0,
      ¬(helpers.adapt p.1).isOk) :
    ∃ e, (doBulkMm lib helpers coll d draws pending).result = .error e := by
  obtain ⟨e, he⟩ := @scheduleClusters_error E K lib _ d draws helpers coll
    clusters ⟨[], pending, heap, 0⟩ hadapt
  rw [clustersOf] at h
  rw [doBulkMm, h]
  dsimp only
  split
  · rename_i hs
    rw [hs] at he
    cases he
  · exact ⟨_, rfl⟩

omit [LinearOrder K] in
theorem mem_matched {name : String} : name ∈ matched clusters ↔
    ∃ v ∈ clusters, v.2.matches_ ≠ [] ∧ name ∈ v.2.names := by
  rw [matched, List.mem_flatMap]
  refine exists_congr fun v => ?_
  rw [List.mem_filter, and_assoc]
  refine and_congr_right fun _ => and_congr_left fun _ => ?_
  cases v.2.matches_ <;> simp

omit [LinearOrder K] in
theorem mem_unmatched {name : String} : name ∈ unmatched clusters ↔
    ∃ v ∈ clusters, v.2.matches_ = [] ∧ name ∈ v.2.names := by
  rw [unmatched, List.mem_flatMap]
  refine exists_congr fun v => ?_
  rw [List.mem_filter, and_assoc]
  refine and_congr_right fun _ => and_congr_left fun _ => ?_
  cases v.2.matches_ <;> simp

omit [LinearOrder K] in
theorem mem_nodes_of_names (h : Groups lib coll.ad coll.nodes clusters)
    {v : ClusterKey × Cluster E K} (hv : v ∈ clusters) {name : String}
    (hname : name ∈ v.2.names) : ∃ n ∈ coll.nodes, n.1 = name := by
  rw [h.names v hv] at hname
  obtain ⟨n, hn, heq⟩ := List.mem_map.mp hname
  exact ⟨n, (List.mem_filter.mp hn).1, heq⟩

omit [LinearOrder K] in
theorem cluster_unique (h : Groups lib coll.ad coll.nodes clusters)
    {u v : ClusterKey × Cluster E K} (hu : u ∈ clusters) (hv : v ∈ clusters)
    {name : String} (hname : name ∈ u.2.names) (hname' : name ∈ v.2.names) :
    u = v := by
  obtain ⟨n, hn, rfl⟩ := mem_nodes_of_names h hu hname
  refine List.inj_on_of_nodup_map h.keys hu hv ?_
  rw [← (mem_names h coll.nodup hn hu).mp hname,
    ← (mem_names h coll.nodup hn hv).mp hname']

omit [LinearOrder K] in
/-- Every node is in one cluster. -/
theorem exists_unique_cluster (h : Groups lib coll.ad coll.nodes clusters)
    {n : String × Ad E} (hn : n ∈ coll.nodes) :
    ∃! v, v ∈ clusters ∧ n.1 ∈ v.2.names := by
  obtain ⟨v, hv, hkey⟩ := h.covers n hn
  have hname := (mem_names h coll.nodup hn hv).mpr hkey.symm
  exact ⟨v, ⟨hv, hname⟩, fun u hu => cluster_unique h hu.1 hv hu.2 hname⟩

omit [LinearOrder K] in
/-- Two nodes are together if they have the same significant attributes, and
have some. -/
theorem clustered_iff (h : Groups lib coll.ad coll.nodes clusters)
    {n n' : String × Ad E} (hn : n ∈ coll.nodes) (hn' : n' ∈ coll.nodes) :
    (∃ v ∈ clusters, n.1 ∈ v.2.names ∧ n'.1 ∈ v.2.names) ↔
      n.1 = n'.1 ∨
        pairsOf lib coll n ≠ [] ∧ pairsOf lib coll n = pairsOf lib coll n' := by
  have htogether : (∃ v ∈ clusters, n.1 ∈ v.2.names ∧ n'.1 ∈ v.2.names) ↔
      keyOf lib coll.ad n = keyOf lib coll.ad n' := by
    constructor
    · rintro ⟨v, hv, hname, hname'⟩
      rw [(mem_names h coll.nodup hn hv).mp hname,
        (mem_names h coll.nodup hn' hv).mp hname']
    · intro hkey
      obtain ⟨v, hv, heq⟩ := h.covers n hn
      exact ⟨v, hv, (mem_names h coll.nodup hn hv).mpr heq.symm,
        (mem_names h coll.nodup hn' hv).mpr (hkey ▸ heq.symm)⟩
  rw [htogether, keyOf_eq_iff]
  constructor
  · rintro ⟨hpairs, hname⟩
    by_cases hne : significantPairs lib n.2 coll.ad = []
    · exact .inl (hname hne)
    · exact .inr ⟨hne, hpairs⟩
  · rintro (hname | ⟨hne, hpairs⟩)
    · obtain rfl := List.inj_on_of_nodup_map coll.nodup hn hn' hname
      exact ⟨rfl, fun _ => rfl⟩
    · exact ⟨hpairs, fun hnil => absurd hnil hne⟩

theorem placed_of_served
    (h : matchClusters lib helpers (clustersOf lib coll) [] =
      .ok (clusters, heap))
    (hserved : ∀ v ∈ clusters, v.2.matches_ ≠ [] → ∀ n ∈ v.2.names,
      (helpers.adapt n).isOk ∧ n ∉ pending) :
    Placed lib helpers coll clusters (allChosen lib d draws clusters 0)
      (doBulkMm lib helpers coll d draws pending) := by
  have hgroups := groups_matched h
  obtain ⟨hfst, hsuit⟩ := @allChosen_spec E K lib _ d draws clusters 0
  have hadapt : ∀ p ∈ allChosen lib d draws clusters 0,
      (helpers.adapt p.1).isOk := by
    intro p hp
    obtain ⟨v, hv, hname, hmem, -⟩ := hsuit p hp
    exact (hserved v hv (List.ne_nil_of_mem hmem) _ hname).1
  have hpending : ∀ v ∈ clusters, ∀ n ∈ v.2.names,
      n ∈ leave (unmatched clusters) pending ↔ v.2.matches_ = [] := by
    intro v hv n hn
    rw [mem_leave, mem_unmatched]
    constructor
    · rintro (hpend | ⟨u, hu, hnone, hn'⟩)
      · exact Classical.byContradiction fun hne =>
          (hserved v hv hne n hn).2 hpend
      · rw [cluster_unique hgroups hv hu hn hn']
        exact hnone
    · exact fun hnone => .inr ⟨v, hv, hnone, hn⟩
  rw [doBulkMm_ok h hadapt]
  refine ⟨rfl, ?_, fun n hn => ?_, fun n hn => ?_, fun n hn => ?_,
    fun n hn n' hn' => clustered_iff hgroups hn hn', hpending, hsuit⟩
  · rw [hfst, matched, List.nodup_flatMap]
    obtain ⟨heach, hpair⟩ :=
      List.nodup_flatMap.mp (nodup_names hgroups coll.nodup)
    exact ⟨fun v hv => heach v (List.mem_filter.mp hv).1, hpair.filter _⟩
  · rw [hfst, mem_matched] at hn
    obtain ⟨v, hv, -, hname⟩ := hn
    obtain ⟨u, hu, rfl⟩ := mem_nodes_of_names hgroups hv hname
    exact List.mem_map_of_mem hu
  · obtain ⟨u, hu, rfl⟩ := List.mem_map.mp hn
    obtain ⟨v, ⟨hv, hname⟩, -⟩ := exists_unique_cluster hgroups hu
    rw [hfst, mem_matched, hpending v hv u.1 hname]
    constructor
    · rintro ⟨w, hw, hne, hname'⟩
      rwa [cluster_unique hgroups hv hw hname hname']
    · exact fun hne => ⟨v, hv, hne, hname⟩
  · obtain ⟨u, hu, rfl⟩ := List.mem_map.mp hn
    exact exists_unique_cluster hgroups hu

/-- A run places every node once if the match-maker answers for every cluster
and no node that can get a match is left over in the pending set or refused. -/
theorem places_iff (lib : Libraries E K) (helpers : Helpers E K)
    (coll : Collection E) (d : Doubles K) (draws : ℕ → Draw d)
    (pending : Finset String) :
    Places lib helpers coll d draws pending ↔
      Served lib helpers coll pending := by
  constructor
  · rintro ⟨clusters, heap, h, chosen, hplaced⟩
    obtain ⟨hfst, -⟩ := @allChosen_spec E K lib _ d draws clusters 0
    have hadapt : ∀ p ∈ allChosen lib d draws clusters 0,
        (helpers.adapt p.1).isOk := by
      refine Classical.byContradiction fun hno => ?_
      rw [not_forall₂] at hno
      obtain ⟨p, hp, hno⟩ := hno
      obtain ⟨e, he⟩ := @doBulkMm_error E K lib helpers coll _ d draws clusters
        heap pending h ⟨p, hp, hno⟩
      rw [hplaced.returns] at he
      cases he
    refine ⟨clusters, heap, h, fun v hv hne n hn => ⟨?_, fun hpend => hne ?_⟩⟩
    · have hmem : n ∈ (allChosen lib d draws clusters 0).map Prod.fst := by
        rw [hfst]
        exact mem_matched.mpr ⟨v, hv, hne, hn⟩
      obtain ⟨p, hp, rfl⟩ := List.mem_map.mp hmem
      exact hadapt p hp
    · refine (hplaced.pending v hv n hn).mp ?_
      rw [doBulkMm_ok h hadapt]
      exact mem_leave.mpr (.inl hpend)
  · rintro ⟨clusters, heap, h, hserved⟩
    exact ⟨clusters, heap, h, _, placed_of_served h hserved⟩

end

/-! A collection of two nodes without significant attributes. In a first run the
one gets no match and the job adapter fails for the other, in a second one both
get a match: the pending set still has what the first run has put there. -/

/-- A few literals, in place of expressions. -/
inductive Literal where
  | bool (b : Bool)
  | int (n : ℤ)
  | string (s : String)
  deriving DecidableEq

/-- Whole numbers, in place of doubles. -/
def integers : Doubles ℤ where
  ofNat := Nat.cast
  add := (· + ·)
  sub := (· - ·)
  mul := (· * ·)
  div := (· / ·)
  atan := Int.sign
  zero_le_one := by decide
  le_add := by
    intro a w hw
    change 0 ≤ w at hw
    omega
  mul_le := by
    intro u b hu hu' hb
    change 0 ≤ u at hu
    change u < 1 at hu'
    obtain rfl : u = 0 := by omega
    rw [Int.zero_mul]
    exact hb
  atan_ge := by
    intro x
    change 0 ≤ x.sign + Int.sign 1 * 2
    rcases Int.sign_trichotomy x with h | h | h <;> rw [h] <;> decide

/-- JDLs that hold nothing but literals. -/
def plainLibraries : Libraries Literal ℤ where
  unparse
    | .bool b => if b then "true" else "false"
    | .int _ => "100"
    | .string s => "\"" ++ s ++ "\""
  unparse_ne := by
    intro e
    cases e with
    | bool b => cases b <;> decide
    | int n =>
        change "100" ≠ ""
        decide
    | string s =>
        intro heq
        have hlen := congrArg String.length heq
        simp at hlen
  ofBool := .bool
  ofInt := .int
  nodes := fun _ _ => none
  getSignificantAttributes := fun _ => none
  getFuzzyRank := fun _ => none
  getFuzzyFactor := fun _ => none
  getSubmitTo := fun _ => false
  setGlobusResourceContactString := fun ad _ => ad
  setLrmsType := fun ad _ => ad
  setQueueName := fun ad _ => ad
  setCeinfoHostName := fun ad _ => ad
  setCeId := fun ad _ => ad
  getInputSandbox := fun _ => []
  getWmpinputSandboxBaseUri := fun _ => none
  setInputSandbox := fun ad _ => ad
  setInputSandbox_dac := fun _ _ => rfl
  getInputSandboxPath := fun _ => some "input"

/-- A collection of two nodes. -/
def twoNodes : Collection Literal where
  ad := fun _ => none
  nodes := [("a", fun _ => none), ("b", fun _ => none)]
  nodup := by decide

/-- An answer with one match. -/
def oneMatch : Response Literal ℤ :=
  ⟨some "ok", some [⟨some "host/lsf-queue".toList, some 1, some fun _ => none⟩]⟩

/-- An answer without any. -/
def noMatch : Response Literal ℤ :=
  ⟨some "no matching resources found", some []⟩

/-- Helpers that answer for all nodes but the first. -/
def failing : Helpers Literal ℤ where
  resolve := fun key _ _ => .ok (if key = [("a", "")] then noMatch else oneMatch)
  adapt := fun _ => .error "FS error creating maradona path\n"

/-- Helpers that answer for all nodes. -/
def serving : Helpers Literal ℤ where
  resolve := fun _ _ _ => .ok oneMatch
  adapt := fun _ => .ok fun _ => none

/-- Draws that are all zero. -/
def zeros : ℕ → Draw integers := fun _ => ⟨0, by decide, by decide⟩

/-- The second run schedules both nodes and leaves the first in the pending
set. -/
theorem both_scheduled_and_pending :
    (doBulkMm plainLibraries failing twoNodes integers zeros ∅).pending =
      {"a"} ∧
    ¬Places plainLibraries serving twoNodes integers zeros
      (doBulkMm plainLibraries failing twoNodes integers zeros ∅).pending := by
  have hpending : (doBulkMm plainLibraries failing twoNodes integers zeros
      ∅).pending = {"a"} := by decide
  refine ⟨hpending, ?_⟩
  rintro ⟨clusters, heap, -, chosen, h⟩
  rw [hpending] at h
  have hlength : ((doBulkMm plainLibraries serving twoNodes integers zeros
      {"a"}).result.map List.length) = .ok 2 := by rfl
  have hmem : "a" ∈ (doBulkMm plainLibraries serving twoNodes integers zeros
      {"a"}).pending := by decide
  rw [h.returns] at hlength
  have hnames : ∀ n ∈ chosen.map Prod.fst, n = "b" := by
    intro n hn
    have hnodes := h.nodes n hn
    have hnot := (h.either n hnodes).mp hn
    simp only [twoNodes, List.map_cons, List.map_nil, List.mem_cons,
      List.not_mem_nil, or_false] at hnodes
    rcases hnodes with rfl | rfl
    · exact absurd hmem hnot
    · rfl
  have hlen : (chosen.map Prod.fst).length = 2 := by
    have hlen := Except.ok.inj hlength
    rwa [List.length_map] at hlen ⊢
  have hnodup := h.once
  match hc : chosen.map Prod.fst, hlen with
  | [x, y], _ =>
      rw [hc] at hnames hnodup
      have hx := hnames x List.mem_cons_self
      have hy := hnames y (List.mem_cons_of_mem x List.mem_cons_self)
      rw [hx, hy] at hnodup
      exact absurd hnodup (by decide)

end Wms.Core.Bulk
