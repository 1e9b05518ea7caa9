import Mathlib.Data.List.Nodup
import Wms.Jobsubmission.RamContainer

/-!
# The two vectors refer to the nodes of the list

Each vector is right about one kind of id: it is in order, and its entries are
those of the nodes and no others. A copy, a removal, and an insertion of two new
ids keep both vectors right. The loop of the insertion does not. When it finds
one of the ids, it erases the node but only one of the two entries that refer
to it. When it finds both ids with different nodes, it does nothing.
-/

namespace Wms.Jobsubmission.LogMonitor

open Wms.Lib

/-! ## One vector -/

/-- The entries of `index` are those of the nodes, in the order of their ids,
and no id is twice there. -/
structure Indexes (key : PointerId → Text) (pointers : List Node)
    (index : List IdEntry) : Prop where
  ascending : Ascending IdEntry.id index
  mem : ∀ x, x ∈ index ↔ x ∈ pointers.map (.of key)

theorem node_eq_of_address {pointers : List Node}
    (hnodup : (pointers.map Prod.fst).Nodup) {n m : Node} (hn : n ∈ pointers)
    (hm : m ∈ pointers) (h : n.1 = m.1) : n = m :=
  List.inj_on_of_nodup_map hnodup hn hm h

theorem precedes_trans (x y z : IdEntry) (hxy : x.precedes y = true)
    (hyz : y.precedes z = true) : x.precedes z = true :=
  decide_eq_true (le_trans (of_decide_eq_true hxy) (of_decide_eq_true hyz))

theorem precedes_total (x y : IdEntry) :
    (x.precedes y || y.precedes x) = true :=
  (Bool.or_eq_true _ _).mpr
    ((le_total x.id y.id).imp decide_eq_true decide_eq_true)

namespace Indexes

variable {key : PointerId → Text} {pointers : List Node} {index : List IdEntry}
  {k : Text} {x : IdEntry} {n m : Node}

theorem of_mem (h : Indexes key pointers index) (hn : n ∈ pointers) :
    IdEntry.of key n ∈ index :=
  (h.mem _).mpr (List.mem_map_of_mem hn)

theorem lookup (h : Indexes key pointers index) (hn : n ∈ pointers) :
    lookupKey IdEntry.id index (key n.2) = some (.of key n) :=
  (lookupKey_eq_some h.ascending).mpr ⟨h.of_mem hn, rfl⟩

theorem lookup_some (h : Indexes key pointers index)
    (hx : lookupKey IdEntry.id index k = some x) :
    ∃ n ∈ pointers, key n.2 = k ∧ x = .of key n := by
  obtain ⟨hmem, hid⟩ := (lookupKey_eq_some h.ascending).mp hx
  obtain ⟨n, hn, rfl⟩ := List.mem_map.mp ((h.mem x).mp hmem)
  exact ⟨n, hn, hid, rfl⟩

theorem lookup_none (h : Indexes key pointers index) :
    lookupKey IdEntry.id index k = none ↔ ∀ n ∈ pointers, key n.2 ≠ k := by
  rw [lookupKey_eq_none h.ascending]
  constructor
  · exact fun hall n hn => hall _ (h.of_mem hn)
  · intro hall x hx
    obtain ⟨n, hn, rfl⟩ := List.mem_map.mp ((h.mem x).mp hx)
    exact hall n hn

theorem node_eq_of_key (h : Indexes key pointers index)
    (hnodup : (pointers.map Prod.fst).Nodup) (hn : n ∈ pointers)
    (hm : m ∈ pointers) (hkey : key n.2 = key m.2) : n = m := by
  have heq := h.ascending.inj (h.of_mem hn) (h.of_mem hm) hkey
  exact node_eq_of_address hnodup hn hm (congrArg IdEntry.position heq)

/-- The node and its entry go together. -/
theorem erase (h : Indexes key pointers index)
    (hnodup : (pointers.map Prod.fst).Nodup) (hn : n ∈ pointers) :
    Indexes key (pointers.filter fun m => m.1 ≠ n.1)
      (eraseKey IdEntry.id index (key n.2)) where
  ascending := h.ascending.eraseKey _
  mem x := by
    rw [mem_eraseKey h.ascending (h.lookup hn), h.mem x, List.mem_map, List.mem_map]
    constructor
    · intro hx
      obtain ⟨⟨m, hm, rfl⟩, hne⟩ := hx
      refine ⟨m, List.mem_filter.mpr ⟨hm, decide_eq_true fun heq => hne ?_⟩, rfl⟩
      rw [node_eq_of_address hnodup hm hn heq]
      rfl
    · intro hx
      obtain ⟨m, hm, rfl⟩ := hx
      obtain ⟨hm, hne⟩ := List.mem_filter.mp hm
      refine ⟨⟨m, hm, rfl⟩, fun heq => of_decide_eq_true hne ?_⟩
      rw [h.node_eq_of_key hnodup hm hn heq]

theorem add (h : Indexes key pointers index)
    (hnew : ∀ m ∈ pointers, key m.2 ≠ key n.2) :
    Indexes key (pointers ++ [n]) (insertKey IdEntry.id index (.of key n)) where
  ascending := by
    refine h.ascending.insertKey fun y hy => ?_
    obtain ⟨m, hm, rfl⟩ := List.mem_map.mp ((h.mem y).mp hy)
    exact hnew m hm
  mem x := by
    rw [mem_insertKey, h.mem x, List.map_append, List.mem_append, List.map_singleton,
      List.mem_singleton, or_comm]

/-- The entries of a list in which no id is twice, once they are sorted. -/
theorem sort (hids : (pointers.map fun n => key n.2).Nodup) :
    Indexes key pointers
      ((pointers.map (IdEntry.of key)).mergeSort IdEntry.precedes) where
  ascending := by
    have hsorted : List.Pairwise (fun x y => IdEntry.precedes x y = true)
        ((pointers.map (IdEntry.of key)).mergeSort IdEntry.precedes) :=
      List.pairwise_mergeSort precedes_trans precedes_total _
    have hne : List.Pairwise (fun x y : IdEntry => x.id ≠ y.id)
        (pointers.map (IdEntry.of key)) :=
      List.pairwise_map.mpr (List.pairwise_map.mp hids)
    have hapart := hne.perm (List.mergeSort_perm _ IdEntry.precedes).symm
      fun hxy => hxy.symm
    exact hsorted.imp₂ (fun x y hle hxy =>
      lt_of_le_of_ne (of_decide_eq_true hle) hxy) hapart
  mem x := (List.mergeSort_perm _ _).mem_iff

/-- A vector that still has the entry of a node that is gone. -/
theorem not_of_erased (hx : x ∈ index) (hgone : ∀ n ∈ pointers, n.1 ≠ x.position) :
    ¬ Indexes key pointers index := by
  intro h
  obtain ⟨n, hn, rfl⟩ := List.mem_map.mp ((h.mem x).mp hx)
  exact hgone n hn rfl

end Indexes

namespace RamContainer

/-! ## The whole container -/

/-- No two nodes have one address, and the next address is new. -/
structure Linked (rc : RamContainer) : Prop where
  nodup : (rc.pointers.map Prod.fst).Nodup
  below : ∀ n ∈ rc.pointers, n.1 < rc.allocated

/-- Both vectors are in order, without duplicates, and refer to exactly the
nodes of the list. -/
structure Consistent (rc : RamContainer) : Prop where
  edgs : Indexes PointerId.edgId rc.pointers rc.edgs
  condors : Indexes PointerId.condorId rc.pointers rc.condors

/-- What an insertion is asked for: either id finds the other. -/
def Answers : Call → RamContainer → Prop
  | .insert edgId condorId, rc =>
      rc.condorId edgId = some condorId ∧ rc.edgId condorId = some edgId
  | _, _ => True

/-- The two ids of an insertion are stored together, or neither is stored. -/
def Fits (rc : RamContainer) : Call → Prop
  | .insert edgId condorId =>
      (∃ n ∈ rc.pointers, n.2.edgId = edgId ∧ n.2.condorId = condorId) ∨
        ∀ n ∈ rc.pointers, n.2.edgId ≠ edgId ∧ n.2.condorId ≠ condorId
  | _ => True

variable {rc : RamContainer} {n m : Node} {edgId condorId : Text}

theorem pointerAt_of_mem (h : rc.Linked) (hn : n ∈ rc.pointers) :
    rc.pointerAt n.1 = some n.2 := by
  unfold pointerAt
  cases hfind : rc.pointers.find? fun m => m.1 = n.1 with
  | none => exact absurd (List.find?_eq_none.mp hfind n hn) (by simp)
  | some m =>
      have hm := List.mem_of_find?_eq_some hfind
      have haddress : m.1 = n.1 := by simpa using List.find?_some hfind
      rw [node_eq_of_address h.nodup hm hn haddress]
      rfl

theorem erasePointer_of_mem (h : rc.Linked) (hn : n ∈ rc.pointers) :
    rc.erasePointer n.1 =
      some { rc with pointers := rc.pointers.filter fun m => m.1 ≠ n.1 } := by
  unfold erasePointer
  rw [pointerAt_of_mem h hn]
  rfl

theorem condorId_of_mem (h : rc.Linked) (hc : rc.Consistent) (hn : n ∈ rc.pointers) :
    rc.condorId n.2.edgId = some n.2.condorId := by
  unfold condorId
  rw [hc.edgs.lookup hn]
  exact congrArg (Option.map PointerId.condorId) (pointerAt_of_mem h hn)

theorem edgId_of_mem (h : rc.Linked) (hc : rc.Consistent) (hn : n ∈ rc.pointers) :
    rc.edgId n.2.condorId = some n.2.edgId := by
  unfold edgId
  rw [hc.condors.lookup hn]
  exact congrArg (Option.map PointerId.edgId) (pointerAt_of_mem h hn)

theorem Linked.filter {rc' : RamContainer} (h : rc.Linked) (f : Node → Bool)
    (hpointers : rc'.pointers = rc.pointers.filter f)
    (hallocated : rc'.allocated = rc.allocated) : rc'.Linked where
  nodup := by
    rw [hpointers]
    exact h.nodup.sublist (List.filter_sublist.map _)
  below n hn := by
    rw [hpointers] at hn
    rw [hallocated]
    exact h.below n (List.mem_of_mem_filter hn)

theorem Linked.push {rc' : RamContainer} {p : PointerId} (h : rc.Linked)
    (hpointers : rc'.pointers = rc.pointers ++ [(rc.allocated, p)])
    (hallocated : rc'.allocated = rc.allocated + 1) : rc'.Linked where
  nodup := by
    rw [hpointers, List.map_append, List.nodup_append]
    refine ⟨h.nodup, List.pairwise_singleton _ _, fun a ha b hb heq => ?_⟩
    obtain ⟨n, hn, rfl⟩ := List.mem_map.mp ha
    have hlt := h.below n hn
    simp only [List.map_singleton, List.mem_singleton] at hb
    omega
  below n hn := by
    rw [hpointers] at hn
    rw [hallocated]
    rcases List.mem_append.mp hn with hn | hn
    · have hlt := h.below n hn
      omega
    · rw [List.mem_singleton.mp hn]
      exact Nat.lt_succ_self _

/-! ## The copy -/

/-- Both ids come from the ad, whatever was there before. -/
theorem reset_ids {ad : IdAd} (h : ad.condorId.isSome ∧ ad.edgId.isSome)
    (p : PointerId) :
    some (p.reset ad).condorId = ad.condorId ∧ some (p.reset ad).edgId = ad.edgId := by
  obtain ⟨c, hc⟩ := Option.isSome_iff_exists.mp h.1
  obtain ⟨e, he⟩ := Option.isSome_iff_exists.mp h.2
  unfold PointerId.reset
  rw [hc, he]
  exact ⟨rfl, rfl⟩

/-- What the loop leaves: an entry in each vector for every node, in the order
of the list, and the ids of the ads in the nodes. -/
theorem pushAds_spec (rc : RamContainer) {ads : List IdAd}
    (hnamed : ∀ ad ∈ ads, ad.condorId.isSome ∧ ad.edgId.isSome)
    (current : PointerId) (h : rc.Linked)
    (hedgs : rc.edgs = rc.pointers.map (.of PointerId.edgId))
    (hcondors : rc.condors = rc.pointers.map (.of PointerId.condorId)) :
    (rc.pushAds current ads).Linked ∧
      (rc.pushAds current ads).edgs =
        (rc.pushAds current ads).pointers.map (.of PointerId.edgId) ∧
      (rc.pushAds current ads).condors =
        (rc.pushAds current ads).pointers.map (.of PointerId.condorId) ∧
      ((rc.pushAds current ads).pointers.map fun n => some n.2.edgId) =
        (rc.pointers.map fun n => some n.2.edgId) ++ ads.map IdAd.edgId ∧
      ((rc.pushAds current ads).pointers.map fun n => some n.2.condorId) =
        (rc.pointers.map fun n => some n.2.condorId) ++ ads.map IdAd.condorId := by
  induction ads generalizing rc current with
  | nil => simp [pushAds, h, hedgs, hcondors]
  | cons ad ads ih =>
      have hids := reset_ids (hnamed ad List.mem_cons_self) current
      obtain ⟨hlinked, he, hc, hedg, hcondor⟩ := ih
        { rc.pushPointer (current.reset ad) with
          edgs := rc.edgs ++ [.of PointerId.edgId (rc.allocated, current.reset ad)]
          condors := rc.condors ++
            [.of PointerId.condorId (rc.allocated, current.reset ad)] }
        (fun ad' had' => hnamed ad' (List.mem_cons_of_mem _ had'))
        (current.reset ad) (h.push rfl rfl)
        (by simp [pushPointer, hedgs]) (by simp [pushPointer, hcondors])
      refine ⟨hlinked, he, hc, hedg.trans ?_, hcondor.trans ?_⟩
      · simp [pushPointer, hids.2]
      · simp [pushPointer, hids.1]

theorem copy_consistent (rc : RamContainer) (memory : ℤ × ℤ × ℤ) (ic : IdList) :
    (rc.copy memory ic).Linked ∧ (rc.copy memory ic).Consistent := by
  obtain ⟨hlinked, hedgs, hcondors, hedg, hcondor⟩ := pushAds_spec
    { rc with inserted := 0, pointers := [], edgs := [], condors := [] } ic.named
    ⟨[], [], [], memory.1, memory.2.1, memory.2.2⟩
    ⟨List.nodup_nil, fun n hn => by cases hn⟩ rfl rfl
  have hsort : ∀ {key : PointerId → Text} {pointers : List Node}
      {ids : List (Option Text)}, ids.Nodup →
      (pointers.map fun n => some (key n.2)) = ids →
      (pointers.map fun n => key n.2).Nodup := by
    intro key pointers ids hnodup heq
    rw [← heq] at hnodup
    refine List.Nodup.of_map some ?_
    rwa [List.map_map]
  refine ⟨⟨hlinked.nodup, hlinked.below⟩, ?_, ?_⟩
  · show Indexes _ _ (List.mergeSort _ _)
    rw [hedgs]
    exact .sort (hsort ic.edgs hedg)
  · show Indexes _ _ (List.mergeSort _ _)
    rw [hcondors]
    exact .sort (hsort ic.condors hcondor)

/-! ## The loop of the insertion -/

/-- The entries of two nodes, or of one, are found: nothing happens. -/
theorem insert_both (hc : rc.Consistent) (hn : n ∈ rc.pointers)
    (hm : m ∈ rc.pointers) : rc.insert n.2.edgId m.2.condorId = some rc := by
  unfold insert evict
  rw [hc.edgs.lookup hn, hc.condors.lookup hm]

theorem evict_neither (rc : RamContainer)
    (he : lookupKey IdEntry.id rc.edgs edgId = none)
    (hc : lookupKey IdEntry.id rc.condors condorId = none) :
    rc.evict edgId condorId = some (rc, false) := by
  unfold evict
  rw [he, hc]

theorem insert_new (hc : rc.Consistent)
    (hnew : ∀ n ∈ rc.pointers, n.2.edgId ≠ edgId ∧ n.2.condorId ≠ condorId) :
    rc.insert edgId condorId = some (rc.add edgId condorId) := by
  unfold insert
  rw [evict_neither rc (hc.edgs.lookup_none.mpr fun n hn => (hnew n hn).1)
    (hc.condors.lookup_none.mpr fun n hn => (hnew n hn).2)]

/-- The node is gone, and its entry in `rc_edgs`. -/
def withoutEdg (rc : RamContainer) (n : Node) : RamContainer :=
  { rc with
    pointers := rc.pointers.filter fun m => m.1 ≠ n.1
    edgs := eraseKey IdEntry.id rc.edgs n.2.edgId }

/-- The node is gone, and its entry in `rc_condors`. -/
def withoutCondor (rc : RamContainer) (n : Node) : RamContainer :=
  { rc with
    pointers := rc.pointers.filter fun m => m.1 ≠ n.1
    condors := eraseKey IdEntry.id rc.condors n.2.condorId }

/-- Only the id of the job is found. -/
theorem insert_edg (h : rc.Linked) (hc : rc.Consistent) (hn : n ∈ rc.pointers)
    (hnew : ∀ m ∈ rc.pointers, m.2.condorId ≠ condorId) :
    rc.insert n.2.edgId condorId =
      some ((rc.withoutEdg n).add n.2.edgId condorId) := by
  have he := hc.edgs.lookup hn
  have hcondor := hc.condors.lookup_none.mpr hnew
  have hloop := evict_neither (rc.withoutEdg n)
    (lookupKey_eraseKey hc.edgs.ascending he) hcondor
  unfold insert evict
  rw [he, hcondor]
  simp only [IdEntry.of, erasePointer_of_mem h hn]
  unfold withoutEdg at hloop
  rw [hloop]
  rfl

/-- Only the id at Condor is found. -/
theorem insert_condor (h : rc.Linked) (hc : rc.Consistent) (hn : n ∈ rc.pointers)
    (hnew : ∀ m ∈ rc.pointers, m.2.edgId ≠ edgId) :
    rc.insert edgId n.2.condorId =
      some ((rc.withoutCondor n).add edgId n.2.condorId) := by
  have he := hc.edgs.lookup_none.mpr hnew
  have hcondor := hc.condors.lookup hn
  have hloop := evict_neither (rc.withoutCondor n) he
    (lookupKey_eraseKey hc.condors.ascending hcondor)
  unfold insert evict
  rw [he, hcondor]
  simp only [IdEntry.of, erasePointer_of_mem h hn]
  unfold withoutCondor at hloop
  rw [hloop]
  rfl

/-! ## What a call leaves -/

theorem add_linked (h : rc.Linked) (edgId condorId : Text) :
    (rc.add edgId condorId).Linked := h.push rfl rfl

theorem withoutEdg_linked (h : rc.Linked) (n : Node) : (rc.withoutEdg n).Linked :=
  h.filter _ rfl rfl

theorem withoutCondor_linked (h : rc.Linked) (n : Node) :
    (rc.withoutCondor n).Linked := h.filter _ rfl rfl

theorem add_consistent (hc : rc.Consistent)
    (hnew : ∀ n ∈ rc.pointers, n.2.edgId ≠ edgId ∧ n.2.condorId ≠ condorId) :
    (rc.add edgId condorId).Consistent where
  edgs := hc.edgs.add fun m hm => (hnew m hm).1
  condors := hc.condors.add fun m hm => (hnew m hm).2

theorem add_answers (h : rc.Linked) (hc : rc.Consistent)
    (hnew : ∀ n ∈ rc.pointers, n.2.edgId ≠ edgId ∧ n.2.condorId ≠ condorId) :
    Answers (.insert edgId condorId) (rc.add edgId condorId) := by
  have hmem : (rc.allocated, (⟨condorId, edgId, [], 0, undefinedStatus, 0⟩ : PointerId)) ∈
      (rc.add edgId condorId).pointers :=
    List.mem_append_right _ (List.mem_singleton.mpr rfl)
  have hlinked := add_linked h edgId condorId
  have hconsistent := add_consistent hc hnew
  exact ⟨condorId_of_mem hlinked hconsistent hmem, edgId_of_mem hlinked hconsistent hmem⟩

/-- No node of the new list is where the erased one was. -/
theorem erased_add (h : rc.Linked) (hn : n ∈ rc.pointers) {p : PointerId} {m : Node}
    (hm : m ∈ rc.pointers.filter (fun m => m.1 ≠ n.1) ++ [(rc.allocated, p)]) :
    m.1 ≠ n.1 := by
  rcases List.mem_append.mp hm with hm | hm
  · exact of_decide_eq_true (List.mem_filter.mp hm).2
  · have hlt := h.below n hn
    rw [List.mem_singleton.mp hm]
    show rc.allocated ≠ n.1
    omega

/-- The entry of the id at Condor still refers to the erased node. -/
theorem not_consistent_edg (h : rc.Linked) (hc : rc.Consistent)
    (hn : n ∈ rc.pointers) :
    ¬ ((rc.withoutEdg n).add edgId condorId).Consistent := by
  intro hc'
  refine Indexes.not_of_erased (x := .of PointerId.condorId n) ?_ ?_ hc'.condors
  · exact mem_insertKey.mpr (.inr (hc.condors.of_mem hn))
  · exact fun m hm => erased_add h hn hm

/-- The entry of the id of the job still refers to the erased node. -/
theorem not_consistent_condor (h : rc.Linked) (hc : rc.Consistent)
    (hn : n ∈ rc.pointers) :
    ¬ ((rc.withoutCondor n).add edgId condorId).Consistent := by
  intro hc'
  refine Indexes.not_of_erased (x := .of PointerId.edgId n) ?_ ?_ hc'.edgs
  · exact mem_insertKey.mpr (.inr (hc.edgs.of_mem hn))
  · exact fun m hm => erased_add h hn hm

/-- An insertion never fails on a consistent container. It leaves one that is
consistent, with the pair in it, exactly when the two ids fit. -/
theorem insert_spec (h : rc.Linked) (hc : rc.Consistent) (edgId condorId : Text) :
    ∃ rc', rc.insert edgId condorId = some rc' ∧ rc'.Linked ∧
      (rc'.Consistent ∧ Answers (.insert edgId condorId) rc' ↔
        rc.Fits (.insert edgId condorId)) := by
  by_cases he : ∃ n ∈ rc.pointers, n.2.edgId = edgId
  · obtain ⟨n, hn, rfl⟩ := he
    by_cases hcondor : ∃ m ∈ rc.pointers, m.2.condorId = condorId
    · obtain ⟨m, hm, rfl⟩ := hcondor
      refine ⟨rc, insert_both hc hn hm, h, ?_⟩
      constructor
      · intro ⟨_, hanswer, _⟩
        rw [condorId_of_mem h hc hn] at hanswer
        exact .inl ⟨n, hn, rfl, Option.some.inj hanswer⟩
      · intro hfits
        rcases hfits with ⟨k, hk, hkn, hkm⟩ | hnew
        · refine ⟨hc, ?_, ?_⟩
          · rw [← hkn, ← hkm]
            exact condorId_of_mem h hc hk
          · rw [← hkn, ← hkm]
            exact edgId_of_mem h hc hk
        · exact absurd rfl (hnew n hn).1
    · have hnone : ∀ m ∈ rc.pointers, m.2.condorId ≠ condorId :=
        fun m hm heq => hcondor ⟨m, hm, heq⟩
      refine ⟨_, insert_edg h hc hn hnone, add_linked (withoutEdg_linked h n) _ _, ?_⟩
      constructor
      · exact fun hall => absurd hall.1 (not_consistent_edg h hc hn)
      · intro hfits
        rcases hfits with ⟨k, hk, -, hkc⟩ | hnew
        · exact absurd hkc (hnone k hk)
        · exact absurd rfl (hnew n hn).1
  · have hnone : ∀ m ∈ rc.pointers, m.2.edgId ≠ edgId :=
      fun m hm heq => he ⟨m, hm, heq⟩
    by_cases hcondor : ∃ m ∈ rc.pointers, m.2.condorId = condorId
    · obtain ⟨m, hm, rfl⟩ := hcondor
      refine ⟨_, insert_condor h hc hm hnone,
        add_linked (withoutCondor_linked h m) _ _, ?_⟩
      constructor
      · exact fun hall => absurd hall.1 (not_consistent_condor h hc hm)
      · intro hfits
        rcases hfits with ⟨k, hk, hke, -⟩ | hnew
        · exact absurd hke (hnone k hk)
        · exact absurd rfl (hnew m hm).2
    · have hnew : ∀ m ∈ rc.pointers, m.2.edgId ≠ edgId ∧ m.2.condorId ≠ condorId :=
        fun m hm => ⟨hnone m hm, fun heq => hcondor ⟨m, hm, heq⟩⟩
      refine ⟨_, insert_new hc hnew, add_linked h _ _, ?_⟩
      exact iff_of_true ⟨add_consistent hc hnew, add_answers h hc hnew⟩ (.inr hnew)

/-- A removal takes the node out of the list and out of both vectors. -/
theorem removeByCondorId_spec (h : rc.Linked) (hc : rc.Consistent) (condorId : Text) :
    ∃ error rc', rc.removeByCondorId condorId = some (error, rc') ∧ rc'.Linked ∧
      rc'.Consistent := by
  unfold removeByCondorId
  cases hfind : lookupKey IdEntry.id rc.condors condorId with
  | none => exact ⟨true, rc, rfl, h, hc⟩
  | some c =>
      obtain ⟨n, hn, rfl, rfl⟩ := hc.condors.lookup_some hfind
      simp only [IdEntry.of, pointerAt_of_mem h hn, hc.edgs.lookup hn,
        erasePointer_of_mem h hn]
      exact ⟨false, _, rfl, h.filter _ rfl rfl, hc.edgs.erase h.nodup hn,
        hc.condors.erase h.nodup hn⟩

theorem next_spec (rc : RamContainer) (call : Call) (h : rc.Linked)
    (hc : rc.Consistent) :
    ∃ rc', rc.next call = some rc' ∧ rc'.Linked ∧
      (rc'.Consistent ∧ Answers call rc' ↔ rc.Fits call) := by
  cases call with
  | copy memory ic =>
      obtain ⟨hlinked, hconsistent⟩ := copy_consistent rc memory ic
      exact ⟨_, rfl, hlinked, iff_of_true ⟨hconsistent, trivial⟩ trivial⟩
  | insert edgId condorId => exact insert_spec h hc edgId condorId
  | removeByCondorId condorId =>
      obtain ⟨error, rc', hremove, hlinked, hconsistent⟩ :=
        removeByCondorId_spec h hc condorId
      refine ⟨rc', ?_, hlinked, iff_of_true ⟨hconsistent, trivial⟩ trivial⟩
      exact congrArg (Option.map Prod.snd) hremove

theorem empty_linked : empty.Linked :=
  ⟨List.nodup_nil, fun n hn => by cases hn⟩

theorem empty_consistent : empty.Consistent :=
  ⟨⟨List.Pairwise.nil, fun _ => Iff.rfl⟩, ⟨List.Pairwise.nil, fun _ => Iff.rfl⟩⟩

/-- After every call of a run both vectors are right, and an insertion can be
looked up either way, exactly when no insertion of the run has one id that is
stored with another. -/
theorem indexed_iff (calls : List Call) :
    (∀ pre call, pre ++ [call] <+: calls →
        ∃ rc, run next empty (pre ++ [call]) = some rc ∧ rc.Consistent ∧
          Answers call rc) ↔
      Meets next Fits empty calls :=
  answers_iff next_spec empty_linked empty_consistent

/-- A job that is submitted again: its id finds a new id at Condor. -/
theorem not_indexed_resubmission :
    ¬ ∀ calls pre call, pre ++ [call] <+: calls →
        ∃ rc, run next empty (pre ++ [call]) = some rc ∧ rc.Consistent ∧
          Answers call rc := by
  intro hall
  obtain ⟨rc, hrun, hc, -⟩ := hall [.insert ['j'] ['1'], .insert ['j'] ['2']]
    [.insert ['j'] ['1']] (.insert ['j'] ['2']) (List.prefix_refl _)
  have hnew : ∀ n ∈ empty.pointers, n.2.edgId ≠ ['j'] ∧ n.2.condorId ≠ ['1'] := by
    intro n hn
    cases hn
  have hlinked := add_linked empty_linked ['j'] ['1']
  have hconsistent := add_consistent empty_consistent hnew
  have hmem : (0, ⟨['1'], ['j'], [], 0, undefinedStatus, 0⟩) ∈
      (empty.add ['j'] ['1']).pointers := List.mem_singleton.mpr rfl
  have hother : ∀ m ∈ (empty.add ['j'] ['1']).pointers, m.2.condorId ≠ ['2'] := by
    intro m hm
    rw [List.mem_singleton.mp hm]
    decide
  have hfirst : next empty (.insert ['j'] ['1']) = some (empty.add ['j'] ['1']) :=
    insert_new empty_consistent hnew
  have hsecond : next (empty.add ['j'] ['1']) (.insert ['j'] ['2']) = _ :=
    insert_edg hlinked hconsistent hmem hother
  rw [List.singleton_append, run_cons_of_next hfirst, run_cons_of_next hsecond,
    run_nil] at hrun
  rw [← Option.some.inj hrun] at hc
  exact not_consistent_edg hlinked hconsistent hmem hc

end RamContainer

end Wms.Jobsubmission.LogMonitor
