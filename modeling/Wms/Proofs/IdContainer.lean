import Wms.Jobsubmission.IdContainer
import Wms.Proofs.RamContainer

/-!
# The vectors, the list and the file say the same

Each of the operations changes the file, the list and both vectors, one after the
other. Afterwards the vectors have the entries of the list and no others, the
pointers stand for the records of the file one by one, and each says what its
record does. The one thing that may differ is a status: `insert` writes it to the
file and not to the pointer, so that a pointer has it only once its ad has been
read again.

Where the process ends in an update, the job is in no record, and it is the only
one that is lost.
-/

namespace Wms.Jobsubmission.Jccommon

open Wms.Lib LogMonitor

/-! ## The list file -/

namespace AdFile

/-- No two records have one position, and the next position is new. -/
structure Sound (f : AdFile) : Prop where
  nodup : (f.records.map Prod.fst).Nodup
  below : ∀ r ∈ f.records, r.1 < f.fileEnd

variable {f g : AdFile} {r : ℕ × IdAd} {ad : IdAd} {position : ℕ}

theorem Sound.eq_of_position (h : f.Sound) {r' : ℕ × IdAd} (hr : r ∈ f.records)
    (hr' : r' ∈ f.records) (heq : r.1 = r'.1) : r = r' :=
  List.inj_on_of_nodup_map h.nodup hr hr' heq

theorem adAt_eq_some (h : f.Sound) :
    f.adAt position = some ad ↔ (position, ad) ∈ f.records := by
  rw [adAt, Option.map_eq_some_iff]
  constructor
  · rintro ⟨r, hr, rfl⟩
    have hpos : r.1 = position := by simpa using List.find?_some hr
    rw [← hpos]
    exact List.mem_of_find?_eq_some hr
  · intro hmem
    cases hfind : f.records.find? fun r => r.1 = position with
    | none => exact absurd (List.find?_eq_none.mp hfind _ hmem) (by simp)
    | some r =>
        have hpos : r.1 = position := by simpa using List.find?_some hfind
        refine ⟨r, rfl, ?_⟩
        rw [h.eq_of_position (List.mem_of_find?_eq_some hfind) hmem hpos]

theorem erase_of_mem (h : f.Sound) (hr : (position, ad) ∈ f.records) :
    f.erase position =
      some { f with records := f.records.filter fun r => r.1 ≠ position } := by
  rw [erase, (adAt_eq_some h).mpr hr]
  rfl

theorem Sound.filter (h : f.Sound) (p : ℕ × IdAd → Bool) :
    Sound { f with records := f.records.filter p } where
  nodup := h.nodup.sublist (List.filter_sublist.map _)
  below r hr := h.below r (List.mem_of_mem_filter hr)

theorem Sound.pushBack (h : f.Sound) (ad : IdAd) : (f.pushBack ad).Sound where
  nodup := by
    rw [AdFile.pushBack, List.map_append, List.nodup_append]
    refine ⟨h.nodup, List.nodup_singleton _, fun a ha b hb heq => ?_⟩
    obtain ⟨r, hr, rfl⟩ := List.mem_map.mp ha
    have hlt := h.below r hr
    rw [heq, List.mem_singleton.mp hb] at hlt
    exact Nat.lt_irrefl _ hlt
  below r hr := by
    rcases List.mem_append.mp hr with hr | hr
    · exact Nat.lt_succ_of_lt (h.below r hr)
    · rw [List.mem_singleton.mp hr]
      exact Nat.lt_succ_self _

theorem records_ofAds (ads : List IdAd) : (ofAds ads).records.map Prod.snd = ads :=
  List.map_snd_zip (by rw [List.length_range])

theorem sound_ofAds (ads : List IdAd) : (ofAds ads).Sound where
  nodup := by
    rw [ofAds, List.map_fst_zip (by rw [List.length_range])]
    exact List.nodup_range
  below r hr := List.mem_range.mp (List.of_mem_zip hr).1

theorem sound_empty : Sound ⟨[], 0⟩ :=
  ⟨List.nodup_nil, fun _ hr => absurd hr List.not_mem_nil⟩

/-- Every ad names both ids, and no id of either kind is there twice. -/
structure Named (f : AdFile) : Prop where
  named : ∀ r ∈ f.records, r.2.condorId.isSome ∧ r.2.edgId.isSome
  condors : (f.records.map fun r => r.2.condorId).Nodup
  edgs : (f.records.map fun r => r.2.edgId).Nodup

theorem Named.filter (h : f.Named) (p : ℕ × IdAd → Bool) :
    Named { f with records := f.records.filter p } where
  named r hr := h.named r (List.mem_of_mem_filter hr)
  condors := h.condors.sublist (List.filter_sublist.map _)
  edgs := h.edgs.sublist (List.filter_sublist.map _)

theorem named_empty : Named ⟨[], 0⟩ :=
  ⟨fun _ hr => absurd hr List.not_mem_nil, List.nodup_nil, List.nodup_nil⟩

/-- Two records with one id are one. -/
theorem Named.eq_of_edgId (h : f.Named) {r' : ℕ × IdAd} (hr : r ∈ f.records)
    (hr' : r' ∈ f.records) (heq : r.2.edgId = r'.2.edgId) : r = r' :=
  List.inj_on_of_nodup_map h.edgs hr hr' heq

theorem Named.eq_of_condorId (h : f.Named) {r' : ℕ × IdAd} (hr : r ∈ f.records)
    (hr' : r' ∈ f.records) (heq : r.2.condorId = r'.2.condorId) : r = r' :=
  List.inj_on_of_nodup_map h.condors hr hr' heq

theorem Named.pushBack (h : f.Named) (hn : ad.condorId.isSome ∧ ad.edgId.isSome)
    (hnew : ∀ r ∈ f.records, r.2.condorId ≠ ad.condorId ∧ r.2.edgId ≠ ad.edgId) :
    (f.pushBack ad).Named where
  named r hr := by
    rcases List.mem_append.mp hr with hr | hr
    · exact h.named r hr
    · rw [List.mem_singleton.mp hr]
      exact hn
  condors := by
    rw [AdFile.pushBack, List.map_append]
    refine h.condors.append (List.nodup_singleton _) (List.disjoint_singleton.mpr ?_)
    intro hmem
    obtain ⟨r, hr, heq⟩ := List.mem_map.mp hmem
    exact (hnew r hr).1 heq
  edgs := by
    rw [AdFile.pushBack, List.map_append]
    refine h.edgs.append (List.nodup_singleton _) (List.disjoint_singleton.mpr ?_)
    intro hmem
    obtain ⟨r, hr, heq⟩ := List.mem_map.mp hmem
    exact (hnew r hr).2 heq

theorem named_ofAds {ads : List IdAd}
    (hn : ∀ ad ∈ ads, ad.condorId.isSome ∧ ad.edgId.isSome)
    (hc : (ads.map IdAd.condorId).Nodup) (he : (ads.map IdAd.edgId).Nodup) :
    (ofAds ads).Named where
  named r hr := hn r.2 (List.of_mem_zip hr).2
  condors := by
    rw [← records_ofAds ads, List.map_map] at hc
    exact hc
  edgs := by
    rw [← records_ofAds ads, List.map_map] at he
    exact he

end AdFile

/-! ## What a pointer says of its record -/

/-- All of the record, but for the status. -/
def Pointer.Tells (p : Pointer) (r : ℕ × IdAd) : Prop :=
  p = { Pointer.read r with condorStatus := p.condorStatus }

section
variable {p : Pointer} {r : ℕ × IdAd} {ad : IdAd} {n : ℕ × Pointer}

theorem Pointer.Tells.position (h : p.Tells r) : p.position = r.1 := by rw [h]; rfl

theorem Pointer.Tells.ids (h : p.Tells r)
    (hr : r.2.condorId.isSome ∧ r.2.edgId.isSome) : some p.condorId = r.2.condorId ∧ some p.edgId = r.2.edgId := by
  have hids := RamContainer.reset_ids hr ⟨[], [], [], 0, undefinedStatus, 0⟩
  rw [h]
  exact hids

theorem Pointer.tells_read (r : ℕ × IdAd) : (Pointer.read r).Tells r := rfl

/-- After an update the pointer is what a new one would read, the status too. -/
theorem Pointer.Tells.reset_updated (h : p.Tells r) (position : ℕ)
    (sequenceCode : Text) (status lastStatus : ℤ) :
    p.reset (position, IdContainer.updated r.2 sequenceCode status lastStatus) =
      .read (position, IdContainer.updated r.2 sequenceCode status lastStatus) := by
  rw [h]
  unfold IdContainer.updated Pointer.reset Pointer.read PointerId.reset
  cases r.2.condorId <;> cases r.2.edgId <;> cases r.2.lastStatus <;>
    cases r.2.retryCount <;> split <;> rfl

theorem Pointer.Tells.reset_incremented (h : p.Tells r) (position : ℕ) (count : ℤ) :
    (p.reset (position, IdContainer.incremented r.2 count)).Tells
      (position, IdContainer.incremented r.2 count) := by
  rw [h]
  unfold IdContainer.incremented Pointer.reset Pointer.Tells Pointer.read
    PointerId.reset
  cases r.2.condorId <;> cases r.2.edgId <;> cases r.2.lastStatus <;>
    cases r.2.sequenceCode <;> rfl

end

namespace IdContainer

/-- What holds of each pointer and its record. -/
def Matches (P : Pointer → ℕ × IdAd → Prop) (pointers : List (ℕ × Pointer))
    (records : List (ℕ × IdAd)) : Prop :=
  ∀ n ∈ pointers, ∀ r ∈ records, n.2.position = r.1 → P n.2 r

/-- A pointer and a record at a position that is new. -/
theorem Matches.snoc {P : Pointer → ℕ × IdAd → Prop} {pointers : List (ℕ × Pointer)}
    {records : List (ℕ × IdAd)} {n : ℕ × Pointer} {r : ℕ × IdAd}
    (h : Matches P pointers records) (hpointers : ∀ m ∈ pointers, m.2.position < r.1)
    (hrecords : ∀ r' ∈ records, r'.1 < r.1) (hn : n.2.position = r.1) (hP : P n.2 r) :
    Matches P (pointers ++ [n]) (records ++ [r]) := by
  intro m hm r' hr' hpos
  rcases List.mem_append.mp hm with hm | hm
  · rcases List.mem_append.mp hr' with hr' | hr'
    · exact h m hm r' hr' hpos
    · have hlt := hpointers m hm
      rw [hpos, List.mem_singleton.mp hr'] at hlt
      exact absurd hlt (Nat.lt_irrefl _)
  · obtain rfl := List.mem_singleton.mp hm
    rcases List.mem_append.mp hr' with hr' | hr'
    · have hlt := hrecords r' hr'
      rw [← hpos, hn] at hlt
      exact absurd hlt (Nat.lt_irrefl _)
    · rw [List.mem_singleton.mp hr']
      exact hP

structure Consistent (ic : IdContainer) : Prop where
  nodup : (ic.pointers.map Prod.fst).Nodup
  below : ∀ n ∈ ic.pointers, n.1 < ic.allocated
  edgs : Indexes PointerId.edgId (ic.pointers.map node) ic.edgs
  condors : Indexes PointerId.condorId (ic.pointers.map node) ic.condors
  sound : ic.container.Sound
  named : ic.container.Named
  records : (ic.pointers.map fun n => n.2.position).Perm
    (ic.container.records.map Prod.fst)
  tells : Matches Pointer.Tells ic.pointers ic.container.records

section
variable {ic : IdContainer} {n m : ℕ × Pointer} {r : ℕ × IdAd} {key : PointerId → Text}
  {pointers pointers' : List (ℕ × Pointer)} {index : List IdEntry}

theorem Consistent.node_nodup (h : ic.Consistent) :
    ((ic.pointers.map node).map Prod.fst).Nodup := by
  rw [List.map_map]
  exact h.nodup

theorem Consistent.eq_of_address (h : ic.Consistent) (hn : n ∈ ic.pointers)
    (hm : m ∈ ic.pointers) (heq : n.1 = m.1) : n = m :=
  List.inj_on_of_nodup_map h.nodup hn hm heq

/-- The record of a pointer. -/
theorem Consistent.record (h : ic.Consistent) (hn : n ∈ ic.pointers) :
    ∃ ad, (n.2.position, ad) ∈ ic.container.records ∧ n.2.Tells (n.2.position, ad) := by
  have hmem : n.2.position ∈ ic.container.records.map Prod.fst :=
    h.records.mem_iff.mp (List.mem_map_of_mem hn)
  obtain ⟨⟨position, ad⟩, hr, hpos⟩ := List.mem_map.mp hmem
  obtain rfl : position = n.2.position := hpos
  exact ⟨ad, hr, h.tells n hn _ hr rfl⟩

/-- The pointer of a record. -/
theorem Consistent.pointer (h : ic.Consistent) (hr : r ∈ ic.container.records) :
    ∃ n ∈ ic.pointers, n.2.position = r.1 ∧ n.2.Tells r := by
  have hmem : r.1 ∈ ic.pointers.map fun n => n.2.position :=
    h.records.mem_iff.mpr (List.mem_map_of_mem hr)
  obtain ⟨n, hn, hpos⟩ := List.mem_map.mp hmem
  exact ⟨n, hn, hpos, h.tells n hn r hr hpos⟩

/-- The next position of the file is new for the pointers too. -/
theorem Consistent.position_lt (h : ic.Consistent) :
    ∀ n ∈ ic.pointers, n.2.position < ic.container.fileEnd := by
  intro n hn
  obtain ⟨_, hr, -⟩ := h.record hn
  exact h.sound.below _ hr

theorem Consistent.position_nodup (h : ic.Consistent) :
    (ic.pointers.map fun n => n.2.position).Nodup :=
  h.records.nodup_iff.mpr h.sound.nodup

theorem Consistent.pointerAt (h : ic.Consistent) (hn : n ∈ ic.pointers) :
    ic.pointerAt n.1 = some n.2 := by
  rw [IdContainer.pointerAt]
  cases hfind : ic.pointers.find? fun m => m.1 = n.1 with
  | none => exact absurd (List.find?_eq_none.mp hfind n hn) (by simp)
  | some m =>
      have haddress : m.1 = n.1 := by simpa using List.find?_some hfind
      rw [h.eq_of_address (List.mem_of_find?_eq_some hfind) hn haddress]
      rfl

theorem lookup_some {k : Text} {x : IdEntry} (h : Indexes key (pointers.map node) index)
    (hx : lookupKey IdEntry.id index k = some x) :
    ∃ n ∈ pointers, key n.2.toPointerId = k ∧ x = .of key (node n) := by
  obtain ⟨_, hm, hkey, rfl⟩ := h.lookup_some hx
  obtain ⟨n, hn, rfl⟩ := List.mem_map.mp hm
  exact ⟨n, hn, hkey, rfl⟩

theorem lookup_mem (h : Indexes key (pointers.map node) index) (hn : n ∈ pointers) :
    lookupKey IdEntry.id index (key n.2.toPointerId) = some (.of key (node n)) :=
  h.lookup (List.mem_map_of_mem hn)

theorem lookup_none {k : Text} (h : Indexes key (pointers.map node) index) :
    lookupKey IdEntry.id index k = none ↔ ∀ n ∈ pointers, key n.2.toPointerId ≠ k := by
  rw [h.lookup_none]
  constructor
  · exact fun hall n hn => hall _ (List.mem_map_of_mem hn)
  · intro hall m hm
    obtain ⟨n, hn, rfl⟩ := List.mem_map.mp hm
    exact hall n hn

/-- Only the addresses and the ids of the pointers matter to a vector. -/
theorem indexes_congr (h : Indexes key (pointers.map node) index)
    (heq : (pointers'.map node).map (IdEntry.of key) =
      (pointers.map node).map (.of key)) :
    Indexes key (pointers'.map node) index :=
  ⟨h.ascending, fun x => by rw [heq]; exact h.mem x⟩

theorem Consistent.eq_of_edgId (h : ic.Consistent) (hn : n ∈ ic.pointers)
    (hm : m ∈ ic.pointers) (heq : n.2.edgId = m.2.edgId) : n = m := by
  have hx := lookup_mem h.edgs hn
  have hy := lookup_mem h.edgs hm
  rw [heq, hy] at hx
  exact h.eq_of_address hn hm (congrArg IdEntry.position (Option.some.inj hx)).symm

theorem Consistent.eq_of_condorId (h : ic.Consistent) (hn : n ∈ ic.pointers)
    (hm : m ∈ ic.pointers) (heq : n.2.condorId = m.2.condorId) : n = m := by
  have hx := lookup_mem h.condors hn
  have hy := lookup_mem h.condors hm
  rw [heq, hy] at hx
  exact h.eq_of_address hn hm (congrArg IdEntry.position (Option.some.inj hx)).symm

end

/-! ## The construction -/

section
variable {ic : IdContainer} {file : AdFile}

/-- The pointers to some records, at new addresses. -/
def pointersTo (allocated : ℕ) : List (ℕ × IdAd) → List (ℕ × Pointer)
  | [] => []
  | r :: rs => (allocated, .read r) :: pointersTo (allocated + 1) rs

theorem pushRecords_eq (ic : IdContainer) (rs : List (ℕ × IdAd)) :
    ic.pushRecords rs = { ic with
      pointers := ic.pointers ++ pointersTo ic.allocated rs
      edgs := ic.edgs ++
        ((pointersTo ic.allocated rs).map node).map (.of PointerId.edgId)
      condors := ic.condors ++
        ((pointersTo ic.allocated rs).map node).map (.of PointerId.condorId)
      allocated := ic.allocated + rs.length } := by
  induction rs generalizing ic with
  | nil => simp [pushRecords, pointersTo]
  | cons r rs ih =>
      rw [pushRecords, ih]
      simp [pointersTo, Nat.add_assoc, Nat.add_comm 1]

theorem map_pointersTo (allocated : ℕ) (rs : List (ℕ × IdAd)) :
    (pointersTo allocated rs).map Prod.snd = rs.map Pointer.read := by
  induction rs generalizing allocated with
  | nil => rfl
  | cons r rs ih => rw [pointersTo, List.map_cons, List.map_cons, ih]

theorem address_pointersTo {allocated : ℕ} {rs : List (ℕ × IdAd)} :
    (pointersTo allocated rs).map Prod.fst = List.range' allocated rs.length := by
  induction rs generalizing allocated with
  | nil => rfl
  | cons r rs ih =>
      rw [pointersTo, List.map_cons, ih, List.length_cons, List.range'_succ]

theorem rebuild_eq (ic : IdContainer) (file : AdFile) : ic.rebuild file =
    { ic with
      container := file
      pointers := pointersTo ic.allocated file.records
      edgs := (((pointersTo ic.allocated file.records).map node).map
        (.of PointerId.edgId)).mergeSort IdEntry.precedes
      condors := (((pointersTo ic.allocated file.records).map node).map
        (.of PointerId.condorId)).mergeSort IdEntry.precedes
      allocated := ic.allocated + file.records.length } := by
  rw [rebuild, onConstruct, pushRecords_eq]
  rfl

/-- Values that a field always names are as different as the field. -/
theorem nodup_of_some {α β : Type} {xs : List α} {f : α → β} {g : α → Option β}
    (hfg : ∀ x ∈ xs, some (f x) = g x) (hnodup : (xs.map g).Nodup) :
    (xs.map f).Nodup := by
  rw [← List.map_congr_left hfg, ← Function.comp_def, ← List.map_map] at hnodup
  exact List.Nodup.of_map some hnodup

/-- What the ids of the records say of those of the pointers. -/
theorem nodup_pointersTo (key : PointerId → Text) (field : IdAd → Option Text)
    {rs : List (ℕ × IdAd)} (allocated : ℕ)
    (hkey : ∀ r ∈ rs, some (key (Pointer.read r).toPointerId) = field r.2)
    (hnodup : (rs.map fun r => field r.2).Nodup) :
    (((pointersTo allocated rs).map node).map fun n => key n.2).Nodup := by
  have hcomp : (fun n : Node => key n.2) ∘ node =
      (fun p : Pointer => key p.toPointerId) ∘ Prod.snd := rfl
  rw [List.map_map, hcomp, ← List.map_map, map_pointersTo, List.map_map]
  exact nodup_of_some hkey hnodup

theorem matches_pointersTo {P : Pointer → ℕ × IdAd → Prop} (hs : file.Sound)
    (hP : ∀ r, P (.read r) r) (allocated : ℕ) :
    Matches P (pointersTo allocated file.records) file.records := by
  intro n hmem r hr hpos
  have hread : n.2 ∈ file.records.map Pointer.read := by
    rw [← map_pointersTo allocated]
    exact List.mem_map_of_mem hmem
  obtain ⟨r', hr', heq⟩ := List.mem_map.mp hread
  rw [← heq] at hpos ⊢
  rw [hs.eq_of_position hr' hr hpos]
  exact hP r

theorem consistent_rebuild (ic : IdContainer) (hs : file.Sound) (hn : file.Named) :
    (ic.rebuild file).Consistent := by
  have hids : ∀ r ∈ file.records, some (Pointer.read r).condorId = r.2.condorId ∧
      some (Pointer.read r).edgId = r.2.edgId := fun r hr =>
    (Pointer.tells_read r).ids (hn.named r hr)
  have hposition : ((pointersTo ic.allocated file.records).map fun n => n.2.position) =
      file.records.map Prod.fst := by
    have hcomp : (fun n : ℕ × Pointer => n.2.position) =
        Pointer.position ∘ Prod.snd := rfl
    rw [hcomp, ← List.map_map, map_pointersTo, List.map_map]
    rfl
  rw [rebuild_eq]
  refine ⟨?_, fun n hmem => ?_, .sort ?_, .sort ?_, hs, hn, ?_, ?_⟩
  · show ((pointersTo _ _).map Prod.fst).Nodup
    rw [address_pointersTo]
    exact List.nodup_range'
  · have haddress : n.1 ∈ (pointersTo ic.allocated file.records).map Prod.fst :=
      List.mem_map_of_mem hmem
    rw [address_pointersTo, List.mem_range'_1] at haddress
    exact haddress.2
  · exact nodup_pointersTo PointerId.edgId IdAd.edgId _
      (fun r hr => (hids r hr).2) hn.edgs
  · exact nodup_pointersTo PointerId.condorId IdAd.condorId _
      (fun r hr => (hids r hr).1) hn.condors
  · show ((pointersTo _ _).map _).Perm _
    rw [hposition]
  · exact matches_pointersTo hs Pointer.tells_read _

theorem consistent_construct (hs : file.Sound) (hn : file.Named) :
    (construct file).Consistent :=
  consistent_rebuild ⟨0, file, [], [], [], none, 0⟩ hs hn

end

/-! ## The changes -/

section
variable {ic : IdContainer} {n m : ℕ × Pointer} {r : ℕ × IdAd} {ad : IdAd}

/-- What an insertion needs to find. -/
theorem Consistent.fresh_iff (h : ic.Consistent) {edgId condorId : Text} :
    ¬ ((lookupKey IdEntry.id ic.edgs edgId).isSome ∨
        (lookupKey IdEntry.id ic.condors condorId).isSome) ↔
      ∀ n ∈ ic.pointers, n.2.edgId ≠ edgId ∧ n.2.condorId ≠ condorId := by
  rw [not_or, Option.not_isSome_iff_eq_none, Option.not_isSome_iff_eq_none,
    lookup_none h.edgs, lookup_none h.condors]
  exact ⟨fun hall n hn => ⟨hall.1 n hn, hall.2 n hn⟩,
    fun hall => ⟨fun n hn => (hall n hn).1, fun n hn => (hall n hn).2⟩⟩

theorem insert_taken {edgId condorId sequenceCode : Text} {status : ℤ}
    (htaken : (lookupKey IdEntry.id ic.edgs edgId).isSome ∨
      (lookupKey IdEntry.id ic.condors condorId).isSome) :
    ic.insert edgId condorId sequenceCode status = (true, ic) := if_pos htaken

theorem Consistent.insert_new (h : ic.Consistent) {edgId condorId sequenceCode : Text}
    {status : ℤ}
    (hnew : ∀ n ∈ ic.pointers, n.2.edgId ≠ edgId ∧ n.2.condorId ≠ condorId) :
    ic.insert edgId condorId sequenceCode status =
      (false,
        { inserted := ic.inserted + 1
          container := ic.container.pushBack
            ⟨some condorId, some edgId, some sequenceCode, some status, none, none⟩
          pointers := ic.pointers ++ [(ic.allocated,
            ⟨⟨condorId, edgId, sequenceCode, 0, undefinedStatus, 0⟩,
              ic.container.fileEnd⟩)]
          edgs := insertKey IdEntry.id ic.edgs ⟨ic.allocated, edgId⟩
          condors := insertKey IdEntry.id ic.condors ⟨ic.allocated, condorId⟩
          last := some ic.allocated
          allocated := ic.allocated + 1 }) :=
  if_neg (h.fresh_iff.mpr hnew)

theorem Consistent.insert (h : ic.Consistent) (edgId condorId sequenceCode : Text)
    (status : ℤ) : (ic.insert edgId condorId sequenceCode status).2.Consistent := by
  by_cases htaken : (lookupKey IdEntry.id ic.edgs edgId).isSome ∨
      (lookupKey IdEntry.id ic.condors condorId).isSome
  · rw [insert_taken htaken]
    exact h
  · have hnew := h.fresh_iff.mp htaken
    rw [h.insert_new hnew]
    refine ⟨?_, fun n hn => ?_, ?_, ?_, h.sound.pushBack _,
      h.named.pushBack ⟨rfl, rfl⟩ fun r hr => ?_, ?_, ?_⟩
    · rw [List.map_append]
      refine h.nodup.append (List.nodup_singleton _)
        (List.disjoint_singleton.mpr fun hmem => ?_)
      obtain ⟨n, hn, heq⟩ := List.mem_map.mp hmem
      exact absurd (h.below n hn) (by rw [heq]; exact Nat.lt_irrefl _)
    · rcases List.mem_append.mp hn with hn | hn
      · exact Nat.lt_succ_of_lt (h.below n hn)
      · rw [List.mem_singleton.mp hn]
        exact Nat.lt_succ_self _
    · rw [List.map_append]
      refine h.edgs.add fun m hm => ?_
      obtain ⟨n, hn, rfl⟩ := List.mem_map.mp hm
      exact (hnew n hn).1
    · rw [List.map_append]
      refine h.condors.add fun m hm => ?_
      obtain ⟨n, hn, rfl⟩ := List.mem_map.mp hm
      exact (hnew n hn).2
    · obtain ⟨n, hn, -, htells⟩ := h.pointer hr
      obtain ⟨hcondor, hedg⟩ := htells.ids (h.named.named r hr)
      rw [← hcondor, ← hedg]
      exact ⟨fun heq => (hnew n hn).2 (Option.some.inj heq),
        fun heq => (hnew n hn).1 (Option.some.inj heq)⟩
    · rw [List.map_append, AdFile.pushBack, List.map_append]
      exact h.records.append_right _
    · exact h.tells.snoc h.position_lt h.sound.below rfl rfl

/-! ### A pointer whose ad is written again -/

/-- The list with one pointer replaced. -/
def reset (pointers : List (ℕ × Pointer)) (address : ℕ) (r : ℕ × IdAd) :
    List (ℕ × Pointer) :=
  pointers.map fun n => if n.1 = address then (n.1, n.2.reset r) else n

theorem Consistent.replace_eq (h : ic.Consistent) (hn : n ∈ ic.pointers)
    (modified : IdAd) : ic.replace n.1 n.2 modified = some { ic with
      container := AdFile.pushBack
        { ic.container with
          records := ic.container.records.filter fun r => r.1 ≠ n.2.position } modified
      pointers := reset ic.pointers n.1 (ic.container.fileEnd, modified) } := by
  obtain ⟨ad, hr, -⟩ := h.record hn
  rw [replace, AdFile.erase_of_mem h.sound hr]
  rfl

/-- The ids stay, and so do the addresses. -/
theorem Consistent.entries_reset (h : ic.Consistent) (hn : n ∈ ic.pointers)
    (key : PointerId → Text)
    (hkey : key (n.2.reset r).toPointerId = key n.2.toPointerId) :
    ((reset ic.pointers n.1 r).map node).map (IdEntry.of key) =
      (ic.pointers.map node).map (.of key) := by
  rw [reset, List.map_map, List.map_map, List.map_map]
  refine List.map_congr_left fun m hm => ?_
  by_cases heq : m.1 = n.1
  · obtain rfl := h.eq_of_address hm hn heq
    simp only [Function.comp_apply, if_true, node, IdEntry.of, hkey]
  · simp only [Function.comp_apply, if_neg heq]

theorem address_reset {pointers : List (ℕ × Pointer)} {address : ℕ} :
    (reset pointers address r).map Prod.fst = pointers.map Prod.fst := by
  rw [reset, List.map_map]
  refine List.map_congr_left fun m _ => ?_
  rw [Function.comp_apply]
  split
  · rfl
  · rfl

/-- The replaced pointer may as well stand at the end. -/
theorem Consistent.reset_perm (h : ic.Consistent) (hn : n ∈ ic.pointers) :
    (reset ic.pointers n.1 r).Perm
      ((ic.pointers.filter fun m => m.1 ≠ n.1) ++ [(n.1, n.2.reset r)]) := by
  obtain ⟨A, B, hsplit⟩ := List.append_of_mem hn
  have hnodup := h.nodup
  rw [hsplit, List.map_append, List.map_cons, List.nodup_middle,
    ← List.map_append, List.nodup_cons] at hnodup
  have hapart : ∀ m ∈ A ++ B, m.1 ≠ n.1 := fun m hm heq =>
    hnodup.1 (heq ▸ List.mem_map_of_mem hm)
  have hkeep : ∀ C ⊆ A ++ B, (C.filter fun m => m.1 ≠ n.1) = C ∧ reset C n.1 r = C := by
    intro C hC
    constructor
    · exact List.filter_eq_self.mpr fun m hm => decide_eq_true (hapart m (hC hm))
    · exact (List.map_congr_left fun m hm => if_neg (hapart m (hC hm))).trans
        (List.map_id C)
  obtain ⟨hA, hA'⟩ := hkeep A (List.subset_append_left A B)
  obtain ⟨hB, hB'⟩ := hkeep B (List.subset_append_right A B)
  have hreset : reset (A ++ n :: B) n.1 r = A ++ (n.1, n.2.reset r) :: B := by
    rw [reset, List.map_append, List.map_cons, if_pos rfl]
    exact congrArg₂ (fun C D => C ++ (n.1, n.2.reset r) :: D) hA' hB'
  rw [hsplit, hreset, List.filter_append, List.filter_cons_of_neg (by simp), hA, hB]
  exact List.perm_middle.trans (List.perm_append_singleton _ _).symm

/-- The position that is free belongs to the pointer that is taken out. -/
theorem Consistent.positions_erase (h : ic.Consistent) (hn : n ∈ ic.pointers) :
    ((ic.pointers.filter fun m => m.1 ≠ n.1).map fun m => m.2.position).Perm
      ((ic.container.records.filter fun r => r.1 ≠ n.2.position).map Prod.fst) := by
  have hsame : (ic.pointers.filter fun m => m.1 ≠ n.1) =
      ic.pointers.filter fun m => m.2.position ≠ n.2.position := by
    refine List.filter_congr fun m hm => decide_eq_decide.mpr (not_congr ⟨?_, ?_⟩)
    · intro heq
      rw [h.eq_of_address hm hn heq]
    · intro heq
      rw [List.inj_on_of_nodup_map h.position_nodup hm hn heq]
  have hleft := List.filter_map (p := fun x => decide (x ≠ n.2.position))
    (f := fun m : ℕ × Pointer => m.2.position) (l := ic.pointers)
  have hright := List.filter_map (p := fun x => decide (x ≠ n.2.position))
    (f := (Prod.fst : ℕ × IdAd → ℕ)) (l := ic.container.records)
  have hperm := h.records.filter fun x => decide (x ≠ n.2.position)
  rw [hleft, hright] at hperm
  rw [hsame]
  exact hperm

theorem Consistent.matches_reset {P : Pointer → ℕ × IdAd → Prop} (h : ic.Consistent)
    (hmatches : Matches P ic.pointers ic.container.records) (hn : n ∈ ic.pointers)
    {modified : IdAd}
    (hP : P (n.2.reset (ic.container.fileEnd, modified))
      (ic.container.fileEnd, modified)) :
    Matches P (reset ic.pointers n.1 (ic.container.fileEnd, modified))
      ((ic.container.records.filter fun r => r.1 ≠ n.2.position) ++
        [(ic.container.fileEnd, modified)]) := by
  have hfilter : Matches P (ic.pointers.filter fun m => m.1 ≠ n.1)
      (ic.container.records.filter fun r => r.1 ≠ n.2.position) := fun m hm r hr =>
    hmatches m (List.mem_of_mem_filter hm) r (List.mem_of_mem_filter hr)
  have hsnoc := hfilter.snoc (n := (n.1, n.2.reset (ic.container.fileEnd, modified)))
    (r := (ic.container.fileEnd, modified))
    (fun m hm => h.position_lt m (List.mem_of_mem_filter hm))
    (fun r hr => h.sound.below r (List.mem_of_mem_filter hr)) rfl hP
  exact fun m hm => hsnoc m ((h.reset_perm hn).mem_iff.mp hm)

/-- The new record is told by the pointer, and has the ids of the one it is for. -/
theorem Consistent.replace (h : ic.Consistent) (hn : n ∈ ic.pointers)
    (hr : (n.2.position, ad) ∈ ic.container.records) {modified : IdAd}
    (hids : modified.condorId = ad.condorId ∧ modified.edgId = ad.edgId)
    (htells : (n.2.reset (ic.container.fileEnd, modified)).Tells
      (ic.container.fileEnd, modified)) :
    ∃ ic', ic.replace n.1 n.2 modified = some ic' ∧ ic'.Consistent := by
  refine ⟨_, h.replace_eq hn modified, ?_⟩
  have hnamed := h.named.named _ hr
  have hold := (h.tells n hn _ hr rfl).ids hnamed
  have hnew := htells.ids (by rw [hids.1, hids.2]; exact hnamed)
  rw [hids.1, hids.2, ← hold.1, ← hold.2] at hnew
  refine ⟨?_, fun m hm => ?_, indexes_congr h.edgs ?_, indexes_congr h.condors ?_,
    (h.sound.filter _).pushBack _,
    (h.named.filter _).pushBack (by rw [hids.1, hids.2]; exact hnamed) fun r' hr' => ?_,
    ?_, ?_⟩
  · rw [address_reset]
    exact h.nodup
  · have haddress : m.1 ∈ ic.pointers.map Prod.fst := by
      rw [← address_reset]
      exact List.mem_map_of_mem hm
    obtain ⟨m', hm', heq⟩ := List.mem_map.mp haddress
    rw [← heq]
    exact h.below m' hm'
  · exact h.entries_reset hn _ (Option.some.inj hnew.2)
  · exact h.entries_reset hn _ (Option.some.inj hnew.1)
  · obtain ⟨hmem, hne⟩ := List.mem_filter.mp hr'
    have hother : r' ≠ (n.2.position, ad) := fun heq =>
      of_decide_eq_true hne (congrArg Prod.fst heq)
    rw [hids.1, hids.2]
    exact ⟨fun heq => hother (h.named.eq_of_condorId hmem hr heq),
      fun heq => hother (h.named.eq_of_edgId hmem hr heq)⟩
  · refine ((h.reset_perm hn).map _).trans ?_
    rw [List.map_append, AdFile.pushBack, List.map_append]
    exact (h.positions_erase hn).append_right _
  · exact h.matches_reset h.tells hn htells

theorem Consistent.updatePointer_eq (h : ic.Consistent) (hn : n ∈ ic.pointers)
    (hr : (n.2.position, ad) ∈ ic.container.records) (sequenceCode : Text)
    (status lastStatus : ℤ) :
    ic.updatePointer n.1 sequenceCode status lastStatus =
      ic.replace n.1 n.2 (updated ad sequenceCode status lastStatus) := by
  simp only [updatePointer, h.pointerAt hn, (AdFile.adAt_eq_some h.sound).mpr hr]

theorem Consistent.increment_eq (h : ic.Consistent) (hn : n ∈ ic.pointers)
    (hr : (n.2.position, ad) ∈ ic.container.records) :
    ic.incrementPointerRetryCount n.1 =
      ic.replace n.1 n.2 (incremented ad n.2.retryCount) := by
  simp only [incrementPointerRetryCount, h.pointerAt hn,
    (AdFile.adAt_eq_some h.sound).mpr hr]

theorem Consistent.updatePointer (h : ic.Consistent) (hn : n ∈ ic.pointers)
    (sequenceCode : Text) (status lastStatus : ℤ) :
    ∃ ic', ic.updatePointer n.1 sequenceCode status lastStatus = some ic' ∧
      ic'.Consistent := by
  obtain ⟨ad, hr, htells⟩ := h.record hn
  rw [h.updatePointer_eq hn hr]
  refine h.replace hn hr ⟨rfl, rfl⟩ ?_
  rw [htells.reset_updated]
  exact Pointer.tells_read _

theorem Consistent.incrementPointerRetryCount (h : ic.Consistent)
    (hn : n ∈ ic.pointers) :
    ∃ ic', ic.incrementPointerRetryCount n.1 = some ic' ∧ ic'.Consistent := by
  obtain ⟨ad, hr, htells⟩ := h.record hn
  rw [h.increment_eq hn hr]
  exact h.replace hn hr ⟨rfl, rfl⟩ (htells.reset_incremented _ _)

/-! ### A pointer that is taken out -/

/-- The container without a pointer, its record and its entries. -/
def without (ic : IdContainer) (n : ℕ × Pointer) : IdContainer :=
  { ic with
    container :=
      { ic.container with
        records := ic.container.records.filter fun r => r.1 ≠ n.2.position }
    pointers := ic.pointers.filter fun m => m.1 ≠ n.1
    edgs := eraseKey IdEntry.id ic.edgs n.2.edgId
    condors := eraseKey IdEntry.id ic.condors n.2.condorId }

theorem Consistent.removePointers_eq (h : ic.Consistent) (hn : n ∈ ic.pointers) :
    ic.removePointers (.of PointerId.edgId (node n)) (.of PointerId.condorId (node n)) =
      some (false, ic.without n) := by
  obtain ⟨ad, hr, -⟩ := h.record hn
  have hpointer : ic.pointerAt (IdEntry.of PointerId.edgId (node n)).position =
      some n.2 := h.pointerAt hn
  simp only [removePointers, hpointer, AdFile.erase_of_mem h.sound hr]
  rfl

/-- The entry of a pointer goes with it. -/
theorem indexes_erase {key : PointerId → Text} {pointers : List (ℕ × Pointer)}
    {index : List IdEntry} (h : Indexes key (pointers.map node) index)
    (hnodup : ((pointers.map node).map Prod.fst).Nodup) (hn : n ∈ pointers) :
    Indexes key ((pointers.filter fun m => m.1 ≠ n.1).map node)
      (eraseKey IdEntry.id index (key n.2.toPointerId)) := by
  have hfilter := List.filter_map (p := fun m : Node => decide (m.1 ≠ n.1)) (f := node)
    (l := pointers)
  have herase := h.erase hnodup (List.mem_map_of_mem hn)
  rw [show (node n).1 = n.1 from rfl, hfilter] at herase
  exact herase

theorem Consistent.without (h : ic.Consistent) (hn : n ∈ ic.pointers) :
    (ic.without n).Consistent where
  nodup := h.nodup.sublist (List.filter_sublist.map _)
  below m hm := h.below m (List.mem_of_mem_filter hm)
  edgs := indexes_erase h.edgs h.node_nodup hn
  condors := indexes_erase h.condors h.node_nodup hn
  sound := h.sound.filter _
  named := h.named.filter _
  records := h.positions_erase hn
  tells m hm r hr := h.tells m (List.mem_of_mem_filter hm) r (List.mem_of_mem_filter hr)

theorem Consistent.removeByEdgId (h : ic.Consistent) (hn : n ∈ ic.pointers) :
    ic.removeByEdgId n.2.edgId = some (false, ic.without n) := by
  have hpointer : ic.pointerAt (IdEntry.of PointerId.edgId (node n)).position =
      some n.2 := h.pointerAt hn
  simp only [IdContainer.removeByEdgId, lookup_mem h.edgs hn, hpointer,
    lookup_mem h.condors hn, h.removePointers_eq hn]

theorem Consistent.removeByCondorId (h : ic.Consistent) (hn : n ∈ ic.pointers) :
    ic.removeByCondorId n.2.condorId = some (false, ic.without n) := by
  have hpointer : ic.pointerAt (IdEntry.of PointerId.condorId (node n)).position =
      some n.2 := h.pointerAt hn
  simp only [IdContainer.removeByCondorId, lookup_mem h.condors hn, hpointer,
    lookup_mem h.edgs hn, h.removePointers_eq hn]

theorem removeByEdgId_unknown {edgId : Text}
    (hnone : lookupKey IdEntry.id ic.edgs edgId = none) :
    ic.removeByEdgId edgId = some (true, ic) := by
  rw [IdContainer.removeByEdgId, hnone]

theorem removeByCondorId_unknown {condorId : Text}
    (hnone : lookupKey IdEntry.id ic.condors condorId = none) :
    ic.removeByCondorId condorId = some (true, ic) := by
  rw [IdContainer.removeByCondorId, hnone]

theorem Consistent.positionByCondorId (h : ic.Consistent) {condorId : Text}
    {address : ℕ} (ha : ic.positionByCondorId condorId = some address) :
    ∃ n ∈ ic.pointers, n.1 = address ∧ n.2.condorId = condorId := by
  obtain ⟨c, hc, rfl⟩ := Option.map_eq_some_iff.mp ha
  obtain ⟨n, hn, hkey, rfl⟩ := lookup_some h.condors hc
  exact ⟨n, hn, rfl, hkey⟩

/-! ## Calls in any order -/

theorem consistent_refresh (h : ic.Consistent) (modified : Option IdList) :
    (ic.refresh modified).Consistent := by
  cases modified with
  | none => exact h
  | some l =>
      exact consistent_rebuild ic (AdFile.sound_ofAds _)
        (AdFile.named_ofAds l.named l.condors l.edgs)

/-- A compacted file has the ads in their order. -/
theorem named_compact (h : ic.container.Named) :
    (AdFile.ofAds (ic.container.records.map Prod.snd)).Named := by
  refine AdFile.named_ofAds (fun ad had => ?_) ?_ ?_
  · obtain ⟨r, hr, rfl⟩ := List.mem_map.mp had
    exact h.named r hr
  · rw [List.map_map]
    exact h.condors
  · rw [List.map_map]
    exact h.edgs

theorem consistent_compact (h : ic.Consistent) : ic.compact.Consistent := by
  obtain ⟨h₁, h₂, h₃, h₄, h₅, h₆, h₇, h₈⟩ := consistent_rebuild ic
    (AdFile.sound_ofAds (ic.container.records.map Prod.snd)) (named_compact h.named)
  exact ⟨h₁, h₂, h₃, h₄, h₅, h₆, h₇, h₈⟩

theorem consistent_clear (ic : IdContainer) : ic.clear.Consistent where
  nodup := List.nodup_nil
  below _ hn := absurd hn List.not_mem_nil
  edgs := ⟨.nil, fun _ => Iff.rfl⟩
  condors := ⟨.nil, fun _ => Iff.rfl⟩
  sound := AdFile.sound_empty
  named := AdFile.named_empty
  records := .nil
  tells _ hn := absurd hn List.not_mem_nil

/-- No call follows a reference that is gone, and the file never throws. -/
theorem Consistent.call (h : ic.Consistent) (c : Call) :
    ∃ ic', ic.call c = some ic' ∧ ic'.Consistent := by
  cases c with
  | insert edgId condorId sequenceCode status =>
      exact ⟨_, rfl, h.insert edgId condorId sequenceCode status⟩
  | updatePointer condorId sequenceCode status lastStatus =>
      rw [IdContainer.call]
      cases ha : ic.positionByCondorId condorId with
      | none => exact ⟨ic, rfl, h⟩
      | some address =>
          obtain ⟨n, hn, rfl, -⟩ := h.positionByCondorId ha
          exact h.updatePointer hn sequenceCode status lastStatus
  | incrementPointerRetryCount condorId =>
      rw [IdContainer.call]
      cases ha : ic.positionByCondorId condorId with
      | none => exact ⟨ic, rfl, h⟩
      | some address =>
          obtain ⟨n, hn, rfl, -⟩ := h.positionByCondorId ha
          exact h.incrementPointerRetryCount hn
  | removeByEdgId edgId =>
      rw [IdContainer.call]
      cases hx : lookupKey IdEntry.id ic.edgs edgId with
      | none => exact ⟨ic, by rw [removeByEdgId_unknown hx]; rfl, h⟩
      | some x =>
          obtain ⟨n, hn, rfl, -⟩ := lookup_some h.edgs hx
          exact ⟨_, by rw [h.removeByEdgId hn]; rfl, h.without hn⟩
  | removeByCondorId condorId =>
      rw [IdContainer.call]
      cases hx : lookupKey IdEntry.id ic.condors condorId with
      | none => exact ⟨ic, by rw [removeByCondorId_unknown hx]; rfl, h⟩
      | some x =>
          obtain ⟨n, hn, rfl, -⟩ := lookup_some h.condors hx
          exact ⟨_, by rw [h.removeByCondorId hn]; rfl, h.without hn⟩
  | refresh modified => exact ⟨_, rfl, consistent_refresh h modified⟩
  | compact => exact ⟨_, rfl, consistent_compact h⟩
  | clear => exact ⟨_, rfl, consistent_clear ic⟩

end

end IdContainer

end Wms.Jobsubmission.Jccommon
