import Mathlib.Data.List.Perm.Basic
import Wms.Lib.Lts
import Wms.Proofs.IdContainer

/-!
# The container of ids is a list of pointers

The handlers of the events know the container as a list of pointers in which no id
is twice, each operation changing one of them. The vectors, the file and the
positions are what that list is made of, and as long as a status is not inserted
that the pointer does not get, the two cannot be told apart, in whatever order the
calls come. The order in the list is not kept: what reads the file again finds the
ads in the order in which they were last written.

Where the process ends, all that is in the file comes back; an update that has only
erased has lost its job.
-/

namespace Wms.Jobsubmission.Jccommon

open Wms.Lib LogMonitor

namespace IdContainer

/-! ## What the lookups answer -/

/-- The lookups go by the file, and so they do once it is read again. -/
structure Answers (ic : IdContainer) : Prop where
  known : ∀ r ∈ ic.container.records, ∀ edgId condorId, r.2.edgId = some edgId →
    r.2.condorId = some condorId →
      ic.condorId edgId = some condorId ∧ ic.edgId condorId = some edgId
  edgUnknown : ∀ edgId, (∀ r ∈ ic.container.records, r.2.edgId ≠ some edgId) →
    ic.condorId edgId = some []
  condorUnknown : ∀ condorId,
    (∀ r ∈ ic.container.records, r.2.condorId ≠ some condorId) →
      ic.edgId condorId = some []

section
variable {ic ic' : IdContainer} {n : ℕ × Pointer} {edgId condorId : Text}

theorem Consistent.condorId_of_mem (h : ic.Consistent) (hn : n ∈ ic.pointers) :
    ic.condorId n.2.edgId = some n.2.condorId := by
  have hpointer : ic.pointerAt (IdEntry.of PointerId.edgId (node n)).position =
      some n.2 := h.pointerAt hn
  simp only [condorId, lookup_mem h.edgs hn, hpointer, Option.map_some]

theorem Consistent.edgId_of_mem (h : ic.Consistent) (hn : n ∈ ic.pointers) :
    ic.edgId n.2.condorId = some n.2.edgId := by
  have hpointer : ic.pointerAt (IdEntry.of PointerId.condorId (node n)).position =
      some n.2 := h.pointerAt hn
  simp only [edgId, lookup_mem h.condors hn, hpointer, Option.map_some]

theorem Consistent.answers (h : ic.Consistent) : ic.Answers where
  known r hr edgId condorId he hc := by
    obtain ⟨n, hn, -, htells⟩ := h.pointer hr
    obtain ⟨hcondor, hedg⟩ := htells.ids (h.named.named r hr)
    rw [hc] at hcondor
    rw [he] at hedg
    rw [← Option.some.inj hcondor, ← Option.some.inj hedg]
    exact ⟨h.condorId_of_mem hn, h.edgId_of_mem hn⟩
  edgUnknown edgId hnone := by
    have hlookup : lookupKey IdEntry.id ic.edgs edgId = none := by
      refine (lookup_none h.edgs).mpr fun n hn heq => ?_
      obtain ⟨ad, hr, htells⟩ := h.record hn
      exact hnone _ hr (heq ▸ (htells.ids (h.named.named _ hr)).2.symm)
    rw [IdContainer.condorId, hlookup]
  condorUnknown condorId hnone := by
    have hlookup : lookupKey IdEntry.id ic.condors condorId = none := by
      refine (lookup_none h.condors).mpr fun n hn heq => ?_
      obtain ⟨ad, hr, htells⟩ := h.record hn
      exact hnone _ hr (heq ▸ (htells.ids (h.named.named _ hr)).1.symm)
    rw [IdContainer.edgId, hlookup]

/-! ## Steps in any order -/

theorem named_between {file : AdFile} (h : ic.Consistent)
    (hb : ic.between condorId = some file) :
    ∃ n ∈ ic.pointers, n.2.condorId = condorId ∧ file = (ic.without n).container := by
  rw [between] at hb
  cases ha : ic.positionByCondorId condorId with
  | none => rw [ha] at hb; cases hb
  | some address =>
      obtain ⟨n, hn, rfl, hc⟩ := h.positionByCondorId ha
      obtain ⟨ad, hr, -⟩ := h.record hn
      simp only [ha, h.pointerAt hn, AdFile.erase_of_mem h.sound hr] at hb
      exact ⟨n, hn, hc, (Option.some.inj hb).symm⟩

theorem Consistent.next (h : ic.Consistent) (step : Step) :
    ∃ ic', ic.next step = some ic' ∧ ic'.Consistent := by
  cases step with
  | call c => exact h.call c
  | stop => exact ⟨_, rfl, consistent_construct h.sound h.named⟩
  | stopInUpdate condorId =>
      rw [IdContainer.next]
      cases hb : ic.between condorId with
      | none => exact ⟨_, rfl, consistent_construct h.sound h.named⟩
      | some file =>
          obtain ⟨n, hn, -, rfl⟩ := named_between h hb
          exact ⟨_, rfl, consistent_construct (h.without hn).sound (h.without hn).named⟩

end

/-- The container that a file is opened as. -/
def opened (l : IdList) : IdContainer := construct (.ofAds l.ads)

theorem consistent_opened (l : IdList) : (opened l).Consistent :=
  consistent_construct (AdFile.sound_ofAds _)
    (AdFile.named_ofAds l.named l.condors l.edgs)

/-- A run never fails, and all that is kept agrees in its end. What is read from the
file then answers the same. -/
theorem consistent_of_steps (l : IdList) (steps : List Step) :
    ∃ ic, run next (opened l) steps = some ic ∧ ic.Consistent ∧ ic.Answers ∧
      (construct ic.container).Answers := by
  obtain ⟨ic, hic, h⟩ := run_progress (I := Consistent) (fun _ step h => h.next step)
    (consistent_opened l) steps
  exact ⟨ic, hic, h, h.answers, (consistent_construct h.sound h.named).answers⟩

/-! ## The list the handlers know -/

/-- What an ad is read as. -/
def readAd (ad : IdAd) : PointerId :=
  PointerId.reset ⟨[], [], [], 0, undefinedStatus, 0⟩ ad

theorem readAd_ids {ad : IdAd} (h : ad.condorId.isSome ∧ ad.edgId.isSome) :
    some (readAd ad).condorId = ad.condorId ∧ some (readAd ad).edgId = ad.edgId :=
  RamContainer.reset_ids h _

/-- The list that a file is read as. -/
def listOf (l : IdList) : LogMonitor.IdContainer where
  pointers := l.ads.map readAd
  condors := by
    rw [List.map_map]
    exact nodup_of_some (fun ad had => (readAd_ids (l.named ad had)).1) l.condors
  edgs := by
    rw [List.map_map]
    exact nodup_of_some (fun ad had => (readAd_ids (l.named ad had)).2) l.edgs

/-- The steps, on that list. -/
def onList (c : LogMonitor.IdContainer) : Step → LogMonitor.IdContainer
  | .call (.insert edgId condorId sequenceCode _) =>
      (c.insert edgId condorId sequenceCode).2
  | .call (.updatePointer condorId sequenceCode status lastStatus) =>
      match c.positionByCondorId condorId with
      | none => c
      | some p => c.updatePointer p sequenceCode status lastStatus
  | .call (.incrementPointerRetryCount condorId) =>
      match c.positionByCondorId condorId with
      | none => c
      | some p => c.incrementPointerRetryCount p
  | .call (.removeByEdgId edgId) => c.removeByEdgId edgId
  | .call (.removeByCondorId condorId) | .stopInUpdate condorId =>
      match c.positionByCondorId condorId with
      | none => c
      | some p => c.removeByEdgId p.edgId
  | .call (.refresh (some l)) => listOf l
  | .call .clear => ⟨[], List.nodup_nil, List.nodup_nil⟩
  | .call (.refresh none) | .call .compact | .stop => c

/-- The status of an insertion is the one a new pointer has. -/
def Submits : Step → Prop
  | .call (.insert _ _ _ status) => status = 0
  | _ => True

/-- The pointers say all that is in their records. -/
def Exact (ic : IdContainer) : Prop :=
  Matches (fun p r => p = .read r) ic.pointers ic.container.records

/-- The same pointers, in some order. -/
structure Refines (ic : IdContainer) (c : LogMonitor.IdContainer) : Prop where
  consistent : ic.Consistent
  exact : ic.Exact
  pointers : (ic.pointers.map fun n => n.2.toPointerId).Perm c.pointers

section
variable {ic ic' : IdContainer} {c : LogMonitor.IdContainer} {n : ℕ × Pointer}
  {edgId condorId : Text} {file : AdFile}

theorem exact_rebuild (ic : IdContainer) (hs : file.Sound) :
    (ic.rebuild file).Exact := by
  rw [Exact, rebuild_eq]
  exact matches_pointersTo hs (fun _ => rfl) _

/-- What a file is read as. -/
theorem pointers_rebuild (ic : IdContainer) (file : AdFile) :
    ((ic.rebuild file).pointers.map fun n => n.2.toPointerId) =
      file.records.map fun r => readAd r.2 := by
  rw [rebuild_eq]
  have hcomp : (fun n : ℕ × Pointer => n.2.toPointerId) =
      Pointer.toPointerId ∘ Prod.snd := rfl
  rw [hcomp, ← List.map_map, map_pointersTo, List.map_map]
  rfl

/-- The pointers are those that their file is read as. -/
theorem pointers_perm (h : ic.Consistent) (hexact : ic.Exact) :
    (ic.container.records.map fun r => readAd r.2).Perm
      (ic.pointers.map fun n => n.2.toPointerId) := by
  have hrecord : ∀ r ∈ ic.container.records,
      some (readAd r.2) = (ic.container.adAt r.1).map readAd := by
    intro r hr
    rw [(AdFile.adAt_eq_some h.sound).mpr hr, Option.map_some]
  have hpointer : ∀ n ∈ ic.pointers,
      some n.2.toPointerId = (ic.container.adAt n.2.position).map readAd := by
    intro n hn
    obtain ⟨ad, hr, -⟩ := h.record hn
    have hread := hexact n hn _ hr rfl
    rw [(AdFile.adAt_eq_some h.sound).mpr hr, Option.map_some, hread]
    rfl
  have hperm := h.records.symm.map fun position =>
    (ic.container.adAt position).map readAd
  refine (List.map_perm_map_iff fun _ _ heq => Option.some.inj heq).mp ?_
  rw [List.map_map, List.map_map] at hperm ⊢
  exact ((List.Perm.of_eq (List.map_congr_left hrecord)).trans hperm).trans
    (List.Perm.of_eq (List.map_congr_left hpointer).symm)

theorem Refines.construct (h : ic.Refines c) : (construct ic.container).Refines c where
  consistent := consistent_construct h.consistent.sound h.consistent.named
  exact := exact_rebuild ⟨0, ic.container, [], [], [], none, 0⟩ h.consistent.sound
  pointers := by
    have hread := pointers_rebuild ⟨0, ic.container, [], [], [], none, 0⟩ ic.container
    have hperm := pointers_perm h.consistent h.exact
    rw [← hread] at hperm
    exact hperm.trans h.pointers

theorem Refines.compact (h : ic.Refines c) : ic.compact.Refines c := by
  refine ⟨consistent_compact h.consistent, ?_, ?_⟩
  · exact exact_rebuild ic (AdFile.sound_ofAds _)
  · have hads := AdFile.records_ofAds (ic.container.records.map Prod.snd)
    have hread : ((AdFile.ofAds (ic.container.records.map Prod.snd)).records.map
        fun r => readAd r.2) = ic.container.records.map fun r => readAd r.2 := by
      have hmap := congrArg (List.map readAd) hads
      rw [List.map_map, List.map_map] at hmap
      exact hmap
    have hperm := (List.Perm.of_eq hread).trans (pointers_perm h.consistent h.exact)
    rw [← pointers_rebuild ic] at hperm
    exact hperm.trans h.pointers

theorem refines_refresh (ic : IdContainer) (l : IdList) :
    (ic.refresh (some l)).Refines (listOf l) := by
  refine ⟨?_, exact_rebuild ic (AdFile.sound_ofAds _), ?_⟩
  · exact consistent_rebuild ic (AdFile.sound_ofAds _)
      (AdFile.named_ofAds l.named l.condors l.edgs)
  · have hmap := congrArg (List.map readAd) (AdFile.records_ofAds l.ads)
    rw [List.map_map] at hmap
    exact List.Perm.of_eq ((pointers_rebuild ic _).trans hmap)

/-! ### The lookups of the list -/

theorem Refines.mem_iff (h : ic.Refines c) {p : PointerId} :
    p ∈ c.pointers ↔ ∃ n ∈ ic.pointers, n.2.toPointerId = p := by
  rw [← h.pointers.mem_iff, List.mem_map]

theorem Refines.mem (h : ic.Refines c) (hn : n ∈ ic.pointers) :
    n.2.toPointerId ∈ c.pointers := h.mem_iff.mpr ⟨n, hn, rfl⟩

/-- Both find the same job, or none. -/
theorem Refines.position (h : ic.Refines c) (condorId : Text) :
    ic.positionByCondorId condorId = none ∧ c.positionByCondorId condorId = none ∨
      ∃ n ∈ ic.pointers, n.2.condorId = condorId ∧
        ic.positionByCondorId condorId = some n.1 ∧
        c.positionByCondorId condorId = some n.2.toPointerId := by
  cases hx : lookupKey IdEntry.id ic.condors condorId with
  | none =>
      refine .inl ⟨by rw [IdContainer.positionByCondorId, hx]; rfl, ?_⟩
      refine List.find?_eq_none.mpr fun p hp => ?_
      obtain ⟨n, hn, rfl⟩ := h.mem_iff.mp hp
      simpa using (lookup_none h.consistent.condors).mp hx n hn
  | some x =>
      obtain ⟨n, hn, rfl, rfl⟩ := lookup_some h.consistent.condors hx
      refine .inr ⟨n, hn, rfl, by rw [IdContainer.positionByCondorId, hx]; rfl, ?_⟩
      cases hp : c.positionByCondorId n.2.condorId with
      | none =>
          have hnone := List.find?_eq_none.mp hp _ (h.mem hn)
          exact absurd (decide_eq_true rfl) hnone
      | some p =>
          obtain ⟨hmem, hid⟩ := LogMonitor.IdContainer.mem_of_position hp
          rw [List.inj_on_of_nodup_map c.condors hmem (h.mem hn) hid]

/-! ### The changes of the list -/

theorem taken_iff {c : LogMonitor.IdContainer} : c.taken edgId condorId = false ↔
    ∀ p ∈ c.pointers, p.edgId ≠ edgId ∧ p.condorId ≠ condorId := by
  rw [LogMonitor.IdContainer.taken, Bool.or_eq_false_iff, Option.isSome_eq_false_iff,
    Option.isSome_eq_false_iff, Option.isNone_iff_eq_none, Option.isNone_iff_eq_none,
    LogMonitor.IdContainer.positionByEdgId, LogMonitor.IdContainer.positionByCondorId,
    List.find?_eq_none, List.find?_eq_none]
  simp only [decide_eq_true_eq]
  exact ⟨fun hall p hp => ⟨hall.1 p hp, hall.2 p hp⟩,
    fun hall => ⟨fun p hp => (hall p hp).1, fun p hp => (hall p hp).2⟩⟩

theorem Refines.insert (h : ic.Refines c) (edgId condorId sequenceCode : Text) :
    (ic.insert edgId condorId sequenceCode 0).2.Refines
      (c.insert edgId condorId sequenceCode).2 := by
  have hconsistent := h.consistent.insert edgId condorId sequenceCode 0
  by_cases htaken : (lookupKey IdEntry.id ic.edgs edgId).isSome ∨
      (lookupKey IdEntry.id ic.condors condorId).isSome
  · have hlist : c.taken edgId condorId = true := by
      by_contra hfree
      rw [Bool.not_eq_true, taken_iff] at hfree
      refine absurd htaken (h.consistent.fresh_iff.mpr fun n hn => ?_)
      exact hfree _ (h.mem hn)
    rw [insert_taken htaken, LogMonitor.IdContainer.insert, dif_pos hlist]
    exact h
  · have hnew := h.consistent.fresh_iff.mp htaken
    have hlist : ¬ c.taken edgId condorId = true := by
      rw [Bool.not_eq_true, taken_iff]
      intro p hp
      obtain ⟨n, hn, rfl⟩ := h.mem_iff.mp hp
      exact hnew n hn
    rw [h.consistent.insert_new hnew] at hconsistent ⊢
    rw [LogMonitor.IdContainer.insert, dif_neg hlist]
    refine ⟨hconsistent, ?_, ?_⟩
    · exact h.exact.snoc h.consistent.position_lt h.consistent.sound.below rfl rfl
    · show ((ic.pointers ++ [_]).map _).Perm (c.pointers ++ [_])
      rw [List.map_append]
      exact h.pointers.append_right _

/-- An ad that is written again changes one pointer. -/
theorem Refines.replace (h : ic.Refines c) (hn : n ∈ ic.pointers) {ad : IdAd}
    (hr : (n.2.position, ad) ∈ ic.container.records) (modified : IdAd)
    (hids : modified.condorId = ad.condorId ∧ modified.edgId = ad.edgId)
    {f : PointerId → PointerId}
    (hf : ∀ p, (f p).condorId = p.condorId ∧ (f p).edgId = p.edgId)
    (hreset : n.2.reset (ic.container.fileEnd, modified) =
      .read (ic.container.fileEnd, modified))
    (hread : readAd modified = f (readAd ad)) :
    ∃ ic', ic.replace n.1 n.2 modified = some ic' ∧
      ic'.Refines (c.modify n.2.edgId f hf) := by
  obtain ⟨ic', hic, hconsistent⟩ := h.consistent.replace hn hr hids
    (by rw [hreset]; exact Pointer.tells_read _)
  have heq := h.consistent.replace_eq hn modified
  rw [hic] at heq
  refine ⟨ic', hic, hconsistent, ?_, ?_⟩
  · rw [Option.some.inj heq]
    exact h.consistent.matches_reset h.exact hn hreset
  · rw [Option.some.inj heq]
    have hold : readAd ad = n.2.toPointerId := by
      rw [h.exact n hn _ hr rfl]
      rfl
    have hmap : ((reset ic.pointers n.1 (ic.container.fileEnd, modified)).map
        fun n => n.2.toPointerId) =
        (ic.pointers.map fun n => n.2.toPointerId).map fun p =>
          if p.edgId = n.2.edgId then f p else p := by
      rw [reset, List.map_map, List.map_map]
      refine List.map_congr_left fun m hm => ?_
      rw [Function.comp_apply, Function.comp_apply]
      by_cases hmn : m.1 = n.1
      · obtain rfl := h.consistent.eq_of_address hm hn hmn
        rw [if_pos rfl, if_pos rfl, hreset, ← hold, ← hread]
        rfl
      · rw [if_neg hmn, if_neg fun hedg => hmn ?_]
        rw [h.consistent.eq_of_edgId hm hn hedg]
    show ((reset ic.pointers n.1 (ic.container.fileEnd, modified)).map _).Perm
      (c.pointers.map _)
    rw [hmap]
    exact h.pointers.map _

theorem Refines.without (h : ic.Refines c) (hn : n ∈ ic.pointers) :
    (ic.without n).Refines (c.removeByEdgId n.2.edgId) := by
  refine ⟨h.consistent.without hn, ?_, ?_⟩
  · exact fun m hm r hr =>
      h.exact m (List.mem_of_mem_filter hm) r (List.mem_of_mem_filter hr)
  · have hsame : (ic.pointers.filter fun m => m.1 ≠ n.1) =
        ic.pointers.filter fun m => m.2.edgId ≠ n.2.edgId := by
      refine List.filter_congr fun m hm => decide_eq_decide.mpr (not_congr ⟨?_, ?_⟩)
      · intro heq
        rw [h.consistent.eq_of_address hm hn heq]
      · intro heq
        rw [h.consistent.eq_of_edgId hm hn heq]
    have hfilter := List.filter_map
      (p := fun p : PointerId => decide (p.edgId ≠ n.2.edgId))
      (f := fun m : ℕ × Pointer => m.2.toPointerId) (l := ic.pointers)
    have hperm := h.pointers.filter fun p => decide (p.edgId ≠ n.2.edgId)
    rw [hfilter] at hperm
    show ((ic.pointers.filter fun m => m.1 ≠ n.1).map _).Perm (c.pointers.filter _)
    rw [hsame]
    exact hperm

/-- A job that is not there is not removed. -/
theorem Refines.unknown (h : ic.Refines c)
    (hnone : lookupKey IdEntry.id ic.edgs edgId = none) :
    ic.Refines (c.removeByEdgId edgId) := by
  refine ⟨h.consistent, h.exact, ?_⟩
  have hall := (lookup_none h.consistent.edgs).mp hnone
  have hself : c.pointers.filter (fun p => p.edgId ≠ edgId) = c.pointers := by
    refine List.filter_eq_self.mpr fun p hp => ?_
    obtain ⟨n, hn, rfl⟩ := h.mem_iff.mp hp
    exact decide_eq_true (hall n hn)
  show (ic.pointers.map _).Perm (c.pointers.filter _)
  rw [hself]
  exact h.pointers

/-! ### A step, and a run -/

theorem Refines.updatePointer (h : ic.Refines c) (hn : n ∈ ic.pointers)
    (sequenceCode : Text) (status lastStatus : ℤ) :
    ∃ ic', ic.updatePointer n.1 sequenceCode status lastStatus = some ic' ∧
      ic'.Refines (c.updatePointer n.2.toPointerId sequenceCode status lastStatus) := by
  obtain ⟨ad, hr, htells⟩ := h.consistent.record hn
  rw [h.consistent.updatePointer_eq hn hr]
  refine h.replace hn hr (updated ad sequenceCode status lastStatus) ⟨rfl, rfl⟩ _
    (htells.reset_updated _ _ _ _) ?_
  unfold updated readAd PointerId.reset
  cases ad.lastStatus <;> split <;> rfl

theorem Refines.incrementPointerRetryCount (h : ic.Refines c) (hn : n ∈ ic.pointers) :
    ∃ ic', ic.incrementPointerRetryCount n.1 = some ic' ∧
      ic'.Refines (c.incrementPointerRetryCount n.2.toPointerId) := by
  obtain ⟨ad, hr, -⟩ := h.consistent.record hn
  have hread := h.exact n hn _ hr rfl
  rw [h.consistent.increment_eq hn hr]
  refine h.replace hn hr (incremented ad n.2.retryCount) ⟨rfl, rfl⟩ _ ?_ ?_
  · rw [hread]
    unfold incremented Pointer.reset Pointer.read PointerId.reset
    cases ad.condorId <;> cases ad.edgId <;> cases ad.sequenceCode <;>
      cases ad.condorStatus <;> cases ad.lastStatus <;> rfl
  · rw [hread]
    rfl

theorem refines_next (h : ic.Refines c) {step : Step} (hsubmits : Submits step) :
    ∃ ic', ic.next step = some ic' ∧ ic'.Refines (onList c step) := by
  cases step with
  | stop => exact ⟨_, rfl, h.construct⟩
  | stopInUpdate condorId =>
      rcases h.position condorId with ⟨hnone, hlist⟩ | ⟨n, hn, -, hsome, hlist⟩
      · simp only [IdContainer.next, between, hnone, onList, hlist]
        exact ⟨_, rfl, h.construct⟩
      · obtain ⟨ad, hr, -⟩ := h.consistent.record hn
        simp only [IdContainer.next, between, hsome, h.consistent.pointerAt hn,
          AdFile.erase_of_mem h.consistent.sound hr, onList, hlist]
        exact ⟨_, rfl, (h.without hn).construct⟩
  | call call =>
      cases call with
      | insert edgId condorId sequenceCode status =>
          obtain rfl : status = 0 := hsubmits
          exact ⟨_, rfl, h.insert edgId condorId sequenceCode⟩
      | updatePointer condorId sequenceCode status lastStatus =>
          rcases h.position condorId with ⟨hnone, hlist⟩ | ⟨n, hn, -, hsome, hlist⟩
          · simp only [IdContainer.next, IdContainer.call, hnone, onList, hlist]
            exact ⟨_, rfl, h⟩
          · simp only [IdContainer.next, IdContainer.call, hsome, onList, hlist]
            exact h.updatePointer hn sequenceCode status lastStatus
      | incrementPointerRetryCount condorId =>
          rcases h.position condorId with ⟨hnone, hlist⟩ | ⟨n, hn, -, hsome, hlist⟩
          · simp only [IdContainer.next, IdContainer.call, hnone, onList, hlist]
            exact ⟨_, rfl, h⟩
          · simp only [IdContainer.next, IdContainer.call, hsome, onList, hlist]
            exact h.incrementPointerRetryCount hn
      | removeByEdgId edgId =>
          rw [IdContainer.next, IdContainer.call]
          cases hx : lookupKey IdEntry.id ic.edgs edgId with
          | none =>
              rw [removeByEdgId_unknown hx]
              exact ⟨_, rfl, h.unknown hx⟩
          | some x =>
              obtain ⟨n, hn, rfl, -⟩ := lookup_some h.consistent.edgs hx
              rw [h.consistent.removeByEdgId hn]
              exact ⟨_, rfl, h.without hn⟩
      | removeByCondorId condorId =>
          rw [IdContainer.next, IdContainer.call]
          rcases h.position condorId with ⟨hnone, hlist⟩ | ⟨n, hn, rfl, -, hlist⟩
          · rw [removeByCondorId_unknown (Option.map_eq_none_iff.mp hnone)]
            simp only [onList, hlist]
            exact ⟨_, rfl, h⟩
          · rw [h.consistent.removeByCondorId hn]
            simp only [onList, hlist]
            exact ⟨_, rfl, h.without hn⟩
      | refresh modified =>
          cases modified with
          | none => exact ⟨_, rfl, h⟩
          | some l => exact ⟨_, rfl, refines_refresh ic l⟩
      | compact => exact ⟨_, rfl, h.compact⟩
      | clear =>
          refine ⟨_, rfl, consistent_clear ic, ?_, .nil⟩
          exact fun n hn => absurd hn List.not_mem_nil

end

theorem refines_opened (l : IdList) : (opened l).Refines (listOf l) := by
  have h := refines_refresh ⟨0, .ofAds l.ads, [], [], [], none, 0⟩ l
  exact h

/-- In every run the container has the pointers of the list, none of them twice. -/
theorem follows_list (l : IdList) {steps : List Step}
    (hsubmits : ∀ step ∈ steps, Submits step) :
    ∃ ic, run next (opened l) steps = some ic ∧
      (ic.pointers.map fun n => n.2.toPointerId).Perm
        (steps.foldl onList (listOf l)).pointers := by
  have hnext : ∀ ic c, Refines ic c → ∀ step ∈ steps,
      ∃ ic', next ic step = some ic' ∧ ic'.Refines (onList c step) :=
    fun _ _ h step hstep => refines_next h (hsubmits step hstep)
  obtain ⟨ic, hic, h⟩ := run_simulation hnext (refines_opened l)
  exact ⟨ic, hic, h.pointers⟩

/-- A job that is updated twice, and lost in the second update. -/
def lost : List Step :=
  [.call (.insert ['e'] ['1'] ['s'] 0), .call (.insert ['f'] ['2'] ['s'] 0),
    .call (.updatePointer ['1'] ['t'] 1 undefinedStatus), .call .compact,
    .stopInUpdate ['1'], .call (.incrementPointerRetryCount ['2'])]

def noJobs : IdList := ⟨[], fun _ had => absurd had List.not_mem_nil, .nil, .nil⟩

theorem follows_list_lost :
    ∃ ic, run next (opened noJobs) lost = some ic ∧
      (ic.pointers.map fun n => n.2.toPointerId).Perm
        [⟨['2'], ['f'], ['s'], 0, undefinedStatus, 1⟩] :=
  @follows_list noJobs lost (by simp [lost, Submits])

/-- A status that is inserted is in the file, and not in the pointer. -/
example :
    let ic := ((opened noJobs).insert ['e'] ['1'] ['s'] 5).2
    ic.pointers.map (fun n => n.2.condorStatus) = [0] ∧
      ic.container.records.map (fun r => r.2.condorStatus) = [some 5] := by
  decide +kernel

end IdContainer

end Wms.Jobsubmission.Jccommon
