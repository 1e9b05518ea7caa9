import Wms.Proofs.FileChange

/-!
# Truncation and compaction

Both begin the file anew. A compaction has read the data of the list before and
puts them back in the order of the list, each record directly behind the one
before it.
-/

namespace Wms.Jobsubmission.FileContainer

open Wms.Lib

/-! ## A new file -/

/-- What `createEmptyFile` writes. -/
def emptyLog (now : ℤ) : List Write :=
  [.stamp ⟨now, 0⟩, .size 0, .status .opened, .emptyBackup, .status .empty,
    .limits ⟨headerSize, headerSize⟩, .removed noRemoved, .status .closed]

/-- What `eraseFile` writes, without a size. -/
def eraseLog (now : ℤ) : List Write :=
  [.iteratorBackup 0 ⟨0, 0, 0⟩, .status .ftBegin, .truncate 0] ++
    emptyLog now ++ [.status .ftEnd]

/-- A handle that has created the file. -/
def Handle.emptied (h : Handle) (now : ℤ) (size : ℕ) : Handle :=
  { h with
    size := size, stamp := ⟨now, 0⟩, limits := ⟨headerSize, headerSize⟩,
    removed := noRemoved }

/-- The file then. -/
def File.emptied (now : ℤ) : File := Store.applyAll .none (emptyLog now)

section
variable {f : File} {h : Handle} {L : List Entry} {now : ℤ} {t : TimeStamp}

theorem createEmptyFile_run :
    (createEmptyFile now).run f h =
      ⟨.ok (), h.emptied now 0, emptyLog now⟩ := by
  simp [createEmptyFile, emptyLog, Handle.emptied]

theorem eraseFile_run :
    (eraseFile now 0).run f h = ⟨.ok (), h.emptied now 0, eraseLog now⟩ := by
  simp [eraseFile, truncateFile, createEmptyFile_run, eraseLog]

theorem applyAll_eraseLog :
    Store.applyAll f (eraseLog now) =
      (File.emptied now).apply (.status .ftEnd) := by
  rw [eraseLog, Store.applyAll_append, Store.applyAll_append]
  rfl

theorem wellFormed_emptied (now : ℤ) : WellFormed (File.emptied now) [] where
  complete := ⟨rfl, rfl, fun _ => rfl, rfl, rfl⟩
  linked := trivial
  fits := by simp
  nodup := List.nodup_nil
  filled := by simp
  limits := rfl
  bare := fun _ => rfl
  size := rfl

theorem wellFormed_status {s : FileStatus} (hw : WellFormed f L) :
    WellFormed (f.apply (.status s)) L :=
  ⟨sound_aside _ hw.toSound trivial, hw.size⟩

/-- The handle has not been left behind, or has not read the container yet. -/
theorem truncate_run (now : ℤ) (hw : WellFormed f L) (hf : AtRest f)
    (ht : f.stamp = some t)
    (hh : h.initialized = true → t.gt h.stamp = false) :
    ∃ h' : Handle, (truncate now).run f h =
        ⟨.ok (), h'.emptied now 0, repairs f ++ eraseLog now⟩ ∧
      h'.initialized = true := by
  cases hinit : h.initialized with
  | true =>
      refine ⟨h, ?_, hinit⟩
      simp [truncate, hinit,
        checkStreamAndStamp_inStep now hf hinit ht (hh hinit), eraseFile_run,
        Handle.emptied]
  | false =>
      obtain ⟨r, hr⟩ := removed_isSome hw
      refine ⟨synced L t r, ?_, rfl⟩
      simp [truncate, hinit, initContainer_atRest now hw hf ht hr, eraseFile_run,
        Handle.emptied]

/-! ## Reading all data -/

theorem fillFrom_run {before fileEnd fuel : ℕ}
    (hL : Linked f.recordAt before L fileEnd) (hend : fileEnd = f.getEnd)
    (hfuel : L.length < fuel) :
    (fillFrom fileEnd fuel (headPos L fileEnd)).run f h =
      ⟨.ok (L.map Prod.snd), h, []⟩ := by
  induction L generalizing before fuel with
  | nil =>
      obtain ⟨fuel, rfl⟩ : ∃ k, fuel = k + 1 := ⟨fuel - 1, by omega⟩
      simp [fillFrom]
  | cons e L ih =>
      rw [List.length_cons] at hfuel
      obtain ⟨fuel, rfl⟩ : ∃ k, fuel = k + 1 := ⟨fuel - 1, by omega⟩
      obtain ⟨⟨lit, hr⟩, hrest⟩ := hL
      have hlt : e.1 < fileEnd := hend ▸ (recordAt_some hr).2
      have hih := ih hrest (by omega : L.length < fuel)
      simp [fillFrom, hlt, readDataHere, hr, hih]

theorem sound_repairs (hs : Sound f L) :
    Sound (Store.applyAll f (repairs f)) L := by
  refine sound_asides hs fun w hw => ?_
  rw [repairs] at hw
  split at hw <;> simp at hw
  subst hw
  trivial

theorem closed_repairs :
    (Store.applyAll f (repairs f)).status = some .closed := by
  rw [repairs]
  split
  · assumption
  · rfl

/-- The first iterator of the list, or that of the end of an empty file. -/
theorem readIterator_first (hs : Sound f L) (hlim : h.limits = limitsOf L) :
    ∃ it, (readIterator h.limits.prev false).run f h = ⟨.ok it, h, []⟩ ∧
      it.current = headPos L f.getEnd := by
  cases L with
  | nil =>
      have hprev : h.limits.prev = f.getEnd := by
        rw [hlim, File.getEnd, hs.bare rfl]
        rfl
      refine ⟨⟨0, 0, f.getEnd⟩, ?_, rfl⟩
      rw [hprev]
      exact readIterator_getEnd
  | cons e L =>
      have hprev : h.limits.prev = headPos (e :: L) f.getEnd := by
        rw [hlim]
        rfl
      refine ⟨headIterator 0 f.getEnd (e :: L), ?_, rfl⟩
      rw [hprev]
      exact readIterator_head hs.linked (List.cons_ne_nil _ _)

theorem fillVector_run (now : ℤ) (hw : WellFormed f L) (hf : AtRest f)
    (hh : Usable f h L) (hinit : h.initialized = true) :
    ∃ h', (fillVector now).run f h =
        ⟨.ok (L.map Prod.snd), h', repairs f⟩ ∧ Current h' L := by
  obtain ⟨h', hrun, hcur, -⟩ := begin_run now hw hf hh true
  simp only [begin_, Prog.bind_run, Prog.priv_run, Prog.resume_ok,
    Store.applyAll_nil, Prog.after_nil, hinit, if_true] at hrun
  obtain ⟨g, hg⟩ : ∃ g, Store.applyAll f (repairs f) = g := ⟨_, rfl⟩
  have hend : f.getEnd = g.getEnd := by
    rw [← hg, repairs]
    split <;> rfl
  have hs : Sound g L := hg ▸ sound_repairs hw.toSound
  obtain ⟨it, hit, hcurrent⟩ := readIterator_first hs hcur.limits
  have hlen := length_le_extent hs.linked hs.nodup
  have hfill := fillFrom_run (h := h') hs.linked rfl (Nat.lt_succ_of_le hlen)
  refine ⟨h', ?_, hcur⟩
  simp [fillVector, hrun, hg, hit, hcurrent, hend, hfill]

/-! ## Putting the data back -/

/-- The records of a file without holes. -/
def layFrom : ℕ → List Text → List Entry
  | _, [] => []
  | fileEnd, d :: ds =>
      (fileEnd, d) :: layFrom (fileEnd + calculateDataSize d.length) ds

theorem layFrom_data (fileEnd : ℕ) (ds : List Text) :
    (layFrom fileEnd ds).map Prod.snd = ds := by
  induction ds generalizing fileEnd with
  | nil => rfl
  | cons d ds ih => rw [layFrom, List.map_cons, ih]

/-- The writes of `addDataAtEnd`. -/
def Write.Adds : Write → Prop
  | .iteratorBackup _ _ | .limitsBackup _ | .limits _ | .iterator _ _
  | .append _ => True
  | .status s => s = .aeIterator ∨ s = .aeLimits ∨ s = .aeWriting ∨ s = .aeWritten
  | _ => False

theorem addDataAtEnd_adds {data : Text} (hs : Sound f L)
    (hlim : h.limits = limitsOf L) (hd : data ≠ []) :
    ∃ log it, (addDataAtEnd data f.getEnd).run f h =
        ⟨.ok it, { h with limits := limitsOf (L ++ [(f.getEnd, data)]) }, log⟩ ∧
      it.next = endWith f data ∧ (∀ w ∈ log, w.Adds) ∧
      (Store.applyAll f log).getEnd = endWith f data ∧
      Sound (Store.applyAll f log) (L ++ [(f.getEnd, data)]) := by
  rcases List.eq_nil_or_concat' L with rfl | ⟨A, ⟨p, d⟩, rfl⟩
  · have hbare : f.getEnd = headerSize := by
      rw [File.getEnd, hs.bare rfl, Nat.add_zero]
    have hnext : h.limits.next = f.getEnd := by
      rw [hlim, hbare]
      rfl
    refine ⟨_, ⟨0, endWith f data, f.getEnd⟩, ?_, rfl, ?_, ?_,
      sound_logAtEmpty hs hd⟩
    · rw [addDataAtEnd_empty hd hnext, hlim]
      simp [limitsOf, hbare]
    · simp [logAtEmpty, Write.Adds]
    · simp [logAtEmpty, endWith, newRecord]
  · have hnext : h.limits.next = p := by simp [hlim, limitsOf]
    obtain ⟨lit, hr⟩ := linked_last hs.linked
    refine ⟨_, ⟨p, endWith f data, f.getEnd⟩, ?_, rfl, ?_, ?_,
      sound_logAtEnd hs hd⟩
    · rw [addDataAtEnd_run hd hnext hr, hlim]
      simp [limitsOf]
    · simp [logAtEnd, Write.Adds]
    · simp [logAtEnd, endWith, newRecord]

theorem addAll_run {ds : List Text} (hs : Sound f L)
    (hlim : h.limits = limitsOf L) (hds : ∀ d ∈ ds, d ≠ []) :
    ∃ log, (addAll ds f.getEnd).run f h =
        ⟨.ok (), { h with limits := limitsOf (L ++ layFrom f.getEnd ds) },
          log⟩ ∧
      (∀ w ∈ log, w.Adds) ∧
      Sound (Store.applyAll f log) (L ++ layFrom f.getEnd ds) := by
  induction ds generalizing f h L with
  | nil =>
      refine ⟨[], ?_, by simp, by simpa [layFrom] using hs⟩
      simp [addAll, layFrom, ← hlim]
  | cons d ds ih =>
      obtain ⟨log, it, hrun, hnext, hadds, hend, hs'⟩ :=
        addDataAtEnd_adds hs hlim (hds d List.mem_cons_self)
      obtain ⟨log', hrun', hadds', hs''⟩ :=
        ih (h := { h with limits := limitsOf (L ++ [(f.getEnd, d)]) }) hs' rfl
          fun d' hd' => hds d' (List.mem_cons_of_mem _ hd')
      rw [hend] at hrun' hs''
      have hlist : L ++ layFrom f.getEnd (d :: ds) =
          L ++ [(f.getEnd, d)] ++ layFrom (endWith f d) ds := by
        rw [layFrom, List.append_assoc]
        rfl
      rw [hlist]
      refine ⟨log ++ log', ?_, ?_, ?_⟩
      · simp [addAll, hrun, hnext, hrun']
      · intro w hw
        rcases List.mem_append.mp hw with hw | hw
        · exact hadds w hw
        · exact hadds' w hw
      · rwa [Store.applyAll_append]

/-- What a compaction leaves: the data of the list without holes. -/
def compacted (L : List Entry) : List Entry :=
  layFrom headerSize (L.map Prod.snd)

theorem compacted_length (L : List Entry) :
    (compacted L).length = L.length := by
  rw [← List.length_map Prod.snd, compacted, layFrom_data, List.length_map]

def fileToFill (now : ℤ) : File :=
  ((File.emptied now).apply (.status .ftEnd)).apply (.status .opened)

/-- A compaction has read the data of the list. -/
theorem compactData_read (now : ℤ) (hw : WellFormed f L) (hf : AtRest f)
    (hh : Usable f h L) :
    ∃ h' : Handle, h'.initialized = true ∧
      (compactData now).run f h =
        ((do
          eraseFile now 0
          writeFileStatus .opened
          let fileEnd ← getEnd
          addAll (L.map Prod.snd) fileEnd
          createEmptyBackup .empty
          writeAndSetSize L.length
          writeFileStatus .closed : FileProg Unit).run
            (Store.applyAll f (repairs f)) h').after (repairs f) := by
  cases hinit : h.initialized with
  | true =>
      obtain ⟨h', hfill, hcur⟩ := fillVector_run now hw hf hh hinit
      refine ⟨h', hcur.initialized, ?_⟩
      simp [compactData, hinit, hfill]
  | false =>
      obtain ⟨t, ht⟩ := stamp_isSome hw
      obtain ⟨r, hr⟩ := removed_isSome hw
      have hinit' := initContainer_atRest (h := h) now hw hf ht hr
      obtain ⟨g, hg⟩ : ∃ g, Store.applyAll f (repairs f) = g := ⟨_, rfl⟩
      have hclosed : g.status = some .closed := hg ▸ closed_repairs
      have hw' : WellFormed g L := by
        refine ⟨hg ▸ sound_repairs hw.toSound, ?_⟩
        rw [← hw.size, ← hg, repairs]
        split <;> rfl
      obtain ⟨h', hfill, hcur⟩ := fillVector_run now hw' (.inl hclosed)
        (.inr (.inr (current_synced L t r))) rfl
      have hnone : repairs g = [] := if_pos hclosed
      refine ⟨h', hcur.initialized, ?_⟩
      rw [hnone] at hfill
      simp [compactData, hinit, hinit', hg, hfill]

theorem compactData_run (now : ℤ) (hw : WellFormed f L) (hf : AtRest f)
    (hh : Usable f h L) :
    ∃ log h', (compactData now).run f h =
        ⟨.ok (), h', repairs f ++ eraseLog now ++ .status .opened ::
          log ++ closing .empty L.length⟩ ∧
      Current h' (compacted L) ∧ h'.stamp = ⟨now, 0⟩ ∧
      (∀ w ∈ log, w.Adds) ∧
      Sound (Store.applyAll (fileToFill now) log) (compacted L) ∧
      ∃ h₀ h₁ : Handle, h₀.limits = ⟨headerSize, headerSize⟩ ∧
        (addAll (L.map Prod.snd) headerSize).run (fileToFill now) h₀ =
          ⟨.ok (), h₁, log⟩ := by
  obtain ⟨h₁, hinit, hrun⟩ := compactData_read now hw hf hh
  have hs : Sound (fileToFill now) [] :=
    (wellFormed_status (wellFormed_status (wellFormed_emptied now))).toSound
  have hds : ∀ d ∈ L.map Prod.snd, d ≠ [] := by
    intro d hd
    obtain ⟨e, he, rfl⟩ := List.mem_map.mp hd
    exact hw.filled e he
  obtain ⟨log, hadd, hadds, hs'⟩ :=
    addAll_run (h := h₁.emptied now 0) hs rfl hds
  have hopened : ((Store.applyAll (Store.applyAll f (repairs f))
      (eraseLog now)).apply (.status .opened)) = fileToFill now := by
    rw [applyAll_eraseLog, fileToFill]
  have hend : (fileToFill now).getEnd = headerSize := rfl
  rw [hend] at hadd hs'
  refine ⟨log, { h₁.emptied now 0 with
      limits := limitsOf (compacted L), size := L.length }, ?_, ⟨hinit, rfl,
      (compacted_length L).symm⟩, rfl, hadds, hs',
    h₁.emptied now 0, _, rfl, hadd⟩
  simp [hrun, eraseFile_run, hopened, hend, hadd, compacted, closing]

end

end Wms.Jobsubmission.FileContainer
