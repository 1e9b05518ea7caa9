import Wms.Proofs.FileChange

/-!
# The removal of a record

The record stays in the file and is marked as erased, and its neighbours are
linked to one another. The file is cut only where the record was the last one
that was left.
-/

namespace Wms.Jobsubmission.FileContainer

open Wms.Lib

/-! ## The writes -/

def logOnly : List Write :=
  [.iteratorBackup 0 ⟨headerSize, headerSize, headerSize⟩, .status .ftBegin,
    .truncate headerSize, .status .ftEnd, .limits ⟨headerSize, headerSize⟩,
    .removed noRemoved]

/-- Of the first or the last record: `it` is its iterator and `n` the neighbour
with the links `l`, which become `m`. -/
def logAtLimit (limits limits' : Links) (it : FileIterator) (n : ℕ)
    (l m : Links) : List Write :=
  [.limitsBackup limits, .status .rdLimits, .limits limits',
    .iteratorBackup 0 ⟨l.prev, l.next, n⟩, .status .rdIterator, .iterator n m,
    .iteratorBackup 2 it, .status .rdMark1,
    .dataHeader it.current ⟨it.prev, it.next⟩ false]

/-- Of a record with the neighbours `it.prev` and `it.next`, whose links are `k`
and `l`. -/
def logBetween (it : FileIterator) (k l : Links) : List Write :=
  [.iteratorBackup 0 ⟨l.prev, l.next, it.next⟩, .status .rdIterator2,
    .iteratorBackup 1 ⟨k.prev, k.next, it.prev⟩, .status .rdIterator3,
    .iterator it.next ⟨it.prev, l.next⟩, .iterator it.prev ⟨k.prev, it.next⟩,
    .iteratorBackup 2 it, .status .rdMark2,
    .dataHeader it.current ⟨it.prev, it.next⟩ false]

section
variable {f : File} {h : Handle} {r s : Record} {now : ℤ}

theorem removeOnly_run (hsize : h.size = 1) :
    (removeOnly now).run f h =
      ⟨.ok (),
        { h with
          limits := ⟨headerSize, headerSize⟩, removed := noRemoved },
        logOnly⟩ := by
  simp [removeOnly, hsize, eraseFile, truncateFile_run (Nat.le_refl headerSize),
    logOnly]

theorem removeLast_run (it : FileIterator)
    (hr : f.recordAt it.prev = some r) :
    (removeLast it f.getEnd).run f h =
      ⟨.ok (), { h with limits := ⟨h.limits.prev, it.prev⟩ },
        logAtLimit h.limits ⟨h.limits.prev, it.prev⟩ it it.prev r.links
          ⟨r.links.prev, f.getEnd⟩⟩ := by
  simp [removeLast, readIterator_run, writeIterator_run, hr, markDataAsErased,
    logAtLimit]

theorem removeFirst_run (it : FileIterator)
    (hr : f.recordAt it.next = some r) :
    (removeFirst it).run f h =
      ⟨.ok (), { h with limits := ⟨it.next, h.limits.next⟩ },
        logAtLimit h.limits ⟨it.next, h.limits.next⟩ it it.next r.links
          ⟨0, r.links.next⟩⟩ := by
  simp [removeFirst, readIterator_run, writeIterator_run, hr, markDataAsErased,
    logAtLimit]

theorem removeInMiddle_run (it : FileIterator)
    (hr : f.recordAt it.next = some r) (hs : f.recordAt it.prev = some s)
    (hne : it.prev ≠ it.next) :
    (removeInMiddle it).run f h =
      ⟨.ok (), h, logBetween it s.links r.links⟩ := by
  simp [removeInMiddle, readIterator_run, writeIterator_run, hr, hs, hne,
    markDataAsErased, logBetween]

end

/-! ## The list after the writes -/

section
variable {f : File} {A B : List Entry} {b n w : ℕ} {c e g : Text}

theorem notMem_of_nodup_cons (hnodup : (positions (A ++ (w, c) :: B)).Nodup) :
    w ∉ positions A ∧ w ∉ positions B := by
  rw [positions, List.map_append, List.nodup_append] at hnodup
  refine ⟨fun hmem => hnodup.2.2 w hmem w (by simp) rfl, ?_⟩
  exact (List.nodup_cons.mp hnodup.2.1).1

theorem sound_logOnly {x : Entry} (hs : Sound f [x]) :
    Sound (Store.applyAll f logOnly) [] := by
  have hc : Complete (Store.applyAll f logOnly) := by
    refine complete_applyAll hs.complete ?_
    simp [logOnly, headerSize]
  refine ⟨chain_nil hc _ _, rfl, fun _ => ?_⟩
  simp [logOnly, headerSize, File.apply]

/-- Without its last record. -/
theorem sound_removeLast (hs : Sound f (A ++ [(b, e)] ++ [(w, c)])) :
    Sound (Store.applyAll f (logAtLimit (limitsOf (A ++ [(b, e)] ++ [(w, c)]))
      (limitsOf (A ++ [(b, e)])) ⟨b, f.getEnd, w⟩ b ⟨lastPos 0 A, w⟩
        ⟨lastPos 0 A, f.getEnd⟩)) (A ++ [(b, e)]) := by
  let log := logAtLimit (limitsOf (A ++ [(b, e)] ++ [(w, c)]))
    (limitsOf (A ++ [(b, e)])) ⟨b, f.getEnd, w⟩ b ⟨lastPos 0 A, w⟩
    ⟨lastPos 0 A, f.getEnd⟩
  have hw := (notMem_of_nodup_cons hs.nodup).1
  obtain ⟨h₀, -⟩ := chain_split hs.toChain
  have h₁ := chain_headers (log.take 5)
    (by simp [log, logAtLimit, Write.Header]) h₀
  have h₂ := chain_setNext f.getEnd h₁
  have h₃ := chain_headers ((log.drop 6).take 2)
    (by simp [log, logAtLimit, Write.Header]) h₂
  have h₄ := chain_dataHeader_of_notMem hw ⟨b, f.getEnd⟩ false h₃
  refine ⟨?_, ?_, by simp⟩
  · simpa [log, logAtLimit] using h₄
  · simp [logAtLimit, File.apply]

/-- Without its first record. -/
theorem sound_removeFirst (hs : Sound f ((w, c) :: (n, g) :: B)) :
    Sound (Store.applyAll f (logAtLimit (limitsOf ((w, c) :: (n, g) :: B))
      (limitsOf ((n, g) :: B)) ⟨0, n, w⟩ n ⟨w, headPos B f.getEnd⟩
        ⟨0, headPos B f.getEnd⟩)) ((n, g) :: B) := by
  let log := logAtLimit (limitsOf ((w, c) :: (n, g) :: B))
    (limitsOf ((n, g) :: B)) ⟨0, n, w⟩ n ⟨w, headPos B f.getEnd⟩
    ⟨0, headPos B f.getEnd⟩
  have hw := (notMem_of_nodup_cons (A := []) hs.nodup).2
  obtain ⟨-, h₀⟩ := chain_split (A := [(w, c)]) hs.toChain
  have h₁ := chain_headers (log.take 5)
    (by simp [log, logAtLimit, Write.Header]) h₀
  have h₂ := chain_setPrev 0 h₁
  have h₃ := chain_headers ((log.drop 6).take 2)
    (by simp [log, logAtLimit, Write.Header]) h₂
  have h₄ := chain_dataHeader_of_notMem hw ⟨0, n⟩ false h₃
  refine ⟨?_, ?_, by simp⟩
  · simpa [log, logAtLimit] using h₄
  · simp [logAtLimit, File.apply]

theorem sound_removeInMiddle
    (hs : Sound f (A ++ [(b, e)] ++ (w, c) :: (n, g) :: B)) :
    Sound (Store.applyAll f (logBetween ⟨b, n, w⟩ ⟨lastPos 0 A, w⟩
      ⟨w, headPos B f.getEnd⟩)) (A ++ [(b, e)] ++ (n, g) :: B) := by
  let log := logBetween ⟨b, n, w⟩ ⟨lastPos 0 A, w⟩ ⟨w, headPos B f.getEnd⟩
  have hsub : (positions (A ++ [(b, e)] ++ (n, g) :: B)).Nodup := by
    refine hs.nodup.sublist ?_
    simp [positions]
  have hdisj := hsub
  rw [positions, List.map_append, List.nodup_append] at hdisj
  have hn : n ∉ positions (A ++ [(b, e)]) :=
    fun hmem => hdisj.2.2 n hmem n (by simp) rfl
  have hb : b ∉ positions ((n, g) :: B) :=
    fun hmem => hdisj.2.2 b (by simp) b hmem rfl
  obtain ⟨hwA, hwB⟩ := notMem_of_nodup_cons hs.nodup
  have hw : w ∉ positions (A ++ [(b, e)] ++ (n, g) :: B) := by
    rw [positions, List.map_append, List.mem_append]
    exact fun hmem => hmem.elim hwA hwB
  obtain ⟨hA₀, hrest⟩ := chain_split hs.toChain
  obtain ⟨-, hB₀⟩ := chain_split (A := [(w, c)]) hrest
  have hfields : ∀ v ∈ log.take 4, v.Header := by
    simp [log, logBetween, Write.Header]
  have hA₁ := chain_headers (log.take 4) hfields hA₀
  have hB₁ := chain_headers (log.take 4) hfields hB₀
  have hA₂ := chain_iterator_of_notMem hn ⟨b, headPos B f.getEnd⟩ hA₁
  have hB₂ := chain_setPrev b hB₁
  have hA₃ := chain_setNext n hA₂
  have hB₃ := chain_iterator_of_notMem hb ⟨lastPos 0 A, n⟩ hB₂
  have h₄ := chain_join hA₃ (by simpa using hB₃) hsub
  have h₅ := chain_headers ((log.drop 6).take 2)
    (by simp [log, logBetween, Write.Header]) h₄
  have h₆ := chain_dataHeader_of_notMem hw ⟨b, n⟩ false h₅
  refine ⟨?_, ?_, by simp⟩
  · simpa [log, logBetween] using h₆
  · have hlim := hs.limits
    simp only [limitsOf, headPos_append, lastPos_append, headPos_cons,
      lastPos_cons, lastPos_nil] at hlim
    simpa [logBetween, limitsOf, File.apply] using hlim

end

/-! ## The whole removal -/

/-- The four forms of a removal, with the list before and after it and the
writes. -/
inductive Removal (f : File) :
    ℕ → List Entry → List Entry → List Write → Prop where
  | only (w : ℕ) (c : Text) : Removal f w [(w, c)] [] logOnly
  | last (A : List Entry) (b : ℕ) (e : Text) (w : ℕ) (c : Text) :
      Removal f w (A ++ [(b, e)] ++ [(w, c)]) (A ++ [(b, e)])
        (logAtLimit (limitsOf (A ++ [(b, e)] ++ [(w, c)]))
          (limitsOf (A ++ [(b, e)])) ⟨b, f.getEnd, w⟩ b ⟨lastPos 0 A, w⟩
          ⟨lastPos 0 A, f.getEnd⟩)
  | first (w : ℕ) (c : Text) (n : ℕ) (g : Text) (B : List Entry) :
      Removal f w ((w, c) :: (n, g) :: B) ((n, g) :: B)
        (logAtLimit (limitsOf ((w, c) :: (n, g) :: B)) (limitsOf ((n, g) :: B))
          ⟨0, n, w⟩ n ⟨w, headPos B f.getEnd⟩ ⟨0, headPos B f.getEnd⟩)
  | inMiddle (A : List Entry) (b : ℕ) (e : Text) (w : ℕ) (c : Text) (n : ℕ)
      (g : Text) (B : List Entry) :
      Removal f w (A ++ [(b, e)] ++ (w, c) :: (n, g) :: B)
        (A ++ [(b, e)] ++ (n, g) :: B)
        (logBetween ⟨b, n, w⟩ ⟨lastPos 0 A, w⟩ ⟨w, headPos B f.getEnd⟩)

section
variable {f : File} {w : ℕ} {L L' : List Entry} {log : List Write}

theorem Removal.sound (hr : Removal f w L L' log) (hs : Sound f L) :
    Sound (Store.applyAll f log) L' := by
  cases hr with
  | only => exact sound_logOnly hs
  | last => exact sound_removeLast hs
  | first => exact sound_removeFirst hs
  | inMiddle => exact sound_removeInMiddle hs

theorem Removal.length (hr : Removal f w L L' log) :
    L.length = L'.length + 1 := by
  cases hr with
  | only => rfl
  | last => simp
  | first => rfl
  | inMiddle =>
      simp only [List.length_append, List.length_cons, List.length_nil]
      omega

/-- The list without the entry at a position. -/
def without (w : ℕ) (L : List Entry) : List Entry :=
  L.filter fun e => e.1 ≠ w

theorem without_of_notMem (hw : w ∉ positions L) : without w L = L := by
  rw [without, List.filter_eq_self]
  intro e he
  rw [decide_eq_true_eq]
  rintro rfl
  exact hw (List.mem_map_of_mem he)

theorem without_append {A B : List Entry} {c : Text}
    (hnodup : (positions (A ++ (w, c) :: B)).Nodup) :
    without w (A ++ (w, c) :: B) = A ++ B := by
  obtain ⟨hA, hB⟩ := notMem_of_nodup_cons hnodup
  have hA' := without_of_notMem hA
  have hB' := without_of_notMem hB
  rw [without] at hA' hB' ⊢
  rw [List.filter_append, List.filter_cons_of_neg (by simp), hA', hB']

theorem Removal.eq_without (hr : Removal f w L L' log) (hs : Sound f L) :
    L' = without w L := by
  have hnodup := hs.nodup
  cases hr with
  | only w c => exact (without_append (A := []) hnodup).symm
  | last A b e w c => rw [without_append hnodup, List.append_nil]
  | first w c n g B => exact (without_append (A := []) hnodup).symm
  | inMiddle A b e w c n g B => rw [without_append hnodup]

/-- What a removal that leaves a record leaves of the erased one. -/
theorem Removal.erased {r : Record} (hrem : Removal f w L L' log) (hs : Sound f L) (hL' : L' ≠ [])
    (hr : f.recordAt w = some r) :
    (Store.applyAll f log).getEnd = f.getEnd ∧
      ∃ r', (Store.applyAll f log).recordAt w = some r' ∧
        r'.links = r.links := by
  cases hrem with
  | only => exact absurd rfl hL'
  | last A b e w c =>
      obtain ⟨lit, hrec⟩ := linked_last (d := c) (q := w) hs.linked
      obtain rfl : r = _ := by simpa [hr] using hrec
      refine ⟨by simp [logAtLimit], ?_⟩
      rcases eq_or_ne w b with rfl | hb <;> simp [logAtLimit, *]
  | first w c n g B =>
      obtain ⟨⟨lit, hrec⟩, -⟩ := hs.linked
      obtain rfl : r = _ := by simpa [hr] using hrec
      refine ⟨by simp [logAtLimit], ?_⟩
      rcases eq_or_ne w n with rfl | hn <;> simp [logAtLimit, *]
  | inMiddle A b e w c n g B =>
      obtain ⟨lit, hrec⟩ := linked_entry (e := (w, c)) hs.linked
      obtain rfl : r = _ := by simpa [hr] using hrec
      refine ⟨by simp [logBetween], ?_⟩
      rcases eq_or_ne w b with rfl | hb <;> rcases eq_or_ne w n with rfl | hn <;>
        simp [logBetween, *]

/-- The record's own iterator, and the form of the removal that
`removeDataPointer` chooses by it, on its run. -/
theorem removes {h : Handle} (now : ℤ) (hs : Sound f L)
    (hlim : h.limits = limitsOf L) (hsize : h.size = L.length)
    (hw : w ∈ positions L) :
    ∃ r L' log removed, f.recordAt w = some r ∧ r.good = true ∧
      Removal f w L L' log ∧
      (removeDataPointer now ⟨r.links.prev, r.links.next, w⟩).run f h =
        ⟨.ok (), { h with limits := limitsOf L', removed := removed },
          log⟩ := by
  obtain ⟨⟨w, c⟩, he, rfl⟩ := List.mem_map.mp hw
  obtain ⟨A, B, rfl⟩ := List.append_of_mem he
  obtain ⟨hA, ⟨lit, hr⟩, hB⟩ := linked_append.mp hs.linked
  have hnodup := hs.nodup
  rcases List.eq_nil_or_concat' A with rfl | ⟨A, ⟨b, e⟩, rfl⟩
  · cases B with
    | nil =>
        refine ⟨_, [], logOnly, noRemoved, hr, rfl, .only w c, ?_⟩
        simp [removeDataPointer, removeOnly_run hsize, limitsOf]
    | cons x B =>
        obtain ⟨n, g⟩ := x
        obtain ⟨⟨lit', hn⟩, -⟩ := hB
        have hne : n ≠ f.getEnd := Nat.ne_of_lt (recordAt_some hn).2
        refine ⟨_, (n, g) :: B, _, h.removed, hr, rfl, .first w c n g B, ?_⟩
        have hrun := removeFirst_run (h := h) ⟨0, n, w⟩ hn
        simp only [hlim] at hrun
        simp [removeDataPointer, hne, hrun, limitsOf]
  · obtain ⟨lit', hb⟩ := linked_last hA
    have hpos : b ≠ 0 := by
      have := (recordAt_some hb).1
      have := headerSize_pos
      omega
    simp only [lastPos_append, lastPos_cons, lastPos_nil] at hr hB
    cases B with
    | nil =>
        refine ⟨_, A ++ [(b, e)], _, h.removed, hr, rfl, .last A b e w c, ?_⟩
        have hrun := removeLast_run (h := h) ⟨b, f.getEnd, w⟩ hb
        simp only [hlim] at hrun
        simp [removeDataPointer, hpos, hrun, limitsOf]
    | cons x B =>
        obtain ⟨n, g⟩ := x
        obtain ⟨⟨lit'', hn⟩, -⟩ := hB
        have hne : n ≠ f.getEnd := Nat.ne_of_lt (recordAt_some hn).2
        have hbn : b ≠ n := by
          rw [positions, List.map_append, List.nodup_append] at hnodup
          exact hnodup.2.2 b (by simp) n (by simp)
        refine ⟨_, A ++ [(b, e)] ++ (n, g) :: B, _, h.removed, hr, rfl,
          .inMiddle A b e w c n g B, ?_⟩
        have hrun := removeInMiddle_run (h := h) ⟨b, n, w⟩ hn hb hbn
        have hsame : limitsOf (A ++ [(b, e)] ++ (n, g) :: B) = h.limits := by
          rw [hlim]
          simp [limitsOf]
        rw [hsame]
        simp [removeDataPointer, hpos, hne, hrun]

theorem removeData_run {h : Handle} (now : ℤ) (hw : WellFormed f L)
    (hf : AtRest f) (hh : Usable f h L) (hwhere : w ∈ positions L) :
    ∃ t g L' log h', g = Store.applyAll f (opening f t) ∧
      Removal g w L L' log ∧ Current h' L' ∧ h'.stamp = t ∧
      (removeData now w).run f h =
        ⟨.ok (), h', opening f t ++ log ++ closing .rdEmpty L'.length⟩ := by
  obtain ⟨h₁, hrun, hcur, -⟩ := begin_run now hw hf hh false
  obtain ⟨t, ht⟩ := stamp_isSome hw
  have ht' : (Store.applyAll f (repairs f)).stamp = some t := by
    rw [repairs]
    split <;> exact ht
  obtain ⟨t', hstamp⟩ : ∃ t', h₁.stamp.updateStamp now t = t' := ⟨_, rfl⟩
  obtain ⟨g, hopen⟩ : ∃ g, Store.applyAll f (opening f t') = g := ⟨_, rfl⟩
  have hs : Sound g L :=
    hopen ▸ sound_asides hw.toSound (opening_aside f t')
  have hg : ((Store.applyAll f (repairs f)).apply (.stamp t')).apply
      (.status .opened) = g := by
    simp [← hopen, opening]
  obtain ⟨r, L', log, removed, hr, hgood, hrem, hptr⟩ :=
    removes (h := { h₁ with stamp := t' }) now hs hcur.limits hcur.size hwhere
  refine ⟨t', g, L', log, { h₁ with
    stamp := t', limits := limitsOf L', removed := removed, size := L'.length },
    hopen.symm, hrem, ⟨hcur.initialized, rfl, rfl⟩, rfl, ?_⟩
  have hlen := hrem.length
  have hsize : h₁.size = L'.length + 1 := hcur.size.trans hlen
  simp [removeData, hrun, updateTimeStamp_run now ht', hstamp, hg, readIterator_run,
    hr, readSizeAndState, hgood, hptr, sizeToDecrement, opening, closing]
  simp [hsize]

end

end Wms.Jobsubmission.FileContainer
