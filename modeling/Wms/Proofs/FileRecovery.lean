import Mathlib.Data.List.Perm.Subperm
import Wms.Proofs.FileList

/-!
# What a recovery does

A recovery writes back what the header has copies of, cuts the file, and then
walks through the list. The walk puts the stored size right, cuts off what lies
behind the last record of the list and tells that record so. This is
`checkConsistency_run`: from a sound container, in which at most the size is
wrong, and by what is allowed, the walk makes a well-formed one.

The walk reads one record at least. Where the list is empty it fails.
-/

namespace Wms.Jobsubmission.FileContainer

open Wms.Lib

attribute [simp] writeFileStatus writeIteratorBackup writeLimitsBackup
  writeInitialPosition writeInitialRemoved createEmptyBackup setLimits
  setRemoved setSize setStamp writeAndSetSize writeStamp getEnd
  FileIterator.links

/-! ## The walk -/

/-- How far the records of a list reach in the file. -/
def reach : ℕ → List Entry → ℕ
  | m, [] => m
  | m, e :: L => reach (max m (e.1 + calculateDataSize e.2.length)) L

theorem le_reach (m : ℕ) (L : List Entry) : m ≤ reach m L := by
  induction L generalizing m with
  | nil => exact Nat.le_refl m
  | cons e L ih => exact Nat.le_trans (Nat.le_max_left _ _) (ih _)

theorem fits_reach (m : ℕ) {L : List Entry} {e : Entry} (he : e ∈ L) :
    e.1 + calculateDataSize e.2.length ≤ reach m L := by
  induction L generalizing m with
  | nil => cases he
  | cons f L ih =>
      rcases List.mem_cons.mp he with rfl | he
      · exact Nat.le_trans (Nat.le_max_right _ _) (le_reach _ _)
      · exact ih _ he

section
variable {f : File} {h : Handle} {before after p : ℕ} {d : Text}
  {A L : List Entry} {now k : ℤ}

/-- The iterator of the first record of a list. -/
def headIterator (before : ℕ) (after : ℕ) : List Entry → FileIterator
  | [] => ⟨0, 0, after⟩
  | e :: L => ⟨before, headPos L after, e.1⟩

theorem headIterator_cons (e : Entry) :
    headIterator before after (e :: L) =
      ⟨before, headPos L after, e.1⟩ := rfl

theorem readIterator_head (hL : Linked f.recordAt before L after)
    (hne : L ≠ []) :
    (readIterator (headPos L after) false).run f h =
      ⟨.ok (headIterator before after L), h, []⟩ := by
  cases L with
  | nil => exact absurd rfl hne
  | cons e L =>
      obtain ⟨⟨lit, hr⟩, -⟩ := hL
      simp [headPos, headIterator, readIterator_run, hr]

theorem checkElements_run (now k : ℤ) {fuel : ℕ} (m n : ℕ)
    (hL : Linked f.recordAt before (A ++ [(p, d)]) after)
    (hp : p ∉ positions A) (hlim : h.limits.next = p) (hfuel : A.length < fuel) :
    (checkElements now k f.getEnd fuel
        (headIterator before after (A ++ [(p, d)])) m n).run f h =
      (checkLast now k ⟨lastPos before A, after, p⟩
        (reach m (A ++ [(p, d)])) (n + A.length + 1) f.getEnd).run f h := by
  induction A generalizing before m n fuel with
  | nil =>
      obtain ⟨fuel, rfl⟩ : ∃ k, fuel = k + 1 := ⟨fuel - 1, by omega⟩
      obtain ⟨⟨lit, hr⟩, -⟩ := hL
      simp [checkElements, headIterator, hr, hlim, headPos, lastPos, reach]
  | cons e A ih =>
      obtain ⟨fuel, rfl⟩ : ∃ k, fuel = k + 1 := ⟨fuel - 1, by omega⟩
      rw [List.cons_append] at hL ⊢
      obtain ⟨⟨lit, hr⟩, hrest⟩ := hL
      have hne : e.1 ≠ h.limits.next := by
        rintro heq
        exact hp (List.mem_cons.mpr (.inl (hlim ▸ heq.symm)))
      have hnil : A ++ [(p, d)] ≠ [] := by simp
      have hpos : headPos (A ++ [(p, d)]) after ∈ positions (A ++ [(p, d)]) := by
        cases A <;> exact List.mem_cons_self
      have hbounds := linked_bounds hrest hpos
      have hstop : ¬ (headPos (A ++ [(p, d)]) after < headerSize ∨
          f.getEnd ≤ headPos (A ++ [(p, d)]) after) := by omega
      have hp' : p ∉ positions A := fun h' => hp (List.mem_cons_of_mem _ h')
      rw [List.length_cons] at hfuel
      have hih := ih (max m (e.1 + calculateDataSize e.2.length)) (n + 1)
        hrest hp' (by omega : A.length < fuel)
      simp only [checkElements, headIterator_cons, Prog.bind_run, Prog.store_run,
        Prog.priv_run, Prog.resume_ok, Store.applyAll_nil, hr, hne, hstop,
        if_false, readIterator_head hrest hnil, hih, Prog.after_nil, lastPos,
        reach]
      rw [List.length_cons, Nat.add_right_comm n 1 A.length, Nat.add_assoc n]

/-- What the walk writes at the last element. -/
def sizeFix (k : ℤ) (n size : ℕ) : List Write :=
  if n ≠ size ∧ isAllowable k ((n : ℤ) - size) then [.size n] else []

def endFix (m fileEnd p before next : ℕ) : List Write :=
  if m < fileEnd then
    [.truncate m, .status .ftEnd] ++
      if next ≠ m then [.iterator p ⟨before, m⟩] else []
  else []

theorem truncateFile_run {n : ℕ} (hn : headerSize ≤ n) :
    (truncateFile now n).run f h =
      ⟨.ok (), h, [.truncate n, .status .ftEnd]⟩ := by
  have hpos := headerSize_pos
  have h0 : n ≠ 0 := by omega
  have hlt : ¬ n < headerSize := by omega
  simp [truncateFile, h0, hlt]

theorem checkLast_run {m n fileEnd : ℕ} {r : Record}
    (hr : f.recordAt p = some r)
    (hm : p + calculateDataSize r.data.length ≤ m) :
    (checkLast now k ⟨before, after, p⟩ m n fileEnd).run f h =
      ⟨.ok (),
        if n ≠ h.size ∧ isAllowable k ((n : ℤ) - h.size) then { h with size := n }
        else h,
        sizeFix k n h.size ++ endFix m fileEnd p before after⟩ := by
  have hlow : headerSize ≤ m := by
    have := (recordAt_some hr).1
    omega
  have hend : ∀ g : File, (g.apply (.truncate m)).getEnd = m :=
    fun g => getEnd_truncate g hlow
  have hrec : ∀ g : File, g.recordAt p = some r →
      (g.apply (.truncate m)).recordAt p = some r := by
    intro g hg
    rw [recordAt_truncate g p hlow, hg, Option.filter_some, if_pos]
    exact decide_eq_true hm
  by_cases hsize : n ≠ h.size ∧ isAllowable k ((n : ℤ) - h.size) = true
  · by_cases hlt : m < fileEnd
    · by_cases hnext : after = m
      · simp [checkLast, sizeFix, endFix, hsize, hlt, hnext, hend,
          truncateFile_run hlow]
      · simp [checkLast, sizeFix, endFix, hsize, hlt, hnext, hend,
          truncateFile_run hlow, writeIterator_run, hrec, hr]
    · simp [checkLast, sizeFix, endFix, hsize, hlt]
  · by_cases hlt : m < fileEnd
    · by_cases hnext : after = m
      · simp [checkLast, sizeFix, endFix, hsize, hlt, hnext, hend,
          truncateFile_run hlow]
      · simp [checkLast, sizeFix, endFix, hsize, hlt, hnext, hend,
          truncateFile_run hlow, writeIterator_run, hrec, hr]
    · simp [checkLast, sizeFix, endFix, hsize, hlt]

/-! ## Its result -/

/-- There are no more records than places for them. -/
theorem length_le_extent (hL : Linked f.recordAt before L after)
    (hnodup : (positions L).Nodup) : L.length ≤ f.extent := by
  have hsub : positions L ⊆ List.range' headerSize f.extent := by
    intro q hq
    have hb := linked_bounds hL hq
    simp only [File.getEnd] at hb
    exact List.mem_range'_1.mpr hb
  have hle := (hnodup.subperm hsub).length_le
  simpa [positions] using hle

theorem checkConsistency_log (now k : ℤ) (hs : Sound f (A ++ [(p, d)]))
    (hlim : h.limits = limitsOf (A ++ [(p, d)])) :
    (checkConsistency now k).run f h =
      ⟨.ok (),
        if (A ++ [(p, d)]).length ≠ f.size.getD 0 ∧
            isAllowable k ((A ++ [(p, d)]).length - (f.size.getD 0 : ℤ)) then
          { h with size := (A ++ [(p, d)]).length }
        else { h with size := f.size.getD 0 },
        sizeFix k (A ++ [(p, d)]).length (f.size.getD 0) ++
          endFix (reach 0 (A ++ [(p, d)])) f.getEnd p (lastPos 0 A)
            f.getEnd⟩ := by
  have hne : A ++ [(p, d)] ≠ [] := by simp
  have hnodup := hs.nodup
  have hp : p ∉ positions A := by
    simp only [positions, List.map_append, List.nodup_append] at hnodup
    intro hp
    exact hnodup.2.2 p hp p (by simp) rfl
  have hprev : h.limits.prev = headPos (A ++ [(p, d)]) f.getEnd := by
    rw [hlim]
    cases A <;> rfl
  have hnext : h.limits.next = p := by
    simp [hlim, limitsOf, lastPos]
  have hlen := length_le_extent hs.linked hnodup
  rw [List.length_append, List.length_singleton] at hlen
  obtain ⟨r, hr, hdata, -⟩ :=
    linked_record hs.linked (List.mem_append_right A List.mem_cons_self)
  have hreach : p + calculateDataSize r.data.length ≤
      reach 0 (A ++ [(p, d)]) := by
    rw [hdata]
    exact fits_reach (e := (p, d)) 0 (by simp)
  have hfuel : A.length < f.extent + 1 := by omega
  have hwalk := checkElements_run (h := { h with size := f.size.getD 0 }) now k
    0 0 hs.linked hp hnext hfuel
  simp only [checkConsistency, getEnd, readSize, setSize, Prog.bind_run,
    Prog.store_run, Prog.priv_run, Prog.modify_run, Prog.resume_ok,
    Store.applyAll_nil, Prog.after_nil, Prog.pure_run, hprev,
    readIterator_head hs.linked hne, hwalk, checkLast_run hr hreach]
  simp only [Nat.zero_add, List.length_append, List.length_singleton]

/-- The last record of a sound list may be told of another end. -/
theorem sound_setNext {g : File} (hg : Chain g 0 (A ++ [(p, d)]) after)
    (hlim : g.limits = some (limitsOf (A ++ [(p, d)]))) :
    Sound (g.apply (.iterator p ⟨lastPos 0 A, g.getEnd⟩)) (A ++ [(p, d)]) where
  toChain := chain_setNext g.getEnd hg
  limits := hlim
  bare := by simp

theorem reach_headerSize (hs : Sound f (A ++ [(p, d)])) :
    headerSize ≤ reach 0 (A ++ [(p, d)]) := by
  have hmem : p ∈ positions (A ++ [(p, d)]) := by simp [positions]
  have hb := linked_bounds hs.linked hmem
  have hfit := fits_reach (L := A ++ [(p, d)]) (e := (p, d)) 0 (by simp)
  simp only at hfit
  omega

theorem sound_endFix (hs : Sound f (A ++ [(p, d)])) :
    Sound (Store.applyAll f (endFix (reach 0 (A ++ [(p, d)])) f.getEnd p
      (lastPos 0 A) f.getEnd)) (A ++ [(p, d)]) := by
  simp only [endFix]
  split
  · next hlt =>
      have hfit : ∀ e ∈ A ++ [(p, d)], e.1 + calculateDataSize e.2.length ≤
          reach 0 (A ++ [(p, d)]) := fun e he => fits_reach 0 he
      have hlow := reach_headerSize hs
      have hne : f.getEnd ≠ reach 0 (A ++ [(p, d)]) := by omega
      have hcut := chain_header (.status .ftEnd) trivial
        (chain_truncate hlow hfit hs.toChain)
      have hlim : ((f.apply (.truncate (reach 0 (A ++ [(p, d)])))).apply
          (.status .ftEnd)).limits = some (limitsOf (A ++ [(p, d)])) :=
        (limits_truncate hlow).trans hs.limits
      have hsound := sound_setNext hcut hlim
      rw [getEnd_status, getEnd_truncate f hlow] at hsound
      rw [if_pos hne]
      exact hsound
  · exact hs

/-- From a sound container the walk makes a well-formed one, with a size that
was right or that it may put right. -/
theorem checkConsistency_run (now : ℤ) {n : ℕ} (hs : Sound f L) (hne : L ≠ [])
    (hlim : h.limits = limitsOf L) (hsize : f.size = some n)
    (hn : n = L.length ∨ isAllowable k (L.length - (n : ℤ)) = true) :
    ∃ ws, (checkConsistency now k).run f h =
        ⟨.ok (), { h with size := L.length }, ws⟩ ∧
      WellFormed (Store.applyAll f ws) L := by
  obtain ⟨A, ⟨p, d⟩, rfl⟩ := (List.eq_nil_or_concat' L).resolve_left hne
  have hlog := checkConsistency_log now k hs hlim
  rw [hsize, Option.getD_some] at hlog
  have hcond : (if (A ++ [(p, d)]).length ≠ n ∧
        isAllowable k ((A ++ [(p, d)]).length - (n : ℤ)) then
      { h with size := (A ++ [(p, d)]).length } else { h with size := n }) =
      { h with size := (A ++ [(p, d)]).length } := by
    rcases hn with rfl | hn
    · simp
    · by_cases heq : n = (A ++ [(p, d)]).length
      · simp [heq]
      · rw [if_pos ⟨Ne.symm heq, hn⟩]
  rw [hcond] at hlog
  have hfixed : WellFormed (Store.applyAll f
      (sizeFix k (A ++ [(p, d)]).length n)) (A ++ [(p, d)]) := by
    simp only [sizeFix]
    split
    · exact ⟨sound_aside (.size _) hs trivial, rfl⟩
    · next hno =>
        refine ⟨hs, ?_⟩
        rcases hn with rfl | hn
        · exact hsize
        · rw [not_and_or, not_not] at hno
          rcases hno with heq | hno
          · exact heq ▸ hsize
          · exact absurd hn hno
  have hend : (Store.applyAll f
      (sizeFix k (A ++ [(p, d)]).length n)).getEnd = f.getEnd := by
    simp only [sizeFix]
    split <;> rfl
  refine ⟨_, hlog, ?_⟩
  rw [Store.applyAll_append]
  have hsound := sound_endFix hfixed.toSound
  rw [hend] at hsound
  refine ⟨hsound, ?_⟩
  rw [← hfixed.size]
  simp only [endFix]
  split
  · have hlow := reach_headerSize hs
    split <;> exact size_truncate hlow
  · rfl

end

end Wms.Jobsubmission.FileContainer
