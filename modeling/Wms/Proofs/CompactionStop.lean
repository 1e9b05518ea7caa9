import Wms.Proofs.FilePlan
import Wms.Proofs.RemovalStop

/-!
# A stop in a compaction

The file is cut to nothing and written anew, and the size comes last. A recovery
of what is there in between counts one record at most, so the data are lost
from the announcement of the cut until the size is written.
-/

namespace Wms.Jobsubmission.FileContainer

open Wms.Lib

/-! ## How large a size a recovery can write -/

def Write.AtMost (n : ℕ) : Write → Prop
  | .size m => m ≤ n
  | _ => True

section
variable {f : File} {h : Handle} {n : ℕ} {now k : ℤ} {log : List Write}

theorem size_atMost (hlog : ∀ w ∈ log, w.AtMost n) (hf : f.size.getD 0 ≤ n) :
    (Store.applyAll f log).size.getD 0 ≤ n := by
  refine Store.stops_invariant (I := fun g : File => g.size.getD 0 ≤ n)
    (fun g w hw hg => ?_) hf _ (Store.applyAll_mem_stops f log)
  have hsize := hlog w hw
  cases w with
  | size m => exact hsize
  | overwriteStart => exact Nat.zero_le n
  | truncate m =>
      cases m with
      | zero => exact Nat.zero_le n
      | succ m => exact hg
  | _ => exact hg

theorem Write.Undoes.atMost {w : Write} (hw : w.Undoes) : w.AtMost n := by
  cases w with
  | size m => exact Nat.le_trans (Nat.le_of_eq hw) (Nat.zero_le n)
  | _ => trivial

theorem makes_atMost {α : Type} {m : FileProg α}
    (hm : Prog.Makes Write.Undoes m f h) : Prog.Makes (Write.AtMost n) m f h :=
  fun w hw => (hm w hw).atMost

/-- What `checkLast` does after the size. -/
def cutEnd (now : ℤ) (it : FileIterator) (m fileEnd : ℕ) : FileProg Unit := do
  if m < fileEnd then
    truncateFile now m
    let newEnd ← getEnd
    if it.next ≠ newEnd then
      writeIterator it.current { it with next := newEnd }

theorem cutEnd_atMost (it : FileIterator) (m fileEnd : ℕ) :
    Prog.Makes (Write.AtMost n) (cutEnd now it m fileEnd) f h := by
  rw [cutEnd]
  split
  · refine Prog.makes_bind (makes_atMost (truncateFile_undoes m)) fun _ h₁ us _ => ?_
    refine Prog.makes_bind (Prog.makes_of_run rfl (by simp)) fun _ _ _ _ => ?_
    split
    · exact makes_atMost (writeIterator_undoes _ _)
    · exact Prog.makes_of_run (Prog.pure_run () _ _) (by simp)
  · exact Prog.makes_of_run (Prog.pure_run () _ _) (by simp)

/-- The walk counts one record more than the handle does, at most. -/
theorem checkLast_atMost (it : FileIterator) (m detected fileEnd : ℕ) :
    Prog.Makes (Write.AtMost (h.size + 1))
      (checkLast now 1 it m detected fileEnd) f h := by
  by_cases hfix : detected ≠ h.size ∧
      isAllowable 1 ((detected : ℤ) - h.size) = true
  · have hrun : (checkLast now 1 it m detected fileEnd).run f h =
        (writeAndSetSize detected >>= fun _ => cutEnd now it m fileEnd).run f
          h := by
      simp [checkLast, cutEnd, hfix]
    rw [Prog.Makes, hrun]
    refine Prog.makes_bind ?_ fun _ _ _ _ => cutEnd_atMost it m fileEnd
    have hle : detected ≤ h.size + 1 := by
      have hallow := hfix.2
      simp [isAllowable] at hallow
      omega
    simpa [Prog.Makes, Write.AtMost] using hle
  · have hrun : (checkLast now 1 it m detected fileEnd).run f h =
        (cutEnd now it m fileEnd).run f h := by
      simp [checkLast, cutEnd, hfix]
    rw [Prog.Makes, hrun]
    exact cutEnd_atMost it m fileEnd

theorem checkElements_atMost (it : FileIterator) (fuel m detected fileEnd : ℕ) :
    Prog.Makes (Write.AtMost (h.size + 1))
      (checkElements now 1 fileEnd fuel it m detected) f h := by
  induction fuel generalizing it m detected with
  | zero => simp [Prog.Makes, checkElements]
  | succ fuel ih =>
      rw [Prog.Makes, checkElements]
      simp only [Prog.bind_run, Prog.store_run, Prog.priv_run, Prog.resume_ok,
        Store.applyAll_nil, Prog.after_nil]
      cases f.recordAt it.current with
      | none => simp
      | some r =>
          dsimp only
          split
          · exact checkLast_atMost it _ _ fileEnd
          · split
            · simp
            · obtain ⟨r, hrun⟩ := readIterator_pure (f := f) (h := h) it.next
                false
              rw [Prog.bind_run, hrun]
              cases r with
              | error e => simp
              | ok it' => exact ih it' _ _

theorem checkConsistency_atMost (hn : f.size.getD 0 + 1 ≤ n) :
    Prog.Makes (Write.AtMost n) (checkConsistency now 1) f h := by
  obtain ⟨r, hrun⟩ := readIterator_pure (f := f)
    (h := { h with size := f.size.getD 0 }) h.limits.prev false
  rw [Prog.Makes]
  cases r with
  | error e => simp [checkConsistency, readSize, hrun]
  | ok it =>
      have hwalk : ((checkConsistency now 1).run f h).log =
          ((checkElements now 1 f.getEnd (f.extent + 1) it 0 0).run f
            { h with size := f.size.getD 0 }).log := by
        simp [checkConsistency, readSize, hrun]
      rw [hwalk]
      intro w hw
      have hle := checkElements_atMost it _ 0 0 f.getEnd w hw
      cases w with
      | size m => exact Nat.le_trans hle hn
      | _ => trivial

variable {s : FileStatus} {steps : List UndoStep} {L M : List Entry}

theorem initContainer_atMost (now : ℤ) (h : Handle) (hl : f.limits.isSome) (hr : f.removed.isSome)
    (hs : f.status = some s) (hplan : undoPlan s = some (steps, 1))
    (hsize : f.size = some 0) :
    Prog.Makes (Write.AtMost 1) (initContainer now) f h := by
  have hclosed : s ≠ .closed := by
    rintro rfl
    cases hplan
  have hundo : Prog.Makes (Write.AtMost 1) (recoverFrom now s) f
      (headerRead f h) := by
    rw [recoverFrom_plan hplan]
    refine Prog.makes_bind (makes_atMost (undoAll_undoes now steps _ _))
      fun _ h' ws hrun => ?_
    refine checkConsistency_atMost (Nat.succ_le_succ ?_)
    have hlog : Prog.Makes (Write.AtMost 0) (undoAll now steps) f
        (headerRead f h) := makes_atMost (undoAll_undoes now steps _ _)
    rw [Prog.Makes, hrun] at hlog
    exact size_atMost hlog (hsize ▸ Nat.le_refl 0)
  rw [Prog.Makes, initContainer_run now hl hr hs, if_neg hclosed]
  refine Prog.makes_bind ?_ fun _ _ _ _ => Prog.makes_of_run rfl (by simp)
  have hrec : recover now s =
      (recoverFrom now s >>= fun _ => writeFileStatus .closed) := by
    simp [recover, hclosed]
  rw [hrec]
  exact Prog.makes_bind hundo fun _ _ _ _ =>
    Prog.makes_of_run rfl (by simp [Write.AtMost])

theorem length_le_of_restored (hf : f.size = some 0)
    (hlog : Prog.Makes (Write.AtMost n) (initContainer now) f (fresh now))
    (hrest : Restored now f M) : M.length ≤ n := by
  obtain ⟨a, h', ws, hrun, -, hrep⟩ := hrest
  rw [Prog.Makes, hrun] at hlog
  have hzero : f.size.getD 0 ≤ n := by
    rw [hf]
    exact Nat.zero_le n
  have hle := size_atMost hlog hzero
  rwa [hrep.size] at hle

end

/-! ## What a recovery finds -/

section
variable {f g : File} {h : Handle} {L M M' : List Entry} {now : ℤ}
  {s : FileStatus}

theorem represents_unique (hM : Represents f M) (hM' : Represents f M') :
    M = M' := by
  have hlim := hM.limits.symm.trans hM'.limits
  rw [Option.some.injEq] at hlim
  have hfuel : f.extent < f.extent + 1 := Nat.lt_succ_self _
  rw [← hM.forwards _ hfuel, ← hM'.forwards _ hfuel, hlim]

theorem restored_unique (hM : Restored now f M) (hM' : Restored now f M') :
    M = M' := by
  obtain ⟨a, h₁, ws, hrun, -, hrep⟩ := hM
  obtain ⟨a', h₁', ws', hrun', -, hrep'⟩ := hM'
  rw [hrun, Outcome.mk.injEq] at hrun'
  obtain ⟨-, -, rfl⟩ := hrun'
  exact represents_unique hrep hrep'

theorem not_restored_missing (hg : g.limits = none ∨ g.removed = none) :
    ¬ Restored now g M := by
  rintro ⟨a, h', ws, hrun, -⟩
  have hfails : ((initContainer now).run g (fresh now)).result =
      .error .syntaxError := by
    rcases hg with hg | hg
    · cases hstamp : g.stamp <;>
        simp [initContainer, readStamp, readInitialPosition, hstamp, hg]
    · cases hstamp : g.stamp <;> cases hl : g.limits <;>
        simp [initContainer, readStamp, readInitialPosition, readInitialRemoved,
          hstamp, hl, hg]
  rw [hrun] at hfails
  cases hfails

/-- `empty` erases the file only where the size and the limits say different
things. -/
theorem restored_empty (hw : WellFormed f L) (hs : f.status = some .empty) :
    Restored now f L := by
  have hl : f.limits.isSome := by rw [hw.limits]; rfl
  have hw' := wellFormed_status (s := .closed) hw
  have hagree : ¬ (L = [] ∧ ¬ (limitsOf L).prev = f.getEnd) := by
    rintro ⟨rfl, hne⟩
    refine hne ?_
    rw [File.getEnd, hw.bare rfl]
    rfl
  obtain ⟨r, hr⟩ := removed_isSome hw'
  obtain ⟨t, ht⟩ := stamp_isSome hw'
  have hrun := initContainer_run (h := fresh now) now hl hw.complete.removed hs
  simp [recover, recoverFrom, syncData_run hw' ht hr, hagree] at hrun
  refine Prog.wp_of_run hrun ⟨rfl, represents ?_⟩
  exact wellFormed_status hw'

theorem syncData_makes (P : Write → Prop) :
    Prog.Makes P (syncData true) f h := by
  cases hl : f.limits <;> cases hr : f.removed <;> cases ht : f.stamp <;>
    simp [Prog.Makes, syncData, readInitialPosition, readInitialRemoved,
      readSize, readStamp, hl, hr, ht]

/-- Where nothing is undone no size is written but 0. -/
theorem initContainer_atMost_zero (now : ℤ) (h : Handle)
    (hl : f.limits.isSome) (hr : f.removed.isSome)
    (hs : f.status = some .opened ∨ f.status = some .empty) :
    Prog.Makes (Write.AtMost 0) (initContainer now) f h := by
  rcases hs with hs | hs
  · rw [Prog.Makes, initContainer_run now hl hr hs]
    simp [recover, recoverFrom, Write.AtMost]
  · have hempty : Prog.Makes (Write.AtMost 0) (recoverFrom now .empty) f
        (headerRead f h) := by
      refine Prog.makes_bind (Prog.makes_of_run rfl (by simp [Write.AtMost]))
        fun _ _ _ _ => ?_
      refine Prog.makes_bind (syncData_makes _) fun _ h' ws _ => ?_
      simp only [Prog.Makes, Prog.bind_run, Prog.store_run, Prog.priv_run,
        Prog.resume_ok, Store.applyAll_nil, Prog.after_nil]
      split
      · simp [eraseFile_run, eraseLog, emptyLog, Write.AtMost]
      · simp
    rw [Prog.Makes, initContainer_run now hl hr hs, if_neg (by decide)]
    refine Prog.makes_bind ?_ fun _ _ _ _ => Prog.makes_of_run rfl (by simp)
    have hrec : recover now .empty =
        (recoverFrom now .empty >>= fun _ => writeFileStatus .closed) := by
      simp [recover]
    rw [hrec]
    exact Prog.makes_bind hempty fun _ _ _ _ =>
      Prog.makes_of_run rfl (by simp [Write.AtMost])

theorem restored_begun (hl : f.limits.isSome) (hr : f.removed.isSome)
    (hslot : f.iteratorBackup 0 = some ⟨0, 0, 0⟩)
    (hs : f.status = some .ftBegin) : Restored now f [] := by
  have hrun := initContainer_run (h := fresh now) now hl hr hs
  simp [recover, recoverFrom, readIteratorBackup, hslot, truncateFile_zero] at hrun
  refine Prog.wp_of_run hrun ⟨rfl, represents ?_⟩
  have hw := wellFormed_status (s := .closed)
    (wellFormed_status (s := .ftEnd) (wellFormed_emptied now))
  exact hw

/-! ## All stops -/

/-- The next handle finds the data of the list. -/
def KeepsData (now : ℤ) (g : File) (L : List Entry) : Prop :=
  ∃ M, Restored now g M ∧ M.map Prod.snd = L.map Prod.snd

/-- Where a stop in a compaction of `L` can be recovered from. -/
def Kept (L : List Entry) (g : File) : Prop :=
  (L = [] → g.removed.isSome) ∧
    (L ≠ [] → g.size = some L.length ∧ g.status ≠ some .ftBegin)

instance (L : List Entry) (g : File) : Decidable (Kept L g) := by
  unfold Kept
  infer_instance

theorem keeps_data (hw : WellFormed f M)
    (hdata : M.map Prod.snd = L.map Prod.snd) (hrest : Restored now f M)
    (hs : f.status ≠ some .ftBegin) : KeepsData now f L ↔ Kept L f := by
  have hlen := congrArg List.length hdata
  rw [List.length_map, List.length_map] at hlen
  exact iff_of_true ⟨M, hrest, hdata⟩
    ⟨fun _ => hw.complete.removed, fun _ => ⟨hlen ▸ hw.size, hs⟩⟩

/-- Nothing is left, which is right where nothing was there. -/
theorem keeps_nothing (hrest : Restored now g []) (hr : g.removed.isSome)
    (hg : g.size = some 0 ∨ g.status = some .ftBegin) :
    KeepsData now g L ↔ Kept L g := by
  by_cases hL : L = []
  · subst hL
    exact iff_of_true ⟨[], hrest, rfl⟩ ⟨fun _ => hr, fun h => absurd rfl h⟩
  · refine iff_of_false ?_ ?_
    · rintro ⟨M, hM, hdata⟩
      obtain rfl := restored_unique hM hrest
      exact hL (List.map_eq_nil_iff.mp hdata.symm)
    · intro hk
      obtain ⟨hsize, hs⟩ := hk.2 hL
      rcases hg with hg | hg
      · rw [hg, Option.some.injEq] at hsize
        exact hL (List.length_eq_zero_iff.mp hsize.symm)
      · exact hs hg

/-- The data are lost. -/
theorem keeps_not (hL : L ≠ []) (hg : g.size = some 0)
    (hM : ∀ M, Restored now g M → M.length < L.length) :
    KeepsData now g L ↔ Kept L g := by
  refine iff_of_false ?_ ?_
  · rintro ⟨M, hrest, hdata⟩
    have hlen := congrArg List.length hdata
    rw [List.length_map, List.length_map] at hlen
    exact Nat.ne_of_lt (hM M hrest) hlen
  · intro hk
    have hsize := (hk.2 hL).1
    rw [hg, Option.some.injEq] at hsize
    exact hL (List.length_eq_zero_iff.mp hsize.symm)

/-- The header is not there. -/
theorem keeps_missing (hg : g.limits = none ∨ g.removed = none)
    (hr : g.removed = none) (hsize : g.size = none ∨ g.size = some 0) :
    KeepsData now g L ↔ Kept L g := by
  refine iff_of_false ?_ ?_
  · rintro ⟨M, hrest, -⟩
    exact not_restored_missing hg hrest
  · rintro ⟨hnil, hcons⟩
    by_cases hL : L = []
    · have hsome := hnil hL
      rw [hr] at hsome
      cases hsome
    · have hk := (hcons hL).1
      rcases hsize with hsize | hsize
      · rw [hsize] at hk
        cases hk
      · rw [hsize, Option.some.injEq] at hk
        exact hL (List.length_eq_zero_iff.mp hk.symm)

end

section
variable {f g : File} {h : Handle} {L : List Entry} {now : ℤ} {log : List Write}

theorem keeps_idle (hw : WellFormed g L) (hidle : Idle g) :
    KeepsData now g L ↔ Kept L g := by
  refine keeps_data hw rfl (restored_idle hw hidle) ?_
  rcases hidle with hs | hs | hs <;> simp [hs]

theorem wellFormed_bare (hc : Complete g)
    (hlim : g.limits = some (limitsOf [])) (hext : g.extent = 0)
    (hsize : g.size = some 0) : WellFormed g [] :=
  ⟨⟨chain_nil hc _ _, hlim, fun _ => hext⟩, hsize⟩

theorem keeps_bare (hw : WellFormed g [])
    (hs : g.status = some .empty ∨ Idle g) : KeepsData now g L ↔ Kept L g := by
  refine keeps_nothing ?_ hw.complete.removed (.inl hw.size)
  rcases hs with hs | hs
  · exact restored_empty hw hs
  · exact restored_idle hw hs

/-- Until the header has been written anew. -/
theorem erase_stops (now now' : ℤ) (hw : WellFormed f L)
    (hs : f.status = some .closed) :
    ∀ g ∈ Store.stops f (eraseLog now), KeepsData now' g L ↔ Kept L g := by
  have hl : f.limits.isSome := by rw [hw.limits]; rfl
  have hr := hw.complete.removed
  have hbegun : Restored now' ((f.apply (.iteratorBackup 0 ⟨0, 0, 0⟩)).apply
      (.status .ftBegin)) [] := restored_begun hl hr rfl rfl
  intro g hg
  simp only [eraseLog, emptyLog, List.cons_append, List.nil_append,
    Store.mem_stops_cons, Store.mem_stops_nil, store_apply] at hg
  rcases hg with rfl | rfl | rfl | rfl | rfl | rfl | rfl | rfl | rfl | rfl |
    rfl | rfl | rfl
  · exact keeps_idle hw (.inl hs)
  · exact keeps_idle (wellFormed_backup hw) (.inl hs)
  · exact keeps_nothing hbegun hr (.inr rfl)
  · exact keeps_missing (.inl rfl) rfl (.inl rfl)
  · exact keeps_missing (.inl rfl) rfl (.inl rfl)
  · exact keeps_missing (.inl rfl) rfl (.inr rfl)
  · exact keeps_missing (.inl rfl) rfl (.inr rfl)
  · exact keeps_missing (.inl rfl) rfl (.inr rfl)
  · exact keeps_missing (.inl rfl) rfl (.inr rfl)
  · exact keeps_missing (.inr rfl) rfl (.inr rfl)
  · exact keeps_bare (wellFormed_bare ⟨rfl, rfl, fun _ => rfl, rfl, rfl⟩ rfl rfl
      rfl) (.inl rfl)
  · exact keeps_bare (wellFormed_emptied now) (.inr (.inl rfl))
  · exact keeps_bare (wellFormed_status (wellFormed_emptied now))
      (.inr (.inr (.inr rfl)))

/-! ## Putting the data back -/

/-- The file while the records are put back: there is no size yet. -/
structure Filling (g : File) : Prop where
  size : g.size = some 0
  limits : g.limits.isSome
  removed : g.removed.isSome
  status : g.status = some .opened ∨
    ∃ s steps, g.status = some s ∧ undoPlan s = some (steps, 1)

theorem filling_fileToFill (now : ℤ) : Filling (fileToFill now) :=
  ⟨rfl, rfl, rfl, .inl rfl⟩

theorem filling_emptyBackup (hg : Filling g) : Filling (g.apply .emptyBackup) :=
  ⟨hg.size, hg.limits, hg.removed, hg.status⟩

theorem filling_adds (hlog : ∀ w ∈ log, w.Adds) (hf : Filling f) :
    ∀ g ∈ Store.stops f log, Filling g := by
  refine Store.stops_invariant (fun g w hw hg => ?_) hf
  have hadds := hlog w hw
  obtain ⟨hsize, hl, hr, hs⟩ := hg
  cases w with
  | status s =>
      refine ⟨hsize, hl, hr, .inr ⟨s, ?_⟩⟩
      rcases hadds with rfl | rfl | rfl | rfl <;> exact ⟨_, rfl, rfl⟩
  | iteratorBackup what it => exact ⟨hsize, hl, hr, hs⟩
  | limitsBackup limits => exact ⟨hsize, hl, hr, hs⟩
  | limits limits => exact ⟨hsize, rfl, hr, hs⟩
  | iterator p l => exact ⟨hsize, hl, hr, hs⟩
  | append r => exact ⟨hsize, hl, hr, hs⟩
  | _ => exact hadds.elim

theorem filling_short {M : List Entry} (hg : Filling g)
    (hrest : Restored now g M) : M.length ≤ 1 := by
  rcases hg.status with hs | ⟨s, steps, hs, hplan⟩
  · have hzero := initContainer_atMost_zero now (fresh now) hg.limits
      hg.removed (.inl hs)
    exact Nat.le_trans (length_le_of_restored hg.size hzero hrest) (Nat.zero_le 1)
  · have hone := initContainer_atMost now (fresh now) hg.limits hg.removed hs
      hplan hg.size
    exact length_le_of_restored hg.size hone hrest

/-- One record to put back is one in an empty list. -/
theorem addAll_one {d : Text} (hd : d ≠ []) {h₀ h₁ : Handle}
    (hlim : h₀.limits = ⟨headerSize, headerSize⟩)
    (hrun : (addAll [d] headerSize).run (fileToFill now) h₀ =
      ⟨.ok (), h₁, log⟩) :
    log = logAtEmpty (fileToFill now) d (limitsOf []) := by
  have hone := addDataAtEnd_empty (f := fileToFill now) (h := h₀) hd
    (by rw [hlim]; rfl)
  have hend : (fileToFill now).getEnd = headerSize := rfl
  rw [hend, hlim] at hone
  simp [addAll, hone] at hrun
  exact hrun.2.symm

theorem wellFormed_fileToFill (now : ℤ) : WellFormed (fileToFill now) [] :=
  wellFormed_status (wellFormed_status (wellFormed_emptied now))

/-- A stop while the first record is put back leaves no record. -/
theorem first_stops (now' : ℤ) {d : Text} {M : List Entry}
    (hg : g ∈ Store.stops (fileToFill now)
      (logAtEmpty (fileToFill now) d (limitsOf []) ++ [.emptyBackup]))
    (hrest : Restored now' g M) : M = [] := by
  have hw := wellFormed_fileToFill now
  have hlast := Store.applyAll_mem_stops (fileToFill now)
    (logAtEmpty (fileToFill now) d (limitsOf []))
  have hshort : ∀ g' ∈ Store.stops (fileToFill now)
      (logAtEmpty (fileToFill now) d (limitsOf [])),
      Restored now' g' M → M = [] := by
    intro g' hg' hrest'
    rcases empty_stops hw rfl g' hg' with ⟨hnil, -⟩ | ⟨hnever, -⟩
    · exact restored_unique hrest' hnil
    · exact absurd hrest' (hnever M)
  rcases Store.mem_stops_append.mp hg with hg | hg
  · exact hshort g hg hrest
  · rcases Store.mem_stops_cons.mp hg with rfl | hg
    · exact hshort _ hlast hrest
    · rw [Store.mem_stops_nil.mp hg] at hrest
      have hlow : headerSize ≤ headerSize := Nat.le_refl _
      exact absurd hrest (not_restored_emptied ⟨fun _ => rfl, rfl⟩ (.inl rfl)
        rfl rfl ⟨hlow, hlow⟩)

/-- No stop before the size is written leaves the data. -/
theorem filling_stops (now' : ℤ) (hw : WellFormed f L) (hL : L ≠ [])
    {h₀ h₁ : Handle} (hlim : h₀.limits = ⟨headerSize, headerSize⟩)
    (hadds : ∀ w ∈ log, w.Adds)
    (hrun : (addAll (L.map Prod.snd) headerSize).run (fileToFill now) h₀ =
      ⟨.ok (), h₁, log⟩) :
    ∀ g ∈ Store.stops (fileToFill now) (log ++ [.emptyBackup]),
      KeepsData now' g L ↔ Kept L g := by
  have hfill := filling_adds hadds (filling_fileToFill now)
  intro g hg
  have hg' : Filling g := by
    rcases Store.mem_stops_append.mp hg with hg | hg
    · exact hfill g hg
    · have hlast := hfill _ (Store.applyAll_mem_stops _ log)
      rcases Store.mem_stops_cons.mp hg with rfl | hg
      · exact hlast
      · rw [Store.mem_stops_nil.mp hg]
        exact filling_emptyBackup hlast
  refine keeps_not hL hg'.size fun M hrest => ?_
  by_cases hone : L.length = 1
  · obtain ⟨⟨p, d⟩, rfl⟩ := List.length_eq_one_iff.mp hone
    have hd : d ≠ [] := hw.filled (p, d) List.mem_cons_self
    rw [addAll_one hd hlim hrun] at hg
    rw [first_stops now' hg hrest]
    exact Nat.zero_lt_one
  · have hle := filling_short hg' hrest
    have hpos := List.length_pos_iff.mpr hL
    omega

/-- What comes after it. -/
theorem ending_stops (now' : ℤ) (hs : Sound f (compacted L)) (hL : L ≠ [])
    (hg' : Filling f) :
    ∀ g ∈ Store.stops f [.status .empty, .size L.length, .status .closed],
      g = f ∨ (KeepsData now' g L ↔ Kept L g) := by
  have hs' := sound_aside (.status .empty) hs trivial
  have hdata : (compacted L).map Prod.snd = L.map Prod.snd := layFrom_data _ _
  have hsized : WellFormed ((f.apply (.status .empty)).apply (.size L.length))
      (compacted L) :=
    ⟨sound_aside (.size _) hs' trivial, congrArg some (compacted_length L).symm⟩
  have hzero := initContainer_atMost_zero (f := f.apply (.status .empty)) now'
    (fresh now') hg'.limits hg'.removed (.inr rfl)
  intro g hg
  simp only [Store.mem_stops_cons, Store.mem_stops_nil, store_apply] at hg
  rcases hg with rfl | rfl | rfl | rfl
  · exact .inl rfl
  · refine .inr (keeps_not hL hg'.size fun M hrest => ?_)
    exact Nat.lt_of_le_of_lt (length_le_of_restored
      (f := f.apply (.status .empty)) hg'.size hzero hrest)
      (List.length_pos_iff.mpr hL)
  · exact .inr (keeps_data hsized hdata (restored_empty hsized rfl)
      (by simp [File.apply]))
  · have hclosed := wellFormed_status (s := .closed) hsized
    exact .inr (keeps_data hclosed hdata (restored_closed hclosed rfl)
      (by simp [File.apply]))

theorem addAll_nil_log {h₀ h₁ : Handle}
    (hrun : (addAll [] headerSize).run (fileToFill now) h₀ =
      ⟨.ok (), h₁, log⟩) : log = [] := by
  rw [addAll, Prog.pure_run, Outcome.mk.injEq] at hrun
  exact hrun.2.2.symm

theorem bare_stops (now' : ℤ) :
    ∀ g ∈ Store.stops (fileToFill now) (closing .empty 0),
      KeepsData now' g [] ↔ Kept [] g := by
  have hw := wellFormed_fileToFill now
  have h₁ : WellFormed ((fileToFill now).apply .emptyBackup) [] :=
    ⟨sound_aside .emptyBackup hw.toSound trivial, rfl⟩
  have h₂ := wellFormed_status (s := .empty) h₁
  have h₃ : WellFormed ((((fileToFill now).apply .emptyBackup).apply
      (.status .empty)).apply (.size 0)) [] :=
    ⟨sound_aside (.size 0) h₂.toSound trivial, rfl⟩
  intro g hg
  simp only [closing, Store.mem_stops_cons, Store.mem_stops_nil, store_apply]
    at hg
  rcases hg with rfl | rfl | rfl | rfl | rfl
  · exact keeps_idle hw (.inr (.inl rfl))
  · exact keeps_idle h₁ (.inr (.inl rfl))
  · exact keeps_bare h₂ (.inl rfl)
  · exact keeps_bare h₃ (.inl rfl)
  · exact keeps_idle (wellFormed_status h₃) (.inl rfl)

theorem refill_stops (now' : ℤ) (hw : WellFormed f L) {h₀ h₁ : Handle}
    (hlim : h₀.limits = ⟨headerSize, headerSize⟩) (hadds : ∀ w ∈ log, w.Adds)
    (hs : Sound (Store.applyAll (fileToFill now) log) (compacted L))
    (hrun : (addAll (L.map Prod.snd) headerSize).run (fileToFill now) h₀ =
      ⟨.ok (), h₁, log⟩) :
    ∀ g ∈ Store.stops (fileToFill now) (log ++ closing .empty L.length),
      KeepsData now' g L ↔ Kept L g := by
  by_cases hL : L = []
  · subst hL
    obtain rfl := addAll_nil_log hrun
    exact bare_stops now'
  · have hfill := filling_stops now' hw hL hlim hadds hrun
    have hlast := filling_adds hadds (filling_fileToFill now) _
      (Store.applyAll_mem_stops _ log)
    have hend := ending_stops now' (sound_aside .emptyBackup hs trivial) hL
      (filling_emptyBackup hlast)
    intro g hg
    change g ∈ Store.stops (fileToFill now) (log ++ ([.emptyBackup] ++
      [.status .empty, .size L.length, .status .closed])) at hg
    rw [← List.append_assoc] at hg
    rcases Store.mem_stops_append.mp hg with hg | hg
    · exact hfill g hg
    · rw [Store.applyAll_append] at hg
      refine (hend g hg).elim (fun heq => ?_) id
      have hmem := Store.applyAll_mem_stops (fileToFill now)
        (log ++ [.emptyBackup])
      rw [Store.applyAll_append] at hmem
      exact hfill g (heq ▸ hmem)

/-- A stop in a compaction leaves the data exactly where the header counts
them, and the file is not announced to be cut. -/
theorem compaction_keeps_iff (now' : ℤ) (hw : WellFormed f L) (hf : AtRest f)
    (hh : Usable f h L)
    (hg : g ∈ Store.stops f ((compactData now).run f h).log) :
    KeepsData now' g L ↔ Kept L g := by
  obtain ⟨log, h', hrun, -, -, hadds, hs, h₀, h₁, hlim, hadd⟩ :=
    compactData_run now hw hf hh
  have hw₁ : WellFormed (Store.applyAll f (repairs f)) L := by
    refine ⟨sound_repairs hw.toSound, ?_⟩
    rw [← hw.size, repairs]
    split <;> rfl
  have herase := erase_stops now now' hw₁ closed_repairs
  rw [hrun, List.append_assoc, List.cons_append] at hg
  rcases Store.mem_stops_append.mp hg with hg | hg
  · rcases Store.mem_stops_append.mp hg with hg | hg
    · obtain ⟨hw', hidle⟩ := idle_opening (t := ⟨now, 0⟩) hw hf g
        (Store.mem_stops_append.mpr (.inl hg))
      exact keeps_idle hw' hidle
    · exact herase g hg
  · rcases Store.mem_stops_cons.mp hg with rfl | hg
    · rw [Store.applyAll_append]
      exact herase _ (Store.applyAll_mem_stops _ _)
    · rw [Store.applyAll_append, applyAll_eraseLog] at hg
      exact refill_stops now' hw hlim hadds hs hadd g hg

end

/-- A compaction of two records, stopped before its last write. -/
theorem compaction_keeps_stopped :
    ∃ c, run Container.next (created 5)
        [(5, .add ['a'] 391), (5, .add ['b'] 391), (5, .add ['c'] 391),
          (6, .remove 391)] = some c ∧ c.list.length = 2 ∧
      ∃ g ∈ Store.stops c.file ((compactData 7).run c.file c.handle).log,
        KeepsData 8 g c.list := by
  have hmap : (run Container.next (created 5)
      [(5, .add ['a'] 391), (5, .add ['b'] 391), (5, .add ['c'] 391),
        (6, .remove 391)]).map (fun c => decide (c.list.length = 2 ∧
          Kept c.list (Store.applyAll c.file
            (((compactData 7).run c.file c.handle).log.take 31)))) = some true := by
    decide
  obtain ⟨c, hrun, hc⟩ := Option.map_eq_some_iff.mp hmap
  obtain ⟨hlength, hkept⟩ := of_decide_eq_true hc
  obtain ⟨⟨hw, hf, hcur, -⟩, -⟩ := run_invariant
    (fun _ _ _ hc _ hn => next_left hc hn) (created_left 5) (meets_true _ _ _) hrun
  have hstop := Store.applyAll_take_mem_stops c.file
    ((compactData 7).run c.file c.handle).log 31
  exact ⟨c, hrun, hlength, _, hstop,
    (compaction_keeps_iff 8 hw hf (.inr (.inr hcur)) hstop).mpr hkept⟩

theorem not_keepsData_of_final {f : File} {now : ℤ} {L : List Entry}
    (hf : ((initContainer now).final f (fresh now)).extent = 0) (hL : L ≠ []) :
    ¬ KeepsData now f L := by
  rintro ⟨M, ⟨a, h, ws, hrun, -, hrep⟩, hdata⟩
  rw [Prog.final, hrun] at hf
  have hwalk := hrep.forwards 1 (hf ▸ Nat.zero_lt_one)
  rw [follow_none (recordAt_bare hf _)] at hwalk
  rw [← hwalk] at hdata
  exact hL (List.map_eq_nil_iff.mp hdata.symm)

/-- Stopped when the cut has been announced, and stopped when everything has
been written but the size. -/
theorem compaction_loses :
    ∃ c, run Container.next (created 5) [(5, .add ['a'] 391)] = some c ∧
      (∃ g ∈ Store.stops c.file ((compactData 7).run c.file c.handle).log,
        g.status = some .ftBegin ∧ ¬ KeepsData 8 g c.list) ∧
      ∃ g ∈ Store.stops c.file ((compactData 7).run c.file c.handle).log,
        g.status = some .empty ∧ ¬ KeepsData 8 g c.list := by
  have hmap : (run Container.next (created 5) [(5, .add ['a'] 391)]).map
      (fun c =>
        let stop := fun n => Store.applyAll c.file
          (((compactData 7).run c.file c.handle).log.take n)
        decide (c.list ≠ [] ∧ (stop 2).status = some .ftBegin ∧
          ((initContainer 8).final (stop 2) (fresh 8)).extent = 0 ∧
          (stop 21).status = some .empty ∧
          ((initContainer 8).final (stop 21) (fresh 8)).extent = 0)) =
        some true := by
    decide
  obtain ⟨c, hrun, hc⟩ := Option.map_eq_some_iff.mp hmap
  obtain ⟨hL, hbegun, hfirst, hempty, hsecond⟩ := of_decide_eq_true hc
  exact ⟨c, hrun,
    ⟨_, Store.applyAll_take_mem_stops _ _ 2, hbegun,
      not_keepsData_of_final hfirst hL⟩,
    ⟨_, Store.applyAll_take_mem_stops _ _ 21, hempty,
      not_keepsData_of_final hsecond hL⟩⟩

end Wms.Jobsubmission.FileContainer
