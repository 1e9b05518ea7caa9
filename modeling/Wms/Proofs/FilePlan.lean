import Wms.Proofs.FileStop

/-!
# What a recovery writes

The writes of a recovery by the file alone. The steps of the plan write what the
copies in the header say, and the walk through the records adds its own writes.
Where one of the two fails the next handle finds no list at all.
-/

namespace Wms.Jobsubmission.FileContainer

open Wms.Lib

/-! ## The steps of the plan -/

/-- The writes of a cut. -/
def cutWrites (n : ℕ) : Option (List Write) :=
  if headerSize ≤ n then some [.truncate n, .status .ftEnd] else none

/-- What a step writes. A cut within the header counts as a failure: it leaves
no record that a walk could begin at. -/
def UndoStep.writes (f : File) : UndoStep → Option (List Write)
  | .iterator what =>
      (f.iteratorBackup what).bind fun it =>
        if (f.recordAt it.current).isSome then
          some [.iterator it.current it.links]
        else if it = ⟨0, 0, 0⟩ then some [.overwriteStart]
        else none
  | .limits => f.limitsBackup.map fun l => [.limits l]
  | .cutAtNext => f.limits.bind fun l => cutWrites l.next
  | .cutAtPrev => f.limits.bind fun l => cutWrites l.prev
  | .cutAtNew =>
      (f.iteratorBackup 0).bind fun it =>
        (f.recordAt it.current).bind fun r => cutWrites r.links.prev
  | .unerase =>
      (f.iteratorBackup 2).bind fun it =>
        if (f.recordAt it.current).isSome then
          some [.dataHeader it.current it.links true]
        else none

/-- The writes of some steps of a recovery. -/
def undoWrites : List UndoStep → File → Option (List Write)
  | [], _ => some []
  | step :: steps, f =>
      (step.writes f).bind fun ws =>
        (undoWrites steps (Store.applyAll f ws)).map (ws ++ ·)

/-- Nothing can be read in the file. -/
def Bare (f : File) : Prop := ∀ p, f.recordAt p = none

/-- The writes of a recovery, in which no record is appended and no size is
written but 0. -/
def Write.Undoes : Write → Prop
  | .append _ => False
  | .size n => n = 0
  | _ => True

section
variable {f g : File} {h h' : Handle} {now k : ℤ} {n : ℕ} {step : UndoStep}
  {steps : List UndoStep} {ws : List Write}

theorem cutWrites_some (hn : cutWrites n = some ws) :
    headerSize ≤ n ∧ ws = [.truncate n, .status .ftEnd] := by
  rw [cutWrites] at hn
  split at hn
  · next hlow => exact ⟨hlow, (Option.some.inj hn).symm⟩
  · cases hn

theorem step_run (now : ℤ) (hlim : f.limits = some h.limits)
    (hw : step.writes f = some ws) :
    ∃ h', (step.run now).run f h = ⟨.ok (), h', ws⟩ ∧
      (Store.applyAll f ws).limits = some h'.limits := by
  cases step with
  | iterator what =>
      obtain ⟨it, hslot, hw⟩ := Option.bind_eq_some_iff.mp hw
      split at hw
      · next hr =>
          obtain rfl := Option.some.inj hw
          refine ⟨h, ?_, hlim⟩
          simp [UndoStep.run, restoreIterator, readIteratorBackup, hslot,
            writeIterator_run hr]
      · next hr =>
          split at hw
          · next hzero =>
              obtain rfl := Option.some.inj hw
              subst hzero
              have hpos : 0 < f.getEnd :=
                Nat.lt_of_lt_of_le headerSize_pos (headerSize_le_getEnd f)
              refine ⟨h, ?_, hlim⟩
              simp [UndoStep.run, restoreIterator, readIteratorBackup, hslot,
                writeIterator, hpos, recordAt_zero]
          · cases hw
  | limits =>
      obtain ⟨l, hl, rfl⟩ := Option.map_eq_some_iff.mp hw
      refine ⟨{ h with limits := l }, ?_, rfl⟩
      simp [UndoStep.run, restoreLimits, readLimitsBackup, hl]
  | cutAtNext =>
      obtain ⟨l, hl, hw⟩ := Option.bind_eq_some_iff.mp hw
      obtain ⟨hlow, rfl⟩ := cutWrites_some hw
      refine ⟨h, ?_, (limits_truncate hlow).trans hlim⟩
      simp [UndoStep.run, readInitialPosition, hl, truncateFile_run hlow]
  | cutAtPrev =>
      obtain ⟨l, hl, hw⟩ := Option.bind_eq_some_iff.mp hw
      obtain ⟨hlow, rfl⟩ := cutWrites_some hw
      refine ⟨h, ?_, (limits_truncate hlow).trans hlim⟩
      simp [UndoStep.run, readInitialPosition, hl, truncateFile_run hlow]
  | cutAtNew =>
      obtain ⟨it, hslot, hw⟩ := Option.bind_eq_some_iff.mp hw
      obtain ⟨r, hr, hw⟩ := Option.bind_eq_some_iff.mp hw
      obtain ⟨hlow, rfl⟩ := cutWrites_some hw
      refine ⟨h, ?_, (limits_truncate hlow).trans hlim⟩
      simp [UndoStep.run, truncateAtNew, readIteratorBackup, hslot,
        readIterator_run, hr, truncateFile_run hlow]
  | unerase =>
      obtain ⟨it, hslot, hw⟩ := Option.bind_eq_some_iff.mp hw
      split at hw
      · next hr =>
          obtain rfl := Option.some.inj hw
          obtain ⟨r, hr⟩ := Option.isSome_iff_exists.mp hr
          refine ⟨h, ?_, hlim⟩
          simp [UndoStep.run, unerase, readIteratorBackup, hslot,
            markDataAsUnerased, readSizeAndState, hr]
      · cases hw

theorem undoAll_run (now : ℤ) (hlim : f.limits = some h.limits)
    (hw : undoWrites steps f = some ws) :
    ∃ h', (undoAll now steps).run f h = ⟨.ok (), h', ws⟩ ∧
      (Store.applyAll f ws).limits = some h'.limits := by
  induction steps generalizing f h ws with
  | nil =>
      obtain rfl := Option.some.inj hw
      exact ⟨h, Prog.pure_run () f h, hlim⟩
  | cons step steps ih =>
      obtain ⟨us, hus, hw⟩ := Option.bind_eq_some_iff.mp hw
      obtain ⟨vs, hvs, rfl⟩ := Option.map_eq_some_iff.mp hw
      obtain ⟨h₁, hrun, hlim₁⟩ := step_run now hlim hus
      obtain ⟨h₂, hrest, hlim₂⟩ := ih hlim₁ hvs
      refine ⟨h₂, ?_, by rwa [Store.applyAll_append]⟩
      rw [undoAll, Prog.bind_of_ok hrun, hrest, Prog.after_mk]

/-! ## Where the plan fails -/

theorem bare_apply {w : Write} (hw : w.Undoes) (hf : Bare f) :
    Bare (f.apply w) := by
  intro p
  cases w with
  | iterator q l => simp [hf p]
  | dataHeader q l good => simp [hf p]
  | append r => exact hw.elim
  | truncate m =>
      cases m with
      | zero => simp [File.apply, File.none, File.recordAt]
      | succ m =>
          rw [File.recordAt]
          split
          · simp [File.apply, hf p]
          · rfl
  | _ => exact hf p

theorem bare_applyAll (hws : ∀ w ∈ ws, w.Undoes) (hf : Bare f) :
    Bare (Store.applyAll f ws) :=
  Store.stops_invariant (I := Bare)
    (fun _ w hw hg => bare_apply (hws w hw) hg) hf _
    (Store.applyAll_mem_stops f ws)

theorem readIterator_pure (p : ℕ) (fileorder : Bool) :
    ∃ r, (readIterator p fileorder).run f h = ⟨r, h, []⟩ := by
  rw [readIterator]
  simp only [Prog.bind_run, Prog.store_run, Prog.resume_ok, Store.applyAll_nil,
    Prog.after_nil]
  split
  · cases f.body p <;> exact ⟨_, rfl⟩
  · split
    · exact ⟨_, rfl⟩
    · split <;> exact ⟨_, rfl⟩

theorem writeIterator_undoes (p : ℕ) (it : FileIterator) :
    Prog.Makes Write.Undoes (writeIterator p it) f h := by
  simp only [Prog.Makes, writeIterator, Prog.bind_run, Prog.store_run,
    Prog.resume_ok, Prog.log_after, List.nil_append, Store.applyAll_nil]
  split
  · split
    · simp [Write.Undoes]
    · split <;> simp [Write.Undoes]
  · simp

theorem truncateFile_zero (now : ℤ) (f : File) (h : Handle) :
    (truncateFile now 0).run f h = ⟨.ok (), h.emptied now 0,
      .truncate 0 :: emptyLog now ++ [.status .ftEnd]⟩ := by
  simp [truncateFile, createEmptyFile_run]

theorem truncateFile_undoes (m : ℕ) :
    Prog.Makes Write.Undoes (truncateFile now m) f h := by
  by_cases hzero : m = 0
  · subst hzero
    refine Prog.makes_of_run (truncateFile_zero now f h) ?_
    simp [emptyLog, Write.Undoes]
  · by_cases hlow : headerSize ≤ m
    · refine Prog.makes_of_run (truncateFile_run hlow) ?_
      simp [Write.Undoes]
    · have hcut : m < headerSize := Nat.lt_of_not_le hlow
      simp [Prog.Makes, truncateFile, hzero, hcut]

theorem step_undoes (now : ℤ) (step : UndoStep) (f : File) (h : Handle) :
    Prog.Makes Write.Undoes (step.run now) f h := by
  have hlimits : Prog.Makes Write.Undoes readInitialPosition f h := by
    cases hl : f.limits <;> simp [Prog.Makes, readInitialPosition, hl]
  have hslot : ∀ what,
      Prog.Makes Write.Undoes (readIteratorBackup what) f h := by
    intro what
    cases hit : f.iteratorBackup what <;>
      simp [Prog.Makes, readIteratorBackup, hit]
  cases step with
  | iterator what =>
      exact Prog.makes_bind (hslot what) fun it h' ws _ =>
        writeIterator_undoes _ _
  | limits =>
      cases hl : f.limitsBackup <;> simp [Prog.Makes, UndoStep.run,
        restoreLimits, readLimitsBackup, hl, Write.Undoes]
  | cutAtNext =>
      exact Prog.makes_bind hlimits fun _ _ _ _ => truncateFile_undoes _
  | cutAtPrev =>
      exact Prog.makes_bind hlimits fun _ _ _ _ => truncateFile_undoes _
  | cutAtNew =>
      refine Prog.makes_bind (hslot 0) fun it h' ws _ => ?_
      refine Prog.makes_bind ?_ fun _ _ _ _ => truncateFile_undoes _
      obtain ⟨r, hrun⟩ := readIterator_pure (f := Store.applyAll f ws) (h := h')
        it.current false
      exact Prog.makes_of_run hrun (by simp)
  | unerase =>
      refine Prog.makes_bind (hslot 2) fun it h' ws _ => ?_
      simp only [Prog.Makes, markDataAsUnerased, readSizeAndState, Prog.bind_run,
        Prog.store_run, Prog.resume_ok, Store.applyAll_nil, Prog.after_nil]
      cases (Store.applyAll f ws).recordAt it.current <;> simp [Write.Undoes]

theorem undoAll_undoes (now : ℤ) (steps : List UndoStep) (f : File)
    (h : Handle) : Prog.Makes Write.Undoes (undoAll now steps) f h := by
  induction steps generalizing f h with
  | nil => exact Prog.makes_of_run (Prog.pure_run () f h) (by simp)
  | cons step steps ih =>
      exact Prog.makes_bind (step_undoes now step f h) fun _ _ _ _ => ih _ _

/-- A cut that does not fail leaves the header at least, or nothing. -/
theorem bare_of_cut (hn : cutWrites n = none)
    (hrun : (truncateFile now n).run f h = ⟨.ok (), h', ws⟩) :
    Bare (Store.applyAll f ws) := by
  rw [cutWrites] at hn
  split at hn
  · cases hn
  · next hlow =>
      have hcut : n < headerSize := Nat.lt_of_not_le hlow
      by_cases hzero : n = 0
      · subst hzero
        rw [truncateFile_zero, Outcome.mk.injEq] at hrun
        have hfile : Store.applyAll f (.truncate 0 :: emptyLog now ++
            [.status .ftEnd]) = (File.emptied now).apply (.status .ftEnd) := by
          rw [List.cons_append, Store.applyAll_cons, Store.applyAll_append]
          rfl
        rw [← hrun.2.2, hfile]
        exact recordAt_bare ((wellFormed_emptied now).bare rfl)
      · simp [truncateFile, hzero, hcut] at hrun

theorem truncateAtNew_run {it it' : FileIterator}
    (hslot : f.iteratorBackup 0 = some it)
    (hread : (readIterator it.current false).run f h = ⟨.ok it', h, []⟩) :
    (truncateAtNew now).run f h = (truncateFile now it'.prev).run f h := by
  simp [truncateAtNew, readIteratorBackup, hslot, hread]

/-- A step that has no writes here fails or leaves a bare file. -/
theorem bare_of_step (hw : step.writes f = none)
    (hrun : (step.run now).run f h = ⟨.ok (), h', ws⟩) :
    Bare (Store.applyAll f ws) := by
  cases step with
  | iterator what =>
      cases hslot : f.iteratorBackup what with
      | none =>
          simp [UndoStep.run, restoreIterator, readIteratorBackup, hslot] at hrun
      | some it =>
          simp only [UndoStep.writes, hslot, Option.bind_some] at hw
          split at hw
          · cases hw
          · split at hw
            · cases hw
            · next hr hzero =>
                obtain ⟨e, herror⟩ := restoreIterator_error (h := h) hslot
                  (Option.not_isSome_iff_eq_none.mp hr) hzero
                rw [UndoStep.run, herror] at hrun
                cases hrun
  | limits =>
      have hl := Option.map_eq_none_iff.mp hw
      simp [UndoStep.run, restoreLimits, readLimitsBackup, hl] at hrun
  | cutAtNext =>
      cases hl : f.limits with
      | none => simp [UndoStep.run, readInitialPosition, hl] at hrun
      | some l =>
          simp [UndoStep.run, readInitialPosition, hl] at hrun
          simp only [UndoStep.writes, hl, Option.bind_some] at hw
          exact bare_of_cut hw hrun
  | cutAtPrev =>
      cases hl : f.limits with
      | none => simp [UndoStep.run, readInitialPosition, hl] at hrun
      | some l =>
          simp [UndoStep.run, readInitialPosition, hl] at hrun
          simp only [UndoStep.writes, hl, Option.bind_some] at hw
          exact bare_of_cut hw hrun
  | cutAtNew =>
      cases hslot : f.iteratorBackup 0 with
      | none =>
          simp [UndoStep.run, truncateAtNew, readIteratorBackup, hslot] at hrun
      | some it =>
          rw [UndoStep.run] at hrun
          cases hr : f.recordAt it.current with
          | some r =>
              have hread : (readIterator it.current false).run f h =
                  ⟨.ok ⟨r.links.prev, r.links.next, it.current⟩, h, []⟩ := by
                simp [readIterator_run, hr]
              simp only [UndoStep.writes, hslot, hr, Option.bind_some] at hw
              rw [truncateAtNew_run hslot hread] at hrun
              exact bare_of_cut hw hrun
          | none =>
              rcases readIterator_none (h := h) hr with ⟨e, hread⟩ | hread
              · simp [truncateAtNew, readIteratorBackup, hslot, hread] at hrun
              · have hnone : cutWrites 0 = none := by
                  simp [cutWrites, headerSize]
                rw [truncateAtNew_run hslot hread] at hrun
                exact bare_of_cut hnone hrun
  | unerase =>
      cases hslot : f.iteratorBackup 2 with
      | none => simp [UndoStep.run, unerase, readIteratorBackup, hslot] at hrun
      | some it =>
          simp only [UndoStep.writes, hslot, Option.bind_some] at hw
          split at hw
          · cases hw
          · next hr =>
              rw [Option.not_isSome_iff_eq_none] at hr
              simp [UndoStep.run, unerase, readIteratorBackup, hslot,
                markDataAsUnerased, readSizeAndState, hr] at hrun

/-- Where a recovery has a record to begin its walk at, every step has its
writes. -/
theorem undoWrites_of_wp (now : ℤ) (hlim : f.limits = some h.limits)
    (hundo : Prog.wp (undoAll now steps)
      (fun _ g h' => (g.recordAt h'.limits.prev).isSome) f h) :
    ∃ ws, undoWrites steps f = some ws := by
  induction steps generalizing f h with
  | nil => exact ⟨[], rfl⟩
  | cons step steps ih =>
      obtain ⟨⟨⟩, h₁, us, hrun, hrest⟩ := Prog.wp_bind.mp hundo
      cases hw : step.writes f with
      | none =>
          have hbare := bare_of_step hw hrun
          obtain ⟨⟨⟩, h₂, vs, hrun₂, hsome⟩ := hrest
          have hlog := undoAll_undoes now steps (Store.applyAll f us) h₁
          rw [Prog.Makes, hrun₂] at hlog
          rw [bare_applyAll hlog hbare] at hsome
          cases hsome
      | some ws =>
          obtain ⟨h₁', hrun', hlim'⟩ := step_run now hlim hw
          rw [hrun, Outcome.mk.injEq] at hrun'
          obtain ⟨-, rfl, rfl⟩ := hrun'
          obtain ⟨vs, hvs⟩ := ih hlim' hrest
          refine ⟨us ++ vs, ?_⟩
          rw [undoWrites, hw, Option.bind_some, hvs, Option.map_some]

end

/-! ## The walk -/

/-- The positions of the records from one to the last. -/
def visits (f : File) (last : ℕ) : ℕ → ℕ → Option (List ℕ)
  | 0, _ => none
  | fuel + 1, p =>
      (f.recordAt p).bind fun r =>
        if p = last then some [p]
        else (visits f last fuel r.links.next).map (p :: ·)

/-- Where the record at a position ends. -/
def recordEnd (f : File) (p : ℕ) : ℕ :=
  p + calculateDataSize ((f.recordAt p).elim 0 fun r => r.data.length)

/-- How far some records reach. -/
def reachOf (f : File) : ℕ → List ℕ → ℕ
  | m, [] => m
  | m, p :: ps => reachOf f (max m (recordEnd f p)) ps

/-- The iterator of a record, whether it is there or not. -/
def iteratorAt (f : File) (p : ℕ) : FileIterator :=
  (f.recordAt p).elim ⟨0, 0, p⟩ fun r => ⟨r.links.prev, r.links.next, p⟩

/-- What `checkConsistency` writes at the last of the records. -/
def walkLog (k : ℤ) (f : File) (l : Links) (ps : List ℕ) : List Write :=
  sizeFix k ps.length (f.size.getD 0) ++
    endFix (reachOf f 0 ps) f.getEnd l.next (iteratorAt f l.next).prev
      (iteratorAt f l.next).next

/-- The writes of the walk that checks a file. -/
def walkWrites (k : ℤ) (f : File) : Option (List Write) :=
  f.limits.bind fun l =>
    (visits f l.next (f.extent + 1) l.prev).map (walkLog k f l)

section
variable {f g : File} {h h' : Handle} {now k : ℤ} {fuel last m n p : ℕ}
  {ps : List ℕ} {r : Record} {ws : List Write}

theorem iteratorAt_some (hr : f.recordAt p = some r) :
    iteratorAt f p = ⟨r.links.prev, r.links.next, p⟩ := by
  rw [iteratorAt, hr]
  rfl

theorem visits_last (hv : visits f last fuel p = some ps) :
    (f.recordAt last).isSome ∧ last ∈ ps := by
  induction fuel generalizing p ps with
  | zero => cases hv
  | succ fuel ih =>
      obtain ⟨r, hr, hv⟩ := Option.bind_eq_some_iff.mp hv
      split at hv
      · next hp =>
          obtain rfl := Option.some.inj hv
          exact ⟨hp ▸ hr ▸ rfl, List.mem_singleton.mpr hp.symm⟩
      · obtain ⟨qs, hqs, rfl⟩ := Option.map_eq_some_iff.mp hv
        obtain ⟨hsome, hmem⟩ := ih hqs
        exact ⟨hsome, List.mem_cons_of_mem _ hmem⟩

theorem le_reachOf (m : ℕ) (ps : List ℕ) : m ≤ reachOf f m ps := by
  induction ps generalizing m with
  | nil => exact Nat.le_refl m
  | cons p ps ih => exact Nat.le_trans (Nat.le_max_left _ _) (ih _)

theorem recordEnd_le_reachOf (m : ℕ) (hp : p ∈ ps) :
    recordEnd f p ≤ reachOf f m ps := by
  induction ps generalizing m with
  | nil => cases hp
  | cons q ps ih =>
      rcases List.mem_cons.mp hp with rfl | hp
      · exact Nat.le_trans (Nat.le_max_right _ _) (le_reachOf _ _)
      · exact ih _ hp

theorem readIterator_at (hr : (f.recordAt p).isSome) :
    (readIterator p false).run f h = ⟨.ok (iteratorAt f p), h, []⟩ := by
  obtain ⟨r, hr⟩ := Option.isSome_iff_exists.mp hr
  simp [readIterator_run, hr, iteratorAt_some hr]

theorem readIterator_cases (f : File) (h : Handle) (p : ℕ) :
    (∃ e, (readIterator p false).run f h = ⟨.error e, h, []⟩) ∨
      (readIterator p false).run f h = ⟨.ok (iteratorAt f p), h, []⟩ := by
  cases hr : f.recordAt p with
  | none =>
      rw [iteratorAt, hr]
      exact readIterator_none hr
  | some r => exact .inr (readIterator_at (hr ▸ rfl))

theorem visits_first (hv : visits f last fuel p = some ps) :
    (f.recordAt p).isSome := by
  cases fuel with
  | zero => cases hv
  | succ fuel =>
      obtain ⟨r, hr, -⟩ := Option.bind_eq_some_iff.mp hv
      rw [hr]
      rfl

theorem checkElements_visits (now k : ℤ)
    (hv : visits f h.limits.next fuel p = some ps) :
    (checkElements now k f.getEnd fuel (iteratorAt f p) m n).run f h =
      (checkLast now k (iteratorAt f h.limits.next) (reachOf f m ps)
        (n + ps.length) f.getEnd).run f h := by
  induction fuel generalizing p m n ps with
  | zero => cases hv
  | succ fuel ih =>
      obtain ⟨r, hr, hv⟩ := Option.bind_eq_some_iff.mp hv
      have hend : recordEnd f p = p + calculateDataSize r.data.length := by
        rw [recordEnd, hr]
        rfl
      split at hv
      · next hp =>
          obtain rfl := Option.some.inj hv
          subst hp
          simp [checkElements, iteratorAt_some hr, hr, reachOf, hend]
      · next hp =>
          obtain ⟨qs, hqs, rfl⟩ := Option.map_eq_some_iff.mp hv
          have hnext := visits_first hqs
          have hb := recordAt_bounds hnext
          have hstop : ¬ (r.links.next < headerSize ∨
              f.getEnd ≤ r.links.next) := by omega
          simp only [checkElements, iteratorAt_some hr, Prog.bind_run,
            Prog.store_run, Prog.priv_run, Prog.resume_ok, Store.applyAll_nil,
            hr, hp, hstop, if_false, readIterator_at hnext, ih hqs,
            Prog.after_nil, reachOf, hend, List.length_cons]
          rw [Nat.add_assoc n, Nat.add_comm 1]

theorem checkElements_error (now k : ℤ)
    (hv : visits f h.limits.next fuel p = none) :
    ∃ e, (checkElements now k f.getEnd fuel (iteratorAt f p) m n).run f h =
      ⟨.error e, h, []⟩ := by
  induction fuel generalizing p m n with
  | zero => exact ⟨.unfinished, by simp [checkElements]⟩
  | succ fuel ih =>
      cases hr : f.recordAt p with
      | none =>
          have hit : (iteratorAt f p).current = p := by
            rw [iteratorAt, hr]
            rfl
          exact ⟨.unavailablePosition, by simp [checkElements, hit, hr]⟩
      | some r =>
          rw [visits, hr, Option.bind_some] at hv
          split at hv
          · cases hv
          · next hp =>
              have hv := Option.map_eq_none_iff.mp hv
              by_cases hstop : r.links.next < headerSize ∨
                  f.getEnd ≤ r.links.next
              · exact ⟨.unavailablePosition, by
                  simp [checkElements, iteratorAt_some hr, hr, hp, hstop]⟩
              · rcases readIterator_cases f h r.links.next with
                  ⟨e, hread⟩ | hread
                · exact ⟨e, by simp [checkElements, iteratorAt_some hr, hr, hp,
                    hstop, hread]⟩
                · obtain ⟨e, hrest⟩ := ih (m := max m
                    (p + calculateDataSize r.data.length)) (n := n + 1) hv
                  exact ⟨e, by simp [checkElements, iteratorAt_some hr, hr, hp,
                    hstop, hread, hrest]⟩

/-- The walk ends well where it has writes. -/
theorem checkConsistency_walk (now k : ℤ) (hlim : f.limits = some h.limits)
    (hw : walkWrites k f = some ws) :
    ∃ h', (checkConsistency now k).run f h = ⟨.ok (), h', ws⟩ := by
  rw [walkWrites, hlim, Option.bind_some] at hw
  obtain ⟨ps, hv, rfl⟩ := Option.map_eq_some_iff.mp hw
  have hfirst := visits_first hv
  obtain ⟨hlast, hmem⟩ := visits_last hv
  obtain ⟨r, hr⟩ := Option.isSome_iff_exists.mp hlast
  have hwalk := checkElements_visits (h := { h with size := f.size.getD 0 })
    (m := 0) (n := 0) now k hv
  have hreach : h.limits.next + calculateDataSize r.data.length ≤
      reachOf f 0 ps := by
    have hle := recordEnd_le_reachOf (f := f) 0 hmem
    rwa [recordEnd, hr] at hle
  rw [iteratorAt_some hr] at hwalk
  refine ⟨if ps.length ≠ f.size.getD 0 ∧
    isAllowable k ((ps.length : ℤ) - (f.size.getD 0 : ℕ)) then
      { h with size := ps.length } else { h with size := f.size.getD 0 }, ?_⟩
  simp only [checkConsistency, getEnd, readSize, setSize, Prog.bind_run,
    Prog.store_run, Prog.priv_run, Prog.modify_run, Prog.resume_ok,
    Store.applyAll_nil, Prog.after_nil, Prog.pure_run, readIterator_at hfirst,
    hwalk, checkLast_run hr hreach, walkLog, iteratorAt_some hr, Nat.zero_add]

theorem walkWrites_of_run (hlim : f.limits = some h.limits)
    (hrun : (checkConsistency now k).run f h = ⟨.ok (), h', ws⟩) :
    walkWrites k f = some ws := by
  cases hw : walkWrites k f with
  | some vs =>
      obtain ⟨h₁, hrun₁⟩ := checkConsistency_walk now k hlim hw
      rw [hrun, Outcome.mk.injEq] at hrun₁
      rw [hrun₁.2.2]
  | none =>
      rw [walkWrites, hlim, Option.bind_some] at hw
      have hv := Option.map_eq_none_iff.mp hw
      obtain ⟨e, herror⟩ := checkElements_error (m := 0) (n := 0)
        (h := { h with size := f.size.getD 0 }) now k hv
      rcases readIterator_cases f { h with size := f.size.getD 0 }
          h.limits.prev with ⟨e', hread⟩ | hread
      · simp [checkConsistency, readSize, hread] at hrun
      · simp [checkConsistency, readSize, hread, herror] at hrun

end

/-! ## The whole recovery -/

section
variable {f g : File} {h : Handle} {L : List Entry} {now k : ℤ}
  {s : FileStatus} {steps : List UndoStep} {us ws : List Write}

theorem follow_congr (hrec : ∀ p, g.recordAt p = f.recordAt p)
    (link : Links → ℕ) (fuel p : ℕ) :
    follow link g fuel p = follow link f fuel p := by
  induction fuel generalizing p with
  | zero => rfl
  | succ fuel ih =>
      rw [follow, follow, hrec]
      cases f.recordAt p with
      | none => rfl
      | some r => simp only [ih]

theorem represents_of_same (hl : g.limits = f.limits) (hext : g.extent = f.extent)
    (hrec : ∀ p, g.recordAt p = f.recordAt p) (hsize : g.size = f.size)
    (hf : Represents f L) : Represents g L where
  limits := hl.trans hf.limits
  forwards := by
    intro fuel hfuel
    rw [follow_congr hrec]
    exact hf.forwards fuel (hext ▸ hfuel)
  backwards := by
    intro fuel hfuel
    rw [follow_congr hrec]
    exact hf.backwards fuel (hext ▸ hfuel)
  first := by
    intro e he
    rw [hrec]
    exact hf.first e he
  last := by
    intro e he
    have hend : g.getEnd = f.getEnd := congrArg (headerSize + ·) hext
    rw [hrec, hend]
    exact hf.last e he
  size := hsize.trans hf.size

theorem represents_status (s : FileStatus) :
    Represents (f.apply (.status s)) L ↔ Represents f L :=
  ⟨represents_of_same rfl rfl (fun _ => rfl) rfl,
    represents_of_same rfl rfl (fun _ => rfl) rfl⟩

theorem initContainer_writes (now : ℤ) (hs : f.status = some s)
    (hplan : undoPlan s = some (steps, k)) (hl : f.limits.isSome)
    (hr : f.removed.isSome) (hus : undoWrites steps f = some us)
    (hws : walkWrites k (Store.applyAll f us) = some ws) :
    ∃ h', (initContainer now).run f (fresh now) =
      ⟨.ok (), h', us ++ ws ++ [.status .closed]⟩ := by
  have hclosed : s ≠ .closed := by
    rintro rfl
    cases hplan
  obtain ⟨l, hl'⟩ := Option.isSome_iff_exists.mp hl
  have hlim : f.limits = some (headerRead f (fresh now)).limits := by
    simp [headerRead, hl']
  obtain ⟨h₁, hsteps, hlim₁⟩ := undoAll_run now hlim hus
  obtain ⟨h₂, hcheck⟩ := checkConsistency_walk now k hlim₁ hws
  have hrun := initContainer_run (h := fresh now) now hl hr hs
  simp [hclosed, recover, recoverFrom_plan hplan, hsteps, hcheck] at hrun
  refine ⟨{ h₂ with initialized := true }, ?_⟩
  rw [hrun, List.append_assoc]

/-- The next handle finds the list where the plan and the walk have their writes
and the list is there after them. -/
theorem restored_iff_writes (now : ℤ) (hs : f.status = some s)
    (hplan : undoPlan s = some (steps, k)) (hl : f.limits.isSome)
    (hr : f.removed.isSome) :
    Restored now f L ↔ ∃ us ws, undoWrites steps f = some us ∧
      walkWrites k (Store.applyAll f us) = some ws ∧
      Represents (Store.applyAll f (us ++ ws)) L := by
  constructor
  · intro hrest
    obtain ⟨h, hlim, hundo⟩ := undo_of_restored hs hplan hl hr hrest
    obtain ⟨us, hus⟩ := undoWrites_of_wp now hlim hundo
    obtain ⟨h, hlim, hcheck⟩ := check_of_restored hs hplan hl hr hrest
    obtain ⟨h₁, hsteps, hlim₁⟩ := undoAll_run now hlim hus
    obtain ⟨⟨⟩, h₂, ws, hwalk, -⟩ := (Prog.wp_iff_of_run hsteps).mp hcheck
    have hws := walkWrites_of_run hlim₁ hwalk
    obtain ⟨h', hrun⟩ := initContainer_writes now hs hplan hl hr hus hws
    obtain ⟨-, hrep⟩ := (Prog.wp_iff_of_run hrun).mp hrest
    rw [Store.applyAll_append] at hrep
    exact ⟨us, ws, hus, hws, (represents_status .closed).mp hrep⟩
  · rintro ⟨us, ws, hus, hws, hrep⟩
    obtain ⟨h', hrun⟩ := initContainer_writes now hs hplan hl hr hus hws
    refine Prog.wp_of_run hrun ?_
    rw [Store.applyAll_append]
    exact ⟨rfl, (represents_status .closed).mpr hrep⟩

end

end Wms.Jobsubmission.FileContainer
