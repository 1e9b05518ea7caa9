import Wms.Proofs.FileRecovery

/-!
# The plan of a recovery

For every status that a change leaves, but for those of a file that is cut to
begin it anew, a recovery is a list of steps, each of which puts back one thing,
and the walk through the list. The cases of the switch that fall through to
others share the end of their lists.
-/

namespace Wms.Jobsubmission.FileContainer

open Wms.Lib

/-- The steps that a recovery is made of. -/
inductive UndoStep where
  | iterator (what : Fin 4)
  | limits
  | cutAtNext
  | cutAtPrev
  | cutAtNew
  | unerase
  deriving DecidableEq, Repr

/-- What each of them does. -/
def UndoStep.run (now : ℤ) : UndoStep → FileProg Unit
  | .iterator what => restoreIterator what
  | .limits => restoreLimits
  | .cutAtNext => do
      let limits ← readInitialPosition
      truncateFile now limits.next
  | .cutAtPrev => do
      let limits ← readInitialPosition
      truncateFile now limits.prev
  | .cutAtNew => truncateAtNew now
  | .unerase => FileContainer.unerase

/-- Some of them one after another. -/
def undoAll (now : ℤ) : List UndoStep → FileProg Unit
  | [] => pure ()
  | step :: steps => do
      step.run now
      undoAll now steps

/-- The steps, and the difference of the size that the walk puts right. -/
def undoPlan : FileStatus → Option (List UndoStep × ℤ)
  | .aeWriting | .aeWritten => some ([.cutAtNext, .limits, .iterator 0], 1)
  | .aeLimits => some ([.limits, .iterator 0], 1)
  | .aeIterator => some ([.iterator 0], 1)
  | .abLast => some ([.iterator 2, .cutAtPrev, .limits, .iterator 0], 1)
  | .abWriting | .abWritten => some ([.cutAtPrev, .limits, .iterator 0], 1)
  | .abLimits => some ([.limits, .iterator 0], 1)
  | .abIterator => some ([.iterator 0], 1)
  | .amLast => some ([.iterator 2, .cutAtNew, .iterator 1, .iterator 0], 1)
  | .amWriting | .amWritten => some ([.cutAtNew, .iterator 1, .iterator 0], 1)
  | .amIterator2 => some ([.iterator 1, .iterator 0], 1)
  | .amIterator1 => some ([.iterator 0], 1)
  | .adEmpty => some ([], 1)
  | .rdMark1 => some ([.unerase, .iterator 0, .limits], -1)
  | .rdIterator => some ([.iterator 0, .limits], -1)
  | .rdLimits => some ([.limits], -1)
  | .rdMark2 => some ([.unerase, .iterator 1, .iterator 0], -1)
  | .rdIterator3 => some ([.iterator 1, .iterator 0], -1)
  | .rdIterator2 => some ([.iterator 0], -1)
  | .rdEmpty => some ([], -1)
  | .closed | .empty | .opened | .ftBegin | .ftEnd => none

section
variable {g : File} {h h' : Handle} {now k : ℤ} {s : FileStatus}
  {step : UndoStep} {steps : List UndoStep} {w : List Write}
  {limits : Links} {it : FileIterator}

theorem recoverFrom_plan (hplan : undoPlan s = some (steps, k)) :
    recoverFrom now s = undoAll now steps >>= fun _ => checkConsistency now k := by
  cases s <;> simp only [undoPlan, Option.some.injEq, Prod.mk.injEq,
    reduceCtorEq] at hplan <;> obtain ⟨rfl, rfl⟩ := hplan <;>
    simp only [recoverFrom, undoAll, UndoStep.run, Prog.bind_assoc,
      Prog.pure_bind]

/-! ## The rules of the steps -/

section
variable {Q : Unit → File → Handle → Prop}

theorem wp_undoAll_nil : Prog.wp (undoAll now []) Q g h ↔ Q () g h :=
  Prog.wp_iff_of_run (Prog.pure_run () g h)

theorem wp_undoAll_cons (hstep : (step.run now).run g h = ⟨.ok (), h', w⟩) :
    Prog.wp (undoAll now (step :: steps)) Q g h ↔
      Prog.wp (undoAll now steps) Q (Store.applyAll g w) h' :=
  Prog.wp_bind.trans (Prog.wp_iff_of_run hstep)

theorem wp_iterator {what : Fin 4} (hslot : g.iteratorBackup what = some it)
    (hr : (g.recordAt it.current).isSome) :
    Prog.wp (undoAll now (.iterator what :: steps)) Q g h ↔
      Prog.wp (undoAll now steps) Q
        (g.apply (.iterator it.current it.links)) h := by
  refine wp_undoAll_cons (w := [.iterator it.current it.links]) ?_
  simp [UndoStep.run, restoreIterator, readIteratorBackup, hslot,
    writeIterator_run hr]

/-- An emptied slot is written over the beginning of the file. -/
theorem wp_emptyIterator {what : Fin 4}
    (hslot : g.iteratorBackup what = some ⟨0, 0, 0⟩) :
    Prog.wp (undoAll now (.iterator what :: steps)) Q g h ↔
      Prog.wp (undoAll now steps) Q (g.apply .overwriteStart) h := by
  refine wp_undoAll_cons (w := [.overwriteStart]) ?_
  have hpos : 0 < g.getEnd :=
    Nat.lt_of_lt_of_le headerSize_pos (Nat.le_add_right _ _)
  have hlow : ¬ headerSize ≤ 0 := Nat.not_le_of_lt headerSize_pos
  simp [UndoStep.run, restoreIterator, readIteratorBackup, hslot, writeIterator,
    hpos, File.recordAt, hlow]

theorem wp_limits (hlim : g.limitsBackup = some limits) :
    Prog.wp (undoAll now (.limits :: steps)) Q g h ↔
      Prog.wp (undoAll now steps) Q (g.apply (.limits limits))
        { h with limits := limits } := by
  refine wp_undoAll_cons (w := [.limits limits]) ?_
  simp [UndoStep.run, restoreLimits, readLimitsBackup, hlim]

/-- The file after it was cut. -/
def File.cut (f : File) (n : ℕ) : File :=
  (f.apply (.truncate n)).apply (.status .ftEnd)

theorem wp_cutAtNext (hlim : g.limits = some limits)
    (hlow : headerSize ≤ limits.next) :
    Prog.wp (undoAll now (.cutAtNext :: steps)) Q g h ↔
      Prog.wp (undoAll now steps) Q (g.cut limits.next) h := by
  refine wp_undoAll_cons (w := [.truncate limits.next, .status .ftEnd]) ?_
  simp [UndoStep.run, readInitialPosition, hlim, truncateFile_run hlow]

theorem wp_cutAtPrev (hlim : g.limits = some limits)
    (hlow : headerSize ≤ limits.prev) :
    Prog.wp (undoAll now (.cutAtPrev :: steps)) Q g h ↔
      Prog.wp (undoAll now steps) Q (g.cut limits.prev) h := by
  refine wp_undoAll_cons (w := [.truncate limits.prev, .status .ftEnd]) ?_
  simp [UndoStep.run, readInitialPosition, hlim, truncateFile_run hlow]

theorem wp_cutAtNew {r : Record} (hslot : g.iteratorBackup 0 = some it)
    (hr : g.recordAt it.current = some r) (hlow : headerSize ≤ r.links.prev) :
    Prog.wp (undoAll now (.cutAtNew :: steps)) Q g h ↔
      Prog.wp (undoAll now steps) Q (g.cut r.links.prev) h := by
  refine wp_undoAll_cons (w := [.truncate r.links.prev, .status .ftEnd]) ?_
  simp [UndoStep.run, truncateAtNew, readIteratorBackup, hslot,
    readIterator_run, hr, truncateFile_run hlow]

theorem wp_unerase (hslot : g.iteratorBackup 2 = some it)
    (hr : (g.recordAt it.current).isSome) :
    Prog.wp (undoAll now (.unerase :: steps)) Q g h ↔
      Prog.wp (undoAll now steps) Q
        (g.apply (.dataHeader it.current it.links true)) h := by
  refine wp_undoAll_cons (w := [.dataHeader it.current it.links true]) ?_
  obtain ⟨r, hr⟩ := Option.isSome_iff_exists.mp hr
  simp [UndoStep.run, unerase, readIteratorBackup, hslot, markDataAsUnerased,
    readSizeAndState, hr]

end

end

end Wms.Jobsubmission.FileContainer
