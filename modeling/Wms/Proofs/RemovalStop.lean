import Wms.Proofs.InsertionStop

/-!
# A stop in a removal

A removal is undone like an insertion, but for that of the only record: there
the file is cut first and the header follows, and between the two nothing says
what the list was.
-/

namespace Wms.Jobsubmission.FileContainer

open Wms.Lib

/-! ## The plans of a removal -/

section
variable {f g : File} {L : List Entry} {now k : ℤ} {s : FileStatus}
  {it it₁ it₂ : FileIterator}

theorem restored_limitsOnly (hw : WellFormed f L) (hne : L ≠ [])
    (hd : Disturbed f L [] [] g) (hs : g.status = some s)
    (hplan : undoPlan s = some ([.limits], k)) (hend : g.getEnd = f.getEnd)
    (hl : g.limits.isSome) (hlim : g.limitsBackup = some (limitsOf L)) :
    Restored now g L := by
  refine restored_of_whole hw hne hd hs hplan hl fun h _ =>
    (wp_limits hlim).mpr (wp_undoAll_nil.mpr ⟨?_, hd.size, rfl⟩)
  exact sound_of_disturbed hw.toSound
    (disturbed_apply (w := .limits _) hd trivial) hend rfl

/-- The limits are put back after the neighbour. -/
theorem wp_iteratorThenLimits {h : Handle} (hs : Sound f L)
    (hd : Disturbed f L [it.current] [] g) (hsaves : Saves f L it)
    (hslot : g.iteratorBackup 0 = some it) (hend : g.getEnd = f.getEnd)
    (hlim : g.limitsBackup = some (limitsOf L)) :
    Prog.wp (undoAll now [.iterator 0, .limits]) (Whole f L) g h := by
  have hd' := disturbed_apply (w := .limits (limitsOf L))
    (disturbed_saved hd hsaves) trivial
  refine (wp_iterator hslot (disturbed_record hd hsaves.1)).mpr ?_
  refine (wp_limits (g := g.apply (.iterator it.current it.links)) hlim).mpr ?_
  exact wp_undoAll_nil.mpr ⟨sound_of_disturbed hs hd' hend rfl, hd'.size, rfl⟩

theorem restored_iteratorThenLimits (hw : WellFormed f L) (hne : L ≠ [])
    (hd : Disturbed f L [it.current] [] g) (hsaves : Saves f L it)
    (hslot : g.iteratorBackup 0 = some it) (hs : g.status = some s)
    (hplan : undoPlan s = some ([.iterator 0, .limits], k))
    (hend : g.getEnd = f.getEnd) (hl : g.limits.isSome)
    (hlim : g.limitsBackup = some (limitsOf L)) : Restored now g L :=
  restored_of_whole hw hne hd hs hplan hl fun _ _ =>
    wp_iteratorThenLimits hw.toSound hd hsaves hslot hend hlim

theorem disturbed_marked {P Q : List ℕ} (hs : Sound f L)
    (hd : Disturbed f L (it.current :: P) (it.current :: Q) g)
    (hsaves : Saves f L it) :
    Disturbed f L P Q (g.apply (.dataHeader it.current it.links true)) := by
  obtain ⟨hmem, r, hr, hl⟩ := hsaves
  obtain ⟨e, he, hpos⟩ := List.mem_map.mp hmem
  obtain ⟨r', hr', -, hgood⟩ := linked_record hs.linked he
  rw [hpos, hr, Option.some.injEq] at hr'
  exact disturbed_unerase hd hr hl (hr' ▸ hgood)

theorem restored_marked₁ (hw : WellFormed f L) (hne : L ≠ [])
    (hd : Disturbed f L [it₂.current, it.current] [it₂.current] g)
    (hsaves₂ : Saves f L it₂) (hsaves : Saves f L it)
    (hslot₂ : g.iteratorBackup 2 = some it₂)
    (hslot : g.iteratorBackup 0 = some it) (hs : g.status = some s)
    (hplan : undoPlan s = some ([.unerase, .iterator 0, .limits], k))
    (hend : g.getEnd = f.getEnd) (hl : g.limits.isSome)
    (hlim : g.limitsBackup = some (limitsOf L)) : Restored now g L :=
  restored_of_whole hw hne hd hs hplan hl fun _ _ =>
    (wp_unerase hslot₂ (disturbed_record hd hsaves₂.1)).mpr
      (wp_iteratorThenLimits hw.toSound (disturbed_marked hw.toSound hd hsaves₂)
        hsaves hslot hend hlim)

theorem restored_marked₂ (hw : WellFormed f L) (hne : L ≠ [])
    (hd : Disturbed f L [it₂.current, it₁.current, it.current] [it₂.current] g)
    (hsaves₂ : Saves f L it₂) (hsaves₁ : Saves f L it₁) (hsaves : Saves f L it)
    (hslot₂ : g.iteratorBackup 2 = some it₂)
    (hslot₁ : g.iteratorBackup 1 = some it₁)
    (hslot : g.iteratorBackup 0 = some it) (hs : g.status = some s)
    (hplan : undoPlan s = some ([.unerase, .iterator 1, .iterator 0], k))
    (hend : g.getEnd = f.getEnd) (hlim : g.limits = f.limits) :
    Restored now g L := by
  rw [hw.limits] at hlim
  refine restored_of_whole hw hne hd hs hplan (hlim ▸ rfl) fun h hh => ?_
  rw [hlim, Option.some.injEq] at hh
  exact (wp_unerase hslot₂ (disturbed_record hd hsaves₂.1)).mpr
    (wp_twoIterators hw.toSound (disturbed_marked hw.toSound hd hsaves₂)
      hsaves₁ hsaves hslot₁ hslot hend hlim hh.symm)

end

/-! ## The stops in the forms that mark the record -/

/-- The copy of the record that is marked is there. -/
def MarkSaved (g : File) : Prop :=
  g.iteratorBackup 2 = some ⟨0, 0, 0⟩ →
    g.status ≠ some .rdMark1 ∧ g.status ≠ some .rdMark2

section
variable {f g : File} {now : ℤ} {L : List Entry} {it : FileIterator}
  {s : FileStatus} {k l m limits' : Links}

theorem markSaved_of_status (hs : g.status = some s) (h₁ : s ≠ .rdMark1)
    (h₂ : s ≠ .rdMark2) : MarkSaved g := by
  rintro -
  rw [hs, ne_eq, ne_eq, Option.some.injEq, Option.some.injEq]
  exact ⟨h₁, h₂⟩

theorem markSaved_of_slot (hslot : g.iteratorBackup 2 = some it)
    (hit : it.current ≠ 0) : MarkSaved g := by
  rintro hzero
  rw [hslot, Option.some.injEq] at hzero
  exact absurd (congrArg FileIterator.current hzero) hit

theorem stop_atLimit {n : ℕ} (hw : WellFormed f L) (hne : L ≠ [])
    (ho : f.status = some .opened) (hit : it.current ≠ 0)
    (hsaves : Saves f L ⟨l.prev, l.next, n⟩) (hsaves₂ : Saves f L it) :
    ∀ g ∈ Store.stops f (logAtLimit (limitsOf L) limits' it n l m),
      Restored now g L ∧ MarkSaved g := by
  let cutting : List Write :=
    [.limitsBackup (limitsOf L), .status .rdLimits, .limits limits',
      .iteratorBackup 0 ⟨l.prev, l.next, n⟩]
  let linking : List Write :=
    [.status .rdIterator, .iterator n m, .iteratorBackup 2 it]
  let marking : List Write :=
    [.status .rdMark1, .dataHeader it.current ⟨it.prev, it.next⟩ false]
  have hcut : ∀ g ∈ Store.stops f cutting, Restored now g L ∧ MarkSaved g := by
    intro g hg
    have hd : Disturbed f L [] [] g := by
      refine disturbed_stops (disturbed_self _ _ hw.toSound) ?_ g hg
      simp [cutting, Write.Disturbs]
    simp only [cutting, Store.mem_stops_cons, Store.mem_stops_nil, store_apply]
      at hg
    rcases hg with rfl | rfl | rfl | rfl | rfl
    · exact ⟨restored_noUndo hw (.inl ho),
        markSaved_of_status ho (by decide) (by decide)⟩
    · refine ⟨restored_noUndo ⟨?_, hw.size⟩ (.inl ho),
        markSaved_of_status ho (by decide) (by decide)⟩
      exact sound_aside _ hw.toSound trivial
    · exact ⟨restored_limitsOnly hw hne hd rfl rfl (by simp) (hw.limits ▸ rfl)
        rfl, markSaved_of_status rfl (by decide) (by decide)⟩
    · exact ⟨restored_limitsOnly hw hne hd rfl rfl (by simp) rfl rfl,
        markSaved_of_status rfl (by decide) (by decide)⟩
    · exact ⟨restored_limitsOnly hw hne hd rfl rfl (by simp) rfl rfl,
        markSaved_of_status rfl (by decide) (by decide)⟩
  have hlinked : ∀ g ∈ Store.stops f (cutting ++ linking),
      Restored now g L ∧ MarkSaved g := by
    intro g hg
    have hd : Disturbed f L [n] [] g := by
      refine disturbed_stops (disturbed_self _ _ hw.toSound) ?_ g hg
      simp [cutting, linking, Write.Disturbs]
    rcases Store.mem_stops_append.mp hg with hg | hg
    · exact hcut g hg
    · have hlast := hcut _ (Store.applyAll_mem_stops f cutting)
      simp only [linking, Store.mem_stops_cons, Store.mem_stops_nil,
        store_apply] at hg
      rcases hg with rfl | rfl | rfl | rfl
      · exact hlast
      · exact ⟨restored_iteratorThenLimits hw hne hd hsaves rfl rfl rfl
          (by simp [cutting]) rfl rfl,
          markSaved_of_status rfl (by decide) (by decide)⟩
      · exact ⟨restored_iteratorThenLimits hw hne hd hsaves rfl rfl rfl
          (by simp [cutting]) rfl rfl,
          markSaved_of_status rfl (by decide) (by decide)⟩
      · exact ⟨restored_iteratorThenLimits hw hne hd hsaves rfl rfl rfl
          (by simp [cutting]) rfl rfl,
          markSaved_of_status rfl (by decide) (by decide)⟩
  intro g hg
  change g ∈ Store.stops f (cutting ++ linking ++ marking) at hg
  have hd : Disturbed f L [it.current, n] [it.current] g := by
    refine disturbed_stops (disturbed_self _ _ hw.toSound) ?_ g hg
    simp [cutting, linking, marking, Write.Disturbs]
  rcases Store.mem_stops_append.mp hg with hg | hg
  · exact hlinked g hg
  · have hlast := hlinked _ (Store.applyAll_mem_stops f (cutting ++ linking))
    simp only [marking, Store.mem_stops_cons, Store.mem_stops_nil, store_apply]
      at hg
    rcases hg with rfl | rfl | rfl
    · exact hlast
    · exact ⟨restored_marked₁ hw hne hd hsaves₂ hsaves rfl rfl rfl rfl
        (by simp [cutting, linking]) rfl rfl, markSaved_of_slot rfl hit⟩
    · exact ⟨restored_marked₁ hw hne hd hsaves₂ hsaves rfl rfl rfl rfl
        (by simp [cutting, linking]) rfl rfl, markSaved_of_slot rfl hit⟩

theorem stop_between {b n w : ℕ} (hw : WellFormed f L) (hne : L ≠ [])
    (ho : f.status = some .opened) (hpos : w ≠ 0)
    (hsaves : Saves f L ⟨l.prev, l.next, n⟩)
    (hsaves₁ : Saves f L ⟨k.prev, k.next, b⟩) (hsaves₂ : Saves f L ⟨b, n, w⟩) :
    ∀ g ∈ Store.stops f (logBetween ⟨b, n, w⟩ k l),
      Restored now g L ∧ MarkSaved g := by
  let saving : List Write :=
    [.iteratorBackup 0 ⟨l.prev, l.next, n⟩, .status .rdIterator2,
      .iteratorBackup 1 ⟨k.prev, k.next, b⟩]
  let linking : List Write :=
    [.status .rdIterator3, .iterator n ⟨b, l.next⟩, .iterator b ⟨k.prev, n⟩,
      .iteratorBackup 2 ⟨b, n, w⟩]
  let marking : List Write :=
    [.status .rdMark2, .dataHeader w ⟨b, n⟩ false]
  have hsaved : ∀ g ∈ Store.stops f saving, Restored now g L ∧ MarkSaved g := by
    intro g hg
    have hd : Disturbed f L [n] [] g := by
      refine disturbed_stops (disturbed_self _ _ hw.toSound) ?_ g hg
      simp [saving, Write.Disturbs]
    simp only [saving, Store.mem_stops_cons, Store.mem_stops_nil, store_apply]
      at hg
    rcases hg with rfl | rfl | rfl | rfl
    · exact ⟨restored_noUndo hw (.inl ho),
        markSaved_of_status ho (by decide) (by decide)⟩
    · exact ⟨restored_noUndo (wellFormed_backup hw) (.inl ho),
        markSaved_of_status ho (by decide) (by decide)⟩
    · exact ⟨restored_iterator hw hne hd hsaves rfl rfl rfl (by simp)
        (by simp [File.apply]), markSaved_of_status rfl (by decide) (by decide)⟩
    · exact ⟨restored_iterator hw hne hd hsaves rfl rfl rfl (by simp)
        (by simp [File.apply]), markSaved_of_status rfl (by decide) (by decide)⟩
  have hlinked : ∀ g ∈ Store.stops f (saving ++ linking),
      Restored now g L ∧ MarkSaved g := by
    intro g hg
    have hd : Disturbed f L [b, n] [] g := by
      refine disturbed_stops (disturbed_self _ _ hw.toSound) ?_ g hg
      simp [saving, linking, Write.Disturbs]
    rcases Store.mem_stops_append.mp hg with hg | hg
    · exact hsaved g hg
    · have hlast := hsaved _ (Store.applyAll_mem_stops f saving)
      simp only [linking, Store.mem_stops_cons, Store.mem_stops_nil,
        store_apply] at hg
      rcases hg with rfl | rfl | rfl | rfl | rfl
      · exact hlast
      · exact ⟨restored_twoIterators hw hne hd hsaves₁ hsaves rfl rfl rfl rfl
          (by simp [saving]) (by simp [saving, File.apply]),
          markSaved_of_status rfl (by decide) (by decide)⟩
      · exact ⟨restored_twoIterators hw hne hd hsaves₁ hsaves rfl rfl rfl rfl
          (by simp [saving]) (by simp [saving, File.apply]),
          markSaved_of_status rfl (by decide) (by decide)⟩
      · exact ⟨restored_twoIterators hw hne hd hsaves₁ hsaves rfl rfl rfl rfl
          (by simp [saving]) (by simp [saving, File.apply]),
          markSaved_of_status rfl (by decide) (by decide)⟩
      · exact ⟨restored_twoIterators hw hne hd hsaves₁ hsaves rfl rfl rfl rfl
          (by simp [saving]) (by simp [saving, File.apply]),
          markSaved_of_status rfl (by decide) (by decide)⟩
  intro g hg
  change g ∈ Store.stops f (saving ++ linking ++ marking) at hg
  have hd : Disturbed f L [w, b, n] [w] g := by
    refine disturbed_stops (disturbed_self _ _ hw.toSound) ?_ g hg
    simp [saving, linking, marking, Write.Disturbs]
  rcases Store.mem_stops_append.mp hg with hg | hg
  · exact hlinked g hg
  · have hlast := hlinked _ (Store.applyAll_mem_stops f (saving ++ linking))
    simp only [marking, Store.mem_stops_cons, Store.mem_stops_nil, store_apply]
      at hg
    rcases hg with rfl | rfl | rfl
    · exact hlast
    · exact ⟨restored_marked₂ hw hne hd hsaves₂ hsaves₁ hsaves rfl rfl rfl rfl
        rfl (by simp [saving, linking]) (by simp [saving, linking, File.apply]),
        markSaved_of_slot rfl hpos⟩
    · exact ⟨restored_marked₂ hw hne hd hsaves₂ hsaves₁ hsaves rfl rfl rfl rfl
        rfl (by simp [saving, linking]) (by simp [saving, linking, File.apply]),
        markSaved_of_slot rfl hpos⟩

end

/-! ## The only record -/

section
variable {f g : File} {L : List Entry} {now k : ℤ} {w : ℕ} {c : Text}
  {s : FileStatus} {steps : List UndoStep}

/-- A file that was cut behind the header, with a size that counts records. -/
structure CutAway (g : File) : Prop where
  limits : g.limits.isSome
  removed : g.removed.isSome
  extent : g.extent = 0
  size : ∃ n, g.size = some (n + 1)

theorem not_represents_cutAway (hext : g.extent = 0)
    (hsize : ∃ n, g.size = some (n + 1)) : ¬ Represents g L := by
  intro hrep
  have hwalk := hrep.forwards 1 (hext ▸ Nat.zero_lt_one)
  rw [follow_none (recordAt_bare hext _)] at hwalk
  obtain ⟨n, hn⟩ := hsize
  rw [hrep.size, ← hwalk] at hn
  cases hn

theorem not_restored_ended (hg : CutAway g) (hs : g.status = some .ftEnd) :
    ¬ Restored now g L := by
  rintro ⟨⟨⟩, h', ws, hrun, -, hrep⟩
  rw [initContainer_run now hg.limits hg.removed hs] at hrun
  simp [recover, recoverFrom] at hrun
  rw [← hrun.2] at hrep
  refine not_represents_cutAway ?_ ?_ hrep
  · exact hg.extent
  · exact hg.size

theorem not_restored_begun (hl : g.limits.isSome) (hr : g.removed.isSome)
    (hslot : g.iteratorBackup 0 = some ⟨headerSize, headerSize, headerSize⟩)
    (hsize : ∃ n, g.size = some (n + 1)) (hs : g.status = some .ftBegin) :
    ¬ Restored now g L := by
  rintro ⟨⟨⟩, h', ws, hrun, -, hrep⟩
  rw [initContainer_run now hl hr hs] at hrun
  simp [recover, recoverFrom, readIteratorBackup, hslot,
    truncateFile_run (Nat.le_refl headerSize)] at hrun
  rw [← hrun.2] at hrep
  refine not_represents_cutAway ?_ ?_ hrep
  · simp [File.apply, headerSize]
  · exact hsize

/-- There is no record for the walk to begin at. -/
theorem not_restored_bare (hl : g.limits.isSome) (hr : g.removed.isSome)
    (hext : g.extent = 0) (hs : g.status = some s)
    (hplan : undoPlan s = some ([], k)) : ¬ Restored now g L := by
  intro hrest
  obtain ⟨h, -, hundo⟩ := undo_of_restored hs hplan hl hr hrest
  rw [wp_undoAll_nil, recordAt_bare hext] at hundo
  exact Bool.false_ne_true hundo

/-- The slots have been emptied, and the status still asks for the record that
was marked. -/
theorem not_restored_unmarked (hslot : g.iteratorBackup 2 = some ⟨0, 0, 0⟩)
    (hs : g.status = some .rdMark1 ∨ g.status = some .rdMark2)
    (hl : g.limits.isSome) (hr : g.removed.isSome) : ¬ Restored now g L := by
  have hfails : ∀ h : Handle, (UndoStep.unerase.run now).run g h =
      ⟨.error .syntaxError, h, []⟩ := by
    intro h
    simp [UndoStep.run, unerase, readIteratorBackup, hslot, markDataAsUnerased,
      readSizeAndState, recordAt_zero]
  intro hrest
  rcases hs with hs | hs <;>
  · obtain ⟨h, -, hundo⟩ := undo_of_restored hs rfl hl hr hrest
    exact Prog.not_wp_of_error (hfails h) (Prog.wp_bind.mp hundo)

end

/-! ## All stops -/

/-- Where a stop in a removal from `L` can be recovered from. The removal of the
only record cannot be undone or ended from the announcement of the cut on, and
no removal while the slots have been emptied and the status still asks for the
marked record. -/
def RemovalUndoable (L : List Entry) (g : File) : Prop :=
  (L.length = 1 → g.status ≠ some .ftBegin ∧
    (g.extent = 0 → g.status = some .closed)) ∧ MarkSaved g

instance (L : List Entry) (g : File) : Decidable (RemovalUndoable L g) := by
  unfold RemovalUndoable MarkSaved
  infer_instance

section
variable {f g : File} {h : Handle} {L L' : List Entry} {now : ℤ} {w : ℕ}
  {log : List Write}

theorem removalUndoable_idle (hw : WellFormed f L) (hf : Idle f) (hne : L ≠ []) :
    RemovalUndoable L f := by
  have hext : f.extent ≠ 0 := by
    intro hext
    obtain ⟨e, B, rfl⟩ := List.exists_cons_of_ne_nil hne
    obtain ⟨⟨lit, hr⟩, -⟩ := hw.linked
    rw [recordAt_bare hext] at hr
    cases hr
  rcases hf with hf | hf | hf
  · exact ⟨fun _ => ⟨by simp [hf], fun h => absurd h hext⟩,
      markSaved_of_status hf (by decide) (by decide)⟩
  · exact ⟨fun _ => ⟨by simp [hf], fun h => absurd h hext⟩,
      markSaved_of_status hf (by decide) (by decide)⟩
  · exact ⟨fun _ => ⟨by simp [hf], fun h => absurd h hext⟩,
      markSaved_of_status hf (by decide) (by decide)⟩

theorem not_undoable_cutAway {s : FileStatus} (hlen : L.length = 1)
    (hext : g.extent = 0) (hs : g.status = some s) (hne : s ≠ .closed) :
    ¬ RemovalUndoable L g := by
  intro hu
  have hclosed := (hu.1 hlen).2 hext
  rw [hs, Option.some.injEq] at hclosed
  exact hne hclosed

theorem only_stops {c : Text} (hw : WellFormed f [(w, c)])
    (ho : f.status = some .opened) :
    ∀ g ∈ Store.stops f logOnly,
      Restored now g [(w, c)] ∧ RemovalUndoable [(w, c)] g ∨
        (∀ M, ¬ Restored now g M) ∧ ¬ RemovalUndoable [(w, c)] g := by
  have hlim : f.limits.isSome := by
    rw [hw.limits]
    rfl
  have hremoved := hw.complete.removed
  have hsize : ∃ n, f.size = some (n + 1) := ⟨0, hw.size⟩
  have hidle : Idle f := .inr (.inl ho)
  have hw' : WellFormed (f.apply (.iteratorBackup 0
      ⟨headerSize, headerSize, headerSize⟩)) [(w, c)] := wellFormed_backup hw
  intro g hg
  simp only [logOnly, Store.mem_stops_cons, Store.mem_stops_nil, store_apply]
    at hg
  rcases hg with rfl | rfl | rfl | rfl | rfl | rfl | rfl
  · exact .inl ⟨restored_idle hw hidle, removalUndoable_idle hw hidle (by simp)⟩
  · exact .inl ⟨restored_idle hw' hidle, removalUndoable_idle hw' hidle (by simp)⟩
  · refine .inr ⟨fun M => not_restored_begun (by simpa only [File.apply])
      (by simpa only [File.apply]) rfl hsize rfl, ?_⟩
    exact fun hu => (hu.1 rfl).1 rfl
  · refine .inr ⟨fun M => not_restored_begun (by simpa only [File.apply])
      (by simpa only [File.apply]) rfl hsize rfl, ?_⟩
    exact fun hu => (hu.1 rfl).1 rfl
  · exact .inr ⟨fun M => not_restored_ended ⟨by simpa only [File.apply],
      by simpa only [File.apply], by simp [File.apply, headerSize], hsize⟩ rfl,
      not_undoable_cutAway rfl (by simp [File.apply, headerSize]) rfl
        (by decide)⟩
  · exact .inr ⟨fun M => not_restored_ended ⟨rfl,
      by simpa only [File.apply], by simp [File.apply, headerSize], hsize⟩ rfl,
      not_undoable_cutAway rfl (by simp [File.apply, headerSize]) rfl
        (by decide)⟩
  · exact .inr ⟨fun M => not_restored_ended ⟨rfl, rfl,
      by simp [File.apply, headerSize], hsize⟩ rfl,
      not_undoable_cutAway rfl (by simp [File.apply, headerSize]) rfl
        (by decide)⟩

theorem undoable_marked (hlen : L.length ≠ 1) (hg : MarkSaved g) :
    RemovalUndoable L g :=
  ⟨fun h => absurd h hlen, hg⟩

theorem Removal.stops (now : ℤ) (hr : Removal f w L L' log)
    (hw : WellFormed f L) (ho : f.status = some .opened) :
    ∀ g ∈ Store.stops f log, Restored now g L ∧ RemovalUndoable L g ∨
      (∀ M, ¬ Restored now g M) ∧ ¬ RemovalUndoable L g := by
  have hlow : ∀ p ∈ positions L, p ≠ 0 := by
    intro p hp
    have hb := linked_bounds hw.linked hp
    have hpos := headerSize_pos
    omega
  have hL := hw.linked
  cases hr with
  | only w c => exact only_stops hw ho
  | last A b e w c =>
      have hsaves₂ := saves_linked (A := A ++ [(b, e)]) (B := []) hL
      have hsaves := saves_linked (A := A) (B := [(w, c)])
        (List.append_assoc A _ _ ▸ hL)
      rw [← List.singleton_append, ← List.append_assoc] at hsaves
      rw [lastPos_append, lastPos_cons, lastPos_nil] at hsaves₂
      intro g hg
      obtain ⟨hrest, hmark⟩ := stop_atLimit hw (by simp) ho
        (hlow w (by simp [positions])) hsaves hsaves₂ g hg
      exact .inl ⟨hrest, undoable_marked (by simp) hmark⟩
  | first w c n g B =>
      have hsaves₂ := saves_linked (A := []) hL
      have hsaves := saves_linked (A := [(w, c)]) hL
      rw [List.singleton_append, lastPos_cons, lastPos_nil] at hsaves
      intro g hg
      obtain ⟨hrest, hmark⟩ := stop_atLimit hw (by simp) ho
        (hlow w (by simp [positions])) hsaves hsaves₂ g hg
      exact .inl ⟨hrest, undoable_marked (by simp) hmark⟩
  | inMiddle A b e w c n g B =>
      have hsaves₂ := saves_linked (A := A ++ [(b, e)]) hL
      have hsaves := saves_linked (A := A ++ [(b, e)] ++ [(w, c)]) (d := g)
        (List.append_assoc _ [(w, c)] _ ▸ hL)
      have hsaves₁ := saves_linked (A := A) (B := (w, c) :: (n, g) :: B)
        (List.append_assoc A _ _ ▸ hL)
      rw [← List.singleton_append, ← List.append_assoc] at hsaves₁
      rw [List.append_assoc _ [(w, c)], List.singleton_append] at hsaves
      rw [lastPos_append, lastPos_cons, lastPos_nil] at hsaves hsaves₂
      intro g hg
      obtain ⟨hrest, hmark⟩ := stop_between hw (by simp) ho
        (hlow w (by simp [positions])) hsaves hsaves₁ hsaves₂ g hg
      refine .inl ⟨hrest, undoable_marked ?_ hmark⟩
      simp only [List.length_append, List.length_cons]
      omega

theorem Removal.size (hr : Removal f w L L' log) :
    (Store.applyAll f log).size = f.size := by
  cases hr with
  | only => rfl
  | last => simp [logAtLimit, File.apply]
  | first => simp [logAtLimit, File.apply]
  | inMiddle => simp [logBetween, File.apply]

/-- Where the writes of a removal end. -/
theorem Removal.written (hr : Removal f w L L' log) :
    L' = [] ∧ (Store.applyAll f log).status = some .ftEnd ∨
      L' ≠ [] ∧ ((Store.applyAll f log).status = some .rdMark1 ∨
        (Store.applyAll f log).status = some .rdMark2) := by
  cases hr with
  | only => exact .inl ⟨rfl, rfl⟩
  | last => exact .inr ⟨by simp, .inl rfl⟩
  | first => exact .inr ⟨by simp, .inl rfl⟩
  | inMiddle => exact .inr ⟨by simp, .inr rfl⟩

/-- No record is left, and the size says that there is one. -/
theorem closing_stops_empty (now : ℤ) (hs : Sound f []) (hlen : L.length = 1)
    (hsize : f.size = some 1) (hended : f.status = some .ftEnd) :
    ∀ g ∈ Store.stops f (closing .rdEmpty 0), g = f ∨
      Restored now g [] ∧ RemovalUndoable L g ∨
      (∀ M, ¬ Restored now g M) ∧ ¬ RemovalUndoable L g := by
  have hlim : f.limits.isSome := hs.limits ▸ rfl
  have hremoved := hs.complete.removed
  have hext := hs.bare rfl
  intro g hg
  simp only [closing, Store.mem_stops_cons, Store.mem_stops_nil, store_apply]
    at hg
  rcases hg with rfl | rfl | rfl | rfl | rfl
  · exact .inl rfl
  · exact .inr (.inr ⟨fun M => not_restored_ended ⟨hlim, hremoved, hext, 0, hsize⟩
      hended, not_undoable_cutAway hlen hext hended (by decide)⟩)
  · exact .inr (.inr ⟨fun M => not_restored_bare hlim hremoved hext rfl rfl,
      not_undoable_cutAway hlen hext rfl (by decide)⟩)
  · exact .inr (.inr ⟨fun M => not_restored_bare hlim hremoved hext rfl rfl,
      not_undoable_cutAway hlen hext rfl (by decide)⟩)
  · refine .inr (.inl ⟨restored_closed (wellFormed_closing .rdEmpty hs) rfl, ?_⟩)
    exact ⟨fun _ => ⟨by simp [File.apply], fun _ => rfl⟩,
      markSaved_of_status rfl (by decide) (by decide)⟩

theorem closing_stops_marked (now : ℤ) (hs : Sound f L') (hne : L' ≠ [])
    (hlen : L.length = L'.length + 1) (hsize : f.size = some L.length)
    (hmarked : f.status = some .rdMark1 ∨ f.status = some .rdMark2) :
    ∀ g ∈ Store.stops f (closing .rdEmpty L'.length), g = f ∨
      Restored now g L' ∧ RemovalUndoable L g ∨
      (∀ M, ¬ Restored now g M) ∧ ¬ RemovalUndoable L g := by
  have hlim : f.limits.isSome := hs.limits ▸ rfl
  have hremoved := hs.complete.removed
  have hlong : L.length ≠ 1 := by
    have hpos := List.length_pos_iff.mpr hne
    omega
  have hone : L.length = L'.length ∨
      isAllowable (-1) (L'.length - (L.length : ℤ)) = true := by
    rw [hlen, isAllowable]
    grind
  intro g hg
  simp only [closing, Store.mem_stops_cons, Store.mem_stops_nil, store_apply]
    at hg
  rcases hg with rfl | rfl | rfl | rfl | rfl
  · exact .inl rfl
  · refine .inr (.inr ⟨fun M => not_restored_unmarked rfl hmarked hlim hremoved,
      fun hu => ?_⟩)
    obtain ⟨h₁, h₂⟩ := hu.2 rfl
    exact hmarked.elim h₁ h₂
  · refine .inr (.inl ⟨restored_walk rfl rfl ?_ hne hsize hone,
      undoable_marked hlong (markSaved_of_status rfl (by decide) (by decide))⟩)
    exact sound_aside (.status .rdEmpty) (sound_aside .emptyBackup hs trivial)
      trivial
  · refine .inr (.inl ⟨restored_walk rfl rfl ?_ hne rfl (.inl rfl),
      undoable_marked hlong (markSaved_of_status rfl (by decide) (by decide))⟩)
    exact sound_aside (.size _) (sound_aside (.status .rdEmpty)
      (sound_aside .emptyBackup hs trivial) trivial) trivial
  · exact .inr (.inl ⟨restored_closed (wellFormed_closing .rdEmpty hs) rfl,
      undoable_marked hlong (markSaved_of_status rfl (by decide) (by decide))⟩)

theorem Removal.closing_stops (hr : Removal f w L L' log) (now : ℤ)
    (hw : WellFormed f L) :
    ∀ g ∈ Store.stops (Store.applyAll f log) (closing .rdEmpty L'.length),
      g = Store.applyAll f log ∨ Restored now g L' ∧ RemovalUndoable L g ∨
        (∀ M, ¬ Restored now g M) ∧ ¬ RemovalUndoable L g := by
  have hs := hr.sound hw.toSound
  have hlen := hr.length
  have hsize := hr.size.trans hw.size
  rcases hr.written with ⟨rfl, hended⟩ | ⟨hne, hmarked⟩
  · exact closing_stops_empty now hs hlen
      (hsize.trans (congrArg some hlen)) hended
  · exact closing_stops_marked now hs hne hlen hsize hmarked

/-- Either the next handle finds one of the two lists, or it finds none, and it
does so exactly where the removal can be undone. -/
theorem removal_stops (now' : ℤ) (hw : WellFormed f L) (hf : AtRest f)
    (hh : Usable f h L) (hwhere : w ∈ positions L)
    (hg : g ∈ Store.stops f ((removeData now w).run f h).log) :
    (Restored now' g L ∨ Restored now' g (without w L)) ∧
        RemovalUndoable L g ∨
      (∀ M, ¬ Restored now' g M) ∧ ¬ RemovalUndoable L g := by
  obtain ⟨t, f₀, L', log, h', hf₀, hr, -, -, hrun⟩ :=
    removeData_run now hw hf hh hwhere
  have hne : L ≠ [] := by
    rintro rfl
    cases hwhere
  have hidle := idle_opening (t := t) hw hf
  have ho : f₀.status = some .opened := hf₀ ▸ idle_opened
  obtain ⟨hw₀, -⟩ := hidle f₀ (hf₀ ▸ Store.applyAll_mem_stops _ _)
  rw [← hr.eq_without hw₀.toSound]
  have hlog := hr.stops now' hw₀ ho
  rw [hrun] at hg
  rcases Store.mem_stops_append.mp hg with hg | hg
  · rcases Store.mem_stops_append.mp hg with hg | hg
    · obtain ⟨hw', hidle'⟩ := hidle g hg
      exact .inl ⟨.inl (restored_idle hw' hidle'),
        removalUndoable_idle hw' hidle' hne⟩
    · rw [← hf₀] at hg
      exact (hlog g hg).imp_left (And.imp_left Or.inl)
  · rw [Store.applyAll_append, ← hf₀] at hg
    rcases hr.closing_stops now' hw₀ g hg with rfl | hafter | hnever
    · exact (hlog _ (Store.applyAll_mem_stops _ _)).imp_left (And.imp_left Or.inl)
    · exact .inl (hafter.imp_left .inr)
    · exact .inr hnever

/-- A stop in a removal can be recovered from exactly where it can be undone.
The next handle finds the list as it was before or as it is after. -/
theorem removal_atomic_iff (now' : ℤ) (hw : WellFormed f L) (hf : AtRest f)
    (hh : Usable f h L) (hwhere : w ∈ positions L)
    (hg : g ∈ Store.stops f ((removeData now w).run f h).log) :
    (Restored now' g L ∨ Restored now' g (without w L)) ↔
      RemovalUndoable L g := by
  rcases removal_stops now' hw hf hh hwhere hg with ⟨hr, hu⟩ | ⟨hr, hu⟩
  · exact iff_of_true hr hu
  · exact iff_of_false (not_or.mpr ⟨hr _, hr _⟩) hu

end

/-- The first of two records is removed, with a stop between two writes. -/
theorem removal_atomic_stopped :
    ∃ c, run Container.next (created 5)
        [(5, .add ['a'] 391), (5, .add ['b'] 487)] = some c ∧
      ∃ g ∈ Store.stops c.file ((removeData 6 391).run c.file c.handle).log,
        Restored 7 g [(391, ['a']), (487, ['b'])] ∨
          Restored 7 g (without 391 [(391, ['a']), (487, ['b'])]) := by
  have hmap : (run Container.next (created 5)
      [(5, .add ['a'] 391), (5, .add ['b'] 487)]).map (fun c =>
        decide (c.list = [(391, ['a']), (487, ['b'])] ∧ RemovalUndoable c.list
          (Store.applyAll c.file
            (((removeData 6 391).run c.file c.handle).log.take 8)))) = some true := by
    decide
  obtain ⟨c, hrun, hc⟩ := Option.map_eq_some_iff.mp hmap
  obtain ⟨hlist, hundo⟩ := of_decide_eq_true hc
  obtain ⟨⟨hw, hf, hcur, -⟩, -⟩ := run_invariant
    (fun _ _ _ hc _ hn => next_left hc hn) (created_left 5) (meets_true _ _ _) hrun
  rw [hlist] at hw hcur hundo
  have hstop := Store.applyAll_take_mem_stops c.file
    ((removeData 6 391).run c.file c.handle).log 8
  exact ⟨c, hrun, _, hstop,
    (removal_atomic_iff 7 hw hf (.inr (.inr hcur)) (by decide) hstop).mpr hundo⟩

/-- The recovery ends well and leaves a file that counts a record it does not
have. -/
theorem not_restored_of_final {f : File} {now : ℤ}
    (hf : ((initContainer now).final f (fresh now)).extent = 0 ∧
      ((initContainer now).final f (fresh now)).size = some 1)
    (L : List Entry) : ¬ Restored now f L := by
  rintro ⟨a, h, ws, hrun, -, hrep⟩
  rw [Prog.final, hrun] at hf
  exact not_represents_cutAway hf.1 ⟨0, hf.2⟩ hrep

/-- The only record, stopped before the file is cut: the recovery cuts it and
leaves the size. And one of two records, stopped after the slots were
emptied. -/
theorem removal_not_atomic :
    (∃ c, run Container.next (created 5) [(5, .add ['a'] 391)] = some c ∧
      ∃ g ∈ Store.stops c.file ((removeData 6 391).run c.file c.handle).log,
        ∀ L, ¬ Restored 7 g L) ∧
    ∃ c, run Container.next (created 5)
        [(5, .add ['a'] 391), (5, .add ['b'] 487)] = some c ∧
      ∃ g ∈ Store.stops c.file ((removeData 6 391).run c.file c.handle).log,
        ∀ L, ¬ Restored 7 g L := by
  constructor
  · have hmap : (run Container.next (created 5) [(5, .add ['a'] 391)]).map
        (fun c => (fun g : File => decide (g.extent = 0 ∧ g.size = some 1))
          ((initContainer 7).final (Store.applyAll c.file
            (((removeData 6 391).run c.file c.handle).log.take 4))
              (fresh 7))) = some true := by
      decide
    obtain ⟨c, hrun, hc⟩ := Option.map_eq_some_iff.mp hmap
    exact ⟨c, hrun, _, Store.applyAll_take_mem_stops _ _ 4,
      not_restored_of_final (of_decide_eq_true hc)⟩
  · have hmap : (run Container.next (created 5)
        [(5, .add ['a'] 391), (5, .add ['b'] 487)]).map (fun c =>
          ((initContainer 7).run (Store.applyAll c.file
            (((removeData 6 391).run c.file c.handle).log.take 12))
              (fresh 7)).result.isOk) = some false := by
      decide
    obtain ⟨c, hrun, herror⟩ := Option.map_eq_some_iff.mp hmap
    exact ⟨c, hrun, _, Store.applyAll_take_mem_stops _ _ 12,
      not_restored_of_error herror⟩

end Wms.Jobsubmission.FileContainer
