import Wms.Proofs.FileSequence
import Wms.Proofs.FileUndo

/-!
# What a stop leaves and what the next handle makes of it

A process that stops leaves the file after some of its writes. The next handle
reads the header and recovers, and the recovery is right when it ends without an
exception, leaves the status `closed` and the file holds the list.

While a change is under way the file holds the old list with some of its records
told of other neighbours, and `Disturbed` says which. Each step of a recovery
takes one position from these, until the container is sound again.
-/

namespace Wms.Jobsubmission.FileContainer

open Wms.Lib

/-- The next handle finds the list. -/
def Restored (now : ℤ) (f : File) (L : List Entry) : Prop :=
  Prog.wp (initContainer now)
    (fun _ g _ => g.status = some .closed ∧ Represents g L) f (fresh now)

section
variable {f : File} {h : Handle} {L : List Entry} {now k : ℤ} {n : ℕ}
  {s : FileStatus}

/-- The handle with what the header says. -/
def headerRead (f : File) (h : Handle) : Handle :=
  { h with
    stamp := f.stamp.getD h.stamp, limits := f.limits.getD h.limits,
    removed := f.removed.getD h.removed, size := f.size.getD 0 }

theorem initContainer_run (now : ℤ) (hl : f.limits.isSome) (hr : f.removed.isSome)
    (hs : f.status = some s) :
    (initContainer now).run f h =
      if s = .closed then
        ⟨.ok (), { headerRead f h with initialized := true }, []⟩
      else
        ((recover now s >>= fun _ => Prog.modify fun h =>
          { h with initialized := true } : FileProg Unit).run f
            (headerRead f h)) := by
  obtain ⟨l, hl⟩ := Option.isSome_iff_exists.mp hl
  obtain ⟨r, hr⟩ := Option.isSome_iff_exists.mp hr
  cases hstamp : f.stamp <;> by_cases hclosed : s = .closed <;>
    simp [initContainer, readStamp, readInitialPosition, readInitialRemoved,
      readSize, readFileStatus, hl, hr, hs, hstamp, hclosed, headerRead]

theorem restored_closed (hw : WellFormed f L) (hs : f.status = some .closed) :
    Restored now f L := by
  have hl : f.limits.isSome := by rw [hw.limits]; rfl
  refine Prog.wp_of_run (initContainer_run now hl hw.complete.removed hs) ?_
  exact ⟨hs, represents hw⟩

/-- Nothing has to be put back. -/
theorem restored_noUndo (hw : WellFormed f L)
    (hs : f.status = some .opened ∨ f.status = some .ftEnd) :
    Restored now f L := by
  have hl : f.limits.isSome := by rw [hw.limits]; rfl
  have hw' := wellFormed_status (s := .closed) (wellFormed_status (s := .closed) hw)
  rcases hs with hs | hs
  · have hrun := initContainer_run (h := fresh now) now hl
      hw.complete.removed hs
    simp [recover, recoverFrom] at hrun
    exact Prog.wp_of_run hrun ⟨rfl, represents hw'⟩
  · have hrun := initContainer_run (h := fresh now) now hl
      hw.complete.removed hs
    simp [recover, recoverFrom] at hrun
    exact Prog.wp_of_run hrun ⟨rfl, represents hw'⟩

/-- The steps of the plan are taken, and the container is sound after them. -/
theorem restored_of_undo {steps : List UndoStep} (hs : f.status = some s)
    (hplan : undoPlan s = some (steps, k)) (hl : f.limits.isSome)
    (hr : f.removed.isSome) (hne : L ≠ [])
    (hn : n = L.length ∨ isAllowable k (L.length - (n : ℤ)) = true)
    (hundo : ∀ h : Handle, f.limits = some h.limits →
      Prog.wp (undoAll now steps) (fun _ g h' => Sound g L ∧
        g.size = some n ∧ h'.limits = limitsOf L) f h) :
    Restored now f L := by
  obtain ⟨l, hl'⟩ := Option.isSome_iff_exists.mp hl
  have hclosed : s ≠ .closed := by
    rintro rfl
    cases hplan
  have hlim : f.limits = some (headerRead f (fresh now)).limits := by
    simp [headerRead, hl']
  obtain ⟨⟨⟩, h', ws, hsteps, hsound, hsize, hlimits⟩ := hundo _ hlim
  obtain ⟨vs, hcheck, hw⟩ :=
    checkConsistency_run now hsound hne hlimits hsize hn
  have hrun := initContainer_run (h := fresh now) now hl hr hs
  simp [hclosed, recover, recoverFrom_plan hplan, hsteps, hcheck] at hrun
  refine Prog.wp_of_run hrun ?_
  rw [Store.applyAll_append, Store.applyAll_append]
  exact ⟨rfl, represents (wellFormed_status hw)⟩

/-- Only the size may be wrong. -/
theorem restored_walk (hs : f.status = some s) (hplan : undoPlan s = some ([], k))
    (hsound : Sound f L) (hne : L ≠ []) (hsize : f.size = some n)
    (hn : n = L.length ∨ isAllowable k (L.length - (n : ℤ)) = true) :
    Restored now f L := by
  refine restored_of_undo hs hplan (hsound.limits ▸ rfl)
    hsound.complete.removed hne hn fun h hh => wp_undoAll_nil.mpr
      ⟨hsound, hsize, ?_⟩
  rw [hsound.limits, Option.some.injEq] at hh
  exact hh.symm

end

/-! ## Files in which a list is disturbed -/

/-- `g` has the records of the list as `f` has them, but for the links at the
positions `P` and the state at the positions `Q`. -/
structure Disturbed (f : File) (L : List Entry) (P Q : List ℕ) (g : File) :
    Prop where
  complete : Complete g
  size : g.size = f.size
  reaches : f.getEnd ≤ g.getEnd
  kept : ∀ e ∈ L, ∃ r r', f.recordAt e.1 = some r ∧ g.recordAt e.1 = some r' ∧
    r'.data = r.data ∧ (e.1 ∉ P → r'.links = r.links) ∧
    (e.1 ∉ Q → r'.good = r.good)

/-- The writes that disturb no more than that. -/
def Write.Disturbs (P Q : List ℕ) : Write → Prop
  | .size _ | .overwriteStart | .truncate _ => False
  | .iterator p _ => p ∈ P
  | .dataHeader p _ _ => p ∈ P ∧ p ∈ Q
  | _ => True

section
variable {f g : File} {L : List Entry} {P Q : List ℕ} {p : ℕ} {l : Links}
  {r : Record}

theorem disturbed_self (P Q : List ℕ) (hs : Sound f L) :
    Disturbed f L P Q f where
  complete := hs.complete
  size := rfl
  reaches := Nat.le_refl _
  kept := by
    intro e he
    obtain ⟨r, hr, -⟩ := linked_record hs.linked he
    exact ⟨r, r, hr, hr, rfl, fun _ => rfl, fun _ => rfl⟩

theorem disturbed_apply {w : Write} (hd : Disturbed f L P Q g)
    (hw : w.Disturbs P Q) : Disturbed f L P Q (g.apply w) where
  complete := by
    refine complete_apply hd.complete ?_
    rintro rfl
    exact hw
  size := by
    cases w <;> first | exact hw.elim | exact hd.size
  reaches := by
    have hreach := hd.reaches
    cases w with
    | append r =>
        rw [getEnd_append]
        omega
    | truncate n => exact hw.elim
    | _ => exact hreach
  kept := by
    intro e he
    obtain ⟨r, r', hr, hr', hdata, hlinks, hgood⟩ := hd.kept e he
    cases w with
    | iterator p l =>
        rw [recordAt_iterator, hr']
        by_cases hp : e.1 = p
        · refine ⟨r, _, hr, if_pos hp, hdata, fun hno => ?_, hgood⟩
          exact absurd (hp ▸ hw) hno
        · exact ⟨r, r', hr, if_neg hp, hdata, hlinks, hgood⟩
    | dataHeader p l good =>
        rw [recordAt_dataHeader, hr']
        by_cases hp : e.1 = p
        · refine ⟨r, _, hr, if_pos hp, hdata, fun hno => ?_, fun hno => ?_⟩
          · exact absurd (hp ▸ hw.1) hno
          · exact absurd (hp ▸ hw.2) hno
        · exact ⟨r, r', hr, if_neg hp, hdata, hlinks, hgood⟩
    | append r₁ =>
        have hlt := (recordAt_some hr').2
        rw [recordAt_append, if_neg (Nat.ne_of_lt hlt)]
        exact ⟨r, r', hr, hr', hdata, hlinks, hgood⟩
    | size n => exact hw.elim
    | overwriteStart => exact hw.elim
    | truncate n => exact hw.elim
    | _ => exact ⟨r, r', hr, hr', hdata, hlinks, hgood⟩

theorem disturbed_mono {P' Q' : List ℕ} (hP : P ⊆ P') (hQ : Q ⊆ Q')
    (hd : Disturbed f L P Q g) : Disturbed f L P' Q' g where
  complete := hd.complete
  size := hd.size
  reaches := hd.reaches
  kept := by
    intro e he
    obtain ⟨r, r', hr, hr', hdata, hlinks, hgood⟩ := hd.kept e he
    exact ⟨r, r', hr, hr', hdata, fun hno => hlinks fun hmem => hno (hP hmem),
      fun hno => hgood fun hmem => hno (hQ hmem)⟩

theorem disturbed_stops {ws : List Write} (hd : Disturbed f L P Q g)
    (hws : ∀ w ∈ ws, w.Disturbs P Q) :
    ∀ g' ∈ Store.stops g ws, Disturbed f L P Q g' :=
  Store.stops_invariant (fun _ w hw hg => disturbed_apply hg (hws w hw)) hd

theorem disturbed_record (hd : Disturbed f L P Q g)
    (hp : p ∈ positions L) : (g.recordAt p).isSome := by
  obtain ⟨e, he, rfl⟩ := List.mem_map.mp hp
  obtain ⟨r, r', -, hr', -⟩ := hd.kept e he
  rw [hr']
  rfl

/-- The links at a position are put back. -/
theorem disturbed_putBack (hd : Disturbed f L (p :: P) Q g)
    (hr : f.recordAt p = some r) (hl : r.links = l) :
    Disturbed f L P Q (g.apply (.iterator p l)) where
  complete := complete_apply hd.complete (by simp)
  size := hd.size
  reaches := hd.reaches
  kept := by
    intro e he
    obtain ⟨r₁, r', hr₁, hr', hdata, hlinks, hgood⟩ := hd.kept e he
    rw [recordAt_iterator, hr']
    by_cases hp : e.1 = p
    · refine ⟨r₁, _, hr₁, if_pos hp, hdata, fun _ => ?_, hgood⟩
      rw [hp, hr, Option.some.injEq] at hr₁
      exact hr₁ ▸ hl.symm
    · refine ⟨r₁, r', hr₁, if_neg hp, hdata, fun hno => hlinks ?_, hgood⟩
      rw [List.mem_cons, not_or]
      exact ⟨hp, hno⟩

/-- The links and the state at a position are put back. -/
theorem disturbed_unerase (hd : Disturbed f L (p :: P) (p :: Q) g)
    (hr : f.recordAt p = some r) (hl : r.links = l) (hgood : r.good = true) :
    Disturbed f L P Q (g.apply (.dataHeader p l true)) where
  complete := complete_apply hd.complete (by simp)
  size := hd.size
  reaches := hd.reaches
  kept := by
    intro e he
    obtain ⟨r₁, r', hr₁, hr', hdata, hlinks, hgood'⟩ := hd.kept e he
    rw [recordAt_dataHeader, hr']
    by_cases hp : e.1 = p
    · rw [hp, hr, Option.some.injEq] at hr₁
      subst hr₁
      exact ⟨r, _, hp ▸ hr, if_pos hp, hdata, fun _ => hl.symm,
        fun _ => hgood.symm⟩
    · refine ⟨r₁, r', hr₁, if_neg hp, hdata, fun hno => hlinks ?_,
        fun hno => hgood' ?_⟩
      · rw [List.mem_cons, not_or]
        exact ⟨hp, hno⟩
      · rw [List.mem_cons, not_or]
        exact ⟨hp, hno⟩

/-- What lies behind the old end is cut off. -/
theorem disturbed_cut (hs : Sound f L) (hd : Disturbed f L P Q g) :
    Disturbed f L P Q (g.apply (.truncate f.getEnd)) := by
  have hlow : headerSize ≤ f.getEnd := Nat.le_add_right _ _
  refine ⟨complete_apply hd.complete ?_, ?_, ?_, ?_⟩
  · have hpos := headerSize_pos
    rw [ne_eq, Write.truncate.injEq]
    omega
  · exact (size_truncate hlow).trans hd.size
  · exact Nat.le_of_eq (getEnd_truncate g hlow).symm
  · intro e he
    obtain ⟨r, r', hr, hr', hdata, hrest⟩ := hd.kept e he
    refine ⟨r, r', hr, ?_, hdata, hrest⟩
    obtain ⟨r₁, hr₁, hdata₁, -⟩ := linked_record hs.linked he
    rw [hr, Option.some.injEq] at hr₁
    rw [recordAt_truncate g e.1 hlow, hr', Option.filter_some, if_pos]
    rw [hdata, hr₁, hdata₁]
    exact decide_eq_true (hs.fits e he)

/-- Records with the same links, data and state make the same list. -/
theorem linked_of_kept {before after : ℕ}
    (hkept : ∀ e ∈ L, ∃ r r', f.recordAt e.1 = some r ∧
      g.recordAt e.1 = some r' ∧ r'.data = r.data ∧ r'.links = r.links ∧
      r'.good = r.good)
    (hL : Linked f.recordAt before L after) :
    Linked g.recordAt before L after := by
  induction L generalizing before with
  | nil => trivial
  | cons e L ih =>
      obtain ⟨⟨lit, hlit⟩, hrest⟩ := hL
      obtain ⟨r, r', hr, hr', hdata, hlinks, hgood⟩ :=
        hkept e List.mem_cons_self
      rw [hlit, Option.some.injEq] at hr
      subst hr
      refine ⟨⟨r'.fileOrder, ?_⟩, ih (fun e' he' => hkept e' ?_) hrest⟩
      · rw [hr', Option.some.injEq]
        obtain ⟨links, data, good, order⟩ := r'
        simp only at hdata hlinks hgood
        rw [hdata, hlinks, hgood]
      · exact List.mem_cons_of_mem _ he'

theorem sound_of_disturbed (hs : Sound f L) (hd : Disturbed f L [] [] g)
    (hend : g.getEnd = f.getEnd) (hlim : g.limits = some (limitsOf L)) :
    Sound g L where
  complete := hd.complete
  linked := by
    rw [hend]
    refine linked_of_kept (fun e he => ?_) hs.linked
    obtain ⟨r, r', hr, hr', hdata, hlinks, hgood⟩ := hd.kept e he
    exact ⟨r, r', hr, hr', hdata, hlinks (by simp), hgood (by simp)⟩
  fits := by
    rw [hend]
    exact hs.fits
  nodup := hs.nodup
  filled := hs.filled
  limits := hlim
  bare := by
    intro hL
    have hext := hs.bare hL
    simp only [File.getEnd] at hend
    omega

end

/-! ## Putting back -/

/-- The iterator is a copy of the links of a record of the list. -/
def Saves (f : File) (L : List Entry) (it : FileIterator) : Prop :=
  it.current ∈ positions L ∧
    ∃ r, f.recordAt it.current = some r ∧ r.links = it.links

/-- What a plan has to achieve. -/
def Whole (f : File) (L : List Entry) (_ : Unit) (g : File) (h : Handle) :
    Prop :=
  Sound g L ∧ g.size = f.size ∧ h.limits = limitsOf L

section
variable {f g : File} {h : Handle} {L : List Entry} {P Q : List ℕ} {now k : ℤ}
  {n : ℕ} {s : FileStatus} {limits : Links} {it it₁ it₂ : FileIterator}
  {steps : List UndoStep}

theorem backup_cut (hn : headerSize ≤ n) :
    (g.cut n).iteratorBackup = g.iteratorBackup ∧
      (g.cut n).limitsBackup = g.limitsBackup ∧
      (g.cut n).limits = g.limits ∧ (g.cut n).getEnd = n := by
  refine ⟨?_, ?_, limits_truncate hn, getEnd_truncate g hn⟩
  · have hpos := headerSize_pos
    obtain ⟨m, rfl⟩ : ∃ m, n = m + 1 := ⟨n - 1, by omega⟩
    rfl
  · have hpos := headerSize_pos
    obtain ⟨m, rfl⟩ : ∃ m, n = m + 1 := ⟨n - 1, by omega⟩
    rfl

theorem headerSize_le_getEnd (f : File) : headerSize ≤ f.getEnd :=
  Nat.le_add_right _ _

theorem disturbed_cut' (hs : Sound f L) (hd : Disturbed f L P Q g) :
    Disturbed f L P Q (g.cut f.getEnd) :=
  disturbed_apply (w := .status .ftEnd) (disturbed_cut hs hd) trivial

theorem disturbed_saved (hd : Disturbed f L (it.current :: P) Q g)
    (hsaves : Saves f L it) :
    Disturbed f L P Q (g.apply (.iterator it.current it.links)) := by
  obtain ⟨r, hr, hl⟩ := hsaves.2
  exact disturbed_putBack hd hr hl

/-- A copy that was made after the record had been changed by another step. -/
theorem disturbed_second (hd : Disturbed f L (it.current :: P) Q g)
    (hsaves : it.current ∈ P ∨ Saves f L it) :
    Disturbed f L P Q (g.apply (.iterator it.current it.links)) := by
  rcases hsaves with hmem | hsaves
  · refine disturbed_apply ⟨hd.complete, hd.size, hd.reaches, ?_⟩ hmem
    intro e he
    obtain ⟨r, r', hr, hr', hdata, hlinks, hgood⟩ := hd.kept e he
    refine ⟨r, r', hr, hr', hdata, fun hno => hlinks ?_, hgood⟩
    rw [List.mem_cons, not_or]
    exact ⟨fun heq => hno (heq ▸ hmem), hno⟩
  · exact disturbed_saved hd hsaves

theorem wp_lastIterator (hs : Sound f L)
    (hd : Disturbed f L [it.current] [] g) (hsaves : Saves f L it)
    (hslot : g.iteratorBackup 0 = some it) (hend : g.getEnd = f.getEnd)
    (hlim : g.limits = some (limitsOf L)) (hh : h.limits = limitsOf L) :
    Prog.wp (undoAll now [.iterator 0]) (Whole f L) g h := by
  have hd' := disturbed_saved hd hsaves
  refine (wp_iterator hslot (disturbed_record hd hsaves.1)).mpr
    (wp_undoAll_nil.mpr ?_)
  exact ⟨sound_of_disturbed hs hd' hend hlim, hd'.size, hh⟩

theorem wp_limitsAndIterator (hs : Sound f L)
    (hd : Disturbed f L [it.current] [] g) (hsaves : Saves f L it)
    (hslot : g.iteratorBackup 0 = some it) (hend : g.getEnd = f.getEnd)
    (hlim : g.limitsBackup = some (limitsOf L)) :
    Prog.wp (undoAll now [.limits, .iterator 0]) (Whole f L) g h :=
  (wp_limits hlim).mpr (wp_lastIterator hs
    (disturbed_apply (w := .limits _) hd trivial) hsaves hslot hend rfl rfl)

theorem wp_twoIterators (hs : Sound f L)
    (hd : Disturbed f L [it₁.current, it.current] [] g)
    (hsaves₁ : Saves f L it₁) (hsaves : Saves f L it)
    (hslot₁ : g.iteratorBackup 1 = some it₁)
    (hslot : g.iteratorBackup 0 = some it) (hend : g.getEnd = f.getEnd)
    (hlim : g.limits = some (limitsOf L)) (hh : h.limits = limitsOf L) :
    Prog.wp (undoAll now [.iterator 1, .iterator 0]) (Whole f L) g h :=
  (wp_iterator hslot₁ (disturbed_record hd hsaves₁.1)).mpr (wp_lastIterator hs
    (disturbed_saved hd hsaves₁) hsaves hslot hend hlim hh)

/-- Where a record stands in the list its links can be saved. -/
theorem saves_linked {A B : List Entry} {before after p : ℕ} {d : Text}
    (hL : Linked f.recordAt before (A ++ (p, d) :: B) after) :
    Saves f (A ++ (p, d) :: B) ⟨lastPos before A, headPos B after, p⟩ := by
  obtain ⟨-, ⟨lit, hr⟩, -⟩ := linked_append.mp hL
  exact ⟨by simp [positions], _, hr, rfl⟩

/-- From the plan to the next handle. -/
theorem restored_of_whole (hw : WellFormed f L) (hne : L ≠ [])
    (hd : Disturbed f L P Q g) (hs : g.status = some s)
    (hplan : undoPlan s = some (steps, k)) (hl : g.limits.isSome)
    (hundo : ∀ h : Handle, g.limits = some h.limits →
      Prog.wp (undoAll now steps) (Whole f L) g h) :
    Restored now g L := by
  refine restored_of_undo (n := L.length) hs hplan hl hd.complete.removed hne
    (.inl rfl) fun h hh => Prog.wp_mono ?_ (hundo h hh)
  rintro - g' h' ⟨hsound, hsize, hlim⟩
  exact ⟨hsound, hsize.trans hw.size, hlim⟩

theorem restored_iterator (hw : WellFormed f L) (hne : L ≠ [])
    (hd : Disturbed f L [it.current] [] g) (hsaves : Saves f L it)
    (hslot : g.iteratorBackup 0 = some it) (hs : g.status = some s)
    (hplan : undoPlan s = some ([.iterator 0], k)) (hend : g.getEnd = f.getEnd)
    (hlim : g.limits = f.limits) : Restored now g L := by
  rw [hw.limits] at hlim
  refine restored_of_whole hw hne hd hs hplan (hlim ▸ rfl) fun h hh => ?_
  refine wp_lastIterator hw.toSound hd hsaves hslot hend hlim ?_
  rw [hlim, Option.some.injEq] at hh
  exact hh.symm

theorem restored_limits (hw : WellFormed f L) (hne : L ≠ [])
    (hd : Disturbed f L [it.current] [] g) (hsaves : Saves f L it)
    (hslot : g.iteratorBackup 0 = some it) (hs : g.status = some s)
    (hplan : undoPlan s = some ([.limits, .iterator 0], k))
    (hend : g.getEnd = f.getEnd) (hl : g.limits.isSome)
    (hlim : g.limitsBackup = some (limitsOf L)) : Restored now g L :=
  restored_of_whole hw hne hd hs hplan hl fun _ _ =>
    wp_limitsAndIterator hw.toSound hd hsaves hslot hend hlim

theorem restored_twoIterators (hw : WellFormed f L) (hne : L ≠ [])
    (hd : Disturbed f L [it₁.current, it.current] [] g)
    (hsaves₁ : Saves f L it₁) (hsaves : Saves f L it)
    (hslot₁ : g.iteratorBackup 1 = some it₁)
    (hslot : g.iteratorBackup 0 = some it) (hs : g.status = some s)
    (hplan : undoPlan s = some ([.iterator 1, .iterator 0], k))
    (hend : g.getEnd = f.getEnd) (hlim : g.limits = f.limits) :
    Restored now g L := by
  rw [hw.limits] at hlim
  refine restored_of_whole hw hne hd hs hplan (hlim ▸ rfl) fun h hh => ?_
  refine wp_twoIterators hw.toSound hd hsaves₁ hsaves hslot₁ hslot hend hlim ?_
  rw [hlim, Option.some.injEq] at hh
  exact hh.symm

end

/-! ## Where a recovery fails -/

section
variable {f : File} {h : Handle} {L : List Entry} {now k : ℤ}
  {s : FileStatus} {steps : List UndoStep}

theorem readIterator_none {p : ℕ} (hr : f.recordAt p = none) :
    (∃ e, (readIterator p false).run f h = ⟨.error e, h, []⟩) ∨
      (readIterator p false).run f h = ⟨.ok ⟨0, 0, p⟩, h, []⟩ := by
  by_cases hb : headerSize ≤ p ∧ p < f.getEnd
  · rw [File.recordAt, if_pos hb] at hr
    exact .inl ⟨.syntaxError, by simp [readIterator, hb, hr]⟩
  · by_cases hend : p = f.getEnd
    · exact .inr (by simp [readIterator, hend])
    · by_cases hzero : p = 0
      · subst hzero
        have hlow : ¬ headerSize ≤ 0 := Nat.not_le_of_lt headerSize_pos
        exact .inr (by simp [readIterator, hlow, hend])
      · exact .inl ⟨.unavailablePosition, by simp [readIterator, hb, hend, hzero]⟩

theorem restoreIterator_error {what : Fin 4} {it : FileIterator}
    (hslot : f.iteratorBackup what = some it)
    (hr : f.recordAt it.current = none) (hzero : it ≠ ⟨0, 0, 0⟩) :
    ∃ e, (restoreIterator what).run f h = ⟨.error e, h, []⟩ := by
  have hzero' : ¬ (it.current = 0 ∧ it.prev = 0 ∧ it.next = 0) := by
    rintro ⟨h₁, h₂, h₃⟩
    obtain ⟨prev, next, current⟩ := it
    simp only at h₁ h₂ h₃
    subst h₁ h₂ h₃
    exact hzero rfl
  by_cases hb : headerSize ≤ it.current ∨ it.current < f.getEnd
  · exact ⟨.offRecord, by simp [restoreIterator, readIteratorBackup, hslot,
      writeIterator, hb, hr, hzero']⟩
  · exact ⟨.unavailablePosition, by simp [restoreIterator, readIteratorBackup,
      hslot, writeIterator, hb]⟩

/-- The walk has to begin at a record. -/
theorem checkConsistency_error (now k : ℤ)
    (hr : f.recordAt h.limits.prev = none) :
    ∃ e h' ws, (checkConsistency now k).run f h = ⟨.error e, h', ws⟩ := by
  rcases readIterator_none (h := { h with size := f.size.getD 0 }) hr with
    ⟨e, hrun⟩ | hrun
  · refine ⟨e, { h with size := f.size.getD 0 }, [], ?_⟩
    simp [checkConsistency, readSize, hrun]
  · refine ⟨.unavailablePosition, { h with size := f.size.getD 0 }, [], ?_⟩
    simp [checkConsistency, readSize, hrun, checkElements, hr]

/-- Where a recovery succeeds the steps of its plan and the walk do. -/
theorem check_of_restored (hs : f.status = some s)
    (hplan : undoPlan s = some (steps, k)) (hl : f.limits.isSome)
    (hr : f.removed.isSome) (hrest : Restored now f L) :
    ∃ h : Handle, f.limits = some h.limits ∧ Prog.wp (undoAll now steps)
      (fun _ g h' => Prog.wp (checkConsistency now k) (fun _ _ _ => True) g h')
      f h := by
  obtain ⟨l, hl'⟩ := Option.isSome_iff_exists.mp hl
  have hclosed : s ≠ .closed := by
    rintro rfl
    cases hplan
  have hlim : f.limits = some (headerRead f (fresh now)).limits := by
    simp [headerRead, hl']
  refine ⟨headerRead f (fresh now), hlim, ?_⟩
  obtain ⟨⟨⟩, h₁, ws, hrun, -⟩ := hrest
  have hwp : Prog.wp (recover now s >>= fun _ => Prog.modify fun h =>
      { h with initialized := true } : FileProg Unit) (fun _ _ _ => True) f
        (headerRead f (fresh now)) := by
    rw [initContainer_run now hl hr hs, if_neg hclosed] at hrun
    exact Prog.wp_of_run hrun trivial
  have hrec := Prog.wp_bind.mp hwp
  simp only [recover, recoverFrom_plan hplan, hclosed, if_false,
    Prog.pure_bind] at hrec
  have hsteps := Prog.wp_bind.mp (Prog.wp_bind.mp hrec)
  exact Prog.wp_mono (fun _ g h' => Prog.wp_mono fun _ _ _ _ => trivial) hsteps

/-- The steps leave a record to begin at. -/
theorem undo_of_restored (hs : f.status = some s)
    (hplan : undoPlan s = some (steps, k)) (hl : f.limits.isSome)
    (hr : f.removed.isSome) (hrest : Restored now f L) :
    ∃ h : Handle, f.limits = some h.limits ∧ Prog.wp (undoAll now steps)
      (fun _ g h' => (g.recordAt h'.limits.prev).isSome) f h := by
  obtain ⟨h, hlim, hsteps⟩ := check_of_restored hs hplan hl hr hrest
  refine ⟨h, hlim, Prog.wp_mono (fun _ g h' hcheck => ?_) hsteps⟩
  by_contra hnone
  rw [Option.not_isSome_iff_eq_none] at hnone
  obtain ⟨e, h'', vs, herror⟩ := checkConsistency_error now k hnone
  exact Prog.not_wp_of_error herror hcheck

end

end Wms.Jobsubmission.FileContainer
