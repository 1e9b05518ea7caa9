import Wms.Proofs.FileRepeat

/-!
# A stop in a recovery

Until the file is cut the next handle does it all again. But a cut of the file
writes the status byte, and from there on nothing says what is still to be put
back.
-/

namespace Wms.Jobsubmission.FileContainer

open Wms.Lib

/-! ## All stops -/

/-- Where a stop in a recovery of `f`, which yields `L`, can be recovered from.
Under a status that is recovered by a plan the records that it names have to be
there, and the walk must not have cut the file without telling the last record
so. Where nothing would be put back the list has to be there. -/
def Resumable (f : File) (L : List Entry) (g : File) : Prop :=
  match g.status with
  | none => False
  | some s =>
      match undoPlan s with
      | some (steps, _) => (∀ step ∈ steps, step.finds g = true) ∧
          (steps.any UndoStep.cuts = true ∨ g.extent = f.extent ∨
            Represents g L)
      | none => g.limits.isSome ∧ g.removed.isSome ∧
          (s ∈ [.closed, .opened, .ftEnd] → Represents g L)

/-- The writes of a recovery that leave the header complete. -/
def Write.Tame : Write → Prop
  | .truncate n => headerSize ≤ n
  | .size _ => True
  | .status s => s = .ftEnd ∨ s = .closed
  | w => w.Puts

section
variable {f g : File} {L : List Entry} {now : ℤ} {k : ℤ} {s : FileStatus}
  {steps : List UndoStep} {us ws : List Write} {w : Write} {n : ℕ}
  {l : Links} {ps : List ℕ}

theorem resumable_plan (hs : g.status = some s)
    (hplan : undoPlan s = some (steps, k)) : Resumable f L g ↔
      (∀ step ∈ steps, step.finds g = true) ∧
        (steps.any UndoStep.cuts = true ∨ g.extent = f.extent ∨
          Represents g L) := by
  rw [Resumable, hs]
  simp only [hplan]

/-- Where nothing is put back the list has to be there. -/
theorem idle_iff (hidle : Idle g) (hl : g.limits.isSome)
    (hr : g.removed.isSome) :
    (Restored now g L ↔ Represents g L) ∧
      (Resumable f L g ↔ Represents g L) := by
  have hwp : ∀ {h : Handle} {ws : List Write},
      (initContainer now).run g (fresh now) = ⟨.ok (), h, ws⟩ →
      (Store.applyAll g ws).status = some .closed →
      (Represents (Store.applyAll g ws) L ↔ Represents g L) →
      (Restored now g L ↔ Represents g L) := by
    intro h ws hrun hclosed hsame
    rw [Restored, Prog.wp_iff_of_run hrun, hsame]
    exact and_iff_right hclosed
  rcases hidle with hs | hs | hs
  · refine ⟨hwp (initContainer_run now hl hr hs) hs Iff.rfl, ?_⟩
    rw [Resumable, hs]
    simp [undoPlan, hl, hr]
  · have hrun := initContainer_run (h := fresh now) now hl hr hs
    simp [recover, recoverFrom] at hrun
    refine ⟨hwp hrun rfl ?_, ?_⟩
    · exact (represents_status _).trans (represents_status _)
    · rw [Resumable, hs]
      simp [undoPlan, hl, hr]
  · have hrun := initContainer_run (h := fresh now) now hl hr hs
    simp [recover, recoverFrom] at hrun
    refine ⟨hwp hrun rfl ?_, ?_⟩
    · exact (represents_status _).trans (represents_status _)
    · rw [Resumable, hs]
      simp [undoPlan, hl, hr]

theorem idle_resumable (hidle : Idle g) (hl : g.limits.isSome)
    (hr : g.removed.isSome) : Restored now g L ↔ Resumable f L g := by
  obtain ⟨h₁, h₂⟩ : (Restored now g L ↔ Represents g L) ∧
    (Resumable f L g ↔ Represents g L) := idle_iff hidle hl hr
  exact h₁.trans h₂.symm

theorem tame_header (hw : w.Tame) (hl : g.limits.isSome)
    (hr : g.removed.isSome) :
    (g.apply w).limits.isSome ∧ (g.apply w).removed.isSome := by
  cases w with
  | truncate n =>
      have hpos := headerSize_pos
      rw [limits_truncate hw]
      obtain ⟨m, rfl⟩ : ∃ m, n = m + 1 := ⟨n - 1, by
        have hlow : headerSize ≤ n := hw
        omega⟩
      exact ⟨hl, hr⟩
  | size n => exact ⟨hl, hr⟩
  | status s => exact ⟨hl, hr⟩
  | iterator q l => exact ⟨hl, hr⟩
  | dataHeader q l good => exact ⟨hl, hr⟩
  | limits l => exact ⟨rfl, hr⟩
  | overwriteStart => exact ⟨hl, hr⟩
  | _ => exact hw.elim

theorem tame_idle (hw : w.Tame) (hg : Idle g) : Idle (g.apply w) := by
  cases w with
  | truncate n =>
      have hpos := headerSize_pos
      obtain ⟨m, rfl⟩ : ∃ m, n = m + 1 := ⟨n - 1, by
        have hlow : headerSize ≤ n := hw
        omega⟩
      exact hg
  | status s => rcases hw with rfl | rfl <;> simp [Idle, File.apply]
  | size n => exact hg
  | iterator q l => exact hg
  | dataHeader q l good => exact hg
  | limits l => exact hg
  | overwriteStart => exact hg
  | _ => exact hw.elim

theorem Write.Puts.tame (hw : w.Puts) : w.Tame := by
  cases w <;> first | exact hw.elim | trivial

theorem tame_walk {m p before next : ℕ} (fileEnd n size : ℕ)
    (hm : headerSize ≤ m) : ∀ w ∈ sizeFix k n size ++
      endFix m fileEnd p before next ++ [.status .closed], w.Tame := by
  intro w hw
  rw [List.mem_append, List.mem_append, sizeFix, endFix] at hw
  rcases hw with (hw | hw) | hw
  · split at hw <;> simp at hw
    subst hw
    trivial
  · split at hw
    · rcases List.mem_append.mp hw with hw | hw
      · simp at hw
        rcases hw with rfl | rfl
        · exact hm
        · exact .inl rfl
      · split at hw <;> simp at hw
        subst hw
        trivial
    · simp at hw
  · simp at hw
    subst hw
    exact .inr rfl

/-- From the `ft_end` of a cut on nothing is put back. -/
theorem ended_stops (now : ℤ) (f₀ : File) (hws : ∀ w ∈ ws, w.Tame)
    (hidle : Idle f) (hl : f.limits.isSome) (hr : f.removed.isSome) :
    ∀ g ∈ Store.stops f ws, Restored now g L ↔ Resumable f₀ L g := by
  have hstops : ∀ g ∈ Store.stops f ws,
      Idle g ∧ g.limits.isSome ∧ g.removed.isSome := by
    refine Store.stops_invariant (fun g w hw hg => ?_) ⟨hidle, hl, hr⟩
    exact ⟨tame_idle (hws w hw) hg.1, tame_header (hws w hw) hg.2.1 hg.2.2⟩
  intro g hg
  obtain ⟨hidle, hl, hr⟩ := hstops g hg
  exact idle_resumable hidle hl hr

/-! ### Before the file is cut -/

structure Put (f : File) (us : List Write) (g : File) : Prop where
  copies : Copies f g
  same : Store.applyAll g us = Store.applyAll f us
  status : g.status = f.status
  extent : g.extent = f.extent
  limits : g.limits.isSome
  removed : g.removed.isSome

theorem put_stops (hl : f.limits.isSome) (hr : f.removed.isSome)
    (hcut : ∀ step ∈ steps, step.cuts = false) (hmark : .unerase ∉ steps.tail)
    (hus : undoWrites steps f = some us) :
    ∀ g ∈ Store.stops f us, undoWrites steps g = some us ∧ Put f us g := by
  have hputs := undoWrites_puts hcut hus
  have hfinds := finds_of_undoWrites hus
  intro g hg
  obtain ⟨vs, hvs, rfl⟩ := Store.stops_eq_take hg
  have hmem : ∀ w ∈ vs, w ∈ us := fun w hw => hvs.mem hw
  obtain ⟨hforth, hback⟩ :=
    copies_putsAll (fun w hw => hputs w (hmem w hw)) f
  have hkeeps : ∀ g ∈ Store.stops f vs, g.status = f.status ∧
      g.extent = f.extent ∧ g.limits.isSome ∧ g.removed.isSome := by
    refine Store.stops_invariant (fun g w hw hg => ?_) ⟨rfl, rfl, hl, hr⟩
    have hw := hputs w (hmem w hw)
    obtain ⟨hs, hext, hl, hr⟩ := hg
    refine ⟨?_, ?_, tame_header hw.tame hl hr⟩
    · cases w <;> first | exact hw.elim | exact hs
    · cases w <;> first | exact hw.elim | exact hext
  obtain ⟨hs, hext, hl', hr'⟩ := hkeeps _ (Store.applyAll_mem_stops f vs)
  refine ⟨undoWrites_copies hcut hforth ?_ hus, hforth, ?_, hs, hext, hl', hr'⟩
  · exact fun step hstep => finds_copies hback (hfinds step hstep)
  · exact Store.repeat_all (repeatable_undoWrites hcut hmark hus) hmem f

/-! ### The walk -/

theorem same_endFix {m p before next : ℕ} (hm : headerSize ≤ m) (fileEnd : ℕ)
    (hfg : Same f g) : Same (Store.applyAll f (endFix m fileEnd p before next))
      (Store.applyAll g (endFix m fileEnd p before next)) := by
  rw [endFix]
  split
  · have hcut := same_truncate hm hfg
    have hended : Same ((f.apply (.truncate m)).apply (.status .ftEnd))
        ((g.apply (.truncate m)).apply (.status .ftEnd)) :=
      ⟨hcut.limits, hcut.extent, hcut.record⟩
    split
    · exact same_puts (w := .iterator p ⟨before, m⟩) trivial hended
    · exact hended
  · exact hfg

theorem size_endFix {m p before next : ℕ} (hm : headerSize ≤ m) (fileEnd : ℕ)
    (f : File) : (Store.applyAll f (endFix m fileEnd p before next)).size =
      f.size := by
  rw [endFix]
  split
  · split <;> exact size_truncate hm
  · rfl

theorem visits_same {last fuel p : ℕ} (hfg : Same f g) :
    visits g last fuel p = visits f last fuel p := by
  induction fuel generalizing p with
  | zero => rfl
  | succ fuel ih =>
      rw [visits, visits, hfg.record]
      cases f.recordAt p with
      | none => rfl
      | some r => simp only [Option.bind_some, ih]

/-- A walk over the same records has the same end. -/
theorem walk_again {x : File} (hx : Same f x) (hl : f.limits = some l)
    (hv : visits f l.next (f.extent + 1) l.prev = some ps)
    (hsize : x.size = f.size ∨ x.size =
      (Store.applyAll f (sizeFix k ps.length (f.size.getD 0))).size) :
    ∃ ws', walkWrites k x = some ws' ∧
      (Represents (Store.applyAll x ws') L ↔
        Represents (Store.applyAll f (walkLog k f l ps)) L) := by
  have hlow : headerSize ≤ reachOf f 0 ps :=
    Nat.le_trans (Nat.le_add_right _ _) (visits_length hv)
  have hit : iteratorAt x l.next = iteratorAt f l.next := by
    rw [iteratorAt, iteratorAt, hx.record]
  have hreach := reachOf_congr (fun q (_ : q ∈ ps) => hx.record q) 0
  have hv' : visits x l.next (x.extent + 1) l.prev = some ps := by
    rw [visits_same hx, hx.extent]
    exact hv
  refine ⟨_, walkWrites_iff.mpr ⟨l, ps, hx.limits.trans hl, hv', rfl⟩, ?_⟩
  rw [walkLog, walkLog, hit, hreach, same_end hx, Store.applyAll_append,
    Store.applyAll_append]
  have hfixed := same_trans (same_symm (same_sizeFix k ps.length
    (f.size.getD 0) f)) (same_trans hx (same_sizeFix k ps.length
      (x.size.getD 0) x))
  refine represents_same (same_endFix hlow _ hfixed) ?_
  rw [size_endFix hlow, size_endFix hlow]
  exact size_sizeFix hsize

/-- What is put back before the walk can be put back after it has written the
size. -/
theorem put_again (hus : ∀ w ∈ us, w.Puts) (hf : Store.applyAll f us = f)
    (m : ℕ) :
    Same f (Store.applyAll (Store.applyAll f (sizeFix k n m)) us) ∧
      ((Store.applyAll (Store.applyAll f (sizeFix k n m)) us).size = f.size ∨
        (Store.applyAll (Store.applyAll f (sizeFix k n m)) us).size =
          (Store.applyAll f (sizeFix k n m)).size) := by
  constructor
  · have hsame := same_putsAll hus (same_sizeFix k n m f)
    rwa [hf] at hsame
  · have hsize := size_puts hus f
    rw [hf] at hsize
    rw [size_puts hus]
    by_cases hover : .overwriteStart ∈ us
    · rw [if_pos hover] at hsize ⊢
      exact .inl hsize.symm
    · rw [if_neg hover]
      exact .inr rfl

/-- The walk has written the size at most. -/
theorem whole_sized (now : ℤ) {f₀ : File} (hs : f.status = some s)
    (hplan : undoPlan s = some (steps, k))
    (hcut : ∀ step ∈ steps, step.cuts = false) (hr : f.removed.isSome)
    (hus : undoWrites steps f = some us) (hf : Store.applyAll f us = f)
    (hext : f.extent = f₀.extent) (hl : f.limits = some l)
    (hv : visits f l.next (f.extent + 1) l.prev = some ps)
    (hrep : Represents (Store.applyAll f (walkLog k f l ps)) L) :
    Restored now
        (Store.applyAll f (sizeFix k ps.length (f.size.getD 0))) L ↔
      Resumable f₀ L
        (Store.applyAll f (sizeFix k ps.length (f.size.getD 0))) := by
  have hputs := undoWrites_puts hcut hus
  have hfinds := finds_of_undoWrites hus
  obtain ⟨hsame, hsize⟩ := put_again (k := k) (n := ps.length) hputs hf
    (f.size.getD 0)
  obtain ⟨ws', hws', hrep'⟩ := walk_again (L := L) hsame hl hv hsize
  obtain ⟨g, hg⟩ : ∃ g, Store.applyAll f
      (sizeFix k ps.length (f.size.getD 0)) = g := ⟨_, rfl⟩
  obtain ⟨hforth, hback⟩ := hg ▸ copies_sizeFix k ps.length (f.size.getD 0) f
  obtain ⟨hstatus, hremoved⟩ :=
    hg ▸ header_sizeFix k ps.length (f.size.getD 0) f
  have hgsame : Same f g := hg ▸ same_sizeFix k ps.length (f.size.getD 0) f
  rw [hg] at hws' hrep' ⊢
  have hfinds' : ∀ step ∈ steps, step.finds g = true :=
    fun step hstep => finds_copies hback (hfinds step hstep)
  refine iff_of_true ?_ ?_
  · refine (restored_iff_writes now (hstatus.trans hs) hplan
      (hgsame.limits ▸ hl ▸ rfl) (hremoved ▸ hr)).mpr ⟨us, ws',
        undoWrites_copies hcut hforth hfinds' hus, hws', ?_⟩
    rw [Store.applyAll_append]
    exact hrep'.mpr hrep
  · exact (resumable_plan (hstatus.trans hs) hplan).mpr
      ⟨hfinds', .inr (.inl (hgsame.extent.trans hext))⟩

/-- The records of a walk stay where the file is cut behind them. -/
theorem visits_cut (hl : f.limits = some l)
    (hv : visits f l.next (f.extent + 1) l.prev = some ps) {x : File}
    (hx : Same (f.apply (.truncate (reachOf f 0 ps))) x) :
    ∃ ws, walkWrites k x = some ws ∧ ws = sizeFix k ps.length (x.size.getD 0) := by
  have hlen := visits_length hv
  have hlow : headerSize ≤ reachOf f 0 ps :=
    Nat.le_trans (Nat.le_add_right _ _) hlen
  have hend : x.getEnd = reachOf f 0 ps :=
    (same_end hx).trans (getEnd_truncate f hlow)
  have hrec : ∀ q ∈ ps, x.recordAt q = f.recordAt q := by
    intro q hq
    obtain ⟨r, hr⟩ := Option.isSome_iff_exists.mp (visits_found hv hq)
    have hle := recordEnd_le_reachOf (f := f) 0 hq
    rw [recordEnd, hr] at hle
    rw [hx.record, recordAt_truncate f q hlow, hr, Option.filter_some, if_pos]
    exact decide_eq_true hle
  have hfuel : ps.length ≤ x.extent + 1 := by
    rw [File.getEnd] at hend
    omega
  have hv' := visits_fuel (visits_congr hrec hv) hfuel
  have hlim : x.limits = some l := by
    rw [hx.limits, limits_truncate hlow, hl]
  refine ⟨_, walkWrites_iff.mpr ⟨l, ps, hlim, hv', rfl⟩, ?_⟩
  rw [walkLog, reachOf_congr hrec, hend, endFix, if_neg (Nat.lt_irrefl _),
    List.append_nil]

/-- The walk has cut the file and has not told so. -/
theorem whole_cut (now : ℤ) {f₀ : File} (hs : f.status = some s)
    (hplan : undoPlan s = some (steps, k))
    (hcut : ∀ step ∈ steps, step.cuts = false) (hr : f.removed.isSome)
    (hus : undoWrites steps f = some us) (hf : Store.applyAll f us = f)
    (hext : f.extent = f₀.extent) (hl : f.limits = some l)
    (hv : visits f l.next (f.extent + 1) l.prev = some ps)
    (hlt : reachOf f 0 ps < f.getEnd) (hg : g = (Store.applyAll f
      (sizeFix k ps.length (f.size.getD 0))).apply (.truncate (reachOf f 0 ps))) :
    Restored now g L ↔ Resumable f₀ L g := by
  have hputs := undoWrites_puts hcut hus
  have hlow : headerSize ≤ reachOf f 0 ps :=
    Nat.le_trans (Nat.le_add_right _ _) (visits_length hv)
  obtain ⟨f', hf'⟩ : ∃ f', Store.applyAll f
      (sizeFix k ps.length (f.size.getD 0)) = f' := ⟨_, rfl⟩
  obtain ⟨hsame, hsize⟩ := put_again (k := k) (n := ps.length) hputs hf
    (f.size.getD 0)
  rw [hf'] at hg hsame hsize
  have hsame' : Same f f' := hf' ▸ same_sizeFix k ps.length (f.size.getD 0) f
  have hg' : Same (f.apply (.truncate (reachOf f 0 ps))) g :=
    hg ▸ same_truncate hlow hsame'
  have hx : Store.applyAll g us = (Store.applyAll f' us).apply
      (.truncate (reachOf f 0 ps)) := by
    rw [hg]
    exact Store.applyAll_comm (fun u hu => puts_truncate hlow (hputs u hu)) f'
  have hxsame : Same g (Store.applyAll g us) := by
    rw [hx, hg]
    exact same_truncate hlow (same_trans (same_symm hsame') hsame)
  obtain ⟨ws', hws', hfix⟩ := visits_cut (k := k) hl hv (same_trans hg' hxsame)
  have hrep : Represents (Store.applyAll g (us ++ ws')) L ↔ Represents g L := by
    rw [Store.applyAll_append, hfix]
    refine represents_same (same_trans hxsame (same_sizeFix _ _ _ _)) ?_
    have hgsize : g.size = f'.size := by rw [hg, size_truncate hlow]
    have hxsize : (Store.applyAll g us).size = (Store.applyAll f' us).size := by
      rw [hx, size_truncate hlow]
    rw [hgsize, ← hf']
    refine size_sizeFix ?_
    rw [hxsize, hf']
    exact hsize
  have hcopies : Copies f g := by
    rw [hg]
    exact copies_trans (hf' ▸ (copies_sizeFix k ps.length (f.size.getD 0) f).1)
      (copies_truncate hlow f')
  obtain ⟨hstatus, hremoved⟩ : g.status = f.status ∧ g.removed = f.removed := by
    obtain ⟨h₁, h₂⟩ := header_sizeFix k ps.length (f.size.getD 0) f
    obtain ⟨h₃, h₄⟩ := header_truncate hlow f'
    rw [hf'] at h₁ h₂
    rw [hg]
    exact ⟨h₃.trans h₁, h₄.trans h₂⟩
  have hno : g.extent ≠ f₀.extent := by
    have hend := getEnd_truncate f hlow
    rw [← same_end hg', File.getEnd] at hend
    rw [File.getEnd, hext] at hlt
    omega
  have hglim : g.limits.isSome := by
    rw [hg'.limits, limits_truncate hlow, hl]
    rfl
  rw [restored_iff_writes now (hstatus.trans hs) hplan hglim
    (hremoved ▸ hr), resumable_plan (hstatus.trans hs) hplan]
  constructor
  · rintro ⟨us', ws'', hus', hws'', hrep'⟩
    have hfinds := finds_of_undoWrites hus'
    have hsame := undoWrites_copies hcut hcopies hfinds hus
    rw [hus', Option.some.injEq] at hsame
    subst hsame
    rw [hws', Option.some.injEq] at hws''
    subst hws''
    exact ⟨hfinds, .inr (.inr (hrep.mp hrep'))⟩
  · rintro ⟨hfinds, hrest⟩
    have hnocut : steps.any UndoStep.cuts = false :=
      List.any_eq_false.mpr fun step hstep => by simp [hcut step hstep]
    rw [hnocut] at hrest
    have hthere := (hrest.resolve_left Bool.false_ne_true).resolve_left hno
    exact ⟨us, ws', undoWrites_copies hcut hcopies hfinds hus, hws',
      hrep.mpr hthere⟩

/-- A recovery by a plan that does not cut the file. -/
theorem whole_stops (now : ℤ) (hs : f.status = some s)
    (hplan : undoPlan s = some (steps, k)) (hl : f.limits.isSome)
    (hr : f.removed.isSome) (hcut : ∀ step ∈ steps, step.cuts = false)
    (hmark : .unerase ∉ steps.tail) (hus : undoWrites steps f = some us)
    (hws : walkWrites k (Store.applyAll f us) = some ws)
    (hrep : Represents (Store.applyAll f (us ++ ws)) L) :
    ∀ g ∈ Store.stops f (us ++ (ws ++ [.status .closed])),
      Restored now g L ↔ Resumable f L g := by
  have hputs := put_stops hl hr hcut hmark hus
  have hputting : ∀ g ∈ Store.stops f us,
      Restored now g L ↔ Resumable f L g := by
    intro g hg
    obtain ⟨hus', hput⟩ := hputs g hg
    have hstatus := hput.status.trans hs
    refine iff_of_true ?_ ?_
    · refine (restored_iff_writes now hstatus hplan hput.limits
        hput.removed).mpr ⟨us, ws, hus', hput.same.symm ▸ hws, ?_⟩
      rw [Store.applyAll_append] at hrep ⊢
      rwa [hput.same]
    · exact (resumable_plan hstatus hplan).mpr
        ⟨finds_of_undoWrites hus', .inr (.inl hput.extent)⟩
  obtain ⟨hus₁, hput₁⟩ := hputs _ (Store.applyAll_mem_stops f us)
  have hstatus₁ := hput₁.status.trans hs
  obtain ⟨l, ps, hl₁, hv, rfl⟩ := walkWrites_iff.mp hws
  rw [Store.applyAll_append] at hrep
  obtain ⟨f₁, hf₁⟩ : ∃ f₁, Store.applyAll f us = f₁ := ⟨_, rfl⟩
  have hsame := hput₁.same
  rw [hf₁] at hus₁ hput₁ hstatus₁ hl₁ hv hrep hsame
  have hsized := whole_sized now hstatus₁ hplan hcut hput₁.removed hus₁ hsame
    hput₁.extent hl₁ hv hrep
  have hlow : headerSize ≤ reachOf f₁ 0 ps :=
    Nat.le_trans (Nat.le_add_right _ _) (visits_length hv)
  intro g hg
  rcases Store.mem_stops_append.mp hg with hg | hg
  · exact hputting g hg
  · rw [hf₁, walkLog, List.append_assoc] at hg
    have hstart : Restored now f₁ L ↔ Resumable f L f₁ :=
      hf₁ ▸ hputting _ (Store.applyAll_mem_stops f us)
    rcases Store.mem_stops_append.mp hg with hg | hg
    · rw [sizeFix] at hg hsized
      split at hg
      · next hfix =>
          rw [if_pos hfix] at hsized
          rcases Store.mem_stops_cons.mp hg with rfl | hg
          · exact hstart
          · obtain rfl := Store.mem_stops_nil.mp hg
            exact hsized
      · obtain rfl := Store.mem_stops_nil.mp hg
        exact hstart
    · obtain ⟨hl₂, hr₂⟩ : (Store.applyAll f₁ (sizeFix k ps.length
          (f₁.size.getD 0))).limits.isSome ∧ (Store.applyAll f₁ (sizeFix k
          ps.length (f₁.size.getD 0))).removed.isSome := by
        have hsame := same_sizeFix k ps.length (f₁.size.getD 0) f₁
        obtain ⟨-, hremoved⟩ := header_sizeFix k ps.length (f₁.size.getD 0) f₁
        rw [hsame.limits, hremoved]
        exact ⟨hput₁.limits, hput₁.removed⟩
      obtain ⟨f₂, hf₂⟩ : ∃ f₂, Store.applyAll f₁ (sizeFix k ps.length
        (f₁.size.getD 0)) = f₂ := ⟨_, rfl⟩
      rw [hf₂] at hg hsized hl₂ hr₂
      by_cases hlt : reachOf f₁ 0 ps < f₁.getEnd
      · rw [endFix, if_pos hlt, List.append_assoc, List.cons_append,
          List.cons_append, List.nil_append] at hg
        rcases Store.mem_stops_cons.mp hg with rfl | hg
        · exact hsized
        rcases Store.mem_stops_cons.mp hg with rfl | hg
        · exact whole_cut now hstatus₁ hplan hcut hput₁.removed hus₁ hsame
            hput₁.extent hl₁ hv hlt (hf₂ ▸ rfl)
        obtain ⟨hl₃, hr₃⟩ := tame_header
          (show Write.Tame (.truncate (reachOf f₁ 0 ps)) from hlow) hl₂ hr₂
        have hidle : Idle ((f₂.apply (.truncate (reachOf f₁ 0 ps))).apply
          (.status .ftEnd)) := .inr (.inr rfl)
        refine ended_stops now f (fun w hw => ?_) hidle hl₃ hr₃ g hg
        have hmem : w ∈ sizeFix k ps.length (f₁.size.getD 0) ++
            endFix (reachOf f₁ 0 ps) f₁.getEnd l.next
              (iteratorAt f₁ l.next).prev (iteratorAt f₁ l.next).next ++
            [.status .closed] := by
          rw [endFix, if_pos hlt]
          simp only [List.mem_append] at hw ⊢
          exact hw.imp_left fun hw => .inr (.inr hw)
        exact tame_walk f₁.getEnd ps.length (f₁.size.getD 0) hlow w hmem
      · rw [endFix, if_neg hlt, List.nil_append] at hg
        rcases Store.mem_stops_cons.mp hg with rfl | hg
        · exact hsized
        · obtain rfl := Store.mem_stops_nil.mp hg
          exact idle_resumable (.inl rfl) hl₂ hr₂

/-! ### A plan that cuts the file -/

theorem undoWrites_cut {c : UndoStep} {pre post : List UndoStep}
    (hcut : c.cuts = true) (hus : undoWrites (pre ++ c :: post) f = some us) :
    ∃ us₁ n us₂, headerSize ≤ n ∧ undoWrites pre f = some us₁ ∧
      c.writes (Store.applyAll f us₁) = some [.truncate n, .status .ftEnd] ∧
      undoWrites post (((Store.applyAll f us₁).apply (.truncate n)).apply
        (.status .ftEnd)) = some us₂ ∧
      us = us₁ ++ (.truncate n :: .status .ftEnd :: us₂) := by
  rw [undoWrites_append] at hus
  obtain ⟨us₁, hus₁, hus⟩ := Option.bind_eq_some_iff.mp hus
  obtain ⟨vs, hvs, rfl⟩ := Option.map_eq_some_iff.mp hus
  obtain ⟨ws, hws, hvs⟩ := Option.bind_eq_some_iff.mp hvs
  obtain ⟨us₂, hus₂, rfl⟩ := Option.map_eq_some_iff.mp hvs
  obtain ⟨n, hn, rfl⟩ := writes_cut hcut hws
  exact ⟨us₁, n, us₂, hn, hus₁, hws, hus₂, rfl⟩

/-- A recovery by a plan that cuts the file itself. -/
theorem cut_stops {c : UndoStep} {pre post : List UndoStep} (now : ℤ)
    (hs : f.status = some s)
    (hplan : undoPlan s = some (pre ++ c :: post, k)) (hl : f.limits.isSome)
    (hr : f.removed.isSome) (hpre : ∀ step ∈ pre, step.cuts = false)
    (hmark : .unerase ∉ pre.tail) (hcut : c.cuts = true)
    (hpost : ∀ step ∈ post, step.cuts = false)
    (hus : undoWrites (pre ++ c :: post) f = some us)
    (hws : walkWrites k (Store.applyAll f us) = some ws)
    (hrep : Represents (Store.applyAll f (us ++ ws)) L) :
    ∀ g ∈ Store.stops f (us ++ (ws ++ [.status .closed])),
      Restored now g L ↔ Resumable f L g := by
  have hany : (pre ++ c :: post).any UndoStep.cuts = true := by simp [hcut]
  have hagain : ∀ g, g.status = some s → g.limits.isSome → g.removed.isSome →
      undoWrites (pre ++ c :: post) g = some us →
      Store.applyAll g us = Store.applyAll f us →
      (Restored now g L ↔ Resumable f L g) := by
    intro g hs hl hr hus' hsame
    refine iff_of_true ?_ ?_
    · refine (restored_iff_writes now hs hplan hl hr).mpr ⟨us, ws, hus',
        hsame.symm ▸ hws, ?_⟩
      rw [Store.applyAll_append] at hrep ⊢
      rwa [hsame]
    · exact (resumable_plan hs hplan).mpr
        ⟨finds_of_undoWrites hus', .inl hany⟩
  have hwhole := hus
  obtain ⟨us₁, n, us₂, hn, hus₁, hc, hus₂, rfl⟩ := undoWrites_cut hcut hus
  have hputs := put_stops hl hr hpre hmark hus₁
  have hputs₁ := undoWrites_puts hpre hus₁
  obtain ⟨-, hput₁⟩ := hputs _ (Store.applyAll_mem_stops f us₁)
  obtain ⟨f₁, hf₁⟩ : ∃ f₁, Store.applyAll f us₁ = f₁ := ⟨_, rfl⟩
  rw [hf₁] at hput₁ hc hus₂
  obtain ⟨hl₂, hr₂⟩ := tame_header (show Write.Tame (.truncate n) from hn)
    hput₁.limits hput₁.removed
  have hfirst : ∀ g ∈ Store.stops f us₁,
      Restored now g L ↔ Resumable f L g := by
    intro g hg
    obtain ⟨hus', hput⟩ := hputs g hg
    refine hagain g (hput.status.trans hs) hput.limits hput.removed ?_ ?_
    · rw [undoWrites_append] at hwhole ⊢
      rw [hus₁, Option.bind_some] at hwhole
      rw [hus', Option.bind_some, hput.same]
      exact hwhole
    · rw [Store.applyAll_append, Store.applyAll_append, hput.same]
  intro g hg
  rw [List.append_assoc, List.cons_append, List.cons_append] at hg
  rcases Store.mem_stops_append.mp hg with hg | hg
  · exact hfirst g hg
  rw [hf₁] at hg
  rcases Store.mem_stops_cons.mp hg with rfl | hg
  · exact hf₁ ▸ hfirst _ (Store.applyAll_mem_stops f us₁)
  have hstatus : (f₁.apply (.truncate n)).status = some s :=
    (header_truncate hn f₁).1.trans (hput₁.status.trans hs)
  have htwice := truncate_twice hn f₁
  have hstay : Store.applyAll f₁ us₁ = f₁ := hf₁ ▸ hput₁.same
  have hcopies := copies_trans hput₁.copies (copies_truncate hn f₁)
  have hback : Store.applyAll (f₁.apply (.truncate n)) us₁ =
      f₁.apply (.truncate n) := by
    have hcomm := Store.applyAll_comm (w := .truncate n)
      (fun u hu => puts_truncate hn (hputs₁ u hu)) f₁
    rwa [hstay] at hcomm
  have hc' := writes_again hcut hc
  have hafter : Store.applyAll f (us₁ ++ .truncate n :: .status .ftEnd :: us₂) =
      Store.applyAll ((f₁.apply (.truncate n)).apply (.status .ftEnd)) us₂ := by
    rw [Store.applyAll_append, hf₁]
    rfl
  obtain ⟨f₂, hf₂⟩ : ∃ f₂, f₁.apply (.truncate n) = f₂ := ⟨_, rfl⟩
  have htail : ∀ w ∈ us₂ ++ (ws ++ [.status .closed]), w.Tame := by
    obtain ⟨l, ps, -, hv, rfl⟩ := walkWrites_iff.mp hws
    have hlow := Nat.le_trans (Nat.le_add_right _ _) (visits_length hv)
    intro w hw
    rcases List.mem_append.mp hw with hw | hw
    · exact (undoWrites_puts hpost hus₂ w hw).tame
    · exact tame_walk _ _ _ hlow w hw
  change g ∈ Store.stops (f₁.apply (.truncate n)) _ at hg
  rw [hf₂] at hg hstatus htwice hcopies hback hc' hafter hl₂ hr₂ hus₂
  rcases Store.mem_stops_cons.mp hg with rfl | hg
  · -- the cut has been made, and its `ft_end` has not been written
    by_cases hfinds : ∀ step ∈ pre ++ c :: post, step.finds g = true
    · have hus₁' := undoWrites_copies hpre hcopies
        (fun step hstep => hfinds step (List.mem_append_left _ hstep)) hus₁
      have hended : Store.applyAll g [.truncate n, .status .ftEnd] =
          g.apply (.status .ftEnd) :=
        congrArg (fun g : File => g.apply (.status .ftEnd)) htwice
      refine hagain g hstatus hl₂ hr₂ ?_ ?_
      · rw [undoWrites_append, hus₁', Option.bind_some, hback, undoWrites,
          hc' (hfinds c (by simp)), Option.bind_some, hended, hus₂]
        rfl
      · rw [hafter, Store.applyAll_append, hback]
        exact congrArg (Store.applyAll · us₂) hended
    · rw [resumable_plan hstatus hplan]
      refine iff_of_false ?_ (fun h => hfinds h.1)
      intro hrest
      obtain ⟨us', ws', hus', -⟩ :=
        (restored_iff_writes now hstatus hplan hl₂ hr₂).mp hrest
      exact hfinds (finds_of_undoWrites hus')
  · have hidle : Idle (f₂.apply (.status .ftEnd)) := .inr (.inr rfl)
    exact ended_stops now f htail hidle hl₂ hr₂ g hg

/-! ### A status without a plan -/

theorem resumable_other (hs : g.status = some s) (hplan : undoPlan s = none) :
    Resumable f L g ↔ g.limits.isSome ∧ g.removed.isSome ∧
      (s ∈ [.closed, .opened, .ftEnd] → Represents g L) := by
  rw [Resumable, hs]
  simp only [hplan]

/-- The header is not complete. -/
theorem resumable_missing (hg : g.limits = none ∨ g.removed = none)
    (hs : g.status = none ∨ g.status = some .opened ∨ g.status = some .empty) :
    Restored now g L ↔ Resumable f L g := by
  refine iff_of_false (not_restored_missing hg) ?_
  have hnot : ¬ (g.limits.isSome ∧ g.removed.isSome) := by
    rintro ⟨hl, hr⟩
    rcases hg with hg | hg
    · simp [hg] at hl
    · simp [hg] at hr
  rcases hs with hs | hs | hs
  · rw [Resumable, hs]
    exact id
  · rw [resumable_other hs rfl]
    exact fun h => hnot ⟨h.1, h.2.1⟩
  · rw [resumable_other hs rfl]
    exact fun h => hnot ⟨h.1, h.2.1⟩

/-- While the header is written anew. -/
theorem emptied_stops (now now' : ℤ) (f : File) :
    ∀ g ∈ Store.stops File.none (emptyLog now ++
      [.status .ftEnd, .status .closed]),
      Restored now' g [] ↔ Resumable f [] g := by
  intro g hg
  simp only [emptyLog, List.cons_append, List.nil_append,
    Store.mem_stops_cons, Store.mem_stops_nil, store_apply] at hg
  rcases hg with rfl | rfl | rfl | rfl | rfl | rfl | rfl | rfl | rfl | rfl | rfl
  · exact resumable_missing (.inl rfl) (.inl rfl)
  · exact resumable_missing (.inl rfl) (.inl rfl)
  · exact resumable_missing (.inl rfl) (.inl rfl)
  · exact resumable_missing (.inl rfl) (.inr (.inl rfl))
  · exact resumable_missing (.inl rfl) (.inr (.inl rfl))
  · exact resumable_missing (.inl rfl) (.inr (.inr rfl))
  · exact resumable_missing (.inr rfl) (.inr (.inr rfl))
  · have hw := wellFormed_bare (g := ((((((File.none.apply
      (.stamp ⟨now, 0⟩)).apply (.size 0)).apply (.status .opened)).apply
      .emptyBackup).apply (.status .empty)).apply
      (.limits ⟨headerSize, headerSize⟩)).apply (.removed noRemoved))
      ⟨rfl, rfl, fun _ => rfl, rfl, rfl⟩ rfl rfl rfl
    refine iff_of_true (restored_empty hw rfl) ?_
    exact (resumable_other rfl rfl).mpr ⟨rfl, rfl, by simp⟩
  · exact idle_resumable (.inl rfl) rfl rfl
  · exact idle_resumable (.inr (.inr rfl)) rfl rfl
  · exact idle_resumable (.inl rfl) rfl rfl

theorem begun_run {it : FileIterator} (now : ℤ) (h : Handle) (hl : f.limits.isSome)
    (hr : f.removed.isSome) (hslot : f.iteratorBackup 0 = some it)
    (hzero : it.current = 0) (hs : f.status = some .ftBegin) :
    ∃ h', (initContainer now).run f h = ⟨.ok (), h', .truncate 0 ::
      (emptyLog now ++ [.status .ftEnd, .status .closed])⟩ := by
  have hrun := initContainer_run (h := h) now hl hr hs
  simp [recover, recoverFrom, readIteratorBackup, hslot, hzero,
    truncateFile_zero] at hrun
  exact ⟨_, hrun⟩

theorem begun_cut {it : FileIterator} (now : ℤ) (h : Handle) (hl : f.limits.isSome)
    (hr : f.removed.isSome) (hslot : f.iteratorBackup 0 = some it)
    (hlow : headerSize ≤ it.current) (hs : f.status = some .ftBegin) :
    ∃ h', (initContainer now).run f h = ⟨.ok (), h',
      [.truncate it.current, .status .ftEnd, .status .closed]⟩ := by
  have hrun := initContainer_run (h := h) now hl hr hs
  simp [recover, recoverFrom, readIteratorBackup, hslot,
    truncateFile_run hlow] at hrun
  exact ⟨_, hrun⟩

/-- Nothing but an empty list is found in an empty file. -/
theorem represents_emptied {n : ℤ} (hrep : Represents
    (Store.applyAll (File.none) (emptyLog n ++
      [.status .ftEnd, .status .closed])) L) : L = [] := by
  have hw := wellFormed_status (s := .closed)
    (wellFormed_status (s := .ftEnd) (wellFormed_emptied n))
  rw [Store.applyAll_append] at hrep
  exact represents_unique hrep (represents hw)

theorem begun_stops (now now' : ℤ) (hs : f.status = some .ftBegin)
    (hl : f.limits.isSome) (hr : f.removed.isSome) (hrest : Restored now f L) :
    ∀ g ∈ Store.stops f ((initContainer now).run f (fresh now)).log,
      Restored now' g L ↔ Resumable f L g := by
  have hresume : ∀ g : File, g.status = some .ftBegin → g.limits.isSome →
      g.removed.isSome → Restored now' g L →
      (Restored now' g L ↔ Resumable f L g) := by
    intro g hs hl hr hg
    exact iff_of_true hg ((resumable_other hs rfl).mpr ⟨hl, hr, by simp⟩)
  have hrun := initContainer_run (h := fresh now) now hl hr hs
  cases hslot : f.iteratorBackup 0 with
  | none =>
      simp [recover, recoverFrom, readIteratorBackup, hslot] at hrun
      exact absurd hrest (Prog.not_wp_of_error hrun)
  | some it =>
      by_cases hzero : it.current = 0
      · obtain ⟨h', hrun⟩ := begun_run now (fresh now) hl hr hslot
          hzero hs
        obtain ⟨h₁, hrun'⟩ := begun_run now' (fresh now') hl hr hslot
          hzero hs
        obtain ⟨-, hrep⟩ := (Prog.wp_iff_of_run hrun).mp hrest
        obtain rfl := represents_emptied (n := now) hrep
        rw [hrun]
        intro g hg
        rcases Store.mem_stops_cons.mp hg with rfl | hg
        · refine hresume g hs hl hr (Prog.wp_of_run hrun' ⟨rfl, represents ?_⟩)
          exact wellFormed_status (s := .closed)
            (wellFormed_status (s := .ftEnd) (wellFormed_emptied now'))
        · exact emptied_stops now now' f g hg
      · by_cases hlow : headerSize ≤ it.current
        · obtain ⟨h', hrun⟩ := begun_cut now (fresh now) hl hr hslot
            hlow hs
          obtain ⟨h₁, hrun₁⟩ := begun_cut now' (fresh now') hl hr
            hslot hlow hs
          obtain ⟨-, hrep⟩ := (Prog.wp_iff_of_run hrun).mp hrest
          obtain ⟨hl', hr'⟩ := tame_header
            (show Write.Tame (.truncate it.current) from hlow) hl hr
          obtain ⟨hslots, -, -⟩ := copies_truncate hlow f
          have hs' := (header_truncate hlow f).1.trans hs
          obtain ⟨h₂, hrun₂⟩ := begun_cut now' (fresh now') hl' hr'
            (hslots ▸ hslot) hlow hs'
          have htwice := truncate_twice hlow f
          rw [hrun]
          intro g hg
          rcases Store.mem_stops_cons.mp hg with rfl | hg
          · exact hresume g hs hl hr (Prog.wp_of_run hrun₁ ⟨rfl, hrep⟩)
          rcases Store.mem_stops_cons.mp hg with rfl | hg
          · refine hresume _ hs' hl' hr' (Prog.wp_of_run hrun₂ ⟨rfl, ?_⟩)
            have hsame : Store.applyAll
                (Store.apply f (Write.truncate it.current))
                [.truncate it.current, .status .ftEnd, .status .closed] =
                Store.applyAll f [.truncate it.current, .status .ftEnd,
                  .status .closed] :=
              congrArg (fun g : File => (g.apply (.status .ftEnd)).apply
                (.status .closed)) htwice
            rwa [hsame]
          · have hidle : Idle ((f.apply (.truncate it.current)).apply
              (.status .ftEnd)) := .inr (.inr rfl)
            refine ended_stops now' f ?_ hidle hl' hr' g hg
            simp [Write.Tame]
        · simp [recover, recoverFrom, readIteratorBackup, hslot, truncateFile,
            hzero, Nat.lt_of_not_le hlow] at hrun
          exact absurd hrest (Prog.not_wp_of_error hrun)

theorem syncData_header (h : Handle) (hl : f.limits.isSome)
    (hr : f.removed.isSome) :
    (syncData true).run f h = ⟨.ok (), headerRead f h, []⟩ := by
  obtain ⟨l, hl⟩ := Option.isSome_iff_exists.mp hl
  obtain ⟨r, hr⟩ := Option.isSome_iff_exists.mp hr
  cases hstamp : f.stamp <;>
    simp [syncData, readInitialPosition, readInitialRemoved, readSize,
      readStamp, hl, hr, hstamp, headerRead]

/-- The status `empty` erases the file or leaves it, at any time. -/
theorem empty_run (hl : f.limits.isSome) (hr : f.removed.isSome)
    (hs : f.status = some .empty) :
    (∀ n h, ∃ h', (initContainer n).run f h = ⟨.ok (), h',
        .status .closed :: (eraseLog n ++ [.status .closed])⟩) ∨
      ∀ n h, ∃ h', (initContainer n).run f h = ⟨.ok (), h',
        [.status .closed, .status .closed]⟩ := by
  obtain ⟨l, hl'⟩ := Option.isSome_iff_exists.mp hl
  have hsync : ∀ h : Handle, (syncData true).run (f.apply (.status .closed)) h =
      ⟨.ok (), headerRead f h, []⟩ := fun h => syncData_header h hl hr
  have hend : (f.apply (.status .closed)).getEnd = f.getEnd := rfl
  have hprev : ∀ h : Handle, (headerRead f h).limits.prev = l.prev := by
    intro h
    rw [headerRead, hl']
    rfl
  have hsize : ∀ h : Handle, (headerRead f h).size = f.size.getD 0 :=
    fun _ => rfl
  by_cases hbare : f.size.getD 0 = 0 ∧ ¬ l.prev = f.getEnd
  · refine .inl fun n h => ?_
    have hrun := initContainer_run (h := h) n hl hr hs
    simp [recover, recoverFrom, hsync, hend, hprev, hsize, hbare,
      eraseFile_run] at hrun
    exact ⟨_, hrun⟩
  · refine .inr fun n h => ?_
    have hrun := initContainer_run (h := h) n hl hr hs
    simp [recover, recoverFrom, hsync, hend, hprev, hsize, hbare] at hrun
    exact ⟨_, hrun⟩

theorem emptyStatus_stops (now now' : ℤ) (hs : f.status = some .empty)
    (hl : f.limits.isSome) (hr : f.removed.isSome) (hrest : Restored now f L) :
    ∀ g ∈ Store.stops f ((initContainer now).run f (fresh now)).log,
      Restored now' g L ↔ Resumable f L g := by
  have hresume : Restored now' f L → (Restored now' f L ↔ Resumable f L f) :=
    fun h => iff_of_true h ((resumable_other hs rfl).mpr ⟨hl, hr, by simp⟩)
  rcases empty_run hl hr hs with hruns | hruns
  · obtain ⟨h', hrun⟩ := hruns now (fresh now)
    obtain ⟨h₁, hrun₁⟩ := hruns now' (fresh now')
    obtain ⟨-, hrep⟩ := (Prog.wp_iff_of_run hrun).mp hrest
    have hfile : ∀ n, Store.applyAll f (.status .closed :: (eraseLog n ++
        [.status .closed])) = Store.applyAll File.none (emptyLog n ++
          [.status .ftEnd, .status .closed]) := fun n => rfl
    rw [hfile] at hrep
    obtain rfl := represents_emptied hrep
    have hw := wellFormed_status (s := .closed)
      (wellFormed_status (s := .ftEnd) (wellFormed_emptied now'))
    rw [hrun]
    intro g hg
    rcases Store.mem_stops_cons.mp hg with rfl | hg
    · refine hresume (Prog.wp_of_run hrun₁ ?_)
      rw [hfile]
      exact ⟨rfl, represents hw⟩
    rcases Store.mem_stops_cons.mp hg with rfl | hg
    · exact idle_resumable (.inl rfl) hl hr
    rcases Store.mem_stops_cons.mp hg with rfl | hg
    · exact idle_resumable (.inl rfl) hl hr
    rcases Store.mem_stops_cons.mp hg with rfl | hg
    · refine iff_of_true (restored_begun hl hr rfl rfl) ?_
      exact (resumable_other rfl rfl).mpr ⟨hl, hr, by simp⟩
    · exact emptied_stops now now' f g hg
  · obtain ⟨h', hrun⟩ := hruns now (fresh now)
    obtain ⟨h₁, hrun₁⟩ := hruns now' (fresh now')
    obtain ⟨-, hrep⟩ := (Prog.wp_iff_of_run hrun).mp hrest
    rw [hrun]
    intro g hg
    rcases Store.mem_stops_cons.mp hg with rfl | hg
    · exact hresume (Prog.wp_of_run hrun₁ ⟨rfl, hrep⟩)
    · have hidle : Idle (f.apply (.status .closed)) := .inl rfl
      exact ended_stops now' f (by simp [Write.Tame]) hidle hl hr g hg

theorem header_of_restored (hrest : Restored now f L) :
    f.limits.isSome ∧ f.removed.isSome := by
  rw [Option.isSome_iff_ne_none, Option.isSome_iff_ne_none]
  exact ⟨fun h => not_restored_missing (.inl h) hrest,
    fun h => not_restored_missing (.inr h) hrest⟩

theorem status_of_restored (hrest : Restored now f L) : ∃ s, f.status = some s := by
  cases hs : f.status with
  | some s => exact ⟨s, rfl⟩
  | none =>
      obtain ⟨hl, hr⟩ := header_of_restored hrest
      obtain ⟨l, hl⟩ := Option.isSome_iff_exists.mp hl
      obtain ⟨r, hr⟩ := Option.isSome_iff_exists.mp hr
      have hfails : ((initContainer now).run f (fresh now)).result =
          .error .syntaxError := by
        cases hstamp : f.stamp <;>
          simp [initContainer, readStamp, readInitialPosition,
            readInitialRemoved, readSize, readFileStatus, hl, hr, hs, hstamp]
      obtain ⟨a, h', ws, hrun, -⟩ := hrest
      rw [hrun] at hfails
      cases hfails

/-! ### Any recovery -/

/-- What a recovery has not yet put back when it is stopped can be put back
exactly where the stop is resumable. A closed file is left as it is. -/
theorem recovery_resumes_iff (now now' : ℤ) (hrest : Restored now f L) :
    (f.status = some .closed →
        ((initContainer now).run f (fresh now)).log = []) ∧
      ∀ g ∈ Store.stops f ((initContainer now).run f (fresh now)).log,
        Restored now' g L ↔ Resumable f L g := by
  obtain ⟨s, hs⟩ := status_of_restored hrest
  obtain ⟨hl, hr⟩ := header_of_restored hrest
  constructor
  · intro hclosed
    rw [initContainer_run now hl hr hclosed, if_pos rfl]
  · cases hplan : undoPlan s with
    | some plan =>
        obtain ⟨steps, k⟩ := plan
        obtain ⟨us, ws, hus, hws, hrep⟩ :=
          (restored_iff_writes now hs hplan hl hr).mp hrest
        obtain ⟨h', hrun⟩ := initContainer_writes now hs hplan hl hr hus hws
        rw [hrun, List.append_assoc]
        cases plan_undoPlan hplan with
        | whole _ hcut hmark =>
            exact whole_stops now' hs hplan hl hr hcut hmark hus hws hrep
        | cut pre post step hpre hmark hcut hpost =>
            exact cut_stops now' hs hplan hl hr hpre hmark hcut hpost hus hws
              hrep
    | none =>
        have hidle : s = .closed ∨ s = .opened ∨ s = .ftEnd →
            ∀ g ∈ Store.stops f ((initContainer now).run f (fresh now)).log,
              Restored now' g L ↔ Resumable f L g := by
          intro hidle
          have hlog : ∀ w ∈ ((initContainer now).run f (fresh now)).log,
              w.Tame := by
            rw [initContainer_run now hl hr hs]
            rcases hidle with rfl | rfl | rfl <;>
              simp [recover, recoverFrom, Write.Tame]
          refine ended_stops now' f hlog ?_ hl hr
          rcases hidle with rfl | rfl | rfl
          · exact .inl hs
          · exact .inr (.inl hs)
          · exact .inr (.inr hs)
        cases s with
        | closed => exact hidle (.inl rfl)
        | opened => exact hidle (.inr (.inl rfl))
        | ftEnd => exact hidle (.inr (.inr rfl))
        | empty => exact emptyStatus_stops now now' hs hl hr hrest
        | ftBegin => exact begun_stops now now' hs hl hr hrest
        | _ => cases hplan

end

/-- A second record has been written, and nothing has told so. -/
def written (c : Container) : File :=
  Store.applyAll c.file (((addData 6 ['b'] 487).run c.file c.handle).log.take 11)

theorem restored_written : ∃ c,
    run Container.next (created 5) [(5, .add ['a'] 391)] = some c ∧
      ∃ L, Restored 7 (written c) L := by
  have hmap : (run Container.next (created 5) [(5, .add ['a'] 391)]).map
      (fun c => decide (c.list = [(391, ['a'])] ∧ c.file.getEnd = 487 ∧
        (written c).iteratorBackup 0 ≠ some ⟨0, 0, 0⟩)) = some true := by
    decide
  obtain ⟨c, hrun, hc⟩ := Option.map_eq_some_iff.mp hmap
  obtain ⟨hlist, hend, hslot⟩ := of_decide_eq_true hc
  obtain ⟨⟨hw, hf, hcur, -⟩, -⟩ := run_invariant
    (fun _ _ _ hc _ hn => next_left hc hn) (created_left 5) (meets_true _ _ _) hrun
  refine ⟨c, hrun, ?_⟩
  rcases insertion_stops 7 hw hf (.inr (.inr hcur)) (by simp) (.inl hend.symm)
    (Store.applyAll_take_mem_stops c.file
      ((addData 6 ['b'] 487).run c.file c.handle).log 11) with ⟨hr | hr, -⟩ | ⟨-, hu⟩
  · exact ⟨_, hr⟩
  · exact ⟨_, hr⟩
  · refine absurd ⟨fun hnil => ?_, fun hzero => absurd hzero hslot⟩ hu
    rw [hlist] at hnil
    cases hnil

/-- Stopped in the recovery when the file has been cut, before the `ft_end`. -/
theorem recovery_resumes_cut : ∃ c,
    run Container.next (created 5) [(5, .add ['a'] 391)] = some c ∧
      ∃ L, ∃ g ∈ Store.stops (written c)
        ((initContainer 7).run (written c) (fresh 7)).log,
        g.extent < (written c).extent ∧ Restored 8 g L := by
  obtain ⟨c, hrun, L, hL⟩ := restored_written
  have hmap : (run Container.next (created 5) [(5, .add ['a'] 391)]).map
      (fun c => (fun g : File => decide (g.extent < (written c).extent ∧
        g.status = some .aeWritten ∧
        (UndoStep.iterator 0).finds g))
          (Store.applyAll (written c)
            (((initContainer 7).run (written c) (fresh 7)).log.take 1))) =
        some true := by
    decide
  rw [hrun, Option.map_some, Option.some.injEq] at hmap
  obtain ⟨hext, hs, hfirst⟩ := of_decide_eq_true hmap
  have hg := Store.applyAll_take_mem_stops (written c)
    ((initContainer 7).run (written c) (fresh 7)).log 1
  refine ⟨c, hrun, L, _, hg, hext, ?_⟩
  refine ((recovery_resumes_iff 7 8 hL).2 _ hg).mpr ?_
  refine (resumable_plan hs rfl).mpr ⟨?_, .inl rfl⟩
  intro step hstep
  simp only [List.mem_cons, List.not_mem_nil, or_false] at hstep
  rcases hstep with rfl | rfl | rfl
  · rfl
  · rfl
  · exact hfirst

/-- No record is where the limits say. -/
theorem not_restored_of_limits {f : File} {now : ℤ} (M : List Entry)
    (hf : ((initContainer now).final f (fresh now)).size ≠ some 0 ∧
      ((initContainer now).final f (fresh now)).limits.any fun l =>
        (((initContainer now).final f (fresh now)).recordAt l.next).isNone) :
    ¬ Restored now f M := by
  rintro ⟨a, h, ws, hrun, -, hrep⟩
  rw [Prog.final, hrun] at hf
  obtain ⟨hsize, hlim⟩ := hf
  rw [hrep.limits, Option.any_some] at hlim
  rcases List.eq_nil_or_concat' M with rfl | ⟨A, e, rfl⟩
  · exact hsize hrep.size
  · obtain ⟨r, hr, -⟩ := hrep.last e (by simp)
    simp [limitsOf, hr] at hlim

/-- Stopped one write later, after the `ft_end`. -/
theorem recovery_not_resumed : ∃ c,
    run Container.next (created 5) [(5, .add ['a'] 391)] = some c ∧
      (∃ L, Restored 7 (written c) L) ∧
      ∃ g ∈ Store.stops (written c)
        ((initContainer 7).run (written c) (fresh 7)).log,
        ∀ M, ¬ Restored 8 g M := by
  obtain ⟨c, hrun, hL⟩ := restored_written
  have hmap : (run Container.next (created 5) [(5, .add ['a'] 391)]).map
      (fun c => (fun g : File => decide (g.size ≠ some 0 ∧
        g.limits.any fun l => (g.recordAt l.next).isNone))
          ((initContainer 8).final (Store.applyAll (written c)
            (((initContainer 7).run (written c) (fresh 7)).log.take 2))
              (fresh 8))) = some true := by
    decide
  rw [hrun, Option.map_some, Option.some.injEq] at hmap
  exact ⟨c, hrun, hL, _, Store.applyAll_take_mem_stops _ _ 2,
    fun M => not_restored_of_limits M (of_decide_eq_true hmap)⟩

end Wms.Jobsubmission.FileContainer
