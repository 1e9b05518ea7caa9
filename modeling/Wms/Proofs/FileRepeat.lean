import Wms.Proofs.CompactionStop

/-!
# A recovery again

What a recovery puts back it can put back again, since the copies in the header
stay. The walk goes the same way again, and sets the size once.
-/

namespace Wms.Jobsubmission.FileContainer

open Wms.Lib

/-! ## Writes that can be repeated -/

def File.alter (f : File) (q : ℕ) (g : Record → Record) : File :=
  { f with body := Function.update f.body q ((f.body q).map g) }

theorem alter_alter (f : File) (q : ℕ) (g g' : Record → Record) :
    (f.alter q g).alter q g' = f.alter q (g' ∘ g) := by
  simp only [File.alter, Function.update_self, Function.update_idem,
    Option.map_map]

theorem alter_comm {p q : ℕ} (hne : p ≠ q) (f : File) (g g' : Record → Record) :
    (f.alter p g).alter q g' = (f.alter q g').alter p g := by
  simp only [File.alter, Function.update_of_ne hne, Function.update_of_ne hne.symm]
  rw [Function.update_comm hne]

/-- The writes of the steps that do not cut the file. -/
def Write.Puts : Write → Prop
  | .iterator _ _ | .dataHeader _ _ _ | .limits _ | .overwriteStart => True
  | _ => False

/-- The one write after which a part of it can be overwritten. -/
def Write.Marks : Write → Prop
  | .dataHeader _ _ _ => True
  | _ => False

theorem overwrites_self {w : Write} (hw : w.Puts) :
    Store.Overwrites File w w := by
  intro f
  cases w with
  | iterator p l => exact alter_alter f p _ _
  | dataHeader p l good => exact alter_alter f p _ _
  | limits l => rfl
  | overwriteStart => rfl
  | _ => exact hw.elim

theorem overwrites_or_commutes {u w : Write} (hu : u.Puts) (hw : w.Puts)
    (hmark : ¬ w.Marks) :
    Store.Overwrites File u w ∨ Store.Commutes File u w := by
  cases w with
  | iterator p l =>
      cases u with
      | iterator q l' =>
          by_cases hpq : p = q
          · exact .inl fun f => hpq ▸ alter_alter f p _ _
          · exact .inr fun f => alter_comm hpq f _ _
      | dataHeader q l' good =>
          by_cases hpq : p = q
          · exact .inl fun f => hpq ▸ alter_alter f p _ _
          · exact .inr fun f => alter_comm hpq f _ _
      | limits l' => exact .inr fun f => rfl
      | overwriteStart => exact .inr fun f => rfl
      | _ => exact hu.elim
  | limits l =>
      cases u with
      | limits l' => exact .inl fun f => rfl
      | iterator q l' => exact .inr fun f => rfl
      | dataHeader q l' good => exact .inr fun f => rfl
      | overwriteStart => exact .inr fun f => rfl
      | _ => exact hu.elim
  | overwriteStart =>
      cases u with
      | limits l' => exact .inr fun f => rfl
      | iterator q l' => exact .inr fun f => rfl
      | dataHeader q l' good => exact .inr fun f => rfl
      | overwriteStart => exact .inl fun f => rfl
      | _ => exact hu.elim
  | dataHeader p l good => exact absurd trivial hmark
  | _ => exact hw.elim

theorem repeatable_puts {ws : List Write} (hws : ∀ w ∈ ws, w.Puts)
    (hmark : ∀ w ∈ ws.tail, ¬ w.Marks) : Store.Repeatable File ws where
  self := fun w hw => overwrites_self (hws w hw)
  pair := by
    cases ws with
    | nil => exact List.Pairwise.nil
    | cons u ws =>
        rw [List.tail_cons] at hmark
        refine List.pairwise_cons.mpr ⟨fun w hw => ?_, ?_⟩
        · exact overwrites_or_commutes (hws u List.mem_cons_self)
            (hws w (List.mem_cons_of_mem _ hw)) (hmark w hw)
        · refine List.pairwise_of_forall_mem_list fun v hv w hw => ?_
          exact overwrites_or_commutes (hws v (List.mem_cons_of_mem _ hv))
            (hws w (List.mem_cons_of_mem _ hw)) (hmark w hw)

section
variable {f g : File} {n : ℕ} {w : Write} {ws : List Write}

/-- A cut changes places with a change that leaves the data. -/
theorem alter_truncate {k : Record → Record} (hk : ∀ r, (k r).data = r.data)
    (hn : headerSize ≤ n) (f : File) (q : ℕ) :
    (f.apply (.truncate n)).alter q k = (f.alter q k).apply (.truncate n) := by
  have hrec := recordAt_update f
  have hpos := headerSize_pos
  obtain ⟨m, rfl⟩ : ∃ m, n = m + 1 := ⟨n - 1, by omega⟩
  refine File.ext rfl rfl rfl rfl rfl rfl rfl (funext fun p => ?_) rfl
  change Function.update (f.apply (.truncate (m + 1))).body q
      (((f.apply (.truncate (m + 1))).body q).map k) p =
    Option.filter _ ((f.alter q k).recordAt p)
  rw [File.alter, hrec]
  by_cases hp : p = q
  · subst hp
    rw [Function.update_self, if_pos rfl, Option.filter_map]
    refine congrArg _ ?_
    simp only [File.apply, Function.comp_def, hk]
  · rw [Function.update_of_ne hp, if_neg hp]
    rfl

/-- A cut changes places with what is put back. -/
theorem puts_truncate (hn : headerSize ≤ n) (hw : w.Puts) :
    Store.Commutes File w (.truncate n) := by
  intro f
  cases w with
  | iterator q l =>
      exact alter_truncate (k := fun r => { r with links := l }) (fun _ => rfl)
        hn f q
  | dataHeader q l good =>
      exact alter_truncate (k := fun r => { r with links := l, good := good })
        (fun _ => rfl) hn f q
  | limits l =>
      have hpos := headerSize_pos
      obtain ⟨m, rfl⟩ : ∃ m, n = m + 1 := ⟨n - 1, by omega⟩
      rfl
  | overwriteStart =>
      have hpos := headerSize_pos
      obtain ⟨m, rfl⟩ : ∃ m, n = m + 1 := ⟨n - 1, by omega⟩
      rfl
  | _ => exact hw.elim

theorem truncate_twice (hn : headerSize ≤ n) (f : File) :
    (f.apply (.truncate n)).apply (.truncate n) = f.apply (.truncate n) := by
  have hrec := recordAt_truncate f
  have hpos := headerSize_pos
  obtain ⟨m, rfl⟩ : ∃ m, n = m + 1 := ⟨n - 1, by omega⟩
  refine File.ext rfl rfl rfl rfl rfl rfl rfl (funext fun p => ?_) rfl
  change Option.filter _ ((f.apply (.truncate (m + 1))).recordAt p) =
    Option.filter _ (f.recordAt p)
  rw [hrec p hn, Option.filter_filter]
  simp

end

/-! ## The steps again -/

def UndoStep.cuts : UndoStep → Bool
  | .cutAtNext | .cutAtPrev | .cutAtNew => true
  | .iterator _ | .limits | .unerase => false

/-- The record that a step writes to or reads is in the file. -/
def UndoStep.finds (g : File) : UndoStep → Bool
  | .iterator what => (g.iteratorBackup what).any fun it =>
      (g.recordAt it.current).isSome || decide (it = ⟨0, 0, 0⟩)
  | .cutAtNew => (g.iteratorBackup 0).any fun it =>
      (g.recordAt it.current).isSome
  | .unerase => (g.iteratorBackup 2).any fun it =>
      (g.recordAt it.current).isSome
  | .limits | .cutAtNext | .cutAtPrev => true

/-- The copies are the same, and no record is there that was not. -/
structure Copies (f g : File) : Prop where
  slots : g.iteratorBackup = f.iteratorBackup
  limitsBackup : g.limitsBackup = f.limitsBackup
  records : ∀ p, (g.recordAt p).isSome → (f.recordAt p).isSome

section
variable {f g : File} {n : ℕ} {w : Write} {us ws : List Write}
  {step : UndoStep} {steps pre post : List UndoStep}

theorem copies_refl (f : File) : Copies f f := ⟨rfl, rfl, fun _ h => h⟩

theorem copies_puts (hw : w.Puts) (f : File) :
    Copies f (f.apply w) ∧ Copies (f.apply w) f := by
  cases w with
  | iterator q l =>
      have hrec : ∀ p, ((f.apply (.iterator q l)).recordAt p).isSome =
          (f.recordAt p).isSome := by
        intro p
        rw [recordAt_iterator]
        split
        · exact Option.isSome_map
        · rfl
      exact ⟨⟨rfl, rfl, fun p h => hrec p ▸ h⟩, rfl, rfl, fun p h => (hrec p).symm ▸ h⟩
  | dataHeader q l good =>
      have hrec : ∀ p, ((f.apply (.dataHeader q l good)).recordAt p).isSome =
          (f.recordAt p).isSome := by
        intro p
        rw [recordAt_dataHeader]
        split
        · exact Option.isSome_map
        · rfl
      exact ⟨⟨rfl, rfl, fun p h => hrec p ▸ h⟩, rfl, rfl, fun p h => (hrec p).symm ▸ h⟩
  | limits l => exact ⟨⟨rfl, rfl, fun _ h => h⟩, rfl, rfl, fun _ h => h⟩
  | overwriteStart => exact ⟨⟨rfl, rfl, fun _ h => h⟩, rfl, rfl, fun _ h => h⟩
  | _ => exact hw.elim

theorem copies_trans {e : File} (hef : Copies e f) (hfg : Copies f g) :
    Copies e g :=
  ⟨hfg.slots.trans hef.slots, hfg.limitsBackup.trans hef.limitsBackup,
    fun p h => hef.records p (hfg.records p h)⟩

theorem copies_putsAll (hws : ∀ w ∈ ws, w.Puts) (f : File) :
    Copies f (Store.applyAll f ws) ∧ Copies (Store.applyAll f ws) f := by
  induction ws generalizing f with
  | nil => exact ⟨copies_refl f, copies_refl f⟩
  | cons w ws ih =>
      obtain ⟨h₁, h₁'⟩ := copies_puts (hws w List.mem_cons_self) f
      obtain ⟨h₂, h₂'⟩ := ih (fun v hv => hws v (List.mem_cons_of_mem _ hv))
        (f.apply w)
      exact ⟨copies_trans h₁ h₂, copies_trans h₂' h₁'⟩

theorem copies_truncate (hn : headerSize ≤ n) (f : File) :
    Copies f (f.apply (.truncate n)) := by
  obtain ⟨hslots, hbackup, -, -⟩ := backup_cut (g := f) hn
  refine ⟨hslots, hbackup, fun p hp => ?_⟩
  rw [recordAt_truncate f p hn] at hp
  obtain ⟨r, hr⟩ := Option.isSome_iff_exists.mp hp
  rw [Option.filter_eq_some_iff] at hr
  rw [hr.1]
  rfl

theorem copies_sizeFix (k : ℤ) (n m : ℕ) (f : File) :
    Copies f (Store.applyAll f (sizeFix k n m)) ∧
      Copies (Store.applyAll f (sizeFix k n m)) f := by
  rw [sizeFix]
  split
  · exact ⟨⟨rfl, rfl, fun _ h => h⟩, rfl, rfl, fun _ h => h⟩
  · exact ⟨copies_refl f, copies_refl f⟩

theorem header_sizeFix (k : ℤ) (n m : ℕ) (f : File) :
    (Store.applyAll f (sizeFix k n m)).status = f.status ∧
      (Store.applyAll f (sizeFix k n m)).removed = f.removed := by
  rw [sizeFix]
  split <;> exact ⟨rfl, rfl⟩

theorem header_truncate (hn : headerSize ≤ n) (f : File) :
    (f.apply (.truncate n)).status = f.status ∧
      (f.apply (.truncate n)).removed = f.removed := by
  have hpos := headerSize_pos
  obtain ⟨m, rfl⟩ : ∃ m, n = m + 1 := ⟨n - 1, by omega⟩
  exact ⟨rfl, rfl⟩

theorem finds_copies (hc : Copies f g) (hg : step.finds g = true) :
    step.finds f = true := by
  cases step with
  | iterator what =>
      rw [UndoStep.finds, Option.any_eq_true] at hg ⊢
      obtain ⟨it, hit, hfind⟩ := hg
      refine ⟨it, hc.slots ▸ hit, ?_⟩
      rw [Bool.or_eq_true] at hfind ⊢
      exact hfind.imp_left (hc.records _)
  | cutAtNew =>
      rw [UndoStep.finds, Option.any_eq_true] at hg ⊢
      obtain ⟨it, hit, hfind⟩ := hg
      exact ⟨it, hc.slots ▸ hit, hc.records _ hfind⟩
  | unerase =>
      rw [UndoStep.finds, Option.any_eq_true] at hg ⊢
      obtain ⟨it, hit, hfind⟩ := hg
      exact ⟨it, hc.slots ▸ hit, hc.records _ hfind⟩
  | limits => rfl
  | cutAtNext => rfl
  | cutAtPrev => rfl

/-- A step that does not cut has one write. -/
theorem writes_one (hcut : step.cuts = false) (hw : step.writes f = some ws) :
    ∃ w : Write, ws = [w] ∧ w.Puts ∧ (w.Marks → step = .unerase) := by
  cases step with
  | iterator what =>
      obtain ⟨it, -, hw⟩ := Option.bind_eq_some_iff.mp hw
      split at hw
      · exact ⟨_, (Option.some.inj hw).symm, trivial, False.elim⟩
      · split at hw
        · exact ⟨_, (Option.some.inj hw).symm, trivial, False.elim⟩
        · cases hw
  | limits =>
      obtain ⟨l, -, rfl⟩ := Option.map_eq_some_iff.mp hw
      exact ⟨_, rfl, trivial, False.elim⟩
  | unerase =>
      obtain ⟨it, -, hw⟩ := Option.bind_eq_some_iff.mp hw
      split at hw
      · exact ⟨_, (Option.some.inj hw).symm, trivial, fun _ => rfl⟩
      · cases hw
  | cutAtNext => cases hcut
  | cutAtPrev => cases hcut
  | cutAtNew => cases hcut

theorem finds_of_writes (hw : step.writes f = some ws) :
    step.finds f = true := by
  cases step with
  | iterator what =>
      obtain ⟨it, hit, hw⟩ := Option.bind_eq_some_iff.mp hw
      rw [UndoStep.finds, Option.any_eq_true]
      refine ⟨it, hit, ?_⟩
      split at hw
      · next hr => rw [hr, Bool.true_or]
      · split at hw
        · next hzero => rw [decide_eq_true hzero, Bool.or_true]
        · cases hw
  | cutAtNew =>
      obtain ⟨it, hit, hw⟩ := Option.bind_eq_some_iff.mp hw
      obtain ⟨r, hr, -⟩ := Option.bind_eq_some_iff.mp hw
      rw [UndoStep.finds, Option.any_eq_true]
      exact ⟨it, hit, hr ▸ rfl⟩
  | unerase =>
      obtain ⟨it, hit, hw⟩ := Option.bind_eq_some_iff.mp hw
      rw [UndoStep.finds, Option.any_eq_true]
      refine ⟨it, hit, ?_⟩
      split at hw
      · assumption
      · cases hw
  | limits => rfl
  | cutAtNext => rfl
  | cutAtPrev => rfl

/-- It is the same on files with the same copies, where its record is found. -/
theorem writes_copies (hcut : step.cuts = false) (hc : Copies f g)
    (hg : step.finds g = true) (hw : step.writes f = some ws) :
    step.writes g = some ws := by
  cases step with
  | iterator what =>
      obtain ⟨it, hit, hw⟩ := Option.bind_eq_some_iff.mp hw
      rw [UndoStep.finds, hc.slots, hit, Option.any_some, Bool.or_eq_true] at hg
      rw [UndoStep.writes, hc.slots, hit, Option.bind_some]
      rcases hg with hg | hzero
      · rw [if_pos (hc.records _ hg)] at hw
        rwa [if_pos hg]
      · obtain rfl := of_decide_eq_true hzero
        rw [recordAt_zero] at hw ⊢
        exact hw
  | limits =>
      rw [UndoStep.writes, hc.limitsBackup]
      exact hw
  | unerase =>
      obtain ⟨it, hit, hw⟩ := Option.bind_eq_some_iff.mp hw
      rw [UndoStep.finds, hc.slots, hit, Option.any_some] at hg
      rw [UndoStep.writes, hc.slots, hit, Option.bind_some, if_pos hg]
      rwa [if_pos (hc.records _ hg)] at hw
  | cutAtNext => cases hcut
  | cutAtPrev => cases hcut
  | cutAtNew => cases hcut

/-! ### Lists of steps -/

theorem undoWrites_append :
    undoWrites (pre ++ post) f = (undoWrites pre f).bind fun us =>
      (undoWrites post (Store.applyAll f us)).map (us ++ ·) := by
  induction pre generalizing f with
  | nil =>
      rw [List.nil_append, undoWrites, Option.bind_some, Store.applyAll_nil]
      cases undoWrites post f <;> rfl
  | cons step pre ih =>
      rw [List.cons_append, undoWrites, undoWrites]
      cases step.writes f with
      | none => rfl
      | some ws =>
          rw [Option.bind_some, Option.bind_some, ih]
          cases undoWrites pre (Store.applyAll f ws) with
          | none => rfl
          | some us =>
              simp only [Option.bind_some, Option.map_some,
                Store.applyAll_append]
              cases undoWrites post
                (Store.applyAll (Store.applyAll f ws) us) <;> simp

theorem undoWrites_puts (hcut : ∀ step ∈ steps, step.cuts = false)
    (hus : undoWrites steps f = some us) : ∀ w ∈ us, w.Puts := by
  induction steps generalizing f us with
  | nil =>
      obtain rfl := Option.some.inj hus
      simp
  | cons step steps ih =>
      obtain ⟨ws, hws, hus⟩ := Option.bind_eq_some_iff.mp hus
      obtain ⟨vs, hvs, rfl⟩ := Option.map_eq_some_iff.mp hus
      obtain ⟨w, rfl, hw, -⟩ := writes_one (hcut step List.mem_cons_self) hws
      have hrest := ih (fun s hs => hcut s (List.mem_cons_of_mem _ hs)) hvs
      exact List.forall_mem_cons.mpr ⟨hw, hrest⟩

theorem writes_cut (hcut : step.cuts = true) (hw : step.writes f = some ws) :
    ∃ n, headerSize ≤ n ∧ ws = [.truncate n, .status .ftEnd] := by
  cases step with
  | cutAtNext =>
      obtain ⟨l, -, hw⟩ := Option.bind_eq_some_iff.mp hw
      exact ⟨_, cutWrites_some hw⟩
  | cutAtPrev =>
      obtain ⟨l, -, hw⟩ := Option.bind_eq_some_iff.mp hw
      exact ⟨_, cutWrites_some hw⟩
  | cutAtNew =>
      obtain ⟨it, -, hw⟩ := Option.bind_eq_some_iff.mp hw
      obtain ⟨r, -, hw⟩ := Option.bind_eq_some_iff.mp hw
      exact ⟨_, cutWrites_some hw⟩
  | iterator what => cases hcut
  | limits => cases hcut
  | unerase => cases hcut

/-- No step brings a record that was not there. -/
theorem copies_writes (hw : step.writes f = some ws) :
    Copies f (Store.applyAll f ws) := by
  cases hcut : step.cuts with
  | false =>
      obtain ⟨w, rfl, hputs, -⟩ := writes_one hcut hw
      exact (copies_puts hputs f).1
  | true =>
      obtain ⟨n, hn, rfl⟩ := writes_cut hcut hw
      obtain ⟨hslots, hbackup, hrec⟩ := copies_truncate hn f
      exact ⟨hslots, hbackup, hrec⟩

/-- A file that has been cut there is cut at the same place again. -/
theorem writes_again (hcut : step.cuts = true)
    (hw : step.writes f = some [.truncate n, .status .ftEnd])
    (hg : step.finds (f.apply (.truncate n)) = true) :
    step.writes (f.apply (.truncate n)) =
      some [.truncate n, .status .ftEnd] := by
  have hn : headerSize ≤ n := by
    obtain ⟨m, hm, heq⟩ := writes_cut hcut hw
    simp only [List.cons.injEq, Write.truncate.injEq] at heq
    exact heq.1 ▸ hm
  cases step with
  | cutAtNext => rwa [UndoStep.writes, limits_truncate hn]
  | cutAtPrev => rwa [UndoStep.writes, limits_truncate hn]
  | cutAtNew =>
      obtain ⟨hslots, -, -⟩ := copies_truncate hn f
      obtain ⟨it, hit, hw⟩ := Option.bind_eq_some_iff.mp hw
      obtain ⟨r, hr, hw⟩ := Option.bind_eq_some_iff.mp hw
      rw [UndoStep.finds, hslots, hit, Option.any_some,
        recordAt_truncate f _ hn, hr] at hg
      rw [UndoStep.writes, hslots, hit, Option.bind_some,
        recordAt_truncate f _ hn, hr]
      obtain ⟨r', hr'⟩ := Option.isSome_iff_exists.mp hg
      obtain ⟨heq, -⟩ := Option.filter_eq_some_iff.mp hr'
      rw [hr', ← heq]
      exact hw
  | iterator what => cases hcut
  | limits => cases hcut
  | unerase => cases hcut

theorem undoWrites_copies (hcut : ∀ step ∈ steps, step.cuts = false)
    (hc : Copies f g) (hfind : ∀ step ∈ steps, step.finds g = true)
    (hus : undoWrites steps f = some us) : undoWrites steps g = some us := by
  induction steps generalizing f g us with
  | nil => exact hus
  | cons step steps ih =>
      obtain ⟨ws, hws, hus⟩ := Option.bind_eq_some_iff.mp hus
      obtain ⟨vs, hvs, rfl⟩ := Option.map_eq_some_iff.mp hus
      have hcut₁ := hcut step List.mem_cons_self
      have hws' := writes_copies hcut₁ hc (hfind step List.mem_cons_self) hws
      obtain ⟨w, rfl, hw, -⟩ := writes_one hcut₁ hws
      obtain ⟨-, hback⟩ := copies_puts hw f
      obtain ⟨hforth, hback'⟩ := copies_puts hw g
      have hrest := ih (fun s hs => hcut s (List.mem_cons_of_mem _ hs))
        (copies_trans hback (copies_trans hc hforth))
        (fun s hs => finds_copies hback' (hfind s (List.mem_cons_of_mem _ hs)))
        hvs
      rw [undoWrites, hws', Option.bind_some]
      exact Option.map_eq_some_iff.mpr ⟨vs, hrest, rfl⟩

theorem finds_of_undoWrites (hus : undoWrites steps f = some us) :
    ∀ step ∈ steps, step.finds f = true := by
  induction steps generalizing f us with
  | nil => simp
  | cons step steps ih =>
      obtain ⟨ws, hws, hus⟩ := Option.bind_eq_some_iff.mp hus
      obtain ⟨vs, hvs, rfl⟩ := Option.map_eq_some_iff.mp hus
      intro s hs
      rcases List.mem_cons.mp hs with rfl | hs
      · exact finds_of_writes hws
      · exact finds_copies (copies_writes hws) (ih hvs s hs)

/-- The plans: no step cuts the file, or one does, and at most one that does not
comes before it. The record that is marked is put back first. -/
inductive Plan : List UndoStep → Prop where
  | whole (steps : List UndoStep) (hcut : ∀ step ∈ steps, step.cuts = false)
      (hmark : .unerase ∉ steps.tail) : Plan steps
  | cut (pre post : List UndoStep) (step : UndoStep)
      (hpre : ∀ step ∈ pre, step.cuts = false) (hmark : .unerase ∉ pre.tail)
      (hcut : step.cuts = true) (hpost : ∀ step ∈ post, step.cuts = false) :
      Plan (pre ++ step :: post)

theorem plan_undoPlan {s : FileStatus} {k : ℤ}
    (hplan : undoPlan s = some (steps, k)) : Plan steps := by
  cases s with
  | aeWriting | aeWritten =>
      cases hplan
      exact .cut [] _ .cutAtNext (by simp) (by simp) rfl
        (by simp [UndoStep.cuts])
  | abWriting | abWritten =>
      cases hplan
      exact .cut [] _ .cutAtPrev (by simp) (by simp) rfl
        (by simp [UndoStep.cuts])
  | amWriting | amWritten =>
      cases hplan
      exact .cut [] _ .cutAtNew (by simp) (by simp) rfl
        (by simp [UndoStep.cuts])
  | abLast =>
      cases hplan
      exact .cut [.iterator 2] _ .cutAtPrev (by simp [UndoStep.cuts]) (by simp) rfl
        (by simp [UndoStep.cuts])
  | amLast =>
      cases hplan
      exact .cut [.iterator 2] _ .cutAtNew (by simp [UndoStep.cuts]) (by simp) rfl
        (by simp [UndoStep.cuts])
  | closed | empty | opened | ftBegin | ftEnd => cases hplan
  | _ =>
      cases hplan
      exact .whole _ (by simp [UndoStep.cuts]) (by simp)

theorem marks_undoWrites (hcut : ∀ step ∈ steps, step.cuts = false)
    (hmark : .unerase ∉ steps) (hus : undoWrites steps f = some us) :
    ∀ w ∈ us, ¬ w.Marks := by
  induction steps generalizing f us with
  | nil =>
      obtain rfl := Option.some.inj hus
      simp
  | cons step steps ih =>
      obtain ⟨ws, hws, hus⟩ := Option.bind_eq_some_iff.mp hus
      obtain ⟨vs, hvs, rfl⟩ := Option.map_eq_some_iff.mp hus
      obtain ⟨w, rfl, -, hw⟩ := writes_one (hcut step List.mem_cons_self) hws
      rw [List.mem_cons, not_or] at hmark
      have hrest := ih (fun s hs => hcut s (List.mem_cons_of_mem _ hs)) hmark.2
        hvs
      exact List.forall_mem_cons.mpr ⟨fun h => hmark.1 (hw h).symm, hrest⟩

/-- What such steps write can be repeated. -/
theorem repeatable_undoWrites (hcut : ∀ step ∈ steps, step.cuts = false)
    (hmark : .unerase ∉ steps.tail) (hus : undoWrites steps f = some us) :
    Store.Repeatable File us := by
  refine repeatable_puts (undoWrites_puts hcut hus) ?_
  cases steps with
  | nil =>
      obtain rfl := Option.some.inj hus
      simp
  | cons step steps =>
      obtain ⟨ws, hws, hus⟩ := Option.bind_eq_some_iff.mp hus
      obtain ⟨vs, hvs, rfl⟩ := Option.map_eq_some_iff.mp hus
      obtain ⟨w, rfl, -, -⟩ := writes_one (hcut step List.mem_cons_self) hws
      exact marks_undoWrites (fun s hs => hcut s (List.mem_cons_of_mem _ hs))
        hmark hvs

end

/-! ## The walk again -/

section
variable {f g : File} {fuel fuel' last p q : ℕ} {ps qs : List ℕ}

theorem visits_unique (hp : visits f last fuel p = some ps)
    (hq : visits f last fuel' p = some qs) : ps = qs := by
  induction fuel generalizing fuel' p ps qs with
  | zero => cases hp
  | succ fuel ih =>
      cases fuel' with
      | zero => cases hq
      | succ fuel' =>
          obtain ⟨r, hr, hp⟩ := Option.bind_eq_some_iff.mp hp
          rw [visits, hr, Option.bind_some] at hq
          split at hp
          · next hlast =>
              rw [if_pos hlast] at hq
              rw [← Option.some.inj hp, ← Option.some.inj hq]
          · next hlast =>
              rw [if_neg hlast] at hq
              obtain ⟨ps', hps, rfl⟩ := Option.map_eq_some_iff.mp hp
              obtain ⟨qs', hqs, rfl⟩ := Option.map_eq_some_iff.mp hq
              rw [ih hps hqs]

/-- From every record of a walk the rest of it is a walk. -/
theorem visits_rest (hp : visits f last fuel p = some ps) (hq : q ∈ ps) :
    ∃ fuel' qs, visits f last fuel' q = some qs ∧ qs.length ≤ ps.length ∧
      (q ∈ ps.tail → qs.length < ps.length) := by
  induction fuel generalizing p ps with
  | zero => cases hp
  | succ fuel ih =>
      have hwhole := hp
      obtain ⟨r, hr, hp⟩ := Option.bind_eq_some_iff.mp hp
      split at hp
      · obtain rfl := Option.some.inj hp
        obtain rfl := List.mem_singleton.mp hq
        exact ⟨_, _, hwhole, Nat.le_refl _, by simp⟩
      · obtain ⟨ps', hps, rfl⟩ := Option.map_eq_some_iff.mp hp
        by_cases hmem : q ∈ ps'
        · obtain ⟨fuel', qs, hqs, hle, -⟩ := ih hps hmem
          have hlt : qs.length < (p :: ps').length :=
            Nat.lt_succ_of_le hle
          exact ⟨fuel', qs, hqs, Nat.le_of_lt hlt, fun _ => hlt⟩
        · obtain rfl : q = p := (List.mem_cons.mp hq).resolve_right hmem
          exact ⟨_, _, hwhole, Nat.le_refl _, fun h => absurd h hmem⟩

theorem visits_nodup (hp : visits f last fuel p = some ps) : ps.Nodup := by
  induction fuel generalizing p ps with
  | zero => cases hp
  | succ fuel ih =>
      have hwhole := hp
      obtain ⟨r, hr, hp⟩ := Option.bind_eq_some_iff.mp hp
      split at hp
      · obtain rfl := Option.some.inj hp
        exact List.nodup_cons.mpr ⟨List.not_mem_nil, List.nodup_nil⟩
      · obtain ⟨ps', hps, rfl⟩ := Option.map_eq_some_iff.mp hp
        refine List.nodup_cons.mpr ⟨fun hmem => ?_, ih hps⟩
        -- a walk that came back to where it began would not end
        obtain ⟨fuel', qs, hqs, -, hlt⟩ :=
          visits_rest hwhole (List.mem_cons_of_mem p hmem)
        have hlen := hlt hmem
        rw [visits_unique hqs hwhole] at hlen
        exact Nat.lt_irrefl _ hlen

theorem visits_found (hp : visits f last fuel p = some ps) (hq : q ∈ ps) :
    (f.recordAt q).isSome := by
  obtain ⟨fuel', qs, hqs, -⟩ := visits_rest hp hq
  exact visits_first hqs

theorem visits_fuel (hp : visits f last fuel p = some ps)
    (hlen : ps.length ≤ fuel') : visits f last fuel' p = some ps := by
  induction fuel generalizing fuel' p ps with
  | zero => cases hp
  | succ fuel ih =>
      obtain ⟨r, hr, hp⟩ := Option.bind_eq_some_iff.mp hp
      split at hp
      · next hlast =>
          obtain rfl := Option.some.inj hp
          obtain ⟨k, rfl⟩ : ∃ k, fuel' = k + 1 := ⟨fuel' - 1, by
            simp at hlen
            omega⟩
          rw [visits, hr, Option.bind_some, if_pos hlast]
      · next hlast =>
          obtain ⟨ps', hps, rfl⟩ := Option.map_eq_some_iff.mp hp
          rw [List.length_cons] at hlen
          obtain ⟨k, rfl⟩ : ∃ k, fuel' = k + 1 := ⟨fuel' - 1, by omega⟩
          rw [visits, hr, Option.bind_some, if_neg hlast,
            ih hps (by omega : ps'.length ≤ k), Option.map_some]

theorem visits_congr (hrec : ∀ q ∈ ps, g.recordAt q = f.recordAt q)
    (hp : visits f last fuel p = some ps) : visits g last fuel p = some ps := by
  induction fuel generalizing p ps with
  | zero => cases hp
  | succ fuel ih =>
      obtain ⟨r, hr, hp⟩ := Option.bind_eq_some_iff.mp hp
      split at hp
      · next hlast =>
          obtain rfl := Option.some.inj hp
          rw [visits, hrec p List.mem_cons_self, hr, Option.bind_some,
            if_pos hlast]
      · next hlast =>
          obtain ⟨ps', hps, rfl⟩ := Option.map_eq_some_iff.mp hp
          have hrest := ih (fun q hq => hrec q (List.mem_cons_of_mem _ hq)) hps
          rw [visits, hrec p List.mem_cons_self, hr, Option.bind_some,
            if_neg hlast, hrest, Option.map_some]

theorem reachOf_congr (hrec : ∀ q ∈ ps, g.recordAt q = f.recordAt q) (m : ℕ) :
    reachOf g m ps = reachOf f m ps := by
  induction ps generalizing m with
  | nil => rfl
  | cons p ps ih =>
      rw [reachOf, reachOf, recordEnd, recordEnd, hrec p List.mem_cons_self]
      exact ih (fun q hq => hrec q (List.mem_cons_of_mem _ hq)) _

/-- A walk of the records that are left is as long as there is room for them. -/
theorem visits_length (hp : visits f last fuel p = some ps) :
    headerSize + ps.length ≤ reachOf f 0 ps := by
  have hsub : ps ⊆ List.range' headerSize (reachOf f 0 ps - headerSize) := by
    intro q hq
    obtain ⟨r, hr⟩ := Option.isSome_iff_exists.mp (visits_found hp hq)
    have hle := recordEnd_le_reachOf (f := f) 0 hq
    rw [recordEnd, hr] at hle
    have hlow := (recordAt_some hr).1
    have hpos := calculateDataSize_pos r.data.length
    simp only [Option.elim_some] at hle
    exact List.mem_range'_1.mpr (by omega)
  have hle := ((visits_nodup hp).subperm hsub).length_le
  rw [List.length_range'] at hle
  obtain ⟨q, hq⟩ : ∃ q, q ∈ ps := ⟨last, (visits_last hp).2⟩
  have hpos := List.length_pos_of_mem hq
  omega

end

/-! ## Files with the same list -/

/-- Only the header may differ, and not in the limits. -/
structure Same (f g : File) : Prop where
  limits : g.limits = f.limits
  extent : g.extent = f.extent
  record : ∀ p, g.recordAt p = f.recordAt p

section
variable {e f g : File} {k : ℤ} {n : ℕ} {w : Write} {us ws : List Write}
  {L : List Entry}

theorem same_refl (f : File) : Same f f := ⟨rfl, rfl, fun _ => rfl⟩

theorem same_trans (hef : Same e f) (hfg : Same f g) : Same e g :=
  ⟨hfg.limits.trans hef.limits, hfg.extent.trans hef.extent,
    fun p => (hfg.record p).trans (hef.record p)⟩

theorem same_symm (hfg : Same f g) : Same g f :=
  ⟨hfg.limits.symm, hfg.extent.symm, fun p => (hfg.record p).symm⟩

theorem same_end (hfg : Same f g) : g.getEnd = f.getEnd :=
  congrArg (headerSize + ·) hfg.extent

theorem represents_same (hfg : Same f g) (hsize : g.size = f.size) :
    Represents g L ↔ Represents f L :=
  ⟨represents_of_same hfg.limits.symm hfg.extent.symm
      (fun p => (hfg.record p).symm) hsize.symm,
    represents_of_same hfg.limits hfg.extent hfg.record hsize⟩

theorem same_puts (hw : w.Puts) (hfg : Same f g) :
    Same (f.apply w) (g.apply w) := by
  cases w with
  | iterator q l =>
      refine ⟨hfg.limits, hfg.extent, fun p => ?_⟩
      rw [recordAt_iterator, recordAt_iterator, hfg.record]
  | dataHeader q l good =>
      refine ⟨hfg.limits, hfg.extent, fun p => ?_⟩
      rw [recordAt_dataHeader, recordAt_dataHeader, hfg.record]
  | limits l => exact ⟨rfl, hfg.extent, hfg.record⟩
  | overwriteStart => exact ⟨hfg.limits, hfg.extent, hfg.record⟩
  | _ => exact hw.elim

theorem same_putsAll (hws : ∀ w ∈ ws, w.Puts) (hfg : Same f g) :
    Same (Store.applyAll f ws) (Store.applyAll g ws) := by
  induction ws generalizing f g with
  | nil => exact hfg
  | cons w ws ih =>
      exact ih (fun v hv => hws v (List.mem_cons_of_mem _ hv))
        (same_puts (hws w List.mem_cons_self) hfg)

theorem same_truncate (hn : headerSize ≤ n) (hfg : Same f g) :
    Same (f.apply (.truncate n)) (g.apply (.truncate n)) := by
  refine ⟨?_, ?_, fun p => ?_⟩
  · rw [limits_truncate hn, limits_truncate hn, hfg.limits]
  · have hf := getEnd_truncate f hn
    have hg := getEnd_truncate g hn
    simp only [File.getEnd] at hf hg
    omega
  · rw [recordAt_truncate g p hn, recordAt_truncate f p hn, hfg.record]

theorem same_sizeFix (k : ℤ) (n m : ℕ) (f : File) :
    Same f (Store.applyAll f (sizeFix k n m)) := by
  rw [sizeFix]
  split
  · exact ⟨rfl, rfl, fun _ => rfl⟩
  · exact same_refl f

theorem walkWrites_iff : walkWrites k f = some ws ↔ ∃ l ps,
    f.limits = some l ∧ visits f l.next (f.extent + 1) l.prev = some ps ∧
      walkLog k f l ps = ws := by
  constructor
  · intro hw
    obtain ⟨l, hl, hw⟩ := Option.bind_eq_some_iff.mp hw
    obtain ⟨ps, hv, hw⟩ := Option.map_eq_some_iff.mp hw
    exact ⟨l, ps, hl, hv, hw⟩
  · rintro ⟨l, ps, hl, hv, rfl⟩
    rw [walkWrites, hl, Option.bind_some, hv, Option.map_some]

theorem size_puts (hws : ∀ w ∈ ws, w.Puts) (f : File) :
    (Store.applyAll f ws).size =
      if .overwriteStart ∈ ws then some 0 else f.size := by
  induction ws generalizing f with
  | nil => rfl
  | cons w ws ih =>
      rw [Store.applyAll_cons, ih fun v hv => hws v (List.mem_cons_of_mem _ hv)]
      have hw := hws w List.mem_cons_self
      by_cases hmem : .overwriteStart ∈ ws
      · rw [if_pos hmem, if_pos (List.mem_cons_of_mem _ hmem)]
      · rw [if_neg hmem]
        cases w with
        | overwriteStart => simp [File.apply]
        | iterator q l => simp [hmem, File.apply]
        | dataHeader q l good => simp [hmem, File.apply]
        | limits l => simp [hmem, File.apply]
        | _ => exact hw.elim

/-- The size is put right once. -/
theorem size_sizeFix {x : File} (hx : x.size = f.size ∨
    x.size = (Store.applyAll f (sizeFix k n (f.size.getD 0))).size) :
    (Store.applyAll x (sizeFix k n (x.size.getD 0))).size =
      (Store.applyAll f (sizeFix k n (f.size.getD 0))).size := by
  rcases hx with hx | hx
  · rw [hx, sizeFix]
    split
    · rfl
    · exact hx
  · by_cases hfix : n ≠ f.size.getD 0 ∧
        isAllowable k ((n : ℤ) - (f.size.getD 0 : ℕ)) = true
    · have hsize : x.size = some n := by
        rw [hx, sizeFix, if_pos hfix]
        rfl
      rw [← hx, hsize, sizeFix, Option.getD_some, if_neg (by simp)]
      exact hsize
    · have hnone : sizeFix k n (f.size.getD 0) = [] := if_neg hfix
      rw [hnone, Store.applyAll_nil] at hx
      rw [hx, hnone]
      exact hx

end

end Wms.Jobsubmission.FileContainer
