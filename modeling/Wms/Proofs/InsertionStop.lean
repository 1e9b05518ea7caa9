import Wms.Proofs.FileStop

/-!
# A stop in an insertion

At every stop but two kinds the next handle finds the list as it was before or
as it is after the insertion.
-/

namespace Wms.Jobsubmission.FileContainer

open Wms.Lib

/-! ## The plans of an insertion -/

section
variable {f g : File} {h : Handle} {L : List Entry} {now k : ℤ}
  {s : FileStatus} {limits : Links} {it it₁ it₂ : FileIterator}

theorem wp_limitsAfterCut (hs : Sound f L)
    (hd : Disturbed f L [it.current] [] g) (hsaves : Saves f L it)
    (hslot : g.iteratorBackup 0 = some it)
    (hlim : g.limitsBackup = some (limitsOf L)) :
    Prog.wp (undoAll now [.limits, .iterator 0]) (Whole f L) (g.cut f.getEnd)
      h := by
  obtain ⟨hslots, hlimits, -, hend⟩ :=
    backup_cut (g := g) (headerSize_le_getEnd f)
  exact wp_limitsAndIterator hs (disturbed_cut' hs hd) hsaves
    (hslots ▸ hslot) hend (hlimits.trans hlim)

theorem restored_cutAtNext (hw : WellFormed f L) (hne : L ≠ [])
    (hd : Disturbed f L [it.current] [] g) (hsaves : Saves f L it)
    (hslot : g.iteratorBackup 0 = some it) (hs : g.status = some s)
    (hplan : undoPlan s = some ([.cutAtNext, .limits, .iterator 0], k))
    (hl : g.limits = some limits) (hnext : limits.next = f.getEnd)
    (hlim : g.limitsBackup = some (limitsOf L)) : Restored now g L := by
  refine restored_of_whole hw hne hd hs hplan (hl ▸ rfl) fun h _ => ?_
  refine (wp_cutAtNext hl (hnext ▸ headerSize_le_getEnd f)).mpr ?_
  rw [hnext]
  exact wp_limitsAfterCut hw.toSound hd hsaves hslot hlim

theorem restored_cutAtPrev (hw : WellFormed f L) (hne : L ≠ [])
    (hd : Disturbed f L [it.current] [] g) (hsaves : Saves f L it)
    (hslot : g.iteratorBackup 0 = some it) (hs : g.status = some s)
    (hplan : undoPlan s = some ([.cutAtPrev, .limits, .iterator 0], k))
    (hl : g.limits = some limits) (hprev : limits.prev = f.getEnd)
    (hlim : g.limitsBackup = some (limitsOf L)) : Restored now g L := by
  refine restored_of_whole hw hne hd hs hplan (hl ▸ rfl) fun h _ => ?_
  refine (wp_cutAtPrev hl (hprev ▸ headerSize_le_getEnd f)).mpr ?_
  rw [hprev]
  exact wp_limitsAfterCut hw.toSound hd hsaves hslot hlim

/-- The last record is put back first. It may be the one that `it` is of. -/
theorem restored_atLast (hw : WellFormed f L) (hne : L ≠ [])
    (hd : Disturbed f L [it₂.current, it.current] [] g) (hsaves : Saves f L it)
    (hmem : it₂.current ∈ positions L)
    (hsaves₂ : it₂.current = it.current ∨ Saves f L it₂)
    (hslot₂ : g.iteratorBackup 2 = some it₂)
    (hslot : g.iteratorBackup 0 = some it) (hs : g.status = some s)
    (hplan : undoPlan s =
      some ([.iterator 2, .cutAtPrev, .limits, .iterator 0], k))
    (hl : g.limits = some limits) (hprev : limits.prev = f.getEnd)
    (hlim : g.limitsBackup = some (limitsOf L)) : Restored now g L := by
  have hd' := disturbed_second hd (hsaves₂.imp_left List.mem_singleton.mpr)
  refine restored_of_whole hw hne hd hs hplan (hl ▸ rfl) fun h _ => ?_
  refine (wp_iterator hslot₂ (disturbed_record hd hmem)).mpr ?_
  refine (wp_cutAtPrev (g := g.apply (.iterator it₂.current it₂.links)) hl
    (hprev ▸ headerSize_le_getEnd f)).mpr ?_
  rw [hprev]
  exact wp_limitsAfterCut hw.toSound hd' hsaves hslot hlim

/-- The cut is where the record in slot 0 says that the new one is. -/
theorem wp_cutAtNewThenTwo (hs : Sound f L)
    (hd : Disturbed f L [it₁.current, it.current] [] g)
    (hsaves₁ : Saves f L it₁) (hsaves : Saves f L it)
    (hslot₁ : g.iteratorBackup 1 = some it₁)
    (hslot : g.iteratorBackup 0 = some it)
    (hnew : ∃ r, g.recordAt it.current = some r ∧ r.links.prev = f.getEnd)
    (hlim : g.limits = some (limitsOf L)) (hh : h.limits = limitsOf L) :
    Prog.wp (undoAll now [.cutAtNew, .iterator 1, .iterator 0]) (Whole f L) g
      h := by
  obtain ⟨r, hr, hprev⟩ := hnew
  obtain ⟨hslots, -, hlimits, hend⟩ :=
    backup_cut (g := g) (headerSize_le_getEnd f)
  refine (wp_cutAtNew hslot hr (hprev ▸ headerSize_le_getEnd f)).mpr ?_
  rw [hprev]
  exact wp_twoIterators hs (disturbed_cut' hs hd) hsaves₁ hsaves
    (hslots ▸ hslot₁) (hslots ▸ hslot) hend (hlimits.trans hlim) hh

theorem restored_cutAtNew (hw : WellFormed f L) (hne : L ≠ [])
    (hd : Disturbed f L [it₁.current, it.current] [] g)
    (hsaves₁ : Saves f L it₁) (hsaves : Saves f L it)
    (hslot₁ : g.iteratorBackup 1 = some it₁)
    (hslot : g.iteratorBackup 0 = some it) (hs : g.status = some s)
    (hplan : undoPlan s = some ([.cutAtNew, .iterator 1, .iterator 0], k))
    (hnew : ∃ r, g.recordAt it.current = some r ∧ r.links.prev = f.getEnd)
    (hlim : g.limits = f.limits) : Restored now g L := by
  rw [hw.limits] at hlim
  refine restored_of_whole hw hne hd hs hplan (hlim ▸ rfl) fun h hh => ?_
  refine wp_cutAtNewThenTwo hw.toSound hd hsaves₁ hsaves hslot₁ hslot hnew hlim ?_
  rw [hlim, Option.some.injEq] at hh
  exact hh.symm

theorem restored_lastThenNew (it₂ : FileIterator) (hw : WellFormed f L)
    (hne : L ≠ [])
    (hd : Disturbed f L [it₂.current, it₁.current, it.current] [] g)
    (hsaves₁ : Saves f L it₁) (hsaves : Saves f L it)
    (hmem : it₂.current ∈ positions L)
    (hsaves₂ : it₂.current = it.current ∧ it₂.prev = f.getEnd ∨
      it₂.current ≠ it.current ∧ Saves f L it₂)
    (hslot₂ : g.iteratorBackup 2 = some it₂)
    (hslot₁ : g.iteratorBackup 1 = some it₁)
    (hslot : g.iteratorBackup 0 = some it) (hs : g.status = some s)
    (hplan : undoPlan s =
      some ([.iterator 2, .cutAtNew, .iterator 1, .iterator 0], k))
    (hnew : ∃ r, g.recordAt it.current = some r ∧ r.links.prev = f.getEnd)
    (hlim : g.limits = f.limits) : Restored now g L := by
  rw [hw.limits] at hlim
  refine restored_of_whole hw hne hd hs hplan (hlim ▸ rfl) fun h hh => ?_
  rw [hlim, Option.some.injEq] at hh
  have hd' : Disturbed f L [it₁.current, it.current] []
      (g.apply (.iterator it₂.current it₂.links)) := by
    refine disturbed_second hd (hsaves₂.imp (fun h₂ => ?_) And.right)
    rw [h₂.1]
    exact List.mem_cons_of_mem _ List.mem_cons_self
  refine (wp_iterator hslot₂ (disturbed_record hd hmem)).mpr ?_
  refine wp_cutAtNewThenTwo hw.toSound hd' hsaves₁ hsaves hslot₁ hslot ?_ hlim
    hh.symm
  obtain ⟨r, hr, hprev⟩ := hnew
  rw [recordAt_iterator, hr]
  rcases hsaves₂ with ⟨heq, hprev₂⟩ | ⟨hne₂, -⟩
  · exact ⟨_, if_pos heq.symm, hprev₂⟩
  · exact ⟨r, if_neg (Ne.symm hne₂), hprev⟩

end

/-! ## The stops in the three forms -/

section
variable {f : File} {data : Text} {A B C : List Entry} {b p q w : ℕ}
  {c d e : Text} {now : ℤ}

theorem wellFormed_backup {L : List Entry} {i : Fin 4} {it : FileIterator}
    (hw : WellFormed f L) : WellFormed (f.apply (.iteratorBackup i it)) L :=
  ⟨sound_aside _ hw.toSound trivial, hw.size⟩

theorem restored_stop_atEnd (hw : WellFormed f (A ++ [(p, d)]))
    (ho : f.status = some .opened) :
    ∀ g ∈ Store.stops f (logAtEnd f data (limitsOf (A ++ [(p, d)])) p
      ⟨lastPos 0 A, f.getEnd⟩), Restored now g (A ++ [(p, d)]) := by
  intro g hg
  have hne : A ++ [(p, d)] ≠ [] := by simp
  have hd : Disturbed f (A ++ [(p, d)]) [p] [] g := by
    refine disturbed_stops (disturbed_self _ _ hw.toSound) ?_ g hg
    simp [logAtEnd, Write.Disturbs]
  have hsaves : Saves f (A ++ [(p, d)]) ⟨lastPos 0 A, f.getEnd, p⟩ := by
    obtain ⟨lit, hr⟩ := linked_last hw.linked
    exact ⟨by simp [positions], _, hr, rfl⟩
  simp only [logAtEnd, Store.mem_stops_cons, Store.mem_stops_nil, store_apply]
    at hg
  rcases hg with rfl | rfl | rfl | rfl | rfl | rfl | rfl | rfl | rfl | rfl
  · exact restored_noUndo hw (.inl ho)
  · exact restored_noUndo (wellFormed_backup hw) (.inl ho)
  · exact restored_iterator hw hne hd hsaves rfl rfl rfl (by simp)
        (by simp [File.apply])
  · exact restored_iterator hw hne hd hsaves rfl rfl rfl (by simp)
        (by simp [File.apply])
  · exact restored_iterator hw hne hd hsaves rfl rfl rfl (by simp)
        (by simp [File.apply])
  · exact restored_limits hw hne hd hsaves rfl rfl rfl (by simp)
        (hw.limits ▸ rfl) rfl
  · exact restored_limits hw hne hd hsaves rfl rfl rfl (by simp) rfl rfl
  · exact restored_cutAtNext hw hne hd hsaves rfl rfl rfl rfl rfl rfl
  · exact restored_cutAtNext hw hne hd hsaves rfl rfl rfl rfl rfl rfl
  · exact restored_cutAtNext hw hne hd hsaves rfl rfl rfl rfl rfl rfl

/-- From the writing of the record on, when it is to be the first one. -/
theorem restored_stop_abWriting {L : List Entry} {g₀ : File}
    {it it₂ : FileIterator} {limits l : Links} {r : Record}
    (hw : WellFormed f L) (hne : L ≠ []) (h₀ : Restored now g₀ L)
    (hd : Disturbed f L [it.current] [] g₀) (hsaves : Saves f L it)
    (hmem : it₂.current ∈ positions L)
    (hsaves₂ : it₂.current = it.current ∨ Saves f L it₂)
    (hslot : g₀.iteratorBackup 0 = some it)
    (hl : g₀.limits = some limits) (hprev : limits.prev = f.getEnd)
    (hlim : g₀.limitsBackup = some (limitsOf L)) :
    ∀ g ∈ Store.stops g₀ [.status .abWriting, .append r, .status .abWritten,
      .iteratorBackup 2 it₂, .status .abLast, .iterator it₂.current l],
      Restored now g L := by
  intro g hg
  have h₁ := disturbed_apply (w := .status .abWriting) hd trivial
  have h₂ := disturbed_apply (w := .append r) h₁ trivial
  have h₃ := disturbed_apply (w := .status .abWritten) h₂ trivial
  have h₄ := disturbed_apply (w := .iteratorBackup 2 it₂) h₃ trivial
  have h₅ := disturbed_mono (List.subset_cons_self it₂.current _)
    (List.Subset.refl _) (disturbed_apply (w := .status .abLast) h₄ trivial)
  have h₆ := disturbed_apply (w := .iterator it₂.current l) h₅
    List.mem_cons_self
  simp only [Store.mem_stops_cons, Store.mem_stops_nil, store_apply] at hg
  rcases hg with rfl | rfl | rfl | rfl | rfl | rfl | rfl
  · exact h₀
  · exact restored_cutAtPrev hw hne h₁ hsaves hslot rfl rfl hl hprev hlim
  · exact restored_cutAtPrev hw hne h₂ hsaves hslot rfl rfl hl hprev hlim
  · exact restored_cutAtPrev hw hne h₃ hsaves hslot rfl rfl hl hprev hlim
  · exact restored_cutAtPrev hw hne h₄ hsaves hslot rfl rfl hl hprev hlim
  · exact restored_atLast hw hne h₅ hsaves hmem hsaves₂ rfl hslot rfl rfl hl
      hprev hlim
  · exact restored_atLast hw hne h₆ hsaves hmem hsaves₂ rfl hslot rfl rfl hl
      hprev hlim

theorem restored_stop_atBegin (hw : WellFormed f ((p, c) :: B))
    (hsplit : (p, c) :: B = C ++ [(q, d)]) (ho : f.status = some .opened) :
    ∀ g ∈ Store.stops f (logAtBegin f data (limitsOf ((p, c) :: B)) p
        ⟨0, headPos B f.getEnd⟩ q ⟨lastPos f.getEnd C, f.getEnd⟩),
      Restored now g ((p, c) :: B) := by
  have hne : (p, c) :: B ≠ [] := List.cons_ne_nil _ _
  have hsaves : Saves f ((p, c) :: B) ⟨0, headPos B f.getEnd, p⟩ := by
    obtain ⟨⟨lit, hr⟩, -⟩ := hw.linked
    exact ⟨List.mem_cons_self, _, hr, rfl⟩
  have hmem : q ∈ positions ((p, c) :: B) := by
    rw [hsplit]
    simp [positions]
  have hsaves₂ : q = p ∨
      Saves f ((p, c) :: B) ⟨lastPos f.getEnd C, f.getEnd, q⟩ := by
    cases C with
    | nil =>
        rw [List.nil_append, List.cons.injEq, Prod.mk.injEq] at hsplit
        exact .inl hsplit.1.1.symm
    | cons e C =>
        obtain ⟨lit, hr⟩ := linked_last (hsplit ▸ hw.linked)
        exact .inr ⟨hmem, _, hr, rfl⟩
  let log : List Write :=
    [.iteratorBackup 0 ⟨0, headPos B f.getEnd, p⟩, .status .abIterator,
      .iterator p ⟨f.getEnd, headPos B f.getEnd⟩,
      .limitsBackup (limitsOf ((p, c) :: B)), .status .abLimits,
      .limits ⟨f.getEnd, (limitsOf ((p, c) :: B)).next⟩]
  have hstart : ∀ g ∈ Store.stops f log, Restored now g ((p, c) :: B) := by
    intro g hg
    have hd : Disturbed f ((p, c) :: B) [p] [] g := by
      refine disturbed_stops (disturbed_self _ _ hw.toSound) ?_ g hg
      simp [log, Write.Disturbs]
    simp only [log, Store.mem_stops_cons, Store.mem_stops_nil, store_apply] at hg
    rcases hg with rfl | rfl | rfl | rfl | rfl | rfl | rfl
    · exact restored_noUndo hw (.inl ho)
    · exact restored_noUndo (wellFormed_backup hw) (.inl ho)
    · exact restored_iterator hw hne hd hsaves rfl rfl rfl (by simp)
        (by simp [File.apply])
    · exact restored_iterator hw hne hd hsaves rfl rfl rfl (by simp)
        (by simp [File.apply])
    · exact restored_iterator hw hne hd hsaves rfl rfl rfl (by simp)
        (by simp [File.apply])
    · exact restored_limits hw hne hd hsaves rfl rfl rfl (by simp)
        (hw.limits ▸ rfl) rfl
    · exact restored_limits hw hne hd hsaves rfl rfl rfl (by simp) rfl rfl
  have hd : Disturbed f ((p, c) :: B) [p] [] (Store.applyAll f log) := by
    refine disturbed_stops (disturbed_self _ _ hw.toSound) ?_ _
      (Store.applyAll_mem_stops f log)
    simp [log, Write.Disturbs]
  intro g hg
  change g ∈ Store.stops f (log ++ _) at hg
  rcases Store.mem_stops_append.mp hg with hg | hg
  · exact hstart g hg
  · exact restored_stop_abWriting hw hne
      (hstart _ (Store.applyAll_mem_stops f log)) hd hsaves hmem hsaves₂ rfl rfl
      rfl rfl g hg

/-- The writes after which the record at `w` is told that `n` is before it. -/
def Write.Tells (w n : ℕ) : Write → Prop
  | .iterator p l => p = w → l.prev = n
  | .dataHeader _ _ _ | .truncate _ => False
  | _ => True

def Told (w n : ℕ) (g : File) : Prop :=
  ∃ r, g.recordAt w = some r ∧ r.links.prev = n

theorem told_apply {g : File} {n : ℕ} {v : Write} (hv : v.Tells w n)
    (hg : Told w n g) : Told w n (g.apply v) := by
  obtain ⟨r, hr, hprev⟩ := hg
  cases v with
  | iterator p l =>
      rw [Told, recordAt_iterator, hr]
      by_cases hp : w = p
      · exact ⟨_, if_pos hp, hv hp.symm⟩
      · exact ⟨r, if_neg hp, hprev⟩
  | dataHeader p l good => exact hv.elim
  | truncate n => exact hv.elim
  | append r₁ =>
      rw [Told, recordAt_append, if_neg (Nat.ne_of_lt (recordAt_some hr).2)]
      exact ⟨r, hr, hprev⟩
  | _ => exact ⟨r, hr, hprev⟩

/-- From the writing of the record on, when it goes between two others. -/
theorem restored_stop_amWriting {L : List Entry} {g₀ : File}
    {it it₁ it₂ : FileIterator} {l : Links} {r : Record}
    (hw : WellFormed f L) (hne : L ≠ []) (h₀ : Restored now g₀ L)
    (hd : Disturbed f L [it₁.current, it.current] [] g₀)
    (hsaves₁ : Saves f L it₁) (hsaves : Saves f L it)
    (hmem : it₂.current ∈ positions L)
    (hsaves₂ : it₂.current = it.current ∧ it₂.prev = f.getEnd ∨
      it₂.current ≠ it.current ∧ Saves f L it₂)
    (hslot₁ : g₀.iteratorBackup 1 = some it₁)
    (hslot : g₀.iteratorBackup 0 = some it) (hlim : g₀.limits = f.limits)
    (htold : Told it.current f.getEnd g₀)
    (hl : it₂.current = it.current → l.prev = f.getEnd) :
    ∀ g ∈ Store.stops g₀ [.status .amWriting, .append r, .status .amWritten,
      .iteratorBackup 2 it₂, .status .amLast, .iterator it₂.current l],
      Restored now g L := by
  intro g hg
  have h₁ := disturbed_apply (w := .status .amWriting) hd trivial
  have h₂ := disturbed_apply (w := .append r) h₁ trivial
  have h₃ := disturbed_apply (w := .status .amWritten) h₂ trivial
  have h₄ := disturbed_apply (w := .iteratorBackup 2 it₂) h₃ trivial
  have h₅ := disturbed_mono (List.subset_cons_self it₂.current _)
    (List.Subset.refl _) (disturbed_apply (w := .status .amLast) h₄ trivial)
  have h₆ := disturbed_apply (w := .iterator it₂.current l) h₅
    List.mem_cons_self
  have t₂ := told_apply (v := .append r) trivial htold
  have t₆ := told_apply (v := .iterator it₂.current l) hl t₂
  simp only [Store.mem_stops_cons, Store.mem_stops_nil, store_apply] at hg
  rcases hg with rfl | rfl | rfl | rfl | rfl | rfl | rfl
  · exact h₀
  · exact restored_cutAtNew hw hne h₁ hsaves₁ hsaves hslot₁ hslot rfl rfl htold
      hlim
  · exact restored_cutAtNew hw hne h₂ hsaves₁ hsaves hslot₁ hslot rfl rfl t₂ hlim
  · exact restored_cutAtNew hw hne h₃ hsaves₁ hsaves hslot₁ hslot rfl rfl t₂ hlim
  · exact restored_cutAtNew hw hne h₄ hsaves₁ hsaves hslot₁ hslot rfl rfl t₂ hlim
  · exact restored_lastThenNew it₂ hw hne h₅ hsaves₁ hsaves hmem hsaves₂ rfl
      hslot₁ hslot rfl rfl t₂ hlim
  · exact restored_lastThenNew it₂ hw hne h₆ hsaves₁ hsaves hmem hsaves₂ rfl
      hslot₁ hslot rfl rfl t₆ hlim

theorem restored_stop_inMiddle
    (hw : WellFormed f (A ++ [(b, e)] ++ (w, c) :: B))
    (hsplit : (w, c) :: B = C ++ [(q, d)]) (ho : f.status = some .opened) :
    ∀ g ∈ Store.stops f (logInMiddle f data w ⟨b, headPos B f.getEnd⟩ b
        ⟨lastPos 0 A, w⟩ q ⟨lastPos f.getEnd C, f.getEnd⟩),
      Restored now g (A ++ [(b, e)] ++ (w, c) :: B) := by
  have hne : A ++ [(b, e)] ++ (w, c) :: B ≠ [] := by simp
  have hnodup := hw.nodup
  rw [positions, List.map_append, List.nodup_append] at hnodup
  have hbw : b ≠ w := hnodup.2.2 b (by simp) w (by simp)
  obtain ⟨hl, hright⟩ := linked_append.mp hw.linked
  obtain ⟨lit₁, hb⟩ := linked_last hl
  obtain ⟨⟨lit, hwr⟩, -⟩ := hright
  simp only [lastPos_append, lastPos_cons, lastPos_nil] at hwr
  have hsaves : Saves f (A ++ [(b, e)] ++ (w, c) :: B)
      ⟨b, headPos B f.getEnd, w⟩ :=
    ⟨by simp [positions], _, hwr, rfl⟩
  have hsaves₁ : Saves f (A ++ [(b, e)] ++ (w, c) :: B) ⟨lastPos 0 A, w, b⟩ :=
    ⟨by simp [positions], _, hb, rfl⟩
  have hmem : q ∈ positions (A ++ [(b, e)] ++ (w, c) :: B) := by
    rw [hsplit]
    simp [positions]
  have hsaves₂ : q = w ∧ lastPos f.getEnd C = f.getEnd ∨
      q ≠ w ∧ Saves f (A ++ [(b, e)] ++ (w, c) :: B)
        ⟨lastPos f.getEnd C, f.getEnd, q⟩ := by
    cases C with
    | nil =>
        rw [List.nil_append, List.cons.injEq, Prod.mk.injEq] at hsplit
        exact .inl ⟨hsplit.1.1.symm, rfl⟩
    | cons x C =>
        rw [List.cons_append, List.cons.injEq] at hsplit
        obtain ⟨rfl, rfl⟩ := hsplit
        refine .inr ⟨?_, hmem, ?_⟩
        · rintro rfl
          exact (List.nodup_cons.mp hnodup.2.1).1 (by simp)
        · obtain ⟨lit₂, hq⟩ := linked_last (linked_append.mp hw.linked).2.2
          exact ⟨_, hq, rfl⟩
  let saving : List Write :=
    [.iteratorBackup 0 ⟨b, headPos B f.getEnd, w⟩, .status .amIterator1,
      .iteratorBackup 1 ⟨lastPos 0 A, w, b⟩]
  let linking : List Write :=
    [.status .amIterator2, .iterator w ⟨f.getEnd, headPos B f.getEnd⟩,
      .iterator b ⟨lastPos 0 A, f.getEnd⟩]
  have hsaved : ∀ g ∈ Store.stops f saving,
      Restored now g (A ++ [(b, e)] ++ (w, c) :: B) := by
    intro g hg
    have hd : Disturbed f (A ++ [(b, e)] ++ (w, c) :: B) [w] [] g := by
      refine disturbed_stops (disturbed_self _ _ hw.toSound) ?_ g hg
      simp [saving, Write.Disturbs]
    simp only [saving, Store.mem_stops_cons, Store.mem_stops_nil, store_apply]
      at hg
    rcases hg with rfl | rfl | rfl | rfl
    · exact restored_noUndo hw (.inl ho)
    · exact restored_noUndo (wellFormed_backup hw) (.inl ho)
    · exact restored_iterator hw hne hd hsaves rfl rfl rfl (by simp)
        (by simp [File.apply])
    · exact restored_iterator hw hne hd hsaves rfl rfl rfl (by simp)
        (by simp [File.apply])
  have hd : ∀ g ∈ Store.stops f (saving ++ linking),
      Disturbed f (A ++ [(b, e)] ++ (w, c) :: B) [b, w] [] g := by
    refine disturbed_stops (disturbed_self _ _ hw.toSound) ?_
    simp [saving, linking, Write.Disturbs]
  have hlinked : ∀ g ∈ Store.stops f (saving ++ linking),
      Restored now g (A ++ [(b, e)] ++ (w, c) :: B) := by
    intro g hg
    have hdist := hd g hg
    rcases Store.mem_stops_append.mp hg with hg | hg
    · exact hsaved g hg
    · have hlast := hsaved _ (Store.applyAll_mem_stops f saving)
      simp only [linking, Store.mem_stops_cons, Store.mem_stops_nil,
        store_apply] at hg
      rcases hg with rfl | rfl | rfl | rfl
      · exact hlast
      · exact restored_twoIterators hw hne hdist hsaves₁ hsaves rfl rfl rfl
          rfl (by simp [saving]) (by simp [saving, File.apply])
      · exact restored_twoIterators hw hne hdist hsaves₁ hsaves rfl rfl rfl
          rfl (by simp [saving]) (by simp [saving, File.apply])
      · exact restored_twoIterators hw hne hdist hsaves₁ hsaves rfl rfl rfl
          rfl (by simp [saving]) (by simp [saving, File.apply])
  have hend := Store.applyAll_mem_stops f (saving ++ linking)
  have htold : Told w f.getEnd (Store.applyAll f (saving ++ linking)) := by
    refine ⟨⟨⟨f.getEnd, headPos B f.getEnd⟩, c, true, lit⟩, ?_, rfl⟩
    simp [saving, linking, hwr, hbw.symm]
  have hlast : q = w → lastPos f.getEnd C = f.getEnd := fun hq =>
    (hsaves₂.resolve_right fun h => h.1 hq).2
  intro g hg
  change g ∈ Store.stops f (saving ++ linking ++ _) at hg
  rcases Store.mem_stops_append.mp hg with hg | hg
  · exact hlinked g hg
  · exact restored_stop_amWriting hw hne (hlinked _ hend) (hd _ hend) hsaves₁
      hsaves hmem hsaves₂ rfl rfl rfl htold hlast g hg

end

/-! ## The stops in the closing writes -/

section
variable {g : File} {L : List Entry} {now k : ℤ} {s : FileStatus}
  {limits : Links}

/-- The slots have been emptied and the status has not been changed yet. -/
def Emptied (g : File) : Prop :=
  (∀ what, g.iteratorBackup what = some ⟨0, 0, 0⟩) ∧
    g.limitsBackup = some ⟨0, 0⟩

theorem undo_emptied_limits {h : Handle} (hg : Emptied g) :
    ¬ Prog.wp (undoAll now [.limits, .iterator 0])
      (fun _ g h' => (g.recordAt h'.limits.prev).isSome) g h := by
  rw [wp_limits hg.2, wp_emptyIterator (g := g.apply (.limits ⟨0, 0⟩)) (hg.1 0),
    wp_undoAll_nil]
  simp [recordAt_zero]

theorem emptied_cut {n : ℕ} (hn : headerSize ≤ n) (hg : Emptied g) :
    Emptied (g.cut n) := by
  obtain ⟨hslots, hlimits, -, -⟩ := backup_cut (g := g) hn
  exact ⟨fun what => hslots ▸ hg.1 what, hlimits.trans hg.2⟩

/-- An emptied slot says that the new record is at 0, and everything is cut. -/
theorem wp_cutAtNew_emptied {h : Handle} {steps : List UndoStep}
    {Q : Unit → File → Handle → Prop} (hg : Emptied g) :
    Prog.wp (undoAll now (.cutAtNew :: steps)) Q g h ↔
      Prog.wp (undoAll now steps) Q ((File.emptied now).apply (.status .ftEnd))
        (h.emptied now 0) := by
  have hfile : Store.applyAll g (.truncate 0 :: emptyLog now ++
      [.status .ftEnd]) = (File.emptied now).apply (.status .ftEnd) := by
    rw [Store.applyAll_append, Store.applyAll_cons]
    rfl
  rw [← hfile]
  refine wp_undoAll_cons ?_
  have hread : (readIterator 0 false).run g h = ⟨.ok ⟨0, 0, 0⟩, h, []⟩ := by
    have hlow : ¬ headerSize ≤ 0 := Nat.not_le_of_lt headerSize_pos
    have hend : 0 ≠ g.getEnd := by
      have := headerSize_le_getEnd g
      have := headerSize_pos
      omega
    simp [readIterator, hlow, hend]
  simp [UndoStep.run, truncateAtNew, readIteratorBackup, hg.1, hread,
    truncateFile, createEmptyFile_run]

theorem not_restored_emptied (hg : Emptied g)
    (hs : g.status = some .aeWritten ∨ g.status = some .abLast ∨
      g.status = some .amLast)
    (hl : g.limits = some limits) (hr : g.removed.isSome)
    (hlow : headerSize ≤ limits.prev ∧ headerSize ≤ limits.next) :
    ¬ Restored now g L := by
  intro hrest
  rcases hs with hs | hs | hs
  · obtain ⟨h, -, hundo⟩ := undo_of_restored hs rfl (hl ▸ rfl) hr hrest
    rw [wp_cutAtNext hl hlow.2] at hundo
    exact undo_emptied_limits (emptied_cut hlow.2 hg) hundo
  · obtain ⟨h, -, hundo⟩ := undo_of_restored hs rfl (hl ▸ rfl) hr hrest
    rw [wp_emptyIterator (hg.1 2),
      wp_cutAtPrev (g := g.apply .overwriteStart) hl hlow.1] at hundo
    exact undo_emptied_limits
      (emptied_cut (g := g.apply .overwriteStart) hlow.1 hg) hundo
  · obtain ⟨h, -, hundo⟩ := undo_of_restored hs rfl (hl ▸ rfl) hr hrest
    rw [wp_emptyIterator (hg.1 2),
      wp_cutAtNew_emptied (g := g.apply .overwriteStart) hg,
      wp_emptyIterator rfl, wp_emptyIterator rfl, wp_undoAll_nil] at hundo
    exact Bool.false_ne_true hundo

/-- In a file without records nothing is put back that a walk could begin at. -/
theorem undo_none_iterator {h : Handle} {what : Fin 4}
    (hnone : ∀ p, g.recordAt p = none) :
    ¬ Prog.wp (undoAll now [.iterator what])
      (fun _ g h' => (g.recordAt h'.limits.prev).isSome) g h := by
  by_cases hslot : g.iteratorBackup what = some ⟨0, 0, 0⟩
  · rw [wp_emptyIterator hslot, wp_undoAll_nil]
    simp [hnone]
  · have herror : ∃ e, (restoreIterator what).run g h = ⟨.error e, h, []⟩ := by
      cases hit : g.iteratorBackup what with
      | none => exact ⟨.ioError, by simp [restoreIterator, readIteratorBackup, hit]⟩
      | some it =>
          refine restoreIterator_error hit (hnone _) ?_
          rintro rfl
          exact hslot hit
    obtain ⟨e, herror⟩ := herror
    exact fun hundo => Prog.not_wp_of_error herror (Prog.wp_bind.mp hundo)

/-- The list was empty, and the insertion has begun to change the limits. -/
theorem not_restored_empty (hnone : ∀ p, g.recordAt p = none)
    (hs : g.status = some .aeLimits) (hl : g.limits.isSome)
    (hr : g.removed.isSome) (hlim : g.limitsBackup = some limits) :
    ¬ Restored now g L := by
  intro hrest
  obtain ⟨h, -, hundo⟩ := undo_of_restored hs rfl hl hr hrest
  rw [wp_limits hlim] at hundo
  exact undo_none_iterator (g := g.apply (.limits limits)) hnone hundo

/-- The same, from the writing of the record on. -/
theorem not_restored_emptyWritten
    (hs : g.status = some .aeWriting ∨ g.status = some .aeWritten)
    (hl : g.limits = some limits) (hnext : limits.next = headerSize)
    (hr : g.removed.isSome) (hlim : g.limitsBackup.isSome) :
    ¬ Restored now g L := by
  intro hrest
  obtain ⟨limits', hlim⟩ := Option.isSome_iff_exists.mp hlim
  have hlow : headerSize ≤ limits.next := Nat.le_of_eq hnext.symm
  obtain ⟨-, hlim', -, -⟩ := backup_cut (g := g) hlow
  have hnone : ∀ p, (g.cut limits.next).recordAt p = none := by
    refine recordAt_bare ?_
    rw [hnext]
    simp [File.cut, File.apply, headerSize]
  rcases hs with hs | hs <;>
  · obtain ⟨h, -, hundo⟩ := undo_of_restored hs rfl (hl ▸ rfl) hr hrest
    rw [wp_cutAtNext hl hlow, wp_limits (hlim'.trans hlim)] at hundo
    exact undo_none_iterator (g := (g.cut limits.next).apply (.limits limits'))
      hnone hundo

end

/-! ## All stops -/

/-- Where a stop in an insertion into `L` can be recovered from. An insertion
into an empty list cannot be undone from the change of the limits on, and no
insertion while the slots have been emptied and the status still asks for
them. -/
def Undoable (L : List Entry) (g : File) : Prop :=
  (L = [] → g.status ≠ some .aeLimits ∧ g.status ≠ some .aeWriting ∧
    g.status ≠ some .aeWritten) ∧
  (g.iteratorBackup 0 = some ⟨0, 0, 0⟩ → g.status ≠ some .aeWritten ∧
    g.status ≠ some .abLast ∧ g.status ≠ some .amLast)

instance (L : List Entry) (g : File) : Decidable (Undoable L g) := by
  unfold Undoable
  infer_instance

section
variable {f g : File} {h : Handle} {L L' : List Entry} {now : ℤ} {w : ℕ}
  {data : Text} {log : List Write}

/-- Nothing is being done, or something has just been begun. -/
def Idle (f : File) : Prop :=
  f.status = some .closed ∨ f.status = some .opened ∨ f.status = some .ftEnd

theorem restored_idle (hw : WellFormed f L) (hf : Idle f) : Restored now f L := by
  rcases hf with hf | hf | hf
  · exact restored_closed hw hf
  · exact restored_noUndo hw (.inl hf)
  · exact restored_noUndo hw (.inr hf)

theorem undoable_idle (hf : Idle f) : Undoable L f := by
  rcases hf with hf | hf | hf <;> simp [Undoable, hf]

theorem idle_opening {t : TimeStamp} (hw : WellFormed f L) (hf : AtRest f) :
    ∀ g ∈ Store.stops f (opening f t), WellFormed g L ∧ Idle g := by
  have hi : Idle f := hf.imp_right .inr
  refine Store.stops_invariant (fun g v hv hg => ?_) ⟨hw, hi⟩
  have hwrites : v = .status .closed ∨ v = .stamp t ∨ v = .status .opened := by
    rw [opening, repairs] at hv
    split at hv <;> simp at hv <;> tauto
  rcases hwrites with rfl | rfl | rfl
  · exact ⟨wellFormed_status hg.1, .inl rfl⟩
  · exact ⟨⟨sound_aside (.stamp t) hg.1.toSound trivial, hg.1.size⟩, hg.2⟩
  · exact ⟨wellFormed_status hg.1, .inr (.inl rfl)⟩

theorem idle_opened {t : TimeStamp} :
    (Store.applyAll f (opening f t)).status = some .opened := by
  rw [opening, Store.applyAll_append]
  rfl

theorem Insertion.written (hi : Insertion f data w L L' log) :
    (Store.applyAll f log).status = some .aeWritten ∨
      (Store.applyAll f log).status = some .abLast ∨
      (Store.applyAll f log).status = some .amLast := by
  cases hi with
  | atEmpty => exact .inl rfl
  | atEnd => exact .inl rfl
  | atBegin => exact .inr (.inl rfl)
  | inMiddle => exact .inr (.inr rfl)

theorem Insertion.disturbs (hi : Insertion f data w L L' log) :
    ∀ v ∈ log, v.Disturbs (positions L) [] := by
  cases hi with
  | atEmpty => simp [logAtEmpty, Write.Disturbs]
  | atEnd => simp [logAtEnd, Write.Disturbs, positions]
  | atBegin p c B C q d hsplit =>
      have hp : w ∈ positions ((w, c) :: B) := List.mem_cons_self
      have hq : q ∈ positions ((w, c) :: B) := by
        rw [hsplit]
        simp [positions]
      simp [logAtBegin, Write.Disturbs, hp, hq]
  | inMiddle A b e w c B C q d hsplit =>
      have hw : w ∈ positions (A ++ [(b, e)] ++ (w, c) :: B) := by
        simp [positions]
      have hb : b ∈ positions (A ++ [(b, e)] ++ (w, c) :: B) := by
        simp [positions]
      have hq : q ∈ positions (A ++ [(b, e)] ++ (w, c) :: B) := by
        rw [hsplit]
        simp [positions]
      simp only [logInMiddle, Write.Disturbs, List.forall_mem_cons, hw, hb, hq]
      simp

theorem Insertion.of_nil (hi : Insertion f data w [] L' log) :
    log = logAtEmpty f data (limitsOf []) := by
  generalize hL : ([] : List Entry) = L at hi
  cases hi with
  | atEmpty => rfl
  | atEnd => simp at hL
  | atBegin => simp at hL
  | inMiddle => simp at hL

/-- The writes that leave the first slot. -/
def Write.KeepsFirst : Write → Prop
  | .iteratorBackup what _ => what ≠ 0
  | .emptyBackup | .truncate _ => False
  | _ => True

theorem undoable_of_saved {it : FileIterator} {ws : List Write} (hne : L ≠ [])
    (hf : f.iteratorBackup 0 = some it) (hit : it.current ≠ 0)
    (hws : ∀ v ∈ ws, v.KeepsFirst) : ∀ g ∈ Store.stops f ws, Undoable L g := by
  have hslot : ∀ g ∈ Store.stops f ws, g.iteratorBackup 0 = some it := by
    refine Store.stops_invariant (fun g v hv hg => ?_) hf
    have hkeeps := hws v hv
    cases v with
    | iteratorBackup what it' =>
        exact (Function.update_of_ne (Ne.symm hkeeps) _ _).trans hg
    | emptyBackup => exact hkeeps.elim
    | truncate n => exact hkeeps.elim
    | _ => exact hg
  intro g hg
  refine ⟨fun hnil => absurd hnil hne, fun hzero => ?_⟩
  rw [hslot g hg, Option.some.injEq] at hzero
  exact absurd (congrArg FileIterator.current hzero) hit

theorem Insertion.undoable (hi : Insertion f data w L L' log) (hs : Sound f L)
    (ho : f.status = some .opened) (hne : L ≠ []) :
    ∀ g ∈ Store.stops f log, Undoable L g := by
  have hlow : ∀ p ∈ positions L, p ≠ 0 := by
    intro p hp
    have hb := linked_bounds hs.linked hp
    have hpos := headerSize_pos
    omega
  have hidle : Undoable L f := undoable_idle (.inr (.inl ho))
  intro g hg
  cases hi with
  | atEmpty => exact absurd rfl hne
  | atEnd A p d =>
      rcases Store.mem_stops_cons.mp hg with rfl | hg
      · exact hidle
      · refine undoable_of_saved hne rfl (hlow p (by simp [positions])) ?_ g hg
        simp [Write.KeepsFirst]
  | atBegin p c B C q d hsplit =>
      rcases Store.mem_stops_cons.mp hg with rfl | hg
      · exact hidle
      · refine undoable_of_saved hne rfl (hlow w (by simp [positions])) ?_ g hg
        simp [Write.KeepsFirst]
  | inMiddle A b e w c B C q d hsplit =>
      rcases Store.mem_stops_cons.mp hg with rfl | hg
      · exact hidle
      · refine undoable_of_saved hne rfl (hlow w (by simp [positions])) ?_ g hg
        simp [Write.KeepsFirst]

theorem Insertion.restored (hi : Insertion f data w L L' log)
    (hw : WellFormed f L) (ho : f.status = some .opened) (hne : L ≠ []) :
    ∀ g ∈ Store.stops f log, Restored now g L := by
  cases hi with
  | atEmpty => exact absurd rfl hne
  | atEnd => exact restored_stop_atEnd hw ho
  | atBegin p c B C q d hsplit => exact restored_stop_atBegin hw hsplit ho
  | inMiddle A b e w c B C q d hsplit =>
      exact restored_stop_inMiddle hw hsplit ho

/-- The first record of a list: from the change of the limits on nothing can be
put back. -/
theorem empty_stops (hw : WellFormed f []) (ho : f.status = some .opened) :
    ∀ g ∈ Store.stops f (logAtEmpty f data (limitsOf [])),
      Restored now g [] ∧ Undoable [] g ∨
        (∀ M, ¬ Restored now g M) ∧ ¬ Undoable [] g := by
  have hext := hw.bare rfl
  have hend : f.getEnd = headerSize := by
    rw [File.getEnd, hext, Nat.add_zero]
  have hnone := recordAt_bare hext
  have hlim : f.limits.isSome := by
    rw [hw.limits]
    rfl
  have hremoved := hw.complete.removed
  intro g hg
  simp only [logAtEmpty, Store.mem_stops_cons, Store.mem_stops_nil, store_apply]
    at hg
  rcases hg with rfl | rfl | rfl | rfl | rfl | rfl | rfl
  · exact .inl ⟨restored_idle hw (.inr (.inl ho)), undoable_idle (.inr (.inl ho))⟩
  · have hidle : Idle (f.apply (.limitsBackup (limitsOf []))) := .inr (.inl ho)
    refine .inl ⟨restored_idle ⟨?_, hw.size⟩ hidle, undoable_idle hidle⟩
    exact sound_aside _ hw.toSound trivial
  · refine .inr ⟨fun M => not_restored_empty hnone rfl (by simpa only
      [File.apply]) (by simpa only [File.apply]) rfl, ?_⟩
    exact fun hu => (hu.1 rfl).1 rfl
  · refine .inr ⟨fun M => not_restored_empty hnone rfl rfl (by simpa only
      [File.apply]) rfl, ?_⟩
    exact fun hu => (hu.1 rfl).1 rfl
  · refine .inr ⟨fun M => not_restored_emptyWritten (.inl rfl) rfl hend
      (by simpa only [File.apply]) rfl, ?_⟩
    exact fun hu => (hu.1 rfl).2.1 rfl
  · refine .inr ⟨fun M => not_restored_emptyWritten (.inl rfl) rfl hend
      (by simpa only [File.apply]) rfl, ?_⟩
    exact fun hu => (hu.1 rfl).2.1 rfl
  · refine .inr ⟨fun M => not_restored_emptyWritten (.inr rfl) rfl hend
      (by simpa only [File.apply]) rfl, ?_⟩
    exact fun hu => (hu.1 rfl).2.2 rfl

theorem limitsOf_low (hs : Sound f L) :
    headerSize ≤ (limitsOf L).prev ∧ headerSize ≤ (limitsOf L).next := by
  rcases List.eq_nil_or_concat' L with rfl | ⟨A, ⟨p, d⟩, rfl⟩
  · exact ⟨Nat.le_refl _, Nat.le_refl _⟩
  · have hb : ∀ q ∈ positions (A ++ [(p, d)]), headerSize ≤ q :=
      fun q hq => (linked_bounds hs.linked hq).1
    refine ⟨hb _ ?_, hb _ ?_⟩
    · cases A <;> exact List.mem_cons_self
    · simp [limitsOf, positions]

/-- The record is in the list and the size is not yet right. -/
theorem closing_stops (now : ℤ) (hs : Sound f L') (hlen : L'.length = L.length + 1)
    (hsize : f.size = some L.length) (hwritten : f.status = some .aeWritten ∨
      f.status = some .abLast ∨ f.status = some .amLast) :
    ∀ g ∈ Store.stops f (closing .adEmpty (L.length + 1)), g = f ∨
      Restored now g L' ∧ Undoable L g ∨
      (∀ M, ¬ Restored now g M) ∧ ¬ Undoable L g := by
  have hne : L' ≠ [] := by
    rintro rfl
    cases hlen
  have hlow := limitsOf_low hs
  have hone : L.length = L'.length ∨
      isAllowable 1 (L'.length - (L.length : ℤ)) = true := by
    rw [hlen, isAllowable]
    grind
  intro g hg
  simp only [closing, Store.mem_stops_cons, Store.mem_stops_nil, store_apply]
    at hg
  rcases hg with rfl | rfl | rfl | rfl | rfl
  · exact .inl rfl
  · refine .inr (.inr ⟨fun M => not_restored_emptied ⟨fun _ => rfl, rfl⟩ hwritten
      hs.limits hs.complete.removed hlow, fun hu => ?_⟩)
    obtain ⟨h₁, h₂, h₃⟩ := hu.2 rfl
    rcases hwritten with hw | hw | hw
    · exact h₁ hw
    · exact h₂ hw
    · exact h₃ hw
  · refine .inr (.inl ⟨restored_walk rfl rfl ?_ hne hsize hone, by
      simp [Undoable, File.apply]⟩)
    exact sound_aside (.status .adEmpty) (sound_aside .emptyBackup hs trivial)
      trivial
  · refine .inr (.inl ⟨restored_walk rfl rfl ?_ hne rfl (.inl hlen.symm), by
      simp [Undoable, File.apply]⟩)
    exact sound_aside (.size _) (sound_aside (.status .adEmpty)
      (sound_aside .emptyBackup hs trivial) trivial) trivial
  · have hw := wellFormed_closing .adEmpty hs
    rw [hlen] at hw
    exact .inr (.inl ⟨restored_closed hw rfl, undoable_idle (.inl rfl)⟩)

/-- Either the next handle finds one of the two lists, or it finds none, and it
does so exactly where the insertion can be undone. -/
theorem insertion_stops (now' : ℤ) (hw : WellFormed f L) (hf : AtRest f)
    (hh : Usable f h L) (hd : data ≠ [])
    (hwhere : w = f.getEnd ∨ w ∈ positions L)
    (hg : g ∈ Store.stops f ((addData now data w).run f h).log) :
    (Restored now' g L ∨ Restored now' g (insertBefore w (f.getEnd, data) L)) ∧
        Undoable L g ∨
      (∀ M, ¬ Restored now' g M) ∧ ¬ Undoable L g := by
  obtain ⟨t, f₀, L', log, it, h', hf₀, hi, -, -, -, hrun⟩ :=
    addData_run now hw hf hh hd hwhere
  have hidle := idle_opening (t := t) hw hf
  have ho : f₀.status = some .opened := hf₀ ▸ idle_opened
  obtain ⟨hw₀, -⟩ := hidle f₀ (hf₀ ▸ Store.applyAll_mem_stops _ _)
  have hend : f₀.getEnd = f.getEnd := by
    rw [hf₀, opening, repairs]
    split <;> rfl
  have hlist := hi.eq_insertBefore hw₀.toSound
  rw [hend] at hlist
  have hlog : ∀ g ∈ Store.stops f₀ log,
      Restored now' g L ∧ Undoable L g ∨
        (∀ M, ¬ Restored now' g M) ∧ ¬ Undoable L g := by
    by_cases hne : L = []
    · subst hne
      rw [hi.of_nil]
      exact empty_stops hw₀ ho
    · intro g hg
      exact .inl ⟨hi.restored hw₀ ho hne g hg, hi.undoable hw₀.toSound ho hne g hg⟩
  rw [hrun] at hg
  rcases Store.mem_stops_append.mp hg with hg | hg
  · rcases Store.mem_stops_append.mp hg with hg | hg
    · obtain ⟨hw', hidle'⟩ := hidle g hg
      exact .inl ⟨.inl (restored_idle hw' hidle'), undoable_idle hidle'⟩
    · rw [← hf₀] at hg
      exact (hlog g hg).imp_left (And.imp_left Or.inl)
  · rw [Store.applyAll_append, ← hf₀] at hg
    have hsize := (disturbed_stops (disturbed_self _ _ hw₀.toSound) hi.disturbs _
      (Store.applyAll_mem_stops _ _)).size
    rcases closing_stops now' (hi.sound hw₀.toSound hd) hi.length
      (hsize.trans hw₀.size) hi.written g hg with rfl | hafter | hnever
    · exact (hlog _ (Store.applyAll_mem_stops _ _)).imp_left (And.imp_left Or.inl)
    · exact .inl (hafter.imp_left fun hr => .inr (hlist ▸ hr))
    · exact .inr hnever

/-- A stop in an insertion can be recovered from exactly where it can be undone.
The next handle finds the list as it was before or as it is after. -/
theorem insertion_atomic_iff (now' : ℤ) (hw : WellFormed f L) (hf : AtRest f)
    (hh : Usable f h L) (hd : data ≠ [])
    (hwhere : w = f.getEnd ∨ w ∈ positions L)
    (hg : g ∈ Store.stops f ((addData now data w).run f h).log) :
    (Restored now' g L ∨ Restored now' g (insertBefore w (f.getEnd, data) L)) ↔
      Undoable L g := by
  rcases insertion_stops now' hw hf hh hd hwhere hg with ⟨hr, hu⟩ | ⟨hr, hu⟩
  · exact iff_of_true hr hu
  · exact iff_of_false (not_or.mpr ⟨hr _, hr _⟩) hu

end

/-- An insertion between two records, stopped between two writes. -/
theorem insertion_atomic_between :
    ∃ c, run Container.next (created 5)
        [(5, .add ['a'] 391), (5, .add ['b'] 487)] = some c ∧
      ∃ g ∈ Store.stops c.file ((addData 6 ['c'] 487).run c.file c.handle).log,
        Restored 7 g [(391, ['a']), (487, ['b'])] ∨
          Restored 7 g (insertBefore 487 (c.file.getEnd, ['c'])
            [(391, ['a']), (487, ['b'])]) := by
  have hmap : (run Container.next (created 5)
      [(5, .add ['a'] 391), (5, .add ['b'] 487)]).map (fun c =>
        decide (c.list = [(391, ['a']), (487, ['b'])] ∧ Undoable c.list
          (Store.applyAll c.file
            (((addData 6 ['c'] 487).run c.file c.handle).log.take 10)))) =
        some true := by
    decide
  obtain ⟨c, hrun, hc⟩ := Option.map_eq_some_iff.mp hmap
  obtain ⟨hlist, hundo⟩ := of_decide_eq_true hc
  obtain ⟨⟨hw, hf, hcur, -⟩, -⟩ := run_invariant
    (fun _ _ _ hc _ hn => next_left hc hn) (created_left 5) (meets_true _ _ _) hrun
  rw [hlist] at hw hcur hundo
  have hstop := Store.applyAll_take_mem_stops c.file
    ((addData 6 ['c'] 487).run c.file c.handle).log 10
  exact ⟨c, hrun, _, hstop, (insertion_atomic_iff 7 hw hf (.inr (.inr hcur)) (by simp)
    (.inr (by decide)) hstop).mpr hundo⟩

theorem not_restored_of_error {f : File} {now : ℤ}
    (he : ((initContainer now).run f (fresh now)).result.isOk = false)
    (L : List Entry) : ¬ Restored now f L := by
  rintro ⟨a, h, ws, hrun, -⟩
  rw [hrun] at he
  cases he

/-- The first insertion, stopped after the new limits were written. And an
insertion between two records, stopped after the slots were emptied: the
recovery then cuts everything. -/
theorem not_atomic :
    (∃ g ∈ Store.stops (created 5).file
        ((addData 6 ['a'] 391).run (created 5).file (created 5).handle).log,
      ∀ L, ¬ Restored 7 g L) ∧
    ∃ c, run Container.next (created 5)
        [(5, .add ['a'] 391), (5, .add ['b'] 487)] = some c ∧
      ∃ g ∈ Store.stops c.file
          ((addData 6 ['c'] 487).run c.file c.handle).log,
        ∀ L, ¬ Restored 7 g L := by
  refine ⟨⟨_, Store.applyAll_take_mem_stops _ _ 5,
    not_restored_of_error (by decide)⟩, ?_⟩
  have hrun : (run Container.next (created 5)
      [(5, .add ['a'] 391), (5, .add ['b'] 487)]).map (fun c =>
        ((initContainer 7).run (Store.applyAll c.file
          (((addData 6 ['c'] 487).run c.file c.handle).log.take 15))
            (fresh 7)).result.isOk) = some false := by
    decide
  obtain ⟨c, hc, herror⟩ := Option.map_eq_some_iff.mp hrun
  exact ⟨c, hc, _, Store.applyAll_take_mem_stops _ _ 15,
    not_restored_of_error herror⟩

end Wms.Jobsubmission.FileContainer
