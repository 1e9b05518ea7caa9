import Wms.Core.Supermarket

/-!
# Matching against a side that stays

The pointer of a side is null, so every match makes a new control block for it
and gets the only other copy. The use count tells whether the newest match is
still going on, and nothing about those before it. Where the newest match is
among those that are going on whenever the purchaser tests the side, that is
enough: a side that looks unused is unused, the purchaser keeps to the dark
side, and what it has filled completely becomes active.

`Counted` speaks of the pointers and holds in every run, `Filled` of the
contents of the two sides.
-/

namespace Wms.Core.Ism

open Wms.Lib

section
variable {ι : Type}

/-! ## The pointers -/

/-- The guards by thread and by block, and the count of the block that stands
for a side. -/
structure Counted (s : State ι) : Prop where
  null : ∀ side, (s.matching side).address = none
  fresh : ∀ side b, (s.matching side).block = some b → b < s.blocks.next
  distinct : ∀ side side' b, (s.matching side).block = some b →
    (s.matching side').block = some b → side = side'
  owned : ∀ g ∈ s.guards, ∃ b, g.ptr.block = some b ∧ b < s.blocks.next
  thread_inj : ∀ g ∈ s.guards, ∀ g' ∈ s.guards,
    g.thread = g'.thread → g = g'
  block_inj : ∀ g ∈ s.guards, ∀ g' ∈ s.guards,
    g.ptr.block = g'.ptr.block → g = g'
  side_eq : ∀ side, ∀ g ∈ s.guards, ∀ b, g.ptr.block = some b →
    (s.matching side).block = some b → g.side = side
  count : ∀ side b, (s.matching side).block = some b →
    (s.blocks.count b = 2 ∧ ∃ g ∈ s.guards, g.ptr.block = some b) ∨
      (s.blocks.count b = 1 ∧ ∀ g ∈ s.guards, g.ptr.block ≠ some b)

theorem counted_init : Counted (init : State ι) where
  null := fun _ => rfl
  fresh := fun _ _ h => by cases h
  distinct := fun _ _ _ h => by cases h
  owned := fun _ h => by cases h
  thread_inj := fun _ h => by cases h
  block_inj := fun _ h => by cases h
  side_eq := fun _ _ h => by cases h
  count := fun _ _ h => by cases h

/-- A side that looks unused has no newest guard. -/
theorem not_newest_of_unused {s : State ι} (hs : Counted s) {side : Side}
    (h : ¬ matchingThreads s side > 0) {g : Guard} (hg : g ∈ s.guards)
    (hside : g.side = side) : isNewest s g = false := by
  cases hn : isNewest s g with
  | false => rfl
  | true =>
      obtain ⟨b, hb, _⟩ := hs.owned g hg
      have hblock : (s.matching side).block = some b := by
        rw [← hside, ← of_decide_eq_true hn, hb]
      rcases hs.count side b hblock with ⟨hcount, _⟩ | ⟨_, hnone⟩
      · exfalso
        apply h
        unfold matchingThreads Blocks.useCount
        rw [hblock]
        dsimp only
        rw [hcount]
        decide
      · exact absurd hb (hnone g hg)

/-- And one whose newest guard has been released looks unused, whatever other
guards there are. -/
theorem unused_of_not_newest {s : State ι} (hs : Counted s) {side : Side}
    (h : ∀ g ∈ s.guards, g.side = side → isNewest s g = false) :
    ¬ matchingThreads s side > 0 := by
  unfold matchingThreads Blocks.useCount
  cases hblock : (s.matching side).block with
  | none =>
      dsimp only
      decide
  | some b =>
      dsimp only
      rcases hs.count side b hblock with ⟨_, g, hg, hb⟩ | ⟨hcount, _⟩
      · have hside := hs.side_eq side g hg b hb hblock
        have hnewest : isNewest s g = true := by
          refine decide_eq_true ?_
          rw [hside, hb, hblock]
        rw [h g hg hside] at hnewest
        cases hnewest
      · rw [hcount]
        decide

theorem guardOf_none {s : State ι} {thread : ℕ}
    (h : guardOf s thread = none) : ∀ g ∈ s.guards, g.thread ≠ thread := by
  intro g hg heq
  have hfalse := List.find?_eq_none.mp h g hg
  exact hfalse (decide_eq_true heq)

theorem guardOf_some {s : State ι} {thread : ℕ} {g : Guard}
    (h : guardOf s thread = some g) : g ∈ s.guards ∧ g.thread = thread := by
  unfold guardOf at h
  have hthread := List.find?_some h
  exact ⟨List.mem_of_find?_eq_some h, of_decide_eq_true hthread⟩

/-- What `match_on_active_side` does where all pointers are null. -/
theorem matchOnSide_eq {s : State ι} (hs : Counted s) (side : Side) :
    matchOnSide s side =
      ({ s with
          blocks :=
            { count := Function.update
                (Function.update (s.blocks.drop (s.matching side)).count
                  s.blocks.next 1) s.blocks.next 2
              next := s.blocks.next + 1 }
          matching := Function.update s.matching side
            ⟨none, some s.blocks.next⟩ }, ⟨none, some s.blocks.next⟩) := by
  have hnext : (s.blocks.drop (s.matching side)).next = s.blocks.next := by
    unfold Blocks.drop
    split <;> rfl
  unfold matchOnSide
  rw [hs.null side]
  simp only [Option.isSome_none, Bool.false_eq_true, if_false]
  unfold Blocks.reset Blocks.copy
  dsimp only
  rw [Function.update_self, hnext]
  dsimp only
  rw [Function.update_self]

theorem count_drop_of_ne {b : Blocks} {p : SharedPtr} {i : ℕ}
    (h : p.block ≠ some i) : (b.drop p).count i = b.count i := by
  unfold Blocks.drop
  split
  · rfl
  · next j hj =>
    refine Function.update_of_ne ?_ _ _
    rintro rfl
    exact h hj

/-- A side has a block it had before, but for the one that has just got the new
one. -/
theorem block_update {matching : Side → SharedPtr} {side side' : Side} {n b : ℕ}
    (h : (Function.update matching side ⟨none, some n⟩ side').block = some b) :
    side' = side ∧ b = n ∨ side' ≠ side ∧ (matching side').block = some b := by
  by_cases hside : side' = side
  · subst hside
    rw [Function.update_self] at h
    cases h
    exact .inl ⟨rfl, rfl⟩
  · rw [Function.update_of_ne hside] at h
    exact .inr ⟨hside, h⟩

/-- One more guard that differs from the others. -/
theorem inj_append {α : Type} {f : Guard → α} {gs : List Guard} {new : Guard}
    (hinj : ∀ g ∈ gs, ∀ g' ∈ gs, f g = f g' → g = g')
    (hnew : ∀ g ∈ gs, f g ≠ f new) :
    ∀ g ∈ gs ++ [new], ∀ g' ∈ gs ++ [new], f g = f g' → g = g' := by
  intro g hg g' hg' heq
  rcases List.mem_append.mp hg with hg | hg
  · rcases List.mem_append.mp hg' with hg' | hg'
    · exact hinj g hg g' hg' heq
    · rw [List.mem_singleton.mp hg'] at heq
      exact absurd heq (hnew g hg)
  · rw [List.mem_singleton] at hg
    rcases List.mem_append.mp hg' with hg' | hg'
    · rw [hg] at heq
      exact absurd heq.symm (hnew g' hg')
    · rw [List.mem_singleton] at hg'
      rw [hg, hg']

section
variable {s : State ι} {side : Side}

theorem block_ne_next (hs : Counted s) {side' : Side} {b : ℕ}
    (hb : (s.matching side').block = some b) : b ≠ s.blocks.next := by
  intro heq
  have hlt := hs.fresh side' b hb
  omega

theorem guard_ne_next (hs : Counted s) {g : Guard} (hg : g ∈ s.guards) :
    g.ptr.block ≠ some s.blocks.next := by
  intro heq
  obtain ⟨b, hb, hlt⟩ := hs.owned g hg
  rw [hb] at heq
  cases heq
  omega

/-- A match leaves the block of the other side as it was counted. -/
theorem count_take (hs : Counted s) {side' : Side} {b : ℕ} (hside : side' ≠ side)
    (hb : (s.matching side').block = some b) :
    Function.update (Function.update (s.blocks.drop (s.matching side)).count
      s.blocks.next 1) s.blocks.next 2 b = s.blocks.count b := by
  have hne := block_ne_next hs hb
  have hold : (s.matching side).block ≠ some b :=
    fun hm => hside (hs.distinct side' side b hb hm)
  rw [Function.update_of_ne hne, Function.update_of_ne hne, count_drop_of_ne hold]

end

/-- No pointer but those of the match has the new block. -/
theorem counted_take {s : State ι} (hs : Counted s) {thread : ℕ} (side : Side)
    (hthread : guardOf s thread = none) :
    Counted { (matchOnSide s side).1 with
      guards := s.guards ++ [⟨thread, (matchOnSide s side).2, side⟩] } := by
  rw [matchOnSide_eq hs]
  refine ⟨?_, ?_, ?_, ?_, ?_, ?_, ?_, ?_⟩
  · intro side'
    by_cases h : side' = side
    · subst h
      dsimp only
      rw [Function.update_self]
    · dsimp only
      rw [Function.update_of_ne h]
      exact hs.null side'
  · intro side' b hb
    dsimp only at hb ⊢
    rcases block_update hb with ⟨_, rfl⟩ | ⟨_, hb⟩
    · omega
    · have hlt := hs.fresh side' b hb
      omega
  · intro side₁ side₂ b h₁ h₂
    rcases block_update h₁ with ⟨e₁, hb⟩ | ⟨_, h₁⟩
    · rcases block_update h₂ with ⟨e₂, _⟩ | ⟨_, h₂⟩
      · rw [e₁, e₂]
      · exact absurd hb (block_ne_next hs h₂)
    · rcases block_update h₂ with ⟨_, hb⟩ | ⟨_, h₂⟩
      · exact absurd hb (block_ne_next hs h₁)
      · exact hs.distinct side₁ side₂ b h₁ h₂
  · intro g hg
    rcases List.mem_append.mp hg with hg | hg
    · obtain ⟨b, hb, hlt⟩ := hs.owned g hg
      exact ⟨b, hb, Nat.lt_succ_of_lt hlt⟩
    · rw [List.mem_singleton] at hg
      rw [hg]
      exact ⟨_, rfl, Nat.lt_succ_self _⟩
  · exact inj_append hs.thread_inj (guardOf_none hthread)
  · exact inj_append (f := fun g => g.ptr.block) hs.block_inj
      fun g hg => guard_ne_next hs hg
  · intro side' g hg b hb hm
    rcases List.mem_append.mp hg with hold | hlast
    · rcases block_update hm with ⟨_, rfl⟩ | ⟨_, hm⟩
      · exact absurd hb (guard_ne_next hs hold)
      · exact hs.side_eq side' g hold b hb hm
    · rw [List.mem_singleton] at hlast
      subst hlast
      cases hb
      rcases block_update hm with ⟨h, _⟩ | ⟨_, hm⟩
      · exact h.symm
      · exact absurd rfl (block_ne_next hs hm)
  · intro side' b hb
    dsimp only at hb ⊢
    rcases block_update hb with ⟨rfl, rfl⟩ | ⟨hside, hb⟩
    · refine .inl ⟨Function.update_self _ _ _,
        ⟨thread, ⟨none, some s.blocks.next⟩, side'⟩, ?_, rfl⟩
      exact List.mem_append_right _ (List.mem_singleton.mpr rfl)
    · rw [count_take hs hside hb]
      rcases hs.count side' b hb with ⟨hcount, g, hg, hgb⟩ | ⟨hcount, hall⟩
      · exact .inl ⟨hcount, g, List.mem_append_left _ hg, hgb⟩
      · refine .inr ⟨hcount, fun g hg => ?_⟩
        rcases List.mem_append.mp hg with hg | hg
        · exact hall g hg
        · rw [List.mem_singleton.mp hg]
          exact fun heq => block_ne_next hs hb (Option.some.inj heq).symm

theorem counted_release {s : State ι} (hs : Counted s) {thread : ℕ} {g : Guard}
    (hg : guardOf s thread = some g) :
    Counted { s with
      blocks := s.blocks.drop g.ptr
      guards := s.guards.filter fun g => g.thread ≠ thread } := by
  obtain ⟨hmem, hthread⟩ := guardOf_some hg
  obtain ⟨b₀, hb₀, _⟩ := hs.owned g hmem
  have hnext : (s.blocks.drop g.ptr).next = s.blocks.next := by
    unfold Blocks.drop
    split <;> rfl
  have hstays : ∀ g', g' ∈ s.guards.filter (fun g => g.thread ≠ thread) ↔
      g' ∈ s.guards ∧ g' ≠ g := by
    intro g'
    rw [List.mem_filter, decide_eq_true_eq]
    refine and_congr_right fun hg' => not_congr ⟨fun h => ?_, fun h => ?_⟩
    · exact hs.thread_inj g' hg' g hmem (h.trans hthread.symm)
    · rw [h, hthread]
  have hsub : ∀ g' ∈ s.guards.filter (fun g => g.thread ≠ thread),
      g' ∈ s.guards := fun g' h => ((hstays g').mp h).1
  refine ⟨hs.null, ?_, hs.distinct, ?_, ?_, ?_, ?_, ?_⟩
  · intro side b hb
    dsimp only
    rw [hnext]
    exact hs.fresh side b hb
  · intro g' hg'
    dsimp only
    rw [hnext]
    exact hs.owned g' (hsub g' hg')
  · exact fun g₁ h₁ g₂ h₂ => hs.thread_inj g₁ (hsub g₁ h₁) g₂ (hsub g₂ h₂)
  · exact fun g₁ h₁ g₂ h₂ => hs.block_inj g₁ (hsub g₁ h₁) g₂ (hsub g₂ h₂)
  · exact fun side g' h' => hs.side_eq side g' (hsub g' h')
  · intro side b hb
    dsimp only
    by_cases hbb : b = b₀
    · subst hbb
      refine .inr ⟨?_, fun g' hg' heq => ?_⟩
      · rcases hs.count side b hb with ⟨hcount, _⟩ | ⟨_, hnone⟩
        · unfold Blocks.drop
          rw [hb₀]
          dsimp only
          rw [Function.update_self, hcount]
        · exact absurd hb₀ (hnone g hmem)
      · obtain ⟨hin, hne⟩ := (hstays g').mp hg'
        exact hne (hs.block_inj g' hin g hmem (heq.trans hb₀.symm))
    · have hne : g.ptr.block ≠ some b := by
        rw [hb₀]
        exact fun heq => hbb (Option.some.inj heq).symm
      rw [count_drop_of_ne hne]
      rcases hs.count side b hb with ⟨hcount, g', hg', hgb⟩ | ⟨hcount, hall⟩
      · refine .inl ⟨hcount, g', (hstays g').mpr ⟨hg', ?_⟩, hgb⟩
        rintro rfl
        exact hne hgb
      · exact .inr ⟨hcount, fun g' hg' => hall g' (hsub g' hg')⟩

theorem counted_congr {s s' : State ι} (hs : Counted s)
    (hmatching : s'.matching = s.matching) (hblocks : s'.blocks = s.blocks)
    (hguards : s'.guards = s.guards) : Counted s' := by
  obtain ⟨h₁, h₂, h₃, h₄, h₅, h₆, h₇, h₈⟩ := hs
  refine ⟨?_, ?_, ?_, ?_, ?_, ?_, ?_, ?_⟩ <;>
    simp only [hmatching, hblocks, hguards] <;> assumption

theorem counted_next (cfg : Config ι) {s s' : State ι} {l : Label ι}
    (hs : Counted s) (hn : next cfg s l = some s') : Counted s' := by
  cases l with
  | take thread =>
      dsimp only [next] at hn
      split at hn
      · next side _ hguard =>
        cases hn
        have htaken := counted_take hs side hguard
        rw [matchOnSide_eq hs] at htaken ⊢
        exact htaken
      · cases hn
  | look thread =>
      dsimp only [next] at hn
      split at hn <;> cases hn
      exact hs
  | release thread =>
      dsimp only [next] at hn
      split at hn
      · next g hguard =>
        cases hn
        exact counted_release hs hguard
      · cases hn
  | test =>
      dsimp only [next] at hn
      split at hn
      · split at hn <;> cases hn
        · exact hs
        · exact counted_congr hs rfl rfl rfl
      · cases hn
  | clear | fetch | insert | wake =>
      dsimp only [next] at hn
      split at hn <;> cases hn <;> exact counted_congr hs rfl rfl rfl
  | switch =>
      dsimp only [next] at hn
      split at hn
      · cases hn
        unfold switchActiveSide
        split <;> exact counted_congr hs rfl rfl rfl
      · cases hn
  | fail =>
      dsimp only [next] at hn
      split at hn <;> cases hn
      exact counted_congr hs rfl rfl rfl

/-! ## The contents -/

/-- The dark side has been tested and the cycle is not over. -/
def busy : Phase ι → Bool
  | .testing => false
  | .resting => false
  | _ => true

/-- The entries of one kind. -/
def ofKind (kind : Kind) (entries : List (Kind × String × ι)) : Slice ι :=
  (entries.filter fun e => e.1 = kind).map fun e => e.2

/-- How far the cycle has got with a map of the dark side. -/
def Reached (cfg : Config ι) (s : State ι) (kind : Kind) : Phase ι → Prop
  | .testing => True
  | .clearing kinds => kind ∉ kinds →
      s.ism kind (darkSide s) = [] ∧ s.fetched kind = []
  | .fetching _ =>
      s.ism kind (darkSide s) = stock cfg.merge (s.fetched kind)
  | .inserting entries _ =>
      (ofKind kind entries).foldl (insertEntry cfg.merge)
        (s.ism kind (darkSide s)) = stock cfg.merge (s.fetched kind)
  | .switching =>
      s.ism kind (darkSide s) = stock cfg.merge (s.fetched kind)
  | .resting => True

structure Filled (cfg : Config ι) (s : State ι) : Prop where
  active : ∀ side, s.activeSide = some side → Complete cfg s side
  guards : ∀ g ∈ s.guards, Complete cfg s g.side
  dark : busy s.phase = true → ∀ g ∈ s.guards, g.side ≠ darkSide s
  reached : ∀ kind, Reached cfg s kind s.phase

theorem filled_init (cfg : Config ι) : Filled cfg (init : State ι) where
  active := fun _ h => by cases h
  guards := fun _ h => by cases h
  dark := fun h => by cases h
  reached := fun _ => trivial

theorem side_ne_next : ∀ side : Side, side ≠ side + 1 := by decide

theorem active_ne_darkSide {s : State ι} {side : Side}
    (h : s.activeSide = some side) : side ≠ darkSide s := by
  unfold darkSide
  rw [h]
  exact side_ne_next side

theorem complete_congr {cfg : Config ι} {s s' : State ι} {side : Side}
    (hpurchase : s'.purchase side = s.purchase side)
    (hism : ∀ kind, s'.ism kind side = s.ism kind side)
    (h : Complete cfg s side) : Complete cfg s' side := by
  obtain ⟨fetched, hfetched, hall⟩ := h
  refine ⟨fetched, hpurchase.trans hfetched, fun kind => ?_⟩
  rw [hism kind]
  exact hall kind

/-- What the purchaser does to the dark side, where no match is going on. -/
theorem Filled.work {cfg : Config ι} {s s' : State ι} (hs : Filled cfg s)
    (hdark : ∀ g ∈ s.guards, g.side ≠ darkSide s)
    (hactive : s'.activeSide = s.activeSide) (hguards : s'.guards = s.guards)
    (hpurchase : ∀ side, side ≠ darkSide s →
      s'.purchase side = s.purchase side)
    (hism : ∀ side, side ≠ darkSide s → ∀ kind,
      s'.ism kind side = s.ism kind side)
    (hreached : ∀ kind, Reached cfg s' kind s'.phase) : Filled cfg s' where
  active := by
    intro side h
    rw [hactive] at h
    have hne := active_ne_darkSide h
    exact complete_congr (hpurchase side hne) (hism side hne)
      (hs.active side h)
  guards := by
    intro g hg
    rw [hguards] at hg
    have hne := hdark g hg
    exact complete_congr (hpurchase _ hne) (hism _ hne) (hs.guards g hg)
  dark := by
    intro _ g hg
    rw [hguards] at hg
    have hside : darkSide s' = darkSide s := by
      unfold darkSide
      rw [hactive]
    rw [hside]
    exact hdark g hg
  reached := hreached

theorem filled_take {cfg : Config ι} {s : State ι} {thread : ℕ} {side : Side}
    {ptr : SharedPtr} {blocks : Blocks} {matching : Side → SharedPtr}
    (hs : Filled cfg s) (hside : s.activeSide = some side) :
    Filled cfg { s with
      blocks := blocks
      matching := matching
      guards := s.guards ++ [⟨thread, ptr, side⟩] } where
  active := hs.active
  guards := by
    intro g hg
    rcases List.mem_append.mp hg with hg | hg
    · exact hs.guards g hg
    · rw [List.mem_singleton] at hg
      rw [hg]
      exact hs.active side hside
  dark := by
    intro hbusy g hg
    rcases List.mem_append.mp hg with hg | hg
    · exact hs.dark hbusy g hg
    · rw [List.mem_singleton] at hg
      rw [hg]
      exact active_ne_darkSide hside
  reached := by
    have hreached := hs.reached
    intro kind
    specialize hreached kind
    cases hphase : s.phase <;> rw [hphase] at hreached <;> exact hreached

theorem filled_release {cfg : Config ι} {s : State ι} {p : Guard → Bool}
    {blocks : Blocks} (hs : Filled cfg s) :
    Filled cfg { s with blocks := blocks, guards := s.guards.filter p } where
  active := hs.active
  guards := fun g hg => hs.guards g (List.mem_filter.mp hg).1
  dark := fun hbusy g hg => hs.dark hbusy g (List.mem_filter.mp hg).1
  reached := by
    have hreached := hs.reached
    intro kind
    specialize hreached kind
    cases hphase : s.phase <;> rw [hphase] at hreached <;> exact hreached

/-- A cycle that ends leaves things as they are. -/
theorem filled_idle {cfg : Config ι} {s : State ι} {phase : Phase ι}
    (hs : Filled cfg s) (hidle : busy phase = false) :
    Filled cfg { s with phase := phase } where
  active := hs.active
  guards := hs.guards
  dark := fun hbusy => by rw [hidle] at hbusy; cases hbusy
  reached := fun _ => by cases phase <;> trivial

/-- A side that looks unused is unused, if the newest match is held. -/
theorem unused_of_newestHeld {s : State ι} (hs : Counted s)
    (hok : newestHeld s .test = true)
    (h : ¬ matchingThreads s (darkSide s) > 0) :
    ∀ g ∈ s.guards, g.side ≠ darkSide s := by
  rcases Bool.or_eq_true _ _ ▸ hok with hok | hok
  · exact fun g hg => of_decide_eq_true (List.all_eq_true.mp hok g hg)
  · exfalso
    obtain ⟨g, hg, hnewest⟩ := List.any_eq_true.mp hok
    obtain ⟨hside, hnewest⟩ := Bool.and_eq_true_iff.mp hnewest
    rw [not_newest_of_unused hs h hg (of_decide_eq_true hside)] at hnewest
    cases hnewest

theorem setSlice_ism_self (s : State ι) (kind : Kind) (side : Side)
    (slice : Slice ι) : (setSlice s kind side slice).ism kind side = slice := by
  unfold setSlice
  dsimp only
  rw [Function.update_self, Function.update_self]

theorem setSlice_ism_of_side {s : State ι} {kind : Kind} {side side' : Side}
    {slice : Slice ι} (h : side' ≠ side) (kind' : Kind) :
    (setSlice s kind side slice).ism kind' side' = s.ism kind' side' := by
  unfold setSlice
  by_cases hkind : kind' = kind
  · subst hkind
    dsimp only
    rw [Function.update_self, Function.update_of_ne h]
  · dsimp only
    rw [Function.update_of_ne hkind]

theorem setSlice_ism_of_kind {s : State ι} {kind kind' : Kind} {side : Side}
    {slice : Slice ι} (h : kind' ≠ kind) (side' : Side) :
    (setSlice s kind side slice).ism kind' side' = s.ism kind' side' := by
  unfold setSlice
  dsimp only
  rw [Function.update_of_ne h]

theorem filled_clear {cfg : Config ι} {s : State ι} {kind : Kind}
    {kinds : List Kind} (hs : Filled cfg s)
    (hphase : s.phase = .clearing (kind :: kinds)) :
    Filled cfg { setSlice s kind (darkSide s) [] with
      fetched := fun _ => []
      purchase := Function.update s.purchase (darkSide s) none
      phase := afterClear cfg kinds } := by
  have hdark := hs.dark (by rw [hphase]; rfl)
  -- The map of every kind that is not to come is empty.
  have hempty : ∀ kind', kind' ∉ kinds →
      (setSlice s kind (darkSide s) []).ism kind' (darkSide s) = [] := by
    intro kind' hkind'
    by_cases h : kind' = kind
    · subst h
      exact setSlice_ism_self s _ _ _
    · rw [setSlice_ism_of_kind h]
      have hreached := hs.reached kind'
      rw [hphase] at hreached
      exact (hreached (List.not_mem_cons_of_ne_of_not_mem h hkind')).1
  refine hs.work hdark rfl rfl ?_ ?_ ?_
  · exact fun side hside => Function.update_of_ne hside _ _
  · exact fun side hside => setSlice_ism_of_side hside
  · intro kind'
    cases kinds with
    | nil =>
        have h := hempty kind' List.not_mem_nil
        dsimp only [afterClear, nextSource]
        split <;> exact h
    | cons k ks => exact fun hkind' => ⟨hempty kind' hkind', rfl⟩

theorem stock_append (merge : ι → ι → ι) (a b : Slice ι) :
    stock merge (a ++ b) = b.foldl (insertEntry merge) (stock merge a) := by
  unfold stock
  exact List.foldl_append

theorem ofKind_cons_self (kind : Kind) (e : String × ι)
    (entries : List (Kind × String × ι)) :
    ofKind kind ((kind, e) :: entries) = e :: ofKind kind entries := by
  unfold ofKind
  rw [List.filter_cons_of_pos (by simp)]
  rfl

theorem ofKind_cons_of_ne {kind kind' : Kind} (h : kind' ≠ kind)
    (e : String × ι) (entries : List (Kind × String × ι)) :
    ofKind kind ((kind', e) :: entries) = ofKind kind entries := by
  unfold ofKind
  rw [List.filter_cons_of_neg (by simpa using h)]

theorem ofKind_answer (ces ses : Slice ι) (kind : Kind) :
    ofKind kind (ces.map (fun e => (Kind.ce, e)) ++
      ses.map fun e => (Kind.se, e)) = answerOf ces ses kind := by
  unfold ofKind
  rw [List.filter_append, List.filter_map, List.filter_map]
  cases kind <;> simp [answerOf, Function.comp_def]

theorem filled_fetch {cfg : Config ι} {s : State ι} {n sources : ℕ}
    {ces ses : Slice ι} (hs : Filled cfg s) (hphase : s.phase = .fetching n) :
    Filled cfg (afterFetch s sources ces ses) := by
  have hdark := hs.dark (by rw [hphase]; rfl)
  refine hs.work hdark rfl rfl (fun _ _ => rfl) (fun _ _ _ => rfl) ?_
  intro kind
  have hreached := hs.reached kind
  rw [hphase] at hreached
  change List.foldl _ (s.ism kind (darkSide s)) (ofKind kind _) =
    stock cfg.merge (s.fetched kind ++ answerOf ces ses kind)
  rw [ofKind_answer, stock_append]
  exact congrArg (fun slice => List.foldl _ slice _) hreached

theorem filled_insert {cfg : Config ι} {s : State ι} {kind : Kind}
    {e : String × ι} {entries : List (Kind × String × ι)} {sources : ℕ}
    (hs : Filled cfg s)
    (hphase : s.phase = .inserting ((kind, e) :: entries) sources) :
    Filled cfg { setSlice s kind (darkSide s)
        (insertEntry cfg.merge (s.ism kind (darkSide s)) e) with
      phase := .inserting entries sources } := by
  have hdark := hs.dark (by rw [hphase]; rfl)
  refine hs.work hdark rfl rfl (fun _ _ => rfl) ?_ ?_
  · exact fun side hside => setSlice_ism_of_side hside
  · intro kind'
    have hreached := hs.reached kind'
    rw [hphase] at hreached
    change List.foldl _ ((setSlice s kind (darkSide s) _).ism kind'
      (darkSide s)) (ofKind kind' entries) = stock cfg.merge (s.fetched kind')
    change List.foldl _ (s.ism kind' (darkSide s))
      (ofKind kind' ((kind, e) :: entries)) = _ at hreached
    by_cases h : kind' = kind
    · subst h
      rw [setSlice_ism_self]
      rw [ofKind_cons_self] at hreached
      exact hreached
    · rw [setSlice_ism_of_kind h]
      rw [ofKind_cons_of_ne (Ne.symm h)] at hreached
      exact hreached

theorem filled_inserted {cfg : Config ι} {s : State ι} {sources : ℕ}
    (hs : Filled cfg s) (hphase : s.phase = .inserting [] sources) :
    Filled cfg { s with phase := nextSource sources } := by
  have hdark := hs.dark (by rw [hphase]; rfl)
  refine hs.work hdark rfl rfl (fun _ _ => rfl) (fun _ _ _ => rfl) ?_
  intro kind
  have hreached := hs.reached kind
  rw [hphase] at hreached
  dsimp only [nextSource]
  split <;> exact hreached

theorem switchActiveSide_eq (s : State ι) :
    switchActiveSide s = { s with activeSide := some (darkSide s) } := by
  unfold switchActiveSide darkSide
  cases h : s.activeSide <;> rfl

theorem filled_switch {cfg : Config ι} {s : State ι} (hs : Filled cfg s)
    (hphase : s.phase = .switching) :
    Filled cfg { switchActiveSide s with
      purchase := Function.update s.purchase (darkSide s) (some s.fetched)
      phase := .resting } := by
  have hdark := hs.dark (by rw [hphase]; rfl)
  rw [switchActiveSide_eq]
  refine ⟨?_, ?_, fun h => (by cases h), fun _ => trivial⟩
  · intro side hside
    cases hside
    refine ⟨s.fetched, Function.update_self _ _ _, fun kind => ?_⟩
    have hreached := hs.reached kind
    rw [hphase] at hreached
    exact hreached
  · intro g hg
    exact complete_congr (Function.update_of_ne (hdark g hg) _ _)
      (fun _ => rfl) (hs.guards g hg)

theorem filled_next {cfg : Config ι} {s s' : State ι} {l : Label ι}
    (hc : Counted s) (hs : Filled cfg s) (hok : newestHeld s l = true)
    (hn : next cfg s l = some s') : Filled cfg s' := by
  cases l with
  | take thread =>
      dsimp only [next] at hn
      split at hn
      · next side _ hside _ =>
        cases hn
        rw [matchOnSide_eq hc]
        exact filled_take (s := s) hs hside
      · cases hn
  | look thread =>
      dsimp only [next] at hn
      split at hn <;> cases hn
      exact hs
  | release thread =>
      dsimp only [next] at hn
      split at hn <;> cases hn
      exact filled_release hs
  | test =>
      dsimp only [next] at hn
      split at hn
      · split at hn
        · cases hn
          exact hs
        · next hunused =>
          cases hn
          refine hs.work (unused_of_newestHeld hc hok hunused) rfl rfl
            (fun _ _ => rfl) (fun _ _ _ => rfl) ?_
          intro kind hkind
          cases kind <;> simp at hkind
      · cases hn
  | clear =>
      dsimp only [next] at hn
      split at hn
      · next hphase =>
        cases hn
        exact filled_clear hs hphase
      · cases hn
  | fetch ces ses =>
      dsimp only [next] at hn
      split at hn
      · next hphase =>
        cases hn
        exact filled_fetch hs hphase
      · cases hn
  | insert =>
      dsimp only [next] at hn
      split at hn
      · next hphase =>
        cases hn
        exact filled_insert hs hphase
      · next hphase =>
        cases hn
        exact filled_inserted hs hphase
      · cases hn
  | switch =>
      dsimp only [next] at hn
      split at hn
      · next hphase =>
        cases hn
        exact filled_switch hs hphase
      · cases hn
  | fail =>
      dsimp only [next] at hn
      split at hn <;> cases hn
      exact filled_idle hs rfl
  | wake =>
      dsimp only [next] at hn
      split at hn <;> cases hn
      exact filled_idle hs rfl

/-! ## What a match is given -/

theorem undisturbed_of_filled {cfg : Config ι} {s : State ι} (hs : Filled cfg s)
    (l : Label ι) : Undisturbed s l := by
  intro g hg kind htouches
  have hside : busy s.phase = true → darkSide s ≠ g.side :=
    fun hbusy => Ne.symm (hs.dark hbusy g hg)
  cases l <;> dsimp only [touches] at htouches <;> try cases htouches
  all_goals
    split at htouches
    · next hphase =>
      obtain ⟨_, heq⟩ := Prod.mk.inj (Option.some.inj htouches)
      exact hside (by rw [hphase]; rfl) heq
    · cases htouches

/-- While the newest match on a side outlasts the older ones, whenever the
purchaser tests that side, no side is changed under a match, and a match is
given a side that is complete. -/
theorem never_changed_under_match (cfg : Config ι) {ls : List (Label ι)}
    {s : State ι}
    (hok : Meets (next cfg) (fun s l => newestHeld s l = true) init ls)
    (hrun : run (next cfg) init ls = some s) :
    (∀ p ∈ steps (next cfg) init ls, Undisturbed p.1 p.2) ∧
      ∀ g ∈ s.guards, Complete cfg s g.side := by
  have hstep : ∀ s l s', Counted s ∧ Filled cfg s → newestHeld s l = true →
      next cfg s l = some s' → Counted s' ∧ Filled cfg s' :=
    fun _ _ _ hs hok hn =>
      ⟨counted_next cfg hs.1 hn, filled_next hs.1 hs.2 hok hn⟩
  have hinit := And.intro (counted_init (ι := ι)) (filled_init cfg)
  refine ⟨fun p hp => ?_, ?_⟩
  · exact undisturbed_of_filled (steps_invariant hstep hinit hok p hp).2 p.2
  · exact (run_invariant hstep hinit hok hrun).2.guards

/-- And where the newest match is gone, the test passes and the side is cleared
under those that are left. -/
theorem disturbed_of_newest_gone (cfg : Config ι) {ls : List (Label ι)}
    {s : State ι} (hrun : run (next cfg) init ls = some s)
    (hphase : s.phase = .testing) (hgone : newestHeld s .test = false) :
    ∃ s', next cfg s .test = some s' ∧ ¬ Undisturbed s' .clear := by
  have hs : Counted s := run_invariant
    (fun _ _ _ hs _ hn => counted_next cfg hs hn) counted_init
    (meets_true _ _ _) hrun
  obtain ⟨hall, hany⟩ := Bool.or_eq_false_iff.mp hgone
  have hunused : ¬ matchingThreads s (darkSide s) > 0 := by
    refine unused_of_not_newest hs fun g hg hside => ?_
    have hfalse := List.any_eq_false.mp hany g hg
    cases hnewest : isNewest s g with
    | false => rfl
    | true => exact absurd (by rw [hside, hnewest]; simp) hfalse
  obtain ⟨g, hg, hside⟩ := List.all_eq_false.mp hall
  have hside : g.side = darkSide s := by
    by_contra h
    exact hside (decide_eq_true h)
  refine ⟨{ s with phase := .clearing [.ce, .se] }, ?_, fun h => ?_⟩
  · dsimp only [next]
    rw [hphase]
    exact if_neg hunused
  · exact h g hg .ce (by rw [hside]; rfl)

end

/-! ## Two runs

One source, one entry of each kind. -/

def sampleConfig : Config ℕ := ⟨1, fun _ e => e⟩

/-- A purchase from the clearing of the dark side to the switching. -/
def purchase (e : ℕ) : List (Label ℕ) :=
  [.test, .clear, .clear, .fetch [("ce", e)] [("se", e)], .insert, .insert,
    .insert, .switch, .wake]

/-- Two matches on the first side, and the second one is the last to end. -/
def inTurn : List (Label ℕ) :=
  purchase 0 ++ [.take 1, .take 2] ++ purchase 1 ++
    [.take 3, .look 1, .release 1, .test, .look 2, .release 2, .test, .clear,
      .look 3]

theorem never_changed_under_match_inTurn :
    ∃ s, run (next sampleConfig) init inTurn = some s ∧
      s.guards.map (fun g => (g.thread, g.side)) = [(3, 1)] ∧
      (∀ p ∈ steps (next sampleConfig) init inTurn, Undisturbed p.1 p.2) ∧
      ∀ g ∈ s.guards, Complete sampleConfig s g.side := by
  have hok : ((steps (next sampleConfig) init inTurn).all fun p =>
      newestHeld p.1 p.2) = true := rfl
  exact ⟨_, rfl, rfl, never_changed_under_match sampleConfig
    (List.all_eq_true.mp hok) rfl⟩

/-- The second match ends first, the purchaser finds the side unused and
clears it. -/
def overtaken : List (Label ℕ) :=
  purchase 0 ++ [.take 1, .take 2] ++ purchase 1 ++
    [.release 2, .test, .clear, .look 1]

/-- The first match goes on looking at a side that has been emptied. -/
theorem not_never_changed_under_match_overtaken :
    ∃ s, run (next sampleConfig) init overtaken = some s ∧
      s.guards.map (fun g => (g.thread, g.side)) = [(1, 0)] ∧
      s.ism .ce 0 = [] ∧
      (¬ ∀ p ∈ steps (next sampleConfig) init overtaken,
        Undisturbed p.1 p.2) ∧
      ¬ ∀ g ∈ s.guards, Complete sampleConfig s g.side := by
  have hcleared : ((steps (next sampleConfig) init overtaken).any fun p =>
      p.1.guards.any fun g => touches p.1 p.2 = some (.ce, g.side)) = true :=
    rfl
  refine ⟨_, rfl, rfl, rfl, fun h => ?_, fun h => ?_⟩
  · obtain ⟨p, hp, hguard⟩ := List.any_eq_true.mp hcleared
    obtain ⟨g, hg, htouches⟩ := List.any_eq_true.mp hguard
    exact h p hp g hg .ce (of_decide_eq_true htouches)
  · obtain ⟨fetched, hfetched, _⟩ := h _ (.head _)
    cases hfetched

end Wms.Core.Ism
