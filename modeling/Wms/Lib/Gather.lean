import Mathlib.Data.Option.Basic
import Wms.Lib.OrderedMap

/-!
# Loops that fill a map

A loop whose steps each give an entry, nothing or a fault. Entries go into a map
in which the first of two with one key stays, and a fault ends the loop without
the map. Where one kind of fault may happen as long as no entry is lost by it,
what is asked of the steps is this: none of them fails, or the first that fails
does so in that way and none of the others gives an entry.
-/

namespace Wms.Lib

universe u v

namespace OrderedMap

variable {κ : Type u} {ν : Type v} [LinearOrder κ]

/-- `m.insert`, which leaves an entry that is there. -/
def insertNew (m : OrderedMap κ ν) (k : κ) (v : ν) : OrderedMap κ ν :=
  m.set k (m.getOr k v)

theorem find?_empty (k : κ) : (empty : OrderedMap κ ν).find? k = none := rfl

theorem find?_insertNew (m : OrderedMap κ ν) (k : κ) (v : ν) (j : κ) :
    (m.insertNew k v).find? j =
      (m.find? j).or (if k = j then some v else none) := by
  unfold insertNew
  by_cases h : k = j
  · subst h
    rw [find?_set_self, if_pos rfl]
    unfold getOr
    cases m.find? k <;> rfl
  · rw [find?_set_of_ne (Ne.symm h), if_neg h, Option.or_none]

end OrderedMap

namespace Gather

open OrderedMap

variable {ε : Type v} {κ ν σ τ : Type u} [LinearOrder κ]

/-- What a step gave goes into the map. -/
def offer (m : OrderedMap κ ν) :
    Except ε (Option (κ × ν)) → Except ε (OrderedMap κ ν)
  | .error f => .error f
  | .ok none => .ok m
  | .ok (some e) => .ok (m.insertNew e.1 e.2)

/-- The loop. -/
def gather (result : σ → Except ε (Option (κ × ν))) (steps : List σ)
    (m : OrderedMap κ ν) : Except ε (OrderedMap κ ν) :=
  steps.foldlM (fun m s => offer m (result s)) m

/-- The value of the first entry with a key. -/
def firstOf (result : σ → Except ε (Option (κ × ν))) (steps : List σ) (k : κ) :
    Option ν :=
  steps.findSome? fun s =>
    match result s with
    | .ok (some e) => if e.1 = k then some e.2 else none
    | _ => none

variable {result : σ → Except ε (Option (κ × ν))} {steps : List σ}
  {m m' : OrderedMap κ ν} {f : ε}

theorem bind_eq_ok {α β : Type u} {x : Except ε α} {g : α → Except ε β} {b : β} :
    x >>= g = .ok b ↔ ∃ a, x = .ok a ∧ g a = .ok b := by
  cases x with
  | error f => exact ⟨nofun, fun ⟨_, h, _⟩ => nomatch h⟩
  | ok a => exact ⟨fun h => ⟨a, rfl, h⟩, fun ⟨_, rfl, h⟩ => h⟩

theorem bind_eq_error {α β : Type u} {x : Except ε α} {g : α → Except ε β} :
    x >>= g = .error f ↔ x = .error f ∨ ∃ a, x = .ok a ∧ g a = .error f := by
  cases x with
  | error f' =>
      show (Except.error f' : Except ε β) = _ ↔ _
      simp
  | ok a =>
      show g a = _ ↔ _
      simp

/-- Several steps that each give a value. -/
theorem mapM_isOk {α β : Type u} {g : α → Except ε β} {l : List α} :
    (∃ bs, l.mapM g = .ok bs) ↔ ∀ a ∈ l, ∃ b, g a = .ok b := by
  induction l with
  | nil => exact ⟨fun _ => nofun, fun _ => ⟨[], rfl⟩⟩
  | cons a l ih =>
      simp only [List.mapM_cons, bind_eq_ok, List.forall_mem_cons, ← ih]
      constructor
      · rintro ⟨-, b, hb, bs, hbs, -⟩
        exact ⟨⟨b, hb⟩, bs, hbs⟩
      · rintro ⟨⟨b, hb⟩, bs, hbs⟩
        exact ⟨b :: bs, b, hb, bs, hbs, rfl⟩

theorem mapM_ne_error {α β : Type u} {g : α → Except ε β} {l : List α}
    (h : ∀ a ∈ l, g a ≠ .error f) : l.mapM g ≠ .error f := by
  induction l with
  | nil => exact nofun
  | cons a l ih =>
      obtain ⟨ha, hl⟩ := List.forall_mem_cons.mp h
      rw [List.mapM_cons, Ne, bind_eq_error]
      rintro (hx | ⟨b, -, hrest⟩)
      · exact ha hx
      · rcases bind_eq_error.mp hrest with hx | ⟨bs, -, hx⟩
        · exact ih hl hx
        · cases hx

theorem gather_nil : gather result [] m = .ok m := rfl

theorem gather_cons (s : σ) :
    gather result (s :: steps) m = offer m (result s) >>= gather result steps :=
  List.foldlM_cons

theorem gather_append (steps' : List σ) :
    gather result (steps ++ steps') m =
      gather result steps m >>= gather result steps' :=
  List.foldlM_append

theorem offer_eq_error {r : Except ε (Option (κ × ν))} :
    offer m r = .error f ↔ r = .error f := by
  cases r with
  | error f' => simp [offer]
  | ok o => cases o <;> simp [offer]

theorem offer_isOk {r : Except ε (Option (κ × ν))} :
    (∃ m', offer m r = .ok m') ↔ ∃ o, r = .ok o := by
  cases r with
  | error f' => simp [offer]
  | ok o => cases o <;> simp [offer]

/-- The loop ends with a map just when no step fails. -/
theorem gather_isOk (m : OrderedMap κ ν) :
    (∃ m', gather result steps m = .ok m') ↔
      ∀ s ∈ steps, ∃ o, result s = .ok o := by
  induction steps generalizing m with
  | nil => exact ⟨fun _ => nofun, fun _ => ⟨m, rfl⟩⟩
  | cons s steps ih =>
      simp only [gather_cons, bind_eq_ok, List.forall_mem_cons]
      constructor
      · rintro ⟨m', m₁, hoffer, hrest⟩
        exact ⟨offer_isOk.mp ⟨m₁, hoffer⟩, (ih m₁).mp ⟨m', hrest⟩⟩
      · rintro ⟨hs, hsteps⟩
        obtain ⟨m₁, hoffer⟩ := (offer_isOk (m := m)).mpr hs
        obtain ⟨m', hrest⟩ := (ih m₁).mpr hsteps
        exact ⟨m', m₁, hoffer, hrest⟩

/-- It ends with the fault of the first step that fails. -/
theorem gather_eq_error (m : OrderedMap κ ν) :
    gather result steps m = .error f ↔
      ∃ before s after, steps = before ++ s :: after ∧
        (∀ u ∈ before, ∃ o, result u = .ok o) ∧ result s = .error f := by
  constructor
  · intro h
    induction steps generalizing m with
    | nil => cases h
    | cons s steps ih =>
        rw [gather_cons, bind_eq_error] at h
        rcases h with hs | ⟨m₁, hoffer, hrest⟩
        · exact ⟨[], s, steps, rfl, nofun, offer_eq_error.mp hs⟩
        · obtain ⟨before, t, after, rfl, hbefore, ht⟩ := ih m₁ hrest
          have hs := offer_isOk.mp ⟨m₁, hoffer⟩
          exact ⟨s :: before, t, after, rfl, List.forall_mem_cons.mpr ⟨hs, hbefore⟩, ht⟩
  · rintro ⟨before, s, after, rfl, hbefore, hs⟩
    obtain ⟨m₁, hrun⟩ := (gather_isOk m).mpr hbefore
    rw [gather_append, hrun]
    show gather result (s :: after) m₁ = .error f
    rw [gather_cons, hs]
    rfl

/-- The map has the entries it had, and of the new ones with a key the first. -/
theorem find?_gather (h : gather result steps m = .ok m') (k : κ) :
    m'.find? k = (m.find? k).or (firstOf result steps k) := by
  induction steps generalizing m with
  | nil =>
      cases h
      exact Option.or_none.symm
  | cons s steps ih =>
      rw [gather_cons, bind_eq_ok] at h
      obtain ⟨m₁, hoffer, hrest⟩ := h
      rw [ih hrest]
      unfold firstOf
      rw [List.findSome?_cons]
      cases hs : result s with
      | error f =>
          rw [hs] at hoffer
          cases hoffer
      | ok o =>
          rw [hs] at hoffer
          cases o with
          | none =>
              cases hoffer
              rfl
          | some e =>
              cases hoffer
              rw [find?_insertNew, Option.or_assoc]
              by_cases hk : e.1 = k <;> simp [hk]

theorem firstOf_isSome {s : σ} (hs : s ∈ steps) {k : κ} {v : ν}
    (h : result s = .ok (some (k, v))) : ∃ v', firstOf result steps k = some v' := by
  rw [← Option.isSome_iff_exists]
  unfold firstOf
  rw [List.findSome?_isSome_iff]
  exact ⟨s, hs, by simp [h]⟩

/-! ## Loops in loops -/

/-- What is made before the steps is a step of its own that gives nothing. -/
theorem gather_head {α : Type u} (x : Except ε α)
    (g : α → σ → Except ε (Option (κ × ν))) (steps : List σ) (m : OrderedMap κ ν) :
    (x >>= fun a => gather (g a) steps m) =
      gather (fun o : Option σ => x >>= fun a => o.elim (.ok none) (g a))
        (none :: steps.map some) m := by
  cases x with
  | error f => rfl
  | ok a =>
      show gather (g a) steps m = gather _ (steps.map some) m
      unfold gather
      rw [List.foldlM_map]
      rfl

theorem gather_flatMap (inner : τ → List σ) (g : τ → σ → Except ε (Option (κ × ν)))
    (outer : List τ) (m : OrderedMap κ ν) :
    outer.foldlM (fun m t => gather (g t) (inner t) m) m =
      gather (fun p : τ × σ => g p.1 p.2)
        (outer.flatMap fun t => (inner t).map (t, ·)) m := by
  induction outer generalizing m with
  | nil => rfl
  | cons t outer ih =>
      rw [List.foldlM_cons, List.flatMap_cons, gather_append]
      have hinner : gather (fun p : τ × σ => g p.1 p.2) ((inner t).map (t, ·)) m =
          gather (g t) (inner t) m := List.foldlM_map
      rw [hinner]
      exact congrArg _ (funext ih)

/-! ## What faults cost -/

/-- The entry of a step is in the map the loop ends with. -/
def Given (result : σ → Except ε (Option (κ × ν))) (steps : List σ)
    (outcome : Except ε (OrderedMap κ ν)) (e : κ × ν) : Prop :=
  ∃ m v, outcome = .ok m ∧ m.find? e.1 = some v ∧ firstOf result steps e.1 = some v

/-- No fault of the kind `bad` happens, and no other costs an entry. -/
def Spared (bad : ε) (result : σ → Except ε (Option (κ × ν))) (steps : List σ)
    (outcome : Except ε (OrderedMap κ ν)) : Prop :=
  outcome ≠ .error bad ∧
    ∀ s ∈ steps, ∀ e, result s = .ok (some e) → Given result steps outcome e

theorem spared_iff {bad : ε} {outcome : Except ε (OrderedMap κ ν)}
    (houtcome : outcome = gather result steps .empty) :
    Spared bad result steps outcome ↔
      (∀ s ∈ steps, ∃ o, result s = .ok o) ∨
      ∃ before s after, steps = before ++ s :: after ∧
        (∀ u ∈ before, result u = .ok none) ∧
        (∃ f, f ≠ bad ∧ result s = .error f) ∧
        ∀ u ∈ after, ∀ e, result u ≠ .ok (some e) := by
  subst houtcome
  constructor
  · rintro ⟨hbad, hgiven⟩
    cases hrun : gather result steps .empty with
    | ok m => exact .inl ((gather_isOk _).mp ⟨m, hrun⟩)
    | error f =>
        -- the map is lost, so that no step may have given an entry
        have hno : ∀ s ∈ steps, ∀ e, result s ≠ .ok (some e) := by
          intro s hs e he
          obtain ⟨m, v, hm, -⟩ := hgiven s hs e he
          rw [hrun] at hm
          cases hm
        obtain ⟨before, s, after, rfl, hbefore, hs⟩ := (gather_eq_error _).mp hrun
        refine .inr ⟨before, s, after, rfl, fun u hu => ?_, ⟨f, ?_, hs⟩, fun u hu => ?_⟩
        · obtain ⟨o, ho⟩ := hbefore u hu
          cases o with
          | none => exact ho
          | some e => exact absurd ho (hno u (List.mem_append_left _ hu) e)
        · rintro rfl
          exact hbad hrun
        · exact hno u (List.mem_append_right _ (List.mem_cons_of_mem _ hu))
  · rintro (hok | ⟨before, s, after, rfl, hbefore, ⟨f, hf, hs⟩, hafter⟩)
    · obtain ⟨m, hrun⟩ := (gather_isOk .empty).mpr hok
      refine ⟨fun h => ?_, fun s hs e he => ?_⟩
      · rw [hrun] at h
        cases h
      · obtain ⟨v, hv⟩ := firstOf_isSome hs he
        refine ⟨m, v, hrun, ?_, hv⟩
        rw [find?_gather hrun, find?_empty, Option.none_or, hv]
    · have hrun : gather result (before ++ s :: after) .empty = .error f :=
        (gather_eq_error _).mpr
          ⟨before, s, after, rfl, fun u hu => ⟨none, hbefore u hu⟩, hs⟩
      refine ⟨fun h => hf ?_, fun u hu e he => ?_⟩
      · rw [hrun] at h
        exact Except.error.inj h
      · rw [List.mem_append, List.mem_cons] at hu
        rcases hu with hu | rfl | hu
        · cases (hbefore u hu).symm.trans he
        · cases hs.symm.trans he
        · exact absurd he (hafter u hu e)

end Gather

end Wms.Lib
