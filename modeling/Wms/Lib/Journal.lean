import Mathlib.Data.List.Basic
import Mathlib.Logic.Basic
import Wms.Lib.Instances

/-!
# Programs that write to a store one step at a time

What a program leaves behind when it is stopped depends on its single writes
and on their order, and on nothing else it has done. So a program is a function
here that gives its result, its private data and the list of its writes. The
store it sees next is the one after these writes.

A stop leaves the store after some first part of the list. `stops` lists these
stores, and follows the list as the program is put together.
-/

namespace Wms.Lib

/-- A store that is changed by single writes. -/
class Store (φ : Type) (ω : outParam Type) where
  apply : φ → ω → φ

namespace Store

variable {φ ω : Type} [Store φ ω]

/-- The writes one after another. -/
def applyAll (f : φ) (ws : List ω) : φ := ws.foldl apply f

/-- The stores that a stop can leave, the first before any write and the last
after all of them. -/
def stops : φ → List ω → List φ
  | f, [] => [f]
  | f, w :: ws => f :: stops (apply f w) ws

@[simp] theorem applyAll_nil (f : φ) : applyAll f [] = f := rfl

@[simp] theorem applyAll_cons (f : φ) (w : ω) (ws : List ω) :
    applyAll f (w :: ws) = applyAll (apply f w) ws := rfl

@[simp] theorem applyAll_append (f : φ) (us ws : List ω) :
    applyAll f (us ++ ws) = applyAll (applyAll f us) ws :=
  List.foldl_append

@[simp] theorem mem_stops_nil {f g : φ} : g ∈ stops f [] ↔ g = f :=
  List.mem_singleton

theorem mem_stops_cons {f g : φ} {w : ω} {ws : List ω} :
    g ∈ stops f (w :: ws) ↔ g = f ∨ g ∈ stops (apply f w) ws :=
  List.mem_cons

theorem mem_stops_append {f g : φ} {us ws : List ω} :
    g ∈ stops f (us ++ ws) ↔
      g ∈ stops f us ∨ g ∈ stops (applyAll f us) ws := by
  induction us generalizing f with
  | nil =>
      rw [List.nil_append, mem_stops_nil, applyAll_nil]
      refine ⟨.inr, ?_⟩
      rintro (rfl | h)
      · cases ws <;> exact List.mem_cons_self
      · exact h
  | cons u us ih =>
      rw [List.cons_append, mem_stops_cons, mem_stops_cons, ih, applyAll_cons,
        or_assoc]

theorem applyAll_mem_stops (f : φ) (ws : List ω) :
    applyAll f ws ∈ stops f ws := by
  induction ws generalizing f with
  | nil => exact List.mem_cons_self
  | cons w ws ih => exact List.mem_cons_of_mem _ (ih _)

theorem applyAll_take_mem_stops (f : φ) (ws : List ω) (n : ℕ) :
    applyAll f (ws.take n) ∈ stops f ws := by
  have h : applyAll f (ws.take n) ∈ stops f (ws.take n ++ ws.drop n) :=
    mem_stops_append.mpr (.inl (applyAll_mem_stops f _))
  rwa [List.take_append_drop] at h

/-- What no write of a list takes away is there at every stop. -/
theorem stops_invariant {I : φ → Prop} {f : φ} {ws : List ω}
    (hstep : ∀ g, ∀ w ∈ ws, I g → I (apply g w)) (hf : I f) :
    ∀ g ∈ stops f ws, I g := by
  induction ws generalizing f with
  | nil =>
      intro g hg
      exact mem_stops_nil.mp hg ▸ hf
  | cons w ws ih =>
      intro g hg
      rcases mem_stops_cons.mp hg with rfl | hg
      · exact hf
      · refine ih ?_ (hstep f w List.mem_cons_self hf) g hg
        exact fun g' v hv => hstep g' v (List.mem_cons_of_mem _ hv)

/-! ## Writing a list again -/

/-- Nothing is left of `w` after `u`. -/
def Overwrites (φ : Type) {ω : Type} [Store φ ω] (u w : ω) : Prop :=
  ∀ f : φ, apply (apply f w) u = apply f u

/-- The order of two writes does not matter. -/
def Commutes (φ : Type) {ω : Type} [Store φ ω] (u w : ω) : Prop :=
  ∀ f : φ, apply (apply f w) u = apply (apply f u) w

/-- The writes that can be repeated from the first one on. -/
structure Repeatable (φ : Type) {ω : Type} [Store φ ω] (ws : List ω) :
    Prop where
  self : ∀ w ∈ ws, Overwrites φ w w
  pair : ws.Pairwise fun u w => Overwrites φ u w ∨ Commutes φ u w

theorem repeat_one {ws : List ω} (hws : Repeatable φ ws) {w : ω} (hw : w ∈ ws)
    (f : φ) : applyAll (apply f w) ws = applyAll f ws := by
  induction ws generalizing f with
  | nil => cases hw
  | cons u ws ih =>
      obtain ⟨hself, hpair⟩ := hws
      rw [List.pairwise_cons] at hpair
      rw [applyAll_cons, applyAll_cons]
      rcases List.mem_cons.mp hw with rfl | hw
      · rw [hself w List.mem_cons_self]
      · have hrest : Repeatable φ ws :=
          ⟨fun v hv => hself v (List.mem_cons_of_mem _ hv), hpair.2⟩
        rcases hpair.1 w hw with hover | hcomm
        · rw [hover]
        · rw [hcomm, ih hrest hw]

/-- A first part of the writes does not matter where all follow. -/
theorem repeat_all {us ws : List ω} (hws : Repeatable φ ws)
    (hus : ∀ w ∈ us, w ∈ ws) (f : φ) :
    applyAll (applyAll f us) ws = applyAll f ws := by
  induction us generalizing f with
  | nil => rfl
  | cons u us ih =>
      rw [applyAll_cons, ih fun w hw => hus w (List.mem_cons_of_mem _ hw),
        repeat_one hws (hus u List.mem_cons_self)]

/-- A write that changes places with each of a list does so with all. -/
theorem applyAll_comm {ws : List ω} {w : ω}
    (hws : ∀ u ∈ ws, Commutes φ u w) (f : φ) :
    applyAll (apply f w) ws = apply (applyAll f ws) w := by
  induction ws generalizing f with
  | nil => rfl
  | cons u ws ih =>
      rw [applyAll_cons, applyAll_cons, hws u List.mem_cons_self,
        ih fun v hv => hws v (List.mem_cons_of_mem _ hv)]

/-- The stops in a list are those after its first parts. -/
theorem stops_eq_take {f g : φ} {ws : List ω} (hg : g ∈ stops f ws) :
    ∃ us, us <+: ws ∧ g = applyAll f us := by
  induction ws generalizing f with
  | nil => exact ⟨[], List.nil_prefix, mem_stops_nil.mp hg⟩
  | cons w ws ih =>
      rcases mem_stops_cons.mp hg with rfl | hg
      · exact ⟨[], List.nil_prefix, rfl⟩
      · obtain ⟨us, hus, rfl⟩ := ih hg
        exact ⟨w :: us, List.cons_prefix_cons.mpr ⟨rfl, hus⟩, rfl⟩

end Store

/-- How a program ends, the private data it leaves and its writes. -/
structure Outcome (η ω ε α : Type) where
  result : Except ε α
  priv : η
  log : List ω

/-- The same with writes that came before. -/
def Outcome.after {η ω ε α : Type} (ws : List ω) (o : Outcome η ω ε α) :
    Outcome η ω ε α :=
  ⟨o.result, o.priv, ws ++ o.log⟩

/-- A program over the store `φ` with private data `η`. -/
structure Prog (φ η ω ε α : Type) where
  run : φ → η → Outcome η ω ε α

namespace Prog

variable {φ η ω ε α β : Type}

/-- A program that does nothing. -/
def ret (a : α) : Prog φ η ω ε α := ⟨fun _ h => ⟨.ok a, h, []⟩⟩

/-- A program that fails. -/
def throw (e : ε) : Prog φ η ω ε α := ⟨fun _ h => ⟨.error e, h, []⟩⟩

/-- The file as it is. -/
def store : Prog φ η ω ε φ := ⟨fun f h => ⟨.ok f, h, []⟩⟩

/-- The memory as it is. -/
def priv : Prog φ η ω ε η := ⟨fun _ h => ⟨.ok h, h, []⟩⟩

/-- A change of memory. -/
def modify (g : η → η) : Prog φ η ω ε Unit :=
  ⟨fun _ h => ⟨.ok (), g h, []⟩⟩

/-- One write. -/
def write (w : ω) : Prog φ η ω ε Unit := ⟨fun _ h => ⟨.ok (), h, [w]⟩⟩

/-- What is there, or the exception where nothing is. -/
def require (e : ε) (o : Option α) : Prog φ η ω ε α :=
  match o with
  | some a => ret a
  | none => throw e

section
variable [Store φ ω]

/-- The rest of a program, where the first part has ended. -/
def resume (f : φ) (o : Outcome η ω ε α) (k : α → Prog φ η ω ε β) :
    Outcome η ω ε β :=
  match o with
  | ⟨.ok a, h, ws⟩ => ((k a).run (Store.applyAll f ws) h).after ws
  | ⟨.error e, h, ws⟩ => ⟨.error e, h, ws⟩

/-- One program and another with its result, unless the first fails. -/
def bind (m : Prog φ η ω ε α) (k : α → Prog φ η ω ε β) : Prog φ η ω ε β :=
  ⟨fun f h => resume f (m.run f h) k⟩

/-- The handler runs on what the failed part has left. -/
def handle (f : φ) (o : Outcome η ω ε α) (k : ε → Prog φ η ω ε α) :
    Outcome η ω ε α :=
  match o with
  | ⟨.ok a, h, ws⟩ => ⟨.ok a, h, ws⟩
  | ⟨.error e, h, ws⟩ => ((k e).run (Store.applyAll f ws) h).after ws

/-- Another program takes the place of one that fails. -/
def tryCatch (m : Prog φ η ω ε α) (k : ε → Prog φ η ω ε α) :
    Prog φ η ω ε α :=
  ⟨fun f h => handle f (m.run f h) k⟩

instance : Monad (Prog φ η ω ε) where
  pure := ret
  bind := bind

end

/-! ## Running a program -/

@[simp] theorem after_mk (ws us : List ω) (r : Except ε α) (h : η) :
    Outcome.after ws ⟨r, h, us⟩ = ⟨r, h, ws ++ us⟩ := rfl

@[simp] theorem after_nil (o : Outcome η ω ε α) : Outcome.after [] o = o := rfl

@[simp] theorem result_after (ws : List ω) (o : Outcome η ω ε α) :
    (o.after ws).result = o.result := rfl

@[simp] theorem priv_after (ws : List ω) (o : Outcome η ω ε α) :
    (o.after ws).priv = o.priv := rfl

@[simp] theorem log_after (ws : List ω) (o : Outcome η ω ε α) :
    (o.after ws).log = ws ++ o.log := rfl

theorem after_after (us ws : List ω) (o : Outcome η ω ε α) :
    (o.after ws).after us = o.after (us ++ ws) := by
  simp only [Outcome.after, List.append_assoc]

@[simp] theorem ret_run (a : α) (f : φ) (h : η) :
    (ret a : Prog φ η ω ε α).run f h = ⟨.ok a, h, []⟩ := rfl

@[simp] theorem throw_run (e : ε) (f : φ) (h : η) :
    (throw e : Prog φ η ω ε α).run f h = ⟨.error e, h, []⟩ := rfl

@[simp] theorem store_run (f : φ) (h : η) :
    (store : Prog φ η ω ε φ).run f h = ⟨.ok f, h, []⟩ := rfl

@[simp] theorem priv_run (f : φ) (h : η) :
    (priv : Prog φ η ω ε η).run f h = ⟨.ok h, h, []⟩ := rfl

@[simp] theorem modify_run (g : η → η) (f : φ) (h : η) :
    (modify g : Prog φ η ω ε Unit).run f h = ⟨.ok (), g h, []⟩ := rfl

@[simp] theorem write_run (w : ω) (f : φ) (h : η) :
    (write w : Prog φ η ω ε Unit).run f h = ⟨.ok (), h, [w]⟩ := rfl

@[simp] theorem require_some (e : ε) (a : α) :
    (require e (some a) : Prog φ η ω ε α) = ret a := rfl

@[simp] theorem require_none (e : ε) :
    (require e none : Prog φ η ω ε α) = throw e := rfl

/-- Every write is of a kind, also where the program ends with an exception. -/
def Makes (P : ω → Prop) (m : Prog φ η ω ε α) (f : φ) (h : η) : Prop :=
  ∀ w ∈ (m.run f h).log, P w

theorem makes_of_run {P : ω → Prop} {m : Prog φ η ω ε α} {f : φ} {h h' : η}
    {r : Except ε α} {ws : List ω} (hm : m.run f h = ⟨r, h', ws⟩)
    (hws : ∀ w ∈ ws, P w) : Makes P m f h := by
  rw [Makes, hm]
  exact hws

section
variable [Store φ ω]

@[simp] theorem resume_ok (f : φ) (a : α) (h : η) (ws : List ω)
    (k : α → Prog φ η ω ε β) :
    resume f ⟨.ok a, h, ws⟩ k = ((k a).run (Store.applyAll f ws) h).after ws := rfl

@[simp] theorem resume_error (f : φ) (e : ε) (h : η) (ws : List ω)
    (k : α → Prog φ η ω ε β) :
    resume f ⟨.error e, h, ws⟩ k = ⟨.error e, h, ws⟩ := rfl

@[simp] theorem handle_ok (f : φ) (a : α) (h : η) (ws : List ω)
    (k : ε → Prog φ η ω ε α) :
    handle f ⟨.ok a, h, ws⟩ k = ⟨.ok a, h, ws⟩ := rfl

@[simp] theorem handle_error (f : φ) (e : ε) (h : η) (ws : List ω)
    (k : ε → Prog φ η ω ε α) :
    handle f ⟨.error e, h, ws⟩ k = ((k e).run (Store.applyAll f ws) h).after ws := rfl

@[simp] theorem bind_run (m : Prog φ η ω ε α) (k : α → Prog φ η ω ε β) (f : φ)
    (h : η) : (m >>= k).run f h = resume f (m.run f h) k := rfl

@[simp] theorem pure_run (a : α) (f : φ) (h : η) :
    (pure a : Prog φ η ω ε α).run f h = ⟨.ok a, h, []⟩ := rfl

@[simp] theorem tryCatch_run (m : Prog φ η ω ε α) (k : ε → Prog φ η ω ε α)
    (f : φ) (h : η) : (m.tryCatch k).run f h = handle f (m.run f h) k := rfl

theorem bind_assoc {γ : Type} (m : Prog φ η ω ε α) (k : α → Prog φ η ω ε β)
    (l : β → Prog φ η ω ε γ) : m >>= k >>= l = m >>= fun a => k a >>= l := by
  suffices hrun : (m >>= k >>= l).run = (m >>= fun a => k a >>= l).run by
    exact congrArg Prog.mk hrun
  funext f h
  simp only [bind_run]
  rcases m.run f h with ⟨_ | a, h₁, us⟩
  · rfl
  · simp only [resume_ok, bind_run]
    rcases (k a).run (Store.applyAll f us) h₁ with ⟨_ | b, h₂, vs⟩
    · rfl
    · simp only [after_mk, resume_ok, Store.applyAll_append, after_after]

@[simp] theorem pure_bind (a : α) (k : α → Prog φ η ω ε β) :
    pure a >>= k = k a := by
  suffices hrun : (pure a >>= k : Prog φ η ω ε β).run = (k a).run by
    exact congrArg Prog.mk hrun
  funext f h
  simp only [bind_run, pure_run, resume_ok, Store.applyAll_nil, after_nil]

/-- A first part that ends well, by its own lemma. -/
theorem bind_of_ok {m : Prog φ η ω ε α} {f : φ} {h h' : η} {a : α}
    {ws : List ω} (hm : m.run f h = ⟨.ok a, h', ws⟩) (k : α → Prog φ η ω ε β) :
    (m >>= k).run f h = ((k a).run (Store.applyAll f ws) h').after ws := by
  rw [bind_run, hm, resume_ok]

theorem bind_of_error {m : Prog φ η ω ε α} {f : φ} {h h' : η} {e : ε}
    {ws : List ω} (hm : m.run f h = ⟨.error e, h', ws⟩) (k : α → Prog φ η ω ε β) :
    (m >>= k).run f h = ⟨.error e, h', ws⟩ := by
  rw [bind_run, hm, resume_error]

/-- The program ends without an exception, and then its result, the store and
the private data are as wished. -/
def wp (m : Prog φ η ω ε α) (Q : α → φ → η → Prop) (f : φ) (h : η) : Prop :=
  ∃ a h' ws, m.run f h = ⟨.ok a, h', ws⟩ ∧ Q a (Store.applyAll f ws) h'

theorem wp_of_run {m : Prog φ η ω ε α} {Q : α → φ → η → Prop} {f : φ}
    {h h' : η} {a : α} {ws : List ω} (hm : m.run f h = ⟨.ok a, h', ws⟩)
    (hQ : Q a (Store.applyAll f ws) h') : wp m Q f h :=
  ⟨a, h', ws, hm, hQ⟩

theorem wp_iff_of_run {m : Prog φ η ω ε α} {Q : α → φ → η → Prop} {f : φ}
    {h h' : η} {a : α} {ws : List ω} (hm : m.run f h = ⟨.ok a, h', ws⟩) :
    wp m Q f h ↔ Q a (Store.applyAll f ws) h' := by
  refine ⟨?_, wp_of_run hm⟩
  rintro ⟨b, h₁, us, hrun, hQ⟩
  rw [hm, Outcome.mk.injEq, Except.ok.injEq] at hrun
  obtain ⟨rfl, rfl, rfl⟩ := hrun
  exact hQ

theorem not_wp_of_error {m : Prog φ η ω ε α} {Q : α → φ → η → Prop} {f : φ}
    {h h' : η} {e : ε} {ws : List ω} (hm : m.run f h = ⟨.error e, h', ws⟩) :
    ¬ wp m Q f h := by
  rintro ⟨b, h₁, us, hrun, -⟩
  rw [hm, Outcome.mk.injEq] at hrun
  cases hrun.1

theorem wp_bind {m : Prog φ η ω ε α} {k : α → Prog φ η ω ε β}
    {Q : β → φ → η → Prop} {f : φ} {h : η} :
    wp (m >>= k) Q f h ↔ wp m (fun a f' h' => wp (k a) Q f' h') f h := by
  constructor
  · rintro ⟨b, h', ws, hrun, hQ⟩
    rw [bind_run] at hrun
    rcases hm : m.run f h with ⟨_ | a, h₁, us⟩
    · rw [hm, resume_error] at hrun
      cases hrun
    · rw [hm, resume_ok] at hrun
      rcases hk : (k a).run (Store.applyAll f us) h₁ with ⟨r, h₂, vs⟩
      rw [hk, after_mk, Outcome.mk.injEq] at hrun
      obtain ⟨rfl, rfl, rfl⟩ := hrun
      rw [Store.applyAll_append] at hQ
      exact ⟨a, h₁, us, hm, b, h₂, vs, hk, hQ⟩
  · rintro ⟨a, h₁, us, hm, b, h₂, vs, hk, hQ⟩
    refine ⟨b, h₂, us ++ vs, ?_, ?_⟩
    · rw [bind_of_ok hm, hk, after_mk]
    · rw [Store.applyAll_append]
      exact hQ

theorem wp_pure {a : α} {Q : α → φ → η → Prop} {f : φ} {h : η} :
    wp (pure a : Prog φ η ω ε α) Q f h ↔ Q a f h :=
  wp_iff_of_run (pure_run a f h)

theorem wp_mono {m : Prog φ η ω ε α} {P Q : α → φ → η → Prop} {f : φ} {h : η}
    (hPQ : ∀ a g h', P a g h' → Q a g h') (hP : wp m P f h) : wp m Q f h := by
  obtain ⟨a, h', ws, hrun, hp⟩ := hP
  exact ⟨a, h', ws, hrun, hPQ _ _ _ hp⟩

/-- A first part by what it is known to do. -/
theorem wp_seq {m : Prog φ η ω ε α} {k : α → Prog φ η ω ε β}
    {P : α → φ → η → Prop} {Q : β → φ → η → Prop} {f : φ} {h : η}
    (hm : wp m P f h) (hk : ∀ a g h', P a g h' → wp (k a) Q g h') :
    wp (m >>= k) Q f h :=
  wp_bind.mpr (wp_mono hk hm)

/-- Where the whole ends well, so does the rest after such a first part. -/
theorem wp_rest {m : Prog φ η ω ε α} {k : α → Prog φ η ω ε β}
    {P : α → φ → η → Prop} {Q : β → φ → η → Prop} {f : φ} {h : η}
    (hm : wp m P f h) (hwp : wp (m >>= k) Q f h) :
    ∃ a g h', P a g h' ∧ wp (k a) Q g h' := by
  obtain ⟨a, h', ws, hrun, hp⟩ := hm
  rw [wp_bind, wp_iff_of_run hrun] at hwp
  exact ⟨a, _, h', hp, hwp⟩

/-- The whole ends well exactly where the rest does. -/
theorem wp_bind_iff {m : Prog φ η ω ε α} {k : α → Prog φ η ω ε β}
    {P : α → φ → η → Prop} {Q : β → φ → η → Prop} {f : φ} {h : η} {b : Prop}
    (hm : wp m P f h) (hk : ∀ a g h', P a g h' → (wp (k a) Q g h' ↔ b)) :
    wp (m >>= k) Q f h ↔ b := by
  obtain ⟨a, h', ws, hrun, hp⟩ := hm
  rw [wp_bind, wp_iff_of_run hrun]
  exact hk _ _ _ hp

theorem wp_post {m : Prog φ η ω ε α} {Q : α → φ → η → Prop} {f : φ} {h : η}
    (hm : wp m Q f h) : ∃ a g h', Q a g h' := by
  obtain ⟨a, h', ws, -, hQ⟩ := hm
  exact ⟨a, _, h', hQ⟩

theorem not_wp_first {m : Prog φ η ω ε α} {k : α → Prog φ η ω ε β}
    {Q : β → φ → η → Prop} {f : φ} {h : η}
    (hm : ∀ P : α → φ → η → Prop, ¬ wp m P f h) : ¬ wp (m >>= k) Q f h :=
  fun hwp => hm _ (wp_bind.mp hwp)

/-- Where the rest never ends well, the whole does not. -/
theorem not_wp_bind {m : Prog φ η ω ε α} {k : α → Prog φ η ω ε β}
    {Q : β → φ → η → Prop} {f : φ} {h : η}
    (hk : ∀ a g h', ¬ wp (k a) Q g h') : ¬ wp (m >>= k) Q f h := by
  intro hwp
  obtain ⟨a, g, h', hrest⟩ := wp_post (wp_bind.mp hwp)
  exact hk a g h' hrest

theorem makes_bind {P : ω → Prop} {m : Prog φ η ω ε α} {k : α → Prog φ η ω ε β}
    {f : φ} {h : η} (hm : Makes P m f h)
    (hk : ∀ a h' ws, m.run f h = ⟨.ok a, h', ws⟩ →
      Makes P (k a) (Store.applyAll f ws) h') : Makes P (m >>= k) f h := by
  rw [Makes, bind_run]
  rcases hrun : m.run f h with ⟨_ | a, h', ws⟩
  · rw [Makes, hrun] at hm
    exact hm
  · rw [Makes, hrun] at hm
    rw [resume_ok, log_after]
    exact fun w hw => (List.mem_append.mp hw).elim (hm w) (hk a h' ws hrun w)

/-- The store a program leaves. -/
def final (m : Prog φ η ω ε α) (f : φ) (h : η) : φ :=
  Store.applyAll f (m.run f h).log

end

end Prog

end Wms.Lib
