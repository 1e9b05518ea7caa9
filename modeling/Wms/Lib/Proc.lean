import Mathlib.Data.Nat.Notation
import Mathlib.Logic.Basic
import Wms.Lib.Instances

/-!
# Programs that ask the outside

A program is kept as the tree of the calls it makes: every node is one call
with a continuation for every answer, and a leaf is a return or an exception.
The same tree is read in two ways. `exec` runs it to its end against a world
that answers, so a complete run can be evaluated; `replay` is the case where the
answers do not depend on the run. A concurrent component
keeps the rest of each tree in its state and answers one call at a time, so
that anything may happen in between.

The world has the last word on an answer but not the first one: every call
comes with an offered answer, a failure for instance, which the world may
take up or replace by what is true in its state. The offered answers are the
only source of nondeterminism.

`CallsOnly` says that all calls of a program are of some kind, which settles
most of what a program does not do. `wp` is the usual weakest precondition over the tree, for a world whose
answers may be restricted by an assumption and in which a call may be subject
to a guard. It distributes over `bind` and `tryCatch` as an equivalence, and
it is sound for both readings.
-/

namespace Wms.Lib

/-- A program with calls `C`, answers `R`, exceptions `ε` and result `α`. -/
inductive Proc (C : Type) (R : C → Type) (ε α : Type) where
  | ret (a : α)
  | throw (e : ε)
  | call (c : C) (k : R c → Proc C R ε α)

namespace Proc

variable {C : Type} {R : C → Type} {ε α β : Type}

/-- One program and another with its result. -/
def bind : Proc C R ε α → (α → Proc C R ε β) → Proc C R ε β
  | ret a, f => f a
  | throw e, _ => throw e
  | call c k, f => call c fun r => (k r).bind f

/-- The handler runs where the exception left the program. -/
def tryCatch : Proc C R ε α → (ε → Proc C R ε α) → Proc C R ε α
  | ret a, _ => ret a
  | throw e, h => h e
  | call c k, h => call c fun r => (k r).tryCatch h

instance : Monad (Proc C R ε) where
  pure := ret
  bind := bind

/-- A single call. -/
def perform (c : C) : Proc C R ε (R c) := call c ret

/-- The exception of a failed answer, the value of a good one. -/
def ofExcept : Except ε α → Proc C R ε α
  | .ok a => ret a
  | .error e => throw e

@[simp] theorem pure_eq (a : α) : (pure a : Proc C R ε α) = ret a := rfl

@[simp] theorem bind_eq (p : Proc C R ε α) (f : α → Proc C R ε β) :
    p >>= f = p.bind f := rfl

@[simp] theorem ret_bind (a : α) (f : α → Proc C R ε β) :
    (ret a).bind f = f a := rfl

@[simp] theorem throw_bind (e : ε) (f : α → Proc C R ε β) :
    (throw e : Proc C R ε α).bind f = throw e := rfl

@[simp] theorem call_bind (c : C) (k : R c → Proc C R ε α)
    (f : α → Proc C R ε β) :
    (call c k).bind f = call c fun r => (k r).bind f := rfl

@[simp] theorem perform_bind (c : C) (f : R c → Proc C R ε β) :
    (perform c).bind f = call c f := rfl

@[simp] theorem ret_tryCatch (a : α) (h : ε → Proc C R ε α) :
    (ret a).tryCatch h = ret a := rfl

@[simp] theorem throw_tryCatch (e : ε) (h : ε → Proc C R ε α) :
    (throw e).tryCatch h = h e := rfl

@[simp] theorem call_tryCatch (c : C) (k : R c → Proc C R ε α)
    (h : ε → Proc C R ε α) :
    (call c k).tryCatch h = call c fun r => (k r).tryCatch h := rfl

theorem bind_bind {γ : Type} (p : Proc C R ε α) (f : α → Proc C R ε β)
    (g : β → Proc C R ε γ) :
    (p.bind f).bind g = p.bind fun a => (f a).bind g := by
  induction p with
  | ret a => rfl
  | throw e => rfl
  | call c k ih => exact congrArg (call c) (funext ih)

/-! ## Complete runs -/

/-- What answers: from the state, the call and the answer offered to it, the
answer given and the state it leaves. -/
abbrev World (σ : Type) (C : Type) (R : C → Type) :=
  σ → (c : C) → R c → R c × σ

/-- The answers offered in a run: to its first call, its second, and so on. -/
abbrev Oracle (C : Type) (R : C → Type) := ℕ → (c : C) → R c

/-- A finished run: how it ended, the calls it has made, the state it left. -/
structure Done (σ ε α : Type) where
  result : Except ε α
  calls : ℕ
  state : σ

variable {σ : Type} (w : World σ C R) (o : Oracle C R)

/-- A run against a world, with a bound on its calls. -/
def exec : ℕ → σ → Proc C R ε α → Done σ ε α
  | n, s, ret a => ⟨.ok a, n, s⟩
  | n, s, throw e => ⟨.error e, n, s⟩
  | n, s, call c k =>
      let a := w s c (o n c)
      exec (n + 1) a.2 (k a.1)

@[simp] theorem exec_ret (n : ℕ) (s : σ) (a : α) :
    exec w o n s (ret a : Proc C R ε α) = ⟨.ok a, n, s⟩ := rfl

@[simp] theorem exec_throw (n : ℕ) (s : σ) (e : ε) :
    exec w o n s (throw e : Proc C R ε α) = ⟨.error e, n, s⟩ := rfl

theorem exec_bind (n : ℕ) (s : σ) (p : Proc C R ε α)
    (f : α → Proc C R ε β) :
    exec w o n s (p.bind f) =
      match exec w o n s p with
      | ⟨.ok a, n', s'⟩ => exec w o n' s' (f a)
      | ⟨.error e, n', s'⟩ => ⟨.error e, n', s'⟩ := by
  induction p generalizing n s with
  | ret a => rfl
  | throw e => rfl
  | call c k ih => exact ih _ _ _

/-! ## Runs under fixed answers

Where every call of a kind is answered alike, a run is a list of calls and a
result, and needs no state. -/

variable (ans : (c : C) → R c)

/-- The calls a program makes under fixed answers, and how it ends. -/
def replay : Proc C R ε α → List C × Except ε α
  | ret a => ([], .ok a)
  | throw e => ([], .error e)
  | call c k =>
      let rest := replay (k (ans c))
      (c :: rest.1, rest.2)

@[simp] theorem replay_ret (a : α) :
    replay ans (ret a : Proc C R ε α) = ([], .ok a) := rfl

@[simp] theorem replay_throw (e : ε) :
    replay ans (throw e : Proc C R ε α) = ([], .error e) := rfl

@[simp] theorem replay_call (c : C) (k : R c → Proc C R ε α) :
    replay ans (call c k) =
      (c :: (replay ans (k (ans c))).1, (replay ans (k (ans c))).2) := rfl

theorem replay_bind (p : Proc C R ε α) (f : α → Proc C R ε β) :
    replay ans (p.bind f) =
      match replay ans p with
      | (cs, .ok a) => (cs ++ (replay ans (f a)).1, (replay ans (f a)).2)
      | (cs, .error e) => (cs, .error e) := by
  induction p with
  | ret a => rfl
  | throw e => rfl
  | call c k ih =>
      simp only [call_bind, replay_call, ih]
      split <;> simp_all

theorem replay_tryCatch (p : Proc C R ε α) (h : ε → Proc C R ε α) :
    replay ans (p.tryCatch h) =
      match replay ans p with
      | (cs, .ok a) => (cs, .ok a)
      | (cs, .error e) =>
          (cs ++ (replay ans (h e)).1, (replay ans (h e)).2) := by
  induction p with
  | ret a => rfl
  | throw e => rfl
  | call c k ih =>
      simp only [call_tryCatch, replay_call, ih]
      split <;> simp_all

variable {ans} in
theorem mem_replay_bind {p : Proc C R ε α} {f : α → Proc C R ε β} {a : α} {c : C}
    (h : (replay ans p).2 = .ok a) (hc : c ∈ (replay ans (f a)).1) :
    c ∈ (replay ans (p.bind f)).1 := by
  rw [replay_bind]
  rcases hp : replay ans p with ⟨cs, r⟩
  rw [hp] at h
  obtain rfl : r = .ok a := h
  exact List.mem_append_right cs hc

variable {ans} in
theorem mem_replay_tryCatch {p : Proc C R ε α} {h : ε → Proc C R ε α} {c : C}
    (hc : c ∈ (replay ans p).1) : c ∈ (replay ans (p.tryCatch h)).1 := by
  rw [replay_tryCatch]
  rcases hp : replay ans p with ⟨cs, e | a⟩
  · rw [hp] at hc
    exact List.mem_append_left _ hc
  · rw [hp] at hc
    exact hc

/-! ## The calls of a program -/

/-- All calls of a program, on every path, are of a kind. -/
def CallsOnly (P : C → Prop) : Proc C R ε α → Prop
  | ret _ => True
  | throw _ => True
  | call c k => P c ∧ ∀ r, CallsOnly P (k r)

variable {P : C → Prop}

@[simp] theorem callsOnly_ret (a : α) :
    CallsOnly P (ret a : Proc C R ε α) := trivial

@[simp] theorem callsOnly_throw (e : ε) :
    CallsOnly P (throw e : Proc C R ε α) := trivial

@[simp] theorem callsOnly_call (c : C) (k : R c → Proc C R ε α) :
    CallsOnly P (call c k) ↔ P c ∧ ∀ r, CallsOnly P (k r) := Iff.rfl

theorem callsOnly_mono {P' : C → Prop} (h : ∀ c, P c → P' c)
    {p : Proc C R ε α} (hp : CallsOnly P p) : CallsOnly P' p := by
  induction p with
  | ret a => trivial
  | throw e => trivial
  | call c k ih => exact ⟨h c hp.1, fun r => ih r (hp.2 r)⟩

theorem callsOnly_perform {c : C} (h : P c) :
    CallsOnly P (perform c : Proc C R ε (R c)) := ⟨h, fun _ => trivial⟩

theorem callsOnly_ofExcept (r : Except ε α) :
    CallsOnly P (ofExcept r : Proc C R ε α) := by
  cases r <;> trivial

theorem callsOnly_bind {p : Proc C R ε α} {f : α → Proc C R ε β}
    (hp : CallsOnly P p) (hf : ∀ a, CallsOnly P (f a)) :
    CallsOnly P (p.bind f) := by
  induction p with
  | ret a => exact hf a
  | throw e => trivial
  | call c k ih => exact ⟨hp.1, fun r => ih r (hp.2 r)⟩

theorem callsOnly_tryCatch {p : Proc C R ε α} {h : ε → Proc C R ε α}
    (hp : CallsOnly P p) (hh : ∀ e, CallsOnly P (h e)) :
    CallsOnly P (p.tryCatch h) := by
  induction p with
  | ret a => trivial
  | throw e => exact hh e
  | call c k ih => exact ⟨hp.1, fun r => ih r (hp.2 r)⟩

theorem replay_callsOnly {p : Proc C R ε α} (hp : CallsOnly P p) :
    ∀ c ∈ (replay ans p).1, P c := by
  induction p with
  | ret a => simp
  | throw e => simp
  | call c k ih =>
      simp only [replay_call, List.mem_cons]
      rintro c' (rfl | hc)
      · exact hp.1
      · exact ih _ (hp.2 _) c' hc

/-- All calls of a program are of a kind, and so is what it returns. -/
def Within (P : C → Prop) (Q : α → Prop) : Proc C R ε α → Prop
  | ret a => Q a
  | throw _ => True
  | call c k => P c ∧ ∀ r, Within P Q (k r)

@[simp] theorem within_ret {Q : α → Prop} (a : α) :
    Within P Q (ret a : Proc C R ε α) ↔ Q a := Iff.rfl

@[simp] theorem within_throw {Q : α → Prop} (e : ε) :
    Within P Q (throw e : Proc C R ε α) := trivial

theorem within_perform {c : C} (h : P c) {Q : R c → Prop}
    (hQ : ∀ r, Q r) : Within P Q (perform c : Proc C R ε (R c)) := ⟨h, hQ⟩

theorem within_ofExcept {Q : α → Prop} {r : Except ε α}
    (h : ∀ a, r = .ok a → Q a) :
    Within P Q (ofExcept r : Proc C R ε α) := by
  cases r with
  | ok a => exact h a rfl
  | error e => trivial

theorem within_bind {Q : α → Prop} {Q' : β → Prop} {p : Proc C R ε α}
    {f : α → Proc C R ε β} (hp : Within P Q p)
    (hf : ∀ a, Q a → Within P Q' (f a)) : Within P Q' (p.bind f) := by
  induction p with
  | ret a => exact hf a hp
  | throw e => trivial
  | call c k ih => exact ⟨hp.1, fun r => ih r (hp.2 r)⟩

theorem within_tryCatch {Q : α → Prop} {p : Proc C R ε α}
    {h : ε → Proc C R ε α} (hp : Within P Q p) (hh : ∀ e, Within P Q (h e)) :
    Within P Q (p.tryCatch h) := by
  induction p with
  | ret a => exact hp
  | throw e => exact hh e
  | call c k ih => exact ⟨hp.1, fun r => ih r (hp.2 r)⟩

theorem within_mono {P' : C → Prop} {Q Q' : α → Prop}
    (hP : ∀ c, P c → P' c) (hQ : ∀ a, Q a → Q' a) {p : Proc C R ε α}
    (h : Within P Q p) : Within P' Q' p := by
  induction p with
  | ret a => exact hQ a h
  | throw e => trivial
  | call c k ih => exact ⟨hP c h.1, fun r => ih r (h.2 r)⟩

theorem callsOnly_of_within {Q : α → Prop} {p : Proc C R ε α}
    (h : Within P Q p) : CallsOnly P p := by
  induction p with
  | ret a => trivial
  | throw e => trivial
  | call c k ih => exact ⟨h.1, fun r => ih r (h.2 r)⟩

theorem within_of_callsOnly {p : Proc C R ε α} (h : CallsOnly P p) :
    Within P (fun _ => True) p := by
  induction p with
  | ret a => trivial
  | throw e => trivial
  | call c k ih => exact ⟨h.1, fun r => ih r (h.2 r)⟩

theorem within_any (p : Proc C R ε α) :
    Within (fun _ => True) (fun _ => True) p := by
  induction p with
  | ret a => trivial
  | throw e => trivial
  | call c k ih => exact ⟨trivial, ih⟩

/-- Only the results a program may have matter to what follows it. -/
theorem bind_congr {Q : α → Prop} {p : Proc C R ε α} {f g : α → Proc C R ε β}
    (hp : Within P Q p) (h : ∀ a, Q a → f a = g a) : p.bind f = p.bind g := by
  induction p with
  | ret a => exact h a hp
  | throw e => rfl
  | call c k ih => exact congrArg (call c) (funext fun r => ih r (hp.2 r))

/-- All exceptions a program ends in are of a kind. -/
def Throws (T : ε → Prop) : Proc C R ε α → Prop
  | ret _ => True
  | throw e => T e
  | call _ k => ∀ r, Throws T (k r)

theorem throws_perform {T : ε → Prop} (c : C) :
    Throws T (perform c : Proc C R ε (R c)) := fun _ => trivial

theorem throws_bind {T : ε → Prop} {p : Proc C R ε α}
    {f : α → Proc C R ε β} (hp : Throws T p) (hf : ∀ a, Throws T (f a)) :
    Throws T (p.bind f) := by
  induction p with
  | ret a => exact hf a
  | throw e => exact hp
  | call c k ih => exact fun r => ih r (hp r)

theorem throws_any (p : Proc C R ε α) : Throws (fun _ => True) p := by
  induction p with
  | ret a => trivial
  | throw e => trivial
  | call c k ih => exact ih

/-! ## What is left after an answer -/

/-- What may be left of a program once it has made a call for the first time,
with the answer. -/
inductive After (c : C) (r : R c) : Proc C R ε α → Proc C R ε α → Prop where
  | here (k : R c → Proc C R ε α) : After c r (call c k) (k r)
  | later {c' : C} {k : R c' → Proc C R ε α} {q : Proc C R ε α} (hne : c' ≠ c)
      (r' : R c') (h : After c r (k r') q) : After c r (call c' k) q

variable {c : C} {r : R c}

theorem not_after_of_callsOnly {p q : Proc C R ε α}
    (hp : CallsOnly (· ≠ c) p) : ¬ After c r p q := by
  intro h
  induction h with
  | here k => exact hp.1 rfl
  | later _ r' _ ih => exact ih (hp.2 r')

/-- A first part without such a call has been gone through. -/
theorem after_bind {p : Proc C R ε α} {f : α → Proc C R ε β}
    {q : Proc C R ε β} (hp : CallsOnly (· ≠ c) p)
    (h : After c r (p.bind f) q) : ∃ a, After c r (f a) q := by
  induction p with
  | ret a => exact ⟨a, h⟩
  | throw e => cases h
  | call c' k ih =>
      cases h with
      | here => exact absurd rfl hp.1
      | later _ r' h => exact ih r' (hp.2 r') h

/-- What is left runs under the same handler, unless that has run already. -/
theorem after_tryCatch {p : Proc C R ε α} {g : ε → Proc C R ε α}
    {q : Proc C R ε α} (h : After c r (p.tryCatch g) q) :
    (∃ q', After c r p q' ∧ q = q'.tryCatch g) ∨ ∃ e, After c r (g e) q := by
  induction p with
  | ret a => cases h
  | throw e => exact .inr ⟨e, h⟩
  | call c' k ih =>
      cases h with
      | here => exact .inl ⟨k r, .here k, rfl⟩
      | later hne r' h =>
          refine (ih r' h).imp_left ?_
          rintro ⟨q', h', rfl⟩
          exact ⟨q', .later hne r' h', rfl⟩

/-! ## Weakest preconditions -/

/-- What a program may rely on at a call, and what it owes there. -/
structure Contract (σ C : Type) (R : C → Type) where
  world : World σ C R
  assume : σ → (c : C) → R c → Prop
  guard : σ → (c : C) → R c → Prop

variable (K : Contract σ C R)

/-- Whatever is offered within the assumption, the guard is met at every
call, and the leaf that is reached meets its postcondition. -/
def wp (Q : σ → α → Prop) (E : σ → ε → Prop) : σ → Proc C R ε α → Prop
  | s, ret a => Q s a
  | s, throw e => E s e
  | s, call c k =>
      ∀ r, K.assume s c r →
        K.guard s c r ∧ wp Q E (K.world s c r).2 (k (K.world s c r).1)

variable {K} {Q : σ → α → Prop} {E : σ → ε → Prop}

@[simp] theorem wp_ret (s : σ) (a : α) :
    wp K Q E s (ret a : Proc C R ε α) ↔ Q s a := Iff.rfl

@[simp] theorem wp_throw (s : σ) (e : ε) :
    wp K Q E s (throw e : Proc C R ε α) ↔ E s e := Iff.rfl

theorem wp_call (s : σ) (c : C) (k : R c → Proc C R ε α) :
    wp K Q E s (call c k) ↔
      ∀ r, K.assume s c r →
        K.guard s c r ∧ wp K Q E (K.world s c r).2 (k (K.world s c r).1) :=
  Iff.rfl

theorem wp_bind {Q : σ → β → Prop} (s : σ) (p : Proc C R ε α)
    (f : α → Proc C R ε β) :
    wp K Q E s (p.bind f) ↔ wp K (fun s a => wp K Q E s (f a)) E s p := by
  induction p generalizing s with
  | ret a => exact Iff.rfl
  | throw e => exact Iff.rfl
  | call c k ih =>
      simp only [call_bind, wp_call]
      exact forall₂_congr fun r _ => and_congr_right fun _ => ih _ _

theorem wp_tryCatch (s : σ) (p : Proc C R ε α) (h : ε → Proc C R ε α) :
    wp K Q E s (p.tryCatch h) ↔
      wp K Q (fun s e => wp K Q E s (h e)) s p := by
  induction p generalizing s with
  | ret a => exact Iff.rfl
  | throw e => exact Iff.rfl
  | call c k ih =>
      simp only [call_tryCatch, wp_call]
      exact forall₂_congr fun r _ => and_congr_right fun _ => ih _ _

theorem wp_ofExcept (s : σ) (r : Except ε α) :
    wp K Q E s (ofExcept r : Proc C R ε α) ↔
      match r with
      | .ok a => Q s a
      | .error e => E s e := by
  cases r <;> exact Iff.rfl

theorem wp_mono {Q' : σ → α → Prop} {E' : σ → ε → Prop} {s : σ}
    {p : Proc C R ε α} (hQ : ∀ s a, Q s a → Q' s a)
    (hE : ∀ s e, E s e → E' s e) (h : wp K Q E s p) : wp K Q' E' s p := by
  induction p generalizing s with
  | ret a => exact hQ s a h
  | throw e => exact hE s e h
  | call c k ih => exact fun r hr => ⟨(h r hr).1, ih _ (h r hr).2⟩

/-- A program whose calls all keep an invariant, and owe nothing else, keeps
it to its end. -/
theorem wp_of_callsOnly {I : σ → Prop} {P : C → Prop}
    (hI : ∀ s c r, P c → I s → K.assume s c r →
      K.guard s c r ∧ I (K.world s c r).2) {s : σ} {p : Proc C R ε α}
    (hp : CallsOnly P p) (hs : I s) :
    wp K (fun s _ => I s) (fun s _ => I s) s p := by
  induction p generalizing s with
  | ret a => exact hs
  | throw e => exact hs
  | call c k ih =>
      intro r hr
      obtain ⟨hg, hs'⟩ := hI s c r hp.1 hs hr
      exact ⟨hg, ih _ (hp.2 _) hs'⟩

/-- The same with what the program returns and how it fails. -/
theorem wp_of_within {I : σ → Prop} {P : C → Prop} {Q : α → Prop}
    {T : ε → Prop}
    (hI : ∀ s c r, P c → I s → K.assume s c r →
      K.guard s c r ∧ I (K.world s c r).2) {s : σ} {p : Proc C R ε α}
    (hp : Within P Q p) (ht : Throws T p) (hs : I s) :
    wp K (fun s a => I s ∧ Q a) (fun s e => I s ∧ T e) s p := by
  induction p generalizing s with
  | ret a => exact ⟨hs, hp⟩
  | throw e => exact ⟨hs, ht⟩
  | call c k ih =>
      intro r hr
      obtain ⟨hg, hs'⟩ := hI s c r hp.1 hs hr
      exact ⟨hg, ih _ (hp.2 _) (ht _) hs'⟩

/-! ## What holds all along a program -/

variable (K)

/-- A property of every state a program passes through, together with what is
left of the program there. -/
def Along (P : σ → Proc C R ε α → Prop) : σ → Proc C R ε α → Prop
  | s, ret a => P s (ret a)
  | s, throw e => P s (throw e)
  | s, call c k =>
      P s (call c k) ∧
        ∀ r, K.assume s c r → Along P (K.world s c r).2 (k (K.world s c r).1)

variable {K} {P : σ → Proc C R ε α → Prop}

theorem along_self {s : σ} {p : Proc C R ε α} (h : Along K P s p) : P s p := by
  cases p with
  | ret a => exact h
  | throw e => exact h
  | call c k => exact h.1

theorem along_of_callsOnly {I : σ → Prop} {kind : C → Prop}
    (hI : ∀ s c r, kind c → I s → K.assume s c r → I (K.world s c r).2)
    (hP : ∀ s p, CallsOnly kind p → I s → P s p) {s : σ}
    {p : Proc C R ε α} (hp : CallsOnly kind p) (hs : I s) :
    Along K P s p := by
  induction p generalizing s with
  | ret a => exact hP s _ hp hs
  | throw e => exact hP s _ hp hs
  | call c k ih =>
      exact ⟨hP s _ hp hs, fun r hr => ih _ (hp.2 _) (hI s c r hp.1 hs hr)⟩

/-- What is around a part of a program: it waits for the part to end. -/
def IsContext (F : Proc C R ε α → Proc C R ε β) : Prop :=
  ∀ c k, F (call c k) = call c fun r => F (k r)

/-- A precondition goes through a context like through `bind`. -/
theorem wp_context {Q : σ → β → Prop} {F : Proc C R ε α → Proc C R ε β}
    (hF : IsContext F) (s : σ) (p : Proc C R ε α) :
    wp K Q E s (F p) ↔
      wp K (fun s a => wp K Q E s (F (ret a)))
        (fun s e => wp K Q E s (F (throw e))) s p := by
  induction p generalizing s with
  | ret a => exact Iff.rfl
  | throw e => exact Iff.rfl
  | call c k ih =>
      rw [hF]
      simp only [wp_call]
      exact forall₂_congr fun r _ => and_congr_right fun _ => ih _ _

/-- The same for a part that keeps an invariant under which the property holds
of every program. -/
theorem along_of_within {P : σ → Proc C R ε β → Prop}
    {F : Proc C R ε α → Proc C R ε β} (hF : IsContext F) {I : σ → Prop}
    {kind : C → Prop} {Q : α → Prop} {T : ε → Prop}
    (hI : ∀ s c r, kind c → I s → K.assume s c r → I (K.world s c r).2)
    (hP : ∀ s q, I s → P s q) {s : σ} {p : Proc C R ε α}
    (hp : Within kind Q p) (ht : Throws T p) (hs : I s)
    (hret : ∀ s a, I s → Q a → Along K P s (F (ret a)))
    (hthrow : ∀ s e, I s → T e → Along K P s (F (throw e))) :
    Along K P s (F p) := by
  induction p generalizing s with
  | ret a => exact hret s a hs hp
  | throw e => exact hthrow s e hs ht
  | call c k ih =>
      rw [hF]
      exact ⟨hP s _ hs, fun r hr =>
        ih _ (hp.2 _) (ht _) (hI s c r hp.1 hs hr)⟩

/-! ## Complete runs that keep to an assumption -/

/-- The answers offered in a complete run keep to the assumption, each in the
state the run has reached. -/
def Keeps (K : Contract σ C R) (o : Oracle C R) :
    ℕ → σ → Proc C R ε α → Prop
  | _, _, ret _ => True
  | _, _, throw _ => True
  | n, s, call c k =>
      K.assume s c (o n c) ∧
        Keeps K o (n + 1) (K.world s c (o n c)).2 (k (K.world s c (o n c)).1)

instance decidableKeeps (K : Contract σ C R) [∀ s c r, Decidable (K.assume s c r)]
    (o : Oracle C R) : ∀ (n : ℕ) (s : σ) (p : Proc C R ε α), Decidable (Keeps K o n s p)
  | _, _, ret _ => isTrue trivial
  | _, _, throw _ => isTrue trivial
  | n, s, call c k =>
      haveI := decidableKeeps K o (n + 1) (K.world s c (o n c)).2
        (k (K.world s c (o n c)).1)
      inferInstanceAs (Decidable (K.assume s c (o n c) ∧ _))

theorem keeps_of_forall (ho : ∀ n s c, K.assume s c (o n c)) (n : ℕ) (s : σ)
    (p : Proc C R ε α) : Keeps K o n s p := by
  induction p generalizing n s with
  | ret a => trivial
  | throw e => trivial
  | call c k ih => exact ⟨ho n s c, ih _ _ _⟩

/-- What `wp` promises of a complete run. -/
theorem wp_exec {n : ℕ} {s : σ} {p : Proc C R ε α} (ho : Keeps K o n s p)
    (h : wp K Q E s p) :
    match (exec K.world o n s p).result with
    | .ok a => Q (exec K.world o n s p).state a
    | .error e => E (exec K.world o n s p).state e := by
  induction p generalizing n s with
  | ret a => exact h
  | throw e => exact h
  | call c k ih => exact ih _ ho.2 (h (o n c) ho.1).2

/-- A postcondition of the state alone. -/
theorem wp_exec_state {I : σ → Prop} {n : ℕ} {s : σ} {p : Proc C R ε α}
    (ho : Keeps K o n s p) (h : wp K (fun s _ => I s) (fun s _ => I s) s p) :
    I (exec K.world o n s p).state := by
  have hpost := wp_exec o ho h
  split at hpost <;> exact hpost

/-- The contract of a world that is relied on in nothing and owed nothing. -/
def Contract.free (w : World σ C R) : Contract σ C R where
  world := w
  assume := fun _ _ _ => True
  guard := fun _ _ _ => True

theorem keeps_free (n : ℕ) (s : σ) (p : Proc C R ε α) :
    Keeps (Contract.free w) o n s p :=
  keeps_of_forall o (fun _ _ _ => trivial) n s p

end Proc

end Wms.Lib
