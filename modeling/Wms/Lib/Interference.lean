import Mathlib.Logic.Relation
import Wms.Lib.Proc

/-!
# A program among others

A thread of a program is stopped before every call, and others may do anything
in their power there. `Amid` says what holds all along under such conditions:
an invariant in every state that is reached, by the thread or by the others, and
a postcondition where the program returns, for as long as nobody else spoils it.

What a thread knows between two calls has to be stable, which is kept by every
step of the others. The rules below are the ones of the sequential precondition
with that one demand more: an assertion before each call that is stable.
-/

namespace Wms.Lib.Proc

open Relation

variable {C : Type} {R : C → Type} {ε α β σ : Type}

/-- An assertion that the others keep. -/
def Stable (others : σ → σ → Prop) (A : σ → Prop) : Prop :=
  ∀ ⦃s t⦄, others s t → A s → A t

theorem Stable.star {others : σ → σ → Prop} {A : σ → Prop} (hA : Stable others A) :
    Stable (ReflTransGen others) A := by
  intro s t hst hs
  induction hst with
  | refl => exact hs
  | tail _ hstep ih => exact hA hstep ih

variable (own : σ → (c : C) → R c → σ → Prop) (others : σ → σ → Prop)
  (I : σ → Prop)

/-- `own s c r t` says that the call may be answered by `r` and leave `t`. -/
def Amid (Q : σ → α → Prop) : σ → Proc C R ε α → Prop
  | s, ret a => ∀ t, ReflTransGen others s t → I t ∧ Q t a
  | s, throw _ => ∀ t, ReflTransGen others s t → I t
  | s, call c k =>
      ∀ t, ReflTransGen others s t → I t ∧ ∀ r u, own t c r u → Amid Q u (k r)

variable {own others I} {Q : σ → α → Prop}

theorem Amid.inv {s : σ} {p : Proc C R ε α} (h : Amid own others I Q s p) : I s := by
  cases p with
  | ret a => exact (h s .refl).1
  | throw e => exact h s .refl
  | call c k => exact (h s .refl).1

/-- The others take a turn. -/
theorem Amid.disturbed {s t : σ} {p : Proc C R ε α} (hst : others s t)
    (h : Amid own others I Q s p) : Amid own others I Q t p := by
  cases p with
  | ret a => exact fun u hu => h u (.head hst hu)
  | throw e => exact fun u hu => h u (.head hst hu)
  | call c k => exact fun u hu => h u (.head hst hu)

/-- The program takes a turn. -/
theorem Amid.answered {s t : σ} {c : C} {r : R c} {k : R c → Proc C R ε α}
    (hst : own s c r t) (h : Amid own others I Q s (call c k)) :
    Amid own others I Q t (k r) := (h s .refl).2 r t hst

theorem Amid.post {s : σ} {a : α}
    (h : Amid own others I Q s (ret a : Proc C R ε α)) : Q s a := (h s .refl).2

theorem Amid.mono {Q' : σ → α → Prop} (hQ : ∀ s a, Q s a → Q' s a) {s : σ}
    {p : Proc C R ε α} (h : Amid own others I Q s p) : Amid own others I Q' s p := by
  induction p generalizing s with
  | ret a => exact fun t ht => (h t ht).imp_right (hQ t a)
  | throw e => exact h
  | call c k ih =>
      exact fun t ht => ⟨(h t ht).1, fun r u hu => ih r ((h t ht).2 r u hu)⟩

/-- What follows a part begins where the part returns. -/
theorem Amid.bind {Q : σ → β → Prop} {s : σ} {p : Proc C R ε α}
    {f : α → Proc C R ε β}
    (h : Amid own others I (fun s a => Amid own others I Q s (f a)) s p) :
    Amid own others I Q s (p.bind f) := by
  induction p generalizing s with
  | ret a => exact h.post
  | throw e => exact h
  | call c k ih =>
      exact fun t ht => ⟨(h t ht).1, fun r u hu => ih r ((h t ht).2 r u hu)⟩

section Rules

variable {A : σ → Prop} (hstable : Stable others A) (hI : ∀ s, A s → I s)
include hstable hI

theorem amid_ret {s : σ} {a : α} (hs : A s) (hQ : ∀ s, A s → Q s a) :
    Amid own others I Q s (ret a : Proc C R ε α) := by
  intro t ht
  have hA := hstable.star ht hs
  exact ⟨hI t hA, hQ t hA⟩

theorem amid_call {s : σ} {c : C} {k : R c → Proc C R ε α} (hs : A s)
    (hk : ∀ s r t, A s → own s c r t → Amid own others I Q t (k r)) :
    Amid own others I Q s (call c k) := by
  intro t ht
  have hA := hstable.star ht hs
  exact ⟨hI t hA, fun r u hu => hk t r u hA hu⟩

end Rules

end Wms.Lib.Proc
