import Wms.Lib.Proc

/-!
# Programs among more calls

A program over some calls is a program over these and others as well, of which it
makes none. What a contract over all calls promises of it is what the contract
over its own calls promises.
-/

namespace Wms.Lib.Proc

variable {C D : Type} {R : C → Type} {S : D → Type} {ε α β σ : Type}

/-- A program that makes none of the further calls. -/
def lift : Proc C R ε α → Proc (C ⊕ D) (Sum.elim R S) ε α
  | ret a => ret a
  | throw e => throw e
  | call c k => call (.inl c) fun r => (k r).lift

@[simp] theorem lift_ret (a : α) :
    (ret a : Proc C R ε α).lift = (ret a : Proc (C ⊕ D) (Sum.elim R S) ε α) := rfl

@[simp] theorem lift_throw (e : ε) :
    (throw e : Proc C R ε α).lift = (throw e : Proc (C ⊕ D) (Sum.elim R S) ε α) := rfl

@[simp] theorem lift_call (c : C) (k : R c → Proc C R ε α) :
    (call c k).lift =
      (call (.inl c) fun r => (k r).lift : Proc (C ⊕ D) (Sum.elim R S) ε α) := rfl

theorem lift_bind (p : Proc C R ε α) (f : α → Proc C R ε β) :
    (p.bind f).lift =
      (p.lift.bind fun a => (f a).lift : Proc (C ⊕ D) (Sum.elim R S) ε β) := by
  induction p with
  | ret a => rfl
  | throw e => rfl
  | call c k ih => exact congrArg (call (Sum.inl c)) (funext ih)

theorem within_lift {P : C ⊕ D → Prop} {Q : α → Prop} {p : Proc C R ε α}
    (h : Within (fun c => P (.inl c)) Q p) :
    Within P Q (p.lift : Proc (C ⊕ D) (Sum.elim R S) ε α) := by
  induction p with
  | ret a => exact h
  | throw e => trivial
  | call c k ih => exact ⟨h.1, fun r => ih r (h.2 r)⟩

/-- A contract over all calls, as far as the first kind goes. -/
def Contract.left (K : Contract σ (C ⊕ D) (Sum.elim R S)) : Contract σ C R where
  world := fun s c r => K.world s (.inl c) r
  assume := fun s c r => K.assume s (.inl c) r
  guard := fun s c r => K.guard s (.inl c) r

theorem wp_lift {K : Contract σ (C ⊕ D) (Sum.elim R S)} {Q : σ → α → Prop}
    {E : σ → ε → Prop} (s : σ) (p : Proc C R ε α) :
    wp K Q E s p.lift ↔ wp K.left Q E s p := by
  induction p generalizing s with
  | ret a => exact Iff.rfl
  | throw e => exact Iff.rfl
  | call c k ih =>
      simp only [lift_call, wp_call]
      exact forall₂_congr fun r _ => and_congr_right fun _ => ih _ _

end Wms.Lib.Proc
