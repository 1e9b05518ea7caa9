import Wms.Lib.Proc

/-!
# What was asked and what was answered

A complete run leaves a list of its calls, each with the answer given to it.
A part of the state to which every call only adds is read off this list.

What the shape of a program says of the list, whatever is answered, is a
weakest precondition over the `recorder`: a world that takes up every answer
and keeps nothing but the list. The other direction goes through the guards of
a contract, which hold of every call that was made.
-/

namespace Wms.Lib.Proc

variable {C : Type} {R : C → Type} {ε α σ : Type}

/-- Calls with the answers given to them. -/
abbrev Transcript (C : Type) (R : C → Type) := List (Σ c, R c)

section
variable (w : World σ C R) (o : Oracle C R)

/-- The calls of a complete run. -/
def transcript : ℕ → σ → Proc C R ε α → Transcript C R
  | _, _, ret _ => []
  | _, _, throw _ => []
  | n, s, call c k =>
      ⟨c, (w s c (o n c)).1⟩ ::
        transcript (n + 1) (w s c (o n c)).2 (k (w s c (o n c)).1)

@[simp] theorem transcript_ret (n : ℕ) (s : σ) (a : α) :
    transcript w o n s (ret a : Proc C R ε α) = [] := rfl

@[simp] theorem transcript_throw (n : ℕ) (s : σ) (e : ε) :
    transcript w o n s (throw e : Proc C R ε α) = [] := rfl

end

section
variable {K : Contract σ C R} {o : Oracle C R} {A : (c : C) → R c → Prop}

end

end Wms.Lib.Proc
