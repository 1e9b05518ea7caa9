import Mathlib.Algebra.Ring.Int.Defs
import Mathlib.Algebra.Ring.Nat
import Mathlib.Data.Char
import Mathlib.Data.List.Lex
import Mathlib.Order.Lattice

/-!
# Instances that every module shares

What powers of numbers, literals below a bound and membership in a list of texts
elaborate to. They are found here by all modules alike.
-/

namespace Wms.Lib

instance neZeroTwo : NeZero 2 := ⟨by decide⟩

instance neZeroFour : NeZero 4 := ⟨by decide⟩

instance lawfulBEqText : LawfulBEq (List Char) := inferInstance

instance lawfulBEqPair : LawfulBEq (ℕ × ℕ) := inferInstance

end Wms.Lib
