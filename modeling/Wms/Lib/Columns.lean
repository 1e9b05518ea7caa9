import Mathlib.Data.List.Lex
import Wms.Lib.InputStream

/-!
# Texts in the order of numbers

Numbers of one and the same count of digits are in the order of their texts, so
a text that begins with such columns sorts by them, the first that differs
deciding. The texts are compared as `std::string` compares them, character for
character, and a text before the longer ones it begins.
-/

namespace Wms.Lib

/-! ## Two parts -/

section
variable {α : Type*} [LinearOrder α] {a b x y : List α}

/-- Of texts whose first parts are equally long, the first parts decide. -/
theorem append_lt_append_iff (hlen : a.length = b.length) :
    a ++ x < b ++ y ↔ a < b ∨ a = b ∧ x < y := by
  induction a generalizing b with
  | nil =>
      obtain rfl := List.length_eq_zero_iff.mp hlen.symm
      simp
  | cons c a ih =>
      cases b with
      | nil => cases hlen
      | cons d b =>
          have hrest := ih (Nat.succ.inj hlen)
          rw [List.cons_append, List.cons_append, List.cons_lt_cons_iff,
            List.cons_lt_cons_iff, hrest, List.cons.injEq]
          constructor
          · rintro (hlt | ⟨rfl, hlt | ⟨rfl, hlt⟩⟩)
            · exact .inl (.inl hlt)
            · exact .inl (.inr ⟨rfl, hlt⟩)
            · exact .inr ⟨⟨rfl, rfl⟩, hlt⟩
          · rintro ((hlt | ⟨rfl, hlt⟩) | ⟨⟨rfl, rfl⟩, hlt⟩)
            · exact .inl hlt
            · exact .inr ⟨rfl, .inl hlt⟩
            · exact .inr ⟨rfl, .inr ⟨rfl, hlt⟩⟩

end

/-! ## Digits -/

/-- A number as a column of digits. -/
def column (width n : ℕ) : List Char := zeroFill width (Nat.toDigits 10 n)

section
variable {ds es : List Char} {c d : Char} {width m n : ℕ}

theorem digitValue_lt_iff (hc : c.isDigit = true) (hd : d.isDigit = true) :
    c.toNat - '0'.toNat < d.toNat - '0'.toNat ↔ c < d := by
  rw [Char.isDigit, Bool.and_eq_true_iff] at hc hd
  have hc' : 48 ≤ c.toNat := of_decide_eq_true hc.1
  have hd' : 48 ≤ d.toNat := of_decide_eq_true hd.1
  change c.toNat - 48 < d.toNat - 48 ↔ c.toNat < d.toNat
  omega

theorem value_cons (c : Char) (ds : List Char) :
    Nat.ofDigitChars 10 (c :: ds) 0 =
      10 ^ ds.length * (c.toNat - '0'.toNat) + Nat.ofDigitChars 10 ds 0 := by
  rw [Nat.ofDigitChars_cons, Nat.ofDigitChars_eq_ofDigitChars_zero, Nat.mul_zero,
    Nat.zero_add]

theorem above {base v w a b : ℕ} (h : v < w) (ha : a < base) :
    base * v + a < base * w + b := by
  have hmul := Nat.mul_le_mul_left base (Nat.succ_le_of_lt h)
  rw [Nat.mul_succ] at hmul
  omega

/-- Equally many digits are in the order of their values. -/
theorem value_lt_value_iff (hlen : ds.length = es.length)
    (hds : ∀ c ∈ ds, c.isDigit = true) (hes : ∀ c ∈ es, c.isDigit = true) :
    Nat.ofDigitChars 10 ds 0 < Nat.ofDigitChars 10 es 0 ↔ ds < es := by
  induction ds generalizing es with
  | nil =>
      obtain rfl := List.length_eq_zero_iff.mp hlen.symm
      simp
  | cons c ds ih =>
      cases es with
      | nil => cases hlen
      | cons d es =>
          obtain ⟨hc, hds'⟩ := List.forall_mem_cons.mp hds
          obtain ⟨hd, hes'⟩ := List.forall_mem_cons.mp hes
          have hrest := ih (Nat.succ.inj hlen) hds' hes'
          rw [value_cons, value_cons, List.cons_lt_cons_iff, ← Nat.succ.inj hlen]
          rcases lt_trichotomy c d with hlt | rfl | hgt
          · exact iff_of_true
              (above ((digitValue_lt_iff hc hd).mpr hlt) (value_lt hds'))
              (.inl hlt)
          · simp [hrest]
          · have hover := above ((digitValue_lt_iff hd hc).mpr hgt)
              (b := Nat.ofDigitChars 10 ds 0)
              (Nat.succ.inj hlen ▸ value_lt hes')
            refine iff_of_false (Nat.lt_asymm hover) ?_
            rintro (hlt | ⟨rfl, -⟩)
            · exact lt_asymm hgt hlt
            · exact lt_irrefl c hgt

theorem length_column (hn : n < 10 ^ width) (hw : 0 < width) :
    (column width n).length = width :=
  length_zeroFill (length_toDigits_le hn hw)

theorem column_lt_iff (hm : m < 10 ^ width) (hn : n < 10 ^ width)
    (hw : 0 < width) : column width m < column width n ↔ m < n := by
  have hlen := (length_column hm hw).trans (length_column hn hw).symm
  rw [← value_lt_value_iff hlen (fun _ => isDigit_of_mem_zeroFill)
    (fun _ => isDigit_of_mem_zeroFill), column, column, value_zeroFill,
    value_zeroFill]

theorem column_inj (h : column width m = column width n) : m = n := by
  have hvalue := congrArg (Nat.ofDigitChars 10 · 0) h
  simpa only [column, value_zeroFill] using hvalue

end

end Wms.Lib
