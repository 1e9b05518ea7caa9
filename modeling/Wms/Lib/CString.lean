import Mathlib.Data.Nat.Notation
import Mathlib.Data.Int.Notation
import Mathlib.Data.List.Basic
import Mathlib.Data.List.DropRight
import Mathlib.Data.List.Infix
import Mathlib.Data.List.Nodup
import Mathlib.Data.List.TakeWhile
import Wms.Lib.Instances

/-!
# Texts as C and Boost handle them

Conversions of `<cstdlib>` and the Boost string algorithms, over lists of
characters.
-/

namespace Wms.Lib

/-- `isspace` in the C locale. -/
def isSpace (c : Char) : Bool :=
  c = ' ' || (9 ≤ c.toNat && c.toNat ≤ 13)

/-- The value of the digits a text begins with. -/
def digitsValue (s : List Char) : ℕ :=
  (s.takeWhile Char.isDigit).foldl (fun n c => 10 * n + (c.toNat - 48)) 0

/-- The optional sign of a number, and what follows it. -/
def splitSign : List Char → Bool × List Char
  | '-' :: s => (true, s)
  | '+' :: s => (false, s)
  | s => (false, s)

/-- `strtoull(s, 0, 10)`: a value out of range becomes the greatest one, a
negative one is taken modulo the word. -/
def strtoull (s : List Char) : ℕ :=
  let number := splitSign (s.dropWhile isSpace)
  let n := digitsValue number.2
  if 2 ^ 64 ≤ n then 2 ^ 64 - 1
  else if number.1 then (2 ^ 64 - n) % 2 ^ 64
  else n

/-- `strtoll(s, 0, 10)`: a value out of range becomes the nearest one. -/
def strtoll (s : List Char) : ℤ :=
  let number := splitSign (s.dropWhile isSpace)
  let n : ℤ := digitsValue number.2
  if number.1 then max (-2 ^ 63) (-n) else min (2 ^ 63 - 1) n

/-- `atoi`: the value as a `long`, cut to an `int`. -/
def atoi (s : List Char) : ℤ :=
  let number := splitSign (s.dropWhile isSpace)
  let n : ℤ := digitsValue number.2
  let v := if number.1 then max (-2 ^ 63) (-n) else min (2 ^ 63 - 1) n
  v.bmod (2 ^ 32)

/-- What stands before and after the first occurrence of a text. -/
def breakOn (pattern : List Char) : List Char → Option (List Char × List Char)
  | [] => if pattern.isEmpty then some ([], []) else none
  | c :: s =>
      if pattern.isPrefixOf (c :: s) then
        some ([], (c :: s).drop pattern.length)
      else (breakOn pattern s).map fun r => (c :: r.1, r.2)

theorem breakOn_suffix {pattern text : List Char} {r : List Char × List Char}
    (h : breakOn pattern text = some r) : r.2 <:+ text := by
  induction text generalizing r with
  | nil =>
      unfold breakOn at h
      split at h
      · cases h
        exact List.nil_suffix
      · cases h
  | cons c text ih =>
      unfold breakOn at h
      split at h
      · cases h
        exact List.drop_suffix _ _
      · obtain ⟨r', hr', rfl⟩ := Option.map_eq_some_iff.mp h
        exact (ih hr').trans (List.suffix_cons c text)

theorem breakOn_isSome {pattern text : List Char} :
    (breakOn pattern text).isSome = true ↔ pattern <:+: text := by
  induction text with
  | nil =>
      rw [breakOn, List.infix_nil]
      cases pattern with
      | nil => exact ⟨fun _ => rfl, fun _ => rfl⟩
      | cons c pattern =>
          exact ⟨fun h => absurd h Bool.false_ne_true,
            fun h => absurd h (List.cons_ne_nil c pattern)⟩
  | cons c text ih =>
      rw [breakOn, List.infix_cons_iff]
      by_cases hstarts : pattern.isPrefixOf (c :: text) = true
      · rw [if_pos hstarts]
        exact ⟨fun _ => Or.inl (List.isPrefixOf_iff_prefix.mp hstarts), fun _ => rfl⟩
      · rw [if_neg hstarts, Option.isSome_map, ih]
        constructor
        · exact Or.inr
        · rintro (h | h)
          · exact absurd (List.isPrefixOf_iff_prefix.mpr h) hstarts
          · exact h

/-- What is found lies between the two parts. -/
theorem breakOn_eq {pattern text : List Char} {r : List Char × List Char}
    (h : breakOn pattern text = some r) : r.1 ++ pattern ++ r.2 = text := by
  induction text generalizing r with
  | nil =>
      unfold breakOn at h
      split at h
      case isTrue hempty =>
        cases h
        rw [List.isEmpty_iff.mp hempty]
        rfl
      case isFalse => cases h
  | cons c text ih =>
      unfold breakOn at h
      split at h
      case isTrue hstarts =>
        cases h
        obtain ⟨rest, hrest⟩ := List.isPrefixOf_iff_prefix.mp hstarts
        rw [← hrest, List.drop_left, List.nil_append]
      case isFalse =>
        obtain ⟨r', hr', rfl⟩ := Option.map_eq_some_iff.mp h
        show c :: (r'.1 ++ pattern ++ r'.2) = c :: text
        rw [ih hr']

/-- A text is gone over up to where the pattern can begin. -/
theorem breakOn_append {c : Char} {pattern w : List Char} (h : c ∉ w)
    (s : List Char) : breakOn (c :: pattern) (w ++ s) =
      (breakOn (c :: pattern) s).map fun r => (w ++ r.1, r.2) := by
  induction w with
  | nil =>
      rw [List.nil_append]
      cases breakOn (c :: pattern) s <;> rfl
  | cons x w ih =>
      rw [List.mem_cons, not_or] at h
      have hno : ¬ (c :: pattern).isPrefixOf (x :: (w ++ s)) = true := by
        rw [List.isPrefixOf_cons_cons, Bool.and_eq_true]
        intro hboth
        exact h.1 (beq_iff_eq.mp hboth.1)
      rw [List.cons_append, breakOn, if_neg hno, ih h.2, Option.map_map]
      rfl

theorem breakOn_of_not_mem {c : Char} {pattern w : List Char} (h : c ∉ w) :
    breakOn (c :: pattern) w = none := by
  have hw : breakOn (c :: pattern) (w ++ []) = _ := breakOn_append h []
  rw [List.append_nil] at hw
  rw [hw]
  rfl

/-- What follows the last slash of a path. -/
def baseName (path : List Char) : List Char := path.rtakeWhile (· ≠ '/')

theorem slash_not_mem_baseName (path : List Char) : '/' ∉ baseName path :=
  fun h => absurd (List.mem_rtakeWhile_imp h) (by decide)

theorem baseName_of_not_mem {path : List Char} (h : '/' ∉ path) :
    baseName path = path := by
  unfold baseName
  rw [List.rtakeWhile_eq_self_iff]
  intro c hc
  have hne : c ≠ '/' := fun heq => h (heq ▸ hc)
  exact decide_eq_true hne

theorem baseName_below (dir : List Char) {name : List Char} (h : '/' ∉ name) :
    baseName (dir ++ '/' :: name) = name := by
  have hname : ∀ c ∈ name.reverse, decide (c ≠ '/') = true := by
    intro c hc
    have hne : c ≠ '/' := fun heq => h (heq ▸ List.mem_reverse.mp hc)
    exact decide_eq_true hne
  unfold baseName List.rtakeWhile
  rw [List.reverse_append, List.reverse_cons, List.append_assoc,
    List.takeWhile_append_of_pos hname, List.singleton_append,
    List.takeWhile_cons_of_neg (by decide), List.append_nil, List.reverse_reverse]

/-- The replacement from a position on; the number counts the characters that
still belong to the occurrence found last. -/
def replaceFrom (old new : List Char) : ℕ → List Char → List Char
  | _, [] => []
  | n + 1, _ :: s => replaceFrom old new n s
  | 0, c :: s =>
      if old.isPrefixOf (c :: s) then
        new ++ replaceFrom old new (old.length - 1) s
      else c :: replaceFrom old new 0 s

theorem replaceFrom_cons (old new : List Char) (c : Char) (s : List Char) :
    replaceFrom old new 0 (c :: s) =
      if old.isPrefixOf (c :: s) then
        new ++ replaceFrom old new (old.length - 1) s
      else c :: replaceFrom old new 0 s := rfl

/-- `boost::replace_all`, which finds an empty text nowhere. -/
def replaceAll (old new s : List Char) : List Char :=
  if old.isEmpty then s else replaceFrom old new 0 s

/-- `boost::trim_if`. -/
def trimIf (p : Char → Bool) (s : List Char) : List Char :=
  ((s.dropWhile p).reverse.dropWhile p).reverse

theorem digitsValue_nil : digitsValue [] = 0 := rfl

theorem digitsValue_singleton (c : Char) :
    digitsValue [c] = if c.isDigit then c.toNat - 48 else 0 := by
  unfold digitsValue
  by_cases hd : c.isDigit
  · rw [List.takeWhile_cons_of_pos hd, if_pos hd]
    show 10 * 0 + (c.toNat - 48) = c.toNat - 48
    omega
  · rw [List.takeWhile_cons_of_neg hd, if_neg hd]
    rfl

/-- A text of one character is worth its digit, if it is one. -/
theorem strtoull_singleton (c : Char) :
    strtoull [c] = 0 ∨ c.isDigit ∧ strtoull [c] = c.toNat - 48 := by
  by_cases hs : isSpace c
  · left
    unfold strtoull
    rw [List.dropWhile_cons_of_pos hs]
    rfl
  · unfold strtoull
    rw [List.dropWhile_cons_of_neg hs]
    have hsign : splitSign [c] = (false, [c]) ∨ (splitSign [c]).2 = [] := by
      unfold splitSign
      split <;> simp_all
    rcases hsign with hc | hnil
    · rw [hc]
      dsimp only
      rw [digitsValue_singleton]
      by_cases hd : c.isDigit
      · right
        have hle : c.toNat ≤ 57 := (Char.isDigit_iff_toNat.mp hd).2
        rw [if_pos hd]
        refine ⟨hd, ?_⟩
        rw [if_neg (by omega), if_neg Bool.false_ne_true]
      · left
        rw [if_neg hd]
        rfl
    · left
      dsimp only
      rw [hnil, digitsValue_nil]
      cases (splitSign [c]).1 <;> rfl

/-- A number kept as the single character it is the code of comes back only if
it is zero. -/
theorem strtoull_ofNat_mod (n : ℕ) :
    strtoull [Char.ofNat (n % 256)] = n ↔ n = 0 := by
  have hcode : (Char.ofNat (n % 256)).toNat = n % 256 := by
    have hvalid : (n % 256).isValidChar := Or.inl (by omega)
    unfold Char.ofNat
    rw [dif_pos hvalid]
    rfl
  constructor
  · intro h
    rcases strtoull_singleton (Char.ofNat (n % 256)) with hz | ⟨hd, hv⟩
    · omega
    · have hle := Char.isDigit_iff_toNat.mp hd
      rw [hcode] at hle hv
      have h48 : '0'.toNat = 48 := rfl
      have h57 : '9'.toNat = 57 := rfl
      omega
  · rintro rfl
    decide

/-! ## Numbers that were written -/

theorem digitsValue_append (n : ℕ) {s : List Char}
    (hs : ∀ c ∈ s.head?, c.isDigit = false) :
    digitsValue (Nat.toDigits 10 n ++ s) = n := by
  have hall : ∀ c ∈ Nat.toDigits 10 n, c.isDigit = true := fun c hc =>
    Nat.isDigit_of_mem_toDigits (by omega) (by omega) hc
  have htake : (Nat.toDigits 10 n ++ s).takeWhile Char.isDigit =
      Nat.toDigits 10 n := by
    rw [List.takeWhile_append_of_pos hall]
    cases s with
    | nil => exact List.append_nil _
    | cons c s =>
        have hc : ¬ c.isDigit = true := by
          rw [hs c rfl]
          exact Bool.false_ne_true
        rw [List.takeWhile_cons_of_neg hc, List.append_nil]
  unfold digitsValue
  rw [htake]
  exact Nat.ofDigitChars_ten_toDigits

theorem digitsValue_toDigits (n : ℕ) : digitsValue (Nat.toDigits 10 n) = n := by
  have h := digitsValue_append (s := []) n (fun c hc => by cases hc)
  rwa [List.append_nil] at h

theorem isSpace_digit {c : Char} (h : c.isDigit = true) : isSpace c = false := by
  have hrange := Char.isDigit_iff_toNat.mp h
  have h48 : '0'.toNat = 48 := rfl
  have h57 : '9'.toNat = 57 := rfl
  unfold isSpace
  have hne : c ≠ ' ' := by
    rintro rfl
    exact absurd h (by decide)
  simp only [hne, decide_false, Bool.false_or, Bool.and_eq_false_iff,
    decide_eq_false_iff_not]
  omega

/-- A number without a sign begins with its first digit. -/
theorem splitSign_cons {c : Char} (h : c.isDigit = true) (s : List Char) :
    splitSign (c :: s) = (false, c :: s) := by
  unfold splitSign
  split
  case h_1 heq =>
    cases heq
    exact absurd h (by decide)
  case h_2 heq =>
    cases heq
    exact absurd h (by decide)
  case h_3 => rfl

theorem splitSign_digit {c : Char} (h : c.isDigit = true) (s : List Char) :
    splitSign ((c :: s).dropWhile isSpace) = (false, c :: s) := by
  rw [List.dropWhile_cons_of_neg (by rw [isSpace_digit h]; exact Bool.false_ne_true),
    splitSign_cons h]

theorem splitSign_append (n : ℕ) (s : List Char) :
    splitSign ((Nat.toDigits 10 n ++ s).dropWhile isSpace) =
      (false, Nat.toDigits 10 n ++ s) := by
  cases hd : Nat.toDigits 10 n with
  | nil => exact absurd hd Nat.toDigits_ne_nil
  | cons c cs =>
      have hdigit : c.isDigit = true :=
        Nat.isDigit_of_mem_toDigits (by omega) (by omega) (hd ▸ List.mem_cons_self)
      rw [List.cons_append]
      exact splitSign_digit hdigit (cs ++ s)

theorem splitSign_toDigits (n : ℕ) :
    splitSign ((Nat.toDigits 10 n).dropWhile isSpace) = (false, Nat.toDigits 10 n) := by
  have h := splitSign_append n []
  rwa [List.append_nil] at h

theorem strtoull_toDigits {n : ℕ} (h : n < 2 ^ 64) :
    strtoull (Nat.toDigits 10 n) = n := by
  unfold strtoull
  rw [splitSign_toDigits]
  dsimp only
  rw [digitsValue_toDigits, if_neg (by omega), if_neg Bool.false_ne_true]

/-- What stands behind a number is not looked at. -/
theorem atoi_append {n : ℕ} (h : n < 2 ^ 31) {s : List Char}
    (hs : ∀ c ∈ s.head?, c.isDigit = false) : atoi (Nat.toDigits 10 n ++ s) = n := by
  unfold atoi
  rw [splitSign_append]
  dsimp only
  rw [digitsValue_append n hs, if_neg Bool.false_ne_true, Int.bmod_def]
  omega

theorem atoi_toDigits {n : ℕ} (h : n < 2 ^ 31) : atoi (Nat.toDigits 10 n) = n := by
  have hn := atoi_append (s := []) h (fun c hc => by cases hc)
  rwa [List.append_nil] at hn

/-- A number with its sign, if it is negative. -/
def signedDigits (t : ℤ) : List Char :=
  if t < 0 then '-' :: Nat.toDigits 10 t.natAbs else Nat.toDigits 10 t.natAbs

theorem strtoll_signedDigits {t : ℤ} (hlow : -2 ^ 63 ≤ t) (hhigh : t < 2 ^ 63) :
    strtoll (signedDigits t) = t := by
  unfold strtoll signedDigits
  by_cases hneg : t < 0
  · rw [if_pos hneg]
    have hsign : splitSign (('-' :: Nat.toDigits 10 t.natAbs).dropWhile isSpace) =
        (true, Nat.toDigits 10 t.natAbs) := by
      rw [List.dropWhile_cons_of_neg (by decide)]
      rfl
    rw [hsign]
    dsimp only
    rw [digitsValue_toDigits, if_pos rfl]
    omega
  · rw [if_neg hneg, splitSign_toDigits]
    dsimp only
    rw [digitsValue_toDigits, if_neg Bool.false_ne_true]
    omega

/-- Where a run of characters of a kind ends. -/
theorem span_append {p : Char → Bool} {a b : List Char}
    (ha : ∀ c ∈ a, p c = true) (hb : ∀ c ∈ b.head?, p c = false) :
    (a ++ b).takeWhile p = a ∧ (a ++ b).dropWhile p = b := by
  rw [List.takeWhile_append_of_pos ha, List.dropWhile_append_of_pos ha]
  cases b with
  | nil => exact ⟨List.append_nil _, rfl⟩
  | cons c b =>
      have hc : ¬ p c = true := by rw [hb c rfl]; exact Bool.false_ne_true
      rw [List.takeWhile_cons_of_neg hc, List.dropWhile_cons_of_neg hc]
      exact ⟨List.append_nil _, rfl⟩

/-! ## Literals

A literal is `String.ofList` of its characters. These lemmas find the
characters by unification, where an evaluation would decode the literal. -/

/-- A list of literals, with the characters of each. -/
inductive Spells {α : Type*} (f : List Char → α) :
    List α → List (List Char) → Prop
  | nil : Spells f [] []
  | cons {cs : List Char} {xs : List α} {words : List (List Char)}
      (h : Spells f xs words) : Spells f (f cs :: xs) (cs :: words)

theorem Spells.eq {α : Type*} {f : List Char → α} {xs : List α}
    {words : List (List Char)} (h : Spells f xs words) : xs = words.map f := by
  induction h with
  | nil => rfl
  | cons _ ih => rw [List.map_cons, ← ih]

/-- A number for the characters of a word. -/
def charCode (cs : List Char) : ℕ := cs.foldl (fun n c => 256 * n + c.toNat) 0

/-- Words with different numbers are different. -/
theorem Spells.nodup {α : Type*} {f : List Char → α} {xs : List α}
    {words : List (List Char)} (h : Spells f xs words)
    (hf : ∀ cs cs', f cs = f cs' → cs = cs')
    (hcodes : (words.map charCode).Nodup) : xs.Nodup := by
  rw [h.eq]
  exact (List.Nodup.of_map charCode hcodes).map (fun cs cs' => hf cs cs')

theorem Spells.forall {α : Type*} {f : List Char → α} {P : α → Prop}
    {xs : List α} {words : List (List Char)} (h : Spells f xs words)
    (hwords : ∀ cs ∈ words, P (f cs)) : ∀ x ∈ xs, P x := by
  rw [h.eq]
  intro x hx
  obtain ⟨cs, hcs, rfl⟩ := List.mem_map.mp hx
  exact hwords cs hcs

theorem all_literal {p : Char → Bool} {cs : List Char} (h : cs.all p = true) :
    (String.ofList cs).toList.all p = true := by
  rw [String.toList_ofList]
  exact h

theorem literal_cons {c : Char} {cs : List Char} :
    (String.ofList (c :: cs)).toList = [c] ++ (String.ofList cs).toList := by
  simp only [String.toList_ofList, List.singleton_append]

theorem literal_snoc {c : Char} {cs cs' : List Char} (h : cs' = cs ++ [c] := by rfl) :
    (String.ofList cs').toList = (String.ofList cs).toList ++ [c] := by
  simp only [String.toList_ofList, h]

end Wms.Lib
