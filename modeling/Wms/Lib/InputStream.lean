import Mathlib.Data.List.TakeWhile
import Wms.Lib.Instances

/-!
# Formatted input

A text that is read from a position on, with the two flags that say that the
end was met and that an extraction has failed. Each extraction leaves out white
space first, and none does anything once a flag is set. A number takes a sign
and as many digits as there are; it meets the end where nothing comes after
them.

The lemmas tell what an extraction does from the text ahead alone.
-/

namespace Wms.Lib

/-- A text, how far it has been read, and the flags. -/
structure IStream where
  text : List Char
  pos : ℕ
  eof : Bool
  fail : Bool

namespace IStream

/-- A stream at the beginning of its text. -/
def ofText (text : List Char) : IStream := ⟨text, 0, false, false⟩

/-- `good` -/
def good (s : IStream) : Bool := !s.eof && !s.fail

/-- What is ahead. -/
def rest (s : IStream) : List Char := s.text.drop s.pos

/-- `clear` -/
def clear (s : IStream) : IStream := { s with eof := false, fail := false }

/-- What has been read is not read again. -/
def skip (s : IStream) (n : ℕ) : IStream := { s with pos := s.pos + n }

/-- `seekg`, which a failed stream ignores. -/
def seekg (s : IStream) (pos : ℕ) : IStream :=
  if s.fail then s else { s with pos := pos }

/-- To a position counted back from the end. -/
def seekgEnd (s : IStream) (back : ℕ) : IStream :=
  if s.fail then s
  else if s.text.length < back then { s with fail := true }
  else { s with pos := s.text.length - back }

/-- `tellg`, which a failed stream has not. -/
def tellg (s : IStream) : Option ℕ := if s.fail then none else some s.pos

/-- `isspace` in the C locale. -/
def isSpace (c : Char) : Bool :=
  c = ' ' || c = '\n' || c = '\t' || c = '\r' || c = '\x0b' || c = '\x0c'

/-- What every extraction begins with. -/
def sentry (s : IStream) : IStream :=
  if !s.good then { s with fail := true }
  else
    let n := (s.rest.takeWhile isSpace).length
    if n = s.rest.length then { s.skip n with eof := true, fail := true }
    else s.skip n

/-- How much of a number its sign is. -/
def signLength : List Char → ℕ
  | '-' :: _ => 1
  | '+' :: _ => 1
  | _ => 0

variable {α : Type}

/-- A number in decimal notation. `conv` makes it a value of the type that is
read, or nothing where it has none; `other` is what the variable holds. -/
def number (conv : Bool → ℕ → Option α) (other : α) (s : IStream) :
    IStream × α :=
  let s := s.sentry
  if s.fail then (s, other)
  else
    let sign := signLength s.rest
    let digits := (s.rest.drop sign).takeWhile Char.isDigit
    let next := { s.skip (sign + digits.length) with
      eof := (s.rest.drop (sign + digits.length)).isEmpty }
    if digits = [] then ({ next with fail := true }, other)
    else
      match conv (s.rest.head? = some '-') (Nat.ofDigitChars 10 digits 0) with
      | none => ({ next with fail := true }, other)
      | some a => (next, a)

/-- `operator>>` of a character. -/
def char (s : IStream) : IStream × Option Char :=
  let s := s.sentry
  if s.fail then (s, none) else (s.skip 1, s.rest.head?)

/-- A word, up to the next white space. -/
def word (s : IStream) : IStream × List Char :=
  let s := s.sentry
  if s.fail then (s, [])
  else
    let w := s.rest.takeWhile (!isSpace ·)
    ({ s.skip w.length with eof := (s.rest.drop w.length).isEmpty }, w)

/-- The text up to the end of the line, which is taken but left out. -/
def getline (s : IStream) : IStream × List Char :=
  if !s.good then ({ s with fail := true }, [])
  else
    let line := s.rest.takeWhile (· ≠ '\n')
    if line.length = s.rest.length then
      ({ s.skip line.length with eof := true, fail := line.isEmpty }, line)
    else (s.skip (line.length + 1), line)

/-! ## What is ahead after a step -/

section
variable {s : IStream} {ws ds r : List Char} {c : Char} {n : ℕ}

@[simp] theorem good_skip : (s.skip n).good = s.good := rfl

@[simp] theorem fail_skip : (s.skip n).fail = s.fail := rfl

@[simp] theorem text_skip : (s.skip n).text = s.text := rfl

@[simp] theorem pos_skip : (s.skip n).pos = s.pos + n := rfl

theorem skip_skip (m : ℕ) : (s.skip n).skip m = s.skip (n + m) := by
  rw [skip, skip, skip, Nat.add_assoc]

theorem rest_skip : (s.skip n).rest = s.rest.drop n := by
  rw [rest, rest, List.drop_drop]
  rfl

theorem fail_of_good (h : s.good = true) : s.fail = false := by
  rw [good, Bool.and_eq_true_iff] at h
  exact Bool.not_eq_true' _ |>.mp h.2

@[simp] theorem text_sentry : s.sentry.text = s.text := by
  rw [sentry]
  split
  · rfl
  · dsimp only
    split <;> rfl

theorem isDigit_not_isSpace (h : c.isDigit = true) : isSpace c = false := by
  rw [isSpace]
  simp only [Bool.or_eq_false_iff, decide_eq_false_iff_not]
  refine ⟨⟨⟨⟨⟨?_, ?_⟩, ?_⟩, ?_⟩, ?_⟩, ?_⟩ <;> rintro rfl <;> cases h

theorem sentry_of_rest (hs : s.good = true) (hrest : s.rest = ws ++ c :: r)
    (hws : ∀ x ∈ ws, isSpace x = true) (hc : isSpace c = false) :
    s.sentry = s.skip ws.length ∧ (s.skip ws.length).rest = c :: r := by
  have htake : s.rest.takeWhile isSpace = ws := by
    rw [hrest, List.takeWhile_append_of_pos hws, List.takeWhile_cons, hc]
    simp
  have hlen : ws.length ≠ s.rest.length := by
    rw [hrest, List.length_append, List.length_cons]
    omega
  constructor
  · rw [sentry, hs, htake, if_neg hlen]
    rfl
  · rw [rest_skip, hrest, List.drop_left]

theorem sentry_blank (hs : s.good = true)
    (hws : ∀ x ∈ s.rest, isSpace x = true) : s.sentry.fail = true := by
  have htake : s.rest.takeWhile isSpace = s.rest :=
    List.takeWhile_eq_self_iff.mpr hws
  rw [sentry, hs, htake, if_pos rfl]
  rfl

theorem sentry_not_good (hs : s.good = false) : s.sentry.fail = true := by
  rw [sentry, hs]
  rfl

variable {conv : Bool → ℕ → Option α} {other : α}

@[simp] theorem text_number : (s.number conv other).1.text = s.text := by
  rw [number]
  dsimp only
  split
  · exact text_sentry
  · split
    · exact text_sentry
    · split <;> exact text_sentry

@[simp] theorem text_char : s.char.1.text = s.text := by
  rw [char]
  split <;> exact text_sentry

theorem number_of_fail (hs : s.sentry.fail = true) :
    (s.number conv other).1.good = false := by
  rw [number, if_pos hs, good, hs, Bool.not_true, Bool.and_false]

theorem number_not_good (hs : s.good = false) :
    (s.number conv other).1.good = false := number_of_fail (sentry_not_good hs)

theorem char_not_good (hs : s.good = false) : s.char.1.good = false := by
  rw [char, if_pos (sentry_not_good hs), good, sentry_not_good hs]
  exact Bool.and_false _

/-- Something ahead that is no number. -/
theorem number_stuck (hs : s.good = true) (hrest : s.rest = ws ++ c :: r)
    (hws : ∀ x ∈ ws, isSpace x = true) (hc : isSpace c = false)
    (hdigit : c.isDigit = false) (hminus : c ≠ '-') (hplus : c ≠ '+') :
    (s.number conv other).1.good = false := by
  obtain ⟨hsentry, hahead⟩ := sentry_of_rest hs hrest hws hc
  have hsign : signLength (c :: r) = 0 := by
    rw [signLength]
    · exact fun r' heq => hminus (List.cons.inj heq).1
    · exact fun r' heq => hplus (List.cons.inj heq).1
  rw [number, hsentry]
  dsimp only
  rw [if_neg (by rw [fail_skip, fail_of_good hs]; exact Bool.false_ne_true),
    hahead, hsign, List.drop_zero, List.takeWhile_cons, hdigit]
  simp [good]

/-- Digits ahead, with something after them. -/
theorem number_digits (hs : s.good = true)
    (hrest : s.rest = ws ++ (ds ++ c :: r))
    (hws : ∀ x ∈ ws, isSpace x = true) (hds : ∀ x ∈ ds, x.isDigit = true)
    (hne : ds ≠ []) (hc : c.isDigit = false) {a : α}
    (hconv : conv false (Nat.ofDigitChars 10 ds 0) = some a) :
    s.number conv other = (s.skip (ws.length + ds.length), a) ∧
      (s.skip (ws.length + ds.length)).rest = c :: r := by
  obtain ⟨d, ds', rfl⟩ := List.exists_cons_of_ne_nil hne
  have hd := hds d List.mem_cons_self
  obtain ⟨hsentry, hahead⟩ :=
    sentry_of_rest hs hrest hws (isDigit_not_isSpace hd)
  have hminus : d ≠ '-' := by
    rintro rfl
    cases hd
  have hsign : signLength (d :: (ds' ++ c :: r)) = 0 := by
    rw [signLength]
    · exact fun r' heq => hminus (List.cons.inj heq).1
    · rintro r' heq
      obtain rfl := (List.cons.inj heq).1
      cases hd
  have htake : (d :: (ds' ++ c :: r)).takeWhile Char.isDigit = d :: ds' := by
    change (d :: ds' ++ c :: r).takeWhile Char.isDigit = _
    rw [List.takeWhile_append_of_pos hds, List.takeWhile_cons, hc]
    simp
  have hdrop : (d :: (ds' ++ c :: r)).drop (d :: ds').length = c :: r :=
    List.drop_left
  constructor
  · rw [number, hsentry]
    dsimp only
    change (s.skip ws.length).rest = d :: (ds' ++ c :: r) at hahead
    rw [if_neg (by rw [fail_skip, fail_of_good hs]; exact Bool.false_ne_true),
      hahead, hsign, List.drop_zero, htake, if_neg hne, Nat.zero_add, hdrop]
    have hhead : ((d :: (ds' ++ c :: r)).head? = some '-') = False := by
      simp [hminus]
    simp only [hhead, decide_false, hconv, skip_skip]
    rw [good, Bool.and_eq_true_iff, Bool.not_eq_true', Bool.not_eq_true'] at hs
    simp [skip, hs.1]
  · rw [← skip_skip, rest_skip, hahead]
    exact hdrop

/-- Digits ahead and nothing after them: the end is met. -/
theorem number_last (hs : s.good = true) (hrest : s.rest = ws ++ ds)
    (hws : ∀ x ∈ ws, isSpace x = true) (hds : ∀ x ∈ ds, x.isDigit = true) :
    (s.number conv other).1.good = false := by
  cases ds with
  | nil =>
      refine number_of_fail (sentry_blank hs fun x hx => ?_)
      rw [hrest, List.append_nil] at hx
      exact hws x hx
  | cons d ds' =>
      have hd := hds d List.mem_cons_self
      obtain ⟨hsentry, hahead⟩ :=
        sentry_of_rest hs hrest hws (isDigit_not_isSpace hd)
      have hsign : signLength (d :: ds') = 0 := by
        rw [signLength]
        · rintro r' heq
          obtain rfl := (List.cons.inj heq).1
          cases hd
        · rintro r' heq
          obtain rfl := (List.cons.inj heq).1
          cases hd
      have htake : (d :: ds').takeWhile Char.isDigit = d :: ds' :=
        List.takeWhile_eq_self_iff.mpr hds
      rw [number, hsentry]
      dsimp only
      rw [if_neg (by rw [fail_skip, fail_of_good hs]; exact Bool.false_ne_true),
        hahead, hsign, List.drop_zero, htake, if_neg (List.cons_ne_nil d ds'),
        Nat.zero_add, List.drop_length]
      split <;> simp [good]

theorem char_of_rest (hs : s.good = true) (hrest : s.rest = ws ++ c :: r)
    (hws : ∀ x ∈ ws, isSpace x = true) (hc : isSpace c = false) :
    s.char = (s.skip (ws.length + 1), some c) := by
  obtain ⟨hsentry, hahead⟩ := sentry_of_rest hs hrest hws hc
  rw [char, hsentry,
    if_neg (by rw [fail_skip, fail_of_good hs]; exact Bool.false_ne_true),
    hahead, skip_skip]
  rfl

theorem char_blank (hs : s.good = true)
    (hws : ∀ x ∈ s.rest, isSpace x = true) : s.char.1.good = false := by
  rw [char, if_pos (sentry_blank hs hws), good, sentry_blank hs hws]
  exact Bool.and_false _

theorem getline_of_rest {line : List Char} (hs : s.good = true)
    (hrest : s.rest = line ++ '\n' :: r) (hline : '\n' ∉ line) :
    s.getline = (s.skip (line.length + 1), line) ∧
      (s.skip (line.length + 1)).rest = r := by
  have htake : s.rest.takeWhile (· ≠ '\n') = line := by
    rw [hrest, List.takeWhile_append_of_pos, List.takeWhile_cons]
    · simp
    · intro x hx
      exact decide_eq_true fun heq => hline (heq ▸ hx)
  have hlen : line.length ≠ s.rest.length := by
    rw [hrest, List.length_append, List.length_cons]
    omega
  constructor
  · rw [getline, hs, htake, if_neg hlen]
    rfl
  · rw [rest_skip, hrest, List.drop_append]
    simp

end

end IStream

/-! ## Columns of digits -/

/-- A text filled up with zeros in front. -/
def zeroFill (width : ℕ) (text : List Char) : List Char :=
  List.replicate (width - text.length) '0' ++ text

section
variable {width n t : ℕ} {ds : List Char}

theorem length_zeroFill {text : List Char} (h : text.length ≤ width) :
    (zeroFill width text).length = width := by
  rw [zeroFill, List.length_append, List.length_replicate]
  omega

theorem length_toDigits_le (hn : n < 10 ^ width) (hw : 0 < width) :
    (Nat.toDigits 10 n).length ≤ width :=
  (Nat.length_toDigits_le_iff (by omega) hw).mpr hn

theorem isDigit_of_mem_zeroFill {c : Char}
    (hc : c ∈ zeroFill width (Nat.toDigits 10 n)) : c.isDigit = true := by
  rcases List.mem_append.mp hc with hc | hc
  · rw [List.eq_of_mem_replicate hc]
    rfl
  · exact Nat.isDigit_of_mem_toDigits (by omega) (by omega) hc

theorem value_zeroFill :
    Nat.ofDigitChars 10 (zeroFill width (Nat.toDigits 10 n)) 0 = n := by
  rw [zeroFill, Nat.ofDigitChars_append, Nat.ofDigitChars_replicate_zero,
    Nat.mul_zero, Nat.ofDigitChars_ten_toDigits]

theorem value_lt (hds : ∀ c ∈ ds, c.isDigit = true) :
    Nat.ofDigitChars 10 ds 0 < 10 ^ ds.length := by
  induction ds with
  | nil => simp
  | cons c rest ih =>
      have hrest := ih fun x hx => hds x (List.mem_cons_of_mem c hx)
      have hc : c.toNat - '0'.toNat < 10 := by
        have hdigit := hds c List.mem_cons_self
        rw [Char.isDigit, Bool.and_eq_true_iff] at hdigit
        have hle := of_decide_eq_true hdigit.2
        have hnat : c.toNat ≤ 57 := hle
        change c.toNat - 48 < 10
        omega
      rw [Nat.ofDigitChars_cons, Nat.ofDigitChars_eq_ofDigitChars_zero,
        List.length_cons, Nat.pow_succ, Nat.mul_zero, Nat.zero_add]
      have hmul := Nat.mul_le_mul_left (10 ^ rest.length) (Nat.le_of_lt_succ hc)
      omega

/-- The last digits are what is left over by a power of ten. -/
theorem value_drop (hds : ∀ c ∈ ds, c.isDigit = true) :
    Nat.ofDigitChars 10 (ds.drop t) 0 =
      Nat.ofDigitChars 10 ds 0 % 10 ^ (ds.length - t) := by
  have hlt := @value_lt (ds.drop t) fun c hc => hds c (List.mem_of_mem_drop hc)
  rw [List.length_drop] at hlt
  have hsplit : Nat.ofDigitChars 10 ds 0 =
      10 ^ (ds.length - t) * Nat.ofDigitChars 10 (ds.take t) 0 +
        Nat.ofDigitChars 10 (ds.drop t) 0 := by
    conv => lhs; rw [← List.take_append_drop t ds]
    rw [Nat.ofDigitChars_append, Nat.ofDigitChars_eq_ofDigitChars_zero,
      List.length_drop]
  rw [hsplit, Nat.mul_add_mod, Nat.mod_eq_of_lt hlt]

end

end Wms.Lib
