import Wms.Lib.CString
import Wms.Jobsubmission.SizeFile

/-!
# What a torn size file is read as

A field takes a line of 36 characters, so what is read 36 characters from the
end of a torn file begins as far inside the last complete line as the torn one
is long. Inside the first column it still is a field, with the first digits
missing, and inside the others it is none.
-/

namespace Wms.Jobsubmission.LogMonitor

open Wms.Lib

/-! ## Fields as they are written -/

/-- A field that updates write. -/
structure Field where
  position : Offset
  pending : Count
  last : Bool
  deriving DecidableEq

/-- The field in memory that it stands for. -/
def Field.sf (f : Field) : SizeField := .of f.position.1 f.pending.1 f.last

/-- The field of a new file. -/
def Field.zero : Field := ⟨⟨0, by decide⟩, ⟨0, by decide⟩, false⟩

/-- The first column of a line. -/
def positionColumn (f : Field) : Text :=
  zeroFill sizeofLong (Nat.toDigits 10 f.position.1)

/-- The second one. -/
def pendingColumn (f : Field) : Text :=
  zeroFill sizeofUnsigned (Nat.toDigits 10 f.pending.1)

/-- The last one. -/
def lastDigit (f : Field) : Char := if f.last then '1' else '0'

section
variable {f : Field}

theorem text_eq : f.sf.text = positionColumn f ++
    ' ' :: (pendingColumn f ++ [' ', lastDigit f, ' ', '|']) := rfl

theorem line_eq : f.sf.line = positionColumn f ++
    ' ' :: (pendingColumn f ++ [' ', lastDigit f, ' ', '|', '\n']) := by
  rw [SizeField.line, text_eq]
  simp

theorem length_positionColumn : (positionColumn f).length = 20 := by
  refine length_zeroFill (length_toDigits_le ?_ (by decide))
  exact Nat.lt_trans f.position.2 (by decide)

theorem length_pendingColumn : (pendingColumn f).length = 10 := by
  refine length_zeroFill (length_toDigits_le ?_ (by decide))
  exact Nat.lt_trans f.pending.2 (by decide)

theorem length_line : f.sf.line.length = 36 := by
  rw [line_eq, List.length_append, List.length_cons, List.length_append,
    length_positionColumn, length_pendingColumn]
  rfl

theorem length_text : f.sf.text.length = 35 := by
  have hline := @length_line f
  rw [SizeField.line, List.length_append] at hline
  exact Nat.succ.inj hline

theorem isDigit_positionColumn : ∀ c ∈ positionColumn f, c.isDigit = true :=
  fun _ hc => isDigit_of_mem_zeroFill hc

theorem isDigit_pendingColumn : ∀ c ∈ pendingColumn f, c.isDigit = true :=
  fun _ hc => isDigit_of_mem_zeroFill hc

theorem isDigit_lastDigit : (lastDigit f).isDigit = true := by
  rw [lastDigit]
  split <;> rfl

theorem toLong_of_lt {n : ℕ} (h : n < 2 ^ 63) : toLong false n = some (n : ℤ) := by
  rw [toLong, if_neg Bool.false_ne_true, if_pos h]

theorem toUnsigned_pending :
    toUnsigned false (Nat.ofDigitChars 10 (pendingColumn f) 0) =
      some f.pending.1 := by
  rw [pendingColumn, value_zeroFill, toUnsigned, if_pos f.pending.2]
  rfl

theorem toBool_last :
    toBool false (Nat.ofDigitChars 10 [lastDigit f] 0) = some f.last := by
  rw [lastDigit]
  cases f.last <;> rfl

end

/-! ## Reading -/

section
variable {s : IStream} {f : Field} {ws ds r : Text} {c : Char}

theorem readSizeField_eq : readSizeField s =
    let n₁ := s.number toLong 0
    let n₂ := n₁.1.number toUnsigned 0
    let n₃ := n₂.1.number toBool false
    let n₄ := n₃.1.char
    if n₄.1.good && n₄.2 = some '|' then (n₄.1, .of n₁.2 n₂.2 n₃.2)
    else (n₄.1, .empty) := by
  rw [readSizeField]

theorem isSpace_blank : ∀ x ∈ [' '], IStream.isSpace x = true :=
  fun _ hx => List.mem_singleton.mp hx ▸ rfl

theorem isSpace_newline : ∀ x ∈ ['\n'], IStream.isSpace x = true :=
  fun _ hx => List.mem_singleton.mp hx ▸ rfl

theorem isSpace_none : ∀ x ∈ ([] : Text), IStream.isSpace x = true :=
  fun _ hx => absurd hx List.not_mem_nil

/-- The first column may have lost digits. -/
theorem read_field (hs : s.good = true)
    (hrest : s.rest = ws ++ (ds ++
      ' ' :: (pendingColumn f ++ ' ' :: lastDigit f :: ' ' :: '|' :: r)))
    (hws : ∀ x ∈ ws, IStream.isSpace x = true)
    (hds : ∀ x ∈ ds, x.isDigit = true) (hne : ds ≠ [])
    (hlt : Nat.ofDigitChars 10 ds 0 < 2 ^ 63) :
    readSizeField s = (s.skip (ws.length + ds.length + 15),
      .of (Nat.ofDigitChars 10 ds 0) f.pending.1 f.last) := by
  obtain ⟨hn₁, hr₁⟩ := @IStream.number_digits ℤ s ws ds _ ' ' toLong 0 hs hrest
    hws hds hne rfl _ (toLong_of_lt hlt)
  have hs₁ : (s.skip (ws.length + ds.length)).good = true := hs
  obtain ⟨hn₂, hr₂⟩ := @IStream.number_digits ℕ _ [' '] (pendingColumn f) _ ' '
    toUnsigned 0 hs₁ hr₁ isSpace_blank isDigit_pendingColumn
    (List.ne_nil_of_length_pos (by rw [length_pendingColumn]; decide)) rfl _
    toUnsigned_pending
  have hs₂ : ((s.skip (ws.length + ds.length)).skip
      ([' '].length + (pendingColumn f).length)).good = true := hs
  obtain ⟨hn₃, hr₃⟩ := @IStream.number_digits Bool _ [' '] [lastDigit f] _ ' '
    toBool false hs₂ hr₂ isSpace_blank
    (fun x hx => List.mem_singleton.mp hx ▸ isDigit_lastDigit)
    (List.cons_ne_nil _ _) rfl _ toBool_last
  have hs₃ : (((s.skip (ws.length + ds.length)).skip
      ([' '].length + (pendingColumn f).length)).skip
      ([' '].length + [lastDigit f].length)).good = true := hs
  have hn₄ := @IStream.char_of_rest _ [' '] r '|' hs₃ hr₃ isSpace_blank
    (by decide)
  rw [readSizeField_eq, hn₁]
  dsimp only
  rw [hn₂]
  dsimp only
  rw [hn₃]
  dsimp only
  rw [hn₄]
  simp only [IStream.skip_skip, length_pendingColumn, List.length_cons,
    List.length_nil, IStream.good_skip, hs, decide_true, Bool.and_self, if_true]

theorem read_fails₁ (h : (s.number toLong 0).1.good = false) :
    (readSizeField s).2 = .empty := by
  have h₄ := IStream.char_not_good (@IStream.number_not_good Bool _ toBool false
    (@IStream.number_not_good ℕ _ toUnsigned 0 h))
  rw [readSizeField_eq]
  simp only [h₄, Bool.false_and, Bool.false_eq_true, if_false]

theorem read_fails₂ {s₁ : IStream} {p : ℤ}
    (hn : s.number toLong 0 = (s₁, p))
    (h : (s₁.number toUnsigned 0).1.good = false) :
    (readSizeField s).2 = .empty := by
  have h₄ := IStream.char_not_good (@IStream.number_not_good Bool _ toBool false h)
  rw [readSizeField_eq, hn]
  simp only [h₄, Bool.false_and, Bool.false_eq_true, if_false]

theorem read_fails₃ {s₁ s₂ : IStream} {p : ℤ} {q : ℕ}
    (hn : s.number toLong 0 = (s₁, p)) (hn' : s₁.number toUnsigned 0 = (s₂, q))
    (h : (s₂.number toBool false).1.good = false) :
    (readSizeField s).2 = .empty := by
  have h₄ := IStream.char_not_good h
  rw [readSizeField_eq, hn]
  simp only [hn', h₄, Bool.false_and, Bool.false_eq_true, if_false]

theorem read_fails₄ {s₁ s₂ s₃ : IStream} {p : ℤ} {q : ℕ} {b : Bool}
    (hn : s.number toLong 0 = (s₁, p)) (hn' : s₁.number toUnsigned 0 = (s₂, q))
    (hn'' : s₂.number toBool false = (s₃, b)) (h : s₃.char.1.good = false) :
    (readSizeField s).2 = .empty := by
  rw [readSizeField_eq, hn]
  simp only [hn', hn'', h, Bool.false_and, Bool.false_eq_true, if_false]

/-- From the bar on there is no field. -/
theorem read_bar (hs : s.good = true) (hrest : s.rest = ws ++ '|' :: r)
    (hws : ∀ x ∈ ws, IStream.isSpace x = true) :
    (readSizeField s).2 = .empty :=
  read_fails₁ (IStream.number_stuck hs hrest hws (by decide) (by decide)
    (by decide) (by decide))

/-- Nor from the last digit on, which would be the position. -/
theorem read_last (hs : s.good = true)
    (hrest : s.rest = ws ++ ([lastDigit f] ++ ' ' :: '|' :: r))
    (hws : ∀ x ∈ ws, IStream.isSpace x = true) :
    (readSizeField s).2 = .empty := by
  have hlong : toLong false (Nat.ofDigitChars 10 [lastDigit f] 0) =
      some ((Nat.ofDigitChars 10 [lastDigit f] 0 : ℕ) : ℤ) := by
    rw [lastDigit]
    cases f.last <;> rfl
  obtain ⟨hn₁, hr₁⟩ := @IStream.number_digits ℤ s ws [lastDigit f] _ ' ' toLong 0
    hs hrest hws (fun x hx => List.mem_singleton.mp hx ▸ isDigit_lastDigit)
    (List.cons_ne_nil _ _) rfl _ hlong
  have hs₁ : (s.skip (ws.length + [lastDigit f].length)).good = true := hs
  exact read_fails₂ hn₁ (@IStream.number_stuck ℕ _ [' '] r '|' toUnsigned 0 hs₁
    hr₁ isSpace_blank (by decide) (by decide) (by decide) (by decide))

/-- Nor from the second column on: its digits would be the position, and the
bar the last value. -/
theorem read_pending (hs : s.good = true)
    (hrest : s.rest = ws ++ (ds ++ ' ' :: ([lastDigit f] ++ ' ' :: '|' :: r)))
    (hws : ∀ x ∈ ws, IStream.isSpace x = true)
    (hds : ∀ x ∈ ds, x.isDigit = true) (hne : ds ≠ [])
    (hlen : ds.length ≤ 10) : (readSizeField s).2 = .empty := by
  have hlt : Nat.ofDigitChars 10 ds 0 < 2 ^ 63 := by
    have hpow := Nat.pow_le_pow_right (show 0 < 10 by decide) hlen
    have hvalue := value_lt hds
    omega
  have hunsigned : toUnsigned false (Nat.ofDigitChars 10 [lastDigit f] 0) =
      some (Nat.ofDigitChars 10 [lastDigit f] 0) := by
    rw [lastDigit]
    cases f.last <;> rfl
  obtain ⟨hn₁, hr₁⟩ := @IStream.number_digits ℤ s ws ds _ ' ' toLong 0 hs hrest
    hws hds hne rfl _ (toLong_of_lt hlt)
  have hs₁ : (s.skip (ws.length + ds.length)).good = true := hs
  obtain ⟨hn₂, hr₂⟩ := @IStream.number_digits ℕ _ [' '] [lastDigit f] _ ' '
    toUnsigned 0 hs₁ hr₁ isSpace_blank
    (fun x hx => List.mem_singleton.mp hx ▸ isDigit_lastDigit)
    (List.cons_ne_nil _ _) rfl _ hunsigned
  have hs₂ : ((s.skip (ws.length + ds.length)).skip
      ([' '].length + [lastDigit f].length)).good = true := hs
  exact read_fails₃ hn₁ hn₂ (@IStream.number_stuck Bool _ [' '] r '|' toBool
    false hs₂ hr₂ isSpace_blank (by decide) (by decide) (by decide) (by decide))

/-- A part of a line is no field, behind the end of the line before it. -/
theorem read_torn {t : ℕ} (hs : s.good = true)
    (hrest : s.rest = '\n' :: f.sf.line.take t) (ht : t ≤ 34) :
    (readSizeField s).2 = .empty := by
  have htake : f.sf.line.take t = (positionColumn f).take t ++
      (' ' :: (pendingColumn f ++
        [' ', lastDigit f, ' ', '|', '\n'])).take (t - 20) := by
    rw [line_eq, List.take_append, length_positionColumn]
  by_cases h₁ : t ≤ 20
  · rw [htake, Nat.sub_eq_zero_of_le h₁, List.take_zero, List.append_nil] at hrest
    exact read_fails₁ (@IStream.number_last ℤ s ['\n'] _ toLong 0 hs hrest isSpace_newline
      fun x hx => isDigit_positionColumn x (List.mem_of_mem_take hx))
  obtain ⟨u, rfl⟩ : ∃ u, t = 21 + u := ⟨t - 21, by omega⟩
  have hsub : 21 + u - 20 = u + 1 := by omega
  have hfull : (positionColumn f).take (21 + u) = positionColumn f :=
    List.take_of_length_le (by rw [length_positionColumn]; omega)
  rw [htake, hsub, hfull, List.take_succ_cons, List.take_append,
    length_pendingColumn] at hrest
  have hlt : Nat.ofDigitChars 10 (positionColumn f) 0 < 2 ^ 63 := by
    rw [positionColumn, value_zeroFill]
    exact f.position.2
  obtain ⟨hn₁, hr₁⟩ := @IStream.number_digits ℤ s ['\n'] (positionColumn f) _ ' '
    toLong 0 hs hrest isSpace_newline isDigit_positionColumn
    (List.ne_nil_of_length_pos (by rw [length_positionColumn]; decide)) rfl _
    (toLong_of_lt hlt)
  have hs₁ : (s.skip (['\n'].length + (positionColumn f).length)).good = true := hs
  by_cases h₂ : u ≤ 10
  · rw [Nat.sub_eq_zero_of_le h₂, List.take_zero, List.append_nil] at hr₁
    exact read_fails₂ hn₁ (@IStream.number_last ℕ _ [' '] _ toUnsigned 0 hs₁ hr₁
      isSpace_blank fun x hx => isDigit_pendingColumn x (List.mem_of_mem_take hx))
  obtain ⟨v, rfl⟩ : ∃ v, u = 11 + v := ⟨u - 11, by omega⟩
  have hsub' : 11 + v - 10 = v + 1 := by omega
  have hfull' : (pendingColumn f).take (11 + v) = pendingColumn f :=
    List.take_of_length_le (by rw [length_pendingColumn]; omega)
  rw [hsub', hfull', List.take_succ_cons] at hr₁
  obtain ⟨hn₂, hr₂⟩ := @IStream.number_digits ℕ _ [' '] (pendingColumn f) _ ' '
    toUnsigned 0 hs₁ hr₁ isSpace_blank isDigit_pendingColumn
    (List.ne_nil_of_length_pos (by rw [length_pendingColumn]; decide)) rfl _
    toUnsigned_pending
  have hs₂ : ((s.skip (['\n'].length + (positionColumn f).length)).skip
      ([' '].length + (pendingColumn f).length)).good = true := hs
  have hlast : ∀ x ∈ [lastDigit f], x.isDigit = true := fun x hx =>
    List.mem_singleton.mp hx ▸ isDigit_lastDigit
  have hv : v = 0 ∨ v = 1 ∨ v = 2 := by omega
  rcases hv with rfl | rfl | rfl
  · exact read_fails₃ hn₁ hn₂ (@IStream.number_last Bool _ [' '] [] toBool false
      hs₂ hr₂ isSpace_blank fun x hx => (by cases hx))
  · exact read_fails₃ hn₁ hn₂ (@IStream.number_last Bool _ [' '] [lastDigit f]
      toBool false hs₂ hr₂ isSpace_blank hlast)
  · obtain ⟨hn₃, hr₃⟩ := @IStream.number_digits Bool _ [' '] [lastDigit f] [] ' '
      toBool false hs₂ hr₂ isSpace_blank hlast (List.cons_ne_nil _ _) rfl _
      toBool_last
    refine read_fails₄ hn₁ hn₂ hn₃ (IStream.char_blank hs ?_)
    rw [hr₃]
    exact isSpace_blank

end

/-! ## The file -/

/-- A stream that has come to a position. -/
def at_ (file : Text) (pos : ℕ) : IStream := ⟨file, pos, false, false⟩

section
variable {file pre : Text} {f g : Field} {r : Text}

theorem rest_at (x : Text) : (at_ (pre ++ x) pre.length).rest = x := by
  rw [IStream.rest]
  exact List.drop_left

theorem good_at {pos : ℕ} : (at_ file pos).good = true := rfl

/-- Reading from inside a line. In its first column the value is what its last
digits say. -/
theorem read_at_line {t : ℕ} (ht : t ≤ 34) :
    (readSizeField (at_ (pre ++ (g.sf.line ++ r)) (pre.length + t))).2 =
      if t ≤ 19 then
        .of ((g.position.1 % 10 ^ (20 - t) : ℕ) : ℤ) g.pending.1 g.last
      else .empty := by
  have hp := @length_positionColumn g
  have hq := @length_pendingColumn g
  have hline : g.sf.line ++ r = positionColumn g ++ ' ' :: (pendingColumn g ++
      ' ' :: lastDigit g :: ' ' :: '|' :: '\n' :: r) := by
    rw [line_eq]
    simp
  have hrest : (at_ (pre ++ (g.sf.line ++ r)) (pre.length + t)).rest =
      (positionColumn g ++ ' ' :: (pendingColumn g ++
        ' ' :: lastDigit g :: ' ' :: '|' :: '\n' :: r)).drop t := by
    rw [← hline]
    exact List.drop_length_add_append _
  by_cases h₁ : t ≤ 19
  · rw [List.drop_append_of_le_length (by omega)] at hrest
    have hvalue : Nat.ofDigitChars 10 ((positionColumn g).drop t) 0 =
        g.position.1 % 10 ^ (20 - t) := by
      rw [value_drop isDigit_positionColumn, hp, positionColumn, value_zeroFill]
    rw [if_pos h₁, read_field good_at hrest isSpace_none
      (fun x hx => isDigit_positionColumn x (List.mem_of_mem_drop hx))
      (List.ne_nil_of_length_pos (by rw [List.length_drop, hp]; omega))
      (by rw [hvalue]; exact Nat.lt_of_le_of_lt (Nat.mod_le _ _) g.position.2),
      hvalue]
  rw [if_neg h₁]
  obtain ⟨j, rfl⟩ : ∃ j, t = (positionColumn g).length + j :=
    ⟨t - 20, by omega⟩
  rw [List.drop_length_add_append] at hrest
  cases j with
  | zero =>
      exact read_pending good_at hrest isSpace_blank isDigit_pendingColumn
        (List.ne_nil_of_length_pos (by rw [hq]; decide)) (by rw [hq])
  | succ i =>
      rw [List.drop_succ_cons] at hrest
      by_cases h₂ : i ≤ 9
      · rw [List.drop_append_of_le_length (by omega)] at hrest
        exact read_pending good_at hrest isSpace_none
          (fun x hx => isDigit_pendingColumn x (List.mem_of_mem_drop hx))
          (List.ne_nil_of_length_pos (by rw [List.length_drop, hq]; omega))
          (by rw [List.length_drop, hq]; omega)
      obtain ⟨k, rfl⟩ : ∃ k, i = (pendingColumn g).length + k :=
        ⟨i - 10, by omega⟩
      rw [List.drop_length_add_append] at hrest
      have hk : k = 0 ∨ k = 1 ∨ k = 2 ∨ k = 3 := by omega
      rcases hk with rfl | rfl | rfl | rfl
      · exact @read_last _ g [' '] _ good_at hrest isSpace_blank
      · exact @read_last _ g [] _ good_at hrest isSpace_none
      · exact @read_bar _ [' '] _ good_at hrest isSpace_blank
      · exact @read_bar _ [] _ good_at hrest isSpace_none

/-- Reading from the end of a line on, where another is behind it. -/
theorem read_at_newline :
    readSizeField (at_ (pre ++ '\n' :: (g.sf.text ++ r)) pre.length) =
      (at_ (pre ++ '\n' :: (g.sf.text ++ r)) (pre.length + 36), g.sf) := by
  have hline : '\n' :: (g.sf.text ++ r) = ['\n'] ++ (positionColumn g ++
      ' ' :: (pendingColumn g ++ ' ' :: lastDigit g :: ' ' :: '|' :: r)) := by
    rw [text_eq]
    simp
  have hrest : (at_ (pre ++ '\n' :: (g.sf.text ++ r)) pre.length).rest =
      ['\n'] ++ (positionColumn g ++
        ' ' :: (pendingColumn g ++ ' ' :: lastDigit g :: ' ' :: '|' :: r)) :=
    (rest_at _).trans hline
  have hvalue : Nat.ofDigitChars 10 (positionColumn g) 0 = g.position.1 := by
    rw [positionColumn, value_zeroFill]
  rw [read_field good_at hrest isSpace_newline isDigit_positionColumn
    (List.ne_nil_of_length_pos (by rw [length_positionColumn]; decide))
    (by rw [hvalue]; exact g.position.2), hvalue, length_positionColumn]
  rfl

theorem seekg_good {s : IStream} (hs : s.good = true) (pos : ℕ) :
    s.seekg pos = at_ s.text pos := by
  rw [IStream.good, Bool.and_eq_true_iff, Bool.not_eq_true',
    Bool.not_eq_true'] at hs
  rw [IStream.seekg, hs.2, if_neg Bool.false_ne_true, at_, hs.1]

theorem text_readSizeField {s : IStream} : (readSizeField s).1.text = s.text := by
  rw [readSizeField_eq]
  dsimp only
  split <;> simp

theorem good_readSizeField {s : IStream} (h : (readSizeField s).2.good = true) :
    (readSizeField s).1.good = true := by
  rw [readSizeField_eq] at h ⊢
  dsimp only at h ⊢
  split at h
  · rename_i hc
    rw [if_pos hc]
    exact (Bool.and_eq_true_iff.mp hc).1
  · cases h

/-- The stream that the search goes on with. -/
theorem good_cleared (s : IStream) :
    (if s.good then s else s.clear).good = true ∧
      (if s.good then s else s.clear).text = s.text := by
  split
  · exact ⟨‹_›, rfl⟩
  · exact ⟨rfl, rfl⟩

theorem lastGood_hit {s : IStream} {headerSize n : ℕ} (hs : s.good = true)
    (h : (readSizeField
      (at_ s.text (headerSize + (n + 1) * (dimension + 1)))).2.good = true) :
    lastGood headerSize (n + 1) s = some
      ((readSizeField (at_ s.text (headerSize + (n + 1) * (dimension + 1)))).2,
        (readSizeField
          (at_ s.text (headerSize + (n + 1) * (dimension + 1)))).1.pos) := by
  rw [lastGood, seekg_good hs]
  simp only [h, good_readSizeField h, Bool.and_self, if_true]

theorem lastGood_miss {s : IStream} {headerSize n : ℕ} (hs : s.good = true)
    (h : (readSizeField
      (at_ s.text (headerSize + (n + 1) * (dimension + 1)))).2.good = false) :
    ∃ s', s'.good = true ∧ s'.text = s.text ∧
      lastGood headerSize (n + 1) s = lastGood headerSize n s' := by
  rw [lastGood, seekg_good hs]
  simp only [h, Bool.false_and, Bool.false_eq_true, if_false]
  obtain ⟨hgood, htext⟩ := good_cleared
    (readSizeField (at_ s.text (headerSize + (n + 1) * (dimension + 1)))).1
  exact ⟨_, hgood, htext.trans text_readSizeField, rfl⟩

end

/-! ## The header -/

/-- A header: none of its lines ends it. -/
structure Header where
  lines : List Text
  ne : lines ≠ []
  plain : ∀ l ∈ lines, '\n' ∉ l ∧ l ≠ dots

/-- The lines of the header, with their ends. -/
def Header.block (h : Header) : Text := h.lines.flatMap (· ++ ['\n'])

/-- The header without the end of its last line. -/
def Header.text (h : Header) : Text := h.block.dropLast

/-- All that stands before the first field. -/
def Header.top (h : Header) : Text := h.block ++ dots ++ ['\n']

section
variable {h : Header}

theorem block_ends {ls : List Text} (hne : ls ≠ []) :
    ∃ x : Text, ls.flatMap (· ++ ['\n']) = x ++ ['\n'] := by
  induction ls with
  | nil => exact absurd rfl hne
  | cons l rest ih =>
      by_cases hrest : rest = []
      · refine ⟨l, ?_⟩
        rw [hrest, List.flatMap_cons, List.flatMap_nil, List.append_nil]
      · obtain ⟨x, hx⟩ := ih hrest
        refine ⟨l ++ ['\n'] ++ x, ?_⟩
        rw [List.flatMap_cons, hx, List.append_assoc _ x]

theorem block_eq : h.block = h.text ++ ['\n'] := by
  obtain ⟨x, hx⟩ := block_ends h.ne
  rw [Header.text, Header.block, hx, List.dropLast_concat]

theorem length_top : h.top.length = h.text.length + 5 := by
  rw [Header.top, block_eq]
  simp [dots]

theorem readHeaderLines_eq {ls : List Text} {n : ℕ} {s : IStream} {acc r : Text}
    (hs : s.good = true)
    (hrest : s.rest = ls.flatMap (· ++ ['\n']) ++ (dots ++ '\n' :: r))
    (hplain : ∀ l ∈ ls, '\n' ∉ l ∧ l ≠ dots) (hn : ls.length < n) :
    ∃ s', s'.good = true ∧ s'.text = s.text ∧ readHeaderLines n s acc =
      (s', ⟨true, (acc ++ ls.flatMap (· ++ ['\n'])).dropLast⟩) := by
  induction ls generalizing n s acc with
  | nil =>
      obtain ⟨n, rfl⟩ : ∃ m, n = m + 1 := ⟨n - 1, by omega⟩
      obtain ⟨hline, -⟩ := IStream.getline_of_rest hs hrest (by decide)
      rw [readHeaderLines, hline]
      simp only [if_true, List.flatMap_nil, List.append_nil]
      exact ⟨s.skip (dots.length + 1), hs, rfl, rfl⟩
  | cons l rest ih =>
      obtain ⟨n, rfl⟩ : ∃ m, n = m + 1 := ⟨n - 1, by omega⟩
      obtain ⟨hnl, hdots⟩ := hplain l List.mem_cons_self
      rw [List.flatMap_cons, List.append_assoc, List.append_assoc] at hrest
      obtain ⟨hline, hr⟩ := IStream.getline_of_rest hs hrest hnl
      rw [readHeaderLines, hline]
      have hs' : (s.skip (l.length + 1)).good = true := hs
      simp only [if_neg hdots, hs', if_true]
      obtain ⟨s', hgood, htext, heq⟩ := @ih n _ (acc ++ l ++ ['\n']) hs' hr
        (fun l' hl' => hplain l' (List.mem_cons_of_mem l hl'))
        (Nat.lt_of_succ_lt_succ hn)
      refine ⟨s', hgood, htext, ?_⟩
      rw [heq, List.flatMap_cons]
      simp only [List.append_assoc]

theorem length_le_block {ls : List Text} :
    ls.length ≤ (ls.flatMap (· ++ ['\n'])).length := by
  induction ls with
  | nil => exact Nat.le_refl 0
  | cons l rest ih =>
      rw [List.flatMap_cons, List.length_append, List.length_append,
        List.length_cons, List.length_cons]
      omega

theorem readHeader_eq (x : Text) :
    ∃ s, s.good = true ∧ s.text = h.top ++ x ∧
      readHeader (IStream.ofText (h.top ++ x)) = (s, ⟨true, h.text⟩) := by
  have hlines : h.lines.length ≤ h.block.length := length_le_block
  have hfuel : h.lines.length < (h.top ++ x).length + 1 := by
    rw [Header.top, List.length_append, List.length_append, List.length_append]
    omega
  have hrest : (IStream.ofText (h.top ++ x)).rest =
      h.lines.flatMap (· ++ ['\n']) ++ (dots ++ '\n' :: x) := by
    change (h.top ++ x).drop 0 = _
    rw [List.drop_zero, Header.top, Header.block]
    simp
  exact @readHeaderLines_eq h.lines _ (IStream.ofText (h.top ++ x)) [] x rfl hrest
    h.plain hfuel

end

/-! ## Opening and appending -/

/-- A file, by its header and its fields. -/
def image (h : Header) (fs : List Field) : Text :=
  h.top ++ fs.flatMap (·.sf.line)

/-- What is read of a header. -/
def Header.read (h : Header) : SizeHeader := ⟨true, h.text⟩

/-- What an update makes of a field. -/
def Update.next (u : Update) (f : Field) : Field :=
  match u with
  | .position p => { f with position := p }
  | .pending q => { f with pending := q }
  | .last b => { f with last := b }
  | .all p q b => ⟨p, q, b⟩

/-- The object at a place where it may write: what it overwrites is shorter
than a line. -/
structure Ready (h : Header) (pre : Text) (g : Field) (s : SizeFile) : Prop where
  good : s.good = true
  header : s.header = h.read
  current : s.current = g.sf
  stash : s.stashPos = some (h.top ++ pre).length
  before : s.file.take (h.top ++ pre).length = h.top ++ pre
  short : s.file.length ≤ (h.top ++ pre).length + 36

section
variable {h : Header} {pre x : Text} {f g : Field} {s : SizeFile} {u : Update}
  {junk : SizeField} {c : Char} {cs : Text}

theorem apply_next : u.apply g.sf = (u.next g).sf := by
  cases u <;> rfl

/-- One update: the field ends the file. -/
theorem update_ready (hs : Ready h pre g s) :
    Ready h (pre ++ (u.next g).sf.line) (u.next g) (s.update u) ∧
      (s.update u).file = h.top ++ pre ++ (u.next g).sf.line := by
  have hreopen : s.reopenFile = s := by
    rw [SizeFile.reopenFile, hs.stash, Option.isSome_some, ← hs.good,
      ← hs.stash]
  have hfile : writeAt s.file (h.top ++ pre).length (u.next g).sf.line =
      h.top ++ pre ++ (u.next g).sf.line := by
    rw [writeAt, hs.before, List.drop_eq_nil_of_le, List.append_nil]
    rw [length_line]
    exact hs.short
  have hupdate : s.update u = { s with
      good := true
      current := (u.next g).sf
      file := h.top ++ pre ++ (u.next g).sf.line
      stashPos :=
        some ((h.top ++ pre).length + (u.next g).sf.line.length) } := by
    rw [SizeFile.update, hreopen]
    simp only [hs.good, if_true]
    rw [SizeFile.dumpField]
    simp only [hs.stash, hs.current, apply_next, hfile]
  have hlen : (h.top ++ (pre ++ (u.next g).sf.line)).length =
      (h.top ++ pre).length + (u.next g).sf.line.length := by
    rw [← List.append_assoc, List.length_append]
  have htake : (h.top ++ pre ++ (u.next g).sf.line).take
      (h.top ++ (pre ++ (u.next g).sf.line)).length =
        h.top ++ (pre ++ (u.next g).sf.line) := by
    rw [List.append_assoc, List.take_length]
  constructor
  · rw [hupdate]
    refine ⟨rfl, hs.header, rfl, ?_, htake, ?_⟩
    · rw [hlen]
    · rw [hlen, List.length_append]
      omega
  · rw [hupdate]

/-- What was appended last is what the file ends with. -/
theorem updates_end {us : List Update} (hs : Ready h pre g s) (hne : us ≠ []) :
    ∃ pre' f, (s.updates us).current = Field.sf f ∧
      (s.updates us).file = h.top ++ pre' ++ f.sf.line := by
  induction us generalizing s pre g with
  | nil => exact absurd rfl hne
  | cons u rest ih =>
      by_cases hrest : rest = []
      · obtain ⟨hready, hfile⟩ := update_ready (u := u) hs
        rw [hrest]
        exact ⟨pre, u.next g, hready.current, hfile⟩
      · exact ih (update_ready hs).1 hrest

theorem openExisting_eq {file : Text} :
    openFile junk (c :: cs) false (h.top ++ file) =
      (⟨true, none, ⟨false, []⟩, .empty, h.top ++ file⟩ : SizeFile).openExisting
        junk := by
  have hne : h.top ++ file ≠ [] := by
    rw [Header.top]
    simp [dots]
  rw [openFile, if_neg (List.cons_ne_nil c cs), if_neg Bool.false_ne_true,
    if_neg hne]

theorem seekg_field {file : Text} {s : IStream} (hgood : s.good = true)
    (htext : s.text = h.top ++ file) (hlen : 36 ≤ (h.top ++ file).length) :
    s.seekgEnd (dimension + 1) =
        at_ (h.top ++ file) ((h.top ++ file).length - 36) ∧
      s.eof = false := by
  rw [IStream.good, Bool.and_eq_true_iff, Bool.not_eq_true',
    Bool.not_eq_true'] at hgood
  refine ⟨?_, hgood.1⟩
  rw [IStream.seekgEnd, hgood.2, if_neg Bool.false_ne_true, htext, if_neg,
    at_, hgood.1]
  · rfl
  · rw [dimension, sizeofLong, sizeofUnsigned]
    omega

theorem length_of_file {file : Text} (hlen : 36 ≤ file.length) :
    36 ≤ (h.top ++ file).length := by
  rw [List.length_append]
  omega

/-- A good field 36 characters from the end is taken. -/
theorem open_reads {file : Text} (hlen : 36 ≤ (h.top ++ file).length)
    {field : SizeField} (hfield : field.good = true)
    (hread : (readSizeField
      (at_ (h.top ++ file) ((h.top ++ file).length - 36))).2 = field) :
    openFile junk (c :: cs) false (h.top ++ file) =
      ⟨true, some (h.top ++ file).length, h.read, field, h.top ++ file⟩ := by
  obtain ⟨s, hgood, htext, hheader⟩ := readHeader_eq (h := h) file
  obtain ⟨hseek, heof⟩ := seekg_field hgood htext hlen
  have hfield : (readSizeField
      (at_ (h.top ++ file) ((h.top ++ file).length - 36))).2.good = true := by
    rw [hread]
    exact hfield
  rw [openExisting_eq, SizeFile.openExisting, hheader]
  simp only [heof, Bool.not_false, Bool.and_self, if_true, hseek, hfield,
    good_readSizeField hfield]
  rw [hread]
  rfl

/-- None there: the search over the grid begins. -/
theorem open_recovers {file : Text} (hlen : 36 ≤ (h.top ++ file).length)
    (hread : (readSizeField
      (at_ (h.top ++ file) ((h.top ++ file).length - 36))).2.good = false) :
    ∃ s, s.good = true ∧ s.text = h.top ++ file ∧
      openFile junk (c :: cs) false (h.top ++ file) =
        (⟨true, none, h.read, .empty, h.top ++ file⟩ : SizeFile).recover s := by
  obtain ⟨s, hgood, htext, hheader⟩ := readHeader_eq (h := h) file
  obtain ⟨hseek, heof⟩ := seekg_field hgood htext hlen
  obtain ⟨hcleared, htext'⟩ := good_cleared
    (readSizeField (at_ (h.top ++ file) ((h.top ++ file).length - 36))).1
  refine ⟨_, hcleared, htext'.trans text_readSizeField, ?_⟩
  rw [openExisting_eq, SizeFile.openExisting, hheader]
  simp only [heof, Bool.not_false, Bool.and_self, if_true, hseek, hread,
    Bool.false_and, Bool.false_eq_true, if_false]
  rfl

/-- A file that ends with a field. -/
theorem open_end : openFile junk (c :: cs) false (h.top ++ (pre ++ f.sf.line)) =
    ⟨true, some (h.top ++ (pre ++ f.sf.line)).length, h.read, f.sf,
      h.top ++ (pre ++ f.sf.line)⟩ := by
  have hlen : 36 ≤ (pre ++ f.sf.line).length := by
    rw [List.length_append, length_line]
    omega
  refine open_reads (length_of_file hlen) rfl ?_
  have hpos : (h.top ++ (pre ++ f.sf.line)).length - 36 =
      (h.top ++ pre).length + 0 := by
    rw [List.length_append, List.length_append, length_line, List.length_append]
    omega
  have hread := @read_at_line (h.top ++ pre) f [] 0 (by decide)
  rw [List.append_nil] at hread
  rw [hpos, ← List.append_assoc, hread, if_pos (by decide),
    Nat.mod_eq_of_lt (Nat.lt_trans f.position.2 (by decide))]
  rfl

theorem open_end_ready :
    Ready h (pre ++ f.sf.line) f
      (openFile junk (c :: cs) false (h.top ++ (pre ++ f.sf.line))) := by
  rw [open_end]
  refine ⟨rfl, rfl, rfl, rfl, ?_, ?_⟩
  · exact List.take_length
  · exact Nat.le_add_right _ 36

/-- After the appends of a ready object, another one reads what it holds. -/
theorem appended_read {us : List Update} (hs : Ready h pre g s) (hne : us ≠ []) :
    (openFile junk (c :: cs) false (s.updates us).file).good = true ∧
      (openFile junk (c :: cs) false (s.updates us).file).current =
        (s.updates us).current := by
  obtain ⟨pre', f, hcurrent, hfile⟩ := updates_end hs hne
  rw [hfile, List.append_assoc, open_end, hcurrent]
  exact ⟨rfl, rfl⟩

/-! ## The torn file -/

/-- The field without its first digits. -/
def Field.cut (t : ℕ) (g : Field) : Field :=
  { g with position := ⟨g.position.1 % 10 ^ (20 - t),
      Nat.lt_of_le_of_lt (Nat.mod_le _ _) g.position.2⟩ }

theorem length_lines {fs : List Field} :
    (fs.flatMap (·.sf.line)).length = 36 * fs.length := by
  induction fs with
  | nil => rfl
  | cons f rest ih =>
      rw [List.flatMap_cons, List.length_append, length_line, ih,
        List.length_cons]
      omega

theorem length_take_line {t : ℕ} (ht : t ≤ 36) :
    (f.sf.line.take t).length = t := by
  rw [List.length_take, length_line, Nat.min_eq_left ht]

/-- Torn inside the first column. -/
theorem open_torn_position {t : ℕ} (ht : t ≤ 19) :
    openFile junk (c :: cs) false
        (h.top ++ (pre ++ g.sf.line ++ f.sf.line.take t)) =
      ⟨true, some (h.top ++ (pre ++ g.sf.line ++ f.sf.line.take t)).length,
        h.read, (g.cut t).sf, h.top ++ (pre ++ g.sf.line ++ f.sf.line.take t)⟩ := by
  have hlen := @length_take_line f t (by omega)
  refine open_reads (length_of_file ?_) rfl ?_
  · rw [List.length_append, List.length_append, length_line]
    omega
  have hpos : (h.top ++ (pre ++ g.sf.line ++ f.sf.line.take t)).length - 36 =
      (h.top ++ pre).length + t := by
    simp only [List.length_append, length_line, hlen]
    omega
  have hfile : h.top ++ (pre ++ g.sf.line ++ f.sf.line.take t) =
      (h.top ++ pre) ++ (g.sf.line ++ f.sf.line.take t) := by
    simp only [List.append_assoc]
  rw [hpos, hfile, read_at_line (by omega), if_pos ht]
  rfl

/-- Torn between the bar and the end of the line. -/
theorem open_torn_newline :
    openFile junk (c :: cs) false
        (h.top ++ (pre ++ g.sf.line ++ f.sf.line.take 35)) =
      ⟨true, some (h.top ++ (pre ++ g.sf.line ++ f.sf.line.take 35)).length,
        h.read, f.sf, h.top ++ (pre ++ g.sf.line ++ f.sf.line.take 35)⟩ := by
  have hlen := @length_text f
  have htake : f.sf.line.take 35 = f.sf.text := by
    rw [SizeField.line, ← hlen, List.take_left]
  rw [htake]
  have hfile : h.top ++ (pre ++ g.sf.line ++ f.sf.text) =
      (h.top ++ (pre ++ g.sf.text)) ++ '\n' :: (f.sf.text ++ []) := by
    rw [SizeField.line]
    simp
  have hpos : (h.top ++ (pre ++ g.sf.line ++ f.sf.text)).length - 36 =
      (h.top ++ (pre ++ g.sf.text)).length := by
    rw [hfile]
    simp only [List.length_append, List.length_cons, List.length_nil, hlen]
    omega
  refine open_reads (length_of_file ?_) rfl ?_
  · rw [List.length_append, List.length_append, length_line]
    omega
  · rw [hpos, hfile, read_at_newline]

theorem size_read : h.read.size + 1 = h.top.length := by
  rw [length_top]
  rfl

/-- Torn behind the first column: the last line cannot be read, nor the torn
one, so the search begins with the line that is torn. -/
theorem open_torn_search {fs : List Field} {t : ℕ} (ht : 20 ≤ t ∧ t ≤ 34) :
    ∃ s, s.good = true ∧
      s.text = h.top ++ (fs.flatMap (·.sf.line) ++ g.sf.line ++
        f.sf.line.take t) ∧
      (∀ field position,
        lastGood h.read.size fs.length s = some (field, position) →
        openFile junk (c :: cs) false (h.top ++ (fs.flatMap (·.sf.line) ++
          g.sf.line ++ f.sf.line.take t)) =
        ⟨true, some position, h.read, field, h.top ++
          (fs.flatMap (·.sf.line) ++ g.sf.line ++ f.sf.line.take t)⟩) ∧
      (lastGood h.read.size fs.length s = none →
        openFile junk (c :: cs) false (h.top ++ (fs.flatMap (·.sf.line) ++
          g.sf.line ++ f.sf.line.take t)) =
        (⟨true, none, h.read, .empty, h.top ++ (fs.flatMap (·.sf.line) ++
          g.sf.line ++ f.sf.line.take t)⟩ : SizeFile).restart) := by
  have hlen := @length_take_line f t (by omega)
  have hlines := @length_lines fs
  have hsize := @size_read h
  have htext := @length_text g
  have hpos : (h.top ++ (fs.flatMap (·.sf.line) ++ g.sf.line ++
      f.sf.line.take t)).length - 36 =
        (h.top ++ fs.flatMap (·.sf.line)).length + t := by
    simp only [List.length_append, length_line, hlen]
    omega
  have hfile : h.top ++ (fs.flatMap (·.sf.line) ++ g.sf.line ++
      f.sf.line.take t) = (h.top ++ fs.flatMap (·.sf.line)) ++
        (g.sf.line ++ f.sf.line.take t) := by
    simp only [List.append_assoc]
  have hread : (readSizeField (at_ (h.top ++ (fs.flatMap (·.sf.line) ++
      g.sf.line ++ f.sf.line.take t)) ((h.top ++ (fs.flatMap (·.sf.line) ++
        g.sf.line ++ f.sf.line.take t)).length - 36))).2 = .empty := by
    rw [hpos, hfile, read_at_line ht.2, if_neg (by omega)]
  obtain ⟨s, hgood, hs, hopen⟩ := @open_recovers h junk c cs
    (fs.flatMap (·.sf.line) ++ g.sf.line ++ f.sf.line.take t)
    (length_of_file (by
      rw [List.length_append, List.length_append, length_line]
      omega))
    (by rw [hread]; rfl)
  have hnumber : ((h.top ++ (fs.flatMap (·.sf.line) ++ g.sf.line ++
      f.sf.line.take t)).length - h.read.size) / (dimension + 1) =
        fs.length + 1 := by
    simp only [List.length_append, length_line, hlen, hlines, dimension,
      sizeofLong, sizeofUnsigned]
    omega
  have hgrid : h.read.size + (fs.length + 1) * (dimension + 1) =
      (h.top ++ (fs.flatMap (·.sf.line) ++ g.sf.text)).length := by
    simp only [List.length_append, hlines, htext, dimension, sizeofLong,
      sizeofUnsigned]
    omega
  have htorn : (readSizeField (at_ s.text
      (h.read.size + (fs.length + 1) * (dimension + 1)))).2.good = false := by
    have hsplit : s.text = (h.top ++ (fs.flatMap (·.sf.line) ++ g.sf.text)) ++
        '\n' :: f.sf.line.take t := by
      rw [hs]
      rw [show g.sf.line = g.sf.text ++ ['\n'] from rfl]
      simp only [List.append_assoc, List.cons_append, List.nil_append]
    rw [hgrid, hsplit, read_torn good_at (rest_at _) ht.2]
    rfl
  obtain ⟨s', hgood', hs', hmiss⟩ := lastGood_miss hgood htorn
  refine ⟨s', hgood', hs'.trans hs, fun field position hfound => ?_,
    fun hnone => ?_⟩
  · rw [hopen, SizeFile.recover]
    simp only [hnumber, hmiss, hfound]
  · rw [hopen, SizeFile.recover]
    simp only [hnumber, hmiss, hnone]

/-- A single field is lost, and the object starts again. -/
theorem open_torn_single {t : ℕ} (ht : 20 ≤ t ∧ t ≤ 34) :
    openFile junk (c :: cs) false
        (h.top ++ (g.sf.line ++ f.sf.line.take t)) =
      openFile junk (c :: cs) false (h.top ++ ([] ++ Field.zero.sf.line)) := by
  obtain ⟨s, -, -, -, hopen⟩ := @open_torn_search h f g junk c cs [] t ht
  have hsearch := hopen rfl
  rw [List.flatMap_nil, List.nil_append] at hsearch
  have htop : h.text ++ '\n' :: dots ++ '\n' :: Field.zero.sf.line =
      h.top ++ ([] ++ Field.zero.sf.line) := by
    rw [Header.top, block_eq]
    simp
  rw [open_end, hsearch, SizeFile.restart, SizeFile.newSizeFile]
  simp only [Header.read, if_true, SizeHeader.text]
  rw [show SizeField.of 0 0 false = Field.zero.sf from rfl, htop]

/-- With a field before the last one, the last one is found. What comes next is
written over the end of its line. -/
theorem open_torn_several {fs : List Field} {e : Field} {t : ℕ}
    (ht : 20 ≤ t ∧ t ≤ 34) :
    openFile junk (c :: cs) false (h.top ++ ((fs ++ [e]).flatMap (·.sf.line) ++
        g.sf.line ++ f.sf.line.take t)) =
      ⟨true, some (h.top ++
          ((fs ++ [e]).flatMap (·.sf.line) ++ g.sf.text)).length,
        h.read, g.sf, h.top ++ ((fs ++ [e]).flatMap (·.sf.line) ++
          g.sf.line ++ f.sf.line.take t)⟩ := by
  have hlines := @length_lines fs
  have hsize := @size_read h
  have hline := @length_line e
  obtain ⟨s, hgood, hs, hopen, -⟩ :=
    @open_torn_search h f g junk c cs (fs ++ [e]) t ht
  have hgrid : h.read.size + (fs.length + 1) * (dimension + 1) =
      (h.top ++ (fs.flatMap (·.sf.line) ++ e.sf.text)).length := by
    simp only [List.length_append, hlines, length_text, dimension, sizeofLong,
      sizeofUnsigned]
    omega
  have hsplit : s.text = (h.top ++ (fs.flatMap (·.sf.line) ++ e.sf.text)) ++
      '\n' :: (g.sf.text ++ '\n' :: f.sf.line.take t) := by
    rw [hs, List.flatMap_append, List.flatMap_cons, List.flatMap_nil,
      show g.sf.line = g.sf.text ++ ['\n'] from rfl,
      show e.sf.line = e.sf.text ++ ['\n'] from rfl]
    simp only [List.append_assoc, List.cons_append, List.nil_append]
  have hread : readSizeField (at_ s.text
      (h.read.size + (fs.length + 1) * (dimension + 1))) =
        (at_ s.text (h.read.size + (fs.length + 1) * (dimension + 1) + 36),
          g.sf) := by
    rw [hgrid, hsplit, read_at_newline]
  have hhit := lastGood_hit (n := fs.length) hgood (by rw [hread]; rfl)
  have hpos : h.read.size + (fs.length + 1) * (dimension + 1) + 36 =
      (h.top ++ ((fs ++ [e]).flatMap (·.sf.line) ++ g.sf.text)).length := by
    rw [hgrid]
    simp only [List.length_append, List.flatMap_append, List.flatMap_cons,
      List.flatMap_nil, List.length_nil, length_text, hline]
    omega
  rw [hread] at hhit
  rw [List.length_append, List.length_cons, List.length_nil,
    Nat.zero_add] at hopen
  rw [hopen _ _ hhit, ← hpos]
  rfl

/-- What a torn file is read as, with `fs` and `g` its complete lines. -/
def found (fs : List Field) (g f : Field) (t : ℕ) : Field :=
  if t ≤ 19 then g.cut t
  else if t ≤ 34 then if fs = [] then .zero else g
  else f

theorem open_torn (fs : List Field) {t : ℕ} (ht : t < 36) :
    ∃ pre, Ready h pre (found fs g f t)
      (openFile junk (c :: cs) false
        (h.top ++ (fs.flatMap (·.sf.line) ++ g.sf.line ++ f.sf.line.take t))) ∧
      ∀ junk', (openFile junk' (c :: cs) false (openFile junk (c :: cs) false
        (h.top ++ (fs.flatMap (·.sf.line) ++ g.sf.line ++
          f.sf.line.take t))).file).good = true ∧
        (openFile junk' (c :: cs) false (openFile junk (c :: cs) false
          (h.top ++ (fs.flatMap (·.sf.line) ++ g.sf.line ++
            f.sf.line.take t))).file).current = (found fs g f t).sf := by
  have hlen := @length_take_line f t (by omega)
  rw [found]
  by_cases h₁ : t ≤ 19
  · rw [if_pos h₁, open_torn_position h₁]
    refine ⟨_, ⟨rfl, rfl, rfl, rfl, List.take_length, Nat.le_add_right _ 36⟩,
      fun junk' => ?_⟩
    rw [open_torn_position h₁]
    exact ⟨rfl, rfl⟩
  rw [if_neg h₁]
  by_cases h₂ : t ≤ 34
  · rw [if_pos h₂]
    rcases List.eq_nil_or_concat fs with rfl | ⟨ls, e, rfl⟩
    · rw [List.flatMap_nil, List.nil_append, open_torn_single ⟨by omega, h₂⟩,
        if_pos rfl]
      refine ⟨_, open_end_ready, fun junk' => ?_⟩
      rw [open_end, open_end]
      exact ⟨rfl, rfl⟩
    · rw [List.concat_eq_append, open_torn_several ⟨by omega, h₂⟩,
        if_neg (by simp)]
      refine ⟨_, ⟨rfl, rfl, rfl, rfl, ?_, ?_⟩, fun junk' => ?_⟩
      · rw [show g.sf.line = g.sf.text ++ ['\n'] from rfl]
        simp only [← List.append_assoc]
        rw [List.append_assoc _ ['\n']]
        exact List.take_left
      · simp only [List.length_append, length_line, hlen, length_text]
        omega
      · rw [open_torn_several ⟨by omega, h₂⟩]
        exact ⟨rfl, rfl⟩
  · obtain rfl : t = 35 := by omega
    rw [if_neg h₂, open_torn_newline]
    refine ⟨_, ⟨rfl, rfl, rfl, rfl, List.take_length, Nat.le_add_right _ 36⟩,
      fun junk' => ?_⟩
    rw [open_torn_newline]
    exact ⟨rfl, rfl⟩

/-! ## Runs of updates -/

/-- The object and a file that holds these fields, `g` the last of them. -/
structure Written (h : Header) (fs : List Field) (g : Field) (s : SizeFile) :
    Prop where
  ready : Ready h ((fs ++ [g]).flatMap (·.sf.line)) g s
  file : s.file = image h (fs ++ [g])

theorem lines_concat {fs : List Field} :
    (fs ++ [g]).flatMap (·.sf.line) = fs.flatMap (·.sf.line) ++ g.sf.line := by
  rw [List.flatMap_append, List.flatMap_cons, List.flatMap_nil, List.append_nil]

theorem update_written {fs : List Field} (hs : Written h fs g s) :
    Written h (fs ++ [g]) (u.next g) (s.update u) := by
  obtain ⟨hready, hfile⟩ := update_ready (u := u) hs.ready
  constructor
  · rw [lines_concat]
    exact hready
  · rw [hfile, image, @lines_concat _ (fs ++ [g]), List.append_assoc]

theorem updates_written {us : List Update} {fs : List Field}
    (hs : Written h fs g s) :
    ∃ fs', Written h fs' (us.foldl (fun f u => u.next f) g) (s.updates us) ∧
      (fs' = [] ↔ fs = [] ∧ us = []) := by
  induction us generalizing s fs g with
  | nil => exact ⟨fs, hs, by simp⟩
  | cons u rest ih =>
      obtain ⟨fs', hfs', hnil⟩ := ih (update_written (u := u) hs)
      exact ⟨fs', hfs', by simp [hnil]⟩

theorem open_written (fs : List Field) :
    Written h fs g (openFile junk (c :: cs) false (image h (fs ++ [g]))) := by
  have himage : image h (fs ++ [g]) =
      h.top ++ (fs.flatMap (·.sf.line) ++ g.sf.line) := by
    rw [image, lines_concat]
  constructor
  · rw [lines_concat, himage]
    exact open_end_ready
  · rw [himage, open_end]

end

/-- The header that a new file gets. -/
def Header.default : Header where
  lines := ["Condor log size file, DAG enabled.".toList,
    "This header is made to contain the dagId.".toList,
    "In this moment the DAG Id is unknown.".toList]
  ne := List.cons_ne_nil _ _
  plain := by decide

/-- A new file is one that holds a field of zeros. -/
theorem created_written (junk : SizeField) (c : Char) (cs file : Text) :
    openFile junk (c :: cs) true file =
      openFile junk (c :: cs) false (image .default [.zero]) := by
  have himage : image .default [.zero] =
      Header.default.top ++ ([] ++ Field.zero.sf.line) := rfl
  have hfirst : "Condor log size file, DAG enabled.\n".toList =
      "Condor log size file, DAG enabled.".toList ++ ['\n'] := literal_snoc
  have hsecond : "This header is made to contain the dagId.\n".toList =
      "This header is made to contain the dagId.".toList ++ ['\n'] := literal_snoc
  have hheader : defaultHeader = Header.default.text := by
    have hblock : Header.default.block = defaultHeader ++ ['\n'] := by
      unfold Header.block Header.default defaultHeader
      rw [String.toList_append, String.toList_append, hfirst, hsecond]
      simp only [List.flatMap_cons, List.flatMap_nil, List.append_assoc,
        List.append_nil]
    rw [Header.text, hblock, List.dropLast_concat]
  have hgood : (SizeHeader.reset defaultHeader) = Header.default.read := by
    rw [SizeHeader.reset, hheader]
    rfl
  have htop : Header.default.text ++ '\n' :: dots ++ '\n' ::
      Field.zero.sf.line = Header.default.top ++ ([] ++ Field.zero.sf.line) := by
    rw [Header.top, block_eq]
    simp
  rw [himage, open_end, openFile, if_neg (List.cons_ne_nil c cs), if_pos rfl,
    hgood, SizeFile.restart, SizeFile.newSizeFile]
  simp only [Header.read, if_true, SizeHeader.text]
  rw [show SizeField.of 0 0 false = Field.zero.sf from rfl, htop]

/-- The last field written, over a file that holds `f₀` and `fs`. -/
def latest (f₀ : Field) (fs : List Field) (us : List Update) : Field :=
  us.foldl (fun f u => u.next f) (fs.getLastD f₀)

/-- The file is opened and updated, the last update only writes `t` characters,
and the file is opened again: the object is good, it has the last complete
field, and so it goes on. The texts are what uninitialised variables hold. -/
def Survives (junk₀ junk₁ junk₂ : SizeField) (filename file : Text)
    (us : List Update) (u : Update) (t : ℕ) : Prop :=
  let s := (openFile junk₀ filename false file).updates us
  let again := openFile junk₁ filename false
    ((s.update u).file.take (s.file.length + t))
  again.good = true ∧ again.current = s.current ∧
    ∀ vs, (openFile junk₂ filename false (again.updates vs).file).good = true ∧
      (openFile junk₂ filename false (again.updates vs).file).current =
        (again.updates vs).current

/-- In the first column, the digits that are left out are zeros; behind it,
there is a field before the last one, or the last one is what a restart writes;
at the end of the line, the update has changed nothing. -/
def Tolerated (f₀ : Field) (fs : List Field) (us : List Update) (u : Update)
    (t : ℕ) : Prop :=
  let g := latest f₀ fs us
  (t ≤ 19 → g.position.1 < 10 ^ (20 - t)) ∧
    (20 ≤ t → t ≤ 34 → fs ≠ [] ∨ us ≠ [] ∨ g = .zero) ∧
    (t = 35 → u.next g = g)

section
variable {f g : Field} {h : Header}

theorem sf_inj : f.sf = g.sf ↔ f = g := by
  constructor
  · intro heq
    obtain ⟨-, hp, hq, hb⟩ := SizeField.mk.inj heq
    obtain ⟨p, q, b⟩ := f
    obtain ⟨p', q', b'⟩ := g
    obtain rfl := Subtype.ext (Int.ofNat.inj hp)
    obtain rfl := Subtype.ext hq
    obtain rfl := hb
    rfl
  · rintro rfl
    rfl

theorem cut_eq {t : ℕ} : g.cut t = g ↔ g.position.1 < 10 ^ (20 - t) := by
  constructor
  · intro heq
    have hp : g.position.1 % 10 ^ (20 - t) = g.position.1 :=
      congrArg (fun f : Field => f.position.1) heq
    rw [← hp]
    exact Nat.mod_lt _ (Nat.pow_pos (by decide))
  · intro hlt
    rw [Field.cut]
    congr
    exact Nat.mod_eq_of_lt hlt

theorem found_eq {fs : List Field} {t : ℕ} (ht : t < 36) :
    found fs g f t = g ↔ (t ≤ 19 → g.position.1 < 10 ^ (20 - t)) ∧
      (20 ≤ t → t ≤ 34 → fs ≠ [] ∨ g = .zero) ∧ (t = 35 → f = g) := by
  rw [found]
  by_cases h₁ : t ≤ 19
  · rw [if_pos h₁, cut_eq]
    exact ⟨fun hlt => ⟨fun _ => hlt, fun h => by omega, fun h => by omega⟩,
      fun h => h.1 h₁⟩
  rw [if_neg h₁]
  by_cases h₂ : t ≤ 34
  · rw [if_pos h₂]
    split
    · rename_i hnil
      constructor
      · intro hz
        exact ⟨fun h => absurd h h₁, fun _ _ => .inr hz.symm, fun h => by omega⟩
      · intro hz
        exact ((hz.2.1 (by omega) h₂).resolve_left fun hne => hne hnil).symm
    · rename_i hne
      exact ⟨fun _ => ⟨fun h => absurd h h₁, fun _ _ => .inl hne,
        fun h => by omega⟩, fun _ => rfl⟩
  · rw [if_neg h₂]
    exact ⟨fun heq => ⟨fun h => absurd h h₁, fun _ h => absurd h h₂,
      fun _ => heq⟩, fun h => h.2.2 (by omega)⟩

theorem last_split (f₀ : Field) (fs : List Field) :
    ∃ ls, f₀ :: fs = ls ++ [fs.getLastD f₀] ∧ (ls = [] ↔ fs = []) := by
  induction fs generalizing f₀ with
  | nil => exact ⟨[], rfl, by simp⟩
  | cons f rest ih =>
      obtain ⟨ls, hls, -⟩ := ih f
      refine ⟨f₀ :: ls, ?_, by simp⟩
      rw [List.getLastD_cons, hls, List.cons_append]

end

/-- A torn write is survived when no digit of the last position is cut off, and
no single field is lost. -/
theorem survives_iff (junk₀ junk₁ junk₂ : SizeField) (h : Header) (c : Char)
    (cs : Text) (f₀ : Field) (fs : List Field) (us : List Update) (u : Update)
    (t : Fin 36) :
    Survives junk₀ junk₁ junk₂ (c :: cs) (image h (f₀ :: fs)) us u t ↔
      Tolerated f₀ fs us u t := by
  obtain ⟨t, ht⟩ := t
  obtain ⟨ls, hls, hnil⟩ := last_split f₀ fs
  obtain ⟨fs', hwritten, hnil'⟩ := @updates_written h (fs.getLastD f₀) _ us ls
    (@open_written h _ junk₀ c cs ls)
  have hs := update_written (u := u) hwritten
  have htorn : (((openFile junk₀ (c :: cs) false (image h (f₀ :: fs))).updates
      us).update u).file.take (((openFile junk₀ (c :: cs) false
        (image h (f₀ :: fs))).updates us).file.length + t) =
      h.top ++ (fs'.flatMap (·.sf.line) ++ (latest f₀ fs us).sf.line ++
        (u.next (latest f₀ fs us)).sf.line.take t) := by
    have himage : ∀ fs g, image h (fs ++ [g]) = image h fs ++ g.sf.line := by
      intro fs g
      rw [image, lines_concat, ← List.append_assoc]
      rfl
    rw [hls, hs.file, hwritten.file, himage (_ ++ _),
      List.take_length_add_append, himage, image]
    simp only [List.append_assoc]
    rfl
  obtain ⟨pre, hready, hagain⟩ := @open_torn h (u.next (latest f₀ fs us))
    (latest f₀ fs us) junk₁ c cs fs' t ht
  rw [Survives, Tolerated]
  dsimp only
  rw [htorn]
  have hcurrent := hwritten.ready.current
  rw [← hls] at hcurrent
  rw [hcurrent, hready.current]
  change _ ∧ _ = (latest f₀ fs us).sf ∧ _ ↔ _
  rw [sf_inj, found_eq ht]
  constructor
  · rintro ⟨-, ⟨h₁, h₂, h₃⟩, -⟩
    refine ⟨h₁, fun hlo hhi => ?_, h₃⟩
    have hcase := h₂ hlo hhi
    grind
  · rintro ⟨h₁, h₂, h₃⟩
    refine ⟨hready.good, ⟨h₁, fun hlo hhi => ?_, h₃⟩, fun vs => ?_⟩
    · have hcase := h₂ hlo hhi
      grind
    · by_cases hvs : vs = []
      · rw [hvs]
        exact ⟨(hagain junk₂).1, (hagain junk₂).2.trans hready.current.symm⟩
      · exact appended_read hready hvs

/-- Position 12345, and the next write stops two characters before the end of
the first column: 45 is read. -/
theorem torn_position_reads_digits :
    ¬ Survives .empty .empty .empty ['s'] (image .default [.zero])
      [.position ⟨12345, by decide⟩] (.pending ⟨1, by decide⟩) 18 := by
  intro hsurvives
  exact absurd hsurvives.2.1 (by decide +kernel)

end Wms.Jobsubmission.LogMonitor
