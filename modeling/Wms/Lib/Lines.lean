import Wms.Lib.InputStream

/-!
# Reading line by line into a buffer

A loop that reads a line at a time into a buffer of `n` characters, one of which
is for the end, until it meets the end of the text. The last line is only read
if its end is there as well. A line that does not fit breaks the loop.
-/

namespace Wms.Lib

namespace IStream

/-- `istream::getline( buffer, n )` -/
def getlineInto (n : ℕ) (s : IStream) : IStream × List Char :=
  if !s.good then ({ s with fail := true }, [])
  else
    let line := s.rest.takeWhile (· ≠ '\n')
    if n ≤ line.length then
      ({ s.skip (n - 1) with fail := true }, line.take (n - 1))
    else if line.length = s.rest.length then
      ({ s.skip line.length with eof := true, fail := line.isEmpty }, line)
    else (s.skip (line.length + 1), line)

/-- The loop, for as many lines as there can be. -/
def eachLine {σ : Type} (n : ℕ) (step : List Char → σ → σ) (broken : σ → σ) :
    ℕ → IStream → σ → σ
  | 0, _, v => v
  | laps + 1, s, v =>
      let (s, line) := s.getlineInto n
      if s.eof then v
      else if s.good then eachLine n step broken laps s (step line v)
      else broken v

/-! ## The lines of a text -/

/-- The lines, and what is behind the last end of a line. -/
def pieces (text : List Char) : List (List Char) := text.splitOn '\n'

/-- The lines that end. -/
def lines (text : List Char) : List (List Char) := (pieces text).dropLast

/-- Whether there is a line without room in the buffer. -/
def overflows (n : ℕ) (text : List Char) : Bool :=
  (pieces text).any fun line => n ≤ line.length

section
variable {x y : List Char} {n : ℕ}

theorem pieces_of_no_end (h : '\n' ∉ x) : pieces x = [x] :=
  List.splitOn_eq_singleton h

theorem pieces_append (h : '\n' ∉ x) : pieces (x ++ '\n' :: y) = x :: pieces y :=
  List.splitOn_append_cons_self_of_not_mem h y

theorem pieces_ne_nil (x : List Char) : pieces x ≠ [] :=
  List.splitOn_ne_nil _ _

theorem lines_append (h : '\n' ∉ x) : lines (x ++ '\n' :: y) = x :: lines y := by
  unfold lines
  rw [pieces_append h, List.dropLast_cons_of_ne_nil (pieces_ne_nil y)]

theorem overflows_append (h : '\n' ∉ x) :
    overflows n (x ++ '\n' :: y) = (decide (n ≤ x.length) || overflows n y) := by
  unfold overflows
  rw [pieces_append h, List.any_cons]

end

/-! ## What the loop comes to -/

section
variable {σ : Type} {n : ℕ} {s : IStream} {x y : List Char}
  {step : List Char → σ → σ} {broken : σ → σ}

theorem takeWhile_of_no_end (h : '\n' ∉ x) :
    x.takeWhile (fun c => decide (c ≠ '\n')) = x := by
  refine List.takeWhile_eq_self_iff.mpr ?_
  intro c hc
  exact decide_eq_true fun hend => h (hend ▸ hc)

theorem takeWhile_to_end (h : '\n' ∉ x) :
    (x ++ '\n' :: y).takeWhile (fun c => decide (c ≠ '\n')) = x := by
  rw [List.takeWhile_append_of_pos]
  · simp
  · intro c hc
    exact decide_eq_true fun hend => h (hend ▸ hc)

theorem getlineInto_of_long (hs : s.good = true)
    (h : n ≤ (s.rest.takeWhile (· ≠ '\n')).length) :
    (s.getlineInto n).1.eof = false ∧ (s.getlineInto n).1.good = false := by
  have heof : s.eof = false := by
    rw [good, Bool.and_eq_true_iff, Bool.not_eq_true'] at hs
    exact hs.1
  rw [getlineInto, hs]
  dsimp only
  rw [if_neg (by decide), if_pos h]
  exact ⟨heof, by simp [good]⟩

theorem getlineInto_of_last (hs : s.good = true) (hrest : s.rest = x)
    (hx : '\n' ∉ x) (hn : x.length < n) : (s.getlineInto n).1.eof = true := by
  rw [getlineInto, hs]
  dsimp only
  rw [hrest, takeWhile_of_no_end hx, if_neg (by decide), if_neg (by omega),
    if_pos rfl]

theorem getlineInto_of_line (hs : s.good = true) (hrest : s.rest = x ++ '\n' :: y)
    (hx : '\n' ∉ x) (hn : x.length < n) :
    s.getlineInto n = (s.skip (x.length + 1), x) ∧
      (s.skip (x.length + 1)).rest = y := by
  constructor
  · rw [getlineInto, hs]
    dsimp only
    have hne : x.length ≠ (x ++ '\n' :: y).length := by
      rw [List.length_append, List.length_cons]
      omega
    rw [hrest, takeWhile_to_end hx, if_neg (by decide), if_neg (by omega),
      if_neg hne]
  · rw [rest_skip, hrest, List.drop_append]
    simp

/-- A text has no end of a line, or it begins with a line. -/
theorem line_cases (text : List Char) :
    '\n' ∉ text ∨ ∃ x y, '\n' ∉ x ∧ text = x ++ '\n' :: y := by
  rcases Decidable.em ('\n' ∈ text) with hmem | hmem
  · right
    obtain ⟨x, y, rfl, hx⟩ := List.eq_append_cons_of_mem hmem
    exact ⟨x, y, hx, rfl⟩
  · exact Or.inl hmem

theorem eachLine_of_rest {laps : ℕ} {text : List Char} (hs : s.good = true)
    (hrest : s.rest = text) (hlaps : text.length < laps) (v : σ) :
    eachLine n step broken laps s v =
      if overflows n text then
        broken (((pieces text).takeWhile fun line => line.length < n).foldl
          (fun v line => step line v) v)
      else (lines text).foldl (fun v line => step line v) v := by
  induction laps generalizing s text v with
  | zero => exact absurd hlaps (Nat.not_lt_zero _)
  | succ laps ih =>
      rw [eachLine]
      rcases line_cases text with hend | ⟨x, y, hx, rfl⟩
      · rw [overflows, lines, pieces_of_no_end hend]
        rcases Nat.lt_or_ge text.length n with hn | hn
        · have heof := getlineInto_of_last hs hrest hend hn
          simp [heof, Nat.not_le.mpr hn]
        · have hlong := getlineInto_of_long (n := n) hs
            (by rw [hrest, takeWhile_of_no_end hend]; exact hn)
          simp [hlong.1, hlong.2, hn, Nat.not_lt.mpr hn]
      · rw [overflows_append hx, lines_append hx, pieces_append hx]
        rcases Nat.lt_or_ge x.length n with hn | hn
        · obtain ⟨hline, hnext⟩ := getlineInto_of_line hs hrest hx hn
          have hgood : (s.skip (x.length + 1)).good = true := hs
          have heof : (s.skip (x.length + 1)).eof = false := by
            rw [good, Bool.and_eq_true_iff, Bool.not_eq_true'] at hgood
            exact hgood.1
          have hlen : y.length < laps := by
            rw [List.length_append, List.length_cons] at hlaps
            omega
          rw [hline]
          dsimp only
          rw [heof, hgood, ih hgood hnext hlen]
          simp [hn, Nat.not_le.mpr hn]
        · have hlong := getlineInto_of_long (n := n) hs
            (by rw [hrest, takeWhile_to_end hx]; exact hn)
          simp [hlong.1, hlong.2, hn, Nat.not_lt.mpr hn]

/-- The loop gives the lines one after the other to the step, and ends as it
should exactly if all of them have room. -/
theorem eachLine_ofText (text : List Char) (v : σ) :
    eachLine n step broken (text.length + 1) (ofText text) v =
      if overflows n text then
        broken (((pieces text).takeWhile fun line => line.length < n).foldl
          (fun v line => step line v) v)
      else (lines text).foldl (fun v line => step line v) v :=
  eachLine_of_rest (s := ofText text) rfl rfl (Nat.lt_succ_self _) v

end

end IStream

end Wms.Lib
