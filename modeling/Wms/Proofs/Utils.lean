import Wms.Interface.Utils

/-!
# Paths and addresses

A lap of `normalizePath` takes what stands before a run of slashes, one slash
and what stands behind the run, which is how `squeeze` reads a path. The only
lap that is different is one whose run ends the path: there the inner loop reads
what is not there.
-/

namespace Wms.Utilities

open Wms.Core (Text)
open Wms.Lib

/-! ## The laps -/

section
variable {past : Option Char} {w t last modified : Text} {n : ℕ}

/-- The read at the end gives something that is no slash. -/
def Terminated (past : Option Char) : Prop := ∃ c, past = some c ∧ c ≠ '/'

theorem skipSlashes_nil (h : Terminated past) : skipSlashes past [] = .ok [] := by
  obtain ⟨c, rfl, hc⟩ := h
  exact if_neg hc

theorem skipSlashes_slash (s : Text) :
    skipSlashes past ('/' :: s) = skipSlashes past s := by
  rw [skipSlashes_cons, if_pos rfl]

/-- Behind a run that does not end the path the loop stops by itself. -/
theorem skipSlashes_eq {s : Text} (h : s.dropWhile (· = '/') ≠ [] ∨ Terminated past) :
    skipSlashes past s = .ok (s.dropWhile (· = '/')) := by
  induction s with
  | nil => exact skipSlashes_nil (h.resolve_left fun hne => hne rfl)
  | cons c s ih =>
      by_cases hc : c = '/'
      · have hdrop : (c :: s).dropWhile (· = '/') = s.dropWhile (· = '/') :=
          List.dropWhile_cons_of_pos (by simp [hc])
        rw [hdrop] at h ⊢
        rw [hc, skipSlashes_slash]
        exact ih h
      · rw [List.dropWhile_cons_of_neg (by simp [hc]), skipSlashes_cons, if_neg hc]

theorem skipSlashes_pastEnd {s : Text} (h : s.dropWhile (· = '/') = []) :
    skipSlashes none s = .error .pastEnd := by
  induction s with
  | nil => rfl
  | cons c s ih =>
      by_cases hc : c = '/'
      · rw [hc, skipSlashes_slash]
        rw [List.dropWhile_cons_of_pos (by simp [hc])] at h
        exact ih h
      · rw [List.dropWhile_cons_of_neg (by simp [hc])] at h
        cases h

theorem normalizeLaps_plain (h : '/' ∉ last) :
    normalizeLaps past (n + 1) last modified = .ok (modified ++ last) := by
  refine normalizeLaps_last (List.dropWhile_eq_nil_iff.mpr fun c hc => ?_)
  exact decide_eq_true fun heq => h (heq ▸ hc)

theorem normalizeLaps_slash (h : '/' ∉ w) :
    normalizeLaps past (n + 1) (w ++ '/' :: t) modified =
      (skipSlashes past t >>= fun rest =>
        normalizeLaps past n rest (modified ++ w ++ ['/'])) := by
  obtain ⟨htake, hdrop⟩ := span_append (p := (· ≠ '/')) (a := w) (b := '/' :: t)
    (fun c hc => decide_eq_true fun heq => h (heq ▸ hc))
    (fun c hc => by cases hc; decide)
  rw [normalizeLaps_next hdrop, htake, skipSlashes_slash]

/-- Where the run does not end the path, its last character is behind it. -/
theorem getLast?_dropWhile {s : Text} (h : s.dropWhile (· = '/') ≠ []) (w : Text) :
    (w ++ '/' :: s).getLast? = (s.dropWhile (· = '/')).getLast? := by
  obtain ⟨c, hc⟩ : ∃ c, (s.dropWhile (· = '/')).getLast? = some c := by
    exact ⟨_, List.getLast?_eq_some_getLast h⟩
  have hsplit : w ++ '/' :: s =
      (w ++ '/' :: s.takeWhile (· = '/')) ++ s.dropWhile (· = '/') := by
    rw [List.append_assoc, List.cons_append, List.takeWhile_append_dropWhile]
  rw [hsplit, List.getLast?_append, hc]
  rfl

theorem getLast?_of_dropWhile_nil {s : Text} (h : s.dropWhile (· = '/') = [])
    (w : Text) : (w ++ '/' :: s).getLast? = some '/' := by
  rw [List.getLast?_append]
  cases hs : s.reverse with
  | nil =>
      rw [List.reverse_eq_nil_iff.mp hs]
      rfl
  | cons c r =>
      have hmem : c ∈ s := by
        rw [← List.mem_reverse, hs]
        exact List.mem_cons_self
      have hc := of_decide_eq_true (List.dropWhile_eq_nil_iff.mp h c hmem)
      have hlast : ('/' :: s).getLast? = some c := by
        rw [List.getLast?_eq_head?_reverse, List.reverse_cons, hs]
        rfl
      rw [hlast, hc]
      rfl

theorem normalizeLaps_eq (hn : last.length < n)
    (h : last.getLast? ≠ some '/' ∨ Terminated past) :
    normalizeLaps past n last modified = .ok (modified ++ squeeze '/' last) := by
  induction n generalizing last modified with
  | zero => exact absurd hn (Nat.not_lt_zero _)
  | succ n ih =>
      by_cases hmem : '/' ∈ last
      · obtain ⟨w, t, rfl, hw⟩ := List.eq_append_cons_of_mem hmem
        have hlength := (List.dropWhile_sublist (· = '/') (l := t)).length_le
        have hmore : t.dropWhile (· = '/') ≠ [] ∨ Terminated past := by
          rcases h with hlast | hend
          · left
            intro hnil
            exact hlast (getLast?_of_dropWhile_nil hnil w)
          · exact Or.inr hend
        have hrest : (t.dropWhile (· = '/')).getLast? ≠ some '/' ∨ Terminated past := by
          rcases h with hlast | hend
          · left
            intro hslash
            have hne : t.dropWhile (· = '/') ≠ [] := by
              intro hnil
              rw [hnil] at hslash
              cases hslash
            exact hlast ((getLast?_dropWhile hne w).trans hslash)
          · exact Or.inr hend
        rw [normalizeLaps_slash hw, skipSlashes_eq hmore]
        show normalizeLaps past n _ _ = _
        rw [ih (by simp at hn; omega) hrest, squeeze_append hw, squeeze_run]
        simp only [List.append_assoc, List.singleton_append]
      · rw [normalizeLaps_plain hmem]
        have hsqueeze := squeeze_append hmem []
        rw [List.append_nil, squeeze_nil, List.append_nil] at hsqueeze
        rw [hsqueeze]

theorem normalizeLaps_pastEnd (hn : last.length < n) (h : last.getLast? = some '/') :
    normalizeLaps none n last modified = .error .pastEnd := by
  induction n generalizing last modified with
  | zero => exact absurd hn (Nat.not_lt_zero _)
  | succ n ih =>
      obtain ⟨w, t, rfl, hw⟩ := List.eq_append_cons_of_mem (List.mem_of_getLast? h)
      have hlength := (List.dropWhile_sublist (· = '/') (l := t)).length_le
      rw [normalizeLaps_slash hw]
      by_cases hnil : t.dropWhile (· = '/') = []
      · rw [skipSlashes_pastEnd hnil]
        rfl
      · rw [skipSlashes_eq (Or.inl hnil)]
        show normalizeLaps none n _ _ = _
        rw [getLast?_dropWhile hnil w] at h
        exact ih (by simp at hn; omega) h

end

/-! ## The whole path -/

/-- A path as it is meant to be: one slash for every run of them, and none at
the end. -/
def normalized (fpath : Text) : Text := dropFinal '/' (squeeze '/' fpath)

/-- Where the read at the end gives no slash, every path but the empty one is
normalized. -/
theorem normalizePath_eq {past : Option Char} {fpath : Text} (hne : fpath ≠ [])
    (h : fpath.getLast? ≠ some '/' ∨ Terminated past) :
    normalizePath past fpath = .ok (normalized fpath) := by
  obtain ⟨c, hc⟩ : ∃ c, (squeeze '/' fpath).getLast? = some c := by
    rw [getLast?_squeeze]
    exact ⟨_, List.getLast?_eq_some_getLast hne⟩
  rw [normalizePath, normalizeLaps_eq (Nat.lt_succ_self _) h, List.nil_append]
  simp only [Bind.bind, Except.bind, hc, normalized, dropFinal, Option.some.injEq]

theorem normalizePath_pastEnd {fpath : Text} (h : fpath.getLast? = some '/') :
    normalizePath none fpath = .error .pastEnd := by
  rw [normalizePath, normalizeLaps_pastEnd (Nat.lt_succ_self _) h]
  rfl

theorem normalizePath_nil (past : Option Char) :
    normalizePath past [] = .error .noLast := rfl

/-- The path is normalized with no read behind its end, and normalizing it again
changes nothing. -/
def SafelyNormalized (fpath : Text) : Prop :=
  ∃ r, normalizePath none fpath = .ok r ∧ r = normalized fpath ∧
    normalizePath none r = .ok r ∧ ¬ ['/', '/'] <:+: r

theorem normalized_of_ne {fpath : Text} (h : fpath.getLast? ≠ some '/') :
    normalized fpath = squeeze '/' fpath := by
  refine dropFinal_of_ne ?_
  rw [getLast?_squeeze]
  exact h

theorem not_infix_normalized (fpath : Text) : ¬ ['/', '/'] <:+: normalized fpath :=
  (single_squeeze '/' fpath).dropFinal.no_pair

/-- The paths that do not end in a slash are the ones all goes well for. -/
theorem safelyNormalized_iff (c : Char) (cs : Text) :
    SafelyNormalized (c :: cs) ↔ (c :: cs).getLast? ≠ some '/' := by
  constructor
  · intro h hslash
    obtain ⟨r, hr, -⟩ := h
    rw [normalizePath_pastEnd hslash] at hr
    cases hr
  · intro hlast
    have hr : normalizePath none (c :: cs) = .ok (normalized (c :: cs)) :=
      normalizePath_eq (List.cons_ne_nil c cs) (Or.inl hlast)
    have hsqueeze := normalized_of_ne hlast
    refine ⟨_, hr, rfl, ?_, not_infix_normalized _⟩
    have hne : squeeze '/' (c :: cs) ≠ [] := by
      intro hnil
      have hhead := head?_squeeze '/' (c :: cs)
      rw [hnil] at hhead
      cases hhead
    have hlast' : (squeeze '/' (c :: cs)).getLast? ≠ some '/' := by
      rw [getLast?_squeeze]
      exact hlast
    rw [hsqueeze, normalizePath_eq hne (Or.inl hlast'), normalized_of_ne hlast',
      squeeze_of_single (single_squeeze '/' (c :: cs))]

/-- A path with a slash at its end is read behind it. -/
theorem not_safelyNormalized_slash : ¬ ∀ fpath : Text, fpath ≠ [] →
    SafelyNormalized fpath := by
  intro h
  obtain ⟨r, hr, -⟩ := h ['a', '/'] (by decide)
  have hread : normalizePath none ['a', '/'] = .error .pastEnd := rfl
  rw [hread] at hr
  cases hr

/-- With a terminator behind the text, as `std::string` has, the result is right
for those paths too, but the one of slashes alone becomes the empty one, which
has no last character. -/
theorem normalizePath_terminated (c : Char) (cs : Text) {past : Option Char}
    (h : Terminated past) :
    normalizePath past (c :: cs) = .ok (normalized (c :: cs)) ∧
      ((∃ r, normalizePath past (normalized (c :: cs)) = .ok r) ↔
        ∃ d ∈ c :: cs, d ≠ '/') := by
  refine ⟨normalizePath_eq (List.cons_ne_nil c cs) (Or.inr h), ?_, ?_⟩
  · intro hagain
    by_contra hnone
    have hall : ∀ d ∈ c :: cs, d = '/' := by
      intro d hd
      by_contra hne
      exact hnone ⟨d, hd, hne⟩
    have hdrop : cs.dropWhile (· = '/') = [] :=
      List.dropWhile_eq_nil_iff.mpr fun d hd =>
        decide_eq_true (hall d (List.mem_cons_of_mem c hd))
    have hempty : normalized (c :: cs) = [] := by
      rw [hall c List.mem_cons_self, normalized, squeeze_run, hdrop]
      rfl
    obtain ⟨r, hr⟩ := hagain
    rw [hempty, normalizePath_nil] at hr
    cases hr
  · intro hsome
    obtain ⟨d, hd, hne⟩ := hsome
    have hmem : d ∈ normalized (c :: cs) :=
      mem_dropFinal_of_ne (mem_squeeze_of_ne hd hne) hne
    exact ⟨_, normalizePath_eq (List.ne_nil_of_mem hmem) (Or.inr h)⟩

/-! ## The final slashes of an address -/

section
variable {rest t : Text} {n i k size : ℕ}

theorem substr_ok {s : Text} {pos : ℕ} (h : pos ≤ s.length) (n : ℕ) :
    substr s pos n = .ok ((s.drop pos).take n) := if_neg (by omega)

theorem removeSlashes_of_le (h : size ≤ i) :
    removeSlashes (n + 1) i size t = .ok t := by
  rw [removeSlashes, if_neg (by omega)]

/-- A lap that finds a slash where it looks. -/
theorem removeSlashes_slash (h : i < size) (hsize : size ≤ t.length)
    (hfinal : (t.drop (size - 1)).take (size - 1) = ['/']) :
    removeSlashes (n + 1) i size t =
      removeSlashes n (i + 1) (size - 1) (t.take (size - 1)) := by
  rw [removeSlashes, if_pos h, substr_ok (by omega), substr_ok (Nat.zero_le _)]
  show (if (t.drop (size - 1)).take (size - 1) = ['/'] then _ else _) = _
  rw [if_pos hfinal]
  rfl

theorem removeSlashes_other (h : i < size) (hsize : size ≤ t.length)
    (hfinal : (t.drop (size - 1)).take (size - 1) ≠ ['/']) :
    removeSlashes (n + 1) i size t = removeSlashes n (i + 1) size t := by
  rw [removeSlashes, if_pos h, substr_ok (by omega)]
  show (if (t.drop (size - 1)).take (size - 1) = ['/'] then _ else _) = _
  rw [if_neg hfinal]

/-- A text whose end does not show a slash is left as it is. -/
theorem removeSlashes_still (hn : size ≤ n + i) (hsize : size ≤ t.length)
    (hfinal : (t.drop (size - 1)).take (size - 1) ≠ ['/']) :
    removeSlashes (n + 1) i size t = .ok t := by
  induction n generalizing i with
  | zero => exact removeSlashes_of_le (by omega)
  | succ n ih =>
      by_cases h : i < size
      · rw [removeSlashes_other h hsize hfinal]
        exact ih (by omega)
      · exact removeSlashes_of_le (by omega)

/-- From index `i` on every lap takes one slash while the index is below the
size, and the two meet half-way. -/
theorem removeSlashes_eq (hne : rest ≠ []) (hlast : rest.getLast? ≠ some '/')
    (hsize : size = rest.length + k) (hn : size ≤ n + i) :
    removeSlashes (n + 1) i size (rest ++ List.replicate k '/') =
      .ok (rest ++ List.replicate (k - (size - i + 1) / 2) '/') := by
  have hpos : 0 < rest.length := List.length_pos_of_ne_nil hne
  induction n generalizing i k size with
  | zero =>
      have hnone : k - (size - i + 1) / 2 = k := by omega
      rw [hnone]
      exact removeSlashes_of_le (by omega)
  | succ n ih =>
      by_cases h : i < size
      · cases k with
        | zero =>
            obtain ⟨x, c, rfl⟩ : ∃ x c, rest = x ++ [c] :=
              ⟨_, _, (List.dropLast_concat_getLast hne).symm⟩
            have hdrop : (x ++ [c]).drop (size - 1) = [c] := by
              have hlen : size - 1 = x.length := by simp [hsize]
              rw [hlen, List.drop_left]
            have hc : c ≠ '/' := by
              intro hc
              exact hlast (by rw [List.getLast?_concat, hc])
            have hfinal : ((x ++ [c]).drop (size - 1)).take (size - 1) ≠ ['/'] := by
              rw [hdrop]
              intro heq
              have hmem : '/' ∈ [c] := List.mem_of_mem_take (heq ▸ List.mem_cons_self)
              exact hc (List.mem_singleton.mp hmem).symm
            rw [List.replicate_zero, List.append_nil, Nat.zero_sub, List.replicate_zero,
              List.append_nil]
            exact removeSlashes_still (by omega) (by simp [hsize]) hfinal
        | succ k =>
            have hsplit : rest ++ List.replicate (k + 1) '/' =
                (rest ++ List.replicate k '/') ++ ['/'] := by
              rw [List.replicate_succ', List.append_assoc]
            have hlen : size - 1 = (rest ++ List.replicate k '/').length := by
              rw [List.length_append, List.length_replicate]
              omega
            have hfinal : ((rest ++ List.replicate (k + 1) '/').drop (size - 1)).take
                (size - 1) = ['/'] := by
              rw [hsplit, hlen, List.drop_left, List.take_of_length_le]
              simp only [List.length_append, List.length_replicate, List.length_singleton]
              omega
            have hshorter : (rest ++ List.replicate (k + 1) '/').take (size - 1) =
                rest ++ List.replicate k '/' := by
              rw [hsplit, hlen, List.take_left]
            rw [removeSlashes_slash h (by simp [hsize]) hfinal, hshorter,
              ih (by omega) (by omega)]
            have hcount : k - (size - 1 - (i + 1) + 1) / 2 =
                k + 1 - (size - i + 1) / 2 := by omega
            rw [hcount]
      · have hnone : k - (size - i + 1) / 2 = k := by omega
        rw [hnone]
        exact removeSlashes_of_le (by omega)

/-- Where the size has lost its high bits, the lap that looks at its end sees
more than one character, but for a size of two. -/
theorem removeSlashes_long (hsize : size < t.length) (hn : size ≤ n + i)
    (h : size = 2 → t[1]? ≠ some '/') :
    removeSlashes (n + 1) i size t = .ok t := by
  refine removeSlashes_still hn (by omega) ?_
  intro hfinal
  have hlen := congrArg List.length hfinal
  rw [List.length_take, List.length_drop, List.length_singleton] at hlen
  have htwo : size = 2 := by omega
  have hhead := congrArg List.head? hfinal
  rw [htwo, List.head?_take, if_neg (by omega), List.head?_drop] at hhead
  exact h htwo hhead

theorem removeSlashes_two (hlen : 2 ≤ t.length) (h : t[1]? = some '/') :
    removeSlashes 3 0 2 t = .ok (t.take 1) := by
  have hfinal : (t.drop (2 - 1)).take (2 - 1) = ['/'] := by
    rw [List.take_one, List.head?_drop, h]
    rfl
  rw [removeSlashes_slash (by omega) hlen hfinal]
  exact removeSlashes_of_le (by omega)

end

/-! ## Cutting an address -/

section
variable {c : Char} {x y : Text}

theorem breakOnLast_of_not_mem (h : c ∉ x) : breakOnLast c x = none := by
  have hdrop : x.reverse.dropWhile (· ≠ c) = [] :=
    List.dropWhile_eq_nil_iff.mpr fun d hd =>
      decide_eq_true fun heq => h (heq ▸ List.mem_reverse.mp hd)
  rw [breakOnLast, hdrop]

theorem breakOnLast_eq (h : c ∉ y) : breakOnLast c (x ++ c :: y) = some (x, y) := by
  have hreverse : (x ++ c :: y).reverse = y.reverse ++ c :: x.reverse := by simp
  obtain ⟨htake, hdrop⟩ := span_append (p := (· ≠ c)) (a := y.reverse)
    (b := c :: x.reverse)
    (fun d hd => decide_eq_true fun heq => h (heq ▸ List.mem_reverse.mp hd))
    (fun d hd => by cases hd; exact decide_eq_false (fun hne => hne rfl))
  rw [breakOnLast, hreverse, hdrop, htake]
  simp only [List.reverse_reverse]

/-- What stands before the last one is the beginning of the text. -/
theorem isPrefix_breakOnLast {s : Text} (h : breakOnLast c s = some (x, y)) : x <+: s := by
  have hsome : c ∈ s := by
    by_contra hnot
    rw [breakOnLast_of_not_mem hnot] at h
    cases h
  obtain ⟨as, bs, hs, hbs⟩ := List.eq_append_cons_of_mem (List.mem_reverse.mpr hsome)
  have hs' : s = bs.reverse ++ c :: as.reverse := by
    rw [← List.reverse_reverse s, hs]
    simp
  have hlast : c ∉ as.reverse := by
    rw [List.mem_reverse]
    exact hbs
  rw [hs', breakOnLast_eq hlast] at h
  cases h
  rw [hs']
  exact List.prefix_append _ _

end

/-- An address as it is written: a scheme, a host, a port, some slashes. -/
structure LBAddress where
  scheme : Option Text
  host : Text
  port : Option ℕ
  slashes : ℕ
  scheme_name : ∀ s ∈ scheme, s ≠ [] ∧ ':' ∉ s ∧ '/' ∉ s
  host_ne : host ≠ []
  host_name : ':' ∉ host ∧ '/' ∉ host
  port_range : ∀ p ∈ port, 1 ≤ p ∧ p ≤ 65535

namespace LBAddress

variable (a : LBAddress)

def schemeText : Text := a.scheme.elim [] (· ++ "://".toList)

def portText : Text := a.port.elim [] (fun p => ':' :: Nat.toDigits 10 p)

/-- The address without its slashes. -/
def body : Text := a.schemeText ++ (a.host ++ a.portText)

def text : Text := a.body ++ List.replicate a.slashes '/'

/-- The loop takes all of the slashes. -/
def Trimmed : Prop :=
  if a.text.length < 2 ^ 32 then a.slashes ≤ a.body.length + 1
  else a.slashes = 0 ∨ a.body.length = 1 ∧ a.text.length % 2 ^ 32 = 2

/-- The host and the port are what is found. -/
def Splits : Prop :=
  parseLBAddress a.text = .ok (a.host, ((a.port.getD 0 : ℕ) : ℤ))

/-! ### What the text is made of -/

theorem separator : "://".toList = [':', '/', '/'] := String.toList_ofList

theorem isDigit_toDigits {p : ℕ} {c : Char} (h : c ∈ Nat.toDigits 10 p) :
    c.isDigit = true := Nat.isDigit_of_mem_toDigits (by omega) (by omega) h

theorem slash_not_mem_named : '/' ∉ a.host ++ a.portText := by
  intro h
  rcases List.mem_append.mp h with h | h
  · exact a.host_name.2 h
  · rw [portText] at h
    cases hport : a.port with
    | none =>
        rw [hport] at h
        cases h
    | some p =>
        rw [hport] at h
        rcases List.mem_cons.mp h with h | h
        · cases h
        · exact absurd (isDigit_toDigits h) (by decide)

theorem body_ne : a.body ≠ [] := by
  intro h
  exact a.host_ne (List.append_eq_nil_iff.mp (List.append_eq_nil_iff.mp h).2).1

theorem getLast?_body : a.body.getLast? ≠ some '/' := by
  have hne : a.host ++ a.portText ≠ [] := fun h =>
    a.host_ne (List.append_eq_nil_iff.mp h).1
  rw [body, List.getLast?_append, List.getLast?_eq_some_getLast hne]
  intro h
  exact a.slash_not_mem_named (Option.some.inj h ▸ List.getLast_mem hne)

/-- The second character is no slash, for a scheme has a name. -/
theorem body_one : a.body[1]? ≠ some '/' := by
  intro h
  rw [body, schemeText] at h
  cases hscheme : a.scheme with
  | none =>
      rw [hscheme] at h
      exact a.slash_not_mem_named (List.mem_of_getElem? h)
  | some s =>
      obtain ⟨hne, -, hslash⟩ := a.scheme_name s hscheme
      rw [hscheme, separator] at h
      cases s with
      | nil => exact hne rfl
      | cons d s =>
          cases s with
          | nil => cases h
          | cons e s =>
              cases h
              exact hslash (List.mem_cons_of_mem d List.mem_cons_self)

theorem length_text : a.text.length = a.body.length + a.slashes := by
  rw [text, List.length_append, List.length_replicate]

/-- What the loop leaves. -/
theorem removeSlashes_text : ∃ j,
    removeSlashes (toUnsigned a.text.length + 1) 0 (toUnsigned a.text.length) a.text =
      .ok (a.body ++ List.replicate j '/') ∧ (j = 0 ↔ a.Trimmed) := by
  have hlen := a.length_text
  have hbody : 0 < a.body.length := List.length_pos_of_ne_nil a.body_ne
  rw [Trimmed, toUnsigned]
  by_cases hshort : a.text.length < 2 ^ 32
  · rw [if_pos hshort, Nat.mod_eq_of_lt hshort]
    refine ⟨_, removeSlashes_eq a.body_ne a.getLast?_body hlen (by omega), ?_⟩
    omega
  · rw [if_neg hshort]
    have hmod : a.text.length % 2 ^ 32 < a.text.length := by omega
    by_cases htwo : a.text.length % 2 ^ 32 = 2 ∧ a.text[1]? = some '/'
    · have hone : a.body.length = 1 := by
        by_contra hmore
        have hin : a.text[1]? = a.body[1]? :=
          List.getElem?_append_left (by omega)
        exact a.body_one (hin.symm.trans htwo.2)
      have htake : a.text.take 1 = a.body := by
        rw [text, List.take_append_of_le_length (by omega),
          List.take_of_length_le (by omega)]
      refine ⟨0, ?_, iff_of_true rfl (Or.inr ⟨hone, htwo.1⟩)⟩
      rw [htwo.1, removeSlashes_two (by omega) htwo.2, htake]
      simp
    · refine ⟨a.slashes, removeSlashes_long hmod (by omega)
        (fun h => fun hslash => htwo ⟨h, hslash⟩), ?_⟩
      constructor
      · exact Or.inl
      · intro h
        rcases h with h | ⟨hone, hsize⟩
        · exact h
        · have hslash : a.text[1]? = some '/' := by
            rw [text, List.getElem?_append_right (by omega), hone,
              List.getElem?_replicate, if_pos (by omega)]
          exact absurd ⟨hsize, hslash⟩ htwo

/-! ### Host and port -/

/-- An address without a scheme has none for `find` to find. -/
theorem cutScheme_none (h : a.scheme = none) (j : ℕ) :
    cutScheme (a.body ++ List.replicate j '/') = .ok (a.body ++ List.replicate j '/') := by
  have hslashes : ':' ∉ List.replicate j '/' := by
    intro hmem
    cases List.eq_of_mem_replicate hmem
  have hnone : breakOn "://".toList (a.body ++ List.replicate j '/') = none := by
    rw [separator, body, schemeText, h]
    show breakOn _ ((a.host ++ a.portText) ++ _) = none
    rw [List.append_assoc, breakOn_append a.host_name.1, portText]
    cases hport : a.port with
    | none =>
        show (breakOn _ ([] ++ _)).map _ = none
        rw [List.nil_append, breakOn_of_not_mem hslashes]
        rfl
    | some p =>
        show (breakOn _ (':' :: (Nat.toDigits 10 p ++ _))).map _ = none
        cases hdigits : Nat.toDigits 10 p with
        | nil => exact absurd hdigits Nat.toDigits_ne_nil
        | cons d ds =>
            have hdigit : ∀ c ∈ d :: ds, c.isDigit = true := fun c hc =>
              isDigit_toDigits (hdigits ▸ hc)
            have hno : ¬ [':', '/', '/'].isPrefixOf
                (':' :: (d :: ds ++ List.replicate j '/')) = true := by
              intro hprefix
              have hd : '/' = d := by
                simp only [List.cons_append, List.isPrefixOf_cons_cons,
                  Bool.and_eq_true, beq_iff_eq] at hprefix
                exact hprefix.2.1
              exact absurd (hdigit d List.mem_cons_self) (by rw [← hd]; decide)
            have hrest : ':' ∉ d :: ds ++ List.replicate j '/' := by
              intro hmem
              rcases List.mem_append.mp hmem with hmem | hmem
              · exact absurd (hdigit _ hmem) (by decide)
              · exact hslashes hmem
            rw [breakOn, if_neg hno, breakOn_of_not_mem hrest]
            rfl
  rw [cutScheme, hnone]

/-- What is kept with a scheme begins with two slashes. -/
theorem cutScheme_some {s : Text} (h : a.scheme = some s) (j : ℕ) :
    ∃ n y, cutScheme (a.body ++ List.replicate j '/') = .ok (('/' :: y).take n) := by
  obtain ⟨-, hcolon, -⟩ := a.scheme_name s h
  have hsplit : a.body ++ List.replicate j '/' =
      s ++ ':' :: ('/' :: ('/' :: (a.host ++ a.portText ++ List.replicate j '/'))) := by
    rw [body, schemeText, h]
    show (s ++ "://".toList ++ (a.host ++ a.portText)) ++ _ = _
    rw [separator]
    simp
  have hfound : breakOn "://".toList (a.body ++ List.replicate j '/') =
      some (s, a.host ++ a.portText ++ List.replicate j '/') := by
    rw [hsplit, separator, breakOn_append hcolon, breakOn, if_pos (by simp)]
    simp
  have hdrop : (a.body ++ List.replicate j '/').drop (s.length + 1) =
      '/' :: ('/' :: (a.host ++ a.portText ++ List.replicate j '/')) := by
    rw [hsplit, ← List.drop_drop, List.drop_left]
    rfl
  have hle : s.length + 1 ≤ (a.body ++ List.replicate j '/').length := by
    rw [hsplit, List.length_append, List.length_cons]
    omega
  rw [cutScheme, hfound]
  show ∃ n y, substr _ _ _ = _
  rw [substr_ok hle, hdrop]
  exact ⟨_, _, rfl⟩

theorem parse_text {j : ℕ} {address : Text}
    (hloop : removeSlashes (toUnsigned a.text.length + 1) 0
      (toUnsigned a.text.length) a.text = .ok (a.body ++ List.replicate j '/'))
    (hcut : cutScheme (a.body ++ List.replicate j '/') = .ok address) :
    (∀ host port, breakOnLast ':' address = some (host, port) →
      parseLBAddress a.text = .ok (host, atoi port)) ∧
      (breakOnLast ':' address = none → parseLBAddress a.text = .ok (address, 0)) := by
  have hne : a.body ++ List.replicate j '/' ≠ [] := fun h =>
    a.body_ne (List.append_eq_nil_iff.mp h).1
  constructor
  · intro host port hbreak
    simp only [parseLBAddress, hloop, Bind.bind, Except.bind, hne, if_false, hcut, hbreak]
  · intro hbreak
    simp only [parseLBAddress, hloop, Bind.bind, Except.bind, hne, if_false, hcut, hbreak]

theorem splits_of_port (hscheme : a.scheme = none) {p : ℕ} (hport : a.port = some p) :
    a.Splits := by
  obtain ⟨j, hloop, -⟩ := a.removeSlashes_text
  have hrange := a.port_range p hport
  have hbody : a.body ++ List.replicate j '/' =
      a.host ++ ':' :: (Nat.toDigits 10 p ++ List.replicate j '/') := by
    rw [body, schemeText, portText, hscheme, hport]
    show ([] ++ (a.host ++ ':' :: Nat.toDigits 10 p)) ++ _ = _
    simp
  have hcolon : ':' ∉ Nat.toDigits 10 p ++ List.replicate j '/' := by
    intro h
    rcases List.mem_append.mp h with h | h
    · exact absurd (isDigit_toDigits h) (by decide)
    · cases List.eq_of_mem_replicate h
  have hbreak : breakOnLast ':' (a.body ++ List.replicate j '/') =
      some (a.host, Nat.toDigits 10 p ++ List.replicate j '/') := by
    rw [hbody, breakOnLast_eq hcolon]
  have hparse := (a.parse_text hloop (a.cutScheme_none hscheme j)).1 _ _ hbreak
  have hatoi : atoi (Nat.toDigits 10 p ++ List.replicate j '/') = p := by
    refine atoi_append (by omega) ?_
    intro c hc
    rw [List.eq_of_mem_replicate (List.mem_of_mem_head? hc)]
    decide
  rw [Splits, hparse, hatoi, hport]
  rfl

theorem splits_iff_trimmed (hscheme : a.scheme = none) (hport : a.port = none) :
    a.Splits ↔ a.Trimmed := by
  obtain ⟨j, hloop, htrimmed⟩ := a.removeSlashes_text
  have hbody : a.body = a.host := by
    rw [body, schemeText, portText, hscheme, hport]
    show [] ++ (a.host ++ []) = _
    simp
  have hcolon : ':' ∉ a.body ++ List.replicate j '/' := by
    intro h
    rw [hbody] at h
    rcases List.mem_append.mp h with h | h
    · exact a.host_name.1 h
    · cases List.eq_of_mem_replicate h
  have hparse := (a.parse_text hloop (a.cutScheme_none hscheme j)).2
    (breakOnLast_of_not_mem hcolon)
  rw [Splits, hparse, hport, ← htrimmed, hbody]
  constructor
  · intro h
    have hhost := congrArg List.length (congrArg Prod.fst (Except.ok.inj h))
    simpa using hhost
  · intro h
    rw [h, List.replicate_zero, List.append_nil]
    rfl

theorem not_splits_of_scheme {s : Text} (hscheme : a.scheme = some s) : ¬ a.Splits := by
  obtain ⟨j, hloop, -⟩ := a.removeSlashes_text
  obtain ⟨n, y, hcut⟩ := a.cutScheme_some hscheme j
  -- nothing that begins where the cut does is the host
  have hnot : ∀ host, host <+: ('/' :: y).take n → host ≠ a.host := by
    intro host hprefix heq
    have hhost := hprefix.trans (List.take_prefix n ('/' :: y))
    rw [heq] at hhost
    cases hcs : a.host with
    | nil => exact a.host_ne hcs
    | cons c cs =>
        rw [hcs] at hhost
        have hc := (List.cons_prefix_cons.mp hhost).1
        refine a.host_name.2 ?_
        rw [hcs, hc]
        exact List.mem_cons_self
  have hparse := a.parse_text hloop hcut
  intro hsplits
  rw [Splits] at hsplits
  cases hbreak : breakOnLast ':' (('/' :: y).take n) with
  | none =>
      rw [hparse.2 hbreak] at hsplits
      exact hnot _ (List.prefix_refl _) (congrArg Prod.fst (Except.ok.inj hsplits))
  | some r =>
      rw [hparse.1 r.1 r.2 hbreak] at hsplits
      exact hnot r.1 (isPrefix_breakOnLast hbreak)
        (congrArg Prod.fst (Except.ok.inj hsplits))

/-- The addresses that are split as they were put together have no scheme, and
a port or no more slashes than the loop takes. -/
theorem splits_iff : a.Splits ↔ a.scheme = none ∧ (a.port ≠ none ∨ a.Trimmed) := by
  cases hscheme : a.scheme with
  | some s => exact iff_of_false (a.not_splits_of_scheme hscheme) (fun h => by cases h.1)
  | none =>
      cases hport : a.port with
      | some p =>
          exact iff_of_true (a.splits_of_port hscheme hport)
            ⟨rfl, Or.inl (by intro h; cases h)⟩
      | none =>
          rw [a.splits_iff_trimmed hscheme hport]
          constructor
          · intro h
            exact ⟨rfl, Or.inr h⟩
          · intro h
            exact h.2.resolve_left (fun hne => hne rfl)

/-- `http://lb` -/
def withScheme : LBAddress where
  scheme := some ['h', 't', 't', 'p']
  host := ['l', 'b']
  port := none
  slashes := 0
  scheme_name := by
    intro s hs
    cases hs
    decide
  host_ne := by decide
  host_name := by decide
  port_range := by
    intro p hp
    cases hp

/-- The host keeps two slashes of the scheme. Where four slashes follow a host of
one letter, one of them is left. -/
theorem not_splits_withScheme :
    (parseLBAddress withScheme.text = .ok (['/', '/', 'l', 'b'], 0) ∧
      parseLBAddress ['a', '/', '/', '/', '/'] = .ok (['a', '/'], 0)) ∧
      ¬ ∀ a : LBAddress, a.Splits := by
  have hscheme : parseLBAddress withScheme.text = .ok (['/', '/', 'l', 'b'], 0) := rfl
  have hslashes : parseLBAddress ['a', '/', '/', '/', '/'] = .ok (['a', '/'], 0) := rfl
  refine ⟨⟨hscheme, hslashes⟩, fun h => ?_⟩
  have hsplits : parseLBAddress withScheme.text = .ok (['l', 'b'], 0) := h withScheme
  rw [hscheme] at hsplits
  cases hsplits

end LBAddress

end Wms.Utilities
