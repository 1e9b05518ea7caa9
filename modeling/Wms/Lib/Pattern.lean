import Mathlib.Computability.Language
import Wms.Lib.Runs

/-!
# Patterns

Regular expressions over the sets of an alphabet, as the libraries have them
that match texts: a pattern for one symbol says which symbols it takes. The
language of a pattern is the one it is read as, and the matcher, which goes on
with what is left of the pattern behind each symbol, accepts that language.

Callers mostly want the last group of a match, so `lastGroup` takes a pattern in
two parts and gives what the second one has matched.
-/

namespace Wms.Lib

variable {α : Type*}

/-- A regular expression without groups. -/
inductive Pattern (α : Type*) where
  | fail
  | done
  | one (p : α → Bool)
  | seq (p q : Pattern α)
  | either (p q : Pattern α)
  | many (p : Pattern α)

namespace Pattern

/-- One after the other. -/
def word [DecidableEq α] : List α → Pattern α
  | [] => done
  | a :: w => seq (one (· = a)) (word w)

/-- At least once. -/
def more (p : Pattern α) : Pattern α := seq p (many p)

/-- Once or not at all. -/
def optional (p : Pattern α) : Pattern α := either p done

/-- The texts that match. -/
def lang : Pattern α → Language α
  | fail => 0
  | done => 1
  | one p => {s | ∃ a, p a = true ∧ s = [a]}
  | seq p q => p.lang * q.lang
  | either p q => p.lang + q.lang
  | many p => KStar.kstar p.lang

/-- Whether the empty text matches. -/
def nullable : Pattern α → Bool
  | fail => false
  | done => true
  | one _ => false
  | seq p q => p.nullable && q.nullable
  | either p q => p.nullable || q.nullable
  | many _ => true

/-- What is left of a pattern behind a symbol. -/
def after (a : α) : Pattern α → Pattern α
  | fail => fail
  | done => fail
  | one p => if p a then done else fail
  | seq p q =>
      if p.nullable then either (seq (p.after a) q) (q.after a)
      else seq (p.after a) q
  | either p q => either (p.after a) (q.after a)
  | many p => seq (p.after a) (many p)

/-- Whether a text matches, by derivatives. -/
def accepts (p : Pattern α) : List α → Bool
  | [] => p.nullable
  | a :: s => (p.after a).accepts s

/-- The end of a text that the second part matches where the first part matches
what is before it, the first part as long as possible. -/
def lastGroup (front back : Pattern α) (s : List α) : Option (List α) :=
  ((List.range (s.length + 1)).reverse.find? fun n =>
    front.accepts (s.take n) && back.accepts (s.drop n)).map s.drop

/-! ## The matcher -/

variable {p q : Pattern α} {a : α} {s t : List α}

theorem nullable_iff (p : Pattern α) : p.nullable = true ↔ [] ∈ p.lang := by
  induction p with
  | fail => simp [nullable, lang]
  | done => simp [nullable, lang]
  | one p =>
      simp only [nullable, lang, Bool.false_eq_true, false_iff]
      intro h
      obtain ⟨a, -, ha⟩ := h
      cases ha
  | seq p q ihp ihq =>
      rw [nullable, Bool.and_eq_true, ihp, ihq, lang, Language.mem_mul]
      constructor
      · intro h
        exact ⟨[], h.1, [], h.2, rfl⟩
      · intro h
        obtain ⟨x, hx, y, hy, hxy⟩ := h
        obtain ⟨rfl, rfl⟩ := List.append_eq_nil_iff.mp hxy
        exact ⟨hx, hy⟩
  | either p q ihp ihq => rw [nullable, Bool.or_eq_true, ihp, ihq, lang, Language.mem_add]
  | many p _ => exact iff_of_true rfl (Language.nil_mem_kstar _)

/-- The first symbol of a sequence comes from the first part, unless that is
empty. -/
theorem cons_mem_mul {l m : Language α} :
    a :: s ∈ l * m ↔ (∃ x y, s = x ++ y ∧ a :: x ∈ l ∧ y ∈ m) ∨
      ([] ∈ l ∧ a :: s ∈ m) := by
  rw [Language.mem_mul]
  constructor
  · intro h
    obtain ⟨x, hx, y, hy, hxy⟩ := h
    cases x with
    | nil =>
        rw [List.nil_append] at hxy
        exact Or.inr ⟨hx, hxy ▸ hy⟩
    | cons b x =>
        cases hxy
        exact Or.inl ⟨x, y, rfl, hx, hy⟩
  · intro h
    rcases h with ⟨x, y, rfl, hx, hy⟩ | ⟨hnil, hs⟩
    · exact ⟨a :: x, hx, y, hy, rfl⟩
    · exact ⟨[], hnil, a :: s, hs, rfl⟩

theorem cons_mem_kstar {l : Language α} :
    a :: s ∈ KStar.kstar l ↔
      ∃ x y, s = x ++ y ∧ a :: x ∈ l ∧ y ∈ KStar.kstar l := by
  rw [Language.mem_kstar_iff_exists_nonempty]
  constructor
  · intro h
    obtain ⟨pieces, hs, hpieces⟩ := h
    cases pieces with
    | nil => cases hs
    | cons x pieces =>
        obtain ⟨hx, hne⟩ := hpieces x List.mem_cons_self
        cases x with
        | nil => exact absurd rfl hne
        | cons b x =>
            rw [List.flatten_cons] at hs
            cases hs
            exact ⟨x, pieces.flatten, rfl, hx, Language.join_mem_kstar fun y hy =>
              (hpieces y (List.mem_cons_of_mem _ hy)).1⟩
  · intro h
    obtain ⟨x, y, rfl, hx, hy⟩ := h
    obtain ⟨pieces, rfl, hpieces⟩ := Language.mem_kstar_iff_exists_nonempty.mp hy
    refine ⟨(a :: x) :: pieces, by rw [List.flatten_cons]; rfl, ?_⟩
    intro z hz
    rcases List.mem_cons.mp hz with rfl | hz
    · exact ⟨hx, List.cons_ne_nil a x⟩
    · exact hpieces z hz

theorem mem_after (p : Pattern α) (s : List α) :
    s ∈ (p.after a).lang ↔ a :: s ∈ p.lang := by
  induction p generalizing s with
  | fail => simp [after, lang]
  | done => simp [after, lang]
  | one p =>
      rw [after]
      constructor
      · intro h
        split at h
        next ha =>
            cases (Language.mem_one s).mp h
            exact ⟨a, ha, rfl⟩
        next => exact absurd h (Language.notMem_zero s)
      · intro h
        obtain ⟨b, hb, heq⟩ := h
        cases heq
        rw [if_pos hb]
        exact Language.nil_mem_one
  | seq p q ihp ihq =>
      have hseq : s ∈ (seq (p.after a) q).lang ↔
          ∃ x y, s = x ++ y ∧ a :: x ∈ p.lang ∧ y ∈ q.lang := by
        rw [lang, Language.mem_mul]
        constructor
        · intro h
          obtain ⟨x, hx, y, hy, rfl⟩ := h
          exact ⟨x, y, rfl, (ihp x).mp hx, hy⟩
        · intro h
          obtain ⟨x, y, rfl, hx, hy⟩ := h
          exact ⟨x, (ihp x).mpr hx, y, hy, rfl⟩
      rw [after]
      show _ ↔ a :: s ∈ p.lang * q.lang
      rw [cons_mem_mul, ← nullable_iff, ← ihq]
      split
      next hnull =>
          show s ∈ (seq (p.after a) q).lang + (q.after a).lang ↔ _
          rw [Language.mem_add, hseq]
          simp only [hnull, true_and]
      next hnull =>
          rw [hseq]
          simp only [hnull, Bool.false_eq_true, false_and, or_false]
  | either p q ihp ihq =>
      show s ∈ (p.after a).lang + (q.after a).lang ↔ a :: s ∈ p.lang + q.lang
      rw [Language.mem_add, Language.mem_add, ihp, ihq]
  | many p ih =>
      show s ∈ (p.after a).lang * KStar.kstar p.lang ↔ a :: s ∈ KStar.kstar p.lang
      rw [cons_mem_kstar, Language.mem_mul]
      constructor
      · intro h
        obtain ⟨x, hx, y, hy, rfl⟩ := h
        exact ⟨x, y, rfl, (ih x).mp hx, hy⟩
      · intro h
        obtain ⟨x, y, rfl, hx, hy⟩ := h
        exact ⟨x, (ih x).mpr hx, y, hy, rfl⟩

theorem accepts_iff (p : Pattern α) (s : List α) : p.accepts s = true ↔ s ∈ p.lang := by
  induction s generalizing p with
  | nil => exact nullable_iff p
  | cons a s ih => rw [accepts, ih, mem_after]

/-! ## Languages of small patterns -/

theorem mem_word [DecidableEq α] {w : List α} : s ∈ (word w).lang ↔ s = w := by
  induction w generalizing s with
  | nil => exact Language.mem_one s
  | cons b w ih =>
      show s ∈ (one (· = b)).lang * (word w).lang ↔ _
      rw [Language.mem_mul]
      constructor
      · intro h
        obtain ⟨x, ⟨c, hc, rfl⟩, y, hy, rfl⟩ := h
        rw [of_decide_eq_true hc, ih.mp hy]
        rfl
      · intro h
        exact ⟨[b], ⟨b, decide_eq_true rfl, rfl⟩, w, ih.mpr rfl, h.symm⟩

theorem mem_optional : s ∈ (optional p).lang ↔ s ∈ p.lang ∨ s = [] := by
  show s ∈ p.lang + 1 ↔ _
  rw [Language.mem_add, Language.mem_one]

theorem mem_many_one {f : α → Bool} :
    s ∈ (many (one f)).lang ↔ ∀ a ∈ s, f a = true := by
  induction s with
  | nil => exact iff_of_true (Language.nil_mem_kstar _) (fun a ha => by cases ha)
  | cons b s ih =>
      show b :: s ∈ KStar.kstar (one f).lang ↔ _
      rw [cons_mem_kstar, List.forall_mem_cons, ← ih]
      constructor
      · intro h
        obtain ⟨x, y, rfl, ⟨c, hc, hbx⟩, hy⟩ := h
        cases hbx
        exact ⟨hc, hy⟩
      · intro h
        exact ⟨[], s, rfl, ⟨b, h.1, rfl⟩, h.2⟩

theorem mem_more_one {f : α → Bool} :
    s ∈ (more (one f)).lang ↔ s ≠ [] ∧ ∀ a ∈ s, f a = true := by
  show s ∈ (one f).lang * (many (one f)).lang ↔ _
  rw [Language.mem_mul]
  constructor
  · intro h
    obtain ⟨x, ⟨c, hc, rfl⟩, y, hy, rfl⟩ := h
    exact ⟨List.cons_ne_nil c y, List.forall_mem_cons.mpr ⟨hc, mem_many_one.mp hy⟩⟩
  · intro h
    cases s with
    | nil => exact absurd rfl h.1
    | cons c s =>
        obtain ⟨hc, hs⟩ := List.forall_mem_cons.mp h.2
        exact ⟨[c], ⟨c, hc, rfl⟩, s, mem_many_one.mpr hs, rfl⟩

/-! ## The last group -/

theorem lastGroup_some {front back : Pattern α} (h : lastGroup front back s = some t) :
    ∃ x, s = x ++ t ∧ x ∈ front.lang ∧ t ∈ back.lang := by
  obtain ⟨n, hn, rfl⟩ := Option.map_eq_some_iff.mp h
  have hboth := List.find?_some hn
  rw [Bool.and_eq_true, accepts_iff, accepts_iff] at hboth
  exact ⟨s.take n, (List.take_append_drop n s).symm, hboth.1, hboth.2⟩

theorem lastGroup_isSome {front back : Pattern α} :
    (lastGroup front back s).isSome = true ↔ s ∈ (seq front back).lang := by
  rw [lastGroup, Option.isSome_map, List.find?_isSome]
  show _ ↔ s ∈ front.lang * back.lang
  rw [Language.mem_mul]
  constructor
  · intro h
    obtain ⟨n, -, hboth⟩ := h
    rw [Bool.and_eq_true, accepts_iff, accepts_iff] at hboth
    exact ⟨_, hboth.1, _, hboth.2, List.take_append_drop n s⟩
  · intro h
    obtain ⟨x, hx, y, hy, rfl⟩ := h
    refine ⟨x.length, ?_, ?_⟩
    · rw [List.mem_reverse, List.mem_range, List.length_append]
      omega
    · rw [List.take_left, List.drop_left, Bool.and_eq_true, accepts_iff, accepts_iff]
      exact ⟨hx, hy⟩

end Pattern

end Wms.Lib
