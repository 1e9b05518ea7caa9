import Wms.Lib.CString

/-!
# Literals in a statement

A literal stands between quotes, and a quote in it is written twice. A program
that writes a statement with a marker in the place of the outer quotes may
double all quotes and put the quotes in the place of the markers afterwards, if
no marker is found but where it was put. That is so when the marker occurs in
none of the pieces and no beginning of the marker is also an end of it: then no
occurrence can begin in a piece and end in a marker.
-/

namespace Wms.Lib

/-! ## Replacing a text that cannot overlap itself -/

/-- No proper beginning is an end. -/
def Unbordered (m : List Char) : Prop :=
  ∀ b, b ≠ [] → b ≠ m → b <+: m → ¬ b <:+ m

variable {m new u w : List Char}

/-- An occurrence does not begin in front of one that follows. -/
theorem not_prefix_of_unbordered (hm : Unbordered m) (hu : u ≠ [])
    (hfree : ¬ m <:+: u) : ¬ m <+: u ++ (m ++ w) := by
  rintro ⟨t, ht⟩
  rcases List.append_eq_append_iff.mp ht with ⟨b, hu', -⟩ | ⟨b, hmb, hw⟩
  · exact hfree ⟨[], b, by rw [List.nil_append, hu']⟩
  · -- the rest of the occurrence is a beginning and an end of the marker
    have hlength : b.length < m.length := by
      rw [hmb, List.length_append]
      have hpos := List.length_pos_iff.mpr hu
      omega
    have hprefix : b <+: m :=
      List.prefix_of_prefix_length_le ⟨t, hw.symm⟩ ⟨w, rfl⟩ (by omega)
    refine hm b ?_ ?_ hprefix ⟨u, hmb.symm⟩
    · rintro rfl
      rw [List.append_nil] at hmb
      exact hfree ⟨[], [], by rw [hmb, List.nil_append, List.append_nil]⟩
    · rintro rfl
      omega

theorem replaceFrom_drop (old new : List Char) (n : ℕ) (s : List Char) :
    replaceFrom old new n s = replaceFrom old new 0 (s.drop n) := by
  induction n generalizing s with
  | zero => rfl
  | succ n ih =>
      cases s with
      | nil => rfl
      | cons c s =>
          show replaceFrom old new n s = _
          rw [ih, List.drop_succ_cons]

theorem replaceFrom_marker (hm : Unbordered m) (hne : m ≠ []) (hfree : ¬ m <:+: u) :
    replaceFrom m new 0 (u ++ (m ++ w)) = u ++ (new ++ replaceFrom m new 0 w) := by
  induction u with
  | nil =>
      obtain ⟨c, m', rfl⟩ := List.exists_cons_of_ne_nil hne
      have hprefix : (c :: m').isPrefixOf (c :: (m' ++ w)) = true :=
        List.isPrefixOf_iff_prefix.mpr ⟨w, rfl⟩
      show replaceFrom (c :: m') new 0 (c :: (m' ++ w)) = _
      rw [replaceFrom_cons, if_pos hprefix, replaceFrom_drop, List.length_cons,
        Nat.add_sub_cancel, List.drop_left, List.nil_append]
  | cons c u ih =>
      have hprefix : ¬ m.isPrefixOf (c :: (u ++ (m ++ w))) = true := fun h =>
        not_prefix_of_unbordered hm (List.cons_ne_nil c u) hfree
          (List.isPrefixOf_iff_prefix.mp h)
      show replaceFrom m new 0 (c :: (u ++ (m ++ w))) = _
      rw [replaceFrom_cons, if_neg hprefix,
        ih fun h => hfree (h.trans (List.suffix_cons c u).isInfix)]
      rfl

theorem replaceFrom_free (hfree : ¬ m <:+: u) : replaceFrom m new 0 u = u := by
  induction u with
  | nil => rfl
  | cons c u ih =>
      have hprefix : ¬ m.isPrefixOf (c :: u) = true := fun h =>
        hfree (List.isPrefixOf_iff_prefix.mp h).isInfix
      rw [replaceFrom_cons, if_neg hprefix,
        ih fun h => hfree (h.trans (List.suffix_cons c u).isInfix)]

theorem prefix_of_replaceFrom {m' s : List Char} {c : Char} (hm : c ∉ m')
    (h : m' <+: replaceFrom m [c] 0 s) : m' <+: s := by
  induction s generalizing m' with
  | nil => exact h
  | cons d s ih =>
      cases m' with
      | nil => exact List.nil_prefix
      | cons e m' =>
          rw [replaceFrom_cons] at h
          split at h
          · rw [List.singleton_append, List.cons_prefix_cons] at h
            exact absurd (h.1 ▸ List.mem_cons_self) hm
          · rw [List.cons_prefix_cons] at h ⊢
            exact ⟨h.1, ih (fun hc => hm (List.mem_cons_of_mem e hc)) h.2⟩

/-- No marker is left, and none is made. -/
theorem not_infix_replaceFrom {n : ℕ} {s : List Char} {c : Char} (hne : m ≠ [])
    (hm : c ∉ m) : ¬ m <:+: replaceFrom m [c] n s := by
  induction s generalizing n with
  | nil =>
      cases n with
      | zero => exact fun h => hne (List.infix_nil.mp h)
      | succ n => exact fun h => hne (List.infix_nil.mp h)
  | cons d s ih =>
      cases n with
      | succ n => exact ih
      | zero =>
          rw [replaceFrom_cons]
          split
          · rw [List.singleton_append, List.infix_cons_iff]
            rintro (hpre | hin)
            · obtain ⟨e, m', rfl⟩ := List.exists_cons_of_ne_nil hne
              rw [List.cons_prefix_cons] at hpre
              exact hm (hpre.1 ▸ List.mem_cons_self)
            · exact ih hin
          · rename_i hprefix
            rw [List.infix_cons_iff]
            rintro (hpre | hin)
            · obtain ⟨e, m', rfl⟩ := List.exists_cons_of_ne_nil hne
              rw [List.cons_prefix_cons] at hpre
              refine hprefix (List.isPrefixOf_iff_prefix.mpr ?_)
              rw [List.cons_prefix_cons]
              exact ⟨hpre.1, prefix_of_replaceFrom
                (fun hc => hm (List.mem_cons_of_mem e hc)) hpre.2⟩
            · exact ih hin

/-! ## Quotes -/

/-- Every quote is written twice. -/
def double (s : List Char) : List Char :=
  s.flatMap fun c => if c = '\'' then ['\'', '\''] else [c]

@[simp] theorem double_nil : double [] = [] := rfl

theorem double_quote (s : List Char) :
    double ('\'' :: s) = '\'' :: '\'' :: double s := rfl

theorem double_cons {c : Char} (h : c ≠ '\'') (s : List Char) :
    double (c :: s) = c :: double s := by
  unfold double
  rw [List.flatMap_cons, if_neg h, List.singleton_append]

theorem double_append (a b : List Char) : double (a ++ b) = double a ++ double b :=
  List.flatMap_append

theorem double_plain {s : List Char} (h : '\'' ∉ s) : double s = s := by
  induction s with
  | nil => rfl
  | cons c s ih =>
      rw [double_cons (fun hc => h (hc ▸ List.mem_cons_self)),
        ih fun hs => h (List.mem_cons_of_mem c hs)]

theorem replaceAll_quote (s : List Char) :
    replaceAll ['\''] ['\'', '\''] s = double s := by
  unfold replaceAll
  rw [if_neg (by decide)]
  induction s with
  | nil => rfl
  | cons c s ih =>
      by_cases hc : c = '\''
      · subst hc
        rw [double_quote, ← ih]
        rfl
      · have hprefix : ¬ ['\''].isPrefixOf (c :: s) = true := by
          rw [List.isPrefixOf_cons_cons, Bool.and_eq_true, beq_iff_eq]
          exact fun h => hc h.1.symm
        rw [double_cons hc, ← ih, replaceFrom, if_neg hprefix]

theorem prefix_of_prefix_double {s : List Char} (hm : '\'' ∉ m)
    (h : m <+: double s) : m <+: s := by
  induction s generalizing m with
  | nil => exact h
  | cons c s ih =>
      cases m with
      | nil => exact List.nil_prefix
      | cons d m =>
          by_cases hc : c = '\''
          · subst hc
            rw [double_quote, List.cons_prefix_cons] at h
            exact absurd (h.1 ▸ List.mem_cons_self) hm
          · rw [double_cons hc, List.cons_prefix_cons] at h
            rw [List.cons_prefix_cons]
            exact ⟨h.1, ih (fun hq => hm (List.mem_cons_of_mem d hq)) h.2⟩

/-- Doubling makes no occurrence of a text without quotes. -/
theorem infix_of_infix_double {s : List Char} (hm : '\'' ∉ m) (hne : m ≠ [])
    (h : m <:+: double s) : m <:+: s := by
  have hquote {t : List Char} (ht : m <:+: '\'' :: t) : m <:+: t := by
    rcases List.infix_cons_iff.mp ht with hpre | hinf
    · obtain ⟨d, m', rfl⟩ := List.exists_cons_of_ne_nil hne
      rw [List.cons_prefix_cons] at hpre
      exact absurd (hpre.1 ▸ List.mem_cons_self) hm
    · exact hinf
  induction s with
  | nil => exact h
  | cons c s ih =>
      rw [List.infix_cons_iff]
      by_cases hc : c = '\''
      · subst hc
        rw [double_quote] at h
        exact Or.inr (ih (hquote (hquote h)))
      · rw [double_cons hc, List.infix_cons_iff] at h
        rcases h with hpre | hinf
        · refine Or.inl (prefix_of_prefix_double hm ?_)
          rw [double_cons hc]
          exact hpre
        · exact Or.inr (ih hinf)

/-- A literal. -/
def quoted (v : List Char) : List Char := '\'' :: (double v ++ ['\''])

/-! ## Marked statements -/

/-- Pieces of a statement, each with the value behind it between markers. -/
def marked (m : List Char) (parts : List (List Char × List Char))
    (tail : List Char) : List Char :=
  (parts.flatMap fun p => p.1 ++ (m ++ (p.2 ++ m))) ++ tail

/-- The same with literals. -/
def statement (parts : List (List Char × List Char)) (tail : List Char) :
    List Char :=
  (parts.flatMap fun p => p.1 ++ quoted p.2) ++ tail

/-- A piece of the statement itself. -/
structure PlainPiece (m piece : List Char) : Prop where
  noQuote : '\'' ∉ piece
  free : ¬ m <:+: piece

theorem replaceAll_marked {parts : List (List Char × List Char)} {tail : List Char}
    (hm : Unbordered m) (hne : m ≠ []) (hquote : '\'' ∉ m)
    (hparts : ∀ p ∈ parts, PlainPiece m p.1 ∧ ¬ m <:+: p.2)
    (htail : PlainPiece m tail) :
    replaceAll m ['\''] (double (marked m parts tail)) = statement parts tail := by
  have hempty : ¬ m.isEmpty = true := by
    rw [List.isEmpty_iff]
    exact hne
  unfold replaceAll
  rw [if_neg hempty]
  induction parts with
  | nil =>
      show replaceFrom m ['\''] 0 (double tail) = tail
      rw [double_plain htail.noQuote]
      exact replaceFrom_free htail.free
  | cons p parts ih =>
      obtain ⟨hpiece, hvalue⟩ := hparts p List.mem_cons_self
      have hmarked : marked m (p :: parts) tail =
          p.1 ++ (m ++ (p.2 ++ (m ++ marked m parts tail))) := by
        unfold marked
        simp only [List.flatMap_cons, List.append_assoc]
      have hstatement : statement (p :: parts) tail =
          p.1 ++ (['\''] ++ (double p.2 ++ (['\''] ++ statement parts tail))) := by
        unfold statement quoted
        simp only [List.flatMap_cons, List.append_assoc, List.cons_append,
          List.nil_append]
      have hdouble : ¬ m <:+: double p.2 := fun h =>
        hvalue (infix_of_infix_double hquote hne h)
      rw [hmarked, double_append, double_append, double_append, double_append,
        double_plain hpiece.noQuote, double_plain hquote,
        replaceFrom_marker hm hne hpiece.free, replaceFrom_marker hm hne hdouble,
        ih fun p' hp' => hparts p' (List.mem_cons_of_mem p hp'), hstatement]

/-! ## Reading a literal -/

/-- What stands up to the closing quote, and what follows it. With the flag a
quote has just been seen, which closes the literal unless another one follows. -/
def readBody : Bool → List Char → Option (List Char × List Char)
  | false, [] => none
  | true, [] => some ([], [])
  | false, c :: s =>
      if c = '\'' then readBody true s
      else (readBody false s).map fun r => (c :: r.1, r.2)
  | true, c :: s =>
      if c = '\'' then (readBody false s).map fun r => ('\'' :: r.1, r.2)
      else some ([], c :: s)

/-- A literal of SQL, and what is behind it. -/
def readLiteral : List Char → Option (List Char × List Char)
  | [] => none
  | c :: s => if c = '\'' then readBody false s else none

theorem readBody_double (v rest : List Char) (hrest : rest.head? ≠ some '\'') :
    readBody false (double v ++ '\'' :: rest) = some (v, rest) := by
  induction v with
  | nil =>
      rw [double_nil, List.nil_append, readBody, if_pos rfl]
      cases rest with
      | nil => rfl
      | cons d rest =>
          have hd : d ≠ '\'' := fun h => hrest (by rw [h]; rfl)
          rw [readBody, if_neg hd]
  | cons c v ih =>
      by_cases hc : c = '\''
      · subst hc
        rw [double_quote, List.cons_append, List.cons_append, readBody, if_pos rfl,
          readBody, if_pos rfl, ih]
        rfl
      · rw [double_cons hc, List.cons_append, readBody, if_neg hc, ih]
        rfl

/-- A literal is read as what was quoted. -/
theorem readLiteral_quoted (v rest : List Char) (hrest : rest.head? ≠ some '\'') :
    readLiteral (quoted v ++ rest) = some (v, rest) := by
  unfold quoted
  rw [List.cons_append, List.append_assoc, readLiteral, if_pos rfl]
  exact readBody_double v rest hrest

/-- A text without quotes that begins what is read stood there. -/
theorem prefix_of_readBody {s v rest : List Char} (hm : '\'' ∉ m)
    (h : readBody false s = some (v, rest)) (hv : m <+: v) : m <+: s := by
  induction s generalizing m v with
  | nil => cases h
  | cons c s ih =>
      cases m with
      | nil => exact List.nil_prefix
      | cons d m =>
          by_cases hc : c = '\''
          · -- nothing is read, or a quote
            exfalso
            rw [readBody, if_pos hc] at h
            cases s with
            | nil =>
                cases h
                exact absurd (List.prefix_nil.mp hv) (List.cons_ne_nil d m)
            | cons e s =>
                rw [readBody] at h
                split at h
                · obtain ⟨r, -, hr⟩ := Option.map_eq_some_iff.mp h
                  cases hr
                  rw [List.cons_prefix_cons] at hv
                  exact hm (hv.1 ▸ List.mem_cons_self)
                · cases h
                  exact absurd (List.prefix_nil.mp hv) (List.cons_ne_nil d m)
          · rw [readBody, if_neg hc] at h
            obtain ⟨r, hread, hr⟩ := Option.map_eq_some_iff.mp h
            cases hr
            rw [List.cons_prefix_cons] at hv ⊢
            exact ⟨hv.1, ih (fun hq => hm (List.mem_cons_of_mem d hq)) hread hv.2⟩

/-- What is read without quotes was there, and so was what is left. -/
theorem infix_of_readBody {seen : Bool} {s v rest : List Char} (hm : '\'' ∉ m)
    (hne : m ≠ []) (h : readBody seen s = some (v, rest))
    (hv : m <:+: v ∨ m <:+: rest) : m <:+: s := by
  have hnil : ¬ m <:+: [] := fun hin => hne (List.infix_nil.mp hin)
  induction s generalizing seen v rest with
  | nil =>
      cases seen with
      | false => cases h
      | true =>
          cases h
          exact hv.elim id id
  | cons c s ih =>
      by_cases hc : c = '\''
      · cases seen with
        | false =>
            rw [readBody, if_pos hc] at h
            exact List.infix_cons (ih h hv)
        | true =>
            rw [readBody, if_pos hc] at h
            obtain ⟨r, hread, hr⟩ := Option.map_eq_some_iff.mp h
            cases hr
            refine List.infix_cons (ih hread (hv.imp_left fun hin => ?_))
            rcases List.infix_cons_iff.mp hin with hpre | hin
            · obtain ⟨d, m', rfl⟩ := List.exists_cons_of_ne_nil hne
              rw [List.cons_prefix_cons] at hpre
              exact absurd (hpre.1 ▸ List.mem_cons_self) hm
            · exact hin
      · cases seen with
        | false =>
            have hread := h
            rw [readBody, if_neg hc] at h
            obtain ⟨r, hread', hr⟩ := Option.map_eq_some_iff.mp h
            cases hr
            rcases hv with hin | hin
            · rcases List.infix_cons_iff.mp hin with hpre | hin
              · exact (prefix_of_readBody hm hread hpre).isInfix
              · exact List.infix_cons (ih hread' (Or.inl hin))
            · exact List.infix_cons (ih hread' (Or.inr hin))
        | true =>
            rw [readBody, if_neg hc] at h
            cases h
            exact hv.elim (fun hin => absurd hin hnil) id

theorem infix_of_readLiteral {s v rest : List Char} (hm : '\'' ∉ m) (hne : m ≠ [])
    (h : readLiteral s = some (v, rest)) (hv : m <:+: v ∨ m <:+: rest) : m <:+: s := by
  cases s with
  | nil => cases h
  | cons c s =>
      rw [readLiteral] at h
      split at h
      · exact List.infix_cons (infix_of_readBody hm hne h hv)
      · cases h

end Wms.Lib
