import Mathlib.Data.List.TakeWhile
import Wms.Lib.Instances

/-!
# Escape codes

A text over some letters is written with fewer of them: a plain letter stands
for itself, any other for a mark and a code of fixed width. A text that was
written so can be read again, whatever the letters are, if the mark is no plain
letter and a code can be read again.
-/

namespace Wms.Lib

universe u

/-- Which letters are written as they are, and how the others are. -/
structure EscapeCode (α : Type u) where
  mark : α
  plain : α → Bool
  width : ℕ
  code : α → List α
  value : List α → α

namespace EscapeCode

variable {α : Type u} (C : EscapeCode α)

/-- Each letter as the code has it. -/
def encode (s : List α) : List α :=
  s.flatMap fun a => if C.plain a then [a] else C.mark :: C.code a

/-- What makes a code readable, for the letters of a kind. -/
structure Readable (ok : α → Prop) : Prop where
  mark : C.plain C.mark = false
  width : ∀ a, ok a → C.plain a = false → (C.code a).length = C.width
  value : ∀ a, ok a → C.plain a = false → C.value (C.code a) = a

variable {C} {a : α} {s t : List α}

@[simp] theorem encode_nil : C.encode [] = [] := rfl

theorem encode_cons_plain (h : C.plain a = true) (s : List α) :
    C.encode (a :: s) = a :: C.encode s := by
  unfold encode
  rw [List.flatMap_cons, if_pos h, List.singleton_append]

theorem encode_cons_mark (h : C.plain a = false) (s : List α) :
    C.encode (a :: s) = C.mark :: (C.code a ++ C.encode s) := by
  unfold encode
  rw [List.flatMap_cons, if_neg (by simp [h]), List.cons_append]

theorem encode_append (s t : List α) :
    C.encode (s ++ t) = C.encode s ++ C.encode t := List.flatMap_append

theorem encode_plain (h : ∀ a ∈ s, C.plain a = true) : C.encode s = s := by
  induction s with
  | nil => rfl
  | cons a s ih =>
      rw [encode_cons_plain (h a List.mem_cons_self),
        ih fun b hb => h b (List.mem_cons_of_mem _ hb)]

/-- Writing run by run, up to the next letter that is not plain. -/
theorem encode_run {rest : List α} (h : s.dropWhile C.plain = a :: rest) :
    C.encode s =
      s.takeWhile C.plain ++ C.mark :: (C.code a ++ C.encode rest) := by
  have hplain : C.plain a = false := by
    have hhead := List.head?_dropWhile_not C.plain s
    rw [h] at hhead
    exact hhead
  have hsplit : C.encode s =
      C.encode (s.takeWhile C.plain ++ s.dropWhile C.plain) := by
    rw [List.takeWhile_append_dropWhile]
  rw [hsplit, encode_append, encode_plain fun b hb => List.mem_takeWhile_imp hb,
    h, encode_cons_mark hplain]

theorem encode_no_mark (h : s.dropWhile C.plain = []) : C.encode s = s :=
  encode_plain (List.dropWhile_eq_nil_iff.mp h)

/-- A code is written with plain letters, marks and those of the codes. -/
theorem mem_encode {ok allowed : α → Prop} (hmark : allowed C.mark)
    (hplain : ∀ a, C.plain a = true → allowed a)
    (hcode : ∀ a, ok a → C.plain a = false → ∀ b ∈ C.code a, allowed b)
    (hs : ∀ a ∈ s, ok a) : ∀ b ∈ C.encode s, allowed b := by
  intro b hb
  obtain ⟨a, ha, hb⟩ := List.mem_flatMap.mp hb
  cases hpa : C.plain a with
  | true =>
      rw [hpa, if_pos rfl, List.mem_singleton] at hb
      rw [hb]
      exact hplain a hpa
  | false =>
      rw [hpa, if_neg Bool.false_ne_true] at hb
      rcases List.mem_cons.mp hb with rfl | hb
      · exact hmark
      · exact hcode a (hs a ha) hpa b hb

/-! ## Reading -/

theorem length_lt_of_dropWhile {p : α → Bool} {s rest : List α} {a : α}
    (h : s.dropWhile p = a :: rest) : rest.length < s.length := by
  have hle := (List.dropWhile_suffix (l := s) p).length_le
  rw [h, List.length_cons] at hle
  omega

variable [DecidableEq α]

variable (C) in
/-- Reading run by run, up to the next mark; `none` where the text ends within
a code. -/
def decode (s : List α) : Option (List α) :=
  match _h : s.dropWhile (· ≠ C.mark) with
  | [] => some s
  | _ :: rest =>
      if rest.length < C.width then none
      else
        (decode (rest.drop C.width)).map fun t =>
          s.takeWhile (· ≠ C.mark) ++ C.value (rest.take C.width) :: t
termination_by s.length
decreasing_by
  have hlt := length_lt_of_dropWhile _h
  rw [List.length_drop]
  omega

theorem decode_of_no_mark (h : s.dropWhile (· ≠ C.mark) = []) :
    C.decode s = some s := by
  rw [decode]
  split
  · rfl
  · next hs =>
      rw [h] at hs
      cases hs

theorem decode_of_mark {m : α} {rest : List α}
    (h : s.dropWhile (· ≠ C.mark) = m :: rest) (hwidth : C.width ≤ rest.length) :
    C.decode s = (C.decode (rest.drop C.width)).map fun t =>
      s.takeWhile (· ≠ C.mark) ++ C.value (rest.take C.width) :: t := by
  rw [decode]
  split
  · next hs =>
      rw [h] at hs
      cases hs
  · next hs =>
      rw [h] at hs
      obtain ⟨-, rfl⟩ := List.cons.inj hs
      rw [if_neg (by omega)]

theorem decode_of_short {m : α} {rest : List α}
    (h : s.dropWhile (· ≠ C.mark) = m :: rest) (hwidth : rest.length < C.width) :
    C.decode s = none := by
  rw [decode]
  split
  · next hs =>
      rw [h] at hs
      cases hs
  · next hs =>
      rw [h] at hs
      obtain ⟨-, rfl⟩ := List.cons.inj hs
      rw [if_pos hwidth]

theorem decode_nil : C.decode [] = some [] := decode_of_no_mark rfl

/-- A letter before the first mark goes into the run. -/
theorem decode_cons_plain (h : a ≠ C.mark) (ht : C.decode s = some t) :
    C.decode (a :: s) = some (a :: t) := by
  have hdrop : (a :: s).dropWhile (· ≠ C.mark) = s.dropWhile (· ≠ C.mark) :=
    List.dropWhile_cons_of_pos (decide_eq_true h)
  have htake : (a :: s).takeWhile (· ≠ C.mark) =
      a :: s.takeWhile (· ≠ C.mark) :=
    List.takeWhile_cons_of_pos (decide_eq_true h)
  cases hs : s.dropWhile (· ≠ C.mark) with
  | nil =>
      rw [decode_of_no_mark hs, Option.some.injEq] at ht
      rw [decode_of_no_mark (hdrop.trans hs), ht]
  | cons m rest =>
      by_cases hwidth : C.width ≤ rest.length
      · rw [decode_of_mark hs hwidth] at ht
        rw [decode_of_mark (hdrop.trans hs) hwidth, htake]
        obtain ⟨u, hu, rfl⟩ := Option.map_eq_some_iff.mp ht
        rw [hu]
        rfl
      · rw [decode_of_short hs (by omega)] at ht
        cases ht

/-- A mark and the code behind it. -/
theorem decode_cons_mark {w : List α} (hwidth : w.length = C.width)
    (ht : C.decode s = some t) :
    C.decode (C.mark :: (w ++ s)) = some (C.value w :: t) := by
  have hdrop : (C.mark :: (w ++ s)).dropWhile (· ≠ C.mark) =
      C.mark :: (w ++ s) := List.dropWhile_cons_of_neg (by simp)
  have htake : (C.mark :: (w ++ s)).takeWhile (· ≠ C.mark) = [] :=
    List.takeWhile_cons_of_neg (by simp)
  rw [decode_of_mark hdrop (by rw [List.length_append]; omega), htake,
    ← hwidth, List.drop_left, List.take_left, ht]
  rfl

theorem decode_encode {ok : α → Prop} (hC : C.Readable ok)
    (hs : ∀ a ∈ s, ok a) : C.decode (C.encode s) = some s := by
  induction s with
  | nil => exact decode_nil
  | cons a s ih =>
      have hrest := ih fun b hb => hs b (List.mem_cons_of_mem _ hb)
      have ha := hs a List.mem_cons_self
      cases hplain : C.plain a with
      | true =>
          have hne : a ≠ C.mark := by
            rintro rfl
            rw [hC.mark] at hplain
            cases hplain
          rw [encode_cons_plain hplain]
          exact decode_cons_plain hne hrest
      | false =>
          rw [encode_cons_mark hplain,
            decode_cons_mark (hC.width a ha hplain) hrest,
            hC.value a ha hplain]

end EscapeCode

end Wms.Lib
