import Wms.Common.Manipulation

/-!
# Job ids survive as file names

Both loops are those of an escape code with an underscore as its mark and two
digits behind it: the writing loop for every id, the reading loop for every
name. The digits of a 7-bit character are two, and they are read as the
character, so what the library says of such codes is true of job ids.
-/

namespace Wms.Common.Utilities

open Wms.Lib

/-- The code of the file names. -/
def fileNameCode : EscapeCode Char where
  mark := '_'
  plain := fun c => !badChar c
  width := 2
  code := fun c => hexOfInt (unsignedOfChar c)
  value := fun w => charOfUnsigned (parseString w)

/-- A 7-bit character. -/
def isAscii (c : Char) : Bool := c.toNat < 128

/-- What a file name may be written with: letters, digits, a dot, a hyphen, a
blank and an underscore. -/
def allowed (c : Char) : Bool :=
  c.isAlphanum || c = '.' || c = '-' || c = ' ' || c = '_'

theorem allowed_of_not_badChar {c : Char} (h : badChar c = false) :
    allowed c = true := by
  unfold allowed Char.isAlphanum Char.isAlpha Char.isUpper Char.isLower
    Char.isDigit
  unfold badChar at h
  simp only [Bool.not_eq_false', Bool.or_eq_true, Bool.and_eq_true,
    decide_eq_true_eq, Char.le_def] at h ⊢
  rcases h with ((((h | h) | h) | h) | h) | h
  · exact .inl (.inl (.inl (.inl (.inl (.inr h)))))
  · exact .inl (.inl (.inl (.inl (.inl (.inl h)))))
  · exact .inl (.inl (.inl (.inl (.inr h))))
  · exact .inl (.inl (.inl (.inr h)))
  · exact .inl (.inl (.inr h))
  · exact .inl (.inr h)

/-! ## The loops -/

theorem codedFrom_eq (s : Text) : codedFrom s = fileNameCode.encode s := by
  induction s using codedFrom.induct with
  | case1 last next rest h ih =>
      rw [codedFrom, EscapeCode.encode_run h]
      split
      · next h' =>
          rw [h] at h'
          obtain ⟨rfl, rfl⟩ := List.cons.inj h'
          rw [ih]
          rfl
      · next h' =>
          rw [h] at h'
          cases h'
  | case2 last h =>
      rw [codedFrom, EscapeCode.encode_no_mark h]
      split
      · next h' =>
          rw [h] at h'
          cases h'
      · rfl

theorem decodedFrom_eq (s : Text) : decodedFrom s = fileNameCode.decode s := by
  induction s using decodedFrom.induct with
  | case1 last mark hi lo rest h ih =>
      rw [decodedFrom, EscapeCode.decode_of_mark h (Nat.le_add_left 2 _)]
      split
      · next h' =>
          rw [h] at h'
          cases h'
          rw [ih]
          rfl
      · next h' =>
          rw [h] at h'
          cases h'
      · next hlong _ => exact (hlong _ _ _ _ h).elim
  | case2 last h =>
      rw [decodedFrom, EscapeCode.decode_of_no_mark h]
      split
      · next h' =>
          rw [h] at h'
          cases h'
      · rfl
      · next hno => exact (hno h).elim
  | case3 last hlong hnil =>
      obtain ⟨mark, rest, h⟩ := List.exists_cons_of_ne_nil hnil
      have hshort : rest.length < 2 := by
        match rest, h with
        | [], _ => decide
        | [_], _ => exact Nat.lt_succ_self 1
        | hi :: lo :: rest, h => exact (hlong _ _ _ _ h).elim
      rw [decodedFrom, EscapeCode.decode_of_short h hshort]
      split
      · next h' => exact (hlong _ _ _ _ h').elim
      · next h' => exact (hnil h').elim
      · rfl

/-! ## The digits -/

theorem hexLoop_zero (hiStr : Text) (left : ℕ) : hexLoop hiStr left 0 = hiStr := by
  rw [hexLoop, dif_pos rfl]

theorem hexLoop_place (hiStr : Text) (left : ℕ) {ui : ℕ} (h : ui ≠ 0) :
    hexLoop hiStr (left + 1) ui =
      hexLoop (hiStr.set left (hexMap.getD (ui % 16) '0')) left (ui / 16) := by
  rw [hexLoop, dif_neg h]
  rfl

/-- The two digits of a number that has no more. -/
theorem hexOfInt_eq {n : ℕ} (h : n < 256) :
    hexOfInt n = [hexMap.getD (n / 16) '0', hexMap.getD (n % 16) '0'] := by
  have hloop : hexLoop ['0', '0'] 2 n =
      [hexMap.getD (n / 16) '0', hexMap.getD (n % 16) '0'] := by
    by_cases hn : n = 0
    · subst hn
      exact hexLoop_zero _ _
    · rw [hexLoop_place _ _ hn]
      by_cases hhigh : n / 16 = 0
      · rw [hhigh, hexLoop_zero]
        rfl
      · have hmod : n / 16 % 16 = n / 16 := by omega
        have hlast : n / 16 / 16 = 0 := by omega
        rw [hexLoop_place _ _ hhigh, hlast, hexLoop_zero, hmod]
        rfl
  show List.replicate (2 - (hexLoop ['0', '0'] 2 n).length) '0' ++
    hexLoop ['0', '0'] 2 n = _
  rw [hloop]
  rfl

/-- A digit is read as its value. -/
theorem findIdx_hexMap : ∀ d < 16,
    hexMap.findIdx? (· = (hexMap.getD d '0').toLower) = some d := by decide

theorem parseString_digits {d e : ℕ} (hd : d < 16) (he : e < 16) :
    parseString [hexMap.getD d '0', hexMap.getD e '0'] = 16 * d + e := by
  show parseLoop [hexMap.getD e '0', hexMap.getD d '0'] 1 0 % 2 ^ 32 = _
  rw [parseLoop, findIdx_hexMap e he]
  dsimp only
  rw [parseLoop, findIdx_hexMap d hd]
  dsimp only
  rw [parseLoop]
  omega

theorem parseString_hexOfInt {n : ℕ} (h : n < 256) :
    parseString (hexOfInt n) = n := by
  rw [hexOfInt_eq h, parseString_digits (by omega) (by omega)]
  omega

theorem charOfUnsigned_toNat {c : Char} (h : c.toNat < 128) :
    charOfUnsigned c.toNat = c := by
  unfold charOfUnsigned
  rw [Nat.mod_eq_of_lt (by omega), Char.ofNat_toNat]

theorem unsignedOfChar_ascii {c : Char} (h : isAscii c = true) :
    unsignedOfChar c = c.toNat ∧ c.toNat < 128 := by
  have hlt := of_decide_eq_true h
  exact ⟨if_pos hlt, hlt⟩

theorem readable_fileNameCode : fileNameCode.Readable (isAscii · = true) where
  mark := by decide
  width := by
    intro c hc _
    obtain ⟨hcode, hlt⟩ := unsignedOfChar_ascii hc
    show (hexOfInt (unsignedOfChar c)).length = 2
    rw [hcode, hexOfInt_eq (by omega)]
    rfl
  value := by
    intro c hc _
    obtain ⟨hcode, hlt⟩ := unsignedOfChar_ascii hc
    show charOfUnsigned (parseString (hexOfInt (unsignedOfChar c))) = c
    rw [hcode, parseString_hexOfInt (by omega), charOfUnsigned_toNat hlt]

theorem allowed_hexMap : ∀ d < 16, allowed (hexMap.getD d '0') = true := by decide

theorem allowed_code {c : Char} (h : isAscii c = true) :
    ∀ b ∈ fileNameCode.code c, allowed b = true := by
  obtain ⟨hcode, hlt⟩ := unsignedOfChar_ascii h
  intro b hb
  have hdigits : b ∈ hexOfInt (unsignedOfChar c) := hb
  rw [hcode, hexOfInt_eq (by omega)] at hdigits
  rcases List.mem_cons.mp hdigits with rfl | hb
  · exact allowed_hexMap _ (by omega)
  · rw [List.mem_singleton] at hb
    rw [hb]
    exact allowed_hexMap _ (by omega)

/-! ## File names -/

variable {JobId : Type} {ids : JobIds JobId} {id id' : JobId}

theorem fromFilename_toFilename (h : ∀ c ∈ ids.toText id, isAscii c = true) :
    fromFilename ids (toFilename ids id) = some id := by
  unfold fromFilename toFilename
  rw [codedFrom_eq, decodedFrom_eq,
    EscapeCode.decode_encode readable_fileNameCode h]
  exact ids.inverse id

theorem allowed_toFilename (h : ∀ c ∈ ids.toText id, isAscii c = true) :
    ∀ c ∈ toFilename ids id, allowed c = true := by
  unfold toFilename
  rw [codedFrom_eq]
  refine EscapeCode.mem_encode (by decide) (fun c hc => ?_)
    (fun c hc _ => allowed_code hc) h
  exact allowed_of_not_badChar (Bool.not_eq_true' _ ▸ hc)

/-- A job id of 7-bit characters can be read from its file name, which has no
other characters than it may have, and belongs to no other such id. -/
theorem survives_toFilename (ids : JobIds JobId) (id : JobId)
    (h : ∀ c ∈ ids.toText id, isAscii c = true) :
    fromFilename ids (toFilename ids id) = some id ∧
      (∀ c ∈ toFilename ids id, allowed c = true) ∧
      ∀ id', (∀ c ∈ ids.toText id', isAscii c = true) →
        toFilename ids id' = toFilename ids id → id' = id := by
  refine ⟨fromFilename_toFilename h, allowed_toFilename h, fun id' h' heq => ?_⟩
  have hback := fromFilename_toFilename h'
  rw [heq, fromFilename_toFilename h, Option.some.injEq] at hback
  exact hback.symm

/-- Texts as job ids. -/
def textIds : JobIds Text := ⟨fun s => s, some, fun _ => rfl⟩

def sampleId : Text := "https://wms206.cern.ch:9000/_OoiKF7G4Rqoj-0xQL_iUg".toList

theorem survives_toFilename_sampleId :
    fromFilename textIds (toFilename textIds sampleId) = some sampleId ∧
      ∀ c ∈ toFilename textIds sampleId, allowed c = true := by
  have hsurvives := survives_toFilename textIds sampleId
    (List.all_eq_true.mp (by decide))
  exact ⟨hsurvives.1, hsurvives.2.1⟩

end Wms.Common.Utilities
