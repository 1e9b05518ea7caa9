import Wms.Lib.CString
import Wms.Lib.Escape

/-!
# Job ids as file names (`common/src/utilities/manipulation.cpp`)

Every letter of a job id that is not a good one becomes an underscore and its
code in hexadecimal digits. Both directions are loops over the runs between two
such letters.

A character is its code, below 256; `char` is signed, so the codes from 128 on
are negative numbers before they are converted.
-/

namespace Wms.Common.Utilities

open Wms.Lib

abbrev Text := List Char

/-! ## `HexInt` -/

/-- `hi_s_least` -/
def least : ℕ := 2

/-- `hi_s_map` -/
def hexMap : Text := "0123456789abcdef".toList

/-- The digits of a number, from the right into a text of zeros, of which some
places are `left`, and then before it. -/
def hexLoop (hiStr : Text) (left ui : ℕ) : Text :=
  if _h : ui = 0 then hiStr
  else
    let digit := hexMap.getD (ui % 16) '0'
    if left = 0 then hexLoop (digit :: hiStr) 0 (ui / 16)
    else hexLoop (hiStr.set (left - 1) digit) (left - 1) (ui / 16)
termination_by ui
decreasing_by
  all_goals exact Nat.div_lt_self (Nat.pos_of_ne_zero _h) (by decide)

/-- `HexInt( unsigned int )` as a text -/
def hexOfInt (ui : ℕ) : Text :=
  let hiStr := hexLoop (List.replicate least '0') least ui
  List.replicate (least - hiStr.length) '0' ++ hiStr

/-- The digits of a text, from the right. -/
def parseLoop : Text → ℕ → ℕ → ℕ
  | [], _, hiInt => hiInt
  | c :: rest, hexbase, hiInt =>
      match hexMap.findIdx? (· = c.toLower) with
      | some pos => parseLoop rest (hexbase * 16) (hiInt + hexbase * pos)
      | none => 0

/-- `parseString`, into an `unsigned int` -/
def parseString (hiStr : Text) : ℕ := parseLoop hiStr.reverse 1 0 % 2 ^ 32

/-! ## Characters -/

/-- A `char` as an `unsigned int` -/
def unsignedOfChar (c : Char) : ℕ :=
  if c.toNat < 128 then c.toNat else 2 ^ 32 - 256 + c.toNat

/-- An `unsigned int` as a `char` -/
def charOfUnsigned (n : ℕ) : Char := Char.ofNat (n % 256)

/-- `BadChar` -/
def badChar (c : Char) : Bool :=
  !(('a' ≤ c && c ≤ 'z') || ('A' ≤ c && c ≤ 'Z') || ('0' ≤ c && c ≤ '9') ||
    c = '.' || c = '-' || c = ' ')

/-! ## File names -/


/-- The loop of `to_filename`, on what is left of the id. -/
def codedFrom (last : Text) : Text :=
  match _h : last.dropWhile (!badChar ·) with
  | next :: rest =>
      last.takeWhile (!badChar ·) ++
        '_' :: (hexOfInt (unsignedOfChar next) ++ codedFrom rest)
  | [] => last
termination_by last.length
decreasing_by exact EscapeCode.length_lt_of_dropWhile _h

/-- The loop of `from_filename`, on what is left of the name; `none` where it
reads beyond the end. -/
def decodedFrom (last : Text) : Option Text :=
  match _h : last.dropWhile (· ≠ '_') with
  | _ :: hi :: lo :: rest =>
      (decodedFrom rest).map fun decoded =>
        last.takeWhile (· ≠ '_') ++
          charOfUnsigned (parseString [hi, lo]) :: decoded
  | [] => some last
  | _ => none
termination_by last.length
decreasing_by
  have hlt := EscapeCode.length_lt_of_dropWhile _h
  rw [List.length_cons, List.length_cons] at hlt
  omega

/-- Job ids, with their construction from a text, which may throw. -/
structure JobIds (JobId : Type) where
  toText : JobId → Text
  ofText : Text → Option JobId
  inverse : ∀ id, ofText (toText id) = some id

variable {JobId : Type} (ids : JobIds JobId)

/-- `to_filename` -/
def toFilename (id : JobId) : Text := codedFrom (ids.toText id)

/-- `from_filename` -/
def fromFilename (filename : Text) : Option JobId :=
  (decodedFrom filename).bind ids.ofText

end Wms.Common.Utilities
