import Wms.Core.Job
import Wms.Lib.CString
import Wms.Lib.Runs

/-!
# Paths and addresses (`src/org.glite.wms.interface/src/utilities/utils.cpp`)

`normalizePath` goes over a path with iterators and `parseLBAddress` over an
address with positions. An iterator is here what is still in front of it. One
that stands at the end can be compared, but there is nothing it could be read
for: what such a read gives is a parameter, `none` where it gives nothing.
-/

namespace Wms.Utilities

open Wms.Core (Text)
open Wms.Lib

/-- What the two functions can do that is not a result: read at the end of the
path, read the last character of nothing, or cut behind the end. `unfinished`
stands for a loop that goes on. -/
inductive TextFault where
  | pastEnd
  | noLast
  | outOfRange
  | unfinished
  deriving DecidableEq, Repr

/-- A function that cuts texts, and may cut behind their end. -/
abbrev Cut := Except TextFault

/-! ## `normalizePath` -/

/-- The inner loop, which looks for the end of the slashes and not for the end
of the path. -/
def skipSlashes (past : Option Char) : Text → Cut Text
  | [] =>
      match past with
      | none => .error .pastEnd
      | some c => if c = '/' then .error .pastEnd else .ok []
  | c :: s => if c = '/' then skipSlashes past s else .ok (c :: s)

theorem skipSlashes_cons (past : Option Char) (c : Char) (s : Text) :
    skipSlashes past (c :: s) =
      if c = '/' then skipSlashes past s else .ok (c :: s) := rfl

/-- The outer loop, from `last` on, with `modified` made so far. -/
def normalizeLaps (past : Option Char) : ℕ → Text → Text → Cut Text
  | 0, _, _ => .error .unfinished
  | n + 1, last, modified =>
      match last.dropWhile (· ≠ '/') with
      | [] => .ok (modified ++ last)
      | next => do
          let rest ← skipSlashes past next
          normalizeLaps past n rest (modified ++ last.takeWhile (· ≠ '/') ++ ['/'])

theorem normalizeLaps_last {past : Option Char} {n : ℕ} {last modified : Text}
    (h : last.dropWhile (· ≠ '/') = []) :
    normalizeLaps past (n + 1) last modified = .ok (modified ++ last) := by
  rw [normalizeLaps, h]

theorem normalizeLaps_next {past : Option Char} {n : ℕ} {last next modified : Text}
    {c : Char} (h : last.dropWhile (· ≠ '/') = c :: next) :
    normalizeLaps past (n + 1) last modified =
      (skipSlashes past (c :: next) >>= fun rest =>
        normalizeLaps past n rest (modified ++ last.takeWhile (· ≠ '/') ++ ['/'])) := by
  rw [normalizeLaps, h]

/-- `normalizePath` -/
def normalizePath (past : Option Char) (fpath : Text) : Cut Text := do
  let modified ← normalizeLaps past (fpath.length + 1) fpath []
  match modified.getLast? with
  | none => .error .noLast
  | some check => .ok (if check = '/' then modified.dropLast else modified)

/-! ## `parseLBAddress` -/

/-- `substr(pos, n)` -/
def substr (s : Text) (pos n : ℕ) : Cut Text :=
  if s.length < pos then .error .outOfRange else .ok ((s.drop pos).take n)

/-- What a size is as an `unsigned int`. -/
def toUnsigned (n : ℕ) : ℕ := n % 2 ^ 32

/-- The loop that removes final slashes: at index `i` of a text that is taken
to have `size` characters. -/
def removeSlashes : ℕ → ℕ → ℕ → Text → Cut Text
  | 0, _, _, _ => .error .unfinished
  | n + 1, i, size, addressport =>
      if i < size then do
        let final ← substr addressport (size - 1) (size - 1)
        if final = ['/'] then do
          let shorter ← substr addressport 0 (size - 1)
          removeSlashes n (i + 1) (size - 1) shorter
        else removeSlashes n (i + 1) size addressport
      else .ok addressport

/-- `rfind(":")`: what stands before and after the last one. -/
def breakOnLast (c : Char) (s : Text) : Option (Text × Text) :=
  match s.reverse.dropWhile (· ≠ c) with
  | [] => none
  | _ :: before => some (before.reverse, (s.reverse.takeWhile (· ≠ c)).reverse)

/-- What is kept of an address with a scheme. -/
def cutScheme (addressport : Text) : Cut Text :=
  match breakOn "://".toList addressport with
  | none => .ok addressport
  | some (scheme, _) =>
      substr addressport (scheme.length + 1) (toUnsigned addressport.length)

/-- `parseLBAddress` -/
def parseLBAddress (addressport : Text) : Cut (Text × ℤ) := do
  let size := toUnsigned addressport.length
  let address ← removeSlashes (size + 1) 0 size addressport
  if address = [] then .ok ([], 0)
  else do
    let address ← cutScheme address
    match breakOnLast ':' address with
    | some (host, port) => .ok (host, atoi port)
    | none => .ok (address, 0)

end Wms.Utilities
