import Wms.Ice.CreamJob
import Wms.Lib.Pattern

/-!
# The sandbox lists of a JDL (`src/org.glite.wms.ice/src/iceUtils/IceUtils.cpp`)

Before a JDL goes to CREAM the entries of its sandbox lists are made URIs.
What kind of path an entry is three regular expressions say, tried in turn.

An attribute is here what it evaluates to. The attributes that the two functions
do not look at are left out, and so is the log.
-/

namespace Wms.Ice.IceUtils

open Wms.Lib

/-! ## `pathName` -/

/-- What a path is taken for. -/
inductive PathType where
  | invalid
  | absolute
  | uri
  | relative
  deriving DecidableEq, Repr

/-- A path, its type and the name of its file. -/
structure PathName where
  fullName : Text
  pathType : PathType
  fileName : Text
  deriving DecidableEq, Repr

/-- `[^/]+` -/
def segment : Pattern Char := .more (.one (· ≠ '/'))

/-- `/` -/
def slash : Pattern Char := .one (· = '/')

/-- `([^/]+/)*` -/
def directories : Pattern Char := .many (.seq segment slash)

/-- `gsiftp://[^/]+(:[0-9]+)?/([^/]+/)*`, what stands before the last group. -/
def uriFront : Pattern Char :=
  .seq (.word "gsiftp://".toList)
    (.seq segment
      (.seq (.optional (.seq (.one (· = ':')) (.more (.one Char.isDigit))))
        (.seq slash directories)))

/-- `(file://)?/([^/]+/)*` -/
def absFront : Pattern Char :=
  .seq (.optional (.word "file://".toList)) (.seq slash directories)

/-- The three expressions in the order in which they are tried. -/
def pathName (p : Text) : PathName :=
  match Pattern.lastGroup uriFront segment p with
  | some name => ⟨p, .uri, '/' :: name⟩
  | none =>
      match Pattern.lastGroup directories segment p with
      | some name => ⟨p, .relative, name⟩
      | none =>
          match Pattern.lastGroup absFront segment p with
          | some name => ⟨p, .absolute, name⟩
          | none => ⟨p, .invalid, []⟩

section
variable {p name : Text}

theorem pathName_relative_of (huri : Pattern.lastGroup uriFront segment p = none)
    (h : Pattern.lastGroup directories segment p = some name) :
    pathName p = ⟨p, .relative, name⟩ := by
  rw [pathName, huri, h]

theorem pathName_absolute_of (huri : Pattern.lastGroup uriFront segment p = none)
    (hrel : Pattern.lastGroup directories segment p = none)
    (h : Pattern.lastGroup absFront segment p = some name) :
    pathName p = ⟨p, .absolute, name⟩ := by
  rw [pathName, huri, hrel, h]

theorem pathName_other_of (hrel : Pattern.lastGroup directories segment p = none)
    (habs : Pattern.lastGroup absFront segment p = none) :
    (pathName p).pathType = .uri ∨ (pathName p).pathType = .invalid := by
  rw [pathName]
  cases Pattern.lastGroup uriFront segment p with
  | some name => exact Or.inl rfl
  | none =>
      rw [hrel, habs]
      exact Or.inr rfl

end

/-! ## The JDL -/

/-- An entry of a list; what is not a string is kept as it is written. -/
inductive Entry where
  | string (s : Text)
  | other (expr : Text)
  deriving DecidableEq, Repr

/-- The value of an attribute. -/
inductive Value where
  | string (s : Text)
  | list (entries : List Entry)
  | other (expr : Text)
  deriving DecidableEq, Repr

/-- The attributes of a JDL that have to do with sandboxes. -/
structure Jdl where
  inputSandbox : Option Value := none
  inputSandboxPath : Option Value := none
  inputSandboxBaseURI : Option Value := none
  outputSandbox : Option Value := none
  outputSandboxPath : Option Value := none
  outputSandboxDestURI : Option Value := none
  outputSandboxBaseDestURI : Option Value := none
  deriving DecidableEq, Repr

/-- `EvaluateAttrString` -/
def attrString : Option Value → Option Text
  | some (.string s) => some s
  | _ => none

/-- `EvaluateAttrList` -/
def attrList : Option Value → Option (List Entry)
  | some (.list entries) => some entries
  | _ => none

@[simp] theorem attrString_none : attrString none = none := rfl

theorem attrList_eq {v : Option Value} {entries : List Entry} :
    attrList v = some entries ↔ v = some (.list entries) := by
  constructor
  · intro h
    cases v with
    | none => cases h
    | some v =>
        cases v with
        | list es => cases h; rfl
        | string s => cases h
        | other e => cases h
  · intro h
    rw [h]
    rfl

/-- A list of literals. -/
def literals (paths : List Text) : Value := .list (paths.map .string)

/-- `trim_right_if` -/
def trimRightIf (p : Char → Bool) (s : Text) : Text :=
  (s.reverse.dropWhile p).reverse

/-! ## The lists -/

/-- What an entry that is a string becomes. -/
def newPathOf (absoluteBase relativeBase s : Text) : Text :=
  let obj := pathName s
  match obj.pathType with
  | .absolute => absoluteBase ++ '/' :: obj.fileName
  | .relative => relativeBase ++ '/' :: obj.fileName
  | .invalid => s
  | .uri => s

section
variable {a r s : Text}

theorem newPathOf_relative_of {name : Text} (h : pathName s = ⟨s, .relative, name⟩) :
    newPathOf a r s = r ++ '/' :: name := by
  rw [newPathOf, h]

theorem newPathOf_absolute_of {name : Text} (h : pathName s = ⟨s, .absolute, name⟩) :
    newPathOf a r s = a ++ '/' :: name := by
  rw [newPathOf, h]

theorem newPathOf_kept
    (h : (pathName s).pathType = .uri ∨ (pathName s).pathType = .invalid) :
    newPathOf a r s = s := by
  rw [newPathOf]
  rcases h with h | h
  · rw [h]
  · rw [h]

end

/-- The loop of both functions. The variable `newPath` is declared outside of it
and is only set for a string. -/
def newList (absoluteBase relativeBase : Text) : Text → List Entry → List Text
  | _, [] => []
  | _, .string s :: entries =>
      let newPath := newPathOf absoluteBase relativeBase s
      newPath :: newList absoluteBase relativeBase newPath entries
  | newPath, .other _ :: entries =>
      newPath :: newList absoluteBase relativeBase newPath entries

section
variable {a r newPath : Text} {entries : List Entry}

@[simp] theorem newList_string {s : Text} :
    newList a r newPath (.string s :: entries) =
      newPathOf a r s :: newList a r (newPathOf a r s) entries := rfl

@[simp] theorem newList_other {expr : Text} :
    newList a r newPath (.other expr :: entries) =
      newPath :: newList a r newPath entries := rfl

end

/-- `gsiftp://`, the host and the path that the JDL gives for a sandbox. -/
def defaultURI (hostName : Text) (path : Option Value) : Text :=
  "gsiftp://".toList ++ hostName ++ ['/'] ++ (attrString path).getD []

/-- What a relative path of the input sandbox goes below, unless the JDL says. -/
def defaultIsbURI (hostName : Text) (jdl : Jdl) : Text :=
  defaultURI hostName jdl.inputSandboxPath

/-- What the paths of the output sandbox go below. -/
def defaultOsbdURI (hostName : Text) (jdl : Jdl) : Text :=
  defaultURI hostName jdl.outputSandboxPath

/-- `isbURI` -/
def isbURI (hostName : Text) (jdl : Jdl) : Text :=
  match attrString jdl.inputSandboxBaseURI with
  | some base => trimRightIf (· = '/') (trimIf (· = '"') base)
  | none => defaultIsbURI hostName jdl

/-- `update_isb_list`, which always returns 0. -/
def updateIsbList (hostName : Text) (jdl : Jdl) : Jdl :=
  let jdl' :=
    if (attrString jdl.inputSandboxBaseURI).isSome then
      { jdl with inputSandboxBaseURI := none }
    else jdl
  match attrList jdl'.inputSandbox with
  | none => jdl'
  | some entries =>
      { jdl' with
        inputSandbox := some (literals (newList (defaultIsbURI hostName jdl)
          (isbURI hostName jdl) [] entries)) }

theorem updateIsbList_list {hostName : Text} {jdl : Jdl} {entries : List Entry}
    (h : jdl.inputSandbox = some (.list entries)) :
    (updateIsbList hostName jdl).inputSandbox =
      some (literals (newList (defaultIsbURI hostName jdl) (isbURI hostName jdl) []
        entries)) := by
  by_cases hbase : (attrString jdl.inputSandboxBaseURI).isSome = true
  · simp [updateIsbList, hbase, h, attrList]
  · simp [updateIsbList, hbase, h, attrList]

/-- `update_osb_list`, with what it returns. -/
def updateOsbList (hostName : Text) (jdl : Jdl) : ℤ × Jdl :=
  if jdl.outputSandbox.isNone then (1, jdl)
  else
    let base := defaultOsbdURI hostName jdl
    if jdl.outputSandboxDestURI.isSome then
      let jdl' := { jdl with outputSandboxBaseDestURI := none }
      match attrList jdl'.outputSandboxDestURI with
      | none => (0, jdl')
      | some entries =>
          (0, { jdl' with
            outputSandboxDestURI := some (literals (newList base base [] entries)) })
    else if jdl.outputSandboxBaseDestURI.isNone then
      (0, { jdl with outputSandboxBaseDestURI := some (.string base) })
    else (0, jdl)

theorem updateOsbList_list {hostName : Text} {jdl : Jdl} {entries : List Entry}
    (hout : jdl.outputSandbox.isSome = true)
    (h : jdl.outputSandboxDestURI = some (.list entries)) :
    (updateOsbList hostName jdl).2.outputSandboxDestURI =
      some (literals (newList (defaultOsbdURI hostName jdl) (defaultOsbdURI hostName jdl)
        [] entries)) := by
  have hsome : jdl.outputSandbox.isNone = false := by
    rw [Option.isNone_eq_false_iff]
    exact hout
  simp [updateOsbList, hsome, h, attrList]

/-- The end of `creamJdlHelper`. -/
def updateLists (hostName : Text) (jdl : Jdl) : Jdl :=
  (updateOsbList hostName (updateIsbList hostName jdl)).2

end Wms.Ice.IceUtils
