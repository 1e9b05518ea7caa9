import Mathlib.Data.List.TakeWhile
import Wms.Core.SubmissionUtils

/-!
# The job adapter (`src/org.glite.wms.core/src/helper/jobadapter`)

What `JobAdapter::resolve` makes of the input sandbox path and the token
number: the URL of the token file, which the job wrapper removes before it
starts the user's job. `URL::URL` is the regular expression

    scheme "://" host [":" port] path ["/"]

where the units of the host and of the segments of the path are characters or
escapes, and a segment is not empty. Nothing in it is ambiguous: no part can
contain the character that ends it.
-/

namespace Wms.Core

/-- The characters of the parts of a URL. -/
def isSchemeChar (c : Char) : Bool :=
  c.isAlphanum || "+.-".toList.contains c

def isUrlChar (c : Char) : Bool :=
  c.isAlphanum || "_.~!$&'()-".toList.contains c

def isXDigit (c : Char) : Bool :=
  c.isDigit || ('a' ≤ c && c ≤ 'f') || ('A' ≤ c && c ≤ 'F')

/-- The longest run of units a text begins with, and the rest. -/
def spanUnits : Text → Text × Text
  | [] => ([], [])
  | '%' :: a :: b :: rest =>
      if isXDigit a && isXDigit b then
        ('%' :: a :: b :: (spanUnits rest).1, (spanUnits rest).2)
      else ([], '%' :: a :: b :: rest)
  | c :: rest =>
      if isUrlChar c then (c :: (spanUnits rest).1, (spanUnits rest).2)
      else ([], c :: rest)

/-- Where in a path the parser is: at its start, behind a slash, or in a
segment. -/
inductive PathState where
  | start
  | slash
  | segment
  deriving DecidableEq

/-- A unit of a segment, with the slash before it if it is the first. -/
def emit (at_ : PathState) (unit rest : Text) : Text :=
  match at_ with
  | .slash => '/' :: unit ++ rest
  | _ => unit ++ rest

/-- The path, without the slash it may end with. -/
def parsePath : PathState → Text → Option Text
  | _, [] => some []
  | .slash, '/' :: _ => none
  | _, '/' :: rest => parsePath .slash rest
  | .start, _ => none
  | at_, '%' :: a :: b :: rest =>
      if isXDigit a && isXDigit b then
        (parsePath .segment rest).map (emit at_ ['%', a, b])
      else none
  | at_, c :: rest =>
      if isUrlChar c then (parsePath .segment rest).map (emit at_ [c])
      else none

theorem isUrlChar_slash : isUrlChar '/' = false := by decide

theorem isXDigit_slash : isXDigit '/' = false := by decide

theorem ne_slash_of_isUrlChar {c : Char} (h : isUrlChar c = true) :
    '/' ≠ c := by
  rintro rfl
  rw [isUrlChar_slash] at h
  cases h

theorem ne_slash_of_isXDigit {c : Char} (h : isXDigit c = true) :
    '/' ≠ c := by
  rintro rfl
  rw [isXDigit_slash] at h
  cases h

theorem spanUnits_no_slash (text : Text) : '/' ∉ (spanUnits text).1 := by
  fun_induction spanUnits text with
  | case1 => simp
  | case2 a b rest h ih =>
      rw [Bool.and_eq_true] at h
      simp [ne_slash_of_isXDigit h.1, ne_slash_of_isXDigit h.2, ih]
  | case3 a b rest h => simp
  | case4 c rest hne h ih => simp [ne_slash_of_isUrlChar h, ih]
  | case5 c rest hne h => simp

/-- What the parser returns behind a slash has that slash, unless the text
ends there. -/
theorem parsePath_slash {text path : Text}
    (h : parsePath .slash text = some path) :
    path = [] ∨ path.head? = some '/' := by
  have hemit : ∀ unit (p : Option Text), p.map (emit .slash unit) = some path →
      path.head? = some '/' := by
    intro unit p hp
    obtain ⟨rest, -, rfl⟩ := Option.map_eq_some_iff.mp hp
    rfl
  unfold parsePath at h
  split at h
  · exact .inl (Option.some.inj h).symm
  · cases h
  next hslash => exact (hslash rfl).elim
  next heq _ _ => cases heq
  · split at h
    · exact .inr (hemit _ _ h)
    · cases h
  · split at h
    · exact .inr (hemit _ _ h)
    · cases h

theorem parsePath_absolute {text path : Text}
    (h : parsePath .start text = some path) :
    path = [] ∨ path.head? = some '/' := by
  unfold parsePath at h
  split at h
  · exact .inl (Option.some.inj h).symm
  next heq => cases heq
  · exact parsePath_slash h
  · cases h
  next hstart => exact (hstart rfl).elim
  next hstart => exact (hstart rfl).elim

/-- A URL. No part contains the character that ends it. -/
structure Url where
  protocol : Text
  host : Text
  port : Text
  path : Text
  protocol_no_colon : ':' ∉ protocol
  host_no_slash : '/' ∉ host
  port_no_slash : '/' ∉ port
  path_absolute : path = [] ∨ path.head? = some '/'

/-- The port, and what follows it. -/
def spanPort : Text → Text × Text
  | ':' :: rest => (rest.takeWhile Char.isDigit, rest.dropWhile Char.isDigit)
  | rest => ([], rest)

theorem takeWhile_scheme_no_colon (text : Text) :
    ':' ∉ text.takeWhile isSchemeChar := by
  intro h
  exact absurd (List.mem_takeWhile_imp h) (by decide)

theorem spanPort_no_slash (text : Text) : '/' ∉ (spanPort text).1 := by
  intro h
  unfold spanPort at h
  split at h
  · exact absurd (List.mem_takeWhile_imp h) (by decide)
  · cases h

/-- `URL`, the constructor that takes a text. -/
def parseUrl (text : Text) : Option Url :=
  if (text.takeWhile isSchemeChar).head?.any Char.isAlpha then
    match text.dropWhile isSchemeChar with
    | ':' :: '/' :: '/' :: rest =>
        if (spanUnits rest).1.isEmpty then none
        else
          match h : parsePath .start (spanPort (spanUnits rest).2).2 with
          | none => none
          | some path =>
              some
                { protocol := text.takeWhile isSchemeChar
                  host := (spanUnits rest).1
                  port := (spanPort (spanUnits rest).2).1
                  path := path
                  protocol_no_colon := takeWhile_scheme_no_colon text
                  host_no_slash := spanUnits_no_slash rest
                  port_no_slash := spanPort_no_slash _
                  path_absolute := parsePath_absolute h }
    | _ => none
  else none

/-- `as_string` -/
def Url.asString (url : Url) : Text :=
  url.protocol ++ "://".toList ++ url.host ++
    (if url.port.isEmpty then [] else ':' :: url.port) ++ url.path

/-! ## The token's URL -/

/-- The last position at which a pattern occurs. -/
def rfind (pattern : Text) : Text → Option ℕ
  | [] => if pattern.isEmpty then some 0 else none
  | c :: rest =>
      match rfind pattern rest with
      | some i => some (i + 1)
      | none => if pattern.isPrefixOf (c :: rest) then some 0 else none

theorem rfind_slash_none {path : Text} (h : rfind ['/'] path = none) :
    '/' ∉ path := by
  induction path with
  | nil => exact List.not_mem_nil
  | cons c path ih =>
      unfold rfind at h
      split at h
      case h_1 => cases h
      case h_2 hrest =>
        split at h
        case isTrue => cases h
        case isFalse hstarts =>
          intro hmem
          rcases List.mem_cons.mp hmem with rfl | hmem
          · exact hstarts rfl
          · exact ih hrest hmem

theorem rfind_slash_some {path : Text} {pos : ℕ}
    (h : rfind ['/'] path = some pos) :
    ∃ dir name, path = dir ++ '/' :: name ∧ '/' ∉ name ∧ pos = dir.length := by
  induction path generalizing pos with
  | nil => cases h
  | cons c path ih =>
      unfold rfind at h
      split at h
      case h_1 i hi =>
        cases h
        obtain ⟨dir, name, rfl, hname, rfl⟩ := ih hi
        exact ⟨c :: dir, name, rfl, hname, rfl⟩
      case h_2 hrest =>
        split at h
        case isTrue hstarts =>
          cases h
          have hc : '/' = c := by
            rw [List.isPrefixOf_cons_cons, Bool.and_eq_true, beq_iff_eq] at hstarts
            exact hstarts.1
          exact ⟨[], path, by rw [← hc]; rfl, rfind_slash_none hrest, rfl⟩
        case isFalse => cases h

/-- The text up to the last occurrence of a pattern, or all of it. -/
def uptoLast (pattern text : Text) : Text :=
  match rfind pattern text with
  | some i => text.take i
  | none => text

/-- The input sandbox path as a URL: as it is, or on this host. -/
def inputUrl (localHostname inputSandboxPath : Text) : Option Url :=
  match parseUrl inputSandboxPath with
  | some url => some url
  | none =>
      parseUrl ("gsiftp://".toList ++ localHostname ++ inputSandboxPath)

/-- What `JobAdapter` throws. -/
inductive AdapterError where
  | invalidAttributeValue (value : Text)
  | cannotCreateJobWrapper (what : Text)

/-- `ReallyRunningToken`, empty when shallow resubmission is off. -/
def resolveToken (cfg : Config) (localHostname : Text) (ad : Jdl) :
    Except AdapterError Text :=
  if ad.inputSandboxPath.isEmpty then
    .error (.invalidAttributeValue ad.inputSandboxPath)
  else
    match inputUrl localHostname ad.inputSandboxPath with
    | none =>
        .error (.cannotCreateJobWrapper ("Invalid URL: gsiftp://".toList ++
          localHostname ++ ad.inputSandboxPath))
    | some isbUrl =>
        let replansCount := ad.replansCount.getD 0
        let shallowRetryCount :=
          match ad.shallowRetryCount with
          | none => 0
          | some n => if n < 0 && n ≠ -1 then 0 else n
        if shallowRetryCount ≠ -1 then
          .ok (uptoLast "/input".toList isbUrl.asString ++
            '/' :: (cfg.tokenFile ++ '_' :: lexicalCastInt replansCount))
        else .ok []

/-- The path of a URL: what follows the authority. -/
def pathOfUrl (url : Text) : Text :=
  ((url.dropWhile (· ≠ ':')).drop 3).dropWhile (· ≠ '/')

end Wms.Core
