import Mathlib.Algebra.Notation.Defs
import Mathlib.Data.Char
import Mathlib.Data.List.Lex
import Mathlib.Order.Basic
import Wms.Core.Job
import Wms.Lib.OrderedMap

/-!
# Match-making on the ISM (`src/org.glite.wms.core/src/helper/broker`)

`matchmakerISMImpl.cpp`: which computing elements of the active side of the ISM
meet the requirements of a job, once looked for among all entries and once
among those whose id begins with one of a set, and how they are ranked. The
evaluation of ads is left to the ClassAd library, the attributes of a job to
the JDL library.
-/

namespace Wms.Core.Matchmaking

open Wms.Lib

/-! ## The ISM (`ism.cpp`) -/

/-- An expiry time of -1 says that the updater has set the entry as expired. -/
structure IsmEntry (Ad : Type) where
  expiryTime : ℤ
  ad : Ad

/-- A slice of the information supermarket. -/
abbrev Ism (Ad : Type) := OrderedMap Text (IsmEntry Ad)

/-- `is_void_ism_entry` -/
def isVoidIsmEntry {Ad : Type} (entry : IsmEntry Ad) : Bool :=
  entry.expiryTime ≤ 0

/-! ## The match table (`matchmaker.cpp`) -/

/-- What is kept of a computing element that matches. -/
structure MatchInfo (Ad K : Type) where
  ranked : Bool
  rank : K
  ad : Ad

/-- The computing elements that match. -/
abbrev Matchtable (Ad K : Type) := OrderedMap Text (MatchInfo Ad K)

variable {Ad Jdl K : Type}

/-- Whether an element has not been ranked. -/
def isRankUndefined (info : MatchInfo Ad K) : Bool := !info.ranked

/-- An element gets its rank. -/
def setRank (info : MatchInfo Ad K) (rank : K) : MatchInfo Ad K :=
  { info with ranked := true, rank := rank }

/-- The ClassAd and JDL libraries. `rightRank` is nothing where the rank is
undefined. -/
structure Libraries (Ad Jdl K : Type) where
  leftMatchesRight : Ad → Jdl → Bool
  ceInfoHostName : Ad → Option Text
  previousMatches : Jdl → Option (List Text)
  rightRank : Ad → Jdl → Option K

/-! ## Requirements -/

variable [Zero K] (L : Libraries Ad Jdl K)

/-- An entry of the ISM as it is put into the table. -/
def unranked (entry : IsmEntry Ad) : MatchInfo Ad K := ⟨false, 0, entry.ad⟩

/-- A valid entry is put into the table if it matches. -/
def addIfValid (jdl : Jdl) (e : Text × IsmEntry Ad) (suitableCEs : Matchtable Ad K) :
    Matchtable Ad K :=
  if e.2.expiryTime ≠ -1 then
    if L.leftMatchesRight e.2.ad jdl then suitableCEs.set e.1 (unranked e.2)
    else suitableCEs
  else suitableCEs

/-- The loop over the slice that keeps what suits the requirements. -/
def requirementLoop (jdl : Jdl) :
    List (Text × IsmEntry Ad) → Matchtable Ad K → Matchtable Ad K
  | [], suitableCEs => suitableCEs
  | e :: rest, suitableCEs =>
      if isVoidIsmEntry e.2 then requirementLoop jdl rest suitableCEs
      else requirementLoop jdl rest (addIfValid L jdl e suitableCEs)

/-- The previous matches are taken out, unless that leaves nothing. -/
def withoutPreviousMatches (jdl : Jdl) (suitableCEs : Matchtable Ad K) :
    Matchtable Ad K :=
  match L.previousMatches jdl with
  | none => suitableCEs
  | some previousMatches =>
      let others := suitableCEs.filter fun e =>
        (L.ceInfoHostName e.2.ad).getD [] ∉ previousMatches
      if others.entries.isEmpty then suitableCEs else others

/-- `checkRequirement(jdl, suitableCEs)` -/
def checkRequirement (ism : Ism Ad) (jdl : Jdl) (suitableCEs : Matchtable Ad K) :
    Matchtable Ad K :=
  withoutPreviousMatches L jdl (requirementLoop L jdl ism.entries suitableCEs)

/-- Whether an identifier begins with a text. -/
def startsWith (pattern : Text) (e : Text × IsmEntry Ad) : Bool :=
  pattern.isPrefixOf e.1

/-- The entries whose id begins with one of the set, each found from behind the
one before. -/
def restrictedLoop (jdl : Jdl) (ceId : Text) (ismIt : List (Text × IsmEntry Ad))
    (suitableCEs : Matchtable Ad K) : Matchtable Ad K :=
  match _h : ismIt.dropWhile (!startsWith ceId ·) with
  | [] => suitableCEs
  | e :: rest => restrictedLoop jdl ceId rest (addIfValid L jdl e suitableCEs)
termination_by ismIt.length
decreasing_by
  have hle := (List.dropWhile_suffix (l := ismIt) (!startsWith ceId ·)).length_le
  rw [_h, List.length_cons] at hle
  omega

/-- `checkRequirement(jdl, ce_ids, suitableCEs)` -/
def checkRequirementIn (ism : Ism Ad) (jdl : Jdl) (ceIds : OrderedMap Text Unit)
    (suitableCEs : Matchtable Ad K) : Matchtable Ad K :=
  ceIds.entries.foldl
    (fun suitableCEs ceId => restrictedLoop L jdl ceId.1 ism.entries suitableCEs)
    suitableCEs

/-! ## Ranks -/

/-- The exceptions of the match-making. -/
inductive MatchMakingError where
  | rankingError
  deriving DecidableEq

/-- `checkRank`: an entry that cannot be ranked is left as it is. -/
def checkRank (jdl : Jdl) (suitableCEs : Matchtable Ad K) :
    Except MatchMakingError (Matchtable Ad K) :=
  if suitableCEs.entries.isEmpty then .ok suitableCEs
  else if suitableCEs.entries.all fun e => (L.rightRank e.2.ad jdl).isNone then
    .error .rankingError
  else
    .ok (suitableCEs.mapValues fun _ info =>
      ((L.rightRank info.ad jdl).map (setRank info)).getD info)

/-- `RBSimpleISMImpl::findSuitableCEs` -/
def findSuitableCEsSimple (ism : Ism Ad) (jdl : Jdl) :
    Except MatchMakingError (Matchtable Ad K) :=
  (checkRank L jdl (checkRequirement L ism jdl .empty)).map fun suitableCEs =>
    suitableCEs.filter fun e => !isRankUndefined e.2

end Wms.Core.Matchmaking
