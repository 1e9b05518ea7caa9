import Wms.Core.Broker
import Wms.Lib.StableSort

/-!
# The answer of the matcher (`src/org.glite.wms.core/src/helper/broker`)

`Helper_matcher_ism.cpp`: the broker that goes with the job is asked for the
suitable computing elements, and the best ranked of them make up the answer.
-/

namespace Wms.Core.MatcherHelper

open Wms.Lib Wms.Core Matchmaking Broker

/-! ## The answer -/

/-- What is answered of a computing element. -/
structure CeInfo (K B : Type) where
  ceId : Text
  rank : K
  brokerinfo : Option B

/-- What the helper answers. -/
structure Answer (K B : Type) where
  reason : Text
  matchResult : List (CeInfo K B)

/-- The two reasons. -/
def noMatchingResources : Text := "no matching resources found".toList

def ok : Text := "ok".toList

/-- `RankingError::what` -/
def rankingErrorWhat : Text :=
  ("Problems during rank evaluation " ++
    "(e.g. GRISes down, wrong JDL rank expression, etc.)").toList

/-- The reason where an attribute cannot be had. -/
def cannotGetAttribute (parameter : Text) : Text :=
  "Attribute ".toList ++ parameter ++
    " does not exist or has the wrong type".toList

/-! ## The job (JDL library) -/

/-- What is known of a job, and what is made of it elsewhere. -/
structure Requests (CeAd Jdl B : Type) where
  inputDataExists : Jdl → Bool
  dataRequirementsExist : Jdl → Bool
  virtualOrganisation : Jdl → Option Text
  includeBrokerinfo : Jdl → Option Bool
  numberOfResults : Jdl → Option ℤ
  glueCEUniqueID : CeAd → Option Text
  resolveFilemappingInfo : Jdl → FileMapping
  createBrokerinfo : Jdl → CeAd → Option (FileMapping × StorageMapping) → B

variable {CeAd SeAd Jdl K B : Type} [Zero K] [LinearOrder K]
  (L : Libraries CeAd Jdl K) (S : StorageAds SeAd) (D : DataAttributes Jdl)
  (R : Requests CeAd Jdl B) (partition : Partition (Text × StorageInfo))

/-! ## `f_resolve_do_match` -/

/-- Whether the broker that looks for data is taken. -/
def usesData (jdl : Jdl) : Bool :=
  R.inputDataExists jdl || R.dataRequirementsExist jdl

/-- `rb.findSuitableCEs`, with the implementation that has been chosen -/
def findSuitableCEs (ceIsm : Ism CeAd) (seIsm : Ism SeAd) (jdl : Jdl) :
    Except BrokerError
      (Matchtable CeAd K × Option (FileMapping × StorageMapping)) :=
  if usesData R jdl then
    let fm := R.resolveFilemappingInfo jdl
    (Broker.findSuitableCEs S L D partition ceIsm seIsm fm jdl).map
      fun (suitableCEs, sm) => (suitableCEs, some (fm, sm))
  else
    ((findSuitableCEsSimple L ceIsm jdl).mapError .matchMaking).map
      fun suitableCEs => (suitableCEs, none)

/-- One of the results; `none` is an exception that is not caught. -/
def ceinfo (jdl : Jdl) (data : Option (FileMapping × StorageMapping))
    (it : Text × MatchInfo CeAd K) : Option (CeInfo K B) :=
  (R.glueCEUniqueID it.2.ad).map fun ceId =>
    { ceId := ceId
      rank := it.2.rank
      brokerinfo :=
        if (R.includeBrokerinfo jdl).getD false then
          some (R.createBrokerinfo jdl it.2.ad data)
        else none }

/-- `rank_greater_than_comparator`, with what is equal -/
def rankGreaterThan (a b : Text × MatchInfo CeAd K) : Prop := b.2.rank ≤ a.2.rank

instance : DecidableRel (@rankGreaterThan CeAd K _) :=
  fun a b => inferInstanceAs (Decidable (b.2.rank ≤ a.2.rank))

/-- How many go into the answer. -/
def firstResults {α : Type} (numberOfResults : Option ℤ) (l : List α) : List α :=
  let n := numberOfResults.getD (-1)
  if n = -1 then l else l.take n.toNat

/-- `f_resolve_do_match`; `none` is an exception that is not caught. -/
def resolveDoMatch (ceIsm : Ism CeAd) (seIsm : Ism SeAd) (jdl : Jdl) :
    Option (Answer K B) :=
  match findSuitableCEs L S D R partition ceIsm seIsm jdl with
  | .error (.matchMaking .rankingError) => some ⟨rankingErrorWhat, []⟩
  | .error .outOfRange => none
  | .ok (suitableCEs, data) =>
      match R.virtualOrganisation jdl with
      | none => some ⟨cannotGetAttribute "VirtualOrganisation".toList, []⟩
      | some _ =>
          if suitableCEs.entries.isEmpty then some ⟨noMatchingResources, []⟩
          else
            let sorted := suitableCEs.entries.insertionSort rankGreaterThan
            ((firstResults (R.numberOfResults jdl) sorted).mapM
              (ceinfo R jdl data)).map fun hosts => ⟨ok, hosts⟩

end Wms.Core.MatcherHelper
