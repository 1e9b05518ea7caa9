import Mathlib.Data.Finset.Card
import Wms.Core.Matchmaker
import Wms.Lib.CString

/-!
# Match-making with input data (`src/org.glite.wms.core/src/helper/broker`)

`storage_utils.cpp` and `RBMaximizeFilesISMImpl.cpp`: the storage elements that
hold replicas of the files of a job, those of them that can be used with the
protocols the job asks for, the computing elements close to these, and of the
computing elements that suit the job those with the greatest number of files
within reach. Which replicas a file has is for the data location interface to
say, and the attributes of the ads for the ClassAd library.
-/

namespace Wms.Core.Broker

open Wms.Lib Wms.Core Matchmaking

/-! ## Storage (`storage_utils.cpp`) -/

/-- The sites of each logical file, by its name. -/
abbrev FileMapping := OrderedMap Text (List Text)

/-- `StorageInfo`: the protocols, files and mount points of a storage element. -/
structure StorageInfo where
  protocols : Finset (Text × ℤ)
  /-- The names of the files, for the iterators into the file mapping. -/
  links : List Text
  ceMounts : List (Text × Text)

/-- `StorageMapping`, by the identifier of the storage element. -/
abbrev StorageMapping := OrderedMap Text StorageInfo

/-- The lists of ads in the ad of a storage element: the access protocols with
type and port, and the close computing elements with id and access point, where
they are defined. -/
structure StorageAds (SeAd : Type) where
  accessProtocols : SeAd → List (Option Text × Option ℤ)
  closeComputingElements : SeAd → List (Option Text × Option Text)
  /-- A port that has not been set. -/
  junk : ℤ

variable {SeAd : Type} (S : StorageAds SeAd)

/-- The host in an URL that matches `^\s*([^:]*):[\s/]*([^\s:/]+)(:[0-9]+)?/.*`:
the classes of characters leave one way to match. -/
def hostOfUrl (sfn : Text) : Option Text :=
  match sfn.dropWhile (· ≠ ':') with
  | [] => none
  | _ :: rest =>
      let fromHost := rest.dropWhile fun c => isSpace c || c = '/'
      let inHost : Char → Bool := fun c => !isSpace c && c ≠ ':' && c ≠ '/'
      let host := fromHost.takeWhile inHost
      if host.isEmpty then none
      else
        match fromHost.dropWhile inHost with
        | '/' :: _ => some host
        | ':' :: port =>
            if (port.takeWhile Char.isDigit).isEmpty then none
            else if (port.dropWhile Char.isDigit).head? = some '/' then some host
            else none
        | _ => none

/-- `resolve_storage_name`; the position where the separator was found is
converted to a truth value before it is used. `none` is an exception. -/
def resolveStorageName (sfn : Text) : Option Text :=
  match hostOfUrl sfn with
  | some name => some name
  | none =>
      if (breakOn "://".toList sfn).isSome then
        if 4 ≤ sfn.length then some (sfn.drop 4) else none
      else some []

/-- The protocol and the port that an ad names. -/
def makeStorageInfo (ad : Option Text × Option ℤ) : Text × ℤ :=
  (ad.1.getD [], ad.2.getD S.junk)

/-- All access protocols of an element. -/
def insertProtocols (protos : Finset (Text × ℤ)) (seAd : SeAd) :
    Finset (Text × ℤ) :=
  (S.accessProtocols seAd).foldl
    (fun protos ad => insert (makeStorageInfo S ad) protos) protos

/-- The computing element and the mount point that an ad names. -/
def makeCeBindInfo (ad : Option Text × Option Text) : Text × Text :=
  (ad.1.getD [], ad.2.getD [])

/-- All of an element, in their order. -/
def insertCeMountPoints (mounts : List (Text × Text)) (seAd : SeAd) :
    List (Text × Text) :=
  mounts ++ (S.closeComputingElements seAd).map makeCeBindInfo

/-- An element of which nothing has been read. -/
def StorageInfo.empty : StorageInfo := ⟨∅, [], []⟩

/-- One replica of a file. -/
def addReplica (theIsm : Ism SeAd) (lfn sfn : Text) (result : StorageMapping) :
    Option StorageMapping :=
  (resolveStorageName sfn).map fun name =>
    if name.isEmpty then result
    else
      match theIsm.find? name with
      | none => result
      | some se =>
          let info := (result.find? name).getD .empty
          result.set name
            { protocols := insertProtocols S info.protocols se.ad
              links := info.links ++ [lfn]
              ceMounts := insertCeMountPoints S info.ceMounts se.ad }

/-- `resolve_storagemapping_info` -/
def resolveStoragemappingInfo (theIsm : Ism SeAd) (fm : FileMapping) :
    Option StorageMapping :=
  fm.entries.foldlM
    (fun result file => file.2.foldlM
      (fun result sfn => addReplica S theIsm file.1 sfn result) result)
    .empty

/-- The protocol of mounted files. -/
def file : Text := ['f', 'i', 'l', 'e']

/-- Whether an element speaks a protocol. -/
def matchesAnyProtocolIn (protocols : Finset (Text × ℤ)) (p : Text) : Bool :=
  decide (∃ it ∈ protocols, it.1 = p)

/-- Whether there is a mount point. -/
def isMountDefined (mount : Text × Text) : Bool := !mount.2.isEmpty

/-- Whether `select_compatible_storage` takes a storage element: only the first
of the requested protocols that it supports is looked at. -/
def isSelected (dap : List Text) (storage : Text × StorageInfo) : Bool :=
  match dap.find? (matchesAnyProtocolIn storage.2.protocols) with
  | none => false
  | some it => !(it = file && !storage.2.ceMounts.any isMountDefined)

/-- `select_compatible_storage` -/
def selectCompatibleStorage (sm : StorageMapping) (dap : List Text) :
    List (Text × StorageInfo) :=
  sm.entries.filter (isSelected dap)

/-- `count_unique_logical_files` -/
def countUniqueLogicalFiles (storage : List (Text × StorageInfo)) : ℕ :=
  (storage.flatMap fun si => si.2.links).toFinset.card

/-- `extract_computing_elements_id`, over all of the storage -/
def extractComputingElementsId (storage : List (Text × StorageInfo)) :
    OrderedMap Text Unit :=
  storage.foldl
    (fun s si => si.2.ceMounts.foldl (fun s mount => s.set mount.1 ()) s) .empty

/-- Whether an element has a mount point on the computing element. -/
def isStorageCloseTo (ceid : Text) (si : Text × StorageInfo) : Bool :=
  si.2.ceMounts.any fun mount => mount.1.isPrefixOf ceid

/-! ## The broker (`RBMaximizeFilesISMImpl.cpp`) -/

/-- `std::partition`: those that meet a predicate and those that do not, in some
order. -/
structure Partition (α : Type) where
  parts : (α → Bool) → List α → List α × List α
  perm : ∀ p l, ((parts p l).1 ++ (parts p l).2).Perm l
  first : ∀ p l, ∀ a ∈ (parts p l).1, p a = true
  second : ∀ p l, ∀ a ∈ (parts p l).2, p a = false

/-- What the JDL library says about the data of a job. -/
structure DataAttributes (Jdl : Type) where
  dataAccessProtocol : Jdl → List Text
  fullListMatchResult : Jdl → Option Bool

/-- What the loop over the computing elements keeps: the storage as the last
partition has left it, the greatest number of files so far, and the computing
elements with each number. -/
structure Counts where
  compatibleStorage : List (Text × StorageInfo)
  maxFiles : ℕ
  uniqueLogicalFilesPerCe : OrderedMap ℕ (List Text)

/-- The counts that a computing element reaches. -/
def countCe (partition : Partition (Text × StorageInfo)) (counts : Counts)
    (id : Text) : Counts :=
  let parts := partition.parts (isStorageCloseTo id) counts.compatibleStorage
  let n := countUniqueLogicalFiles parts.1
  { compatibleStorage := parts.1 ++ parts.2
    maxFiles := if counts.maxFiles < n then n else counts.maxFiles
    uniqueLogicalFilesPerCe := counts.uniqueLogicalFilesPerCe.set n
      ((counts.uniqueLogicalFilesPerCe.find? n).getD [] ++ [id]) }

variable {CeAd Jdl K : Type} [Zero K] (L : Libraries CeAd Jdl K)
  (D : DataAttributes Jdl) (partition : Partition (Text × StorageInfo))

/-- The selection at the end. -/
def keepMaxFiles (jdl : Jdl) (compatibleStorage : List (Text × StorageInfo))
    (suitableCEs : Matchtable CeAd K) : Matchtable CeAd K :=
  let counts := (suitableCEs.entries.map Prod.fst).foldl (countCe partition)
    ⟨compatibleStorage, 0, .empty⟩
  if (D.fullListMatchResult jdl).getD false then suitableCEs
  else
    let maxLogicalFilesCes :=
      (counts.uniqueLogicalFilesPerCe.find? counts.maxFiles).getD []
    suitableCEs.filter fun e => e.1 ∈ maxLogicalFilesCes

/-- What the brokers throw. -/
inductive BrokerError where
  | matchMaking (e : MatchMakingError)
  | outOfRange
  deriving DecidableEq

/-- `RBMaximizeFilesISMImpl::findSuitableCEs`: the table, and the storage the
files are on. -/
def findSuitableCEs (ceIsm : Ism CeAd) (seIsm : Ism SeAd) (fm : FileMapping)
    (jdl : Jdl) : Except BrokerError (Matchtable CeAd K × StorageMapping) :=
  match resolveStoragemappingInfo S seIsm fm with
  | none => .error .outOfRange
  | some sm =>
      let compatibleStorage :=
        selectCompatibleStorage sm (D.dataAccessProtocol jdl)
      let suitableCEs := checkRequirementIn L ceIsm jdl
        (extractComputingElementsId compatibleStorage) .empty
      match checkRank L jdl suitableCEs with
      | .error e => .error (.matchMaking e)
      | .ok suitableCEs =>
          .ok (keepMaxFiles D partition jdl compatibleStorage suitableCEs, sm)

end Wms.Core.Broker
