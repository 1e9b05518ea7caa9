import Mathlib.Data.Finset.Insert
import Mathlib.Logic.Function.Basic
import Mathlib.Order.Defs.LinearOrder
import Wms.Core.Job

/-!
# Bulk match-making (`src/org.glite.wms.core/src/bulkmm_utils.cpp`)

The nodes of a collection are put in clusters, the match-maker is asked once
for each, and every node is given one of the matches of its cluster or is left
pending. The broker information of a match is behind a pointer, an index into
what has been allocated: all who hold it see what is written there.

`WMReal::submit_collection` (`wm_real.cpp`) writes it out afterwards.
-/

namespace Wms.Core.Bulk

/-- The attributes of an ad. -/
abbrev Ad (E : Type) := String → Option E

/-- The attribute of a brokerinfo that the JDL gets. -/
def dataAccessProtocol : String := "DataAccessProtocol"

/-- Numbers with the rounding of the machine, of which only the order is the
usual one. -/
structure Doubles (K : Type) [LinearOrder K] where
  ofNat : ℕ → K
  add : K → K → K
  sub : K → K → K
  mul : K → K → K
  div : K → K → K
  atan : K → K
  zero_le_one : ofNat 0 ≤ ofNat 1
  le_add : ∀ a w, ofNat 0 ≤ w → a ≤ add a w
  mul_le : ∀ u b, ofNat 0 ≤ u → u < ofNat 1 → ofNat 0 ≤ b →
    mul u b ≤ b
  atan_ge : ∀ x, ofNat 0 ≤ add (atan x) (mul (atan (ofNat 1)) (ofNat 2))

/-- The JDL and ClassAd libraries. A getter that may throw returns nothing
where it does. -/
structure Libraries (E K : Type) where
  unparse : E → String
  unparse_ne : ∀ e, unparse e ≠ ""
  ofBool : Bool → E
  ofInt : ℤ → E
  nodes : Ad E → Ad E
  getSignificantAttributes : Ad E → Option (List String)
  getFuzzyRank : Ad E → Option Bool
  getFuzzyFactor : Ad E → Option K
  getSubmitTo : Ad E → Bool
  setGlobusResourceContactString : Ad E → Text → Ad E
  setLrmsType : Ad E → Text → Ad E
  setQueueName : Ad E → Text → Ad E
  setCeinfoHostName : Ad E → Text → Ad E
  setCeId : Ad E → Text → Ad E
  getInputSandbox : Ad E → List String
  getWmpinputSandboxBaseUri : Ad E → Option String
  setInputSandbox : Ad E → List String → Ad E
  setInputSandbox_dac : ∀ ad isb,
    setInputSandbox ad isb dataAccessProtocol = ad dataAccessProtocol
  getInputSandboxPath : Ad E → Option String

/-- `DAGAd`: the nodes are in a map, by name. -/
structure Collection (E : Type) where
  ad : Ad E
  nodes : List (String × Ad E)
  nodup : (nodes.map Prod.fst).Nodup

/-! ## Matches (`match_utils.cpp`) -/

/-- Where an ad is in the heap. -/
abbrev Pointer := ℕ

/-- The ads that were made; what is there may be changed by all that point to it. -/
abbrev Heap (E : Type) := List (Ad E)

/-- What the bulk matcher keeps of an entry of the match table. -/
structure Match (K : Type) where
  ceId : Text
  rank : K
  brokerinfo : Pointer
  deriving DecidableEq

/-- A match of a response: an attribute that is missing or has the wrong type
throws when it is read. -/
structure Entry (E K : Type) where
  ceId : Option Text
  rank : Option K
  brokerinfo : Option (Ad E)

/-- What the helper answers: a reason or the result of a match. -/
structure Response (E K : Type) where
  reason : Option String
  matchResult : Option (List (Entry E K))

/-- What is thrown when an answer is read. -/
inductive MatchError where
  | reason (what : String)
  | invalidFormat
  deriving DecidableEq

/-- A full match of `.+/([^-]+)-.+`. -/
def hasBase : Text → Bool
  | [] => false
  | _ :: cs => after cs
where
  after : Text → Bool
    | [] => false
    | c :: cs =>
        (c = '/' && !(cs.takeWhile (· ≠ '-')).isEmpty &&
          1 < (cs.dropWhile (· ≠ '-')).length) || after cs

variable {E K : Type}

/-- The loop of `fill_matches`, with the matches it has got to before an
attribute throws. -/
def fillEntries : List (Entry E K) → List (Match K) → Heap E →
    List (Match K) × Heap E × Except MatchError Bool
  | [], matches_, heap => (matches_, heap, .ok (!matches_.isEmpty))
  | entry :: rest, matches_, heap =>
      match entry.ceId with
      | none => (matches_, heap, .error .invalidFormat)
      | some ceId =>
          if hasBase ceId then
            match entry.rank, entry.brokerinfo with
            | some rank, some brokerinfo =>
                fillEntries rest (matches_ ++ [⟨ceId, rank, heap.length⟩])
                  (heap ++ [brokerinfo])
            | _, _ => (matches_, heap, .error .invalidFormat)
          else fillEntries rest matches_ heap

/-- The entries of a match result, each with its brokerinfo on the heap. -/
def fillMatches (response : Response E K) (matches_ : List (Match K))
    (heap : Heap E) : List (Match K) × Heap E × Except MatchError Bool :=
  match response.reason with
  | none => (matches_, heap, .error .invalidFormat)
  | some reason =>
      if reason ≠ "ok" then (matches_, heap, .error (.reason reason))
      else
        match response.matchResult with
        | none => (matches_, heap, .error .invalidFormat)
        | some entries => fillEntries entries matches_ heap

/-! ## Clusters -/

/-- The values of the significant attributes, by name. -/
abbrev ClusterKey := List (String × String)

/-- The nodes that are matched together, by the JDL of the first of them. -/
structure Cluster (E K : Type) where
  jdl : Ad E
  names : List String
  matches_ : List (Match K)

/-- `std::map` of the clusters, by key. -/
abbrev Clusters (E K : Type) := List (ClusterKey × Cluster E K)

section
variable (lib : Libraries E K)

/-- Those of the node, else of the collection. -/
def lookupSignificantAttributes (jobJdl dagJdl : Ad E) : List String :=
  match lib.getSignificantAttributes jobJdl with
  | some result => result
  | none =>
      match lib.getSignificantAttributes (lib.nodes dagJdl) with
      | some result => result
      | none => (lib.getSignificantAttributes dagJdl).getD []

/-- An attribute of the node, else of the collection. -/
def lookup (jobJdl dagJdl : Ad E) (attr : String) : Option E :=
  match jobJdl attr with
  | some expr => some expr
  | none =>
      match lib.nodes dagJdl attr with
      | some expr => some expr
      | none => dagJdl attr

/-- The significant attributes that are there, with their values. -/
def significantPairs (jobJdl dagJdl : Ad E) : ClusterKey :=
  (lookupSignificantAttributes lib jobJdl dagJdl).filterMap fun attr =>
    (lookup lib jobJdl dagJdl attr).map fun expr => (attr, lib.unparse expr)

/-- The key of a node; one with no attributes that count is alone. -/
def makeKey (jobJdl dagJdl : Ad E) (name : String) : ClusterKey :=
  if significantPairs lib jobJdl dagJdl = [] then [(name, "")]
  else significantPairs lib jobJdl dagJdl

end

/-- `operator<` of pairs. -/
def attributeLt (a b : String × String) : Bool :=
  a.1 < b.1 || (a.1 = b.1 && a.2 < b.2)

/-- `operator<` of vectors. -/
def keyLt : ClusterKey → ClusterKey → Bool
  | _, [] => false
  | [], _ :: _ => true
  | a :: as, b :: bs => attributeLt a b || (!attributeLt b a && keyLt as bs)

/-- A node joins; the JDL is that of the first. -/
def Cluster.push (cluster : Cluster E K) (jdl : Ad E) (name : String) :
    Cluster E K where
  jdl := if cluster.names = [] then jdl else cluster.jdl
  names := cluster.names ++ [name]
  matches_ := cluster.matches_

/-- A new key goes before the first greater one. -/
def insertKey (key : ClusterKey) (cluster : Cluster E K) :
    Clusters E K → Clusters E K
  | [] => [(key, cluster)]
  | v :: rest =>
      if keyLt key v.1 then (key, cluster) :: v :: rest
      else v :: insertKey key cluster rest

/-- `Clusterize::operator()` -/
def addNode (key : ClusterKey) (jdl : Ad E) (name : String)
    (clusters : Clusters E K) : Clusters E K :=
  if clusters.any (·.1 = key) then
    clusters.map fun v => if v.1 = key then (v.1, v.2.push jdl name) else v
  else
    insertKey key (Cluster.push ⟨fun _ => none, [], []⟩ jdl name) clusters

/-- All nodes, in the order of the collection. -/
def clusterize (lib : Libraries E K) (dag : Ad E) :
    List (String × Ad E) → Clusters E K → Clusters E K
  | [], clusters => clusters
  | (name, jdl) :: rest, clusters =>
      clusterize lib dag rest
        (addNode (makeKey lib jdl dag name) jdl name clusters)

/-! ## The match-maker -/

/-- What makes the function throw or run past an end. -/
inductive Fault where
  | helper (what : String)
  | pastEnd
  deriving DecidableEq, Repr

/-- The helpers in one run: the match-maker is asked once for each cluster,
the job adapter at most once for each node. -/
structure Helpers (E K : Type) where
  resolve : ClusterKey → String → Ad E → Except String (Response E K)
  adapt : String → Except String (Ad E)

section
variable (lib : Libraries E K) (helpers : Helpers E K)

/-- The ad that the match-maker is asked about. -/
def matchAd (jdl : Ad E) : Ad E :=
  Function.update (Function.update jdl "include_brokerinfo"
    (some (lib.ofBool true))) "number_of_results" (some (lib.ofInt 100))

/-- What the helper answers about a cluster. -/
def resolve (v : ClusterKey × Cluster E K) :
    Except String (Response E K) :=
  helpers.resolve v.1
    (if lib.getSubmitTo (matchAd lib v.2.jdl) then "BrokerHelper"
      else "MatcherHelper") (matchAd lib v.2.jdl)

/-- `Match` for every cluster. A `MatchError` is only written to the log. -/
def matchClusters : Clusters E K → Heap E →
    Except Fault (Clusters E K × Heap E)
  | [], heap => .ok ([], heap)
  | v :: rest, heap =>
      match resolve lib helpers v with
      | .error what => .error (.helper what)
      | .ok response =>
          let filled := fillMatches response v.2.matches_ heap
          match matchClusters rest filled.2.1 with
          | .error e => .error e
          | .ok (rest, heap) =>
              .ok ((v.1, { v.2 with matches_ := filled.1 }) :: rest, heap)

end

/-! ## The choice of a destination -/

section
variable [LinearOrder K] (d : Doubles K)

/-- A random number in [0, 1). -/
abbrev Draw := { u : K // d.ofNat 0 ≤ u ∧ u < d.ofNat 1 }

/-- `std::partial_sum` -/
def partialSum : List K → List K
  | [] => []
  | x :: xs => x :: sums x xs
where
  sums (acc : K) : List K → List K
    | [] => []
    | x :: xs => d.add acc x :: sums (d.add acc x) xs

/-- The greatest rank. -/
def maxRank (m : Match K) (matches_ : List (Match K)) : K :=
  matches_.foldl (fun rank m => if rank < m.rank then m.rank else rank) m.rank

/-- The matches with those of maximal rank in front, and how many they are. -/
def maxPartition : List (Match K) → List (Match K) × ℕ
  | [] => ([], 0)
  | m :: rest =>
      let best := (m :: rest).filter (·.rank = maxRank m rest)
      (best ++ (m :: rest).filter (·.rank ≠ maxRank m rest), best.length)

/-- The weights of the matches for the draw. -/
def makeDistribution (matches_ : List (Match K)) (f : K) : List K :=
  let ranks := matches_.map Match.rank
  let rankMean := d.div (ranks.foldl d.add (d.ofNat 0)) (d.ofNat ranks.length)
  partialSum d (ranks.map fun r =>
    d.add (d.atan (d.mul f (d.sub r rankMean)))
      (d.mul (d.atan (d.ofNat 1)) (d.ofNat 2)))

/-- `std::lower_bound` -/
def lowerBound (distribution : List K) (p : K) : ℕ :=
  distribution.findIdx fun x => !(x < p)

/-- `SelectDestination`: the position of a match. -/
def selectDestination (distribution : List K) (u : Draw d) : Option ℕ :=
  match distribution.getLast? with
  | none => none
  | some back => some (lowerBound distribution (d.mul u.1 back))

/-- The destinations of the nodes of a cluster, and how many random numbers
have been drawn after them. -/
def selectDestinations (distribution : List K) (draws : ℕ → Draw d) :
    List String → ℕ → List (Option ℕ) × ℕ
  | [], drawn => ([], drawn)
  | _ :: names, drawn =>
      let next := if distribution = [] then drawn else drawn + 1
      let rest := selectDestinations distribution draws names next
      (selectDestination d distribution (draws drawn) :: rest.1, rest.2)

end

/-! ## Scheduling -/

/-- A full match of `(([^\:]+):[0-9]+/[^\-]+-([^\-]+))-(.+)`: the contact
string, the host, the LRMS type and the queue. -/
def splitCeId (ceId : Text) : Option (Text × Text × Text × Text) :=
  let host := ceId.takeWhile (· ≠ ':')
  let rest := (ceId.dropWhile (· ≠ ':')).drop 1
  let port := rest.takeWhile Char.isDigit
  match rest.dropWhile Char.isDigit with
  | '/' :: rest =>
      let manager := rest.takeWhile (· ≠ '-')
      let rest := (rest.dropWhile (· ≠ '-')).drop 1
      let lrms := rest.takeWhile (· ≠ '-')
      let queue := (rest.dropWhile (· ≠ '-')).drop 1
      if host = [] || port = [] || manager = [] || lrms = [] || queue = [] then
        none
      else some (host ++ ':' :: port ++ '/' :: manager ++ '-' :: lrms, host,
        lrms, queue)
  | _ => none

section
variable (lib : Libraries E K)

/-- The JDL of a node by its name. -/
def getJdl (coll : Collection E) (nodeName : String) : Ad E :=
  match coll.nodes.find? (·.1 = nodeName) with
  | some v => v.2
  | none => fun _ => none

/-- The JDL of a node with the computing element it goes to. -/
def makePlannedJdl (jdl : Ad E) (theMatch : Match K) : Ad E :=
  match splitCeId theMatch.ceId with
  | none => jdl
  | some (contact, host, lrms, queue) =>
      let result := lib.setGlobusResourceContactString jdl contact
      let result := lib.setLrmsType result lrms
      let result := lib.setQueueName result queue
      let result := lib.setCeinfoHostName result host
      lib.setCeId result theMatch.ceId

/-- The brokerinfo file joins the input sandbox. -/
def addBrokerinfoToIsb (jdl : Ad E) : Ad E :=
  lib.setInputSandbox jdl (lib.getInputSandbox jdl ++
    [match lib.getWmpinputSandboxBaseUri jdl with
      | some isbBaseUri => isbBaseUri ++ "/input/.BrokerInfo"
      | none => ".BrokerInfo"])

end

/-- A node that is ready: its planned JDL, what the adapter made of it, and its
brokerinfo. -/
structure ScheduledJob (E : Type) where
  planned : Ad E
  adapted : Ad E
  brokerinfo : Pointer

/-- What `Schedule` works on, with the random numbers drawn. -/
structure Progress (E : Type) where
  jobs : List (ScheduledJob E)
  pending : Finset String
  heap : Heap E
  drawn : ℕ

/-- `brokerinfo->Insert` -/
def insertDac (heap : Heap E) (p : Pointer) (dac : E) : Heap E :=
  heap.modify p fun ad => Function.update ad dataAccessProtocol (some dac)

/-- The broker information that is shared is written to before the adapter is
asked. -/
def noteDac (planned : Ad E) (p : Pointer) (heap : Heap E) : Heap E :=
  match planned dataAccessProtocol with
  | some dac => insertDac heap p dac
  | none => heap

section
variable (lib : Libraries E K) (helpers : Helpers E K) (coll : Collection E)

/-- The nodes of a cluster, each with the match that it got. -/
def scheduleNodes (matches_ : List (Match K)) :
    List (String × Option ℕ) → Progress E →
      Progress E × Except Fault Unit
  | [], s => (s, .ok ())
  | (nodeName, none) :: rest, s =>
      scheduleNodes matches_ rest
        { s with pending := insert nodeName s.pending }
  | (nodeName, some i) :: rest, s =>
      match matches_[i]? with
      | none => (s, .error .pastEnd)
      | some theMatch =>
          let plannedJdl := makePlannedJdl lib (getJdl coll nodeName) theMatch
          let s := { s with
            heap := noteDac plannedJdl theMatch.brokerinfo s.heap }
          match helpers.adapt nodeName with
          | .error what => (s, .error (.helper what))
          | .ok adaptedJdl =>
              scheduleNodes matches_ rest { s with
                jobs := s.jobs ++ [⟨addBrokerinfoToIsb lib plannedJdl,
                  adaptedJdl, theMatch.brokerinfo⟩] }

variable [LinearOrder K] (d : Doubles K) (draws : ℕ → Draw d)

/-- Whether the ranks of a cluster are weighed: its first node decides. -/
def stochastic (cluster : Cluster E K) : Bool :=
  (lib.getFuzzyRank cluster.jdl).getD false

/-- The factor of the draw, 1 without fuzzy ranking. -/
def fuzzyFactor (cluster : Cluster E K) : K :=
  match lib.getFuzzyRank cluster.jdl with
  | none => d.ofNat 1
  | some _ => (lib.getFuzzyFactor cluster.jdl).getD (d.ofNat 1)

/-- The matches of a cluster as the nodes are to choose from them. -/
def candidates (cluster : Cluster E K) : List (Match K) × List K :=
  if stochastic lib cluster then
    (cluster.matches_,
      makeDistribution d cluster.matches_ (fuzzyFactor lib d cluster))
  else
    let front := maxPartition cluster.matches_
    (front.1, partialSum d (List.replicate front.2 (d.ofNat 1)))

/-- `Schedule::operator()` -/
def schedule (cluster : Cluster E K) (s : Progress E) :
    Progress E × Except Fault Unit :=
  let (matches_, distribution) := candidates lib d cluster
  let (destinations, drawn) :=
    selectDestinations d distribution draws cluster.names s.drawn
  scheduleNodes lib helpers coll matches_ (cluster.names.zip destinations)
    { s with drawn := drawn }

/-- The clusters, in the order of their keys. -/
def scheduleClusters : Clusters E K → Progress E →
    Progress E × Except Fault Unit
  | [], s => (s, .ok ())
  | v :: rest, s =>
      match schedule lib helpers coll d draws v.2 s with
      | (s, .ok ()) => scheduleClusters rest s
      | (s, .error e) => (s, .error e)

/-- What is there after `do_bulk_mm`: the pending set is the caller's, the jobs
are too unless it throws. -/
structure Run (E : Type) where
  pending : Finset String
  heap : Heap E
  result : Except Fault (List (ScheduledJob E))

/-- `do_bulk_mm` -/
def doBulkMm (pending : Finset String) : Run E :=
  match matchClusters lib helpers
      (clusterize lib coll.ad coll.nodes []) [] with
  | .error e => ⟨pending, [], .error e⟩
  | .ok (clusters, heap) =>
      match scheduleClusters lib helpers coll d draws clusters
          ⟨[], pending, heap, 0⟩ with
      | (s, .ok ()) => ⟨s.pending, s.heap, .ok s.jobs⟩
      | (s, .error e) => ⟨s.pending, s.heap, .error e⟩

/-! ## The broker information of the nodes -/

/-- The loop over the scheduled jobs: the files it writes, up to the first
exception. `passes` says which rounds come through to their end. -/
def writeBrokerinfos (passes : ℕ → Bool) (heap : Heap E) :
    List (ScheduledJob E) → ℕ → List (String × Option (Ad E))
  | [], _ => []
  | job :: rest, i =>
      match lib.getInputSandboxPath job.planned with
      | none => []
      | some path =>
          (path ++ "/.BrokerInfo", heap[job.brokerinfo]?) ::
            if passes i then writeBrokerinfos passes heap rest (i + 1) else []

/-- The nodes that are submitted, each with what `do_bulk_mm` planned for it. -/
def submitCollection (passes : ℕ → Bool) (pending : Finset String) :
    List (String × Option (Ad E)) :=
  let run := doBulkMm lib helpers coll d draws pending
  match run.result with
  | .error _ => []
  | .ok jobs => writeBrokerinfos lib passes run.heap jobs 0

end

end Wms.Core.Bulk
