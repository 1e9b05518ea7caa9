import Wms.Core.Purchaser
import Wms.Lib.Gather

/-!
# The entries of the information supermarket
(`src/org.glite.wms.core/src/ism/purchaser`)

`fetch_bdii_ce_info_g2` and `fetch_bdii_se_info_g2` of `ldap-utils-g2.cpp`, once
the entries of the server are in a `BDII_info`: two loops over the endpoints and
their shares, which put together an ad for each of these. An exception leaves the
function, and the caller drops the container with it. The ad of a share has no
attribute but `Share`, so what is done for its `Rule` is never done.
-/

namespace Wms.Core.Purchaser

open Wms.Lib Gather

/-- The ads by their identifiers. -/
abbrev Container := OrderedMap Text Ad

/-- `*p` of an iterator or a pointer that may not be set. -/
def deref {α : Type} : Option α → Except Fault α
  | none => .error .unset
  | some a => .ok a

/-- `evaluate_expression` as a text. -/
def evaluated : Option Text → Except Fault Text
  | none => .error .thrown
  | some text => .ok text

namespace Ad

/-- `Insert` of an ad -/
def insertAd (ad : Ad) (name : String) (inner : Ad) : Ad :=
  ad.insert name (.ad inner)

/-- `Update` with the ad of a record, where it has one. -/
def updateWith (ad : Ad) (kind : String) (inner : Option Ad) : Ad :=
  match inner with
  | none => ad
  | some inner => ad.insertAd kind inner

/-- `DeepInsert(Lookup(scope), name, e)` -/
def deepInsert (ad : Ad) (scope name : String) (e : Expr) : Ad :=
  match ad scope with
  | some (.ad inner) => ad.insertAd scope (Ad.insert inner name e)
  | _ => ad

/-- The text of `scope.….name`. -/
def evaluatePath (ad : Ad) : List String → Option Text
  | [] => none
  | [name] => evaluateAttribute ad name
  | scope :: path =>
      match ad scope with
      | some (.ad inner) => evaluatePath inner path
      | _ => none

end Ad

/-- `any_cast<ExecEnvInfo>` -/
def asExecEnv : ResourceInfo → Except Fault ExecEnvInfo
  | .execEnv eei => .ok eei
  | .dataStore _ => .error .thrown

/-- `any_cast<DataStoreInfo const&>` -/
def asDataStore : ResourceInfo → Except Fault DataStoreInfo
  | .dataStore dsi => .ok dsi
  | .execEnv _ => .error .thrown

/-- `erase_first_copy` -/
def eraseFirst (what : Text) : Text → Text
  | [] => []
  | c :: text =>
      if what.isPrefixOf (c :: text) then (c :: text).drop what.length
      else c :: eraseFirst what text

/-- `erase_regex_copy(text, regex(".+:"))` -/
def eraseToColon : Text → Text
  | [] => []
  | c :: text =>
      if ':' ∈ text then (text.reverse.takeWhile (· ≠ ':')).reverse else c :: text

/-! ## Computing elements -/

/-- What the ads of all shares of an endpoint have. -/
def computingAd (info : BdiiInfo) (ep : EndpointInfo) (serviceId : Text) :
    Except Fault Ad := do
  let ad := Ad.empty.updateWith "Endpoint" ep.ad
  let service ← deref (info.services.find? serviceId)
  let serviceAd ← deref service.ad
  let manager ← deref (service.managerLnk.bind info.managers.find?)
  let managerAd ← deref manager.ad
  let policy ← deref (ep.policyLnk.bind info.policies.find?)
  let policyAd ← deref policy.ad
  let rule ← deref (policyAd "Rule")
  .ok (((ad.insertAd "Service" serviceAd).insertAd "Manager" managerAd).deepInsert
    "Endpoint" "Policy" rule)

/-- `copy_benchmark_info` -/
def copyBenchmarkInfo (info : BdiiInfo) (benchmarkId : Text) : Except Fault Expr := do
  let benchmark ← deref (info.benchmarks.find? benchmarkId)
  let ad ← deref benchmark.ad
  .ok (.ad ad)

/-- `EvaluateAttrList`, which leaves the list as it was, and that is not set. -/
def attrList (ad : Ad) (name : String) : Option (List Expr) :=
  match ad name with
  | some (.list items) => some items
  | _ => none

/-- The id of CREAM among what else is said of a share, for an endpoint. -/
def creamCEId (endpointId interfaceName : Text) (items : List Expr) : Option Text :=
  (items.find? (startsWith ("CREAMCEId=".toList ++
    eraseFirst ('_' :: interfaceName) endpointId))).map
      fun e => afterEquals (e.evaluateString.getD [])

/-- The identifier of the CREAM interface, where there is one. -/
def creamAd : Option Text → Ad
  | none => .empty
  | some id => Ad.empty.insert "CREAMCEId" (.string id)

/-- What else is said of a share, as an ad. -/
def shareOtherInfo (creamId : Option Text) (shareAd : Ad) : Option Ad := do
  let cast (s : Text) : Option Expr := some (.string s)
  let oi ← extractGlue2InfoValueIn cast shareAd "OtherInfo" "InfoProviderName"
    (creamAd creamId)
  let oi ← extractGlue2InfoValueIn cast shareAd "OtherInfo" "InfoProviderVersion" oi
  extractGlue2InfoValueIn cast shareAd "OtherInfo" "InfoProviderHost" oi

/-- `IsUndefined(…OtherInfo.CREAMCEId) ? ….ID : …OtherInfo.CREAMCEId` -/
def ceId (creamId : Option Text) (shareAd : Ad) : Option Text :=
  creamId.or (evaluateAttribute shareAd "ID")

/-- `Policy[0]` -/
def firstPolicy (shareAd : Ad) : Option Text :=
  (attrList shareAd "Policy").bind fun items => items.head?.bind Expr.evaluateString

/-- `glue13_attr_refs` -/
def glue13AttrRefs : List (String × List String) :=
  [ ("GlueCEInfoHostName",
      ["GLUE2", "Computing", "Share", "OtherInfo", "InfoProviderHost"]),
    ("GlueHostApplicationSoftwareRunTimeEnvironment",
      ["GLUE2", "ApplicationEnvironment", "AppName"]),
    ("GlueCEAccessControlBaseRule", ["GLUE2", "Computing", "Endpoint", "Policy"]),
    ("QueueName", ["GLUE2", "Computing", "Share", "MappingQueue"]),
    ("LRMSType", ["GLUE2", "Computing", "Manager", "ProductName"]),
    ("GlueCEUniqueID", ["CEid"]),
    ("GlobusResourceContactString", ["CEid"]) ]

/-- The references are evaluated when they are asked for. -/
def insertGlue13 (id : Text) (ad : Ad) : Ad :=
  let ad := ad.insert "CEid" (.string id)
  glue13AttrRefs.foldl (fun ad' ref => ad'.insert ref.1 (.other (ad.evaluatePath ref.2))) ad

/-- The body of the loop over the shares of an endpoint. -/
def ceEntry (info : BdiiInfo) (endpointId : Text) (ep : EndpointInfo) (computing : Ad)
    (shareId : Text) : Except Fault (Option (Text × Ad)) := do
  let share ← deref (info.shares.find? shareId)
  let shareAd ← deref share.ad
  let resource ← deref (share.resourcesLnk.head?.bind info.resources.find?)
  let eei ← asExecEnv resource
  let benchmarks ← eei.bmarksLnk.mapM (copyBenchmarkInfo info)
  let epAd ← deref ep.ad
  let interfaceName ← evaluated (evaluateAttribute epAd "InterfaceName")
  let items ← deref (attrList shareAd "OtherInfo")
  let creamId := creamCEId endpointId interfaceName items
  let oi ← (shareOtherInfo creamId shareAd).elim (.error .thrown) .ok
  let id ← evaluated (ceId creamId shareAd)
  let policy ← evaluated (firstPolicy shareAd)
  let applications := eei.applications.entries.map fun a => Expr.string a.1
  let g2Ad := Ad.empty.insert "Benchmark" (.list benchmarks)
  let g2Ad := g2Ad.insertAd "ApplicationEnvironment"
    (Ad.empty.insert "AppName" (.list applications))
  let g2Ad := g2Ad.updateWith "ExecutionEnvironment" eei.ad
  let g2Ad := g2Ad.insertAd "Computing"
    (computing.insertAd "Share" (shareAd.insertAd "OtherInfo" oi))
  .ok (some (id ++ '/' :: eraseToColon policy,
    insertGlue13 id (Ad.empty.insertAd "GLUE2" g2Ad)))

/-- The pairs of one endpoint and its shares. -/
def ceEndpoint (info : BdiiInfo) (endpointId : Text) (ep : EndpointInfo)
    (container : Container) : Except Fault Container :=
  if ep.sharesLnk.isEmpty then .ok container
  else
    match ep.serviceLnk with
    | none => .ok container
    | some serviceId => do
        let ad ← computingAd info ep serviceId
        gather (ceEntry info endpointId ep ad) ep.sharesLnk container

/-- `fetch_bdii_ce_info_g2`, the second half -/
def fetchBdiiCeInfoG2 (info : BdiiInfo) : Except Fault Container :=
  info.endpoints.entries.foldlM (fun container e => ceEndpoint info e.1 e.2 container)
    .empty

/-! ## Storage elements -/

/-- A policy goes into the ad of an endpoint that is there. -/
def insertPolicy (policyAd : Option Ad) (ad : Ad) : Except Fault Ad :=
  match policyAd, ad "Endpoint" with
  | some policyAd, some _ => do
      let rule ← deref (policyAd "Rule")
      .ok (ad.deepInsert "Endpoint" "Policy" rule)
  | _, _ => .ok ad

/-- The service that an endpoint links to. -/
def EndpointInfo.service (info : BdiiInfo) (ep : EndpointInfo) : Option ServiceInfo :=
  ep.serviceLnk.bind info.services.find?

/-- The ad of the policy that an endpoint links to. -/
def EndpointInfo.policyAd (info : BdiiInfo) (ep : EndpointInfo) : Option Ad :=
  (ep.policyLnk.bind info.policies.find?).bind AdInfo.ad

/-- What the ads of all shares of an endpoint have. The policy is put in twice. -/
def storageAd (info : BdiiInfo) (ep : EndpointInfo) : Except Fault Ad := do
  let service := ep.service info
  let managerAd := service.bind fun s =>
    (s.managerLnk.bind info.managers.find?).bind AdInfo.ad
  let ad := match ep.ad with
    | none => Ad.empty
    | some epAd =>
        ((Ad.empty.insertAd "Endpoint" epAd).updateWith "Service"
          (service.bind ServiceInfo.ad)).updateWith "Manager" managerAd
  let ad ← insertPolicy (ep.policyAd info) ad
  let ad ← insertPolicy (ep.policyAd info) ad
  match service with
  | none => .ok ad
  | some service =>
      .ok ((ad.updateWith "Service" service.ad).insert "Protocols"
        (.list (service.accessProtocols.map .ad)))

/-- The shares of an endpoint, or those of its service if it has none. -/
def sharesOf (info : BdiiInfo) (ep : EndpointInfo) : List Text :=
  if ep.sharesLnk.isEmpty then
    match ep.service info with
    | some service => if service.hasShareslnkIterators then service.sharesLnk else []
    | none => []
  else if ep.hasShareslnkIterators then ep.sharesLnk
  else []

/-- The ad of the first resource, if there is a resource. -/
def dataStoreAd (info : BdiiInfo) (share : ShareInfo) : Except Fault (Option Ad) :=
  match share.resourcesLnk.head? with
  | none => .ok none
  | some resourceId => do
      let resource ← deref (info.resources.find? resourceId)
      let dsi ← asDataStore resource
      let ad ← deref dsi.ad
      .ok (some ad)

/-- The body of the loop over the shares. One without an id is left out. -/
def seEntry (info : BdiiInfo) (storage : Ad) (shareId : Text) :
    Except Fault (Option (Text × Ad)) := do
  let share ← deref (info.shares.find? shareId)
  let shareAd ← deref share.ad
  let dataStore ← dataStoreAd info share
  let ad := (storage.insertAd "Share" shareAd).updateWith "DataStore" dataStore
  let result := Ad.empty.insertAd "GLUE2" (Ad.empty.insertAd "Storage" ad)
  .ok ((result.evaluatePath ["GLUE2", "Storage", "Share", "ID"]).map fun id => (id, result))

/-- The same for storage. -/
def seEndpoint (info : BdiiInfo) (ep : EndpointInfo) (container : Container) :
    Except Fault Container := do
  let ad ← storageAd info ep
  gather (seEntry info ad) (sharesOf info ep) container

/-- `fetch_bdii_se_info_g2`, the second half -/
def fetchBdiiSeInfoG2 (info : BdiiInfo) : Except Fault Container :=
  info.endpoints.entries.foldlM (fun container e => seEndpoint info e.2 container) .empty

end Wms.Core.Purchaser
