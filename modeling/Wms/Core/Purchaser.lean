import Mathlib.Data.Char
import Mathlib.Data.List.Lex
import Wms.Core.Job
import Wms.Lib.CString
import Wms.Lib.OrderedMap

/-!
# GLUE2 information (`src/org.glite.wms.core/src/ism/purchaser`)

`ldap-utils-g2.cpp`, `ldap-dn-utils-g2.cpp` and `common.cpp`: each LDAP entry is
handed to the first processor whose test its distinguished name passes, and the
processor puts what it says into the records of a `BDII_info`. Links are
iterators of maps from which nothing is erased; they are the keys here.
-/

namespace Wms.Core.Purchaser

open Wms.Lib

/-! ## Ads -/

/-- An expression of the ClassAd library. Of one that is no text, number, list
or ad only the text it evaluates to is known, if there is one. -/
inductive Expr where
  | string (value : Text)
  | number (value : ℤ)
  | list (items : List Expr)
  | ad (attributes : String → Option Expr)
  | other (value : Option Text)

/-- A ClassAd. Names that differ in case only are one name. -/
abbrev Ad := String → Option Expr

namespace Ad

/-- The ad without attributes. -/
def empty : Ad := fun _ => none

/-- `Insert`: an attribute that is there already is replaced. -/
def insert (ad : Ad) (name : String) (e : Expr) : Ad :=
  fun n => if n = name then some e else ad n

/-- `Update`: the attributes of the second ad win. -/
def update (ad other : Ad) : Ad := fun n => (other n).or (ad n)

end Ad

/-- `is_literal`, and the text of the literal. -/
def Expr.literal : Expr → Option Text
  | .string value => some value
  | _ => none

/-- `Evaluate(v) && v.IsStringValue(s)` -/
def Expr.evaluateString : Expr → Option Text
  | .string value => some value
  | .other value => value
  | _ => none

/-- The casts of Boost; a text that is no number has none. -/
structure Casts where
  toShort : Text → Option ℤ
  toFloat : Text → Option Expr

/-- `cleanup_glue_info` -/
def cleanupGlueInfo (names : List String) (ad : Ad) : Ad :=
  fun n => if n = "objectClass" ∨ n ∈ names then none else ad n

/-- Whether an entry says that it is of an object class. -/
def isObjectclass (item : String) (ad : Ad) : Bool :=
  match ad "objectClass" with
  | some (.list items) => items.any fun e => e.literal = some item.toList
  | _ => false

/-- `is_glue2_computing_share`, by the object class and not by the name. -/
def isGlue2ComputingShare (ad : Ad) : Bool := isObjectclass "GLUE2ComputingShare" ad

/-- `is_glue2_storage_share` -/
def isGlue2StorageShare (ad : Ad) : Bool := isObjectclass "GLUE2StorageShare" ad

/-- `is_glue2_execenv_resource` -/
def isGlue2ExecenvResource (ad : Ad) : Bool :=
  isObjectclass "GLUE2ExecutionEnvironment" ad

/-- `is_glue2_datastore_resource` -/
def isGlue2DatastoreResource (ad : Ad) : Bool := isObjectclass "GLUE2DataStore" ad

/-- What follows the first `=`, or all of a text without one. -/
def afterEquals (text : Text) : Text :=
  match text.dropWhile (· ≠ '=') with
  | [] => text
  | _ :: rest => rest

/-- `starts_with` of an item: one that is no literal begins with nothing. -/
def startsWith (start : Text) (e : Expr) : Bool :=
  match e.literal with
  | none => false
  | some s => start.isPrefixOf s

/-- What stands behind `what=` in a list of texts goes into an ad; `none` is a
text that cannot be cast. -/
def extractGlue2InfoValueIn (cast : Text → Option Expr) (ad : Ad)
    (list what : String) (into : Ad) : Option Ad :=
  match ad list with
  | some (.list items) =>
      match items.find? (startsWith (what.toList ++ ['='])) with
      | none => some into
      | some e =>
          (cast (afterEquals (e.evaluateString.getD []))).map (into.insert what)
  | _ => some into

/-- `evaluate_attribute`, which throws where there is no text. -/
def evaluateAttribute (ad : Ad) (name : String) : Option Text :=
  (ad name).bind Expr.evaluateString

/-! ## Records

The ad of a record other than a benchmark or a policy has one attribute, with
the name of its kind, which is an ad. That is the one kept here. -/

/-- A record that holds an ad and nothing else. -/
structure AdInfo where
  ad : Option Ad := none

/-- A computing or storage manager. -/
abbrev ManagerInfo := AdInfo

/-- A policy of an endpoint. -/
abbrev AccessPolicyInfo := AdInfo

/-- A benchmark of a resource. -/
abbrev BenchMarkInfo := AdInfo

/-- A data store, the other kind of resource. -/
abbrev DataStoreInfo := AdInfo

/-- An endpoint, with links to its service, its policy and its shares. -/
structure EndpointInfo where
  ad : Option Ad := none
  serviceLnk : Option Text := none
  policyLnk : Option Text := none
  sharesLnk : List Text := []
  hasShareslnkIterators : Bool := false

/-- An execution environment, with the applications that are installed there and the
links to its benchmarks. -/
structure ExecEnvInfo where
  ad : Option Ad := none
  applications : OrderedMap Text Unit := .empty
  bmarksLnk : List Text := []

/-- `boost::any` -/
inductive ResourceInfo where
  | execEnv (info : ExecEnvInfo)
  | dataStore (info : DataStoreInfo)

/-- A service, with links to its manager and its shares, and the access protocols of a
storage service. -/
structure ServiceInfo where
  ad : Option Ad := none
  managerLnk : Option Text := none
  sharesLnk : List Text := []
  hasShareslnkIterators : Bool := false
  accessProtocols : List Ad := []

/-- A share, with links to the resources it is a share of. -/
structure ShareInfo where
  ad : Option Ad := none
  resourcesLnk : List Text := []

/-- `BDII_info`: what has been read so far, each kind of record by its identifier. -/
structure BdiiInfo where
  shares : OrderedMap Text ShareInfo := .empty
  services : OrderedMap Text ServiceInfo := .empty
  managers : OrderedMap Text ManagerInfo := .empty
  endpoints : OrderedMap Text EndpointInfo := .empty
  policies : OrderedMap Text AccessPolicyInfo := .empty
  resources : OrderedMap Text ResourceInfo := .empty
  benchmarks : OrderedMap Text BenchMarkInfo := .empty

namespace BdiiInfo

variable (info : BdiiInfo) (id : Text)

/-- A share that is new or takes the place of the one there. -/
def setShare (r : ShareInfo) : BdiiInfo :=
  { info with shares := info.shares.set id r }

/-- The same for a service. -/
def setService (r : ServiceInfo) : BdiiInfo :=
  { info with services := info.services.set id r }

/-- The same for a manager. -/
def setManager (r : ManagerInfo) : BdiiInfo :=
  { info with managers := info.managers.set id r }

/-- The same for an endpoint. -/
def setEndpoint (r : EndpointInfo) : BdiiInfo :=
  { info with endpoints := info.endpoints.set id r }

/-- The same for an access policy. -/
def setPolicy (r : AccessPolicyInfo) : BdiiInfo :=
  { info with policies := info.policies.set id r }

/-- The same for a resource of either kind. -/
def setResource (r : ResourceInfo) : BdiiInfo :=
  { info with resources := info.resources.set id r }

/-- The same for a benchmark. -/
def setBenchmark (r : BenchMarkInfo) : BdiiInfo :=
  { info with benchmarks := info.benchmarks.set id r }

end BdiiInfo

/-- An ad that is not there is looked into, or an exception leaves the loop. -/
inductive Fault where
  | unset
  | thrown

/-! ## Distinguished names -/

/-- `tokenize_ldap_dn` -/
def tokenizeLdapDn (dn : Text) : List Text :=
  (dn.splitOn ',').map (trimIf isSpace)

/-- The text behind the `=` of a token. -/
def idAt (dn : List Text) (i : ℕ) : Text := afterEquals (dn[i]?.getD [])

/-- `boost::istarts_with`: upper and lower case are one. -/
def istartsWith (text start : Text) : Bool :=
  (start.map Char.toLower).isPrefixOf (text.map Char.toLower)

/-- The tokens a name begins with. -/
def isDn : List String → List Text → Bool
  | [], _ => true
  | _ :: _, [] => false
  | start :: starts, token :: dn =>
      istartsWith token start.toList && isDn starts dn

/-- `is_glue2_service_dn` -/
def isGlue2ServiceDn : List Text → Bool := isDn ["GLUE2ServiceID", "GLUE2GroupID"]

/-- `is_glue2_manager_dn` -/
def isGlue2ManagerDn : List Text → Bool :=
  isDn ["GLUE2ManagerID", "GLUE2ServiceID", "GLUE2GroupID"]

/-- `is_glue2_share_dn` -/
def isGlue2ShareDn : List Text → Bool :=
  isDn ["GLUE2ShareID", "GLUE2ServiceID", "GLUE2GroupID"]

/-- `is_glue2_endpoint_dn` -/
def isGlue2EndpointDn : List Text → Bool :=
  isDn ["GLUE2EndpointID", "GLUE2ServiceID", "GLUE2GroupID"]

/-- `is_glue2_resource_dn` -/
def isGlue2ResourceDn : List Text → Bool :=
  isDn ["GLUE2ResourceID", "GLUE2ManagerID", "GLUE2ServiceID", "GLUE2GroupID"]

/-- `is_glue2_mapping_policy_dn`: a policy of a share. -/
def isGlue2MappingPolicyDn : List Text → Bool :=
  isDn ["GLUE2PolicyID", "GLUE2ShareID", "GLUE2ServiceID", "GLUE2GroupID"]

/-- `is_glue2_access_policy_dn`: a policy of an endpoint. -/
def isGlue2AccessPolicyDn : List Text → Bool :=
  isDn ["GLUE2PolicyID", "GLUE2EndpointID", "GLUE2ServiceID", "GLUE2GroupID"]

/-- `is_glue2_application_env_dn` -/
def isGlue2ApplicationEnvDn : List Text → Bool :=
  isDn ["GLUE2ApplicationEnvironmentID", "GLUE2ResourceID", "GLUE2ServiceID",
    "GLUE2GroupID"]

/-- `is_glue2_benchmark_dn` -/
def isGlue2BenchmarkDn : List Text → Bool :=
  isDn ["GLUE2BenchmarkID", "GLUE2ResourceID", "GLUE2ServiceID", "GLUE2GroupID"]

/-- `is_glue2_service_capacity_dn` -/
def isGlue2ServiceCapacityDn : List Text → Bool :=
  isDn ["GLUE2StorageServiceCapacity", "GLUE2ServiceID", "GLUE2GroupID"]

/-- `is_glue2_share_capacity_dn` -/
def isGlue2ShareCapacityDn : List Text → Bool :=
  isDn ["GLUE2StorageShareCapacity", "GLUE2ShareID", "GLUE2ServiceID",
    "GLUE2GroupID"]

/-- `is_glue2_storage_access_protocol_dn`, the one that names the domain too. -/
def isGlue2StorageAccessProtocolDn : List Text → Bool :=
  isDn ["GLUE2StorageAccessProtocolID", "GLUE2ServiceID", "GLUE2GroupID",
    "GLUE2DomainID"]

/-! ## Services and managers -/

/-- The link back to the service is left out. -/
def cleanupProtocol : Ad → Ad := cleanupGlueInfo ["StorageServiceForeignKey"]

/-- A protocol is one more of its service, which is made if it is not there yet. -/
def processGlue2StorageAccessProtocolInfo (dn : List Text) (ad : Ad)
    (info : BdiiInfo) : Except Fault BdiiInfo :=
  let service := info.services.getOr (idAt dn 1) {}
  .ok (info.setService (idAt dn 1)
    { service with
      accessProtocols := service.accessProtocols ++ [cleanupProtocol ad] })

/-- What of a service is not shown. -/
def cleanupService : Ad → Ad :=
  cleanupGlueInfo ["CreationTime", "AdminDomainForeignKey", "OtherInfo"]

/-- A service that is there already is taken to have an ad. -/
def processGlue2ServiceInfo (dn : List Text) (ad : Ad) (info : BdiiInfo) :
    Except Fault BdiiInfo :=
  match info.services.find? (idAt dn 0) with
  | none => .ok (info.setService (idAt dn 0) { ad := some (cleanupService ad) })
  | some service =>
      match service.ad with
      | none => .error .unset
      | some old =>
          .ok (info.setService (idAt dn 0)
            { service with ad := some (old.update (cleanupService ad)) })

/-- What of a manager is not shown. -/
def cleanupManager : Ad → Ad :=
  cleanupGlueInfo
    ["CreationTime", "ComputingServiceForeignKey", "ServiceForeignKey", "OtherInfo"]

/-- A manager replaces the one there, and its service links to it. -/
def processGlue2ManagerInfo (dn : List Text) (ad : Ad) (info : BdiiInfo) :
    Except Fault BdiiInfo :=
  let info := info.setManager (idAt dn 0) { ad := some (cleanupManager ad) }
  let service := info.services.getOr (idAt dn 1) {}
  .ok (info.setService (idAt dn 1)
    { service with managerLnk := some (idAt dn 0) })

/-! ## Shares -/

/-- The empty resource of the kind of a share. -/
def resourceOfShare (ad : Ad) : Option ResourceInfo :=
  if isGlue2ComputingShare ad then some (.execEnv {})
  else if isGlue2StorageShare ad then some (.dataStore {})
  else none

/-- The id of the first resource; a list that begins with something else than a
text has an empty one. -/
def resourceFk (ad : Ad) : Option Text :=
  match ad "ResourceForeignKey" with
  | some (.list (e :: _)) => some (e.evaluateString.getD [])
  | _ => none

/-- The share links to the resource that its entry names, if there is one. -/
def processGlue2ResourceFk (shareId : Text) (ad : Ad) (info : BdiiInfo) :
    BdiiInfo :=
  match resourceFk ad, resourceOfShare ad with
  | some resourceId, some resource =>
      let info :=
        info.setResource resourceId (info.resources.getOr resourceId resource)
      let share := info.shares.getOr shareId {}
      info.setShare shareId
        { share with resourcesLnk := share.resourcesLnk ++ [resourceId] }
  | _, _ => info

/-- The ids of the endpoints of a share. -/
def endpointFk (ad : Ad) : List Text :=
  let fk :=
    if isGlue2ComputingShare ad then "ComputingEndpointForeignKey"
    else "StorageEndpointForeignKey"
  match ad fk with
  | some (.list items) => items.filterMap Expr.evaluateString
  | _ => []

/-- One endpoint that the entry of a share names gets a link to the share. -/
def processGlue2EndpointFkEntry (shareId : Text) (info : BdiiInfo)
    (endpointId : Text) : BdiiInfo :=
  let endpoint := info.endpoints.getOr endpointId {}
  info.setEndpoint endpointId
    { endpoint with
      sharesLnk := endpoint.sharesLnk ++ [shareId]
      hasShareslnkIterators := true }

/-- All of them, in the order of the entry. -/
def processGlue2EndpointFk (shareId : Text) (ad : Ad) (info : BdiiInfo) :
    BdiiInfo :=
  (endpointFk ad).foldl (processGlue2EndpointFkEntry shareId) info

/-- The service gets a link to the share. -/
def bindShareToService (shareId serviceId : Text) (info : BdiiInfo) : BdiiInfo :=
  let service := info.services.getOr serviceId {}
  info.setService serviceId
    { service with
      sharesLnk := service.sharesLnk ++ [shareId]
      hasShareslnkIterators := true }

/-- What of a share is not shown: above all the foreign keys. -/
def cleanupShare : Ad → Ad :=
  cleanupGlueInfo
    ["CreationTime", "ComputingEndpointForeignKey", "ComputingServiceForeignKey",
      "EndpointForeignKey", "ResourceForeignKey", "ServiceForeignKey",
      "ExecutionEnvironmentForeignKey"]

/-- A share with its links. Without the key of an endpoint it is bound to its
service. -/
def linkShare (dn : List Text) (ad : Ad) (info : BdiiInfo) : BdiiInfo :=
  let info := info.setShare (idAt dn 0) (info.shares.getOr (idAt dn 0) {})
  let info := processGlue2ResourceFk (idAt dn 0) ad info
  if (endpointFk ad).isEmpty then
    bindShareToService (idAt dn 0) (idAt dn 1) info
  else processGlue2EndpointFk (idAt dn 0) ad info

/-- What a share says sets its ad where it is new and updates it where it is not. -/
def processGlue2ShareInfo (dn : List Text) (ad : Ad) (info : BdiiInfo) :
    Except Fault BdiiInfo :=
  let insert := (info.shares.find? (idAt dn 0)).isNone
  let info := linkShare dn ad info
  let share := info.shares.getOr (idAt dn 0) {}
  if insert then
    .ok (info.setShare (idAt dn 0) { share with ad := some (cleanupShare ad) })
  else
    match share.ad with
    | none => .error .unset
    | some old =>
        .ok (info.setShare (idAt dn 0)
          { share with ad := some (old.update (cleanupShare ad)) })

/-! ## Endpoints -/

/-- The ad of an endpoint; texts are cast to themselves. -/
def endpointAd (ad : Ad) : Option Ad := do
  let cast (s : Text) : Option Expr := some (.string s)
  let oi ← extractGlue2InfoValueIn cast ad "OtherInfo" "HostDN" .empty
  let oi ← extractGlue2InfoValueIn cast ad "OtherInfo" "MiddlewareName" oi
  let oi ← extractGlue2InfoValueIn cast ad "OtherInfo" "MiddlewareVersion" oi
  some (cleanupGlueInfo
    ["CreationTime", "ComputingServiceForeignKey", "ServiceForeignKey"]
    (ad.insert "OtherInfo" (.ad oi)))

/-- An endpoint keeps the links that shares and policies made before it came. -/
def processGlue2EndpointInfo (dn : List Text) (ad : Ad) (info : BdiiInfo) :
    Except Fault BdiiInfo :=
  match endpointAd ad with
  | none => .error .thrown
  | some ad =>
      let info := info.setService (idAt dn 1) (info.services.getOr (idAt dn 1) {})
      let endpoint := info.endpoints.getOr (idAt dn 0) {}
      .ok (info.setEndpoint (idAt dn 0)
        { endpoint with ad := some ad, serviceLnk := some (idAt dn 1) })

/-! ## Resources -/

/-- `any_cast<ExecEnvInfo&>`, which throws on the other kind. -/
def withExecEnv (info : BdiiInfo) (resourceId : Text)
    (f : ExecEnvInfo → ExecEnvInfo) : Except Fault BdiiInfo :=
  match info.resources.getOr resourceId (.execEnv {}) with
  | .execEnv eei => .ok (info.setResource resourceId (.execEnv (f eei)))
  | .dataStore _ => .error .thrown

/-- Acts on a data store, made if it is not there; a resource of the other kind is a
bad cast. -/
def withDataStore (info : BdiiInfo) (resourceId : Text)
    (f : DataStoreInfo → DataStoreInfo) : Except Fault BdiiInfo :=
  match info.resources.getOr resourceId (.dataStore {}) with
  | .dataStore dsi => .ok (info.setResource resourceId (.dataStore (f dsi)))
  | .execEnv _ => .error .thrown

/-- What of a resource is not shown. -/
def cleanupResource : Ad → Ad :=
  cleanupGlueInfo ["CreationTime", "ComputingManagerForeignKey", "ManagerForeignKey"]

/-- The ad of an execution environment, with the values of `OtherInfo` cast. -/
def execenvAd (casts : Casts) (ad : Ad) : Option Ad := do
  let cast (s : Text) : Option Expr := (casts.toShort s).map .number
  let oi ← extractGlue2InfoValueIn cast ad "OtherInfo" "SmpSize" .empty
  let oi ← extractGlue2InfoValueIn cast ad "OtherInfo" "Cores" oi
  some (cleanupResource (ad.insert "OtherInfo" (.ad oi)))

/-- An execution environment keeps the applications and benchmarks that came first. -/
def processGlue2ExecenvInfo (casts : Casts) (resourceId : Text) (ad : Ad)
    (info : BdiiInfo) : Except Fault BdiiInfo :=
  match execenvAd casts ad with
  | none => .error .thrown
  | some ad => withExecEnv info resourceId fun eei => { eei with ad := some ad }

/-- A data store, whose ad alone is set. -/
def processGlue2DatastoreInfo (resourceId : Text) (ad : Ad) (info : BdiiInfo) :
    Except Fault BdiiInfo :=
  withDataStore info resourceId fun dsi => { dsi with ad := some (cleanupResource ad) }

/-- One of the two, as the object class says, or nothing. -/
def processGlue2ResourceInfo (casts : Casts) (dn : List Text) (ad : Ad)
    (info : BdiiInfo) : Except Fault BdiiInfo :=
  if isGlue2ExecenvResource ad then
    processGlue2ExecenvInfo casts (idAt dn 0) ad info
  else if isGlue2DatastoreResource ad then
    processGlue2DatastoreInfo (idAt dn 0) ad info
  else .ok info

/-- The name of an application joins those of its resource. -/
def processGlue2ApplicationEnvInfo (dn : List Text) (ad : Ad) (info : BdiiInfo) :
    Except Fault BdiiInfo :=
  match evaluateAttribute ad "AppName" with
  | none => .error .thrown
  | some application =>
      withExecEnv info (idAt dn 1) fun eei =>
        { eei with applications := eei.applications.set application () }

/-- The ad of a benchmark; a value that is no number stays as it is. -/
def benchmarkAd (casts : Casts) (ad : Ad) : Option Ad :=
  let ad := cleanupGlueInfo
    ["CreationTime", "ComputingManagerForeignKey", "ExecutionEnvironmentForeignKey",
      "OtherInfo"] ad
  (evaluateAttribute ad "Value").map fun value =>
    match casts.toFloat value with
    | none => ad
    | some e => ad.insert "Value" e

/-- A benchmark, to which its resource links. -/
def processGlue2BenchmarkInfo (casts : Casts) (dn : List Text) (ad : Ad)
    (info : BdiiInfo) : Except Fault BdiiInfo :=
  match benchmarkAd casts ad with
  | none => .error .thrown
  | some ad =>
      withExecEnv (info.setBenchmark (idAt dn 0) { ad := some ad }) (idAt dn 1)
        fun eei => { eei with bmarksLnk := eei.bmarksLnk ++ [idAt dn 0] }

/-! ## Policies and capacities -/

/-- The ad of a share with nothing but a rule in it. -/
def ruleAd (ad : Ad) : Option Ad :=
  (ad "Rule").map fun rule => Ad.empty.insert "Policy" rule

/-- The rules of a mapping policy go into the ad of its share. -/
def processGlue2MappingPolicyInfo (dn : List Text) (ad : Ad) (info : BdiiInfo) :
    Except Fault BdiiInfo :=
  let share := info.shares.getOr (idAt dn 1) {}
  match ruleAd ad with
  | none => .error .unset
  | some ad =>
      .ok (info.setShare (idAt dn 1)
        { share with ad := some ((share.ad.getD .empty).update ad) })

/-- What of an access policy is not shown. -/
def cleanupAccessPolicy : Ad → Ad :=
  cleanupGlueInfo
    ["CreationTime", "UserDomainForeignKey", "EndpointForeignKey", "OtherInfo"]

/-- An access policy, to which its endpoint links. -/
def processGlue2AccessPolicyInfo (dn : List Text) (ad : Ad) (info : BdiiInfo) :
    Except Fault BdiiInfo :=
  let info := info.setPolicy (idAt dn 0) { ad := some (cleanupAccessPolicy ad) }
  let endpoint := info.endpoints.getOr (idAt dn 1) {}
  .ok (info.setEndpoint (idAt dn 1)
    { endpoint with policyLnk := some (idAt dn 0) })

/-- The ad of a service or a share with nothing but a capacity in it. -/
def capacityAd (key : String) (ad : Ad) : Ad :=
  Ad.empty.insert "Capacity" (.ad (cleanupGlueInfo [key] ad))

/-- The ad of a capacity of a service. -/
def serviceCapacityAd : Ad → Ad := capacityAd "StorageServiceForeignKey"

/-- The ad of a capacity of a share. -/
def shareCapacityAd : Ad → Ad := capacityAd "StorageShareForeignKey"

/-- A capacity is left out where the service is there without an ad. -/
def processGlue2ServiceCapacityInfo (dn : List Text) (ad : Ad) (info : BdiiInfo) :
    Except Fault BdiiInfo :=
  match info.services.find? (idAt dn 1) with
  | none => .ok (info.setService (idAt dn 1) { ad := some (serviceCapacityAd ad) })
  | some service =>
      match service.ad with
      | none => .ok info
      | some old =>
          .ok (info.setService (idAt dn 1)
            { service with ad := some (old.update (serviceCapacityAd ad)) })

/-- A share that is not there yet is made of its capacity; one without an ad is not
told from one with it. -/
def processGlue2ShareCapacityInfo (dn : List Text) (ad : Ad) (info : BdiiInfo) :
    Except Fault BdiiInfo :=
  match info.shares.find? (idAt dn 1) with
  | none => .ok (info.setShare (idAt dn 1) { ad := some (shareCapacityAd ad) })
  | some share =>
      match share.ad with
      | none => .error .unset
      | some old =>
          .ok (info.setShare (idAt dn 1)
            { share with ad := some (old.update (shareCapacityAd ad)) })

/-! ## The entries -/

/-- A row of `glue2_info_processors`. -/
inductive Processor where
  | service
  | manager
  | share
  | endpoint
  | resource
  | mappingPolicy
  | accessPolicy
  | applicationEnv
  | benchmark
  | serviceCapacity
  | shareCapacity
  | storageAccessProtocol
  deriving DecidableEq

/-- Its test of a distinguished name. -/
def Processor.check : Processor → List Text → Bool
  | .service => isGlue2ServiceDn
  | .manager => isGlue2ManagerDn
  | .share => isGlue2ShareDn
  | .endpoint => isGlue2EndpointDn
  | .resource => isGlue2ResourceDn
  | .mappingPolicy => isGlue2MappingPolicyDn
  | .accessPolicy => isGlue2AccessPolicyDn
  | .applicationEnv => isGlue2ApplicationEnvDn
  | .benchmark => isGlue2BenchmarkDn
  | .serviceCapacity => isGlue2ServiceCapacityDn
  | .shareCapacity => isGlue2ShareCapacityDn
  | .storageAccessProtocol => isGlue2StorageAccessProtocolDn

/-- What it does with an entry that passes. -/
def Processor.process (casts : Casts) :
    Processor → List Text → Ad → BdiiInfo → Except Fault BdiiInfo
  | .service => processGlue2ServiceInfo
  | .manager => processGlue2ManagerInfo
  | .share => processGlue2ShareInfo
  | .endpoint => processGlue2EndpointInfo
  | .resource => processGlue2ResourceInfo casts
  | .mappingPolicy => processGlue2MappingPolicyInfo
  | .accessPolicy => processGlue2AccessPolicyInfo
  | .applicationEnv => processGlue2ApplicationEnvInfo
  | .benchmark => processGlue2BenchmarkInfo casts
  | .serviceCapacity => processGlue2ServiceCapacityInfo
  | .shareCapacity => processGlue2ShareCapacityInfo
  | .storageAccessProtocol => processGlue2StorageAccessProtocolInfo

/-- `glue2_info_processors` -/
def glue2InfoProcessors : List Processor :=
  [ .service, .manager, .share, .endpoint, .resource, .mappingPolicy, .accessPolicy,
    .applicationEnv, .benchmark, .serviceCapacity, .shareCapacity,
    .storageAccessProtocol ]

/-- An LDAP entry, with the ad that `create_classad_from_ldap_entry` makes of
its attributes for the processor it goes to. -/
structure Entry where
  dn : Text
  ad : Ad

/-- The first row whose test the entry passes. -/
def Entry.processor (entry : Entry) : Option Processor :=
  glue2InfoProcessors.find? fun p => p.check (tokenizeLdapDn entry.dn)

/-- An entry that no row takes is passed over. -/
def processEntry (casts : Casts) (entry : Entry) (info : BdiiInfo) :
    Except Fault BdiiInfo :=
  match entry.processor with
  | none => .ok info
  | some p => p.process casts (tokenizeLdapDn entry.dn) entry.ad info

/-- The loop over the entries that were received. -/
def feed (casts : Casts) : List Entry → BdiiInfo → Except Fault BdiiInfo
  | [], info => .ok info
  | entry :: entries, info =>
      match processEntry casts entry info with
      | .error fault => .error fault
      | .ok info => feed casts entries info

end Wms.Core.Purchaser
