import Wms.Core.Purchaser
import Wms.Lib.Registers

/-!
# The order of LDAP entries

What can be asked of a `BDII_info` is kept in registers: whether a record is
there, what an attribute of its ad is, whether it has a link. An entry has values
for some of them, and processing it writes these, so that the order of entries
makes no difference where no two of them have different values for one register.
One thing is no write: the ad of a service, which is taken to be there because
the service is, and is not if the service was only referred to before.
-/

namespace Wms.Core.Purchaser

open Wms.Lib Registers

/-! ## What can be asked -/

/-- The tables of a `BdiiInfo`. -/
inductive Table where
  | shares
  | services
  | managers
  | endpoints
  | policies
  | resources
  | benchmarks
  deriving DecidableEq

/-- What a record may say. -/
inductive Field where
  | there
  | filled
  | attr (name : String)
  | ad
  | kind
  | manager
  | service
  | policy
  | share (id : Text)
  | hasShares
  | resource (id : Text)
  | benchmark (id : Text)
  | application (name : Text)
  | protocol (ad : Ad)

/-- How it says it. -/
inductive Val where
  | yes
  | id (id : Text)
  | ad (ad : Ad)
  | expr (e : Expr)
  | execEnv
  | dataStore

/-- Where a record says something. -/
abbrev Key := Table × Text × Field

section

open Classical

noncomputable def listed {α : Type} (l : List α) (x : α) : Option Val :=
  if x ∈ l then some .yes else none

theorem listed_append {α : Type} (l l' : List α) (x : α) :
    listed (l ++ l') x = (listed l' x).or (listed l x) := by
  unfold listed
  by_cases h : x ∈ l <;> by_cases h' : x ∈ l' <;> simp [h, h']

end

/-- A flag that is set says so, and another one nothing. -/
def flagged (b : Bool) : Option Val := if b then some .yes else none

/-- What an ad to which attributes are added has. -/
def merged (ad : Option Ad) : Field → Option Val
  | .filled => ad.map fun _ => .yes
  | .attr name => ad.bind fun ad => (ad name).map .expr
  | _ => none

/-- What an ad that is replaced has. -/
def replaced (ad : Option Ad) : Field → Option Val
  | .there => some .yes
  | .ad => ad.map .ad
  | _ => none

/-- What a record that is an ad says. -/
def AdInfo.tells (r : AdInfo) : Field → Option Val := replaced r.ad

noncomputable def ShareInfo.tells (r : ShareInfo) : Field → Option Val
  | .there => some .yes
  | .resource id => listed r.resourcesLnk id
  | f => merged r.ad f

noncomputable def ServiceInfo.tells (r : ServiceInfo) : Field → Option Val
  | .there => some .yes
  | .manager => r.managerLnk.map .id
  | .share id => listed r.sharesLnk id
  | .hasShares => flagged r.hasShareslnkIterators
  | .protocol ad => listed r.accessProtocols ad
  | f => merged r.ad f

noncomputable def EndpointInfo.tells (r : EndpointInfo) : Field → Option Val
  | .service => r.serviceLnk.map .id
  | .policy => r.policyLnk.map .id
  | .share id => listed r.sharesLnk id
  | .hasShares => flagged r.hasShareslnkIterators
  | f => replaced r.ad f

noncomputable def ResourceInfo.tells : ResourceInfo → Field → Option Val
  | .execEnv _, .kind => some .execEnv
  | .execEnv eei, .application name => (eei.applications.find? name).map fun _ => .yes
  | .execEnv eei, .benchmark id => listed eei.bmarksLnk id
  | .execEnv eei, f => replaced eei.ad f
  | .dataStore _, .kind => some .dataStore
  | .dataStore dsi, f => dsi.tells f

/-- What a record has, if it is there. -/
noncomputable def BdiiInfo.tells (info : BdiiInfo) : Key → Option Val
  | (.shares, id, f) => (info.shares.find? id).bind fun r => r.tells f
  | (.services, id, f) => (info.services.find? id).bind fun r => r.tells f
  | (.managers, id, f) => (info.managers.find? id).bind fun r => r.tells f
  | (.endpoints, id, f) => (info.endpoints.find? id).bind fun r => r.tells f
  | (.policies, id, f) => (info.policies.find? id).bind fun r => r.tells f
  | (.resources, id, f) => (info.resources.find? id).bind fun r => r.tells f
  | (.benchmarks, id, f) => (info.benchmarks.find? id).bind fun r => r.tells f

/-! ## What an entry has values for -/

/-- A record with nothing in it but what an entry has for it. -/
inductive Part where
  | share (id : Text) (r : ShareInfo)
  | service (id : Text) (r : ServiceInfo)
  | manager (id : Text) (r : ManagerInfo)
  | endpoint (id : Text) (r : EndpointInfo)
  | policy (id : Text) (r : AccessPolicyInfo)
  | resource (id : Text) (r : ResourceInfo)
  | benchmark (id : Text) (r : BenchMarkInfo)

/-- The values for one record. -/
def recordAt (table : Table) (id : Text) (w : Field → Option Val) : Key → Option Val :=
  fun k => if k.1 = table ∧ k.2.1 = id then w k.2.2 else none

noncomputable def Part.tells : Part → Key → Option Val
  | .share id r => recordAt .shares id r.tells
  | .service id r => recordAt .services id r.tells
  | .manager id r => recordAt .managers id r.tells
  | .endpoint id r => recordAt .endpoints id r.tells
  | .policy id r => recordAt .policies id r.tells
  | .resource id r => recordAt .resources id r.tells
  | .benchmark id r => recordAt .benchmarks id r.tells

/-- What the entry of a share says about its resource. -/
def linkParts (shareId : Text) (ad : Ad) : List Part :=
  match resourceFk ad, resourceOfShare ad with
  | some id, some resource =>
      [ .resource id resource, .share shareId { resourcesLnk := [id] } ]
  | _, _ => []

/-- What it says about its endpoints. -/
def endpointParts (shareId : Text) (ids : List Text) : List Part :=
  ids.map fun id =>
    .endpoint id { sharesLnk := [shareId], hasShareslnkIterators := true }

/-- What it says about its endpoints, or else about its service. -/
def boundParts (dn : List Text) (ad : Ad) : List Part :=
  if (endpointFk ad).isEmpty then
    [ .service (idAt dn 1)
        { sharesLnk := [idAt dn 0], hasShareslnkIterators := true } ]
  else endpointParts (idAt dn 0) (endpointFk ad)

/-- The parts of a share: its resource, its endpoints or its service, and
itself. -/
def shareParts (dn : List Text) (ad : Ad) : List Part :=
  [ .share (idAt dn 0) {} ] ++ linkParts (idAt dn 0) ad ++ boundParts dn ad ++
    [ .share (idAt dn 0) { ad := some (cleanupShare ad) } ]

/-- What the entry of a resource says. -/
def resourceParts (casts : Casts) (dn : List Text) (ad : Ad) : List Part :=
  if isGlue2ExecenvResource ad then
    [ .resource (idAt dn 0) (.execEnv { ad := execenvAd casts ad }) ]
  else if isGlue2DatastoreResource ad then
    [ .resource (idAt dn 0) (.dataStore { ad := some (cleanupResource ad) }) ]
  else []

/-- What an entry says, by the row that takes it. -/
def Processor.parts (casts : Casts) (dn : List Text) (ad : Ad) :
    Processor → List Part
  | .service => [ .service (idAt dn 0) { ad := some (cleanupService ad) } ]
  | .manager =>
      [ .manager (idAt dn 0) { ad := some (cleanupManager ad) },
        .service (idAt dn 1) { managerLnk := some (idAt dn 0) } ]
  | .share => shareParts dn ad
  | .endpoint =>
      [ .service (idAt dn 1) {},
        .endpoint (idAt dn 0)
          { ad := endpointAd ad, serviceLnk := some (idAt dn 1) } ]
  | .resource => resourceParts casts dn ad
  | .mappingPolicy => [ .share (idAt dn 1) { ad := ruleAd ad } ]
  | .accessPolicy =>
      [ .policy (idAt dn 0) { ad := some (cleanupAccessPolicy ad) },
        .endpoint (idAt dn 1) { policyLnk := some (idAt dn 0) } ]
  | .applicationEnv =>
      [ .resource (idAt dn 1) (.execEnv
          { applications :=
              match evaluateAttribute ad "AppName" with
              | none => .empty
              | some application => OrderedMap.empty.set application () }) ]
  | .benchmark =>
      [ .benchmark (idAt dn 0) { ad := benchmarkAd casts ad },
        .resource (idAt dn 1) (.execEnv { bmarksLnk := [idAt dn 0] }) ]
  | .serviceCapacity => [ .service (idAt dn 1) { ad := some (serviceCapacityAd ad) } ]
  | .shareCapacity => [ .share (idAt dn 1) { ad := some (shareCapacityAd ad) } ]
  | .storageAccessProtocol =>
      [ .service (idAt dn 1) { accessProtocols := [cleanupProtocol ad] } ]

/-- All that an entry says. -/
def Entry.parts (casts : Casts) (entry : Entry) : List Part :=
  match entry.processor with
  | none => []
  | some p => p.parts casts (tokenizeLdapDn entry.dn) entry.ad

/-- The values of an entry. -/
noncomputable def Entry.tells (casts : Casts) (entry : Entry) : Key → Option Val :=
  block ((entry.parts casts).map Part.tells)

/-! ## Setting a record

The kind of a resource is the one register that keeps its first value. -/

/-- Whether it is the kind of a resource. -/
def Field.isKind : Field → Bool
  | .kind => true
  | _ => false

/-- The same of a key. -/
def isKind (k : Key) : Bool := k.2.2.isKind

/-- A record that has the values of a part over those it had. -/
theorem write_recordAt {s s' : Key → Option Val} {table : Table} {id : Text}
    {w : Field → Option Val}
    (hother : ∀ k : Key, ¬ (k.1 = table ∧ k.2.1 = id) → s' k = s k)
    (hhere : (fun f => s' (table, id, f)) =
      write Field.isKind w fun f => s (table, id, f)) :
    s' = write isKind (recordAt table id w) s := by
  funext ⟨t, i, f⟩
  by_cases h : t = table ∧ i = id
  · obtain ⟨rfl, rfl⟩ := h
    have hw : recordAt t i w (t, i, f) = w f := if_pos ⟨rfl, rfl⟩
    show s' (t, i, f) = if f.isKind then (s (t, i, f)).or (recordAt t i w (t, i, f))
      else (recordAt t i w (t, i, f)).or (s (t, i, f))
    rw [hw]
    exact congrFun hhere f
  · rw [hother (t, i, f) h]
    unfold write recordAt
    rw [if_neg h]
    cases isKind (t, i, f)
    · rfl
    · exact Option.or_none.symm

variable {info info' : BdiiInfo} {id : Text} {casts : Casts} {dn : List Text} {ad : Ad}

/-- What a record that may be there has. -/
def tellsOf {R : Type} (tells : R → Field → Option Val) (r : Option R) :
    Field → Option Val :=
  fun f => r.bind fun r => tells r f

theorem tellsOf_set_self {R : Type} (tells : R → Field → Option Val)
    (m : OrderedMap Text R) (id : Text) (r : R) :
    tellsOf tells ((m.set id r).find? id) = tells r := by
  rw [OrderedMap.find?_set_self]
  rfl

theorem tellsOf_set_of_ne {R : Type} (tells : R → Field → Option Val)
    (m : OrderedMap Text R) {id i : Text} (h : i ≠ id) (r : R) (f : Field) :
    tellsOf tells ((m.set id r).find? i) f = tellsOf tells (m.find? i) f := by
  rw [OrderedMap.find?_set_of_ne h]

theorem tells_setShare {r p : ShareInfo}
    (h : r.tells = write Field.isKind p.tells
      (tellsOf ShareInfo.tells (info.shares.find? id))) :
    (info.setShare id r).tells = write isKind (Part.share id p).tells info.tells := by
  refine write_recordAt (fun ⟨t, i, f⟩ hne => ?_)
    ((tellsOf_set_self ShareInfo.tells info.shares id r).trans h)
  cases t
  case shares => exact tellsOf_set_of_ne _ _ (fun heq => hne ⟨rfl, heq⟩) r f
  all_goals rfl

theorem tells_setService {r p : ServiceInfo}
    (h : r.tells = write Field.isKind p.tells
      (tellsOf ServiceInfo.tells (info.services.find? id))) :
    (info.setService id r).tells =
      write isKind (Part.service id p).tells info.tells := by
  refine write_recordAt (fun ⟨t, i, f⟩ hne => ?_)
    ((tellsOf_set_self ServiceInfo.tells info.services id r).trans h)
  cases t
  case services => exact tellsOf_set_of_ne _ _ (fun heq => hne ⟨rfl, heq⟩) r f
  all_goals rfl

theorem tells_setEndpoint {r p : EndpointInfo}
    (h : r.tells = write Field.isKind p.tells
      (tellsOf EndpointInfo.tells (info.endpoints.find? id))) :
    (info.setEndpoint id r).tells =
      write isKind (Part.endpoint id p).tells info.tells := by
  refine write_recordAt (fun ⟨t, i, f⟩ hne => ?_)
    ((tellsOf_set_self EndpointInfo.tells info.endpoints id r).trans h)
  cases t
  case endpoints => exact tellsOf_set_of_ne _ _ (fun heq => hne ⟨rfl, heq⟩) r f
  all_goals rfl

theorem tells_setResource {r p : ResourceInfo}
    (h : r.tells = write Field.isKind p.tells
      (tellsOf ResourceInfo.tells (info.resources.find? id))) :
    (info.setResource id r).tells =
      write isKind (Part.resource id p).tells info.tells := by
  refine write_recordAt (fun ⟨t, i, f⟩ hne => ?_)
    ((tellsOf_set_self ResourceInfo.tells info.resources id r).trans h)
  cases t
  case resources => exact tellsOf_set_of_ne _ _ (fun heq => hne ⟨rfl, heq⟩) r f
  all_goals rfl

/-- A record whose ad is replaced. -/
theorem replaced_over (ad : Ad) (old : Option AdInfo) :
    replaced (some ad) =
      write Field.isKind (replaced (some ad)) (tellsOf AdInfo.tells old) := by
  funext f
  cases old with
  | none => cases f <;> rfl
  | some r => cases f <;> rfl

theorem tells_setManager (info : BdiiInfo) (id : Text) (ad : Ad) :
    (info.setManager id { ad := some ad }).tells =
      write isKind (Part.manager id { ad := some ad }).tells info.tells := by
  refine write_recordAt (fun ⟨t, i, f⟩ hne => ?_)
    ((tellsOf_set_self AdInfo.tells info.managers id _).trans (replaced_over ad _))
  cases t
  case managers => exact tellsOf_set_of_ne AdInfo.tells _ (fun heq => hne ⟨rfl, heq⟩) _ f
  all_goals rfl

theorem tells_setPolicy (info : BdiiInfo) (id : Text) (ad : Ad) :
    (info.setPolicy id { ad := some ad }).tells =
      write isKind (Part.policy id { ad := some ad }).tells info.tells := by
  refine write_recordAt (fun ⟨t, i, f⟩ hne => ?_)
    ((tellsOf_set_self AdInfo.tells info.policies id _).trans (replaced_over ad _))
  cases t
  case policies => exact tellsOf_set_of_ne AdInfo.tells _ (fun heq => hne ⟨rfl, heq⟩) _ f
  all_goals rfl

theorem tells_setBenchmark (info : BdiiInfo) (id : Text) (ad : Ad) :
    (info.setBenchmark id { ad := some ad }).tells =
      write isKind (Part.benchmark id { ad := some ad }).tells info.tells := by
  refine write_recordAt (fun ⟨t, i, f⟩ hne => ?_)
    ((tellsOf_set_self AdInfo.tells info.benchmarks id _).trans (replaced_over ad _))
  cases t
  case benchmarks => exact tellsOf_set_of_ne AdInfo.tells _ (fun heq => hne ⟨rfl, heq⟩) _ f
  all_goals rfl

/-! ## What is done to one record -/

/-- Attributes over those that were there. -/
theorem merged_update (old : Option Ad) (ad : Ad) (f : Field) :
    merged (some ((old.getD .empty).update ad)) f =
      (merged (some ad) f).or (merged old f) := by
  cases f with
  | attr name =>
      show ((ad name).or (old.getD .empty name)).map Val.expr =
        ((ad name).map Val.expr).or (merged old (.attr name))
      cases ad name with
      | some e => rfl
      | none => cases old <;> rfl
  | _ => rfl

theorem tells_mergeShare (old : Option ShareInfo) (ad : Ad) :
    ShareInfo.tells { old.getD {} with
      ad := some (((old.getD {}).ad.getD .empty).update ad) } =
      write Field.isKind (ShareInfo.tells { ad := some ad })
        (tellsOf ShareInfo.tells old) := by
  funext f
  cases old with
  | none =>
      cases f <;> first | rfl | exact merged_update none ad (.attr _)
  | some share =>
      cases f <;> first | rfl | exact merged_update share.ad ad (.attr _)

theorem tells_linkResource (old : Option ShareInfo) (id : Text) :
    ShareInfo.tells { old.getD {} with
      resourcesLnk := (old.getD {}).resourcesLnk ++ [id] } =
      write Field.isKind (ShareInfo.tells { resourcesLnk := [id] })
        (tellsOf ShareInfo.tells old) := by
  funext f
  cases old with
  | none => cases f <;> first | rfl | exact Option.or_none.symm
  | some share => cases f <;> first | rfl | exact listed_append _ _ _

theorem tells_touchShare (old : Option ShareInfo) :
    ShareInfo.tells (old.getD {}) =
      write Field.isKind (ShareInfo.tells {}) (tellsOf ShareInfo.tells old) := by
  funext f
  cases old <;> cases f <;> rfl

theorem tells_mergeService (old : Option ServiceInfo) (ad : Ad) :
    ServiceInfo.tells { old.getD {} with
      ad := some (((old.getD {}).ad.getD .empty).update ad) } =
      write Field.isKind (ServiceInfo.tells { ad := some ad })
        (tellsOf ServiceInfo.tells old) := by
  funext f
  cases old with
  | none => cases f <;> first | rfl | exact merged_update none ad (.attr _)
  | some service => cases f <;> first | rfl | exact merged_update service.ad ad (.attr _)

theorem tells_touchService (old : Option ServiceInfo) :
    ServiceInfo.tells (old.getD {}) =
      write Field.isKind (ServiceInfo.tells {}) (tellsOf ServiceInfo.tells old) := by
  funext f
  cases old <;> cases f <;> rfl

theorem tells_linkManager (old : Option ServiceInfo) (id : Text) :
    ServiceInfo.tells { old.getD {} with managerLnk := some id } =
      write Field.isKind (ServiceInfo.tells { managerLnk := some id })
        (tellsOf ServiceInfo.tells old) := by
  funext f
  cases old <;> cases f <;> rfl

theorem tells_bindShare (old : Option ServiceInfo) (id : Text) :
    ServiceInfo.tells { old.getD {} with
      sharesLnk := (old.getD {}).sharesLnk ++ [id]
      hasShareslnkIterators := true } =
      write Field.isKind
        (ServiceInfo.tells { sharesLnk := [id], hasShareslnkIterators := true })
        (tellsOf ServiceInfo.tells old) := by
  funext f
  cases old with
  | none => cases f <;> first | rfl | exact Option.or_none.symm
  | some service => cases f <;> first | rfl | exact listed_append _ _ _

theorem tells_addProtocol (old : Option ServiceInfo) (ad : Ad) :
    ServiceInfo.tells { old.getD {} with
      accessProtocols := (old.getD {}).accessProtocols ++ [ad] } =
      write Field.isKind (ServiceInfo.tells { accessProtocols := [ad] })
        (tellsOf ServiceInfo.tells old) := by
  funext f
  cases old with
  | none => cases f <;> first | rfl | exact Option.or_none.symm
  | some service => cases f <;> first | rfl | exact listed_append _ _ _

theorem tells_linkShare (old : Option EndpointInfo) (id : Text) :
    EndpointInfo.tells { old.getD {} with
      sharesLnk := (old.getD {}).sharesLnk ++ [id]
      hasShareslnkIterators := true } =
      write Field.isKind
        (EndpointInfo.tells { sharesLnk := [id], hasShareslnkIterators := true })
        (tellsOf EndpointInfo.tells old) := by
  funext f
  cases old with
  | none => cases f <;> first | rfl | exact Option.or_none.symm
  | some endpoint => cases f <;> first | rfl | exact listed_append _ _ _

theorem tells_fillEndpoint (old : Option EndpointInfo) (ad : Ad) (id : Text) :
    EndpointInfo.tells { old.getD {} with ad := some ad, serviceLnk := some id } =
      write Field.isKind (EndpointInfo.tells { ad := some ad, serviceLnk := some id })
        (tellsOf EndpointInfo.tells old) := by
  funext f
  cases old <;> cases f <;> rfl

theorem tells_linkPolicy (old : Option EndpointInfo) (id : Text) :
    EndpointInfo.tells { old.getD {} with policyLnk := some id } =
      write Field.isKind (EndpointInfo.tells { policyLnk := some id })
        (tellsOf EndpointInfo.tells old) := by
  funext f
  cases old <;> cases f <;> rfl

/-- A resource that is there keeps its kind. -/
theorem tells_touchResource (old : Option ResourceInfo) {fresh : ResourceInfo}
    (h : fresh = .execEnv {} ∨ fresh = .dataStore {}) :
    ResourceInfo.tells (old.getD fresh) =
      write Field.isKind (ResourceInfo.tells fresh)
        (tellsOf ResourceInfo.tells old) := by
  funext f
  rcases h with rfl | rfl
  · rcases old with - | (eei | dsi)
    · cases f <;> rfl
    · cases f <;> rfl
    · cases f <;> rfl
  · rcases old with - | (eei | dsi) <;> cases f <;> rfl

/-- The environment of a resource that is of that kind, or not there. -/
def IsExecEnv (old : Option ResourceInfo) (eei : ExecEnvInfo) : Prop :=
  old.getD (.execEnv {}) = .execEnv eei

theorem IsExecEnv.cases {old : Option ResourceInfo} {eei : ExecEnvInfo}
    (h : IsExecEnv old eei) : old = none ∧ eei = {} ∨ old = some (.execEnv eei) := by
  cases old with
  | none =>
      cases h
      exact .inl ⟨rfl, rfl⟩
  | some r =>
      cases h
      exact .inr rfl

theorem tells_fillExecEnv {old : Option ResourceInfo} {eei : ExecEnvInfo}
    (h : IsExecEnv old eei) (ad : Ad) :
    ResourceInfo.tells (.execEnv { eei with ad := some ad }) =
      write Field.isKind (ResourceInfo.tells (.execEnv { ad := some ad }))
        (tellsOf ResourceInfo.tells old) := by
  funext f
  rcases h.cases with ⟨rfl, rfl⟩ | rfl <;> cases f <;> rfl

theorem tells_addApplication {old : Option ResourceInfo} {eei : ExecEnvInfo}
    (h : IsExecEnv old eei) (name : Text) :
    ResourceInfo.tells (.execEnv
        { eei with applications := eei.applications.set name () }) =
      write Field.isKind
        (ResourceInfo.tells (.execEnv
          { applications := OrderedMap.empty.set name () }))
        (tellsOf ResourceInfo.tells old) := by
  funext f
  rcases h.cases with ⟨rfl, rfl⟩ | rfl
  · cases f <;> first | rfl | exact Option.or_none.symm
  · cases f with
    | application n =>
        show ((eei.applications.set name ()).find? n).map _ =
          (((OrderedMap.empty.set name ()).find? n).map _).or
            ((eei.applications.find? n).map _)
        by_cases hn : n = name
        · subst hn
          rw [OrderedMap.find?_set_self, OrderedMap.find?_set_self]
          rfl
        · rw [OrderedMap.find?_set_of_ne hn, OrderedMap.find?_set_of_ne hn]
          rfl
    | _ => rfl

theorem tells_addBenchmark {old : Option ResourceInfo} {eei : ExecEnvInfo}
    (h : IsExecEnv old eei) (id : Text) :
    ResourceInfo.tells (.execEnv { eei with bmarksLnk := eei.bmarksLnk ++ [id] }) =
      write Field.isKind (ResourceInfo.tells (.execEnv { bmarksLnk := [id] }))
        (tellsOf ResourceInfo.tells old) := by
  funext f
  rcases h.cases with ⟨rfl, rfl⟩ | rfl
  · cases f <;> first | rfl | exact Option.or_none.symm
  · cases f <;> first | rfl | exact listed_append _ _ _

theorem tells_fillDataStore {old : Option ResourceInfo} {dsi : DataStoreInfo}
    (h : old.getD (.dataStore {}) = .dataStore dsi) (ad : Ad) :
    ResourceInfo.tells (.dataStore { dsi with ad := some ad }) =
      write Field.isKind (ResourceInfo.tells (.dataStore { ad := some ad }))
        (tellsOf ResourceInfo.tells old) := by
  funext f
  cases old with
  | none => cases f <;> rfl
  | some r =>
      cases h
      cases f <;> rfl

/-! ## What is done by a processor -/

/-- The registers after the parts have been written. -/
def Wrote (parts : List Part) (info info' : BdiiInfo) : Prop :=
  info'.tells = writeAll isKind (parts.map Part.tells) info.tells

theorem Wrote.nil (info : BdiiInfo) : Wrote [] info info := rfl

theorem Wrote.snoc {parts : List Part} {part : Part} {info₁ info₂ : BdiiInfo}
    (h : Wrote parts info info₁) (h' : info₂.tells = write isKind part.tells info₁.tells) :
    Wrote (parts ++ [part]) info info₂ := by
  unfold Wrote
  rw [List.map_append, List.map_singleton, writeAll_snoc, ← h]
  exact h'

theorem Wrote.one {part : Part} (h : info'.tells = write isKind part.tells info.tells) :
    Wrote [part] info info' :=
  (Wrote.nil info).snoc h

theorem Wrote.append {parts parts' : List Part} {info₁ info₂ : BdiiInfo}
    (h : Wrote parts info info₁) (h' : Wrote parts' info₁ info₂) :
    Wrote (parts ++ parts') info info₂ := by
  unfold Wrote at h h' ⊢
  rw [h', h, List.map_append, writeAll_append]

theorem update_empty (ad : Ad) : Ad.empty.update ad = ad :=
  funext fun _ => Option.or_none

theorem wrote_newService (hfind : info.services.find? id = none) (ad : Ad) :
    Wrote [.service id { ad := some ad }] info
      (info.setService id { ad := some ad }) := by
  have hmerge := tells_mergeService none ad
  rw [show ((none.getD ({} : ServiceInfo)).ad.getD .empty).update ad = ad from
    update_empty ad] at hmerge
  exact .one (tells_setService (hfind ▸ hmerge))

theorem wrote_mergeService {service : ServiceInfo} {old : Ad}
    (hfind : info.services.find? id = some service) (hold : service.ad = some old)
    (ad : Ad) :
    Wrote [.service id { ad := some ad }] info
      (info.setService id { service with ad := some (old.update ad) }) := by
  have hmerge := tells_mergeService (some service) ad
  rw [Option.getD_some, hold, Option.getD_some] at hmerge
  exact .one (tells_setService (hfind ▸ hmerge))

theorem wrote_newShare (hfind : info.shares.find? id = none) (ad : Ad) :
    Wrote [.share id { ad := some ad }] info (info.setShare id { ad := some ad }) := by
  have hmerge := tells_mergeShare none ad
  rw [show ((none.getD ({} : ShareInfo)).ad.getD .empty).update ad = ad from
    update_empty ad] at hmerge
  exact .one (tells_setShare (hfind ▸ hmerge))

theorem wrote_mergeShare {share : ShareInfo} {old : Ad}
    (hfind : info.shares.find? id = some share) (hold : share.ad = some old)
    (ad : Ad) :
    Wrote [.share id { ad := some ad }] info
      (info.setShare id { share with ad := some (old.update ad) }) := by
  have hmerge := tells_mergeShare (some share) ad
  rw [Option.getD_some, hold, Option.getD_some] at hmerge
  exact .one (tells_setShare (hfind ▸ hmerge))

theorem wrote_service (h : processGlue2ServiceInfo dn ad info = .ok info') :
    Wrote [.service (idAt dn 0) { ad := some (cleanupService ad) }] info info' := by
  unfold processGlue2ServiceInfo at h
  cases hfind : info.services.find? (idAt dn 0) with
  | none =>
      rw [hfind] at h
      cases h
      exact wrote_newService hfind _
  | some service =>
      rw [hfind] at h
      dsimp only at h
      cases hold : service.ad with
      | none =>
          rw [hold] at h
          cases h
      | some old =>
          rw [hold] at h
          cases h
          exact wrote_mergeService hfind hold _

theorem wrote_manager (h : processGlue2ManagerInfo dn ad info = .ok info') :
    Wrote
      [ .manager (idAt dn 0) { ad := some (cleanupManager ad) },
        .service (idAt dn 1) { managerLnk := some (idAt dn 0) } ] info info' := by
  cases h
  exact (Wrote.one (tells_setManager info _ _)).snoc
    (tells_setService (tells_linkManager _ _))

theorem wrote_endpoint (h : processGlue2EndpointInfo dn ad info = .ok info') :
    Wrote
      [ .service (idAt dn 1) {},
        .endpoint (idAt dn 0)
          { ad := endpointAd ad, serviceLnk := some (idAt dn 1) } ] info info' := by
  unfold processGlue2EndpointInfo at h
  cases had : endpointAd ad with
  | none =>
      rw [had] at h
      cases h
  | some made =>
      rw [had] at h
      cases h
      exact (Wrote.one (tells_setService (tells_touchService _))).snoc
        (tells_setEndpoint (tells_fillEndpoint _ made _))

theorem wrote_mappingPolicy (h : processGlue2MappingPolicyInfo dn ad info = .ok info') :
    Wrote [.share (idAt dn 1) { ad := ruleAd ad }] info info' := by
  unfold processGlue2MappingPolicyInfo at h
  cases had : ruleAd ad with
  | none =>
      rw [had] at h
      cases h
  | some rule =>
      rw [had] at h
      cases h
      exact .one (tells_setShare (tells_mergeShare _ rule))

theorem wrote_accessPolicy (h : processGlue2AccessPolicyInfo dn ad info = .ok info') :
    Wrote
      [ .policy (idAt dn 0) { ad := some (cleanupAccessPolicy ad) },
        .endpoint (idAt dn 1) { policyLnk := some (idAt dn 0) } ] info info' := by
  cases h
  exact (Wrote.one (tells_setPolicy info _ _)).snoc
    (tells_setEndpoint (tells_linkPolicy _ _))

theorem wrote_protocol
    (h : processGlue2StorageAccessProtocolInfo dn ad info = .ok info') :
    Wrote [.service (idAt dn 1) { accessProtocols := [cleanupProtocol ad] }]
      info info' := by
  cases h
  exact .one (tells_setService (tells_addProtocol _ _))

/-- The ad of the service is not missing where the service is there. -/
def Filled (info : BdiiInfo) (id : Text) : Prop :=
  ∀ service, info.services.find? id = some service → service.ad ≠ none

theorem wrote_serviceCapacity (hfilled : Filled info (idAt dn 1))
    (h : processGlue2ServiceCapacityInfo dn ad info = .ok info') :
    Wrote [.service (idAt dn 1) { ad := some (serviceCapacityAd ad) }] info info' := by
  unfold processGlue2ServiceCapacityInfo at h
  cases hfind : info.services.find? (idAt dn 1) with
  | none =>
      rw [hfind] at h
      cases h
      exact wrote_newService hfind _
  | some service =>
      rw [hfind] at h
      dsimp only at h
      cases hold : service.ad with
      | none => exact absurd hold (hfilled service hfind)
      | some old =>
          rw [hold] at h
          cases h
          exact wrote_mergeService hfind hold _

theorem wrote_shareCapacity (h : processGlue2ShareCapacityInfo dn ad info = .ok info') :
    Wrote [.share (idAt dn 1) { ad := some (shareCapacityAd ad) }] info info' := by
  unfold processGlue2ShareCapacityInfo at h
  cases hfind : info.shares.find? (idAt dn 1) with
  | none =>
      rw [hfind] at h
      cases h
      exact wrote_newShare hfind _
  | some share =>
      rw [hfind] at h
      dsimp only at h
      cases hold : share.ad with
      | none =>
          rw [hold] at h
          cases h
      | some old =>
          rw [hold] at h
          cases h
          exact wrote_mergeShare hfind hold _

theorem withExecEnv_ok {f : ExecEnvInfo → ExecEnvInfo}
    (h : withExecEnv info id f = .ok info') :
    ∃ eei, IsExecEnv (info.resources.find? id) eei ∧
      info' = info.setResource id (.execEnv (f eei)) := by
  unfold withExecEnv at h
  cases hr : info.resources.getOr id (.execEnv {}) with
  | execEnv eei =>
      rw [hr] at h
      cases h
      exact ⟨eei, hr, rfl⟩
  | dataStore dsi =>
      rw [hr] at h
      cases h

theorem withDataStore_ok {f : DataStoreInfo → DataStoreInfo}
    (h : withDataStore info id f = .ok info') :
    ∃ dsi, (info.resources.find? id).getD (.dataStore {}) = .dataStore dsi ∧
      info' = info.setResource id (.dataStore (f dsi)) := by
  unfold withDataStore at h
  cases hr : info.resources.getOr id (.dataStore {}) with
  | dataStore dsi =>
      rw [hr] at h
      cases h
      exact ⟨dsi, hr, rfl⟩
  | execEnv eei =>
      rw [hr] at h
      cases h

theorem wrote_resource (h : processGlue2ResourceInfo casts dn ad info = .ok info') :
    Wrote (resourceParts casts dn ad) info info' := by
  unfold processGlue2ResourceInfo at h
  unfold resourceParts
  split at h
  case isTrue hexec =>
    rw [if_pos hexec]
    unfold processGlue2ExecenvInfo at h
    cases had : execenvAd casts ad with
    | none =>
        rw [had] at h
        cases h
    | some made =>
        rw [had] at h
        obtain ⟨eei, heei, rfl⟩ := withExecEnv_ok h
        exact .one (tells_setResource (tells_fillExecEnv heei made))
  case isFalse hexec =>
    rw [if_neg hexec]
    split at h
    case isTrue hdata =>
      rw [if_pos hdata]
      obtain ⟨dsi, hdsi, rfl⟩ := withDataStore_ok h
      exact .one (tells_setResource (tells_fillDataStore hdsi _))
    case isFalse hdata =>
      rw [if_neg hdata]
      cases h
      exact .nil info

theorem wrote_applicationEnv
    (h : processGlue2ApplicationEnvInfo dn ad info = .ok info') :
    Wrote (Processor.applicationEnv.parts casts dn ad) info info' := by
  unfold processGlue2ApplicationEnvInfo at h
  unfold Processor.parts
  cases hname : evaluateAttribute ad "AppName" with
  | none =>
      rw [hname] at h
      cases h
  | some application =>
      rw [hname] at h
      obtain ⟨eei, heei, rfl⟩ := withExecEnv_ok h
      exact .one (tells_setResource (tells_addApplication heei application))

theorem wrote_benchmark (h : processGlue2BenchmarkInfo casts dn ad info = .ok info') :
    Wrote
      [ .benchmark (idAt dn 0) { ad := benchmarkAd casts ad },
        .resource (idAt dn 1) (.execEnv { bmarksLnk := [idAt dn 0] }) ]
      info info' := by
  unfold processGlue2BenchmarkInfo at h
  cases had : benchmarkAd casts ad with
  | none =>
      rw [had] at h
      cases h
  | some made =>
      rw [had] at h
      obtain ⟨eei, heei, rfl⟩ := withExecEnv_ok h
      exact (Wrote.one (tells_setBenchmark info _ made)).snoc
        (tells_setResource (tells_addBenchmark heei _))

/-! ## A share -/

theorem resourceOfShare_fresh {resource : ResourceInfo}
    (h : resourceOfShare ad = some resource) :
    resource = .execEnv {} ∨ resource = .dataStore {} := by
  unfold resourceOfShare at h
  split at h
  · exact .inl (Option.some.inj h).symm
  · split at h
    · exact .inr (Option.some.inj h).symm
    · cases h

theorem wrote_resourceFk (shareId : Text) (ad : Ad) (info : BdiiInfo) :
    Wrote (linkParts shareId ad) info (processGlue2ResourceFk shareId ad info) := by
  unfold linkParts processGlue2ResourceFk
  cases resourceFk ad with
  | none => exact .nil info
  | some id =>
      cases hresource : resourceOfShare ad with
      | none => exact .nil info
      | some resource =>
          exact (Wrote.one (tells_setResource
            (tells_touchResource _ (resourceOfShare_fresh hresource)))).snoc
            (tells_setShare (tells_linkResource _ id))

theorem wrote_endpointFk (shareId : Text) (ids : List Text) (info : BdiiInfo) :
    Wrote (endpointParts shareId ids) info
      (ids.foldl (processGlue2EndpointFkEntry shareId) info) := by
  induction ids generalizing info with
  | nil => exact .nil info
  | cons id ids ih =>
      exact (Wrote.one (tells_setEndpoint (tells_linkShare _ shareId))).append (ih _)

theorem shares_endpointFk (shareId : Text) (ids : List Text) (info : BdiiInfo) :
    (ids.foldl (processGlue2EndpointFkEntry shareId) info).shares = info.shares := by
  induction ids generalizing info with
  | nil => rfl
  | cons id ids ih => exact ih _

theorem wrote_linkShare (dn : List Text) (ad : Ad) (info : BdiiInfo) :
    Wrote ([.share (idAt dn 0) {}] ++ linkParts (idAt dn 0) ad ++ boundParts dn ad)
      info (linkShare dn ad info) := by
  have htouch : Wrote [.share (idAt dn 0) {}] info
      (info.setShare (idAt dn 0) (info.shares.getOr (idAt dn 0) {})) :=
    .one (tells_setShare (tells_touchShare _))
  refine (htouch.append (wrote_resourceFk (idAt dn 0) ad _)).append ?_
  unfold boundParts linkShare
  cases (endpointFk ad).isEmpty with
  | true => exact .one (tells_setService (tells_bindShare _ _))
  | false => exact wrote_endpointFk _ _ _

/-- A share that has just been put there or looked up. -/
theorem find?_resourceFk {shareId : Text} {share : ShareInfo}
    (hfind : info.shares.find? shareId = some share) (ad : Ad) :
    ∃ linked : ShareInfo, linked.ad = share.ad ∧
      (processGlue2ResourceFk shareId ad info).shares.find? shareId = some linked := by
  unfold processGlue2ResourceFk
  cases resourceFk ad with
  | none => exact ⟨share, rfl, hfind⟩
  | some id =>
      cases resourceOfShare ad with
      | none => exact ⟨share, rfl, hfind⟩
      | some resource =>
          refine ⟨_, ?_, OrderedMap.find?_set_self _ _ _⟩
          show (info.shares.getOr shareId {}).ad = share.ad
          unfold OrderedMap.getOr
          rw [hfind, Option.getD_some]

/-- The links of a share leave its ad as it was. -/
theorem find?_linkShare (dn : List Text) (ad : Ad) (info : BdiiInfo) :
    ∃ linked : ShareInfo, linked.ad = (info.shares.getOr (idAt dn 0) {}).ad ∧
      (linkShare dn ad info).shares.find? (idAt dn 0) = some linked := by
  have htouch : (info.setShare (idAt dn 0)
      (info.shares.getOr (idAt dn 0) {})).shares.find? (idAt dn 0) =
      some (info.shares.getOr (idAt dn 0) {}) :=
    OrderedMap.find?_set_self _ _ _
  obtain ⟨linked, had, hfind⟩ := find?_resourceFk htouch ad
  refine ⟨linked, had, ?_⟩
  unfold linkShare
  cases (endpointFk ad).isEmpty with
  | true => exact hfind
  | false =>
      show ((endpointFk ad).foldl (processGlue2EndpointFkEntry (idAt dn 0))
        _).shares.find? _ = _
      rw [shares_endpointFk]
      exact hfind

theorem wrote_share (h : processGlue2ShareInfo dn ad info = .ok info') :
    Wrote (shareParts dn ad) info info' := by
  obtain ⟨linked, had, hfind⟩ := find?_linkShare dn ad info
  refine (wrote_linkShare dn ad info).append ?_
  have hget : (linkShare dn ad info).shares.getOr (idAt dn 0) {} = linked := by
    unfold OrderedMap.getOr
    rw [hfind]
    rfl
  unfold processGlue2ShareInfo at h
  dsimp only at h
  rw [hget] at h
  cases hnew : (info.shares.find? (idAt dn 0)).isNone with
  | true =>
      rw [hnew] at h
      cases h
      have hnone : linked.ad = none := by
        unfold OrderedMap.getOr at had
        rw [had, Option.isNone_iff_eq_none.mp hnew]
        rfl
      have hmerge := tells_mergeShare (some linked) (cleanupShare ad)
      rw [Option.getD_some, hnone, Option.getD_none, update_empty] at hmerge
      exact .one (tells_setShare (hfind ▸ hmerge))
  | false =>
      rw [hnew] at h
      cases hold : linked.ad with
      | none =>
          rw [hold] at h
          cases h
      | some old =>
          rw [hold] at h
          cases h
          exact wrote_mergeShare hfind hold _

/-! ## An entry -/

/-- The service whose ad an entry makes or adds to. -/
def Entry.fillsService (entry : Entry) : Option Text :=
  match entry.processor with
  | some .service => some (idAt (tokenizeLdapDn entry.dn) 0)
  | some .serviceCapacity => some (idAt (tokenizeLdapDn entry.dn) 1)
  | _ => none

/-- The service an entry refers to. -/
def Entry.refersToService (entry : Entry) : Option Text :=
  match entry.processor with
  | some .manager | some .endpoint | some .storageAccessProtocol =>
      some (idAt (tokenizeLdapDn entry.dn) 1)
  | some .share =>
      if (endpointFk entry.ad).isEmpty then
        some (idAt (tokenizeLdapDn entry.dn) 1)
      else none
  | _ => none

variable {e e' : Entry}

/-- An entry writes its parts, but for a capacity whose service has no ad. -/
theorem wrote_entry
    (hfilled : e.processor = some .serviceCapacity →
      Filled info (idAt (tokenizeLdapDn e.dn) 1))
    (h : processEntry casts e info = .ok info') :
    Wrote (e.parts casts) info info' := by
  unfold processEntry at h
  unfold Entry.parts
  cases hp : e.processor with
  | none =>
      rw [hp] at h
      cases h
      exact .nil info
  | some p =>
      rw [hp] at h
      cases p with
      | service => exact wrote_service h
      | manager => exact wrote_manager h
      | share => exact wrote_share h
      | endpoint => exact wrote_endpoint h
      | resource => exact wrote_resource h
      | mappingPolicy => exact wrote_mappingPolicy h
      | accessPolicy => exact wrote_accessPolicy h
      | applicationEnv => exact wrote_applicationEnv h
      | benchmark => exact wrote_benchmark h
      | serviceCapacity => exact wrote_serviceCapacity (hfilled hp) h
      | shareCapacity => exact wrote_shareCapacity h
      | storageAccessProtocol => exact wrote_protocol h

/-! An entry has one value for a register, though it may have several parts. -/

theorem agreeAll_of_value {ws : List (Key → Option Val)} (value : Key → Val)
    (h : ∀ w ∈ ws, ∀ k x, w k = some x → x = value k) : AgreeAll ws :=
  fun w hw w' hw' k x y hx hy => (h w hw k x hx).trans (h w' hw' k y hy).symm

theorem agreeAll_one (w : Key → Option Val) : AgreeAll [w] := by
  intro a ha b hb k x y hx hy
  cases List.mem_singleton.mp ha
  cases List.mem_singleton.mp hb
  exact Option.some.inj (hx.symm.trans hy)

theorem agreeAll_two {t t' : Table} {i i' : Text} {w w' : Field → Option Val}
    (h : t ≠ t') : AgreeAll [recordAt t i w, recordAt t' i' w'] := by
  have hne : ∀ k x y, recordAt t i w k = some x → recordAt t' i' w' k ≠ some y := by
    intro k x y hx hy
    unfold recordAt at hx hy
    split at hx
    case isTrue hk =>
      split at hy
      case isTrue hk' => exact h (hk.1.symm.trans hk'.1)
      case isFalse => cases hy
    case isFalse => cases hx
  intro a ha b hb k x y hx hy
  rcases List.mem_pair.mp ha with rfl | rfl <;> rcases List.mem_pair.mp hb with rfl | rfl
  · exact Option.some.inj (hx.symm.trans hy)
  · exact absurd hy (hne k x y hx)
  · exact absurd hx (hne k y x hy)
  · exact Option.some.inj (hx.symm.trans hy)

theorem recordAt_some {t : Table} {i : Text} {w : Field → Option Val} {k : Key}
    {x : Val} (h : recordAt t i w k = some x) :
    k.1 = t ∧ k.2.1 = i ∧ w k.2.2 = some x := by
  unfold recordAt at h
  split at h
  case isTrue hk => exact ⟨hk.1, hk.2, h⟩
  case isFalse => cases h

theorem listed_value {α : Type} {l : List α} {a : α} {x : Val}
    (h : listed l a = some x) : x = .yes := by
  unfold listed at h
  split at h
  · exact (Option.some.inj h).symm
  · cases h

/-- The value a share may have for a register. -/
def shareValue (ad : Ad) (k : Key) : Val :=
  match k.2.2 with
  | .attr name => .expr ((cleanupShare ad name).getD (.other none))
  | .kind =>
      match resourceOfShare ad with
      | some (.dataStore _) => .dataStore
      | _ => .execEnv
  | _ => .yes

theorem linkParts_value {part : Part} (h : part ∈ linkParts id ad) {k : Key}
    {x : Val} (hx : part.tells k = some x) : x = shareValue ad k := by
  obtain ⟨t, i, f⟩ := k
  unfold linkParts at h
  unfold shareValue
  cases hid : resourceFk ad with
  | none =>
      rw [hid] at h
      cases h
  | some resourceId =>
      cases hresource : resourceOfShare ad with
      | none =>
          rw [hid, hresource] at h
          cases h
      | some resource =>
          rw [hid, hresource] at h
          rcases List.mem_pair.mp h with rfl | rfl
          · obtain ⟨-, -, hf⟩ := recordAt_some hx
            rcases resourceOfShare_fresh hresource with rfl | rfl <;> cases f <;>
              first | cases hf; done | exact listed_value hf | cases hf; rfl
          · obtain ⟨-, -, hf⟩ := recordAt_some hx
            cases f <;> first | cases hf; done | exact listed_value hf | cases hf; rfl

theorem boundParts_value {part : Part} (h : part ∈ boundParts dn ad) {k : Key}
    {x : Val} (hx : part.tells k = some x) : x = shareValue ad k := by
  obtain ⟨t, i, f⟩ := k
  unfold boundParts at h
  split at h
  · cases List.mem_singleton.mp h
    obtain ⟨-, -, hf⟩ := recordAt_some hx
    cases f <;> first | cases hf; done | exact listed_value hf | cases hf; rfl
  · obtain ⟨endpointId, -, rfl⟩ := List.mem_map.mp h
    obtain ⟨-, -, hf⟩ := recordAt_some hx
    cases f <;> first | cases hf; done | exact listed_value hf | cases hf; rfl

theorem shareParts_value {part : Part} (h : part ∈ shareParts dn ad) {k : Key}
    {x : Val} (hx : part.tells k = some x) : x = shareValue ad k := by
  unfold shareParts at h
  rcases List.mem_append.mp h with h | h
  · rcases List.mem_append.mp h with h | h
    · rcases List.mem_append.mp h with h | h
      · cases List.mem_singleton.mp h
        obtain ⟨t, i, f⟩ := k
        obtain ⟨-, -, hf⟩ := recordAt_some hx
        cases f <;> first | cases hf; done | exact listed_value hf | cases hf; rfl
      · exact linkParts_value h hx
    · exact boundParts_value h hx
  · cases List.mem_singleton.mp h
    obtain ⟨t, i, f⟩ := k
    obtain ⟨-, -, hf⟩ := recordAt_some hx
    cases f with
    | attr name =>
        obtain ⟨e, he, rfl⟩ := Option.map_eq_some_iff.mp
          (show (cleanupShare ad name).map Val.expr = some x from hf)
        show Val.expr e = .expr ((cleanupShare ad name).getD (.other none))
        rw [he, Option.getD_some]
    | resource id => exact listed_value hf
    | there => exact (Option.some.inj hf).symm
    | filled => exact (Option.some.inj hf).symm
    | _ => cases hf

theorem agreeAll_parts (casts : Casts) (e : Entry) :
    AgreeAll ((e.parts casts).map Part.tells) := by
  unfold Entry.parts
  cases e.processor with
  | none => exact fun w hw => absurd hw List.not_mem_nil
  | some p =>
      cases p with
      | share =>
          refine agreeAll_of_value (shareValue e.ad) fun w hw k x hx => ?_
          obtain ⟨part, hpart, rfl⟩ := List.mem_map.mp hw
          exact shareParts_value hpart hx
      | resource =>
          show AgreeAll ((resourceParts casts _ e.ad).map Part.tells)
          unfold resourceParts
          split
          · exact agreeAll_one _
          · split
            · exact agreeAll_one _
            · exact fun w hw => absurd hw List.not_mem_nil
      | manager | endpoint | accessPolicy | benchmark =>
          exact agreeAll_two fun h => by cases h
      | service | mappingPolicy | applicationEnv | serviceCapacity | shareCapacity
      | storageAccessProtocol => exact agreeAll_one _

/-- An entry writes its values. -/
theorem tells_entry
    (hfilled : e.processor = some .serviceCapacity →
      Filled info (idAt (tokenizeLdapDn e.dn) 1))
    (h : processEntry casts e info = .ok info') :
    info'.tells = write isKind (e.tells casts) info.tells :=
  (wrote_entry hfilled h).trans (writeAll_block (agreeAll_parts casts e) _)

/-! ## The ads of services and shares -/

theorem recordAt_isSome {t : Table} {i : Text} {w : Field → Option Val} {f : Field} :
    (recordAt t i w (t, id, f)).isSome ↔ i = id ∧ (w f).isSome := by
  unfold recordAt
  by_cases h : id = i
  · subst h
    rw [if_pos ⟨rfl, rfl⟩]
    exact ⟨fun hw => ⟨rfl, hw⟩, And.right⟩
  · rw [if_neg fun hk => h hk.2]
    exact ⟨fun hw => (Bool.false_ne_true hw).elim, fun hw => absurd hw.1.symm h⟩

theorem recordAt_of_ne {t t' : Table} (h : t' ≠ t) (i : Text)
    (w : Field → Option Val) (f : Field) : recordAt t i w (t', id, f) = none :=
  if_neg fun hk => h hk.1

theorem tells_services {f : Field} :
    (e.tells casts (.services, id, f)).isSome ↔
      ∃ r : ServiceInfo, .service id r ∈ e.parts casts ∧ (r.tells f).isSome := by
  unfold Entry.tells
  rw [block_isSome]
  constructor
  · rintro ⟨w, hw, hsome⟩
    obtain ⟨part, hpart, rfl⟩ := List.mem_map.mp hw
    cases part with
    | service i r =>
        obtain ⟨rfl, hr⟩ := recordAt_isSome.mp hsome
        exact ⟨r, hpart, hr⟩
    | _ =>
        exact absurd hsome (by
          rw [Part.tells, recordAt_of_ne (by decide)]
          exact Bool.false_ne_true)
  · rintro ⟨r, hpart, hr⟩
    exact ⟨_, List.mem_map_of_mem hpart, recordAt_isSome.mpr ⟨rfl, hr⟩⟩

theorem tells_shares {f : Field} :
    (e.tells casts (.shares, id, f)).isSome ↔
      ∃ r : ShareInfo, .share id r ∈ e.parts casts ∧ (r.tells f).isSome := by
  unfold Entry.tells
  rw [block_isSome]
  constructor
  · rintro ⟨w, hw, hsome⟩
    obtain ⟨part, hpart, rfl⟩ := List.mem_map.mp hw
    cases part with
    | share i r =>
        obtain ⟨rfl, hr⟩ := recordAt_isSome.mp hsome
        exact ⟨r, hpart, hr⟩
    | _ =>
        exact absurd hsome (by
          rw [Part.tells, recordAt_of_ne (by decide)]
          exact Bool.false_ne_true)
  · rintro ⟨r, hpart, hr⟩
    exact ⟨_, List.mem_map_of_mem hpart, recordAt_isSome.mpr ⟨rfl, hr⟩⟩

theorem service_mem_shareParts {r : ServiceInfo} :
    .service id r ∈ shareParts dn ad ↔
      (endpointFk ad).isEmpty = true ∧ id = idAt dn 1 ∧
        r = { sharesLnk := [idAt dn 0], hasShareslnkIterators := true } := by
  have hlinks : .service id r ∉ linkParts (idAt dn 0) ad := by
    unfold linkParts
    split <;> simp
  unfold shareParts boundParts endpointParts
  simp only [List.mem_append, List.mem_singleton, hlinks, reduceCtorEq, or_false,
    false_or]
  split <;> simp_all

theorem share_mem_shareParts {r : ShareInfo} (h : .share id r ∈ shareParts dn ad) :
    id = idAt dn 0 := by
  unfold shareParts at h
  rcases List.mem_append.mp h with h | h
  · rcases List.mem_append.mp h with h | h
    · rcases List.mem_append.mp h with h | h
      · cases List.mem_singleton.mp h
        rfl
      · unfold linkParts at h
        split at h
        · rcases List.mem_pair.mp h with h | h <;> cases h
          rfl
        · cases h
    · unfold boundParts at h
      split at h
      · cases List.mem_singleton.mp h
      · obtain ⟨endpointId, -, h⟩ := List.mem_map.mp h
        cases h
  · cases List.mem_singleton.mp h
    rfl

/-- What an entry has for a service it has to do with. -/
theorem service_mem_parts {r : ServiceInfo} (h : .service id r ∈ e.parts casts) :
    e.fillsService = some id ∧ r.ad.isSome ∨
      e.refersToService = some id ∧ r.ad = none := by
  unfold Entry.parts at h
  unfold Entry.fillsService Entry.refersToService
  cases hp : e.processor with
  | none =>
      rw [hp] at h
      cases h
  | some p =>
      rw [hp] at h
      cases p with
      | service | serviceCapacity =>
          cases List.mem_singleton.mp h
          exact .inl ⟨rfl, rfl⟩
      | storageAccessProtocol =>
          cases List.mem_singleton.mp h
          exact .inr ⟨rfl, rfl⟩
      | manager =>
          rcases List.mem_pair.mp h with h | h <;> cases h
          exact .inr ⟨rfl, rfl⟩
      | endpoint =>
          rcases List.mem_pair.mp h with h | h <;> cases h
          exact .inr ⟨rfl, rfl⟩
      | share =>
          obtain ⟨hempty, rfl, rfl⟩ := service_mem_shareParts.mp h
          exact .inr ⟨if_pos hempty, rfl⟩
      | resource =>
          exfalso
          have h' : .service id r ∈ resourceParts casts (tokenizeLdapDn e.dn) e.ad := h
          unfold resourceParts at h'
          split at h'
          · cases List.mem_singleton.mp h'
          · split at h'
            · cases List.mem_singleton.mp h'
            · cases h'
      | mappingPolicy | applicationEnv | shareCapacity => cases List.mem_singleton.mp h
      | accessPolicy | benchmark => rcases List.mem_pair.mp h with h | h <;> cases h

theorem exists_of_refersToService (h : e.refersToService = some id) (casts : Casts) :
    ∃ r : ServiceInfo, .service id r ∈ e.parts casts ∧ r.ad = none := by
  unfold Entry.refersToService at h
  unfold Entry.parts
  cases hp : e.processor with
  | none =>
      rw [hp] at h
      cases h
  | some p =>
      rw [hp] at h
      cases p with
      | manager =>
          cases h
          exact ⟨_, List.mem_cons_of_mem _ List.mem_cons_self, rfl⟩
      | endpoint =>
          cases h
          exact ⟨_, List.mem_cons_self, rfl⟩
      | storageAccessProtocol =>
          cases h
          exact ⟨_, List.mem_cons_self, rfl⟩
      | share =>
          dsimp only at h
          split at h
          case isTrue hempty =>
            cases h
            exact ⟨_, service_mem_shareParts.mpr ⟨hempty, rfl, rfl⟩, rfl⟩
          case isFalse => cases h
      | _ => cases h

theorem exists_of_fillsService (h : e.fillsService = some id) (casts : Casts) :
    ∃ r : ServiceInfo, .service id r ∈ e.parts casts ∧ r.ad.isSome := by
  unfold Entry.fillsService at h
  unfold Entry.parts
  cases hp : e.processor with
  | none =>
      rw [hp] at h
      cases h
  | some p =>
      rw [hp] at h
      cases p with
      | service | serviceCapacity =>
          cases h
          exact ⟨_, List.mem_cons_self, rfl⟩
      | _ => cases h

theorem merged_filled {ad : Option Ad} :
    (merged ad .filled).isSome ↔ ad.isSome := by
  cases ad <;> exact Iff.rfl

theorem tells_filled :
    (e.tells casts (.services, id, .filled)).isSome ↔ e.fillsService = some id := by
  rw [tells_services]
  constructor
  · rintro ⟨r, hpart, hr⟩
    rcases service_mem_parts hpart with ⟨h, -⟩ | ⟨-, hnone⟩
    · exact h
    · have hsome := merged_filled.mp hr
      rw [hnone] at hsome
      cases hsome
  · intro h
    obtain ⟨r, hpart, hr⟩ := exists_of_fillsService h casts
    exact ⟨r, hpart, merged_filled.mpr hr⟩

theorem tells_there :
    (e.tells casts (.services, id, .there)).isSome ↔
      e.fillsService = some id ∨ e.refersToService = some id := by
  rw [tells_services]
  constructor
  · rintro ⟨r, hpart, -⟩
    exact (service_mem_parts hpart).imp And.left And.left
  · rintro (h | h)
    · obtain ⟨r, hpart, -⟩ := exists_of_fillsService h casts
      exact ⟨r, hpart, rfl⟩
    · obtain ⟨r, hpart, -⟩ := exists_of_refersToService h casts
      exact ⟨r, hpart, rfl⟩

theorem not_fills_of_refers (h : e.refersToService = some id) :
    e.fillsService = none := by
  unfold Entry.refersToService at h
  unfold Entry.fillsService
  cases hp : e.processor with
  | none => rfl
  | some p =>
      rw [hp] at h
      cases p <;> first | rfl | cases h

theorem filled_iff :
    Filled info id ↔
      ((info.tells (.services, id, .there)).isSome →
        (info.tells (.services, id, .filled)).isSome) := by
  unfold Filled
  show _ ↔ (((info.services.find? id).bind fun r => r.tells .there).isSome →
    ((info.services.find? id).bind fun r => r.tells .filled).isSome)
  cases info.services.find? id with
  | none =>
      refine ⟨fun _ h => ?_, fun _ service h => ?_⟩
      · cases h
      · cases h
  | some service =>
      constructor
      · intro h _
        refine merged_filled.mpr (Option.isSome_iff_ne_none.mpr (h service rfl))
      · intro h service' heq
        cases heq
        exact Option.isSome_iff_ne_none.mp (merged_filled.mp (h rfl))

/-- No share is there without its ad. -/
def SharesFilled (s : Key → Option Val) : Prop :=
  ∀ id, (s (.shares, id, .there)).isSome → (s (.shares, id, .filled)).isSome

theorem ad_of_sharesFilled (h : SharesFilled info.tells) {share : ShareInfo}
    (hfind : info.shares.find? id = some share) : ∃ ad, share.ad = some ad := by
  have hfilled := h id
  change (((info.shares.find? id).bind fun r => r.tells .there).isSome →
    ((info.shares.find? id).bind fun r => r.tells .filled).isSome) at hfilled
  rw [hfind] at hfilled
  exact Option.isSome_iff_exists.mp (merged_filled.mp (hfilled rfl))

/-- An entry can be processed by itself: what must be cast can be, and what must
be there is there. -/
def Entry.Ready (casts : Casts) (e : Entry) : Prop :=
  match e.processor with
  | some .endpoint => (endpointAd e.ad).isSome
  | some .resource =>
      isGlue2ExecenvResource e.ad = true → (execenvAd casts e.ad).isSome
  | some .mappingPolicy => (ruleAd e.ad).isSome
  | some .applicationEnv => (evaluateAttribute e.ad "AppName").isSome
  | some .benchmark => (benchmarkAd casts e.ad).isSome
  | _ => True

theorem Entry.Ready.sharesFilled (h : e.Ready casts) : SharesFilled (e.tells casts) := by
  intro id hthere
  obtain ⟨r, hpart, -⟩ := tells_shares.mp hthere
  refine tells_shares.mpr ?_
  unfold Entry.Ready at h
  unfold Entry.parts at hpart ⊢
  cases hp : e.processor with
  | none =>
      rw [hp] at hpart
      cases hpart
  | some p =>
      rw [hp] at h hpart
      cases p with
      | share =>
          rw [share_mem_shareParts hpart]
          exact ⟨_, List.mem_append_right _ List.mem_cons_self, rfl⟩
      | mappingPolicy =>
          cases List.mem_singleton.mp hpart
          exact ⟨_, List.mem_cons_self, merged_filled.mpr h⟩
      | shareCapacity =>
          cases List.mem_singleton.mp hpart
          exact ⟨_, List.mem_cons_self, rfl⟩
      | resource =>
          exfalso
          have h' : .share id r ∈ resourceParts casts (tokenizeLdapDn e.dn) e.ad :=
            hpart
          unfold resourceParts at h'
          split at h'
          · cases List.mem_singleton.mp h'
          · split at h'
            · cases List.mem_singleton.mp h'
            · cases h'
      | service | serviceCapacity | storageAccessProtocol | applicationEnv =>
          cases List.mem_singleton.mp hpart
      | manager | endpoint | accessPolicy | benchmark =>
          rcases List.mem_pair.mp hpart with hpart | hpart <;> cases hpart

/-! ## When an entry can be processed -/

theorem tells_of_part {part : Part} {k : Key} {x : Val}
    (hpart : part ∈ e.parts casts) (hx : part.tells k = some x) :
    e.tells casts k = some x :=
  block_of_mem (agreeAll_parts casts e) (List.mem_map_of_mem hpart) hx

theorem kind_part {r : ResourceInfo} (hpart : .resource id r ∈ e.parts casts) {x : Val}
    (hx : r.tells .kind = some x) : e.tells casts (.resources, id, .kind) = some x := by
  refine tells_of_part hpart ?_
  show recordAt .resources id r.tells (.resources, id, .kind) = some x
  exact (if_pos ⟨rfl, rfl⟩).trans hx

theorem withExecEnv_of_kind
    (h : ∀ y, info.tells (.resources, id, .kind) = some y → y = .execEnv)
    (f : ExecEnvInfo → ExecEnvInfo) : ∃ info', withExecEnv info id f = .ok info' := by
  change ∀ y, ((info.resources.find? id).bind fun r => r.tells .kind) = some y →
    y = .execEnv at h
  unfold withExecEnv OrderedMap.getOr
  cases hfind : info.resources.find? id with
  | none => exact ⟨_, rfl⟩
  | some r =>
      rw [hfind] at h
      cases r with
      | execEnv eei => exact ⟨_, rfl⟩
      | dataStore dsi => cases h .dataStore rfl

theorem withDataStore_of_kind
    (h : ∀ y, info.tells (.resources, id, .kind) = some y → y = .dataStore)
    (f : DataStoreInfo → DataStoreInfo) : ∃ info', withDataStore info id f = .ok info' := by
  change ∀ y, ((info.resources.find? id).bind fun r => r.tells .kind) = some y →
    y = .dataStore at h
  unfold withDataStore OrderedMap.getOr
  cases hfind : info.resources.find? id with
  | none => exact ⟨_, rfl⟩
  | some r =>
      rw [hfind] at h
      cases r with
      | dataStore dsi => exact ⟨_, rfl⟩
      | execEnv eei => cases h .execEnv rfl

theorem processGlue2ShareInfo_ok (hshares : SharesFilled info.tells) :
    ∃ info', processGlue2ShareInfo dn ad info = .ok info' := by
  obtain ⟨linked, had, hfind⟩ := find?_linkShare dn ad info
  have hget : (linkShare dn ad info).shares.getOr (idAt dn 0) {} = linked := by
    unfold OrderedMap.getOr
    rw [hfind]
    rfl
  unfold processGlue2ShareInfo
  dsimp only
  rw [hget]
  cases hold : info.shares.find? (idAt dn 0) with
  | none => exact ⟨_, rfl⟩
  | some share =>
      obtain ⟨old, hfilled⟩ := ad_of_sharesFilled hshares hold
      unfold OrderedMap.getOr at had
      rw [hold, Option.getD_some, hfilled] at had
      rw [had]
      exact ⟨_, rfl⟩

/-- An entry can be processed where it is ready, its service is filled and its
resource is of its kind. -/
theorem processEntry_ok (hready : e.Ready casts) (hshares : SharesFilled info.tells)
    (hfilled : ∀ id, e.fillsService = some id → Filled info id)
    (hkind : ∀ id x y, e.tells casts (.resources, id, .kind) = some x →
      info.tells (.resources, id, .kind) = some y → y = x) :
    ∃ info', processEntry casts e info = .ok info' := by
  have hpart : ∀ {id : Text} {r : ResourceInfo} {x : Val},
      .resource id r ∈ e.parts casts → r.tells .kind = some x →
      ∀ y, info.tells (.resources, id, .kind) = some y → y = x :=
    fun hmem hx y hy => hkind _ _ y (kind_part hmem hx) hy
  unfold processEntry
  unfold Entry.Ready at hready
  unfold Entry.fillsService at hfilled
  unfold Entry.parts at hpart
  cases hp : e.processor with
  | none => exact ⟨info, rfl⟩
  | some p =>
      rw [hp] at hready hfilled hpart
      cases p with
      | service =>
          show ∃ info', processGlue2ServiceInfo _ e.ad info = .ok info'
          unfold processGlue2ServiceInfo
          cases hfind : info.services.find? (idAt (tokenizeLdapDn e.dn) 0) with
          | none => exact ⟨_, rfl⟩
          | some service =>
              dsimp only
              cases hold : service.ad with
              | none => exact absurd hold (hfilled _ rfl service hfind)
              | some old => exact ⟨_, rfl⟩
      | manager | accessPolicy | storageAccessProtocol => exact ⟨_, rfl⟩
      | share => exact processGlue2ShareInfo_ok hshares
      | endpoint =>
          obtain ⟨made, hmade⟩ := Option.isSome_iff_exists.mp hready
          show ∃ info', processGlue2EndpointInfo _ e.ad info = .ok info'
          unfold processGlue2EndpointInfo
          rw [hmade]
          exact ⟨_, rfl⟩
      | resource =>
          show ∃ info', processGlue2ResourceInfo casts _ e.ad info = .ok info'
          unfold processGlue2ResourceInfo
          split
          case isTrue hexec =>
            obtain ⟨made, hmade⟩ := Option.isSome_iff_exists.mp (hready hexec)
            unfold processGlue2ExecenvInfo
            rw [hmade]
            refine withExecEnv_of_kind (hpart (r := .execEnv { ad := execenvAd casts e.ad })
              ?_ rfl) _
            show _ ∈ resourceParts casts _ e.ad
            unfold resourceParts
            rw [if_pos hexec]
            exact List.mem_cons_self
          case isFalse hexec =>
            split
            case isTrue hdata =>
              refine withDataStore_of_kind
                (hpart (r := .dataStore { ad := some (cleanupResource e.ad) }) ?_ rfl) _
              show _ ∈ resourceParts casts _ e.ad
              unfold resourceParts
              rw [if_neg hexec, if_pos hdata]
              exact List.mem_cons_self
            case isFalse => exact ⟨_, rfl⟩
      | mappingPolicy =>
          obtain ⟨rule, hrule⟩ := Option.isSome_iff_exists.mp hready
          show ∃ info', processGlue2MappingPolicyInfo _ e.ad info = .ok info'
          unfold processGlue2MappingPolicyInfo
          rw [hrule]
          exact ⟨_, rfl⟩
      | applicationEnv =>
          obtain ⟨name, hname⟩ := Option.isSome_iff_exists.mp hready
          show ∃ info', processGlue2ApplicationEnvInfo _ e.ad info = .ok info'
          unfold processGlue2ApplicationEnvInfo
          rw [hname]
          exact withExecEnv_of_kind (hpart List.mem_cons_self rfl) _
      | benchmark =>
          obtain ⟨made, hmade⟩ := Option.isSome_iff_exists.mp hready
          show ∃ info', processGlue2BenchmarkInfo casts _ e.ad info = .ok info'
          unfold processGlue2BenchmarkInfo
          rw [hmade]
          exact @withExecEnv_of_kind (info.setBenchmark _ { ad := some made }) _
            (hpart (List.mem_cons_of_mem _ List.mem_cons_self) rfl) _
      | serviceCapacity =>
          show ∃ info', processGlue2ServiceCapacityInfo _ e.ad info = .ok info'
          unfold processGlue2ServiceCapacityInfo
          cases info.services.find? (idAt (tokenizeLdapDn e.dn) 1) with
          | none => exact ⟨_, rfl⟩
          | some service =>
              dsimp only
              cases service.ad <;> exact ⟨_, rfl⟩
      | shareCapacity =>
          show ∃ info', processGlue2ShareCapacityInfo _ e.ad info = .ok info'
          unfold processGlue2ShareCapacityInfo
          cases hfind : info.shares.find? (idAt (tokenizeLdapDn e.dn) 1) with
          | none => exact ⟨_, rfl⟩
          | some share =>
              obtain ⟨old, hold⟩ := ad_of_sharesFilled hshares hfind
              dsimp only
              rw [hold]
              exact ⟨_, rfl⟩

/-- What has been processed was ready. -/
theorem ready_of_ok (h : processEntry casts e info = .ok info') : e.Ready casts := by
  unfold processEntry at h
  unfold Entry.Ready
  cases hp : e.processor with
  | none => exact trivial
  | some p =>
      rw [hp] at h
      cases p with
      | endpoint =>
          change processGlue2EndpointInfo _ e.ad info = .ok info' at h
          unfold processGlue2EndpointInfo at h
          cases had : endpointAd e.ad with
          | none =>
              rw [had] at h
              cases h
          | some made => exact rfl
      | resource =>
          intro hexec
          change processGlue2ResourceInfo casts _ e.ad info = .ok info' at h
          unfold processGlue2ResourceInfo processGlue2ExecenvInfo at h
          rw [if_pos hexec] at h
          cases had : execenvAd casts e.ad with
          | none =>
              rw [had] at h
              cases h
          | some made => exact rfl
      | mappingPolicy =>
          change processGlue2MappingPolicyInfo _ e.ad info = .ok info' at h
          unfold processGlue2MappingPolicyInfo at h
          cases had : ruleAd e.ad with
          | none =>
              rw [had] at h
              cases h
          | some rule => exact rfl
      | applicationEnv =>
          change processGlue2ApplicationEnvInfo _ e.ad info = .ok info' at h
          unfold processGlue2ApplicationEnvInfo at h
          cases hname : evaluateAttribute e.ad "AppName" with
          | none =>
              rw [hname] at h
              cases h
          | some name => exact rfl
      | benchmark =>
          change processGlue2BenchmarkInfo casts _ e.ad info = .ok info' at h
          unfold processGlue2BenchmarkInfo at h
          cases had : benchmarkAd casts e.ad with
          | none =>
              rw [had] at h
              cases h
          | some made => exact rfl
      | _ => exact trivial

/-! ## Runs -/

theorem feed_append (casts : Casts) (l l' : List Entry) (info : BdiiInfo) :
    feed casts (l ++ l') info = (feed casts l info).bind (feed casts l') := by
  induction l generalizing info with
  | nil => rfl
  | cons e l ih =>
      rw [List.cons_append, feed, feed]
      cases processEntry casts e info with
      | error fault => rfl
      | ok info' => exact ih info'

theorem feed_cons_ok {l : List Entry} (h : feed casts (e :: l) info = .ok info') :
    ∃ info₁, processEntry casts e info = .ok info₁ ∧ feed casts l info₁ = .ok info' := by
  rw [feed] at h
  cases he : processEntry casts e info with
  | error fault =>
      rw [he] at h
      cases h
  | ok info₁ =>
      rw [he] at h
      exact ⟨info₁, rfl, h⟩

/-- The same answers to everything that can be asked. -/
def OrderFree (casts : Casts) (entries : List Entry) : Prop :=
  ∃ info : BdiiInfo, ∀ l : List Entry, l.Perm entries →
    ∃ info', feed casts l {} = .ok info' ∧ info'.tells = info.tells

/-- Every entry is ready, no service that one entry refers to is filled by another,
and no two entries have different values for one register. -/
structure Consistent (casts : Casts) (entries : List Entry) : Prop where
  ready : ∀ e ∈ entries, e.Ready casts
  separate : ∀ e ∈ entries, ∀ e' ∈ entries, ∀ id, e.refersToService = some id →
    e'.fillsService ≠ some id
  agree : ∀ e ∈ entries, ∀ e' ∈ entries, Agree (e.tells casts) (e'.tells casts)

theorem tells_start : BdiiInfo.tells {} = blank := by
  funext ⟨t, id, f⟩
  cases t <;> rfl

theorem Consistent.agreeAll {entries : List Entry} (h : Consistent casts entries)
    {l : List Entry} (hl : l ⊆ entries) :
    AgreeAll (l.map fun e => e.tells casts) := by
  intro w hw w' hw'
  obtain ⟨e, he, rfl⟩ := List.mem_map.mp hw
  obtain ⟨e', he', rfl⟩ := List.mem_map.mp hw'
  exact h.agree e (hl he) e' (hl he')

/-- Where nothing refers to a service that is filled, it is filled if it is
there. -/
theorem filled_of_separate {l : List Entry} {keeps : Key → Bool}
    (hrefers : ∀ e ∈ l, e.refersToService ≠ some id)
    (htells : info.tells = writeAll keeps (l.map fun e => e.tells casts) blank) :
    Filled info id := by
  rw [filled_iff, htells, writeAll_isSome, writeAll_isSome]
  rintro (h | ⟨w, hw, hthere⟩)
  · cases h
  · obtain ⟨e, he, rfl⟩ := List.mem_map.mp hw
    rcases tells_there.mp hthere with hfills | h
    · exact .inr ⟨_, hw, tells_filled.mpr hfills⟩
    · exact absurd h (hrefers e he)

theorem sharesFilled_of_ready {l : List Entry} {keeps : Key → Bool}
    (hready : ∀ e ∈ l, e.Ready casts)
    (htells : info.tells = writeAll keeps (l.map fun e => e.tells casts) blank) :
    SharesFilled info.tells := by
  intro id
  rw [htells, writeAll_isSome, writeAll_isSome]
  rintro (h | ⟨w, hw, hthere⟩)
  · cases h
  · obtain ⟨e, he, rfl⟩ := List.mem_map.mp hw
    exact .inr ⟨_, hw, (hready e he).sharesFilled id hthere⟩

/-- One more entry. -/
theorem feed_snoc {l : List Entry} {info : BdiiInfo}
    (hfeed : feed casts l {} = .ok info) (e : Entry) :
    feed casts (l ++ [e]) {} = processEntry casts e info := by
  rw [feed_append, hfeed]
  show feed casts [e] info = _
  rw [feed]
  cases processEntry casts e info <;> rfl

theorem Consistent.feed_ok {entries : List Entry} (h : Consistent casts entries)
    (l : List Entry) (hl : l ⊆ entries) :
    ∃ info : BdiiInfo, feed casts l {} = .ok info ∧
      info.tells = writeAll isKind (l.map fun e => e.tells casts) blank := by
  induction l using List.reverseRecOn with
  | nil => exact ⟨{}, rfl, tells_start⟩
  | append_singleton l e ih =>
      have hsub : l ⊆ entries := fun x hx => hl (List.mem_append_left _ hx)
      have he : e ∈ entries := hl (List.mem_append_right _ List.mem_cons_self)
      obtain ⟨info, hfeed, htells⟩ := ih hsub
      have hfilled : ∀ id, e.fillsService = some id → Filled info id :=
        fun id hid => filled_of_separate
          (fun e' he' hrefers => h.separate e' (hsub he') e he id hrefers hid) htells
      obtain ⟨info', hprocess⟩ := processEntry_ok (h.ready e he)
        (sharesFilled_of_ready (fun e' he' => h.ready e' (hsub he')) htells) hfilled
        (fun id x y hx hy => by
          rw [htells, writeAll_eq_some_iff (h.agreeAll hsub)] at hy
          obtain ⟨w, hw, hy⟩ := hy
          obtain ⟨e', he', rfl⟩ := List.mem_map.mp hw
          exact h.agree e' (hsub he') e he _ y x hy hx)
      refine ⟨info', (feed_snoc hfeed e).trans hprocess, ?_⟩
      rw [List.map_append, List.map_singleton, writeAll_snoc, ← htells]
      refine tells_entry (fun hp => hfilled _ ?_) hprocess
      unfold Entry.fillsService
      rw [hp]

/-! ## A service that is there without its ad -/

/-- A service that is there and has no ad yet. -/
def Unfilled (info : BdiiInfo) (id : Text) : Prop :=
  ∃ service, info.services.find? id = some service ∧ service.ad = none

theorem not_filled_iff : ¬ Filled info id ↔ Unfilled info id := by
  unfold Filled Unfilled
  simp only [not_forall, ne_eq, not_not, exists_prop]

theorem unfilled_iff :
    Unfilled info id ↔ (info.tells (.services, id, .there)).isSome ∧
      ¬ (info.tells (.services, id, .filled)).isSome := by
  rw [← not_filled_iff, filled_iff, Classical.not_imp]

/-- An entry writes its values, or it is a capacity that changes nothing. -/
theorem tells_or_same (h : processEntry casts e info = .ok info') :
    info'.tells = write isKind (e.tells casts) info.tells ∧
        (∀ id, e.fillsService = some id → Filled info id) ∨
      info' = info ∧ ∃ id, e.fillsService = some id ∧ Unfilled info id := by
  by_cases hfilled : ∀ id, e.fillsService = some id → Filled info id
  · refine .inl ⟨tells_entry (fun hp => hfilled _ ?_) h, hfilled⟩
    unfold Entry.fillsService
    rw [hp]
  · simp only [not_forall, not_filled_iff] at hfilled
    obtain ⟨id, hfills, hunfilled⟩ := hfilled
    refine .inr ⟨?_, id, hfills, hunfilled⟩
    obtain ⟨service, hfind, hnone⟩ := hunfilled
    unfold Entry.fillsService at hfills
    unfold processEntry at h
    cases hp : e.processor with
    | none =>
        rw [hp] at h
        cases h
        rfl
    | some p =>
        rw [hp] at hfills h
        cases p with
        | service =>
            cases hfills
            change processGlue2ServiceInfo _ e.ad info = .ok info' at h
            unfold processGlue2ServiceInfo at h
            rw [hfind] at h
            dsimp only at h
            rw [hnone] at h
            cases h
        | serviceCapacity =>
            cases hfills
            change processGlue2ServiceCapacityInfo _ e.ad info = .ok info' at h
            unfold processGlue2ServiceCapacityInfo at h
            rw [hfind] at h
            dsimp only at h
            rw [hnone] at h
            cases h
            rfl
        | _ => cases hfills

/-- What is there stays there. -/
theorem tells_kept {l : List Entry} (h : feed casts l info = .ok info') {k : Key}
    (hk : (info.tells k).isSome) : (info'.tells k).isSome := by
  induction l generalizing info with
  | nil =>
      cases h
      exact hk
  | cons e l ih =>
      obtain ⟨info₁, he, hrest⟩ := feed_cons_ok h
      refine ih hrest ?_
      rcases tells_or_same he with ⟨htells, -⟩ | ⟨rfl, -⟩
      · rw [htells]
        exact write_isSome.mpr (.inl hk)
      · exact hk

theorem unfilled_kept {l : List Entry} (h : feed casts l info = .ok info')
    (hunfilled : Unfilled info id) : Unfilled info' id := by
  induction l generalizing info with
  | nil =>
      cases h
      exact hunfilled
  | cons e l ih =>
      obtain ⟨info₁, he, hrest⟩ := feed_cons_ok h
      refine ih hrest ?_
      rcases tells_or_same he with ⟨htells, hfilled⟩ | ⟨rfl, -⟩
      · have hno : ¬ (e.tells casts (.services, id, .filled)).isSome :=
          fun hfills => not_filled_iff.mpr hunfilled (hfilled id (tells_filled.mp hfills))
        rw [unfilled_iff] at hunfilled ⊢
        rw [htells, write_isSome, write_isSome]
        exact ⟨.inl hunfilled.1, fun hor => hor.elim hunfilled.2 hno⟩
      · exact hunfilled

/-- An entry that comes first writes what it has. -/
theorem tells_first (h : processEntry casts e {} = .ok info') :
    info'.tells = e.tells casts := by
  rcases tells_or_same h with ⟨htells, -⟩ | ⟨-, id, -, service, hfind, -⟩
  · rw [htells, tells_start]
    funext k
    unfold write
    cases isKind k
    · exact Option.or_none
    · rfl
  · cases hfind

/-! ## Where the order makes no difference -/

theorem exists_perm_cons {l : List Entry} (he : e ∈ l) :
    ∃ l', (e :: l').Perm l := by
  obtain ⟨before, after, rfl⟩ := List.append_of_mem he
  exact ⟨before ++ after, List.perm_middle.symm⟩

theorem exists_perm_two {l : List Entry} (he : e ∈ l) (he' : e' ∈ l) (hne : e' ≠ e) :
    ∃ l', (e :: e' :: l').Perm l := by
  obtain ⟨rest, hrest⟩ := exists_perm_cons he
  have hmem : e' ∈ rest :=
    (List.mem_cons.mp (hrest.mem_iff.mpr he')).resolve_left hne
  obtain ⟨l', hl'⟩ := exists_perm_cons hmem
  exact ⟨l', (hl'.cons e).trans hrest⟩

/-- Without a service that is filled and referred to, every run writes the values
of its entries. -/
theorem tells_of_separate {l : List Entry}
    (hsep : ∀ e ∈ l, ∀ e' ∈ l, ∀ id, e.refersToService = some id →
      e'.fillsService ≠ some id)
    (h : feed casts l {} = .ok info) :
    info.tells = writeAll isKind (l.map fun e => e.tells casts) blank := by
  induction l using List.reverseRecOn generalizing info with
  | nil =>
      cases h
      exact tells_start
  | append_singleton l e ih =>
      rw [feed_append] at h
      cases hl : feed casts l {} with
      | error fault =>
          rw [hl] at h
          cases h
      | ok info₁ =>
          have hprocess := (feed_snoc hl e).symm.trans ((feed_append casts l [e] {}).trans h)
          have htells := ih (fun x hx y hy => hsep x (List.mem_append_left _ hx) y
            (List.mem_append_left _ hy)) hl
          rw [List.map_append, List.map_singleton, writeAll_snoc, ← htells]
          rcases tells_or_same hprocess with ⟨hwrite, -⟩ | ⟨-, id, hfills, hunfilled⟩
          · exact hwrite
          · refine absurd (filled_of_separate (fun e' he' hrefers => ?_) htells)
              (not_filled_iff.mpr hunfilled)
            exact hsep e' (List.mem_append_left _ he') e
              (List.mem_append_right _ List.mem_cons_self) id hrefers hfills

variable {entries : List Entry}

theorem Consistent.orderFree (h : Consistent casts entries) :
    OrderFree casts entries := by
  obtain ⟨info, -, htells⟩ := h.feed_ok entries (List.Subset.refl _)
  refine ⟨info, fun l hperm => ?_⟩
  obtain ⟨info', hfeed, htells'⟩ := h.feed_ok l hperm.subset
  refine ⟨info', hfeed, ?_⟩
  rw [htells', htells]
  exact writeAll_perm (h.agreeAll (List.Subset.refl _)) (hperm.map _)

theorem OrderFree.ready (h : OrderFree casts entries) (he : e ∈ entries) :
    e.Ready casts := by
  obtain ⟨info, hall⟩ := h
  obtain ⟨l, hperm⟩ := exists_perm_cons he
  obtain ⟨info', hfeed, -⟩ := hall _ hperm
  obtain ⟨info₁, hprocess, -⟩ := feed_cons_ok hfeed
  exact ready_of_ok hprocess

/-- With the entry that refers first the service stays without its ad, with the
entry that fills first it keeps it. -/
theorem OrderFree.separate (h : OrderFree casts entries) (he : e ∈ entries)
    (he' : e' ∈ entries) (hrefers : e.refersToService = some id) :
    e'.fillsService ≠ some id := by
  intro hfills
  have hnone := not_fills_of_refers hrefers
  have hne : e' ≠ e := by
    rintro rfl
    rw [hnone] at hfills
    cases hfills
  obtain ⟨info, hall⟩ := h
  obtain ⟨l, hperm⟩ := exists_perm_two he he' hne
  obtain ⟨info₁, hfeed₁, htells₁⟩ := hall _ hperm
  obtain ⟨i₁, hprocess₁, hrest₁⟩ := feed_cons_ok hfeed₁
  have hunfilled : Unfilled info₁ id := by
    refine unfilled_kept hrest₁ (unfilled_iff.mpr ?_)
    rw [tells_first hprocess₁, tells_there, tells_filled, hnone]
    exact ⟨.inr hrefers, fun hsome => by cases hsome⟩
  obtain ⟨info₂, hfeed₂, htells₂⟩ := hall _ ((List.Perm.swap e e' l).trans hperm)
  obtain ⟨i₂, hprocess₂, hrest₂⟩ := feed_cons_ok hfeed₂
  have hfilled : (info₂.tells (.services, id, .filled)).isSome := by
    refine tells_kept hrest₂ ?_
    rw [tells_first hprocess₂]
    exact tells_filled.mpr hfills
  rw [htells₂, ← htells₁] at hfilled
  exact (unfilled_iff.mp hunfilled).2 hfilled

theorem OrderFree.consistent (h : OrderFree casts entries) :
    Consistent casts entries := by
  have hsep : ∀ e ∈ entries, ∀ e' ∈ entries, ∀ id, e.refersToService = some id →
      e'.fillsService ≠ some id :=
    fun e he e' he' id hrefers => h.separate he he' hrefers
  have hready : ∀ e ∈ entries, e.Ready casts := fun e he => h.ready he
  obtain ⟨info, hall⟩ := h
  have hwrites : ∀ l : List Entry, l.Perm entries →
      writeAll isKind (l.map fun e => e.tells casts) blank = info.tells := by
    intro l hperm
    obtain ⟨info', hfeed, htells⟩ := hall l hperm
    rw [← htells]
    refine (tells_of_separate (fun x hx y hy => ?_) hfeed).symm
    exact hsep x (hperm.subset hx) y (hperm.subset hy)
  have hagree : AgreeAll (entries.map fun e => e.tells casts) :=
    agreeAll_iff.mpr fun l hperm =>
      (hwrites l hperm).trans (hwrites entries (List.Perm.refl _)).symm
  exact
    { ready := hready
      separate := hsep
      agree := fun e he e' he' =>
        hagree _ (List.mem_map_of_mem he) _ (List.mem_map_of_mem he') }

/-- The order of the entries makes no difference exactly when they are
consistent. -/
theorem orderFree_iff (casts : Casts) (entries : List Entry) :
    OrderFree casts entries ↔ Consistent casts entries :=
  ⟨OrderFree.consistent, Consistent.orderFree⟩

/-! ## A service and its manager -/

/-- The entry of a service. -/
def serviceEntry : Entry where
  dn := "GLUE2ServiceID=s,GLUE2GroupID=g".toList
  ad := Ad.empty

/-- The entry of its manager. -/
def managerEntry : Entry where
  dn := "GLUE2ManagerID=m,GLUE2ServiceID=s,GLUE2GroupID=g".toList
  ad := Ad.empty

/-- No text is a number. -/
def noCasts : Casts := ⟨fun _ => none, fun _ => none⟩

/-- The ad of the service is looked into when the manager has come first. -/
theorem not_orderFree_manager :
    [serviceEntry.dn, managerEntry.dn].Nodup ∧
      feed noCasts [managerEntry, serviceEntry] {} = .error .unset ∧
      ¬ OrderFree noCasts [serviceEntry, managerEntry] := by
  have hfeed : feed noCasts [managerEntry, serviceEntry] {} = .error .unset := rfl
  refine ⟨by decide, hfeed, fun h => ?_⟩
  obtain ⟨info, hall⟩ := h
  obtain ⟨info', hok, -⟩ := hall _ (List.Perm.swap serviceEntry managerEntry [])
  rw [hfeed] at hok
  cases hok

end Wms.Core.Purchaser
