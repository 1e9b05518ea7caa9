import Wms.Core.BdiiFetch
import Wms.Proofs.Purchaser

/-!
# What missing information costs

The two loops that put the ads together are each one loop over sites: an endpoint
on its own, for what is made before its shares are looked at, and the endpoint
with each of its shares. What happens at a site depends on what the records it
leads to have in them, and from that follows when nothing unset is followed and no
complete pair loses its entry because of another one.
-/

namespace Wms.Core.Purchaser

open Wms.Lib Gather

variable {info : BdiiInfo} {ep : EndpointInfo} {endpointId shareId : Text}

/-! ## Failing steps -/

theorem deref_eq_ok {α : Type} {o : Option α} {a : α} :
    deref o = .ok a ↔ o = some a := by
  cases o <;> simp [deref]

theorem deref_ne_thrown {α : Type} {o : Option α} :
    deref o ≠ .error .thrown := by
  cases o <;> simp [deref]

theorem evaluated_eq_ok {o : Option Text} {text : Text} :
    evaluated o = .ok text ↔ o = some text := by
  cases o <;> simp [evaluated]

theorem evaluated_eq_thrown {o : Option Text} :
    evaluated o = .error .thrown ↔ o = none := by
  cases o <;> simp [evaluated]

theorem asExecEnv_eq_ok {resource : ResourceInfo} {eei : ExecEnvInfo} :
    asExecEnv resource = .ok eei ↔ resource = .execEnv eei := by
  cases resource <;> simp [asExecEnv]

theorem asExecEnv_eq_thrown {resource : ResourceInfo} :
    asExecEnv resource = .error .thrown ↔ ∃ dsi, resource = .dataStore dsi := by
  cases resource <;> simp [asExecEnv]

theorem asDataStore_eq_ok {resource : ResourceInfo} {dsi : DataStoreInfo} :
    asDataStore resource = .ok dsi ↔ resource = .dataStore dsi := by
  cases resource <;> simp [asDataStore]

theorem asDataStore_eq_thrown {resource : ResourceInfo} :
    asDataStore resource = .error .thrown ↔ ∃ eei, resource = .execEnv eei := by
  cases resource <;> simp [asDataStore]

/-! ## Sites -/

/-- An endpoint on its own, or with a share. -/
abbrev Site := (Text × EndpointInfo) × Option Text

/-- An endpoint and its shares. -/
def sitesAt (shares : List Text) : List (Option Text) := none :: shares.map some

/-- The shares that are seen for an endpoint. -/
def ceVisited (ep : EndpointInfo) : List (Option Text) :=
  if ep.sharesLnk.isEmpty ∨ ep.serviceLnk.isNone then [] else sitesAt ep.sharesLnk

/-- Where the loop over computing endpoints comes. -/
def ceSites (info : BdiiInfo) : List Site :=
  info.endpoints.entries.flatMap fun e => (ceVisited e.2).map (e, ·)

/-- Where the loop over storage endpoints comes. -/
def seSites (info : BdiiInfo) : List Site :=
  info.endpoints.entries.flatMap fun e => (sitesAt (sharesOf info e.2)).map (e, ·)

/-- What one site comes to, whatever the others do. -/
def ceResult (info : BdiiInfo) (site : Site) : Except Fault (Option (Text × Ad)) :=
  (deref site.1.2.serviceLnk >>= computingAd info site.1.2) >>= fun ad =>
    site.2.elim (.ok none) (ceEntry info site.1.1 site.1.2 ad)

/-- What is made of a pair of an endpoint and a share. -/
def seResult (info : BdiiInfo) (site : Site) : Except Fault (Option (Text × Ad)) :=
  storageAd info site.1.2 >>= fun ad => site.2.elim (.ok none) (seEntry info ad)

theorem fetchBdiiCeInfoG2_eq (info : BdiiInfo) :
    fetchBdiiCeInfoG2 info = gather (ceResult info) (ceSites info) .empty := by
  refine Eq.trans ?_ (gather_flatMap _ (fun e o => ceResult info (e, o)) _ _)
  refine congrArg (fun f => List.foldlM f _ _) (funext fun container => funext fun e => ?_)
  unfold ceEndpoint ceVisited
  cases hshares : e.2.sharesLnk.isEmpty with
  | true => simp [gather_nil]
  | false =>
      cases hservice : e.2.serviceLnk with
      | none => simp [gather_nil]
      | some serviceId =>
          simp only [Bool.false_eq_true, if_false, Option.isNone_some, or_self]
          refine (gather_head _ _ _ _).trans ?_
          unfold sitesAt ceResult
          dsimp only
          rw [hservice]
          rfl

theorem fetchBdiiSeInfoG2_eq (info : BdiiInfo) :
    fetchBdiiSeInfoG2 info = gather (seResult info) (seSites info) .empty := by
  refine Eq.trans ?_ (gather_flatMap _ (fun e o => seResult info (e, o)) _ _)
  refine congrArg (fun f => List.foldlM f _ _) (funext fun container => funext fun e => ?_)
  exact gather_head _ _ _ _

/-! ## What a site needs -/

/-- The service of an endpoint, its manager and a policy with a rule are there. -/
structure EndpointInfo.Located (info : BdiiInfo) (ep : EndpointInfo) : Prop where
  service : ∃ s ad, ep.service info = some s ∧ s.ad = some ad
  manager : ∃ s m ad, ep.service info = some s ∧
    s.managerLnk.bind info.managers.find? = some m ∧ m.ad = some ad
  policy : ∃ ad rule, ep.policyAd info = some ad ∧ ad "Rule" = some rule

/-- The ad of a share and its first resource. -/
structure ShareAt (info : BdiiInfo) (shareId : Text) (ad : Ad)
    (resource : ResourceInfo) : Prop where
  record : ∃ share, info.shares.find? shareId = some share ∧ share.ad = some ad ∧
    share.resourcesLnk.head?.bind info.resources.find? = some resource

/-- The benchmarks of a resource have ads. -/
def BenchmarksThere (info : BdiiInfo) (eei : ExecEnvInfo) : Prop :=
  ∀ b ∈ eei.bmarksLnk, ∃ r ad, info.benchmarks.find? b = some r ∧ r.ad = some ad

/-- All that a computing endpoint and its share are linked to is there: the ads
that are copied and the texts the entry is named after. -/
def CeComplete (info : BdiiInfo) (endpointId : Text) (ep : EndpointInfo)
    (shareId : Text) : Prop :=
  ep.Located info ∧
    ∃ shareAd eei epAd interfaceName items,
      ShareAt info shareId shareAd (.execEnv eei) ∧ BenchmarksThere info eei ∧
      ep.ad = some epAd ∧
      evaluateAttribute epAd "InterfaceName" = some interfaceName ∧
      attrList shareAd "OtherInfo" = some items ∧
      ceId (creamCEId endpointId interfaceName items) shareAd ≠ none ∧
      firstPolicy shareAd ≠ none

/-- All that is followed for a pair is there, but the first resource is a data store
or one of the texts is missing. -/
def CeThrows (info : BdiiInfo) (endpointId : Text) (ep : EndpointInfo)
    (shareId : Text) : Prop :=
  ep.Located info ∧
    ∃ shareAd resource, ShareAt info shareId shareAd resource ∧
      ((∃ dsi, resource = .dataStore dsi) ∨
        ∃ eei epAd, resource = .execEnv eei ∧ BenchmarksThere info eei ∧
          ep.ad = some epAd ∧
          (evaluateAttribute epAd "InterfaceName" = none ∨
            ∃ interfaceName items,
              evaluateAttribute epAd "InterfaceName" = some interfaceName ∧
              attrList shareAd "OtherInfo" = some items ∧
              (ceId (creamCEId endpointId interfaceName items) shareAd = none ∨
                firstPolicy shareAd = none)))

/-- The entry a computing pair is to have: the id is that of CREAM among what else is
said of the share, or else that of the share, and the entry is under the id and the
first policy, without what it has up to its last colon. -/
def CeNamed (info : BdiiInfo) (endpointId : Text) (ep : EndpointInfo) (shareId : Text)
    (entry : Text × Ad) : Prop :=
  ∃ shareAd resource epAd interfaceName items id policy,
    ShareAt info shareId shareAd resource ∧ ep.ad = some epAd ∧
    evaluateAttribute epAd "InterfaceName" = some interfaceName ∧
    attrList shareAd "OtherInfo" = some items ∧
    ceId (creamCEId endpointId interfaceName items) shareAd = some id ∧
    firstPolicy shareAd = some policy ∧
    entry.1 = id ++ '/' :: eraseToColon policy ∧ entry.2 "CEid" = some (.string id)

/-- A policy that is linked and has an ad has a rule, where the endpoint has an ad. -/
def EndpointInfo.Ruled (info : BdiiInfo) (ep : EndpointInfo) : Prop :=
  ∀ epAd ad, ep.ad = some epAd → ep.policyAd info = some ad → ∃ rule, ad "Rule" = some rule

/-- The ad of a share is there, and if it has a resource, its first one is a data
store with an ad. -/
def SeLinked (info : BdiiInfo) (shareId : Text) (ad : Ad) : Prop :=
  ∃ share, info.shares.find? shareId = some share ∧ share.ad = some ad ∧
    ∀ r ∈ share.resourcesLnk.head?,
      ∃ dsi dsAd, info.resources.find? r = some (.dataStore dsi) ∧ dsi.ad = some dsAd

/-- All that the ad of a storage pair is made of is there. -/
def SeComplete (info : BdiiInfo) (ep : EndpointInfo) (shareId : Text) : Prop :=
  ep.Ruled info ∧
    ∃ ad id, SeLinked info shareId ad ∧ evaluateAttribute ad "ID" = some id

/-- The entry a storage pair is to have: the ad of the share is in it, and it is under
the id of the share. -/
def SeNamed (info : BdiiInfo) (shareId : Text) (entry : Text × Ad) : Prop :=
  ∃ share ad, info.shares.find? shareId = some share ∧ share.ad = some ad ∧
    evaluateAttribute ad "ID" = some entry.1 ∧
    ∃ storage, entry.2 "GLUE2" = some (.ad (Ad.empty.insertAd "Storage" storage)) ∧
      storage "Share" = some (.ad ad)

/-- The first resource of a share with an ad is no data store. -/
def SeThrows (info : BdiiInfo) (ep : EndpointInfo) (shareId : Text) : Prop :=
  ep.Ruled info ∧
    ∃ share ad r eei, info.shares.find? shareId = some share ∧ share.ad = some ad ∧
      share.resourcesLnk.head? = some r ∧ info.resources.find? r = some (.execEnv eei)

/-! ## Computing sites -/

theorem computing_isOk :
    (∃ ad, (deref ep.serviceLnk >>= computingAd info ep) = .ok ad) ↔ ep.Located info := by
  constructor
  · rintro ⟨ad, h⟩
    simp only [computingAd, bind_eq_ok, deref_eq_ok] at h
    obtain ⟨serviceId, hlnk, service, hservice, serviceAd, hserviceAd, manager, hmanager,
      managerAd, hmanagerAd, policy, hpolicy, policyAd, hpolicyAd, rule, hrule, -⟩ := h
    have hat : ep.service info = some service := by
      simp [EndpointInfo.service, hlnk, hservice]
    exact ⟨⟨service, serviceAd, hat, hserviceAd⟩,
      ⟨service, manager, managerAd, hat, hmanager, hmanagerAd⟩,
      ⟨policyAd, rule, by simp [EndpointInfo.policyAd, hpolicy, hpolicyAd], hrule⟩⟩
  · rintro ⟨⟨service, serviceAd, hat, hserviceAd⟩,
      ⟨s, manager, managerAd, hs, hmanager, hmanagerAd⟩, ⟨policyAd, rule, hpolicyAd, hrule⟩⟩
    cases hat.symm.trans hs
    obtain ⟨serviceId, hlnk, hservice⟩ := Option.bind_eq_some_iff.mp hat
    obtain ⟨policy, hpolicy, hpolicyAd⟩ := Option.bind_eq_some_iff.mp hpolicyAd
    simp only [computingAd, bind_eq_ok, deref_eq_ok]
    exact ⟨_, serviceId, hlnk, service, hservice, serviceAd, hserviceAd, manager, hmanager,
      managerAd, hmanagerAd, policy, hpolicy, policyAd, hpolicyAd, rule, hrule, rfl⟩

theorem computing_ne_thrown :
    (deref ep.serviceLnk >>= computingAd info ep) ≠ .error .thrown := by
  simp [computingAd, bind_eq_error, deref_ne_thrown]

theorem copyBenchmarkInfo_isOk {b : Text} :
    (∃ e, copyBenchmarkInfo info b = .ok e) ↔
      ∃ r ad, info.benchmarks.find? b = some r ∧ r.ad = some ad := by
  simp only [copyBenchmarkInfo, bind_eq_ok, deref_eq_ok]
  constructor
  · rintro ⟨-, r, hr, ad, had, -⟩
    exact ⟨r, ad, hr, had⟩
  · rintro ⟨r, ad, hr, had⟩
    exact ⟨.ad ad, r, hr, ad, had, rfl⟩

theorem benchmarks_isOk {eei : ExecEnvInfo} :
    (∃ bs, eei.bmarksLnk.mapM (copyBenchmarkInfo info) = .ok bs) ↔
      BenchmarksThere info eei :=
  mapM_isOk.trans (forall₂_congr fun _ _ => copyBenchmarkInfo_isOk)

theorem benchmarks_ne_thrown (eei : ExecEnvInfo) :
    eei.bmarksLnk.mapM (copyBenchmarkInfo info) ≠ .error .thrown :=
  mapM_ne_error fun b _ => by
    simp [copyBenchmarkInfo, bind_eq_error, deref_ne_thrown]

/-- A text is cast to itself, so nothing is thrown. -/
theorem extract_isSome (ad : Ad) (list what : String) (into : Ad) :
    ∃ ad', extractGlue2InfoValueIn (fun s => some (.string s)) ad list what into =
      some ad' := by
  unfold extractGlue2InfoValueIn
  split
  · split
    · exact ⟨_, rfl⟩
    · exact ⟨_, rfl⟩
  · exact ⟨_, rfl⟩

theorem shareOtherInfo_isSome (creamId : Option Text) (shareAd : Ad) :
    ∃ oi, shareOtherInfo creamId shareAd = some oi := by
  obtain ⟨oi, hoi⟩ :=
    extract_isSome shareAd "OtherInfo" "InfoProviderName" (creamAd creamId)
  obtain ⟨oi', hoi'⟩ := extract_isSome shareAd "OtherInfo" "InfoProviderVersion" oi
  obtain ⟨oi'', hoi''⟩ := extract_isSome shareAd "OtherInfo" "InfoProviderHost" oi'
  refine ⟨oi'', ?_⟩
  simp only [shareOtherInfo, hoi, Option.bind_eq_bind, Option.bind_some, hoi', hoi'']

theorem ceEntry_eq_ok {computing : Ad} {o : Option (Text × Ad)}
    (h : ceEntry info endpointId ep computing shareId = .ok o) :
    (∃ e, o = some e) ∧
      ∃ shareAd eei epAd interfaceName items,
        ShareAt info shareId shareAd (.execEnv eei) ∧ BenchmarksThere info eei ∧
        ep.ad = some epAd ∧
        evaluateAttribute epAd "InterfaceName" = some interfaceName ∧
        attrList shareAd "OtherInfo" = some items ∧
        ceId (creamCEId endpointId interfaceName items) shareAd ≠ none ∧
        firstPolicy shareAd ≠ none := by
  simp only [ceEntry, bind_eq_ok, deref_eq_ok, evaluated_eq_ok, asExecEnv_eq_ok] at h
  obtain ⟨share, hshare, shareAd, had, resource, hres, eei, rfl, benchmarks, hbench, epAd,
    hep, interfaceName, hname, items, hitems, oi, -, id, hid, policy, hpolicy, ho⟩ := h
  refine ⟨⟨_, (Except.ok.inj ho).symm⟩, shareAd, eei, epAd, interfaceName, items,
    ⟨share, hshare, had, hres⟩, benchmarks_isOk.mp ⟨benchmarks, hbench⟩, hep, hname, hitems,
    ?_, ?_⟩
  · rw [hid]
    exact Option.some_ne_none id
  · rw [hpolicy]
    exact Option.some_ne_none policy

theorem insertGlue13_id (id : Text) (ad : Ad) :
    insertGlue13 id ad "CEid" = some (.string id) := by
  simp [insertGlue13, glue13AttrRefs, Ad.insert]

theorem ceEntry_named {computing : Ad} {entry : Text × Ad}
    (h : ceEntry info endpointId ep computing shareId = .ok (some entry)) :
    CeNamed info endpointId ep shareId entry := by
  simp only [ceEntry, bind_eq_ok, deref_eq_ok, evaluated_eq_ok] at h
  obtain ⟨share, hshare, shareAd, had, resource, hres, eei, -, benchmarks, -, epAd, hep,
    interfaceName, hname, items, hitems, oi, -, id, hid, policy, hpolicy, ho⟩ := h
  cases ho
  refine ⟨shareAd, resource, epAd, interfaceName, items, id, policy,
    ⟨share, hshare, had, hres⟩, hep, hname, hitems, hid, hpolicy, rfl, ?_⟩
  simp only [insertGlue13_id]

theorem ceEntry_eq_thrown {computing : Ad} :
    ceEntry info endpointId ep computing shareId = .error .thrown ↔
      ∃ shareAd resource, ShareAt info shareId shareAd resource ∧
        ((∃ dsi, resource = .dataStore dsi) ∨
          ∃ eei epAd, resource = .execEnv eei ∧ BenchmarksThere info eei ∧
            ep.ad = some epAd ∧
            (evaluateAttribute epAd "InterfaceName" = none ∨
              ∃ interfaceName items,
                evaluateAttribute epAd "InterfaceName" = some interfaceName ∧
                attrList shareAd "OtherInfo" = some items ∧
                (ceId (creamCEId endpointId interfaceName items) shareAd = none ∨
                  firstPolicy shareAd = none))) := by
  simp only [ceEntry, bind_eq_error, deref_eq_ok, deref_ne_thrown, evaluated_eq_ok,
    evaluated_eq_thrown, asExecEnv_eq_ok, asExecEnv_eq_thrown,
    benchmarks_ne_thrown, false_or]
  constructor
  · rintro ⟨share, hshare, shareAd, had, resource, hres, h⟩
    refine ⟨shareAd, resource, ⟨share, hshare, had, hres⟩, h.imp id ?_⟩
    rintro ⟨eei, hexec, benchmarks, hbench, epAd, hep, h⟩
    refine ⟨eei, epAd, hexec, benchmarks_isOk.mp ⟨benchmarks, hbench⟩, hep, h.imp id ?_⟩
    rintro ⟨interfaceName, hname, items, hitems, h⟩
    refine ⟨interfaceName, items, hname, hitems, ?_⟩
    obtain ⟨oi, hoi⟩ :=
      shareOtherInfo_isSome (creamCEId endpointId interfaceName items) shareAd
    rw [hoi] at h
    rcases h with hoi | ⟨oi, -, hid | ⟨id, -, hpolicy | ⟨policy, -, hend⟩⟩⟩
    · cases hoi
    · exact .inl hid
    · exact .inr hpolicy
    · cases hend
  · rintro ⟨shareAd, resource, ⟨share, hshare, had, hres⟩, h⟩
    refine ⟨share, hshare, shareAd, had, resource, hres, h.imp id ?_⟩
    rintro ⟨eei, epAd, hexec, hbench, hep, h⟩
    obtain ⟨benchmarks, hrun⟩ := benchmarks_isOk.mpr hbench
    refine ⟨eei, hexec, benchmarks, hrun, epAd, hep, h.imp id ?_⟩
    rintro ⟨interfaceName, items, hname, hitems, h⟩
    obtain ⟨oi, hoi⟩ :=
      shareOtherInfo_isSome (creamCEId endpointId interfaceName items) shareAd
    refine ⟨interfaceName, hname, items, hitems, .inr ⟨oi, by rw [hoi]; rfl, ?_⟩⟩
    cases hid : ceId (creamCEId endpointId interfaceName items) shareAd with
    | none => exact .inl rfl
    | some id =>
        rw [hid] at h
        exact .inr ⟨id, rfl, .inl (h.resolve_left (Option.some_ne_none id))⟩

/-- Where all is there, the pair has an entry. -/
theorem ceEntry_isOk {computing : Ad} {shareAd epAd : Ad} {eei : ExecEnvInfo}
    {interfaceName : Text} {items : List Expr}
    (hshare : ShareAt info shareId shareAd (.execEnv eei))
    (hbench : BenchmarksThere info eei) (hep : ep.ad = some epAd)
    (hname : evaluateAttribute epAd "InterfaceName" = some interfaceName)
    (hitems : attrList shareAd "OtherInfo" = some items)
    (hid : ceId (creamCEId endpointId interfaceName items) shareAd ≠ none)
    (hpolicy : firstPolicy shareAd ≠ none) :
    ∃ o, ceEntry info endpointId ep computing shareId = .ok o := by
  obtain ⟨share, hfind, had, hres⟩ := hshare
  obtain ⟨benchmarks, hrun⟩ := benchmarks_isOk.mpr hbench
  obtain ⟨oi, hoi⟩ :=
    shareOtherInfo_isSome (creamCEId endpointId interfaceName items) shareAd
  obtain ⟨id, hid⟩ := Option.ne_none_iff_exists'.mp hid
  obtain ⟨policy, hpolicy⟩ := Option.ne_none_iff_exists'.mp hpolicy
  simp only [ceEntry, bind_eq_ok, deref_eq_ok, evaluated_eq_ok, asExecEnv_eq_ok]
  exact ⟨_, share, hfind, shareAd, had, _, hres, eei, rfl, benchmarks, hrun, epAd, hep,
    interfaceName, hname, items, hitems, oi, by rw [hoi]; rfl, id, hid, policy, hpolicy,
    rfl⟩

/-- At a site of the first loop all that is followed is there. -/
def CeFine (info : BdiiInfo) : Site → Prop
  | (e, none) => e.2.Located info
  | (e, some shareId) => CeComplete info e.1 e.2 shareId

theorem ceResult_head (info : BdiiInfo) (e : Text × EndpointInfo) :
    (ceResult info (e, none) = .ok none ↔ e.2.Located info) ∧
      (∀ entry, ceResult info (e, none) ≠ .ok (some entry)) ∧
      ceResult info (e, none) ≠ .error .thrown := by
  refine ⟨?_, fun entry h => ?_, fun h => ?_⟩
  · rw [← computing_isOk]
    show (_ >>= _) = _ ↔ _
    rw [bind_eq_ok]
    exact exists_congr fun ad => and_iff_left rfl
  · obtain ⟨ad, -, hnone⟩ := bind_eq_ok.mp h
    cases hnone
  · rcases bind_eq_error.mp h with h | ⟨ad, -, hnone⟩
    · exact computing_ne_thrown h
    · cases hnone

theorem ceResult_pair (info : BdiiInfo) (e : Text × EndpointInfo) (shareId : Text) :
    ((∃ entry, ceResult info (e, some shareId) = .ok (some entry)) ↔
        CeComplete info e.1 e.2 shareId) ∧
      ceResult info (e, some shareId) ≠ .ok none ∧
      (ceResult info (e, some shareId) = .error .thrown ↔
        CeThrows info e.1 e.2 shareId) := by
  refine ⟨⟨?_, ?_⟩, fun h => ?_, ⟨?_, ?_⟩⟩
  · rintro ⟨entry, h⟩
    obtain ⟨ad, hhead, hpair⟩ := bind_eq_ok.mp h
    exact ⟨computing_isOk.mp ⟨ad, hhead⟩, (ceEntry_eq_ok hpair).2⟩
  · rintro ⟨hlocated, shareAd, eei, epAd, interfaceName, items, hshare, hbench, hep, hname,
      hitems, hid, hpolicy⟩
    obtain ⟨ad, hhead⟩ := computing_isOk.mpr hlocated
    obtain ⟨o, hpair⟩ : ∃ o, ceEntry info e.1 e.2 ad shareId = .ok o :=
      ceEntry_isOk hshare hbench hep hname hitems hid hpolicy
    obtain ⟨⟨entry, rfl⟩, -⟩ := ceEntry_eq_ok hpair
    exact ⟨entry, bind_eq_ok.mpr ⟨ad, hhead, hpair⟩⟩
  · obtain ⟨ad, -, hpair⟩ := bind_eq_ok.mp h
    obtain ⟨⟨entry, hentry⟩, -⟩ := ceEntry_eq_ok hpair
    cases hentry
  · intro h
    rcases bind_eq_error.mp h with h | ⟨ad, hhead, hpair⟩
    · exact absurd h computing_ne_thrown
    · exact ⟨computing_isOk.mp ⟨ad, hhead⟩, ceEntry_eq_thrown.mp hpair⟩
  · rintro ⟨hlocated, h⟩
    obtain ⟨ad, hhead⟩ := computing_isOk.mpr hlocated
    exact bind_eq_error.mpr (.inr ⟨ad, hhead, ceEntry_eq_thrown.mpr h⟩)

/-! ## Storage sites -/

theorem insertPolicy_isOk {policyAd : Option Ad} {ad : Ad} :
    (∃ ad', insertPolicy policyAd ad = .ok ad') ↔
      ∀ p e, policyAd = some p → ad "Endpoint" = some e → ∃ rule, p "Rule" = some rule := by
  unfold insertPolicy
  cases policyAd with
  | none => simp
  | some p =>
      cases ad "Endpoint" with
      | none => simp
      | some e => simp [bind_eq_ok, deref_eq_ok]

theorem insertPolicy_ne_thrown (policyAd : Option Ad) (ad : Ad) :
    insertPolicy policyAd ad ≠ .error .thrown := by
  unfold insertPolicy
  split
  · simp [bind_eq_error, deref_ne_thrown]
  · exact nofun

/-- The policy goes in the second time if it did the first. -/
theorem insertPolicy_twice {policyAd : Option Ad} {ad ad' : Ad}
    (h : insertPolicy policyAd ad = .ok ad') :
    ∃ ad'', insertPolicy policyAd ad' = .ok ad'' := by
  refine insertPolicy_isOk.mpr fun p e hp he => ?_
  cases hend : ad "Endpoint" with
  | none =>
      have hsame : insertPolicy policyAd ad = .ok ad := by
        simp [insertPolicy, hend]
      cases hsame.symm.trans h
      cases hend.symm.trans he
  | some e' => exact insertPolicy_isOk.mp ⟨ad', h⟩ p e' hp hend

theorem updateWith_of_ne {name kind : String} (h : name ≠ kind) (ad : Ad)
    (inner : Option Ad) : ad.updateWith kind inner name = ad name := by
  cases inner with
  | none => rfl
  | some inner => exact if_neg h

/-- What follows the policy cannot fail, so all rests on the rule. -/
theorem policyThen_isOk {policy : Option Ad} {rest : Ad → Except Fault Ad}
    (hrest : ∀ ad, ∃ ad', rest ad = .ok ad') (start : Ad) :
    (∃ ad, (insertPolicy policy start >>= fun ad =>
        insertPolicy policy ad >>= rest) = .ok ad) ↔
      ∀ p e, policy = some p → start "Endpoint" = some e →
        ∃ rule, p "Rule" = some rule := by
  rw [← insertPolicy_isOk]
  simp only [bind_eq_ok]
  constructor
  · rintro ⟨-, ad, hfirst, -⟩
    exact ⟨ad, hfirst⟩
  · rintro ⟨ad, hfirst⟩
    obtain ⟨ad', hsecond⟩ := insertPolicy_twice hfirst
    obtain ⟨ad'', hlast⟩ := hrest ad'
    exact ⟨ad'', ad, hfirst, ad', hsecond, hlast⟩

theorem storageAd_isOk : (∃ ad, storageAd info ep = .ok ad) ↔ ep.Ruled info := by
  refine (policyThen_isOk (fun ad => ?_) _).trans ?_
  · cases ep.service info with
    | none => exact ⟨_, rfl⟩
    | some service => exact ⟨_, rfl⟩
  unfold EndpointInfo.Ruled
  cases ep.ad with
  | none =>
      constructor
      · intro _ epAd p hep
        cases hep
      · intro _ p e _ he
        cases he
  | some epAd =>
      simp only [updateWith_of_ne (show "Endpoint" ≠ "Manager" by decide),
        updateWith_of_ne (show "Endpoint" ≠ "Service" by decide)]
      constructor
      · intro h _ p _ hp
        exact h p (.ad epAd) hp rfl
      · intro h p _ hp _
        exact h epAd p rfl hp

theorem storageAd_ne_thrown : storageAd info ep ≠ .error .thrown := by
  simp only [storageAd, Ne, bind_eq_error, insertPolicy_ne_thrown, false_or, not_exists,
    not_and]
  intro ad _ ad' _
  split <;> exact nofun

theorem dataStoreAd_isOk {share : ShareInfo} :
    (∃ o, dataStoreAd info share = .ok o) ↔
      ∀ r ∈ share.resourcesLnk.head?,
        ∃ dsi dsAd, info.resources.find? r = some (.dataStore dsi) ∧
          dsi.ad = some dsAd := by
  unfold dataStoreAd
  cases share.resourcesLnk.head? with
  | none => simp
  | some r =>
      simp only [bind_eq_ok, deref_eq_ok, asDataStore_eq_ok, Option.mem_some_iff,
        forall_eq']
      constructor
      · rintro ⟨o, resource, hres, dsi, rfl, dsAd, hds, -⟩
        exact ⟨dsi, dsAd, hres, hds⟩
      · rintro ⟨dsi, dsAd, hres, hds⟩
        exact ⟨some dsAd, _, hres, dsi, rfl, dsAd, hds, rfl⟩

theorem dataStoreAd_eq_thrown {share : ShareInfo} :
    dataStoreAd info share = .error .thrown ↔
      ∃ r eei, share.resourcesLnk.head? = some r ∧
        info.resources.find? r = some (.execEnv eei) := by
  unfold dataStoreAd
  cases share.resourcesLnk.head? with
  | none => simp
  | some r =>
      simp only [bind_eq_error, deref_eq_ok, deref_ne_thrown, asDataStore_eq_thrown,
        false_or]
      constructor
      · rintro ⟨resource, hres, ⟨eei, rfl⟩ | ⟨dsi, -, ⟨ad, -, hend⟩⟩⟩
        · exact ⟨r, eei, rfl, hres⟩
        · cases hend
      · rintro ⟨r', eei, hr, hres⟩
        cases hr
        exact ⟨_, hres, .inl ⟨eei, rfl⟩⟩

/-- A share has an entry under its id, if that is a text. -/
theorem seEntry_eq_ok {storage : Ad} {o : Option (Text × Ad)}
    (h : seEntry info storage shareId = .ok o) :
    ∃ ad, SeLinked info shareId ad ∧ o.map Prod.fst = evaluateAttribute ad "ID" := by
  simp only [seEntry, bind_eq_ok, deref_eq_ok] at h
  obtain ⟨share, hshare, ad, had, dataStore, hds, ho⟩ := h
  refine ⟨ad, ⟨share, hshare, had, dataStoreAd_isOk.mp ⟨dataStore, hds⟩⟩, ?_⟩
  cases ho
  have hat : (storage.insertAd "Share" ad).updateWith "DataStore" dataStore "Share" =
      some (.ad ad) :=
    (updateWith_of_ne (by decide) _ _).trans rfl
  have hpath : ∀ inner : Ad, inner "Share" = some (.ad ad) →
      (Ad.empty.insertAd "GLUE2" (Ad.empty.insertAd "Storage" inner)).evaluatePath
        ["GLUE2", "Storage", "Share", "ID"] = evaluateAttribute ad "ID" := by
    intro inner h
    simp [Ad.evaluatePath, Ad.insertAd, Ad.insert, h]
  rw [Option.map_map, hpath _ hat]
  exact Option.map_id'

theorem seEntry_named {storage : Ad} {entry : Text × Ad}
    (h : seEntry info storage shareId = .ok (some entry)) :
    SeNamed info shareId entry := by
  obtain ⟨ad, ⟨share, hshare, had, -⟩, hid⟩ := seEntry_eq_ok h
  refine ⟨share, ad, hshare, had, hid.symm, ?_⟩
  simp only [seEntry, bind_eq_ok, deref_eq_ok] at h
  obtain ⟨share', hshare', ad', had', dataStore, -, ho⟩ := h
  cases hshare.symm.trans hshare'
  cases had.symm.trans had'
  obtain ⟨id, -, rfl⟩ := Option.map_eq_some_iff.mp (Except.ok.inj ho)
  exact ⟨_, rfl, (updateWith_of_ne (by decide) _ _).trans rfl⟩

theorem seEntry_isOk {storage ad : Ad} (h : SeLinked info shareId ad) :
    ∃ o, seEntry info storage shareId = .ok o := by
  obtain ⟨share, hshare, had, hds⟩ := h
  obtain ⟨dataStore, hrun⟩ := dataStoreAd_isOk.mpr hds
  simp only [seEntry, bind_eq_ok, deref_eq_ok]
  exact ⟨_, share, hshare, ad, had, dataStore, hrun, rfl⟩

theorem seEntry_eq_thrown {storage : Ad} :
    seEntry info storage shareId = .error .thrown ↔
      ∃ share ad r eei, info.shares.find? shareId = some share ∧ share.ad = some ad ∧
        share.resourcesLnk.head? = some r ∧
        info.resources.find? r = some (.execEnv eei) := by
  simp only [seEntry, bind_eq_error, deref_eq_ok, deref_ne_thrown, dataStoreAd_eq_thrown,
    false_or]
  constructor
  · rintro ⟨share, hshare, ad, had, ⟨r, eei, hr, hres⟩ | ⟨ds, -, hend⟩⟩
    · exact ⟨share, ad, r, eei, hshare, had, hr, hres⟩
    · cases hend
  · rintro ⟨share, ad, r, eei, hshare, had, hr, hres⟩
    exact ⟨share, hshare, ad, had, .inl ⟨r, eei, hr, hres⟩⟩

/-- At a site of the second loop all that is followed is there. -/
def SeFine (info : BdiiInfo) : Site → Prop
  | (e, none) => e.2.Ruled info
  | (e, some shareId) => e.2.Ruled info ∧ ∃ ad, SeLinked info shareId ad

theorem seResult_head (info : BdiiInfo) (e : Text × EndpointInfo) :
    (seResult info (e, none) = .ok none ↔ e.2.Ruled info) ∧
      (∀ entry, seResult info (e, none) ≠ .ok (some entry)) ∧
      seResult info (e, none) ≠ .error .thrown := by
  refine ⟨?_, fun entry h => ?_, fun h => ?_⟩
  · rw [← storageAd_isOk]
    show (_ >>= _) = _ ↔ _
    rw [bind_eq_ok]
    exact exists_congr fun ad => and_iff_left rfl
  · obtain ⟨ad, -, hnone⟩ := bind_eq_ok.mp h
    cases hnone
  · rcases bind_eq_error.mp h with h | ⟨ad, -, hnone⟩
    · exact storageAd_ne_thrown h
    · cases hnone

theorem seResult_pair (info : BdiiInfo) (e : Text × EndpointInfo) (shareId : Text) :
    ((∃ o, seResult info (e, some shareId) = .ok o) ↔
        SeFine info (e, some shareId)) ∧
      ((∃ entry, seResult info (e, some shareId) = .ok (some entry)) ↔
        SeComplete info e.2 shareId) ∧
      (seResult info (e, some shareId) = .error .thrown ↔
        SeThrows info e.2 shareId) := by
  refine ⟨⟨?_, ?_⟩, ⟨?_, ?_⟩, ⟨?_, ?_⟩⟩
  · rintro ⟨o, h⟩
    obtain ⟨ad, hhead, hpair⟩ := bind_eq_ok.mp h
    obtain ⟨shareAd, hlinked, -⟩ := seEntry_eq_ok hpair
    exact ⟨storageAd_isOk.mp ⟨ad, hhead⟩, shareAd, hlinked⟩
  · rintro ⟨hruled, shareAd, hlinked⟩
    obtain ⟨ad, hhead⟩ := storageAd_isOk.mpr hruled
    obtain ⟨o, hpair⟩ := seEntry_isOk hlinked
    exact ⟨o, bind_eq_ok.mpr ⟨ad, hhead, hpair⟩⟩
  · rintro ⟨entry, h⟩
    obtain ⟨ad, hhead, hpair⟩ := bind_eq_ok.mp h
    obtain ⟨shareAd, hlinked, hid⟩ := seEntry_eq_ok hpair
    exact ⟨storageAd_isOk.mp ⟨ad, hhead⟩, shareAd, entry.1, hlinked, hid.symm⟩
  · rintro ⟨hruled, shareAd, id, hlinked, hid⟩
    obtain ⟨ad, hhead⟩ := storageAd_isOk.mpr hruled
    obtain ⟨o, hpair⟩ : ∃ o, seEntry info ad shareId = .ok o := seEntry_isOk hlinked
    obtain ⟨shareAd', hlinked', hid'⟩ := seEntry_eq_ok hpair
    -- the ad of a share is one
    obtain ⟨share, hshare, had, -⟩ := hlinked
    obtain ⟨share', hshare', had', -⟩ := hlinked'
    cases hshare.symm.trans hshare'
    cases had.symm.trans had'
    rw [hid] at hid'
    obtain ⟨entry, hentry, -⟩ := Option.map_eq_some_iff.mp hid'
    rw [hentry] at hpair
    exact ⟨entry, bind_eq_ok.mpr ⟨ad, hhead, hpair⟩⟩
  · intro h
    rcases bind_eq_error.mp h with h | ⟨ad, hhead, hpair⟩
    · exact absurd h storageAd_ne_thrown
    · exact ⟨storageAd_isOk.mp ⟨ad, hhead⟩, seEntry_eq_thrown.mp hpair⟩
  · rintro ⟨hruled, h⟩
    obtain ⟨ad, hhead⟩ := storageAd_isOk.mpr hruled
    exact bind_eq_error.mpr (.inr ⟨ad, hhead, seEntry_eq_thrown.mpr h⟩)

/-! ## What each pair is to have -/

/-- What only a pair can be. -/
def OfPair (p : Text × EndpointInfo → Text → Prop) (site : Site) : Prop :=
  ∃ shareId, site.2 = some shareId ∧ p site.1 shareId

/-- No site fails; or an exception is what happens at the first that does, and there is
no complete pair. -/
def Clear (sites : List Site) (fine : Site → Prop)
    (complete throwing : Text × EndpointInfo → Text → Prop) : Prop :=
  (∀ s ∈ sites, fine s) ∨
    ∃ before s after, sites = before ++ s :: after ∧
      (∀ u ∈ before, fine u ∧ ¬ OfPair complete u) ∧ OfPair throwing s ∧
      ∀ u ∈ after, ¬ OfPair complete u

/-- Nothing unset is followed, and every complete pair has its entry, of two with one
id the first. -/
def SpareOthers (sites : List Site)
    (complete : Text × EndpointInfo → Text → Prop)
    (named : Text × EndpointInfo → Text → Text × Ad → Prop)
    (result : Site → Except Fault (Option (Text × Ad)))
    (outcome : Except Fault Container) : Prop :=
  outcome ≠ .error .unset ∧
    ∀ s ∈ sites, OfPair complete s →
      ∃ entry, OfPair (named · · entry) s ∧ result s = .ok (some entry) ∧
        Given result sites outcome entry

theorem spareOthers_iff {sites : List Site} {fine : Site → Prop}
    {complete throwing : Text × EndpointInfo → Text → Prop}
    {named : Text × EndpointInfo → Text → Text × Ad → Prop}
    {result : Site → Except Fault (Option (Text × Ad))}
    {outcome : Except Fault Container} (houtcome : outcome = gather result sites .empty)
    (hfine : ∀ s, (∃ o, result s = .ok o) ↔ fine s)
    (hcomplete : ∀ s, (∃ entry, result s = .ok (some entry)) ↔ OfPair complete s)
    (hnamed : ∀ s entry, result s = .ok (some entry) → OfPair (named · · entry) s)
    (hthrows : ∀ s, result s = .error .thrown ↔ OfPair throwing s) :
    SpareOthers sites complete named result outcome ↔
      Clear sites fine complete throwing := by
  have hspared : SpareOthers sites complete named result outcome ↔
      Spared .unset result sites outcome := by
    refine and_congr_right fun _ => forall₂_congr fun s _ => ?_
    rw [← hcomplete]
    constructor
    · intro h entry hentry
      obtain ⟨entry', -, hentry', hgiven⟩ := h ⟨entry, hentry⟩
      cases hentry.symm.trans hentry'
      exact hgiven
    · rintro h ⟨entry, hentry⟩
      exact ⟨entry, hnamed s entry hentry, hentry, h entry hentry⟩
  have hquiet : ∀ s, result s = .ok none ↔ fine s ∧ ¬ OfPair complete s := by
    intro s
    rw [← hfine, ← hcomplete]
    constructor
    · intro h
      refine ⟨⟨none, h⟩, ?_⟩
      rintro ⟨entry, hentry⟩
      cases h.symm.trans hentry
    · rintro ⟨⟨o, ho⟩, hno⟩
      cases o with
      | none => exact ho
      | some entry => exact absurd ⟨entry, ho⟩ hno
  have hexception : ∀ s, (∃ f, f ≠ Fault.unset ∧ result s = .error f) ↔
      OfPair throwing s := by
    intro s
    rw [← hthrows]
    constructor
    · rintro ⟨f, hf, hs⟩
      cases f with
      | unset => exact absurd rfl hf
      | thrown => exact hs
    · exact fun hs => ⟨.thrown, nofun, hs⟩
  have hno : ∀ s, (∀ entry, result s ≠ .ok (some entry)) ↔ ¬ OfPair complete s := by
    intro s
    rw [← hcomplete, not_exists]
  rw [hspared, spared_iff houtcome]
  simp only [hfine, hquiet, hexception, hno]
  rfl

theorem ofPair_head (p : Text × EndpointInfo → Text → Prop) (e : Text × EndpointInfo) :
    ¬ OfPair p (e, none) := fun ⟨_, h, _⟩ => nomatch h

theorem ofPair_some (p : Text × EndpointInfo → Text → Prop) (e : Text × EndpointInfo)
    (shareId : Text) : OfPair p (e, some shareId) ↔ p e shareId :=
  ⟨fun ⟨_, h, hp⟩ => Option.some.inj h ▸ hp, fun hp => ⟨shareId, rfl, hp⟩⟩

/-- The loop over computing endpoints. -/
def CeSpareOthers (info : BdiiInfo) : Prop :=
  SpareOthers (ceSites info) (fun e shareId => CeComplete info e.1 e.2 shareId)
    (fun e shareId entry => CeNamed info e.1 e.2 shareId entry) (ceResult info)
    (fetchBdiiCeInfoG2 info)

/-- No pair of the computing elements is in the way of another. -/
def CeClear (info : BdiiInfo) : Prop :=
  Clear (ceSites info) (CeFine info) (fun e shareId => CeComplete info e.1 e.2 shareId)
    (fun e shareId => CeThrows info e.1 e.2 shareId)

/-- The loop over storage endpoints. -/
def SeSpareOthers (info : BdiiInfo) : Prop :=
  SpareOthers (seSites info) (fun e shareId => SeComplete info e.2 shareId)
    (fun _ shareId entry => SeNamed info shareId entry) (seResult info)
    (fetchBdiiSeInfoG2 info)

/-- The same for storage. -/
def SeClear (info : BdiiInfo) : Prop :=
  Clear (seSites info) (SeFine info) (fun e shareId => SeComplete info e.2 shareId)
    (fun e shareId => SeThrows info e.2 shareId)

theorem ceSpareOthers_iff (info : BdiiInfo) : CeSpareOthers info ↔ CeClear info := by
  refine spareOthers_iff (fetchBdiiCeInfoG2_eq info) ?_ ?_ ?_ ?_
  · rintro ⟨e, _ | shareId⟩
    · obtain ⟨hok, hno, -⟩ := ceResult_head info e
      refine Iff.trans ⟨?_, fun h => ⟨none, h⟩⟩ hok
      rintro ⟨_ | entry, h⟩
      · exact h
      · exact absurd h (hno entry)
    · obtain ⟨hok, hno, -⟩ := ceResult_pair info e shareId
      refine Iff.trans ⟨?_, fun ⟨entry, h⟩ => ⟨some entry, h⟩⟩ hok
      rintro ⟨_ | entry, h⟩
      · exact absurd h hno
      · exact ⟨entry, h⟩
  · rintro ⟨e, _ | shareId⟩
    · exact iff_of_false (fun ⟨entry, h⟩ => (ceResult_head info e).2.1 entry h) (ofPair_head _ e)
    · rw [ofPair_some]
      exact (ceResult_pair info e shareId).1
  · rintro ⟨e, _ | shareId⟩ entry h
    · exact absurd h ((ceResult_head info e).2.1 entry)
    · obtain ⟨ad, -, hpair⟩ := bind_eq_ok.mp h
      exact ⟨shareId, rfl, ceEntry_named hpair⟩
  · rintro ⟨e, _ | shareId⟩
    · exact iff_of_false (ceResult_head info e).2.2 (ofPair_head _ e)
    · rw [ofPair_some]
      exact (ceResult_pair info e shareId).2.2

theorem seSpareOthers_iff (info : BdiiInfo) : SeSpareOthers info ↔ SeClear info := by
  refine spareOthers_iff (fetchBdiiSeInfoG2_eq info) ?_ ?_ ?_ ?_
  · rintro ⟨e, _ | shareId⟩
    · obtain ⟨hok, hno, -⟩ := seResult_head info e
      refine Iff.trans ⟨?_, fun h => ⟨none, h⟩⟩ hok
      rintro ⟨_ | entry, h⟩
      · exact h
      · exact absurd h (hno entry)
    · exact (seResult_pair info e shareId).1
  · rintro ⟨e, _ | shareId⟩
    · exact iff_of_false (fun ⟨entry, h⟩ => (seResult_head info e).2.1 entry h) (ofPair_head _ e)
    · rw [ofPair_some]
      exact (seResult_pair info e shareId).2.1
  · rintro ⟨e, _ | shareId⟩ entry h
    · exact absurd h ((seResult_head info e).2.1 entry)
    · obtain ⟨ad, -, hpair⟩ := bind_eq_ok.mp h
      exact ⟨shareId, rfl, seEntry_named hpair⟩
  · rintro ⟨e, _ | shareId⟩
    · exact iff_of_false (seResult_head info e).2.2 (ofPair_head _ e)
    · rw [ofPair_some]
      exact (seResult_pair info e shareId).2.2

/-- What is missing costs others nothing just when it is nothing that is looked at, or
there are no others. -/
theorem spareOthers_iff_clear (info : BdiiInfo) :
    CeSpareOthers info ∧ SeSpareOthers info ↔ CeClear info ∧ SeClear info :=
  and_congr (ceSpareOthers_iff info) (seSpareOthers_iff info)

/-! ## An endpoint without its service -/

/-- A list of texts. -/
def texts (values : List String) : Expr := .list (values.map fun s => .string s.toList)

/-- The entry of a share. -/
def computingShareEntry : Entry where
  dn := "GLUE2ShareID=sh,GLUE2ServiceID=s,GLUE2GroupID=g".toList
  ad := (Ad.empty.insert "objectClass" (texts ["GLUE2ComputingShare"])).insert
    "ComputingEndpointForeignKey" (texts ["e"])

/-- The entry of an endpoint. -/
def endpointEntry : Entry where
  dn := "GLUE2EndpointID=e,GLUE2ServiceID=s,GLUE2GroupID=g".toList
  ad := Ad.empty.insert "InterfaceName" (.string "CREAM".toList)

/-- The ad of a service that was never published is looked into. -/
theorem not_ceSpareOthers_endpoint :
    ∃ info, feed noCasts [computingShareEntry, endpointEntry] {} = .ok info ∧
      fetchBdiiCeInfoG2 info = .error .unset ∧ ¬ CeSpareOthers info := by
  have hfault : (feed noCasts [computingShareEntry, endpointEntry] {} >>=
      fetchBdiiCeInfoG2) = .error .unset := rfl
  rcases bind_eq_error.mp hfault with hfeed | ⟨info, hfeed, hfetch⟩
  · cases hfeed
  · exact ⟨info, hfeed, hfetch, fun h => h.1 hfetch⟩

end Wms.Core.Purchaser
