import Mathlib.Data.Set.Card
import Wms.Core.Broker
import Wms.Proofs.Matchmaker

/-!
# Match-making with input data maximises the files within reach

What is to be chosen is said of the storage elements and the computing elements
as they are in the ISM, without a word on how the storage mapping and the table
are made. The mapping has an entry for each storage element with a replica, and
the entry has what the ad says and the files that are there; the loop over the
computing elements counts files of what is close, in whatever order the
partitions have left the storage.

A storage element is judged by the first requested protocol that it supports.
If that is `file` and there is no mount point, the others are not tried.
-/

namespace Wms.Core.Broker

open Wms.Lib Wms.Core Matchmaking

/-! ## URLs of replicas -/

/-- A well-formed URL: `protocol://host[:port]/path`. -/
structure SfnUrl where
  protocol : Text
  host : Text
  port : Option Text
  path : Text
  protocol_no_colon : ':' ∉ protocol
  host_ne : host ≠ []
  host_plain : ∀ c ∈ host, isSpace c = false ∧ c ≠ ':' ∧ c ≠ '/'
  port_digits : ∀ digits ∈ port, digits ≠ [] ∧ ∀ c ∈ digits, c.isDigit = true

/-- What stands behind the host. -/
def SfnUrl.afterHost (url : SfnUrl) : Text :=
  match url.port with
  | none => '/' :: url.path
  | some digits => ':' :: (digits ++ '/' :: url.path)

/-- The URL as it is written. -/
def SfnUrl.text (url : SfnUrl) : Text :=
  url.protocol ++ ':' :: '/' :: '/' :: (url.host ++ url.afterHost)

theorem hostOfUrl_text (url : SfnUrl) : hostOfUrl url.text = some url.host := by
  have hcolon : url.text.dropWhile (· ≠ ':') =
      ':' :: '/' :: '/' :: (url.host ++ url.afterHost) := by
    refine (span_append (fun c hc => decide_eq_true ?_) fun c hc => ?_).2
    · rintro rfl
      exact url.protocol_no_colon hc
    · cases hc
      rfl
  have hslashes : ('/' :: '/' :: (url.host ++ url.afterHost)).dropWhile
      (fun c => isSpace c || c = '/') = url.host ++ url.afterHost := by
    obtain ⟨c, rest, hhost⟩ := List.exists_cons_of_ne_nil url.host_ne
    obtain ⟨hspace, -, hslash⟩ := url.host_plain c (hhost ▸ List.mem_cons_self)
    refine (span_append (a := ['/', '/']) (fun c hc => ?_) fun c' hc' => ?_).2
    · obtain rfl : c = '/' := by simpa using hc
      rfl
    · rw [hhost] at hc'
      cases hc'
      rw [hspace, decide_eq_false hslash]
      rfl
  obtain ⟨htake, hdrop⟩ := span_append (a := url.host) (b := url.afterHost)
    (p := fun c => !isSpace c && c ≠ ':' && c ≠ '/')
    (fun c hc => by
      obtain ⟨hspace, hcolon, hslash⟩ := url.host_plain c hc
      simp [hspace, hcolon, hslash])
    (fun c hc => by
      unfold SfnUrl.afterHost at hc
      split at hc <;> cases hc <;> rfl)
  unfold hostOfUrl
  rw [hcolon]
  dsimp only
  rw [hslashes, htake, hdrop, if_neg (by simp [url.host_ne])]
  unfold SfnUrl.afterHost
  cases hport : url.port with
  | none => rfl
  | some digits =>
      obtain ⟨hne, hdigits⟩ := url.port_digits digits hport
      obtain ⟨htake, hdrop⟩ := span_append (b := '/' :: url.path) hdigits
        (fun c hc => by cases hc; rfl)
      show (if ((digits ++ '/' :: url.path).takeWhile Char.isDigit).isEmpty then none
        else if ((digits ++ '/' :: url.path).dropWhile Char.isDigit).head? = some '/'
          then some url.host else none) = some url.host
      rw [htake, hdrop, if_neg (by simp [hne])]
      rfl

/-! ## What is to be chosen -/

/-- A storage element holds a replica of a file. -/
def Holds (fm : FileMapping) (lfn name : Text) : Prop :=
  ∃ sfns, (lfn, sfns) ∈ fm ∧ ∃ url : SfnUrl, url.text ∈ sfns ∧ url.host = name

variable {SeAd : Type} (S : StorageAds SeAd)

/-- A storage element supports a protocol. -/
def Supports (se : IsmEntry SeAd) (p : Text) : Prop :=
  ∃ ad ∈ S.accessProtocols se.ad, ad.1.getD [] = p

/-- Some computing element has the storage mounted. -/
def HasMount (se : IsmEntry SeAd) : Prop :=
  ∃ ad ∈ S.closeComputingElements se.ad, ad.2.getD [] ≠ []

/-- Some requested protocol can be used. -/
def Compatible (dap : List Text) (se : IsmEntry SeAd) : Prop :=
  ∃ p ∈ dap, Supports S se p ∧ (p = file → HasMount S se)

/-- A computing element is close to a storage element. -/
def CloseTo (ceid : Text) (se : IsmEntry SeAd) : Prop :=
  ∃ ad ∈ S.closeComputingElements se.ad, ad.1.getD [] <+: ceid

/-- The files within reach of a computing element. -/
def withinReach (seIsm : Ism SeAd) (fm : FileMapping) (dap : List Text)
    (ceid : Text) : Set Text :=
  {lfn | ∃ name se, (name, se) ∈ seIsm ∧ Holds fm lfn name ∧
    Compatible S dap se ∧ CloseTo S ceid se}

section
variable {CeAd Jdl K : Type} (L : Libraries CeAd Jdl K)
  (ceIsm : Ism CeAd) (seIsm : Ism SeAd) (fm : FileMapping) (dap : List Text)
  (jdl : Jdl)

/-- A computing element that suits the job and is close to some of its files. -/
structure Suitable (x : Text × IsmEntry CeAd) : Prop where
  mem : x ∈ ceIsm
  valid : valid L jdl x = true
  close : ∃ name se, (name, se) ∈ seIsm ∧ (∃ lfn, Holds fm lfn name) ∧
    Compatible S dap se ∧ CloseTo S x.1 se

/-- One with the greatest number of files within reach. -/
def Best (x : Text × IsmEntry CeAd) : Prop :=
  Suitable S L ceIsm seIsm fm dap jdl x ∧
    ∀ y, Suitable S L ceIsm seIsm fm dap jdl y →
      (withinReach S seIsm fm dap y.1).ncard ≤
        (withinReach S seIsm fm dap x.1).ncard

end

/-! ## The storage mapping -/

/-- A mapping is that of the replicas seen so far. -/
structure Describes (seIsm : Ism SeAd) (seen : List (Text × Text))
    (sm : StorageMapping) : Prop where
  key : ∀ name, (∃ info, (name, info) ∈ sm) ↔
    (∃ lfn, (lfn, name) ∈ seen) ∧ ∃ se, (name, se) ∈ seIsm
  protocols : ∀ name info se, (name, info) ∈ sm → (name, se) ∈ seIsm →
    ∀ p, p ∈ info.protocols ↔
      ∃ ad ∈ S.accessProtocols se.ad, makeStorageInfo S ad = p
  mounts : ∀ name info se, (name, info) ∈ sm → (name, se) ∈ seIsm →
    ∀ m, m ∈ info.ceMounts ↔
      ∃ ad ∈ S.closeComputingElements se.ad, makeCeBindInfo ad = m
  links : ∀ name info, (name, info) ∈ sm →
    ∀ lfn, lfn ∈ info.links ↔ (lfn, name) ∈ seen

variable {S} {seIsm : Ism SeAd} {seen : List (Text × Text)} {sm : StorageMapping}

theorem mem_insertProtocols {protos : Finset (Text × ℤ)} {seAd : SeAd}
    {p : Text × ℤ} :
    p ∈ insertProtocols S protos seAd ↔
      p ∈ protos ∨ ∃ ad ∈ S.accessProtocols seAd, makeStorageInfo S ad = p := by
  unfold insertProtocols
  induction S.accessProtocols seAd generalizing protos with
  | nil => simp
  | cons ad ads ih =>
      rw [List.foldl_cons, ih, Finset.mem_insert]
      simp only [List.mem_cons, exists_eq_or_imp]
      rw [or_comm (a := p = _), or_assoc, eq_comm (a := p)]

theorem mem_insertCeMountPoints {mounts : List (Text × Text)} {seAd : SeAd}
    {m : Text × Text} :
    m ∈ insertCeMountPoints S mounts seAd ↔
      m ∈ mounts ∨ ∃ ad ∈ S.closeComputingElements seAd, makeCeBindInfo ad = m := by
  unfold insertCeMountPoints
  rw [List.mem_append, List.mem_map]

theorem describes_empty : Describes S seIsm [] .empty where
  key := fun name => by
    constructor
    · rintro ⟨info, h⟩
      exact absurd h OrderedMap.not_mem_empty
    · rintro ⟨⟨lfn, h⟩, -⟩
      cases h
  protocols := fun _ _ _ h => absurd h OrderedMap.not_mem_empty
  mounts := fun _ _ _ h => absurd h OrderedMap.not_mem_empty
  links := fun _ _ h => absurd h OrderedMap.not_mem_empty

/-- What there is already for a storage element, or nothing. -/
theorem describes_getD (h : Describes S seIsm seen sm) {name : Text}
    {se : IsmEntry SeAd} (hse : (name, se) ∈ seIsm) :
    (∀ p ∈ ((sm.find? name).getD .empty).protocols,
      ∃ ad ∈ S.accessProtocols se.ad, makeStorageInfo S ad = p) ∧
    (∀ m ∈ ((sm.find? name).getD .empty).ceMounts,
      ∃ ad ∈ S.closeComputingElements se.ad, makeCeBindInfo ad = m) ∧
    ∀ lfn, lfn ∈ ((sm.find? name).getD .empty).links ↔ (lfn, name) ∈ seen := by
  cases hinfo : sm.find? name with
  | none =>
      refine ⟨fun p hp => ?_, fun m hm => ?_, fun lfn => ?_⟩
      · exact absurd hp (Finset.notMem_empty p)
      · cases hm
      · refine iff_of_false List.not_mem_nil fun hseen => ?_
        obtain ⟨info, hmem⟩ := (h.key name).mpr ⟨⟨lfn, hseen⟩, se, hse⟩
        rw [OrderedMap.find?_eq_some.mpr hmem] at hinfo
        cases hinfo
  | some info =>
      have hmem := OrderedMap.find?_eq_some.mp hinfo
      exact ⟨fun p hp => (h.protocols name info se hmem hse p).mp hp,
        fun m hm => (h.mounts name info se hmem hse m).mp hm,
        h.links name info hmem⟩

/-- One more replica, on a storage element that is not known. -/
theorem describes_unknown (h : Describes S seIsm seen sm) (lfn : Text)
    {host : Text} (hno : ∀ se, (host, se) ∉ seIsm) :
    Describes S seIsm (seen ++ [(lfn, host)]) sm where
  key := fun name => by
    rw [h.key name]
    refine and_congr_left fun ⟨se, hse⟩ => exists_congr fun lfn' => ?_
    rw [List.mem_append, List.mem_singleton]
    refine (or_iff_left ?_).symm
    rintro heq
    cases heq
    exact hno se hse
  protocols := h.protocols
  mounts := h.mounts
  links := fun name info hmem lfn' => by
    rw [h.links name info hmem lfn', List.mem_append, List.mem_singleton]
    refine (or_iff_left ?_).symm
    rintro heq
    cases heq
    obtain ⟨-, se, hse⟩ := (h.key host).mp ⟨info, hmem⟩
    exact hno se hse

/-- One more replica, on a storage element of the ISM. -/
theorem describes_known (h : Describes S seIsm seen sm) (lfn : Text)
    {host : Text} {se : IsmEntry SeAd} (hse : (host, se) ∈ seIsm) :
    Describes S seIsm (seen ++ [(lfn, host)])
      (sm.set host
        { protocols := insertProtocols S
            ((sm.find? host).getD .empty).protocols se.ad
          links := ((sm.find? host).getD .empty).links ++ [lfn]
          ceMounts := insertCeMountPoints S
            ((sm.find? host).getD .empty).ceMounts se.ad }) := by
  obtain ⟨hprotocols, hmounts, hlinks⟩ := describes_getD h hse
  have hsame : ∀ {se'}, (host, se') ∈ seIsm → se' = se := by
    intro se' hse'
    cases OrderedMap.eq_of_key_eq hse' hse rfl
    rfl
  refine ⟨fun name => ?_, fun name info se' hmem hse' p => ?_,
    fun name info se' hmem hse' m => ?_, fun name info hmem lfn' => ?_⟩
  · by_cases hname : name = host
    · subst hname
      refine iff_of_true ⟨_, OrderedMap.mem_set.mpr (.inl rfl)⟩
        ⟨⟨lfn, List.mem_append_right _ (List.mem_singleton_self _)⟩, se, hse⟩
    · have hset : ∀ v info, (name, info) ∈ sm.set host v ↔ (name, info) ∈ sm := by
        intro v info
        rw [OrderedMap.mem_set]
        constructor
        · rintro (heq | ⟨hmem, -⟩)
          · cases heq
            exact absurd rfl hname
          · exact hmem
        · exact fun hmem => .inr ⟨hmem, hname⟩
      rw [exists_congr (hset _), h.key name]
      refine and_congr_left fun _ => exists_congr fun lfn' => ?_
      rw [List.mem_append, List.mem_singleton]
      exact (or_iff_left fun heq => hname (congrArg Prod.snd heq)).symm
  · rcases OrderedMap.mem_set.mp hmem with heq | ⟨hmem, -⟩
    · cases heq
      cases hsame hse'
      rw [mem_insertProtocols]
      exact or_iff_right_of_imp (hprotocols p)
    · exact h.protocols name info se' hmem hse' p
  · rcases OrderedMap.mem_set.mp hmem with heq | ⟨hmem, -⟩
    · cases heq
      cases hsame hse'
      rw [mem_insertCeMountPoints]
      exact or_iff_right_of_imp (hmounts m)
    · exact h.mounts name info se' hmem hse' m
  · rw [List.mem_append, List.mem_singleton]
    rcases OrderedMap.mem_set.mp hmem with heq | ⟨hmem, hne⟩
    · cases heq
      rw [List.mem_append, List.mem_singleton, hlinks]
      exact or_congr_right
        ⟨fun heq => heq ▸ rfl, fun heq => congrArg Prod.fst heq⟩
    · rw [h.links name info hmem]
      exact (or_iff_left fun heq => hne (congrArg Prod.snd heq)).symm

/-- One more replica, by an URL. -/
theorem describes_addReplica (h : Describes S seIsm seen sm) (lfn : Text)
    (url : SfnUrl) :
    ∃ sm', addReplica S seIsm lfn url.text sm = some sm' ∧
      Describes S seIsm (seen ++ [(lfn, url.host)]) sm' := by
  unfold addReplica resolveStorageName
  rw [hostOfUrl_text]
  dsimp only
  rw [Option.map_some, if_neg (by simp [url.host_ne])]
  refine ⟨_, rfl, ?_⟩
  cases hse : seIsm.find? url.host with
  | none =>
      refine describes_unknown h lfn fun se hmem => ?_
      rw [OrderedMap.find?_eq_some.mpr hmem] at hse
      cases hse
  | some se => exact describes_known h lfn (OrderedMap.find?_eq_some.mp hse)

/-- The URLs of the replicas are well-formed. -/
def WellFormed (fm : FileMapping) : Prop :=
  ∀ file ∈ fm, ∀ sfn ∈ file.2, ∃ url : SfnUrl, url.text = sfn

/-- The replicas of a file, by their hosts. -/
def replicasOf (file : Text × List Text) : List (Text × Text) :=
  (file.2.filterMap hostOfUrl).map (Prod.mk file.1)

theorem describes_file {file : Text × List Text}
    (hfile : ∀ sfn ∈ file.2, ∃ url : SfnUrl, url.text = sfn)
    (h : Describes S seIsm seen sm) :
    ∃ sm', file.2.foldlM
        (fun result sfn => addReplica S seIsm file.1 sfn result) sm = some sm' ∧
      Describes S seIsm (seen ++ replicasOf file) sm' := by
  obtain ⟨lfn, sfns⟩ := file
  induction sfns generalizing seen sm with
  | nil =>
      refine ⟨sm, rfl, ?_⟩
      rw [show replicasOf (lfn, []) = [] from rfl, List.append_nil]
      exact h
  | cons sfn sfns ih =>
      obtain ⟨url, rfl⟩ := hfile _ List.mem_cons_self
      obtain ⟨sm', hadd, h⟩ := describes_addReplica h lfn url
      obtain ⟨sm'', hrest, h⟩ :=
        ih h fun sfn hsfn => hfile sfn (List.mem_cons_of_mem _ hsfn)
      refine ⟨sm'', ?_, ?_⟩
      · rw [List.foldlM_cons, hadd]
        exact hrest
      · have hreplicas : replicasOf (lfn, url.text :: sfns) =
            (lfn, url.host) :: replicasOf (lfn, sfns) := by
          unfold replicasOf
          rw [List.filterMap_cons, hostOfUrl_text]
          rfl
        rw [hreplicas, List.append_cons]
        exact h

theorem describes_files {files : List (Text × List Text)}
    (hfiles : ∀ file ∈ files, ∀ sfn ∈ file.2, ∃ url : SfnUrl, url.text = sfn)
    (h : Describes S seIsm seen sm) :
    ∃ sm', files.foldlM
        (fun result file => file.2.foldlM
          (fun result sfn => addReplica S seIsm file.1 sfn result) result) sm =
        some sm' ∧
      Describes S seIsm (seen ++ files.flatMap replicasOf) sm' := by
  induction files generalizing seen sm with
  | nil =>
      refine ⟨sm, rfl, ?_⟩
      rw [List.flatMap_nil, List.append_nil]
      exact h
  | cons file files ih =>
      obtain ⟨sm', hfile, h⟩ := describes_file (hfiles file List.mem_cons_self) h
      obtain ⟨sm'', hrest, h⟩ :=
        ih (fun file hmem => hfiles file (List.mem_cons_of_mem _ hmem)) h
      refine ⟨sm'', ?_, ?_⟩
      · rw [List.foldlM_cons, hfile]
        exact hrest
      · rw [List.flatMap_cons, ← List.append_assoc]
        exact h

theorem mem_replicas {fm : FileMapping} (hfm : WellFormed fm)
    {lfn name : Text} :
    (lfn, name) ∈ fm.entries.flatMap replicasOf ↔ Holds fm lfn name := by
  rw [List.mem_flatMap]
  constructor
  · rintro ⟨⟨lfn', sfns⟩, hfile, hmem⟩
    obtain ⟨host, hhost, heq⟩ := List.mem_map.mp hmem
    obtain ⟨sfn, hsfn, hurl⟩ := List.mem_filterMap.mp hhost
    obtain ⟨url, rfl⟩ := hfm _ hfile sfn hsfn
    rw [hostOfUrl_text] at hurl
    cases hurl
    cases heq
    exact ⟨sfns, hfile, url, hsfn, rfl⟩
  · rintro ⟨sfns, hfile, url, hurl, rfl⟩
    exact ⟨(lfn, sfns), hfile, List.mem_map.mpr ⟨url.host,
      List.mem_filterMap.mpr ⟨url.text, hurl, hostOfUrl_text url⟩, rfl⟩⟩

/-- The mapping has what the ISM has on the storage elements with replicas. -/
theorem resolveStoragemappingInfo_spec (S : StorageAds SeAd) (seIsm : Ism SeAd)
    {fm : FileMapping} (hfm : WellFormed fm) :
    ∃ sm, resolveStoragemappingInfo S seIsm fm = some sm ∧
      Describes S seIsm (fm.entries.flatMap replicasOf) sm :=
  describes_files hfm describes_empty

/-! ## One storage element -/

section
variable {dap : List Text} {name : Text} {info : StorageInfo}
  {se : IsmEntry SeAd}

theorem matchesAnyProtocolIn_iff (h : Describes S seIsm seen sm)
    (hmem : (name, info) ∈ sm) (hse : (name, se) ∈ seIsm) (p : Text) :
    matchesAnyProtocolIn info.protocols p = true ↔ Supports S se p := by
  unfold matchesAnyProtocolIn Supports
  rw [decide_eq_true_eq]
  constructor
  · rintro ⟨it, hit, rfl⟩
    obtain ⟨ad, had, rfl⟩ := (h.protocols name info se hmem hse it).mp hit
    exact ⟨ad, had, rfl⟩
  · rintro ⟨ad, had, rfl⟩
    exact ⟨makeStorageInfo S ad,
      (h.protocols name info se hmem hse _).mpr ⟨ad, had, rfl⟩, rfl⟩

theorem any_isMountDefined_iff (h : Describes S seIsm seen sm)
    (hmem : (name, info) ∈ sm) (hse : (name, se) ∈ seIsm) :
    info.ceMounts.any isMountDefined = true ↔ HasMount S se := by
  have hdefined : ∀ m : Text × Text, isMountDefined m = true ↔ m.2 ≠ [] := by
    intro m
    unfold isMountDefined
    cases m.2 <;> simp
  rw [List.any_eq_true]
  constructor
  · rintro ⟨m, hm, hne⟩
    obtain ⟨ad, had, rfl⟩ := (h.mounts name info se hmem hse m).mp hm
    exact ⟨ad, had, (hdefined _).mp hne⟩
  · rintro ⟨ad, had, hne⟩
    exact ⟨makeCeBindInfo ad,
      (h.mounts name info se hmem hse _).mpr ⟨ad, had, rfl⟩, (hdefined _).mpr hne⟩

theorem isStorageCloseTo_iff (h : Describes S seIsm seen sm)
    (hmem : (name, info) ∈ sm) (hse : (name, se) ∈ seIsm) (ceid : Text) :
    isStorageCloseTo ceid (name, info) = true ↔ CloseTo S ceid se := by
  unfold isStorageCloseTo CloseTo
  rw [List.any_eq_true]
  constructor
  · rintro ⟨m, hm, hpre⟩
    obtain ⟨ad, had, rfl⟩ := (h.mounts name info se hmem hse m).mp hm
    exact ⟨ad, had, List.isPrefixOf_iff_prefix.mp hpre⟩
  · rintro ⟨ad, had, hpre⟩
    exact ⟨makeCeBindInfo ad,
      (h.mounts name info se hmem hse _).mpr ⟨ad, had, rfl⟩,
      List.isPrefixOf_iff_prefix.mpr hpre⟩

variable (S) in
/-- `file` comes first of the protocols that are supported and cannot be used,
and another one could be. -/
def FileShadows (dap : List Text) (se : IsmEntry SeAd) : Prop :=
  ¬ HasMount S se ∧ (∃ p ∈ dap, p ≠ file ∧ Supports S se p) ∧
    ∃ before after, dap = before ++ file :: after ∧
      (∀ p ∈ before, ¬ Supports S se p) ∧ Supports S se file

/-- The first supported protocol decides. -/
theorem isSelected_iff (h : Describes S seIsm seen sm)
    (hmem : (name, info) ∈ sm) (hse : (name, se) ∈ seIsm) :
    isSelected dap (name, info) = true ↔
      Compatible S dap se ∧ ¬ FileShadows S dap se := by
  have hsupports := matchesAnyProtocolIn_iff h hmem hse
  have hmount := any_isMountDefined_iff h hmem hse
  unfold isSelected
  dsimp only
  cases hfind : dap.find? (matchesAnyProtocolIn info.protocols) with
  | none =>
      refine iff_of_false Bool.false_ne_true ?_
      rintro ⟨⟨p, hp, hsup, -⟩, -⟩
      exact List.find?_eq_none.mp hfind p hp ((hsupports p).mpr hsup)
  | some p =>
      obtain ⟨hp, before, after, hdap, hbefore⟩ :=
        List.find?_eq_some_iff_append.mp hfind
      have hsup := (hsupports p).mp hp
      have hpmem : p ∈ dap := by
        rw [hdap]
        exact List.mem_append_right _ List.mem_cons_self
      have hnone : ∀ q ∈ before, ¬ Supports S se q := by
        intro q hq hs
        have hno := hbefore q hq
        rw [(hsupports q).mpr hs] at hno
        cases hno
      have hbool : (!(p = file && !info.ceMounts.any isMountDefined)) = true ↔
          (p = file → HasMount S se) := by
        rw [← hmount]
        by_cases hpf : p = file <;> simp [hpf]
      dsimp only
      rw [hbool]
      constructor
      · refine fun hok => ⟨⟨p, hpmem, hsup, hok⟩, ?_⟩
        rintro ⟨hno, -, before', after', hdap', hbefore', hfile⟩
        -- the first supported protocol is the one found
        have hpf : p = file := by
          have hfind' : dap.find? (matchesAnyProtocolIn info.protocols) =
              some file := by
            refine List.find?_eq_some_iff_append.mpr
              ⟨(hsupports file).mpr hfile, before', after', hdap', fun q hq => ?_⟩
            rw [Bool.not_eq_true', ← Bool.not_eq_true, hsupports]
            exact hbefore' q hq
          rw [hfind] at hfind'
          exact Option.some.inj hfind'
        exact hno (hok hpf)
      · rintro ⟨⟨q, hq, hqs, hqf⟩, hshadow⟩ rfl
        by_contra hno
        have hqne : q ≠ file := fun heq => hno (hqf heq)
        exact hshadow ⟨hno, ⟨q, hq, hqne, hqs⟩, before, after, hdap, hnone, hsup⟩

end

/-! ## The storage in use -/

section
variable {storage : List (Text × StorageInfo)}

theorem mem_extractComputingElementsId {id : Text} :
    (id, ()) ∈ extractComputingElementsId storage ↔
      ∃ si ∈ storage, ∃ mount ∈ si.2.ceMounts, mount.1 = id := by
  have hmounts : ∀ (mounts : List (Text × Text)) (s : OrderedMap Text Unit),
      (id, ()) ∈ mounts.foldl (fun s mount => s.set mount.1 ()) s ↔
        (id, ()) ∈ s ∨ ∃ mount ∈ mounts, mount.1 = id := by
    intro mounts
    induction mounts with
    | nil => simp
    | cons mount mounts ih =>
        intro s
        rw [List.foldl_cons, ih, OrderedMap.mem_set]
        simp only [List.mem_cons, exists_eq_or_imp, Prod.mk.injEq, and_true]
        grind
  have hstorage : ∀ (storage : List (Text × StorageInfo)) (s : OrderedMap Text Unit),
      (id, ()) ∈ storage.foldl (fun s si =>
          si.2.ceMounts.foldl (fun s mount => s.set mount.1 ()) s) s ↔
        (id, ()) ∈ s ∨ ∃ si ∈ storage, ∃ mount ∈ si.2.ceMounts, mount.1 = id := by
    intro storage
    induction storage with
    | nil => simp
    | cons si storage ih =>
        intro s
        rw [List.foldl_cons, ih, hmounts, or_assoc]
        simp only [List.mem_cons, exists_eq_or_imp]
  exact (hstorage storage .empty).trans (or_iff_right OrderedMap.not_mem_empty)

/-- The ids are looked for at the beginning of ids, as closeness is. -/
theorem begins_extract {Ad : Type} {x : Text × IsmEntry Ad} :
    begins (extractComputingElementsId storage) x = true ↔
      ∃ si ∈ storage, isStorageCloseTo x.1 si = true := by
  unfold begins
  rw [List.any_eq_true]
  constructor
  · rintro ⟨⟨id, u⟩, hid, hstarts⟩
    obtain ⟨si, hsi, mount, hmount, rfl⟩ := mem_extractComputingElementsId.mp hid
    exact ⟨si, hsi, List.any_eq_true.mpr ⟨mount, hmount, hstarts⟩⟩
  · rintro ⟨si, hsi, hclose⟩
    obtain ⟨mount, hmount, hstarts⟩ := List.any_eq_true.mp hclose
    exact ⟨(mount.1, ()),
      mem_extractComputingElementsId.mpr ⟨si, hsi, mount, hmount, rfl⟩, hstarts⟩

/-- A count depends only on what is in the list. -/
theorem countUniqueLogicalFiles_eq (storage : List (Text × StorageInfo)) :
    countUniqueLogicalFiles storage =
      {lfn | ∃ si ∈ storage, lfn ∈ si.2.links}.ncard := by
  unfold countUniqueLogicalFiles
  rw [← Set.ncard_coe_finset]
  refine congrArg Set.ncard (Set.ext fun lfn => ?_)
  rw [Finset.mem_coe, List.mem_toFinset, List.mem_flatMap]
  rfl

end

/-! ## The loop over the computing elements -/

section
variable {partition : Partition (Text × StorageInfo)}
  {storage : List (Text × StorageInfo)} {done : List Text} {counts : Counts}

/-- The files on what is close to a computing element. -/
noncomputable def filesOf (storage : List (Text × StorageInfo)) (id : Text) : ℕ :=
  {lfn | ∃ si ∈ storage, isStorageCloseTo id si = true ∧ lfn ∈ si.2.links}.ncard

/-- What the loop has found after some of the computing elements. -/
structure Counted (storage : List (Text × StorageInfo)) (done : List Text)
    (counts : Counts) : Prop where
  perm : counts.compatibleStorage.Perm storage
  bound : ∀ id ∈ done, filesOf storage id ≤ counts.maxFiles
  attained : counts.maxFiles = 0 ∨ ∃ id ∈ done, filesOf storage id = counts.maxFiles
  listed : ∀ n id, id ∈ (counts.uniqueLogicalFilesPerCe.find? n).getD [] ↔
    id ∈ done ∧ filesOf storage id = n

theorem mem_parts_first (p : Text × StorageInfo → Bool)
    {l : List (Text × StorageInfo)} {si : Text × StorageInfo} :
    si ∈ (partition.parts p l).1 ↔ si ∈ l ∧ p si = true := by
  have hmem := (partition.perm p l).mem_iff (a := si)
  rw [List.mem_append] at hmem
  constructor
  · exact fun h => ⟨hmem.mp (.inl h), partition.first p l si h⟩
  · rintro ⟨h, hp⟩
    refine (hmem.mpr h).resolve_right fun h => ?_
    rw [partition.second p l si h] at hp
    cases hp

/-- However the storage has been moved about, the count is that of what is
close. -/
theorem countUnique_parts (partition : Partition (Text × StorageInfo))
    (id : Text) {l : List (Text × StorageInfo)}
    (h : l.Perm storage) :
    countUniqueLogicalFiles (partition.parts (isStorageCloseTo id) l).1 =
      filesOf storage id := by
  rw [countUniqueLogicalFiles_eq]
  refine congrArg Set.ncard (Set.ext fun lfn => exists_congr fun si => ?_)
  rw [mem_parts_first, h.mem_iff, and_assoc]

theorem counted_empty (storage : List (Text × StorageInfo)) :
    Counted storage [] ⟨storage, 0, .empty⟩ where
  perm := .refl _
  bound := fun _ h => absurd h List.not_mem_nil
  attained := .inl rfl
  listed := fun _ _ =>
    iff_of_false List.not_mem_nil fun h => absurd h.1 List.not_mem_nil

theorem counted_countCe (h : Counted storage done counts) (id : Text) :
    Counted storage (done ++ [id]) (countCe partition counts id) := by
  have hn := countUnique_parts partition id h.perm
  unfold countCe
  dsimp only
  rw [hn]
  refine ⟨?_, fun id' hid' => ?_, ?_, fun n id' => ?_⟩
  · exact (partition.perm (isStorageCloseTo id) counts.compatibleStorage).trans
      h.perm
  · rcases List.mem_append.mp hid' with hid' | hid'
    · have hle := h.bound id' hid'
      dsimp only
      split <;> omega
    · rw [List.mem_singleton.mp hid']
      dsimp only
      split <;> omega
  · dsimp only
    split
    · exact .inr ⟨id, List.mem_append_right _ (List.mem_singleton_self id), rfl⟩
    · refine h.attained.imp_right ?_
      rintro ⟨id', hid', heq⟩
      exact ⟨id', List.mem_append_left _ hid', heq⟩
  · rw [List.mem_append, List.mem_singleton]
    dsimp only
    by_cases hnn : n = filesOf storage id
    · subst hnn
      rw [OrderedMap.find?_set_self, Option.getD_some, List.mem_append,
        List.mem_singleton, h.listed]
      constructor
      · rintro (⟨hid', heq⟩ | rfl)
        · exact ⟨.inl hid', heq⟩
        · exact ⟨.inr rfl, rfl⟩
      · rintro ⟨hid' | rfl, heq⟩
        · exact .inl ⟨hid', heq⟩
        · exact .inr rfl
    · rw [OrderedMap.find?_set_of_ne hnn, h.listed]
      refine and_congr_left fun heq => (or_iff_left ?_).symm
      rintro rfl
      exact hnn heq.symm

theorem counted_foldl (partition : Partition (Text × StorageInfo))
    (ids : List Text) (h : Counted storage done counts) :
    Counted storage (done ++ ids) (ids.foldl (countCe partition) counts) := by
  induction ids generalizing done counts with
  | nil =>
      rw [List.append_nil]
      exact h
  | cons id ids ih =>
      rw [List.append_cons]
      exact ih (counted_countCe h id)

/-- What is listed under the greatest number. -/
theorem mem_maxLogicalFilesCes (h : Counted storage done counts) (id : Text) :
    id ∈ (counts.uniqueLogicalFilesPerCe.find? counts.maxFiles).getD [] ↔
      id ∈ done ∧ ∀ id' ∈ done, filesOf storage id' ≤ filesOf storage id := by
  rw [h.listed]
  refine and_congr_right fun hid => ⟨fun heq id' hid' => ?_, fun hmax => ?_⟩
  · rw [heq]
    exact h.bound id' hid'
  · have hle := h.bound id hid
    rcases h.attained with hzero | ⟨best, hbest, heq⟩
    · omega
    · have hge := hmax best hbest
      omega

end

/-! ## The table -/

section
variable {CeAd Jdl K : Type} {L : Libraries CeAd Jdl K} {jdl : Jdl}

/-- The ids in a table. -/
def Listed (t : Matchtable CeAd K) (id : Text) : Prop := ∃ info, (id, info) ∈ t

/-- Ranking changes no id, and fails only where nothing can be ranked. -/
theorem checkRank_spec (L : Libraries CeAd Jdl K) (jdl : Jdl)
    (t : Matchtable CeAd K) :
    (∃ t', checkRank L jdl t = .ok t' ∧ ∀ id, Listed t' id ↔ Listed t id) ∨
      checkRank L jdl t = .error .rankingError ∧ (∃ e, e ∈ t) ∧
        ∀ e ∈ t, L.rightRank e.2.ad jdl = none := by
  by_cases hempty : t.entries = []
  · exact .inl ⟨t, checkRank_of_empty hempty, fun id => Iff.rfl⟩
  · by_cases hnone : ∀ e ∈ t, L.rightRank e.2.ad jdl = none
    · exact .inr ⟨checkRank_of_unrankable hempty hnone,
        List.exists_mem_of_ne_nil _ hempty, hnone⟩
    · push Not at hnone
      obtain ⟨e, he, hrank⟩ := hnone
      refine .inl ⟨_, checkRank_of_rankable he hrank, fun id => ?_⟩
      constructor
      · rintro ⟨info, hmem⟩
        obtain ⟨x, hx, heq⟩ := OrderedMap.mem_mapValues.mp hmem
        cases heq
        exact ⟨x.2, hx⟩
      · rintro ⟨info, hmem⟩
        exact ⟨_, OrderedMap.mem_mapValues.mpr ⟨(id, info), hmem, rfl⟩⟩

variable {D : DataAttributes Jdl}
  {partition : Partition (Text × StorageInfo)}

theorem listed_keepMaxFiles (hfull : D.fullListMatchResult jdl ≠ some true)
    (storage : List (Text × StorageInfo)) (t : Matchtable CeAd K) (id : Text) :
    Listed (keepMaxFiles D partition jdl storage t) id ↔
      Listed t id ∧
        ∀ id', Listed t id' → filesOf storage id' ≤ filesOf storage id := by
  have hids : ∀ id', id' ∈ t.entries.map Prod.fst ↔ Listed t id' := by
    intro id'
    rw [List.mem_map]
    constructor
    · rintro ⟨e, he, rfl⟩
      exact ⟨e.2, he⟩
    · rintro ⟨info, hmem⟩
      exact ⟨(id', info), hmem, rfl⟩
  have hcounted := counted_foldl partition
    (t.entries.map Prod.fst) (counted_empty storage)
  rw [List.nil_append] at hcounted
  have hmax := mem_maxLogicalFilesCes hcounted id
  simp only [hids] at hmax
  have hnofull : ¬ (D.fullListMatchResult jdl).getD false = true := by
    cases h : D.fullListMatchResult jdl with
    | none => exact Bool.false_ne_true
    | some b =>
        rintro rfl
        exact hfull h
  unfold keepMaxFiles
  dsimp only
  rw [if_neg hnofull]
  constructor
  · rintro ⟨info, hmem⟩
    exact hmax.mp (of_decide_eq_true (OrderedMap.mem_filter.mp hmem).2)
  · rintro ⟨⟨info, hmem⟩, hle⟩
    exact ⟨info, OrderedMap.mem_filter.mpr
      ⟨hmem, decide_eq_true (hmax.mpr ⟨⟨info, hmem⟩, hle⟩)⟩⟩

end

/-! ## What is found -/

section
variable {CeAd Jdl K : Type} [Zero K] (L : Libraries CeAd Jdl K)
  (D : DataAttributes Jdl) (partition : Partition (Text × StorageInfo))
  (ceIsm : Ism CeAd) (fm : FileMapping) (jdl : Jdl)

variable (S seIsm) in
/-- The storage taken is the compatible one, and the computing elements found are
the best ones; there is no answer only where nothing that suits can be ranked. -/
def Maximises : Prop :=
  (∃ sm, resolveStoragemappingInfo S seIsm fm = some sm ∧
    ∀ name, (∃ info, (name, info) ∈
        selectCompatibleStorage sm (D.dataAccessProtocol jdl)) ↔
      ∃ se, (name, se) ∈ seIsm ∧ (∃ lfn, Holds fm lfn name) ∧
        Compatible S (D.dataAccessProtocol jdl) se) ∧
  match findSuitableCEs S L D partition ceIsm seIsm fm jdl with
  | .ok (suitableCEs, _) => ∀ id, Listed suitableCEs id ↔
      ∃ entry, Best S L ceIsm seIsm fm (D.dataAccessProtocol jdl) jdl (id, entry)
  | .error e => e = .matchMaking .rankingError ∧
      (∃ x, Suitable S L ceIsm seIsm fm (D.dataAccessProtocol jdl) jdl x) ∧
      ∀ x, Suitable S L ceIsm seIsm fm (D.dataAccessProtocol jdl) jdl x →
        L.rightRank x.2.ad jdl = none

end

section
variable {fm : FileMapping} {dap : List Text}

theorem mem_selectCompatibleStorage {name : Text} {info : StorageInfo}
    {se : IsmEntry SeAd} (h : Describes S seIsm seen sm)
    (hse : (name, se) ∈ seIsm) :
    (name, info) ∈ selectCompatibleStorage sm dap ↔
      (name, info) ∈ sm ∧ Compatible S dap se ∧ ¬ FileShadows S dap se := by
  unfold selectCompatibleStorage
  rw [List.mem_filter]
  exact and_congr_right fun hmem => isSelected_iff h hmem hse

/-- The storage that is used, as the ISM has it. -/
theorem selected_storage (h : Describes S seIsm (fm.entries.flatMap replicasOf) sm)
    (hfm : WellFormed fm) {P : Text → StorageInfo → Prop} :
    (∃ si ∈ selectCompatibleStorage sm dap, P si.1 si.2) ↔
      ∃ name se, (name, se) ∈ seIsm ∧ (∃ lfn, Holds fm lfn name) ∧
        Compatible S dap se ∧ ¬ FileShadows S dap se ∧
        ∃ info, (name, info) ∈ sm ∧ P name info := by
  constructor
  · rintro ⟨⟨name, info⟩, hsi, hP⟩
    have hmem : (name, info) ∈ sm := (List.mem_filter.mp hsi).1
    obtain ⟨⟨lfn, hlfn⟩, se, hse⟩ := (h.key name).mp ⟨info, hmem⟩
    obtain ⟨-, hcompatible, hshadow⟩ := (mem_selectCompatibleStorage h hse).mp hsi
    exact ⟨name, se, hse, ⟨lfn, (mem_replicas hfm).mp hlfn⟩, hcompatible, hshadow,
      info, hmem, hP⟩
  · rintro ⟨name, se, hse, -, hcompatible, hshadow, info, hmem, hP⟩
    exact ⟨(name, info),
      (mem_selectCompatibleStorage h hse).mpr ⟨hmem, hcompatible, hshadow⟩, hP⟩

/-- There is an entry for a storage element with a replica. -/
theorem exists_info (h : Describes S seIsm (fm.entries.flatMap replicasOf) sm)
    (hfm : WellFormed fm) {name lfn : Text} {se : IsmEntry SeAd}
    (hse : (name, se) ∈ seIsm) (hholds : Holds fm lfn name) :
    ∃ info, (name, info) ∈ sm :=
  (h.key name).mpr ⟨⟨lfn, (mem_replicas hfm).mpr hholds⟩, se, hse⟩

/-- No storage element with a replica is judged by `file` alone. -/
def Unshadowed (S : StorageAds SeAd) (seIsm : Ism SeAd) (fm : FileMapping)
    (dap : List Text) : Prop :=
  ∀ name se, (name, se) ∈ seIsm → (∃ lfn, Holds fm lfn name) →
    ¬ FileShadows S dap se

theorem filesOf_eq (h : Describes S seIsm (fm.entries.flatMap replicasOf) sm)
    (hfm : WellFormed fm) (hun : Unshadowed S seIsm fm dap) (id : Text) :
    filesOf (selectCompatibleStorage sm dap) id =
      (withinReach S seIsm fm dap id).ncard := by
  refine congrArg Set.ncard (Set.ext fun lfn => ?_)
  refine (selected_storage h hfm (P := fun name info =>
    isStorageCloseTo id (name, info) = true ∧ lfn ∈ info.links)).trans ?_
  refine exists_congr fun name => exists_congr fun se => and_congr_right fun hse => ?_
  constructor
  · rintro ⟨-, hcompatible, -, info, hmem, hclose, hlink⟩
    exact ⟨(mem_replicas hfm).mp ((h.links name info hmem lfn).mp hlink),
      hcompatible, (isStorageCloseTo_iff h hmem hse id).mp hclose⟩
  · rintro ⟨hholds, hcompatible, hclose⟩
    obtain ⟨info, hmem⟩ := exists_info h hfm hse hholds
    exact ⟨⟨lfn, hholds⟩, hcompatible, hun name se hse ⟨lfn, hholds⟩, info, hmem,
      (isStorageCloseTo_iff h hmem hse id).mpr hclose,
      (h.links name info hmem lfn).mpr ((mem_replicas hfm).mpr hholds)⟩

variable {CeAd Jdl K : Type} {L : Libraries CeAd Jdl K} {ceIsm : Ism CeAd}
  {jdl : Jdl}

/-- The entries that the search for close ids takes. -/
theorem begins_valid_iff
    (h : Describes S seIsm (fm.entries.flatMap replicasOf) sm)
    (hfm : WellFormed fm) (hun : Unshadowed S seIsm fm dap)
    (x : Text × IsmEntry CeAd) :
    x ∈ ceIsm ∧ (begins (extractComputingElementsId
        (selectCompatibleStorage sm dap)) x && valid L jdl x) = true ↔
      Suitable S L ceIsm seIsm fm dap jdl x := by
  have hclose : begins (extractComputingElementsId
      (selectCompatibleStorage sm dap)) x = true ↔
      ∃ name se, (name, se) ∈ seIsm ∧ (∃ lfn, Holds fm lfn name) ∧
        Compatible S dap se ∧ CloseTo S x.1 se := by
    rw [begins_extract]
    refine (selected_storage h hfm (P := fun name info =>
      isStorageCloseTo x.1 (name, info) = true)).trans ?_
    refine exists_congr fun name => exists_congr fun se =>
      and_congr_right fun hse => and_congr_right fun hholds =>
      and_congr_right fun _ => ?_
    constructor
    · rintro ⟨-, info, hmem, hclose⟩
      exact (isStorageCloseTo_iff h hmem hse x.1).mp hclose
    · intro hclose
      obtain ⟨lfn, hlfn⟩ := hholds
      obtain ⟨info, hmem⟩ := exists_info h hfm hse hlfn
      exact ⟨hun name se hse ⟨lfn, hlfn⟩, info, hmem,
        (isStorageCloseTo_iff h hmem hse x.1).mpr hclose⟩
  rw [Bool.and_eq_true, hclose]
  constructor
  · rintro ⟨hmem, hclose, hvalid⟩
    exact ⟨hmem, hvalid, hclose⟩
  · rintro ⟨hmem, hvalid, hclose⟩
    exact ⟨hmem, hclose, hvalid⟩

variable [Zero K]

/-- The table before it is ranked. -/
theorem mem_suitableCEs (h : Describes S seIsm (fm.entries.flatMap replicasOf) sm)
    (hfm : WellFormed fm) (hun : Unshadowed S seIsm fm dap)
    {e : Text × MatchInfo CeAd K} :
    e ∈ checkRequirementIn L ceIsm jdl
        (extractComputingElementsId (selectCompatibleStorage sm dap)) .empty ↔
      ∃ x, Suitable S L ceIsm seIsm fm dap jdl x ∧ e = drawn x := by
  rw [checkRequirementIn_eq, mem_drawnTable]
  refine exists_congr fun x => ?_
  rw [← and_assoc, begins_valid_iff h hfm hun x]

theorem listed_suitableCEs
    (h : Describes S seIsm (fm.entries.flatMap replicasOf) sm)
    (hfm : WellFormed fm) (hun : Unshadowed S seIsm fm dap)
    (L : Libraries CeAd Jdl K) (ceIsm : Ism CeAd) (jdl : Jdl) (id : Text) :
    Listed (checkRequirementIn L ceIsm jdl (extractComputingElementsId
        (selectCompatibleStorage sm dap)) .empty) id ↔
      ∃ entry, Suitable S L ceIsm seIsm fm dap jdl (id, entry) := by
  constructor
  · rintro ⟨info, hmem⟩
    obtain ⟨x, hx, heq⟩ := (mem_suitableCEs h hfm hun).mp hmem
    cases heq
    exact ⟨x.2, hx⟩
  · rintro ⟨entry, hx⟩
    exact ⟨_, (mem_suitableCEs h hfm hun).mpr ⟨_, hx, rfl⟩⟩

end

section
variable {CeAd Jdl K : Type} [Zero K] (S : StorageAds SeAd)
  (L : Libraries CeAd Jdl K) (D : DataAttributes Jdl)
  (partition : Partition (Text × StorageInfo)) (ceIsm : Ism CeAd)
  (seIsm : Ism SeAd) (fm : FileMapping) (jdl : Jdl)

/-- The computing elements found are those with the greatest number of files
within reach, and the storage used is what is compatible, exactly where no
storage element with a replica and without a mount point supports `file` as the
first of the requested protocols and another one besides. -/
theorem maximises_iff (hfm : WellFormed fm)
    (hfull : D.fullListMatchResult jdl ≠ some true) :
    Maximises S seIsm L D partition ceIsm fm jdl ↔
      Unshadowed S seIsm fm (D.dataAccessProtocol jdl) := by
  obtain ⟨sm, hsm, h⟩ := resolveStoragemappingInfo_spec S seIsm hfm
  constructor
  · rintro ⟨⟨sm', hsm', hstorage⟩, -⟩ name se hse hholds hshadow
    rw [hsm] at hsm'
    cases hsm'
    obtain ⟨hno, ⟨p, hp, hpf, hps⟩, -⟩ := id hshadow
    have hcompatible : Compatible S (D.dataAccessProtocol jdl) se :=
      ⟨p, hp, hps, fun heq => absurd heq hpf⟩
    obtain ⟨info, hmem⟩ := (hstorage name).mpr ⟨se, hse, hholds, hcompatible⟩
    exact ((mem_selectCompatibleStorage h hse).mp hmem).2.2 hshadow
  · intro hun
    refine ⟨⟨sm, hsm, fun name => ?_⟩, ?_⟩
    · constructor
      · rintro ⟨info, hsi⟩
        have hmem : (name, info) ∈ sm := (List.mem_filter.mp hsi).1
        obtain ⟨⟨lfn, hlfn⟩, se, hse⟩ := (h.key name).mp ⟨info, hmem⟩
        exact ⟨se, hse, ⟨lfn, (mem_replicas hfm).mp hlfn⟩,
          ((mem_selectCompatibleStorage h hse).mp hsi).2.1⟩
      · rintro ⟨se, hse, ⟨lfn, hlfn⟩, hcompatible⟩
        obtain ⟨info, hmem⟩ := exists_info h hfm hse hlfn
        exact ⟨info, (mem_selectCompatibleStorage h hse).mpr
          ⟨hmem, hcompatible, hun name se hse ⟨lfn, hlfn⟩⟩⟩
    · have hlisted := listed_suitableCEs h hfm hun L ceIsm jdl
      unfold findSuitableCEs
      rw [hsm]
      dsimp only
      rcases checkRank_spec L jdl (checkRequirementIn L ceIsm jdl
          (extractComputingElementsId
            (selectCompatibleStorage sm (D.dataAccessProtocol jdl))) .empty) with
        ⟨t, hrank, hids⟩ | ⟨hrank, hsome, hnone⟩
      · rw [hrank]
        dsimp only
        intro id
        rw [listed_keepMaxFiles hfull]
        simp only [hids, hlisted, filesOf_eq h hfm hun]
        constructor
        · rintro ⟨⟨entry, hsuitable⟩, hmax⟩
          exact ⟨entry, hsuitable, fun y hy => hmax y.1 ⟨y.2, hy⟩⟩
        · rintro ⟨entry, hsuitable, hmax⟩
          exact ⟨⟨entry, hsuitable⟩, fun id' ⟨entry', hy⟩ => hmax (id', entry') hy⟩
      · rw [hrank]
        dsimp only
        refine ⟨rfl, ?_, fun x hx => ?_⟩
        · obtain ⟨e, hmem⟩ := hsome
          obtain ⟨x, hx, -⟩ := (mem_suitableCEs h hfm hun).mp hmem
          exact ⟨x, hx⟩
        · exact hnone (drawn x) ((mem_suitableCEs h hfm hun).mpr ⟨x, hx, rfl⟩)

end

/-! ## A storage element with two protocols -/

/-- A protocol that is not the one of mounted files. -/
def gsiftp : Text := ['g', 's', 'i', 'f', 't', 'p']

/-- All of them support both protocols and are close to one computing element,
with no mount point. -/
def sampleStorageAds : StorageAds Unit where
  accessProtocols := fun _ => [(some file, some 0), (some gsiftp, some 2811)]
  closeComputingElements := fun _ => [(some ['c'], none)]
  junk := 0

/-- All ads match; a job is the list of the protocols it asks for. -/
def sampleCeLibraries : Libraries Unit (List Text) ℤ where
  leftMatchesRight := fun _ _ => true
  ceInfoHostName := fun _ => none
  previousMatches := fun _ => none
  rightRank := fun _ _ => some 0

/-- The JDL of a sample is its protocols. -/
def sampleData : DataAttributes (List Text) where
  dataAccessProtocol := fun jdl => jdl
  fullListMatchResult := fun _ => none

/-- A partition that keeps the order. -/
def stablePartition (α : Type) : Partition α where
  parts := fun p l => (l.filter p, l.filter fun a => !p a)
  perm := fun p l => List.filter_append_perm p l
  first := fun _ _ _ h => (List.mem_filter.mp h).2
  second := fun p _ a h => by simpa using (List.mem_filter.mp h).2

/-- A file on a storage element. -/
def sampleUrl : SfnUrl where
  protocol := ['s', 'f', 'n']
  host := ['s']
  port := none
  path := ['f']
  protocol_no_colon := by decide
  host_ne := List.cons_ne_nil _ _
  host_plain := fun c hc => by
    rw [List.mem_singleton.mp hc]
    exact ⟨rfl, by decide, by decide⟩
  port_digits := fun _ h => nomatch h

/-- A mapping of that file alone. -/
def oneFile : FileMapping :=
  ⟨[(['f'], [sampleUrl.text])], List.pairwise_singleton _ _⟩

/-- A slice with one entry. -/
def oneEntry (name : Text) : Ism Unit :=
  ⟨[(name, ⟨300, ()⟩)], List.pairwise_singleton _ _⟩

theorem wellFormed_oneFile : WellFormed oneFile := by
  intro file hfile sfn hsfn
  rw [List.mem_singleton.mp hfile] at hsfn
  exact ⟨sampleUrl, (List.mem_singleton.mp hsfn).symm⟩

/-- With `file` asked for last the computing element is found. -/
theorem maximises_iff_fileLast :
    Maximises sampleStorageAds (oneEntry ['s']) sampleCeLibraries sampleData
      (stablePartition _) (oneEntry ['c']) oneFile [gsiftp, file] := by
  refine (maximises_iff _ _ _ _ _ _ _ _ wellFormed_oneFile
    (by decide)).mpr ?_
  rintro name se - - ⟨-, -, before, after, hdap, hbefore, -⟩
  cases before with
  | nil => exact absurd (List.cons.inj hdap).1 (by decide)
  | cons p before =>
      refine hbefore p List.mem_cons_self ?_
      rw [← (List.cons.inj hdap).1]
      exact ⟨_, List.mem_cons_of_mem _ List.mem_cons_self, rfl⟩

/-- With `file` asked for first it is not, though the file is within reach. -/
theorem not_maximises_fileFirst :
    ¬ Maximises sampleStorageAds (oneEntry ['s']) sampleCeLibraries sampleData
      (stablePartition _) (oneEntry ['c']) oneFile [file, gsiftp] := by
  rintro ⟨-, hfound⟩
  have hreach : ∃ name se, (name, se) ∈ oneEntry ['s'] ∧
      (∃ lfn, Holds oneFile lfn name) ∧
      Compatible sampleStorageAds [file, gsiftp] se ∧
      CloseTo sampleStorageAds ['c'] se := by
    refine ⟨['s'], ⟨300, ()⟩, List.mem_singleton.mpr rfl, ⟨['f'], ?_⟩, ?_, ?_⟩
    · exact ⟨_, List.mem_singleton.mpr rfl, sampleUrl, List.mem_singleton.mpr rfl, rfl⟩
    · exact ⟨gsiftp, List.mem_cons_of_mem _ List.mem_cons_self,
        ⟨_, List.mem_cons_of_mem _ List.mem_cons_self, rfl⟩,
        fun h => absurd h (by decide)⟩
    · exact ⟨_, List.mem_singleton.mpr rfl, List.prefix_refl _⟩
  have hbest : Best sampleStorageAds sampleCeLibraries (oneEntry ['c'])
      (oneEntry ['s']) oneFile [file, gsiftp] [file, gsiftp] (['c'], ⟨300, ()⟩) := by
    refine ⟨⟨List.mem_singleton.mpr rfl, by decide, hreach⟩, fun y hy => ?_⟩
    rw [List.mem_singleton.mp hy.mem]
  obtain ⟨info, hmem⟩ := (hfound ['c']).mpr ⟨_, hbest⟩
  cases hmem

end Wms.Core.Broker
