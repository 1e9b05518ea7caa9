import Wms.Proofs.JobWrapper

/-!
# What the wrapper of an accepted description holds

The texts of the description go into the wrapper whole or cut into pieces, so
that nothing special comes into them on the way, and every list goes the way
that the base of the input sandbox chooses.
-/

namespace Wms.Core.Adapter

open Wms.Core Wms.Lib Shell JobWrapper

/-! ## Pieces of texts -/

theorem spanUnits_append (text : Text) :
    (spanUnits text).1 ++ (spanUnits text).2 = text := by
  fun_induction spanUnits text with
  | case1 => rfl
  | case2 a b rest _ ih => simp only [List.cons_append, ih]
  | case3 a b rest _ => rfl
  | case4 c rest _ _ ih => simp only [List.cons_append, ih]
  | case5 c rest _ _ => rfl

theorem spanPort_subset (text : Text) :
    (spanPort text).1 ⊆ text ∧ (spanPort text).2 ⊆ text := by
  unfold spanPort
  split
  · exact ⟨List.subset_cons_of_subset _ (List.takeWhile_prefix _).subset,
      List.subset_cons_of_subset _ (List.dropWhile_suffix _).subset⟩
  · exact ⟨List.nil_subset _, List.Subset.refl _⟩

theorem mem_emit {at_ : PathState} {unit rest : Text} {c : Char}
    (h : c ∈ emit at_ unit rest) : c = '/' ∨ c ∈ unit ∨ c ∈ rest := by
  unfold emit at h
  split at h
  · rcases List.mem_cons.mp h with h | h
    · exact .inl h
    · exact .inr (List.mem_append.mp h)
  · exact .inr (List.mem_append.mp h)

/-- A path has the characters of the text, and slashes. -/
theorem mem_parsePath {at_ : PathState} {text path : Text}
    (h : parsePath at_ text = some path) {c : Char} (hc : c ∈ path) :
    c = '/' ∨ c ∈ text := by
  fun_induction parsePath at_ text generalizing path with
  | case1 =>
      cases h
      cases hc
  | case2 => cases h
  | case3 at_ rest _ ih =>
      exact (ih h hc).imp id (List.mem_cons_of_mem _)
  | case4 => cases h
  | case5 at_ a b rest _ _ ih =>
      obtain ⟨tail, htail, rfl⟩ := Option.map_eq_some_iff.mp h
      rcases mem_emit hc with hc | hc | hc
      · exact .inl hc
      · exact .inr (List.mem_append_left rest hc)
      · exact (ih htail hc).imp id (List.mem_append_right ['%', a, b])
  | case6 => cases h
  | case7 at_ d rest _ _ _ _ _ ih =>
      obtain ⟨tail, htail, rfl⟩ := Option.map_eq_some_iff.mp h
      rcases mem_emit hc with hc | hc | hc
      · exact .inl hc
      · exact .inr (List.mem_append_left rest hc)
      · exact (ih htail hc).imp id (List.mem_append_right [d])
  | case8 => cases h

theorem parseUrl_plain {text : Text} {url : Url} (h : parseUrl text = some url)
    (ht : IsPlain text) :
    IsPlain url.asString ∧ IsPlain url.path := by
  unfold parseUrl at h
  split at h
  case isFalse => cases h
  case isTrue =>
    split at h
    case h_2 => cases h
    case h_1 rest hrest =>
      split at h
      case isTrue => cases h
      case isFalse =>
        split at h
        case h_1 => cases h
        case h_2 path hpath =>
          cases h
          have hafter : IsPlain rest := by
            refine (ht.subset (List.dropWhile_suffix isSchemeChar).subset).subset ?_
            rw [hrest]
            exact List.subset_append_right [':', '/', '/'] rest
          rw [← spanUnits_append rest] at hafter
          have hhost := hafter.subset (List.subset_append_left _ _)
          have hbehind := hafter.subset (List.subset_append_right _ _)
          have hport := hbehind.subset (spanPort_subset _).1
          have hpath : IsPlain path := by
            intro c hc
            rcases mem_parsePath hpath hc with rfl | hc
            · exact ⟨rfl, by decide⟩
            · exact hbehind c ((spanPort_subset _).2 hc)
          refine ⟨?_, hpath⟩
          unfold Url.asString
          refine ((((ht.subset (List.takeWhile_prefix _).subset).append
            (isPlain_of_all rfl)).append hhost).append ?_).append hpath
          split
          · exact isPlain_nil
          · exact IsPlain.append (isPlain_of_all rfl : IsPlain [':']) hport

theorem inputUrl_plain {localHostname path : Text} {url : Url}
    (h : inputUrl localHostname path = some url) (hhost : IsPlain localHostname)
    (hpath : IsPlain path) : IsPlain url.asString := by
  unfold inputUrl at h
  split at h
  case h_1 url' hurl =>
    cases h
    exact (parseUrl_plain hurl hpath).1
  case h_2 =>
    exact (parseUrl_plain h (((isPlain_of_all rfl).append hhost).append hpath)).1

theorem withDirectory_plain {program : Text} (h : IsPlain program) :
    IsPlain (withDirectory program) := by
  unfold withDirectory
  split
  · exact h
  · exact (isPlain_of_all rfl).append h

theorem withoutDirectory_plain {executable : Text} (h : IsPlain executable) :
    IsPlain (withoutDirectory executable) := by
  unfold withoutDirectory
  split
  case h_1 => exact h
  case h_2 before rest hrest => exact h.subset ((breakOn_suffix hrest).subset)

theorem lexicalCastInt_plain (n : ℤ) : IsPlain (lexicalCastInt n) :=
  isPlain_of_wordChar (lexicalCastInt_wordChar n)

theorem uptoLast_plain {text : Text} (pattern : Text) (h : IsPlain text) :
    IsPlain (uptoLast pattern text) := by
  unfold uptoLast
  split
  · exact h.subset (List.take_subset _ _)
  · exact h

/-! ## The texts of a description -/

/-- The ads of the output data. -/
def dataAds (d : Description) : Option (List OutputDataAd) :=
  match d.outputData with
  | some (.list ads) => some (ads.filterMap id)
  | some (.ad ad) => some [ad]
  | _ => none

/-- The texts of an ad of output data. -/
def adTexts (ad : OutputDataAd) : List Text :=
  ad.outputFile.toList ++ [ad.logicalFileName, ad.storageElement]

/-- The texts of a description that may be missing. -/
def optionalTexts (d : Description) : List (Option Text) :=
  [ d.outputSandboxBaseDestUri, d.prologue, d.epilogue, d.ceApplicationDir,
    d.perusalFilesDestUri, d.perusalListFileUri, d.virtualOrganisation ]

/-- All texts of a description. -/
def texts (d : Description) : List Text :=
  [ d.jdl.inputSandboxPath, d.executable, d.jobType, d.lrmsType, d.jobId,
    d.globusResourceContactString, d.wmpInputSandboxBaseUri, d.outputSandboxPath,
    d.stdInput, d.stdOutput, d.stdError, d.arguments, d.prologueArguments,
    d.epilogueArguments ] ++ d.inputSandbox ++ d.outputSandbox ++
    d.outputSandboxDestUri ++ d.environment ++ (optionalTexts d).filterMap id ++
    ((dataAds d).getD []).flatMap adTexts

/-- Nothing in the description is special to the shell. -/
def PlainTexts (d : Description) : Prop := ∀ text ∈ texts d, IsPlain text

variable {host : Host} {d : Description}

theorem PlainTexts.optional (h : PlainTexts d) {text : Text}
    (hmem : some text ∈ optionalTexts d) : IsPlain text :=
  h text (List.mem_append_left _ (List.mem_append_right _
    (List.mem_filterMap.mpr ⟨some text, hmem, rfl⟩)))

theorem PlainTexts.data (h : PlainTexts d) {ads : List OutputDataAd}
    (hads : dataAds d = some ads) {ad : OutputDataAd} (had : ad ∈ ads) {text : Text}
    (htext : text ∈ adTexts ad) : IsPlain text := by
  refine h text (List.mem_append_right _ (List.mem_flatMap.mpr ⟨ad, ?_, htext⟩))
  rw [hads]
  exact had

theorem PlainTexts.inputSandbox (h : PlainTexts d) :
    ∀ text ∈ d.inputSandbox, IsPlain text :=
  fun text ht => h text (by simp [texts, ht])

theorem PlainTexts.outputSandbox (h : PlainTexts d) :
    ∀ text ∈ d.outputSandbox, IsPlain text :=
  fun text ht => h text (by simp [texts, ht])

theorem PlainTexts.destUris (h : PlainTexts d) :
    ∀ text ∈ outputSandboxDestUriFor d, IsPlain text := by
  intro text ht
  unfold outputSandboxDestUriFor at ht
  split at ht
  · cases ht
  · exact h text (by simp [texts, ht])

theorem PlainTexts.environment (h : PlainTexts d) :
    ∀ text ∈ d.environment, IsPlain text :=
  fun text ht => h text (by simp [texts, ht])

/-! ## What is made of them -/

theorem resolveToken_plain {cfg : Config} {localHostname token : Text} {ad : Jdl}
    (h : resolveToken cfg localHostname ad = .ok token)
    (hhost : IsPlain localHostname) (hfile : IsPlain cfg.tokenFile)
    (hpath : IsPlain ad.inputSandboxPath) : IsPlain token := by
  unfold resolveToken at h
  split at h
  · cases h
  · split at h
    · cases h
    case h_2 url hurl =>
      rcases ite_eq_iff.mp h with ⟨-, h⟩ | ⟨-, h⟩
      · cases h
        refine (uptoLast_plain _ (inputUrl_plain hurl hhost hpath)).append ?_
        refine IsPlain.append (isPlain_of_all rfl : IsPlain ['/']) (hfile.append ?_)
        exact IsPlain.append (isPlain_of_all rfl : IsPlain ['_'])
          (lexicalCastInt_plain _)
      · cases h
        exact isPlain_nil

theorem urlOnHost_plain {path : Text} {url : Url}
    (h : urlOnHost host path = .ok url) (hpath : IsPlain path) :
    IsPlain url.asString := by
  unfold urlOnHost at h
  split at h
  · cases h
  case h_2 url' hurl =>
    cases h
    exact inputUrl_plain hurl host.localHostname_plain hpath

theorem gatekeeperFor_plain {gatekeeper : Text}
    (h : gatekeeperFor d = .ok gatekeeper)
    (hcontact : IsPlain d.globusResourceContactString) : IsPlain gatekeeper := by
  unfold gatekeeperFor at h
  split at h
  · cases h
  · dsimp only at h
    split at h
    · cases h
    · cases h
      exact hcontact.subset (List.takeWhile_prefix _).subset

theorem wrapperFor_plain {wrapper : Text × WrapperType × List Text}
    (h : wrapperFor d = .ok wrapper) (hprogram : IsPlain d.executable) :
    IsPlain wrapper.1 := by
  have hwith := withDirectory_plain hprogram
  unfold wrapperFor at h
  dsimp only at h
  repeat' split at h
  all_goals cases h
  all_goals first | exact withoutDirectory_plain hwith | exact hwith

theorem perusalFor_plain {perusal : ℤ × Text × Text}
    (h : perusalFor d = .ok (some perusal)) (hd : PlainTexts d) :
    IsPlain perusal.2.1 ∧ IsPlain perusal.2.2 := by
  unfold perusalFor at h
  split at h
  · cases h
  · split at h
    · cases h
    · cases h
    case h_3 t files ht hfiles =>
      split at h
      · cases h
      · split at h
        · cases h
        case h_2 list hlist =>
          split at h
          · cases h
          · cases h
            refine ⟨hd.optional ?_, hd.optional ?_⟩
            · exact hfiles ▸ by simp [optionalTexts]
            · exact hlist ▸ by simp [optionalTexts]

theorem outputSandboxBaseFor_plain {url : Url}
    (h : outputSandboxBaseFor d = .ok (some url)) (hd : PlainTexts d) :
    IsPlain url.asString := by
  unfold outputSandboxBaseFor at h
  split at h
  · cases h
  · split at h
    · cases h
    case h_2 text htext =>
      split at h
      · cases h
      · split at h
        · cases h
        case h_2 url' hurl =>
          cases h
          refine (parseUrl_plain hurl (hd.optional ?_)).1
          exact htext ▸ by simp [optionalTexts]

/-- The output data as the wrapper gets them. -/
theorem outputDataFor_ok
    {data : Option (List (Option OutputDataAd) × Text × Text)}
    (h : outputDataFor d = .ok data) :
    dataAds d = data.map (fun o => o.1.filterMap id) ∧
      (PlainTexts d → ∀ o ∈ data, IsPlain o.2.1 ∧ IsPlain o.2.2) := by
  unfold outputDataFor at h
  split at h
  case h_1 hnone =>
    cases h
    refine ⟨?_, fun _ o ho => by cases ho⟩
    unfold dataAds
    rw [hnone]
    rfl
  case h_2 => cases h
  case h_3 tree hother htree =>
    dsimp only at h
    split at h
    · cases h
    case h_2 vo hvo =>
      split at h
      · cases h
      · split at h
        · cases h
        case h_2 url hurl =>
          rcases ite_eq_iff.mp h with ⟨-, h⟩ | ⟨-, h⟩
          · cases h
          · cases h
            constructor
            · unfold dataAds
              rw [htree]
              cases tree with
              | list ads => rfl
              | ad ad => rfl
              | other => exact absurd rfl hother
            · intro hd o ho
              cases ho
              refine ⟨hd.optional (hvo ▸ by simp [optionalTexts]), ?_⟩
              have hpath := (parseUrl_plain hurl (hd d.jobId (by simp [texts]))).2
              exact ((isPlain_of_all rfl).append
                (hpath.subset (List.drop_subset _ _))).append (isPlain_of_all rfl)

theorem maradonaUrlFor_plain {base : Option Url} (hid : IsPlain d.jobId)
    (hbase : ∀ url ∈ base, IsPlain url.asString) :
    IsPlain (maradonaUrlFor host d base) := by
  cases base with
  | none =>
      refine (((host.protocol_plain.append (isPlain_of_all rfl)).append
        host.localHostname_plain).append ?_)
      exact IsPlain.append (isPlain_of_all rfl : IsPlain ['/'])
        (host.maradonaPath_plain _ hid)
  | some url => exact (hbase url rfl).append (isPlain_of_all rfl)

/-! ## The wrapper of an accepted description -/

/-- Whether the sandboxes go the way of WMProxy. -/
def isWmp (d : Description) : Bool := (parseUrl d.wmpInputSandboxBaseUri).isSome

/-- What `resolve` has got when it makes the wrapper. -/
structure Parts where
  token : Text
  isbUrl : Url
  outputUrl : Option Url
  gatekeeper : Text
  wrapper : Text × WrapperType × List Text
  perusal : Option (ℤ × Text × Text)
  data : Option (List (Option OutputDataAd) × Text × Text)
  base : Option Url

/-- What the adapter computes of a description. -/
structure PartsOf (host : Host) (d : Description) (p : Parts) : Prop where
  token : resolveToken host.cfg host.localHostname d.jdl = .ok p.token
  isbUrl : urlOnHost host d.jdl.inputSandboxPath = .ok p.isbUrl
  noOutputUrl : isWmp d = true → p.outputUrl = none
  outputUrl : isWmp d = false → ∃ url, p.outputUrl = some url ∧
    urlOnHost host (outputSandboxPathFor d none) = .ok url
  gatekeeper : gatekeeperFor d = .ok p.gatekeeper
  wrapper : wrapperFor d = .ok p.wrapper
  perusal : perusalFor d = .ok p.perusal
  data : outputDataFor d = .ok p.data
  base : outputSandboxBaseFor d = .ok p.base

/-- The wrapper, with the lists of both ways. -/
def Parts.jobWrapper (host : Host) (d : Description) (p : Parts) : JobWrapper :=
  { newWrapper host d (parseUrl d.wmpInputSandboxBaseUri) p.token p.gatekeeper
      p.wrapper p.perusal p.data p.base with
    inputBaseUrl := some p.isbUrl
    inputFiles := if isWmp d then [] else d.inputSandbox
    wmpInputBaseFiles := if isWmp d then d.inputSandbox else []
    wmpInputFiles :=
      if isWmp d then d.inputSandbox.filterMap fromLastSlash else []
    outputBaseUrl := p.outputUrl
    outputFiles := if isWmp d then [] else d.outputSandbox
    wmpOutputFiles :=
      if isWmp d && !(outputSandboxDestUriFor d).isEmpty then d.outputSandbox
      else []
    wmpOutputDestFiles := if isWmp d then outputSandboxDestUriFor d else [] }

private theorem bound_ok {α β : Type} {x : Except ResolveError α}
    {f : α → Except ResolveError β} {b : β} (h : x >>= f = .ok b) :
    ∃ a, x = .ok a ∧ f a = .ok b := by
  cases x with
  | error e => cases h
  | ok a => exact ⟨a, rfl, h⟩

theorem setSandboxes_ok {jw : JobWrapper} {token gatekeeper : Text} {isbUrl : Url}
    {wrapper : Text × WrapperType × List Text}
    {perusal : Option (ℤ × Text × Text)}
    {data : Option (List (Option OutputDataAd) × Text × Text)} {base : Option Url}
    (h : setOutputSandbox host d (parseUrl d.wmpInputSandboxBaseUri)
      (setInputSandbox d (parseUrl d.wmpInputSandboxBaseUri) isbUrl
        (newWrapper host d (parseUrl d.wmpInputSandboxBaseUri) token gatekeeper
          wrapper perusal data base)) = .ok jw) :
    ∃ outputUrl, (isWmp d = true → outputUrl = none) ∧
      (isWmp d = false → ∃ url, outputUrl = some url ∧
        urlOnHost host (outputSandboxPathFor d none) = .ok url) ∧
      jw = Parts.jobWrapper host d
        ⟨token, isbUrl, outputUrl, gatekeeper, wrapper, perusal, data, base⟩ := by
  unfold Parts.jobWrapper isWmp
  unfold setOutputSandbox setInputSandbox at h
  cases hbase : parseUrl d.wmpInputSandboxBaseUri with
  | none =>
      rw [hbase] at h
      cases hurl : urlOnHost host (outputSandboxPathFor d none) with
      | error e =>
          rw [hurl] at h
          cases h
      | ok url =>
          rw [hurl] at h
          cases h
          exact ⟨some url, fun hw => absurd hw Bool.false_ne_true,
            fun _ => ⟨url, rfl, rfl⟩, rfl⟩
  | some wmpBase =>
      rw [hbase] at h
      refine ⟨none, fun _ => rfl, fun hw => absurd hw.symm Bool.false_ne_true, ?_⟩
      cases hdest : (outputSandboxDestUriFor d).isEmpty with
      | false =>
          rw [hdest] at h
          cases h
          rfl
      | true =>
          rw [hdest] at h
          cases h
          rw [List.isEmpty_iff.mp hdest]
          rfl

theorem resolve_ok {jw : JobWrapper} {text : Text}
    (h : resolve host d = .ok (jw, text)) :
    ∃ p files, PartsOf host d p ∧ jw = p.jobWrapper host d ∧
      jw.outputAds.mapM OutputDataAd.outputFile = some files ∧
      text = (jw.vars files (jw.outputAds.map OutputDataAd.logicalFileName)
        (jw.outputAds.map OutputDataAd.storageElement)).flatMap
        fun v => dump v.1 v.2 := by
  unfold resolve at h
  obtain ⟨token, htoken, h⟩ := bound_ok h
  obtain ⟨isbUrl, hisb, h⟩ := bound_ok h
  obtain ⟨-, -, h⟩ := bound_ok h
  obtain ⟨-, -, h⟩ := bound_ok h
  obtain ⟨gatekeeper, hgatekeeper, h⟩ := bound_ok h
  obtain ⟨-, -, h⟩ := bound_ok h
  obtain ⟨-, -, h⟩ := bound_ok h
  obtain ⟨wrapper, hwrapper, h⟩ := bound_ok h
  obtain ⟨perusal, hperusal, h⟩ := bound_ok h
  obtain ⟨data, hdata, h⟩ := bound_ok h
  obtain ⟨base, hbase, h⟩ := bound_ok h
  obtain ⟨jw', hjw, h⟩ := bound_ok h
  have htoken : resolveToken host.cfg host.localHostname d.jdl = .ok token := by
    cases hresolved : resolveToken host.cfg host.localHostname d.jdl with
    | error e =>
        rw [hresolved] at htoken
        cases htoken
    | ok token' =>
        rw [hresolved] at htoken
        cases htoken
        rfl
  obtain ⟨outputUrl, hnone, hout, hjw⟩ := setSandboxes_ok hjw
  unfold written at h
  cases hdump : jw'.dumpVars with
  | none =>
      rw [hdump] at h
      cases h
  | some text' =>
      rw [hdump] at h
      cases h
      obtain ⟨files, hfiles, htext⟩ := Option.map_eq_some_iff.mp hdump
      exact ⟨_, files, ⟨htoken, hisb, hnone, hout, hgatekeeper, hwrapper, hperusal,
        hdata, hbase⟩, hjw, hfiles, htext.symm⟩

theorem filterMap_of_mapM {α β : Type} {f : α → Option β} {l : List α} {r : List β}
    (h : l.mapM f = some r) : l.filterMap f = r := by
  induction l generalizing r with
  | nil =>
      cases h
      rfl
  | cons a l ih =>
      rw [List.mapM_cons] at h
      obtain ⟨b, hb, h⟩ := Option.bind_eq_some_iff.mp h
      obtain ⟨r', hr', h⟩ := Option.bind_eq_some_iff.mp h
      cases h
      rw [List.filterMap_cons_some hb, ih hr']

/-- The files of the output data. -/
def dataFiles (d : Description) : List Text :=
  ((dataAds d).getD []).filterMap OutputDataAd.outputFile

theorem outputAds_jobWrapper {p : Parts} (h : PartsOf host d p) :
    (p.jobWrapper host d).outputAds = (dataAds d).getD [] := by
  rw [(outputDataFor_ok h.data).1]
  show ((p.data.map fun o => o.1).getD []).filterMap id = _
  cases p.data <;> rfl

/-! ## Nothing special comes into the wrapper -/

theorem getD_plain {text : Option Text} (h : ∀ t ∈ text, IsPlain t) :
    IsPlain (text.getD []) := by
  cases text with
  | none => exact isPlain_nil
  | some t => exact h t rfl

theorem urlText_plain {url : Option Url} (h : ∀ u ∈ url, IsPlain u.asString) :
    IsPlain (urlText url) := by
  cases url with
  | none => exact isPlain_nil
  | some u => exact h u rfl

theorem ite_plain (p : Bool) {values : List Text}
    (h : ∀ text ∈ values, IsPlain text) :
    (∀ text ∈ if p then values else [], IsPlain text) ∧
      ∀ text ∈ if p then [] else values, IsPlain text := by
  cases p with
  | true => exact ⟨h, fun _ ht => absurd ht List.not_mem_nil⟩
  | false => exact ⟨fun _ ht => absurd ht List.not_mem_nil, h⟩

theorem fromLastSlash_plain {values : List Text}
    (h : ∀ text ∈ values, IsPlain text) :
    ∀ text ∈ values.filterMap fromLastSlash, IsPlain text := by
  intro text ht
  obtain ⟨value, hvalue, hfrom⟩ := List.mem_filterMap.mp ht
  obtain ⟨pos, -, rfl⟩ := Option.map_eq_some_iff.mp hfrom
  exact (h value hvalue).subset (List.drop_subset _ _)

theorem directory_plain (hd : PlainTexts d) {program : Option Text}
    (hmem : program ∈ optionalTexts d) :
    IsPlain ((program.map withDirectory).getD []) := by
  refine getD_plain fun t ht => ?_
  obtain ⟨text, htext, rfl⟩ := Option.map_eq_some_iff.mp ht
  exact withDirectory_plain (hd.optional (htext ▸ hmem))

theorem arguments_plain {present : Bool} {text : Text} (h : IsPlain text) :
    IsPlain (if present then text else []) := by
  cases present with
  | true => exact h
  | false => exact isPlain_nil

theorem PartsOf.perusal_plain {p : Parts} (h : PartsOf host d p)
    (hd : PlainTexts d) :
    IsPlain ((p.perusal.map fun x => x.2.1).getD []) ∧
      IsPlain ((p.perusal.map fun x => x.2.2).getD []) := by
  have hperusal := h.perusal
  cases hp : p.perusal with
  | none => exact ⟨isPlain_nil, isPlain_nil⟩
  | some x =>
      rw [hp] at hperusal
      exact perusalFor_plain hperusal hd

theorem PartsOf.data_plain {p : Parts} (h : PartsOf host d p)
    (hd : PlainTexts d) :
    IsPlain ((p.data.map fun o => o.2.1).getD []) ∧
      IsPlain ((p.data.map fun o => o.2.2).getD []) := by
  have hdata := (outputDataFor_ok h.data).2 hd
  cases hp : p.data with
  | none => exact ⟨isPlain_nil, isPlain_nil⟩
  | some o => exact hdata o hp

theorem outputSandboxPathFor_plain {wmpBase : Option Url}
    (h : IsPlain d.outputSandboxPath) : IsPlain (outputSandboxPathFor d wmpBase) := by
  unfold outputSandboxPathFor
  split
  · exact h
  · exact isPlain_nil

theorem PartsOf.outputUrl_plain {p : Parts} (h : PartsOf host d p)
    (hpath : IsPlain d.outputSandboxPath) : IsPlain (urlText p.outputUrl) := by
  cases hw : isWmp d with
  | true =>
      rw [h.noOutputUrl hw]
      exact isPlain_nil
  | false =>
      obtain ⟨url, hurl, hhost⟩ := h.outputUrl hw
      rw [hurl]
      exact urlOnHost_plain hhost (outputSandboxPathFor_plain hpath)

theorem dataAds_plain (hd : PlainTexts d) {ad : OutputDataAd}
    (had : ad ∈ (dataAds d).getD []) {text : Text} (htext : text ∈ adTexts ad) :
    IsPlain text := by
  cases hads : dataAds d with
  | none =>
      rw [hads] at had
      cases had
  | some ads =>
      rw [hads] at had
      exact hd.data hads had htext

theorem dataFiles_plain (hd : PlainTexts d) :
    ∀ text ∈ dataFiles d, IsPlain text := by
  intro text ht
  obtain ⟨ad, had, hfile⟩ := List.mem_filterMap.mp ht
  refine dataAds_plain hd had (List.mem_append_left _ ?_)
  rw [hfile]
  exact List.mem_singleton.mpr rfl

/-- Nothing special is in any variable, but for the environment. -/
theorem vars_plain {p : Parts} (h : PartsOf host d p) (hd : PlainTexts d) :
    ((p.jobWrapper host d).vars (dataFiles d)
      (((dataAds d).getD []).map OutputDataAd.logicalFileName)
      (((dataAds d).getD []).map OutputDataAd.storageElement)).Forall
      fun v => v = ("__environment", .array p.wrapper.2.2) ∨ PlainValue v.2 := by
  have hfirst : ∀ text ∈ (texts d).take 14, IsPlain text :=
    fun text ht => hd text (List.take_subset _ _ ht)
  have hid : IsPlain d.jobId := hfirst _ (by simp [texts])
  have hcontact : IsPlain d.globusResourceContactString :=
    hfirst _ (by simp [texts])
  have hprogram : IsPlain d.executable := hfirst _ (by simp [texts])
  have hbaseUri : IsPlain d.wmpInputSandboxBaseUri := hfirst _ (by simp [texts])
  have hisb : IsPlain d.jdl.inputSandboxPath := hfirst _ (by simp [texts])
  have hosb : IsPlain d.outputSandboxPath := hfirst _ (by simp [texts])
  have hmaradona : IsPlain (p.jobWrapper host d).maradonaUrl :=
    maradonaUrlFor_plain hid fun url hurl => (parseUrl_plain hurl hbaseUri).1
  have hlfns : ∀ text ∈ ((dataAds d).getD []).map OutputDataAd.logicalFileName,
      IsPlain text := by
    intro text ht
    obtain ⟨ad, had, rfl⟩ := List.mem_map.mp ht
    exact dataAds_plain hd had (by simp [adTexts])
  have hses : ∀ text ∈ ((dataAds d).getD []).map OutputDataAd.storageElement,
      IsPlain text := by
    intro text ht
    obtain ⟨ad, had, rfl⟩ := List.mem_map.mp ht
    exact dataAds_plain hd had (by simp [adTexts])
  have hbase : IsPlain (urlText p.base) := by
    refine urlText_plain fun url hurl => outputSandboxBaseFor_plain ?_ hd
    rw [h.base, hurl]
  exact
    ⟨ .inr (isPlain_of_all rfl),
      .inr hid,
      .inr (wrapperFor_plain h.wrapper hprogram),
      .inr (hfirst d.stdInput (by simp [texts])),
      .inr (hfirst d.stdOutput (by simp [texts])),
      .inr (hfirst d.stdError (by simp [texts])),
      .inr (hfirst d.arguments (by simp [texts])),
      .inr (gatekeeperFor_plain h.gatekeeper hcontact),
      .inr hmaradona,
      .inr (urlOnHost_plain h.isbUrl hisb),
      .inr (ite_plain _ hd.inputSandbox).2,
      .inr (h.outputUrl_plain hosb),
      .inr (ite_plain _ hd.outputSandbox).2,
      .inr (host.toFilename_plain _ hid),
      .inr hcontact,
      .inl rfl,
      .inr trivial,
      .inr (h.data_plain hd).1,
      .inr (h.data_plain hd).2,
      .inr trivial,
      .inr (ite_plain _ (fromLastSlash_plain hd.inputSandbox)).1,
      .inr (ite_plain _ hd.inputSandbox).1,
      .inr (ite_plain _ hd.outputSandbox).1,
      .inr (ite_plain _ hd.destUris).1,
      .inr (resolveToken_plain h.token host.localHostname_plain
        host.tokenFile_plain hisb),
      .inr trivial,
      .inr trivial,
      .inr (h.perusal_plain hd).1,
      .inr (h.perusal_plain hd).2,
      .inr (directory_plain hd (by simp [optionalTexts])),
      .inr (arguments_plain (hfirst _ (by simp [texts]))),
      .inr (directory_plain hd (by simp [optionalTexts])),
      .inr (arguments_plain (hfirst _ (by simp [texts]))),
      .inr trivial,
      .inr (dataFiles_plain hd),
      .inr hlfns,
      .inr hses,
      .inr trivial,
      .inr host.localHostname_plain,
      .inr (getD_plain fun t ht => hd.optional
        (Option.mem_def.mp ht ▸ by simp [optionalTexts])),
      .inr hbase,
      .inr trivial,
      .inr trivial,
      .inr trivial ⟩

end Wms.Core.Adapter
