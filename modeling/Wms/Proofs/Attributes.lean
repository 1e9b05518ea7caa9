import Wms.Proofs.AdapterResolve

/-!
# The wrapper sees the attributes of the job

What every variable of the script is to hold is said of the description alone.
The assignments leave in the variables what the wrapper holds, and that is the
attribute for all but a few: the variable that is written twice has one list laid
over the other, a list can be dropped on the way, and the program of a parallel
job can lose its directory.
-/

namespace Wms.Core.Adapter

open Wms.Core Wms.Lib Shell JobWrapper

variable {host : Host} {d : Description}

/-! ## The attributes -/

/-- A flag as a script has it. -/
def flag (b : Bool) : Text := lexicalCastInt (if b then 1 else 0)

/-- Whether the description is that of a parallel job. -/
def isParallel (d : Description) : Bool := toLower d.jobType = "mpich".toList

/-- Whether it is that of an interactive one. -/
def isInteractive (d : Description) : Bool :=
  toLower d.jobType = "interactive".toList

/-- `LRMSType` chooses between the parallel types. -/
def typeOf (d : Description) : WrapperType :=
  if isParallel d then
    if toLower d.lrmsType = "lsf".toList then .mpiLsf else .mpiPbs
  else if isInteractive d then .interactive
  else .normal

/-- The wrapper does not start such a program itself, it hands its name on. -/
def isHandedOn (d : Description) : Bool := isParallel d || isInteractive d

/-- Whether a path begins at the root. -/
def isAbsolutePath (path : Text) : Bool := path.head? = some '/'

/-- How a program is called that is in the working directory, or elsewhere. -/
def called (path : Text) : Text :=
  if isAbsolutePath path then path else "./".toList ++ path

/-- The program: as it is written where it is handed on, and else as it is called. -/
def program (d : Description) : Text :=
  if isHandedOn d then d.executable else called d.executable

/-- Whether the files of the output are given their destinations. -/
def hasDestUris (d : Description) : Bool :=
  !d.outputSandbox.isEmpty && !d.outputSandboxDestUri.isEmpty

/-- The URL that a path says, on this host unless it is a URL itself. -/
def urlOf (host : Host) (path : Text) : Text :=
  urlText ((parseUrl path).or
    (parseUrl ("gsiftp://".toList ++ host.localHostname ++ path)))

/-- The host of the resource. -/
def gatekeeper (d : Description) : Text :=
  d.globusResourceContactString.takeWhile (· ≠ ':')

/-- Where the result is reported: below the base of WMProxy, or in the directory
of the job on this host. -/
def maradona (host : Host) (d : Description) : Text :=
  if isWmp d then
    urlText (parseUrl d.wmpInputSandboxBaseUri) ++ "/Maradona.output".toList
  else
    host.maradonaTransportProtocol ++ "://".toList ++ host.localHostname ++
      '/' :: host.maradonaPath d.jobId

/-- An attribute that belongs to the output data. -/
def ofUpload (d : Description) (value : Text) : Text :=
  if d.outputData.isSome then value else []

/-- The file of the upload has its name from the path of the job id. -/
def uploadName (d : Description) : Text :=
  "DSUpload_".toList ++ (((parseUrl d.jobId).map Url.path).getD []).drop 1 ++
    ".out".toList

/-- The token that is to be taken by a job that really runs, beside its input
sandbox, unless shallow resubmission is switched off. -/
def token (host : Host) (d : Description) : Text :=
  if d.jdl.shallowRetryCount = some (-1) then []
  else
    uptoLast "/input".toList (urlOf host d.jdl.inputSandboxPath) ++
      '/' :: (host.cfg.tokenFile ++ '_' :: lexicalCastInt (d.jdl.replansCount.getD 0))

/-- An attribute that belongs to perusal. -/
def ofPerusal {α : Type} (d : Description) (value : Option α) : Option α :=
  if d.perusalFileEnable then value else none

/-- The base for wildcards, which destinations exclude. -/
def wildcardBase (d : Description) : Option Url :=
  if hasDestUris d then none else d.outputSandboxBaseDestUri.bind parseUrl

/-- The variables that are no lists, for a program and a base of the output. -/
def scalarsWith (host : Host) (d : Description) (program outputBase : Text) :
    List (String × Text) :=
  [ ("__brokerinfo", ".BrokerInfo".toList),
    ("__jobid", d.jobId),
    ("__job", program),
    ("__standard_input", d.stdInput),
    ("__standard_output", d.stdOutput),
    ("__standard_error", d.stdError),
    ("__arguments", d.arguments),
    ("__gatekeeper_hostname", gatekeeper d),
    ("__maradona_url", maradona host d),
    ("__input_base_url", urlOf host d.jdl.inputSandboxPath),
    ("__output_base_url", outputBase),
    ("__jobid_to_filename", host.toFilename d.jobId),
    ("__globus_resource_contact_string", d.globusResourceContactString),
    ("__nodes", lexicalCastInt ((d.cpuNumber.or d.nodeNumber).getD 0)),
    ("__vo", ofUpload d (d.virtualOrganisation.getD [])),
    ("__dsupload", ofUpload d (uploadName d)),
    ("__wmp_support", flag (hasDestUris d || isWmp d)),
    ("__shallow_resubmission_token", token host d),
    ("__perusal_support", flag d.perusalFileEnable),
    ("__perusal_timeinterval",
      lexicalCastInt ((ofPerusal d d.perusalTimeInterval).getD 0)),
    ("__perusal_filesdesturi", (ofPerusal d d.perusalFilesDestUri).getD []),
    ("__perusal_listfileuri", (ofPerusal d d.perusalListFileUri).getD []),
    ("__prologue", (d.prologue.map called).getD []),
    ("__prologue_arguments",
      if d.prologue.isSome then d.prologueArguments else []),
    ("__epilogue", (d.epilogue.map called).getD []),
    ("__epilogue_arguments",
      if d.epilogue.isSome then d.epilogueArguments else []),
    ("__output_data", flag d.outputData.isSome),
    ("__osb_wildcards_support", flag (wildcardBase d).isSome),
    ("__broker_hostname", host.localHostname),
    ("__ce_application_dir", d.ceApplicationDir.getD []),
    ("__output_sandbox_base_dest_uri", urlText (wildcardBase d)),
    ("__job_type", lexicalCastInt (typeOf d).toInt),
    ("__retry_different_transports", flag host.sbRetryDifferentProtocols),
    ("__max_outputsandbox_size", lexicalCastInt host.maxOutputSandboxSize) ]

/-- What is to be in them. -/
def scalarAttributes (host : Host) (d : Description) : List (String × Text) :=
  scalarsWith host d (program d)
    (if isWmp d then [] else urlOf host d.outputSandboxPath)

/-! ## What the wrapper holds -/

theorem outputSandboxDestUriFor_isEmpty (d : Description) :
    (outputSandboxDestUriFor d).isEmpty = !hasDestUris d := by
  unfold outputSandboxDestUriFor hasDestUris
  cases d.outputSandbox.isEmpty with
  | true => rfl
  | false =>
      rw [if_neg Bool.false_ne_true, Bool.not_false, Bool.true_and, Bool.not_not]

theorem withDirectory_eq : withDirectory = called := by
  funext path
  unfold withDirectory called isAbsolutePath
  simp only [decide_eq_true_eq]

theorem nodesFor_eq (d : Description) :
    nodesFor d = (d.cpuNumber.or d.nodeNumber).getD 0 := by
  unfold nodesFor
  cases d.cpuNumber <;> rfl

theorem urlText_of_inputUrl {path : Text} {url : Url}
    (h : inputUrl host.localHostname path = some url) :
    urlText (some url) = urlOf host path := by
  unfold inputUrl at h
  unfold urlOf
  split at h
  case h_1 url' hurl =>
    cases h
    rw [hurl]
    rfl
  case h_2 hnone => rw [hnone, Option.none_or, h]

theorem urlText_of_urlOnHost {path : Text} {url : Url}
    (h : urlOnHost host path = .ok url) :
    urlText (some url) = urlOf host path := by
  unfold urlOnHost at h
  split at h
  case h_1 => cases h
  case h_2 url' hurl =>
    cases h
    exact urlText_of_inputUrl hurl

theorem gatekeeperFor_eq {text : Text} (h : gatekeeperFor d = .ok text) :
    text = gatekeeper d := by
  unfold gatekeeperFor at h
  split at h
  case h_1 => cases h
  case h_2 =>
    dsimp only at h
    split at h
    · cases h
    · cases h
      rfl

theorem maradonaUrlFor_eq (host : Host) (d : Description) :
    maradonaUrlFor host d (parseUrl d.wmpInputSandboxBaseUri) =
      maradona host d := by
  unfold maradona isWmp
  cases parseUrl d.wmpInputSandboxBaseUri <;> rfl

theorem resolveToken_eq {text : Text}
    (h : resolveToken host.cfg host.localHostname d.jdl = .ok text) :
    text = token host d := by
  unfold resolveToken at h
  unfold token
  split at h
  case isTrue => cases h
  case isFalse =>
    split at h
    case h_1 => cases h
    case h_2 url hurl =>
      have hurl : url.asString = urlOf host d.jdl.inputSandboxPath :=
        urlText_of_inputUrl hurl
      rw [hurl] at h
      dsimp only at h
      cases hcount : d.jdl.shallowRetryCount with
      | none =>
          rw [hcount] at h
          cases h
          rw [if_neg (by decide)]
      | some n =>
          rw [hcount] at h
          by_cases hn : n = -1
          · subst hn
            cases h
            rw [if_pos rfl]
          · rw [if_neg fun heq => hn (Option.some.inj heq)]
            dsimp only at h
            split at h
            · cases h
              rfl
            · cases h
              rfl

/-- What is known of perusal. -/
theorem perusalFor_eq {perusal : Option (ℤ × Text × Text)}
    (h : perusalFor d = .ok perusal) :
    perusal.isSome = d.perusalFileEnable ∧
      (perusal.map fun p => p.1).getD 0 =
        (ofPerusal d d.perusalTimeInterval).getD 0 ∧
      (perusal.map fun p => p.2.1).getD [] =
        (ofPerusal d d.perusalFilesDestUri).getD [] ∧
      (perusal.map fun p => p.2.2).getD [] =
        (ofPerusal d d.perusalListFileUri).getD [] := by
  unfold ofPerusal
  unfold perusalFor at h
  cases henabled : d.perusalFileEnable with
  | false =>
      rw [henabled] at h
      cases h
      exact ⟨rfl, rfl, rfl, rfl⟩
  | true =>
      rw [henabled, Bool.not_true, if_neg Bool.false_ne_true] at h
      split at h
      case h_1 => cases h
      case h_2 => cases h
      case h_3 t files ht hfiles =>
        rcases ite_eq_iff.mp h with ⟨-, h⟩ | ⟨-, h⟩
        · cases h
        · split at h
          case h_1 => cases h
          case h_2 list hlist =>
            rcases ite_eq_iff.mp h with ⟨-, h⟩ | ⟨-, h⟩
            · cases h
            · cases h
              rw [ht, hfiles, hlist]
              exact ⟨rfl, rfl, rfl, rfl⟩

/-- What is known of the output data, but for their files. -/
theorem outputDataFor_eq
    {data : Option (List (Option OutputDataAd) × Text × Text)}
    (h : outputDataFor d = .ok data) :
    data.isSome = d.outputData.isSome ∧
      (data.map fun o => o.2.1).getD [] =
        ofUpload d (d.virtualOrganisation.getD []) ∧
      (data.map fun o => o.2.2).getD [] = ofUpload d (uploadName d) := by
  unfold ofUpload uploadName
  unfold outputDataFor at h
  split at h
  case h_1 hnone =>
    cases h
    rw [hnone]
    exact ⟨rfl, rfl, rfl⟩
  case h_2 => cases h
  case h_3 tree _ htree =>
    dsimp only at h
    split at h
    case h_1 => cases h
    case h_2 vo hvo =>
      rcases ite_eq_iff.mp h with ⟨-, h⟩ | ⟨-, h⟩
      · cases h
      · split at h
        case h_1 => cases h
        case h_2 url hurl =>
          rcases ite_eq_iff.mp h with ⟨-, h⟩ | ⟨-, h⟩
          · cases h
          · cases h
            rw [htree, hvo, hurl]
            exact ⟨rfl, rfl, rfl⟩

theorem outputSandboxBaseFor_eq {base : Option Url}
    (h : outputSandboxBaseFor d = .ok base) : base = wildcardBase d := by
  unfold outputSandboxBaseFor at h
  rw [outputSandboxDestUriFor_isEmpty, Bool.not_not] at h
  unfold wildcardBase
  cases hdest : hasDestUris d with
  | true =>
      rw [hdest] at h
      cases h
      rfl
  | false =>
      rw [hdest, if_neg Bool.false_ne_true] at h
      rw [if_neg Bool.false_ne_true]
      split at h
      case h_1 hnone =>
        cases h
        rw [hnone]
        rfl
      case h_2 text htext =>
        rw [htext, Option.bind_some]
        rcases ite_eq_iff.mp h with ⟨hempty, h⟩ | ⟨-, h⟩
        · cases h
          rw [List.isEmpty_iff.mp hempty]
          rfl
        · split at h
          case h_1 => cases h
          case h_2 url hurl =>
            cases h
            exact hurl.symm

/-- The program as the wrapper gets it. -/
def programFor (d : Description) : Text :=
  if isHandedOn d then withoutDirectory (withDirectory d.executable)
  else withDirectory d.executable

/-- The three things that depend on the type of the job. An interactive job gets
the working directory into its library path. -/
theorem wrapperFor_eq {wrapper : Text × WrapperType × List Text}
    (h : wrapperFor d = .ok wrapper) :
    wrapper = (programFor d, typeOf d,
      d.environment ++ if isInteractive d then [ldLibraryPath] else []) := by
  unfold programFor isHandedOn typeOf isInteractive isParallel
  unfold wrapperFor at h
  dsimp only at h
  by_cases hmpich : toLower d.jobType = "mpich".toList
  · have hother : decide (toLower d.jobType = "interactive".toList) = false := by
      rw [hmpich]
      decide
    rw [if_pos hmpich] at h
    rw [hother, decide_eq_true hmpich, Bool.true_or, if_pos rfl, if_pos rfl,
      if_neg Bool.false_ne_true, List.append_nil]
    split at h
    case isTrue hlsf =>
      cases h
      rw [if_pos hlsf]
    case isFalse hlsf =>
      rw [if_neg hlsf]
      split at h <;> cases h
      rfl
  · rw [if_neg hmpich] at h
    rw [decide_eq_false hmpich, Bool.false_or, if_neg Bool.false_ne_true]
    split at h
    case isTrue hinteractive =>
      rw [decide_eq_true hinteractive]
      split at h
      · cases h
      · split at h <;> cases h
        rfl
    case isFalse hnormal =>
      cases h
      rw [decide_eq_false hnormal, if_neg Bool.false_ne_true,
        if_neg Bool.false_ne_true, if_neg Bool.false_ne_true, List.append_nil]

/-- The base of the output as the wrapper gets it. -/
def outputBaseFor (host : Host) (d : Description) : Text :=
  if isWmp d then []
  else urlOf host (if hasDestUris d then [] else d.outputSandboxPath)

theorem PartsOf.outputBase {p : Parts} (h : PartsOf host d p) :
    urlText p.outputUrl = outputBaseFor host d := by
  unfold outputBaseFor
  cases hw : isWmp d with
  | true =>
      rw [h.noOutputUrl hw]
      rfl
  | false =>
      obtain ⟨url, hurl, hhost⟩ := h.outputUrl hw
      rw [hurl, urlText_of_urlOnHost hhost, if_neg Bool.false_ne_true]
      unfold outputSandboxPathFor
      rw [outputSandboxDestUriFor_isEmpty, Option.isNone_none, Bool.and_true]
      cases hasDestUris d <;> rfl

/-- The variables that are no lists, as they are in the wrapper. -/
def scalarValues (host : Host) (d : Description) (jw : JobWrapper) :
    List (String × Text) :=
  [ ("__brokerinfo", brokerinfoDefault),
    ("__jobid", d.jobId),
    ("__job", jw.job),
    ("__standard_input", d.stdInput),
    ("__standard_output", d.stdOutput),
    ("__standard_error", d.stdError),
    ("__arguments", d.arguments),
    ("__gatekeeper_hostname", jw.gatekeeperHostname),
    ("__maradona_url", jw.maradonaUrl),
    ("__input_base_url", urlText jw.inputBaseUrl),
    ("__output_base_url", urlText jw.outputBaseUrl),
    ("__jobid_to_filename", host.toFilename d.jobId),
    ("__globus_resource_contact_string", d.globusResourceContactString),
    ("__nodes", lexicalCastInt (nodesFor d)),
    ("__vo", jw.vo),
    ("__dsupload", jw.dsupload),
    ("__wmp_support", flag (!(outputSandboxDestUriFor d).isEmpty || isWmp d)),
    ("__shallow_resubmission_token", jw.shallowResubmissionToken),
    ("__perusal_support", flag jw.perusalSupport),
    ("__perusal_timeinterval",
      lexicalCastInt (if jw.perusalSupport then jw.perusalTimeinterval else 0)),
    ("__perusal_filesdesturi", jw.perusalFilesdesturi),
    ("__perusal_listfileuri", jw.perusalListfileuri),
    ("__prologue", (d.prologue.map withDirectory).getD []),
    ("__prologue_arguments",
      if d.prologue.isSome then d.prologueArguments else []),
    ("__epilogue", (d.epilogue.map withDirectory).getD []),
    ("__epilogue_arguments",
      if d.epilogue.isSome then d.epilogueArguments else []),
    ("__output_data", flag jw.outputdata.isSome),
    ("__osb_wildcards_support", flag jw.osbWildcardsSupport),
    ("__broker_hostname", host.localHostname),
    ("__ce_application_dir", d.ceApplicationDir.getD []),
    ("__output_sandbox_base_dest_uri", urlText jw.outputSandboxBaseDestUri),
    ("__job_type", lexicalCastInt jw.jobType.toInt),
    ("__retry_different_transports", flag host.sbRetryDifferentProtocols),
    ("__max_outputsandbox_size", lexicalCastInt host.maxOutputSandboxSize) ]

theorem scalarValues_eq (host : Host) (d : Description) (p : Parts)
    (files lfns ses : List Text) :
    scalarValues host d (p.jobWrapper host d) =
      ((p.jobWrapper host d).vars files lfns ses).filterMap fun v =>
        (scalar v.2).map fun text => (v.1, text) := rfl

/-- All that stands in them is an attribute, but for two. -/
theorem PartsOf.scalars {p : Parts} (h : PartsOf host d p) :
    scalarValues host d (p.jobWrapper host d) =
      scalarsWith host d (programFor d) (outputBaseFor host d) := by
  obtain ⟨hsome, htime, hfiles, hlist⟩ := perusalFor_eq h.perusal
  obtain ⟨hdata, hvo, hname⟩ := outputDataFor_eq h.data
  have hads : (p.data.map fun o => o.1).isSome = d.outputData.isSome := by
    rw [← hdata, Option.isSome_map]
  have hinterval : (if (p.jobWrapper host d).perusalSupport then
      (p.jobWrapper host d).perusalTimeinterval else 0) =
        (ofPerusal d d.perusalTimeInterval).getD 0 := by
    rw [← htime]
    show (if p.perusal.isSome then (p.perusal.map fun x => x.1).getD 0 else 0) = _
    cases p.perusal <;> rfl
  have hwmp : (!(outputSandboxDestUriFor d).isEmpty ||
      isWmp d) = (hasDestUris d || isWmp d) := by
    rw [outputSandboxDestUriFor_isEmpty, Bool.not_not]
  unfold scalarValues scalarsWith
  rw [hinterval]
  dsimp only [Parts.jobWrapper, newWrapper]
  rw [urlText_of_urlOnHost h.isbUrl, h.outputBase, gatekeeperFor_eq h.gatekeeper,
    maradonaUrlFor_eq, wrapperFor_eq h.wrapper, resolveToken_eq h.token,
    outputSandboxBaseFor_eq h.base, withDirectory_eq, nodesFor_eq, hwmp, hsome,
    hfiles, hlist, hads, hvo, hname]
  rfl

/-! ## The environment -/

theorem wrapperFor_environment {wrapper : Text × WrapperType × List Text}
    (h : wrapperFor d = .ok wrapper) :
    wrapper.2.2 =
      d.environment ++ if isInteractive d then [ldLibraryPath] else [] := by
  rw [wrapperFor_eq h]

theorem ldLibraryPath_quotable : IsQuotable ldLibraryPath := by
  intro c hc
  have hchar := List.all_eq_true.mp
    (by decide : ldLibraryPath.all (fun c =>
      c != '"' && (c != '\\' && c != '\n')) = true) c hc
  rw [Bool.and_eq_true, Bool.and_eq_true, bne_iff_ne, bne_iff_ne, bne_iff_ne]
    at hchar
  exact hchar

theorem environment_writable (hd : PlainTexts d)
    {wrapper : Text × WrapperType × List Text} (h : wrapperFor d = .ok wrapper) :
    Writable (.array wrapper.2.2) := by
  intro text ht
  rw [wrapperFor_environment h] at ht
  rcases List.mem_append.mp ht with ht | ht
  · exact (hd.environment text ht).isQuotable
  · split at ht
    · cases List.mem_singleton.mp ht
      exact ldLibraryPath_quotable
    · cases ht

theorem environment_expand (hd : PlainTexts d) (q : Quoting)
    {wrapper : Text × WrapperType × List Text} (h : wrapperFor d = .ok wrapper)
    (i : ℕ) :
    (wrapper.2.2[i]?).map q.expand =
      (d.environment ++
        if isInteractive d then [q.expand ldLibraryPath] else [])[i]? := by
  have hplain : d.environment.map q.expand = d.environment :=
    (List.map_congr_left fun text ht =>
      (hd.environment text ht).expand_eq).trans (List.map_id d.environment)
  rw [wrapperFor_environment h, ← List.getElem?_map, List.map_append, hplain]
  cases isInteractive d <;> rfl

/-! ## What is in the variables -/

/-- An array of a script holds a list. -/
def ArrayIs (vars : Vars) (name : String) (list : List Text) : Prop :=
  ∀ i, vars name i = list[i]?

/-- The variables when the assignments have been made. -/
structure Assigned (q : Quoting) (host : Host) (d : Description) (vars : Vars) :
    Prop where
  scalars : ∀ v ∈ scalarsWith host d (programFor d) (outputBaseFor host d),
    vars v.1 0 = some v.2
  environment : ArrayIs vars "__environment"
    (d.environment ++ if isInteractive d then [q.expand ldLibraryPath] else [])
  inputFile : ArrayIs vars "__input_file" (if isWmp d then [] else d.inputSandbox)
  wmpInputBaseFile : ArrayIs vars "__wmp_input_base_file"
    (if isWmp d then d.inputSandbox else [])
  wmpInputFile : ArrayIs vars "__wmp_input_file"
    (if isWmp d then d.inputSandbox.filterMap fromLastSlash else [])
  wmpOutputFile : ArrayIs vars "__wmp_output_file"
    (if isWmp d && !(outputSandboxDestUriFor d).isEmpty then d.outputSandbox
      else [])
  wmpOutputDestFile : ArrayIs vars "__wmp_output_dest_file"
    (if isWmp d then outputSandboxDestUriFor d else [])
  outputLfn : ArrayIs vars "__output_lfn"
    (((dataAds d).getD []).map OutputDataAd.logicalFileName)
  outputSe : ArrayIs vars "__output_se"
    (((dataAds d).getD []).map OutputDataAd.storageElement)
  outputFile : ∀ i, vars "__output_file" i =
    ((dataFiles d)[i]?).or ((if isWmp d then [] else d.outputSandbox)[i]?)

theorem assigned_of_parts {p : Parts} (h : PartsOf host d p) (hd : PlainTexts d)
    (q : Quoting) {vars : Vars}
    (hvars : vars = ((p.jobWrapper host d).vars (dataFiles d)
      (((dataAds d).getD []).map OutputDataAd.logicalFileName)
      (((dataAds d).getD []).map OutputDataAd.storageElement)).foldl (stored q)
      fun _ _ => none) :
    Assigned q host d vars := by
  have hplain := List.forall_iff_forall_mem.mp (vars_plain h hd)
  have hscalar := scalarValues_eq host d p (dataFiles d)
    (((dataAds d).getD []).map OutputDataAd.logicalFileName)
    (((dataAds d).getD []).map OutputDataAd.storageElement)
  generalize hitems : (p.jobWrapper host d).vars (dataFiles d)
      (((dataAds d).getD []).map OutputDataAd.logicalFileName)
      (((dataAds d).getD []).map OutputDataAd.storageElement) = items
    at hvars hplain hscalar
  have hnames : items.map Prod.fst = varNames := by
    rw [← hitems]
    rfl
  have hcount : ∀ v ∈ items, v.1 ≠ "__output_file" →
      (items.map Prod.fst).count v.1 = 1 := by
    intro v hv hne
    rw [hnames]
    exact varNames_count v.1 (hnames ▸ List.mem_map_of_mem hv) hne
  have harray : ∀ {name : String} {values : List Text},
      (name, Value.array values) ∈ items → name ≠ "__environment" →
      name ≠ "__output_file" → ArrayIs vars name values := by
    intro name values hmem hne hne' i
    rw [hvars, final_array q hmem (hcount _ hmem hne') fun _ => rfl]
    refine getElem?_map_expand q ((hplain _ hmem).resolve_left ?_) i
    exact fun heq => hne (congrArg Prod.fst heq)
  refine
    ⟨ ?_, ?_,
      harray ?_ (by decide) (by decide),
      harray ?_ (by decide) (by decide),
      harray ?_ (by decide) (by decide),
      harray ?_ (by decide) (by decide),
      harray ?_ (by decide) (by decide),
      harray ?_ (by decide) (by decide),
      harray ?_ (by decide) (by decide), ?_ ⟩
  · intro v hv
    have hname : v.1 ≠ "__output_file" := by
      intro heq
      have hmem := List.mem_map_of_mem (f := Prod.fst) hv
      rw [heq] at hmem
      simp [scalarsWith] at hmem
    rw [← h.scalars, hscalar] at hv
    obtain ⟨item, hitem, hmap⟩ := List.mem_filterMap.mp hv
    obtain ⟨text, htext, rfl⟩ := Option.map_eq_some_iff.mp hmap
    have hvalue : PlainValue item.2 := by
      refine (hplain item hitem).resolve_left ?_
      rintro rfl
      cases htext
    rw [hvars]
    exact final_scalar q hitem (hcount item hitem hname) hvalue htext _
  · intro i
    have hmem : ("__environment", Value.array p.wrapper.2.2) ∈ items := by
      rw [← hitems]
      exact List.mem_of_getElem? (i := 15) rfl
    have hne : "__environment" ≠ "__output_file" := by decide
    rw [hvars, final_array q hmem (hcount _ hmem hne) fun _ => rfl]
    exact environment_expand hd q h.wrapper i
  · rw [← hitems]
    exact List.mem_of_getElem? (i := 10) rfl
  · rw [← hitems]
    exact List.mem_of_getElem? (i := 21) rfl
  · rw [← hitems]
    exact List.mem_of_getElem? (i := 20) rfl
  · rw [← hitems]
    exact List.mem_of_getElem? (i := 22) rfl
  · rw [← hitems]
    exact List.mem_of_getElem? (i := 23) rfl
  · rw [← hitems]
    exact List.mem_of_getElem? (i := 35) rfl
  · rw [← hitems]
    exact List.mem_of_getElem? (i := 36) rfl
  · intro i
    have hout := getElem?_map_expand q
      (ite_plain (isWmp d) hd.outputSandbox).2 i
    rw [hvars, ← hitems, final_outputFile q _ _ _ _ fun _ => rfl,
      getElem?_map_expand q (dataFiles_plain hd)]
    exact congrArg ((dataFiles d)[i]?).or hout

/-- The script runs to its end, over no variables. -/
theorem resolve_run {jw : JobWrapper} {text : Text}
    (h : resolve host d = .ok (jw, text)) (hd : PlainTexts d) (q : Quoting) :
    ∃ vars, run q text (fun _ _ => none) = some vars ∧
      Assigned q host d vars := by
  obtain ⟨p, files, hp, rfl, hfiles, rfl⟩ := resolve_ok h
  rw [outputAds_jobWrapper hp] at hfiles ⊢
  have hdata : files = dataFiles d := (filterMap_of_mapM hfiles).symm
  subst hdata
  refine ⟨_, run_dumps (fun v hv => ?_) (fun v hv => ?_) _,
    assigned_of_parts hp hd q rfl⟩
  · refine varNames_isName v.1 ?_
    have hmem := List.mem_map_of_mem (f := Prod.fst) hv
    rwa [vars_names] at hmem
  · rcases List.forall_iff_forall_mem.mp (vars_plain hp hd) v hv with heq | hplain
    · rw [heq]
      exact environment_writable hd hp.wrapper
    · exact hplain.writable

/-! ## What the script is to know -/

/-- Every attribute is what its variable has. -/
structure SeesAttributes (q : Quoting) (host : Host) (d : Description)
    (vars : Vars) : Prop where
  scalars : ∀ v ∈ scalarAttributes host d, vars v.1 0 = some v.2
  environment : ArrayIs vars "__environment"
    (d.environment ++ if isInteractive d then [q.expand ldLibraryPath] else [])
  inputFile : ArrayIs vars "__input_file" (if isWmp d then [] else d.inputSandbox)
  inputBaseFile : ArrayIs vars "__wmp_input_base_file"
    (if isWmp d then d.inputSandbox else [])
  inputNames : ∀ i, vars "__wmp_input_file" i =
    (vars "__wmp_input_base_file" i).map baseName
  outputSandbox : ArrayIs vars
    (if isWmp d then "__wmp_output_file" else "__output_file") d.outputSandbox
  destUris : ArrayIs vars "__wmp_output_dest_file" d.outputSandboxDestUri
  outputData : ∀ ads, dataAds d = some ads →
    ArrayIs vars "__output_file" (ads.filterMap OutputDataAd.outputFile)
  logicalFileNames : ArrayIs vars "__output_lfn"
    (((dataAds d).getD []).map OutputDataAd.logicalFileName)
  storageElements : ArrayIs vars "__output_se"
    (((dataAds d).getD []).map OutputDataAd.storageElement)

/-- No list of the description is lost, cut or laid over another, and no program
is cut. -/
structure Clear (d : Description) : Prop where
  program : isHandedOn d = true → isAbsolutePath d.executable = true →
    ¬ "./".toList <:+: d.executable
  inputNames : isWmp d = true → d.inputSandbox = []
  outputSandbox : isWmp d = true →
    (d.outputSandbox = [] ↔ d.outputSandboxDestUri = [])
  destUris : isWmp d = false → d.outputSandboxDestUri = []
  outputData : isWmp d = false → ∀ ads, dataAds d = some ads →
    d.outputSandbox = ads.filterMap OutputDataAd.outputFile

theorem ArrayIs.unique {vars : Vars} {name : String} {a b : List Text}
    (ha : ArrayIs vars name a) (hb : ArrayIs vars name b) : a = b :=
  List.ext_getElem? fun i => (ha i).symm.trans (hb i)

/-! ### The program -/

theorem withoutDirectory_relative (executable : Text) :
    withoutDirectory ("./".toList ++ executable) = executable := rfl

/-- A text with a directory in it is cut, and one without is not. -/
theorem withoutDirectory_eq_iff {executable : Text} :
    withoutDirectory executable = executable ↔ ¬ "./".toList <:+: executable := by
  unfold withoutDirectory
  rw [← breakOn_isSome]
  cases hbreak : breakOn "./".toList executable with
  | none => exact ⟨fun _ => Bool.false_ne_true, fun _ => rfl⟩
  | some r =>
      have hlength := congrArg List.length (breakOn_eq hbreak)
      rw [List.length_append, List.length_append] at hlength
      have htwo : "./".toList.length = 2 := rfl
      constructor
      · intro h
        have := congrArg List.length h
        dsimp only at this
        omega
      · exact fun h => absurd rfl h

/-- The program is as it is to be called unless an absolute one is cut. -/
theorem programFor_eq_iff :
    programFor d = program d ↔ (isHandedOn d = true →
      isAbsolutePath d.executable = true → ¬ "./".toList <:+: d.executable) := by
  unfold programFor program
  rw [withDirectory_eq]
  cases isHandedOn d with
  | false => exact ⟨fun _ h => absurd h Bool.false_ne_true, fun _ => rfl⟩
  | true =>
      rw [if_pos rfl, if_pos rfl]
      unfold called
      cases isAbsolutePath d.executable with
      | false =>
          exact ⟨fun _ _ h => absurd h Bool.false_ne_true,
            fun _ => withoutDirectory_relative d.executable⟩
      | true =>
          rw [if_pos rfl, withoutDirectory_eq_iff]
          exact ⟨fun h _ _ => h, fun h => h rfl rfl⟩

/-! ### The lists -/

/-- What is stored for a file has its slash, so that it is never the name. -/
theorem fromLastSlash_names_iff (files : List Text) :
    files.filterMap fromLastSlash = files.map baseName ↔ files = [] := by
  constructor
  · intro h
    cases files with
    | nil => rfl
    | cons file files =>
        have hmem : baseName file ∈ (file :: files).filterMap fromLastSlash := by
          rw [h]
          exact List.mem_cons_self
        obtain ⟨value, -, hvalue⟩ := List.mem_filterMap.mp hmem
        obtain ⟨pos, hpos, hdrop⟩ := Option.map_eq_some_iff.mp hvalue
        obtain ⟨dir, name, rfl, -, rfl⟩ := rfind_slash_some hpos
        rw [List.drop_left] at hdrop
        have hslash : '/' ∈ baseName file := hdrop ▸ List.mem_cons_self
        exact absurd hslash (slash_not_mem_baseName file)
  · rintro rfl
    rfl

theorem outputSandboxDestUriFor_of_ne (h : d.outputSandbox ≠ []) :
    outputSandboxDestUriFor d = d.outputSandboxDestUri := by
  unfold outputSandboxDestUriFor
  rw [if_neg fun hempty => h (List.isEmpty_iff.mp hempty)]

theorem outputSandboxDestUriFor_of_eq (h : d.outputSandbox = []) :
    outputSandboxDestUriFor d = [] := by
  unfold outputSandboxDestUriFor
  rw [h]
  rfl

theorem outputSandboxDestUriFor_of_none (h : d.outputSandboxDestUri = []) :
    outputSandboxDestUriFor d = [] := by
  unfold outputSandboxDestUriFor
  rw [h, ite_self]

theorem dataFiles_of_dataAds {ads : List OutputDataAd} (h : dataAds d = some ads) :
    dataFiles d = ads.filterMap OutputDataAd.outputFile := by
  unfold dataFiles
  rw [h, Option.getD_some]

/-! ### What is seen -/

theorem mem_scalarsWith_program (program outputBase : Text) :
    ("__job", program) ∈ scalarsWith host d program outputBase :=
  List.mem_of_getElem? (i := 2) rfl

theorem SeesAttributes.clear {q : Quoting} {vars : Vars}
    (h : Assigned q host d vars) (hs : SeesAttributes q host d vars) :
    Clear d where
  program := by
    refine programFor_eq_iff.mp (Option.some.inj ?_)
    exact (h.scalars _ (mem_scalarsWith_program _ _)).symm.trans
      (hs.scalars _ (mem_scalarsWith_program _ _))
  inputNames hw := by
    have hstored := h.wmpInputFile
    have hbase := h.wmpInputBaseFile
    rw [hw, if_pos rfl] at hstored hbase
    refine (fromLastSlash_names_iff d.inputSandbox).mp (List.ext_getElem? fun i => ?_)
    rw [← hstored i, hs.inputNames i, hbase i, List.getElem?_map]
  outputSandbox hw := by
    have hstored := h.wmpOutputFile
    have huris := h.wmpOutputDestFile
    have hseen := hs.outputSandbox
    rw [hw] at hstored huris hseen
    rw [if_pos rfl] at huris hseen
    constructor
    · intro hempty
      rw [outputSandboxDestUriFor_of_eq hempty] at huris
      exact hs.destUris.unique huris
    · intro hnone
      rw [outputSandboxDestUriFor_of_none hnone] at hstored
      exact hseen.unique hstored
  destUris hw := by
    have hstored := h.wmpOutputDestFile
    rw [hw, if_neg Bool.false_ne_true] at hstored
    exact hs.destUris.unique hstored
  outputData hw ads hads := by
    have hseen := hs.outputSandbox
    rw [hw, if_neg Bool.false_ne_true] at hseen
    exact hseen.unique (hs.outputData ads hads)

/-- Without destinations the base is the one that is written in the job. -/
theorem Clear.outputBase (hc : Clear d) :
    outputBaseFor host d = if isWmp d then [] else urlOf host d.outputSandboxPath := by
  unfold outputBaseFor hasDestUris
  cases hw : isWmp d with
  | true => rfl
  | false =>
      rw [hc.destUris hw, List.isEmpty_nil, Bool.not_true, Bool.and_false]
      rfl

/-- The variable with two lists, when the description is clear. -/
theorem Clear.outputFile {q : Quoting} {vars : Vars}
    (hc : Clear d) (h : Assigned q host d vars) (hw : isWmp d = false) :
    ArrayIs vars "__output_file" d.outputSandbox := by
  intro i
  rw [h.outputFile i, hw, if_neg Bool.false_ne_true]
  cases hads : dataAds d with
  | none =>
      unfold dataFiles
      rw [hads]
      rfl
  | some ads =>
      rw [dataFiles_of_dataAds hads, hc.outputData hw ads hads]
      exact Option.or_self

/-- With a base of WMProxy the destinations are all there. -/
theorem Clear.destUrisFor (hc : Clear d) (hw : isWmp d = true) :
    outputSandboxDestUriFor d = d.outputSandboxDestUri := by
  by_cases hne : d.outputSandbox = []
  · rw [outputSandboxDestUriFor_of_eq hne, (hc.outputSandbox hw).mp hne]
  · exact outputSandboxDestUriFor_of_ne hne

theorem Clear.seesAttributes {q : Quoting} {vars : Vars}
    (hc : Clear d) (h : Assigned q host d vars) :
    SeesAttributes q host d vars where
  scalars := by
    unfold scalarAttributes
    rw [← hc.outputBase, ← programFor_eq_iff.mpr hc.program]
    exact h.scalars
  environment := h.environment
  inputFile := h.inputFile
  inputBaseFile := h.wmpInputBaseFile
  inputNames i := by
    rw [h.wmpInputFile i, h.wmpInputBaseFile i]
    cases hw : isWmp d with
    | false => rfl
    | true =>
        rw [hc.inputNames hw]
        rfl
  outputSandbox := by
    cases hw : isWmp d with
    | false => exact hc.outputFile h hw
    | true =>
        intro i
        have hstored := h.wmpOutputFile i
        rw [hw, hc.destUrisFor hw, Bool.true_and] at hstored
        rw [if_pos rfl, hstored]
        cases hdest : d.outputSandboxDestUri with
        | nil =>
            rw [(hc.outputSandbox hw).mpr hdest]
            rfl
        | cons uri uris => rfl
  destUris := by
    have hstored := h.wmpOutputDestFile
    cases hw : isWmp d with
    | true => rwa [hw, if_pos rfl, hc.destUrisFor hw] at hstored
    | false =>
        rw [hw, if_neg Bool.false_ne_true] at hstored
        rw [hc.destUris hw]
        exact hstored
  outputData ads hads := by
    cases hw : isWmp d with
    | false =>
        rw [← hc.outputData hw ads hads]
        exact hc.outputFile h hw
    | true =>
        intro i
        rw [h.outputFile i, hw, if_pos rfl, dataFiles_of_dataAds hads]
        exact Option.or_none
  logicalFileNames := h.outputLfn
  storageElements := h.outputSe

/-! ## A host and two jobs -/

/-- No word is changed by the shell. -/
def plainQuoting : Quoting := ⟨id, fun _ _ => rfl⟩

/-- The host of the samples. -/
def plainHost : Host where
  cfg :=
    { tokenFile := "token.txt".toList
      basePath := "/var/jobs".toList
      maxRetryCount := 10
      maxShallowRetryCount := 10
      maxReplansCount := 5
      expiryPeriod := 3600
      matchRetryPeriod := 60
      iceInput := "ice"
      jcInput := "jc"
      wmInput := "wm"
      ceInfoHost := "ce"
      lexicalCastFloat := fun _ => none }
  localHostname := "wms".toList
  toFilename := id
  maradonaTransportProtocol := "gsiftp".toList
  maradonaPath := id
  maxOutputSandboxSize := -1
  sbRetryDifferentProtocols := false
  tokenFile_plain := isPlain_of_all (by decide)
  localHostname_plain := isPlain_of_all (by decide)
  toFilename_plain _ h := h
  protocol_plain := isPlain_of_all (by decide)
  maradonaPath_plain _ h := h

/-- A job with one file of output. -/
def oneFileJob : Description where
  jdl := { inputSandboxPath := "/sandbox/input".toList }
  executable := "run.sh".toList
  jobType := "normal".toList
  lrmsType := []
  jobId := "https://lb/id".toList
  globusResourceContactString := "ce:2119".toList
  inputSandbox := ["run.sh".toList]
  outputSandbox := ["out".toList]
  outputSandboxDestUri := []
  wmpInputSandboxBaseUri := []
  outputSandboxPath := "/sandbox/output".toList
  outputSandboxBaseDestUri := none
  stdInput := []
  stdOutput := "out".toList
  stdError := []
  arguments := []
  prologue := none
  prologueArguments := []
  epilogue := none
  epilogueArguments := []
  environment := []
  cpuNumber := none
  nodeNumber := none
  ceApplicationDir := none
  perusalFileEnable := false
  perusalTimeInterval := none
  perusalFilesDestUri := none
  perusalListFileUri := none
  outputData := none
  virtualOrganisation := some "vo".toList

/-- The same job with another file to be registered. -/
def uploadJob : Description :=
  { oneFileJob with
    outputData := some (.ad ⟨some "data".toList, [], []⟩) }

theorem plainTexts_of_all
    (h : ((texts d).all fun text => text.all fun c =>
      !isSpecial c && c != '\n') = true) : PlainTexts d :=
  fun text ht => isPlain_of_all (List.all_eq_true.mp h text ht)

theorem resolve_of_isOk (h : (resolve host d).isOk = true) :
    ∃ jw text, resolve host d = .ok (jw, text) := by
  cases hresolve : resolve host d with
  | error e =>
      rw [hresolve] at h
      cases h
  | ok r => exact ⟨r.1, r.2, rfl⟩

/-- The script sees the job as it is exactly when the description is clear. -/
theorem seesAttributes_iff {host : Host} {d : Description} {jw : JobWrapper}
    {text : Text} (h : resolve host d = .ok (jw, text)) (hd : PlainTexts d)
    (q : Quoting) :
    ∃ vars, run q text (fun _ _ => none) = some vars ∧
      (SeesAttributes q host d vars ↔ Clear d) := by
  obtain ⟨vars, hrun, hassigned⟩ := resolve_run h hd q
  exact ⟨vars, hrun, fun hs => hs.clear hassigned,
    fun hc => hc.seesAttributes hassigned⟩

theorem seesAttributes_iff_oneFileJob :
    ∃ jw text, resolve plainHost oneFileJob = .ok (jw, text) ∧
      ∃ vars, run plainQuoting text (fun _ _ => none) = some vars ∧
        (SeesAttributes plainQuoting plainHost oneFileJob vars ↔
          Clear oneFileJob) := by
  obtain ⟨jw, text, h⟩ := resolve_of_isOk
    (by decide +kernel : (resolve plainHost oneFileJob).isOk = true)
  exact ⟨jw, text, h,
    seesAttributes_iff h (plainTexts_of_all (by decide +kernel)) plainQuoting⟩

/-- The file of the output data lies over the file of the sandbox. -/
theorem not_seesAttributes_uploadJob :
    ∃ jw text, resolve plainHost uploadJob = .ok (jw, text) ∧
      PlainTexts uploadJob ∧
      ¬ ∃ vars, run plainQuoting text (fun _ _ => none) = some vars ∧
        SeesAttributes plainQuoting plainHost uploadJob vars := by
  obtain ⟨jw, text, h⟩ := resolve_of_isOk
    (by decide +kernel : (resolve plainHost uploadJob).isOk = true)
  have hd : PlainTexts uploadJob := plainTexts_of_all (by decide +kernel)
  refine ⟨jw, text, h, hd, ?_⟩
  rintro ⟨vars, hrun, hs⟩
  obtain ⟨vars', hrun', hassigned⟩ := resolve_run h hd plainQuoting
  cases hrun.symm.trans hrun'
  have hlists := (hs.clear hassigned).outputData (by decide +kernel) _ rfl
  exact absurd hlists (by decide)

end Wms.Core.Adapter
