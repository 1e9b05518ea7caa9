import Wms.Core.JobWrapper

/-!
# From a job to its wrapper (`src/org.glite.wms.core/src/helper/jobadapter`)

`JobAdapter::resolve` for a computing element that is not a CREAM one: what of
the description of the job goes into the job wrapper. The other attributes of
the result, for Condor and Globus, are not followed here.
-/

namespace Wms.Core.Adapter

open Wms.Core Wms.Lib.Shell JobWrapper

/-! ## The description and the host -/

/-- Output data as an attribute: a list, one ad, or something else. -/
inductive OutputDataAttribute where
  | list (ads : List (Option OutputDataAd))
  | ad (ad : OutputDataAd)
  | other

/-- The attributes read. A text or a list that is not there is empty where the
code makes no difference. -/
structure Description where
  /-- With the input sandbox path and the numbers for the token. -/
  jdl : Jdl
  executable : Text
  jobType : Text
  lrmsType : Text
  jobId : Text
  globusResourceContactString : Text
  inputSandbox : List Text
  outputSandbox : List Text
  outputSandboxDestUri : List Text
  wmpInputSandboxBaseUri : Text
  outputSandboxPath : Text
  outputSandboxBaseDestUri : Option Text
  stdInput : Text
  stdOutput : Text
  stdError : Text
  arguments : Text
  prologue : Option Text
  prologueArguments : Text
  epilogue : Option Text
  epilogueArguments : Text
  environment : List Text
  cpuNumber : Option ℤ
  nodeNumber : Option ℤ
  ceApplicationDir : Option Text
  perusalFileEnable : Bool
  perusalTimeInterval : Option ℤ
  perusalFilesDestUri : Option Text
  perusalListFileUri : Option Text
  outputData : Option OutputDataAttribute
  virtualOrganisation : Option Text

/-- What comes from the host and the configuration. The names made from a job id
are functions of it. None of the texts means something to the shell. -/
structure Host where
  cfg : Config
  localHostname : Text
  toFilename : Text → Text
  maradonaTransportProtocol : Text
  maradonaPath : Text → Text
  maxOutputSandboxSize : ℤ
  sbRetryDifferentProtocols : Bool
  tokenFile_plain : IsPlain cfg.tokenFile
  localHostname_plain : IsPlain localHostname
  toFilename_plain : ∀ id, IsPlain id → IsPlain (toFilename id)
  protocol_plain : IsPlain maradonaTransportProtocol
  maradonaPath_plain : ∀ id, IsPlain id → IsPlain (maradonaPath id)

/-- What the adapter throws. -/
inductive ResolveError where
  | adapter (e : AdapterError)
  | invalidAttributeValue (name : String) (value : Text) (why : String)
  | cannotCreateJobWrapper (what : Text)
  | cannotGetAttribute (name : String)
  | outOfRange

/-! ## What is made of single attributes -/

/-- What a text that is no URL is refused with. -/
def invalidUrl (text : Text) : Text := "Invalid URL: ".toList ++ text

/-- A program in the working directory is called with its directory. -/
def withDirectory (program : Text) : Text :=
  if program.head? = some '/' then program else "./".toList ++ program

/-- What stands behind the first `./`, or all of it. -/
def withoutDirectory (executable : Text) : Text :=
  match Wms.Lib.breakOn "./".toList executable with
  | none => executable
  | some (_, rest) => rest

/-- A text in lower case. -/
def toLower (text : Text) : Text := text.map Char.toLower

/-- Whether a text of the list contains another text. -/
def anyContains (what : Text) (env : List Text) : Bool :=
  env.any fun str => (Wms.Lib.breakOn what str).isSome

/-- What the environment of each job begins with. -/
def ldLibraryPath : Text := "LD_LIBRARY_PATH=.:$LD_LIBRARY_PATH".toList

/-- The program, the type and the environment of the wrapper. -/
def wrapperFor (d : Description) :
    Except ResolveError (Text × WrapperType × List Text) :=
  let executable := withDirectory d.executable
  if toLower d.jobType = "mpich".toList then
    if toLower d.lrmsType = "lsf".toList then
      .ok (withoutDirectory executable, .mpiLsf, d.environment)
    else if toLower d.lrmsType = "pbs".toList then
      .ok (withoutDirectory executable, .mpiPbs, d.environment)
    else .error (.invalidAttributeValue "LRMSType" d.lrmsType "lsf or pbs")
  else if toLower d.jobType = "interactive".toList then
    if !anyContains "BYPASS_SHADOW_PORT=".toList d.environment then
      .error (.invalidAttributeValue "Environment"
        (d.environment.flatMap (· ++ [':'])) "contains BYPASS_SHADOW_PORT")
    else if !anyContains "BYPASS_SHADOW_HOST=".toList d.environment then
      .error (.invalidAttributeValue "Environment"
        (d.environment.flatMap (· ++ [':'])) "contains BYPASS_SHADOW_HOST")
    else
      .ok (withoutDirectory executable, .interactive,
        d.environment ++ [ldLibraryPath])
  else .ok (executable, .normal, d.environment)

/-- The number of nodes, 0 where there is none. -/
def nodesFor (d : Description) : ℤ :=
  match d.cpuNumber with
  | some n => n
  | none => d.nodeNumber.getD 0

/-- The time interval and the two URIs of perusal. -/
def perusalFor (d : Description) :
    Except ResolveError (Option (ℤ × Text × Text)) :=
  if !d.perusalFileEnable then .ok none
  else
    match d.perusalTimeInterval, d.perusalFilesDestUri, d.perusalListFileUri with
    | none, _, _ => .error (.cannotGetAttribute "PerusalTimeInterval")
    | _, none, _ => .error (.cannotGetAttribute "PerusalFilesDestURI")
    | some t, some files, list =>
        if files.isEmpty then
          .error (.invalidAttributeValue "PerusalFilesDestURI" files "not empty")
        else
          match list with
          | none => .error (.cannotGetAttribute "PerusalListFileURI")
          | some list =>
              if list.isEmpty then
                .error
                  (.invalidAttributeValue "PerusalListFileURI" list "not empty")
              else .ok (some (t, files, list))

/-- The ads of the output data, the virtual organisation and the name of the file
of the upload. -/
def outputDataFor (d : Description) :
    Except ResolveError (Option (List (Option OutputDataAd) × Text × Text)) :=
  match d.outputData with
  | none => .ok none
  | some .other =>
      .error (.invalidAttributeValue "OutputData" "Warning".toList
        "either list of classad or a classad")
  | some tree =>
      let ads :=
        match tree with
        | .list ads => ads
        | .ad ad => [some ad]
        | .other => []
      match d.virtualOrganisation with
      | none => .error (.cannotGetAttribute "VirtualOrganisation")
      | some vo =>
          if vo.isEmpty then
            .error (.invalidAttributeValue "VirtualOrganisation" vo "not empty")
          else
            match parseUrl d.jobId with
            | none => .error (.cannotCreateJobWrapper (invalidUrl d.jobId))
            | some url =>
                if url.path.isEmpty then .error .outOfRange
                else
                  .ok (some (ads, vo,
                    "DSUpload_".toList ++ url.path.drop 1 ++ ".out".toList))

/-- Destination URIs are read only where there is an output sandbox. -/
def outputSandboxDestUriFor (d : Description) : List Text :=
  if d.outputSandbox.isEmpty then [] else d.outputSandboxDestUri

/-- The base for wildcards, where there are no destination URIs. -/
def outputSandboxBaseFor (d : Description) : Except ResolveError (Option Url) :=
  if !(outputSandboxDestUriFor d).isEmpty then .ok none
  else
    match d.outputSandboxBaseDestUri with
    | none => .ok none
    | some text =>
        if text.isEmpty then .ok none
        else
          match parseUrl text with
          | none => .error (.cannotCreateJobWrapper (invalidUrl text))
          | some url => .ok (some url)

/-- The URL of a path, on this host unless it says more. -/
def urlOnHost (host : Host) (path : Text) : Except ResolveError Url :=
  match inputUrl host.localHostname path with
  | none =>
      .error (.cannotCreateJobWrapper (invalidUrl
        ("gsiftp://".toList ++ host.localHostname ++ path)))
  | some url => .ok url

/-- The part before the colon. -/
def gatekeeperFor (d : Description) : Except ResolveError Text :=
  match d.globusResourceContactString.dropWhile (· ≠ ':') with
  | [] =>
      .error (.invalidAttributeValue "GlobusResourceContactString"
        d.globusResourceContactString "contains a hostname before a :")
  | _ =>
      let hostname := d.globusResourceContactString.takeWhile (· ≠ ':')
      if hostname.isEmpty then
        .error (.invalidAttributeValue "GlobusResourceContactString"
          d.globusResourceContactString "contains a hostname before a :")
      else .ok hostname

/-- An attribute that is there may not be empty. -/
def notEmpty (name : String) (value : Text) : Except ResolveError Unit :=
  if value.isEmpty then
    .error (.invalidAttributeValue name value "not empty")
  else .ok ()

/-! ## The wrapper -/

/-- The sandbox for the input. -/
def setInputSandbox (d : Description) (wmpBase : Option Url) (isbUrl : Url)
    (jw : JobWrapper) : JobWrapper :=
  if wmpBase.isSome then jw.wmpInputSandboxSupport isbUrl d.inputSandbox
  else jw.inputSandbox isbUrl d.inputSandbox

/-- `outputsandboxpath`: empty where it is not needed, for it is not read then. -/
def outputSandboxPathFor (d : Description) (wmpBase : Option Url) : Text :=
  if (outputSandboxDestUriFor d).isEmpty && wmpBase.isNone then
    d.outputSandboxPath
  else []

/-- The sandbox for the output. -/
def setOutputSandbox (host : Host) (d : Description) (wmpBase : Option Url)
    (jw : JobWrapper) : Except ResolveError JobWrapper :=
  if wmpBase.isNone then
    (urlOnHost host (outputSandboxPathFor d wmpBase)).map fun url =>
      jw.outputSandbox url d.outputSandbox
  else if !(outputSandboxDestUriFor d).isEmpty then
    .ok (jw.wmpOutputSandboxSupport d.outputSandbox (outputSandboxDestUriFor d))
  else .ok jw

/-- Where the file with the exit code goes. -/
def maradonaUrlFor (host : Host) (d : Description) : Option Url → Text
  | none =>
      host.maradonaTransportProtocol ++ "://".toList ++ host.localHostname ++
        '/' :: host.maradonaPath d.jobId
  | some base => base.asString ++ "/Maradona.output".toList

/-- The path is needed where nothing else says where the sandbox goes. -/
def checkOutputSandboxPath (d : Description) (wmpBase : Option Url) :
    Except ResolveError Unit :=
  if (outputSandboxDestUriFor d).isEmpty && wmpBase.isNone then
    notEmpty "OutputSandboxPath" d.outputSandboxPath
  else .ok ()

/-- The wrapper without the sandboxes. -/
def newWrapper (host : Host) (d : Description) (wmpBase : Option Url)
    (token gatekeeper : Text) (wrapper : Text × WrapperType × List Text)
    (perusal : Option (ℤ × Text × Text))
    (outputData : Option (List (Option OutputDataAd) × Text × Text))
    (base : Option Url) : JobWrapper where
  job := wrapper.1
  jobType := wrapper.2.1
  nodes := nodesFor d
  ceApplicationDir := d.ceApplicationDir.getD []
  perusalSupport := perusal.isSome
  perusalTimeinterval := (perusal.map fun p => p.1).getD 0
  perusalFilesdesturi := (perusal.map fun p => p.2.1).getD []
  perusalListfileuri := (perusal.map fun p => p.2.2).getD []
  outputdata := outputData.map fun o => o.1
  vo := (outputData.map fun o => o.2.1).getD []
  dsupload := (outputData.map fun o => o.2.2).getD []
  maxOsbSize := host.maxOutputSandboxSize
  sbRetryDifferentProtocols := host.sbRetryDifferentProtocols
  standardInput := d.stdInput
  standardOutput := d.stdOutput
  standardError := d.stdError
  brokerinfo := brokerinfoDefault
  arguments := d.arguments
  prologue := (d.prologue.map withDirectory).getD []
  prologueArguments := if d.prologue.isSome then d.prologueArguments else []
  epilogue := (d.epilogue.map withDirectory).getD []
  epilogueArguments := if d.epilogue.isSome then d.epilogueArguments else []
  jobid := d.jobId
  jobidToFilename := host.toFilename d.jobId
  brokerHostname := host.localHostname
  environment := wrapper.2.2
  gatekeeperHostname := gatekeeper
  globusResourceContactString := d.globusResourceContactString
  outputSandboxBaseDestUri := base
  osbWildcardsSupport := base.isSome
  shallowResubmissionToken := token
  wmpSupport := !(outputSandboxDestUriFor d).isEmpty || wmpBase.isSome
  maradonaUrl := maradonaUrlFor host d wmpBase

/-- `ofJW << *jw` -/
def written (jw : JobWrapper) : Except ResolveError (JobWrapper × Text) :=
  match jw.dumpVars with
  | none => .error (.cannotGetAttribute "OutputFile")
  | some text => .ok (jw, text)

/-- `JobAdapter::resolve`: the wrapper, and the assignments written for it. -/
def resolve (host : Host) (d : Description) :
    Except ResolveError (JobWrapper × Text) := do
  let token ← (resolveToken host.cfg host.localHostname d.jdl).mapError .adapter
  let isbUrl ← urlOnHost host d.jdl.inputSandboxPath
  let _ ← notEmpty "Executable" d.executable
  let wmpBase := parseUrl d.wmpInputSandboxBaseUri
  let _ ← checkOutputSandboxPath d wmpBase
  let gatekeeper ← gatekeeperFor d
  let _ ← notEmpty "edg_jobid" d.jobId
  let _ ← notEmpty "JobType" d.jobType
  let wrapper ← wrapperFor d
  let perusal ← perusalFor d
  let outputData ← outputDataFor d
  let base ← outputSandboxBaseFor d
  let jw ← setOutputSandbox host d wmpBase (setInputSandbox d wmpBase isbUrl
    (newWrapper host d wmpBase token gatekeeper wrapper perusal outputData base))
  written jw

end Wms.Core.Adapter
