import Wms.Core.JobAdapter
import Wms.Lib.Shell

/-!
# The job wrapper (`src/org.glite.wms.core/src/helper/jobadapter/JobWrapper.cpp`)

What the wrapper of a job holds, and the assignments it begins with, from which
the rest of the script knows the job.
-/

namespace Wms.Core

/-- One of the files to be registered; the name and the storage element are empty
where they are not there. -/
structure OutputDataAd where
  outputFile : Option Text
  logicalFileName : Text
  storageElement : Text

/-- `NORMAL`, `MPI_LSF`, `MPI_PBS`, `INTERACTIVE` -/
inductive WrapperType where
  | normal
  | mpiLsf
  | mpiPbs
  | interactive
  deriving DecidableEq

/-- The number of a type, as the script has it. -/
def WrapperType.toInt : WrapperType → ℤ
  | .normal => 0
  | .mpiLsf => 1
  | .mpiPbs => 2
  | .interactive => 3

/-- `JobWrapper`: what the script is made of. -/
structure JobWrapper where
  job : Text
  standardInput : Text := []
  standardOutput : Text := []
  standardError : Text := []
  arguments : Text := []
  maradonaUrl : Text := []
  inputBaseUrl : Option Url := none
  inputFiles : List Text := []
  outputBaseUrl : Option Url := none
  outputSandboxBaseDestUri : Option Url := none
  outputFiles : List Text := []
  brokerinfo : Text := []
  jobid : Text := []
  jobidToFilename : Text := []
  gatekeeperHostname : Text := []
  globusResourceContactString : Text := []
  environment : List Text := []
  nodes : ℤ := 0
  /-- What is no ad in the list is `none`. -/
  outputdata : Option (List (Option OutputDataAd)) := none
  vo : Text := []
  dsupload : Text := []
  wmpSupport : Bool := false
  wmpInputFiles : List Text := []
  wmpInputBaseFiles : List Text := []
  wmpOutputFiles : List Text := []
  wmpOutputDestFiles : List Text := []
  shallowResubmissionToken : Text := []
  perusalSupport : Bool := false
  perusalTimeinterval : ℤ := 0
  perusalFilesdesturi : Text := []
  perusalListfileuri : Text := []
  prologue : Text := []
  prologueArguments : Text := []
  epilogue : Text := []
  epilogueArguments : Text := []
  jobType : WrapperType
  osbWildcardsSupport : Bool := false
  sbRetryDifferentProtocols : Bool
  brokerHostname : Text := []
  ceApplicationDir : Text := []
  maxOsbSize : ℤ

namespace JobWrapper

/-- `s_brokerinfo_default` -/
def brokerinfoDefault : Text := ".BrokerInfo".toList

/-- `input_sandbox` -/
def inputSandbox (jw : JobWrapper) (baseUrl : Url) (files : List Text) :
    JobWrapper :=
  { jw with
    inputBaseUrl := some baseUrl
    inputFiles := jw.inputFiles ++ files }

/-- `output_sandbox` -/
def outputSandbox (jw : JobWrapper) (baseUrl : Url) (files : List Text) :
    JobWrapper :=
  { jw with
    outputBaseUrl := some baseUrl
    outputFiles := jw.outputFiles ++ files }

/-- The text from its last slash on, if it has one. -/
def fromLastSlash (file : Text) : Option Text :=
  (rfind ['/'] file).map fun pos => file.drop pos

/-- `wmp_input_sandbox_support` -/
def wmpInputSandboxSupport (jw : JobWrapper) (baseUrl : Url)
    (inputBaseFiles : List Text) : JobWrapper :=
  { jw with
    inputBaseUrl := some baseUrl
    wmpInputBaseFiles := jw.wmpInputBaseFiles ++ inputBaseFiles
    wmpInputFiles := jw.wmpInputFiles ++ inputBaseFiles.filterMap fromLastSlash }

/-- `wmp_output_sandbox_support` -/
def wmpOutputSandboxSupport (jw : JobWrapper)
    (outputFiles outputDestFiles : List Text) : JobWrapper :=
  { jw with
    wmpOutputFiles := jw.wmpOutputFiles ++ outputFiles
    wmpOutputDestFiles := jw.wmpOutputDestFiles ++ outputDestFiles }

/-! ## `dump` -/

/-- What is written by the overloads of `dump`: texts, numbers with the truth
values among them, and lists of texts. -/
inductive Value where
  | text (value : Text)
  | number (value : ℤ)
  | array (values : List Text)

/-- A flag is written as a number. -/
def Value.ofBool (b : Bool) : Value := .number (if b then 1 else 0)

/-- A text between double quotes. -/
def quoted (value : Text) : Text := '"' :: (value ++ ['"'])

/-- The elements of an array, one on a line. -/
def dumpElements (name : String) : ℕ → List Text → Text
  | _, [] => []
  | i, value :: values =>
      (name.toList ++ '[' :: (Nat.toDigits 10 i ++ ']' :: '=' :: quoted value)) ++
        '\n' :: dumpElements name (i + 1) values

/-- What assigns a value to a variable of the script. -/
def dump (name : String) : Value → Text
  | .text value =>
      (name.toList ++ '=' :: if value.isEmpty then [] else quoted value) ++ ['\n']
  | .number value => (name.toList ++ '=' :: lexicalCastInt value) ++ ['\n']
  | .array values =>
      if values.isEmpty then (Wms.Lib.Shell.declareA ++ name.toList) ++ ['\n']
      else dumpElements name 0 values

/-- `0` or the text of the URL. -/
def urlText (url : Option Url) : Text :=
  match url with
  | none => []
  | some url => url.asString

/-- The variables in the order in which they are written. -/
def vars (jw : JobWrapper)
    (outputFiles logicalFileNames storageElements : List Text) :
    List (String × Value) :=
  [ ("__brokerinfo", .text jw.brokerinfo),
    ("__jobid", .text jw.jobid),
    ("__job", .text jw.job),
    ("__standard_input", .text jw.standardInput),
    ("__standard_output", .text jw.standardOutput),
    ("__standard_error", .text jw.standardError),
    ("__arguments", .text jw.arguments),
    ("__gatekeeper_hostname", .text jw.gatekeeperHostname),
    ("__maradona_url", .text jw.maradonaUrl),
    ("__input_base_url", .text (urlText jw.inputBaseUrl)),
    ("__input_file", .array jw.inputFiles),
    ("__output_base_url", .text (urlText jw.outputBaseUrl)),
    ("__output_file", .array jw.outputFiles),
    ("__jobid_to_filename", .text jw.jobidToFilename),
    ("__globus_resource_contact_string", .text jw.globusResourceContactString),
    ("__environment", .array jw.environment),
    ("__nodes", .number jw.nodes),
    ("__vo", .text jw.vo),
    ("__dsupload", .text jw.dsupload),
    ("__wmp_support", .ofBool jw.wmpSupport),
    ("__wmp_input_file", .array jw.wmpInputFiles),
    ("__wmp_input_base_file", .array jw.wmpInputBaseFiles),
    ("__wmp_output_file", .array jw.wmpOutputFiles),
    ("__wmp_output_dest_file", .array jw.wmpOutputDestFiles),
    ("__shallow_resubmission_token", .text jw.shallowResubmissionToken),
    ("__perusal_support", .ofBool jw.perusalSupport),
    ("__perusal_timeinterval",
      .number (if jw.perusalSupport then jw.perusalTimeinterval else 0)),
    ("__perusal_filesdesturi", .text jw.perusalFilesdesturi),
    ("__perusal_listfileuri", .text jw.perusalListfileuri),
    ("__prologue", .text jw.prologue),
    ("__prologue_arguments", .text jw.prologueArguments),
    ("__epilogue", .text jw.epilogue),
    ("__epilogue_arguments", .text jw.epilogueArguments),
    ("__output_data", .ofBool jw.outputdata.isSome),
    ("__output_file", .array outputFiles),
    ("__output_lfn", .array logicalFileNames),
    ("__output_se", .array storageElements),
    ("__osb_wildcards_support", .ofBool jw.osbWildcardsSupport),
    ("__broker_hostname", .text jw.brokerHostname),
    ("__ce_application_dir", .text jw.ceApplicationDir),
    ("__output_sandbox_base_dest_uri", .text (urlText jw.outputSandboxBaseDestUri)),
    ("__job_type", .number jw.jobType.toInt),
    ("__retry_different_transports", .ofBool jw.sbRetryDifferentProtocols),
    ("__max_outputsandbox_size", .number jw.maxOsbSize) ]

/-- The ads among the output data. -/
def outputAds (jw : JobWrapper) : List OutputDataAd :=
  (jw.outputdata.getD []).filterMap id

/-- `dump_vars`; `none` is an ad without a file. -/
def dumpVars (jw : JobWrapper) : Option Text :=
  (jw.outputAds.mapM OutputDataAd.outputFile).map fun outputFiles =>
    (jw.vars outputFiles (jw.outputAds.map OutputDataAd.logicalFileName)
      (jw.outputAds.map OutputDataAd.storageElement)).flatMap
      fun v => dump v.1 v.2

end JobWrapper

end Wms.Core
