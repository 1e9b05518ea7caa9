import Wms.Core.LbUtils

/-!
# Submission utilities (`src/org.glite.wms.core/src/submission_utils.cpp`)

Retry limits and token files. The token of a job is a file in the job's
directory whose name carries a number after its last underscore; a trailing
dot marks the name it has while a processor works on it.
-/

namespace Wms.Core

open Wms.Lib

/-- The type of a job; a DAG has nodes that depend on each other. -/
def jobType (jdl : Jdl) : JobType :=
  match jdl.type, jdl.dependencies with
  | some "dag", some size => if size ≠ 0 then .dag else .collection
  | _, _ => .single

/-! ## Limits

In practice the limit for the deep count is the larger of zero and the smaller
of the job's and the system's, and the same for the shallow count. -/

/-- `check_shallow_count` -/
def checkShallowCount (cfg : Config) (jdl : Jdl) (count : ℤ) :
    Except Exn Unit :=
  let jobShallowCount :=
    match jdl.shallowRetryCount with
    | some n => if n < 0 then 0 else n
    | none => 0
  let maxShallowCount :=
    if cfg.maxShallowRetryCount < 0 then 0 else cfg.maxShallowRetryCount
  if count ≥ jobShallowCount then .error (.hitJobShallowCount jobShallowCount)
  else if count ≥ maxShallowCount then
    .error (.hitMaxShallowCount maxShallowCount)
  else .ok ()

/-- The system's limit is not cut at zero here, as it is for the shallow
count; the job's is. -/
def checkDeepCount (cfg : Config) (jdl : Jdl) (count : ℤ) :
    Except Exn Unit :=
  let jobRetryCount :=
    match jdl.retryCount with
    | some n => if n < 0 then 0 else n
    | none => 0
  if count ≥ jobRetryCount then .error (.hitJobRetryCount jobRetryCount)
  else if count ≥ cfg.maxRetryCount then
    .error (.hitMaxRetryCount cfg.maxRetryCount)
  else .ok ()

/-- `get_job_shallow_count` -/
def getJobShallowCount (jdl : Jdl) : ℤ := jdl.shallowRetryCount.getD 0

/-- `shallow_resubmission_is_enabled` -/
def shallowResubmissionIsEnabled (jdl : Jdl) : Bool :=
  getJobShallowCount jdl ≠ -1

/-! ## Token files -/

/-- The decimal digits of a number, the most significant first. -/
def decimal (n : ℕ) : Text := Nat.toDigits 10 n

/-- What `lexical_cast` makes of an `int`. -/
def lexicalCastInt : ℤ → Text
  | .ofNat n => decimal n
  | .negSucc n => '-' :: decimal (n + 1)

/-- The name of the token with a number, in the job's directory. -/
def getReallyrunningToken (cfg : Config) (replansCount : ℤ) : Text :=
  cfg.tokenFile ++ '_' :: lexicalCastInt replansCount

/-- The name the token has while it is being renumbered or created. -/
def tokenTmpFile (tokenFile : Text) : Text := tokenFile ++ ['.']

/-- Whether a text begins with a pattern in which a dot stands for anything. -/
def matchesPrefix : Text → Text → Bool
  | [], _ => true
  | _ :: _, [] => false
  | p :: pattern, c :: text => (p = '.' || p = c) && matchesPrefix pattern text

/-- The filter of the directory passes: the name in the configuration is used
as a regular expression, whose only special character is taken to be the dot. -/
def isTokenFile (cfg : Config) (leaf : Text) : Bool :=
  matchesPrefix (cfg.tokenFile ++ ['_']) leaf

/-- The path of an entry of the job's directory. -/
def fullPath (cfg : Config) (leaf : Text) : Text := cfg.basePath ++ '/' :: leaf

/-- The path as it is shown. -/
def pathOf (cfg : Config) (leaf : Text) : String :=
  String.ofList (fullPath cfg leaf)

/-- A pass over the directory, from what was found so far: the first token is
kept, and something is done at every further one. -/
def scanTokensWith (cfg : Config) (another : Text → WmProc Unit) :
    Option Text → List Text → WmProc (Option Text)
  | found, [] => pure found
  | found, leaf :: rest =>
      if isTokenFile cfg leaf then
        match found with
        | none => scanTokensWith cfg another (some leaf) rest
        | some _ => do
            another leaf
            scanTokensWith cfg another found rest
      else scanTokensWith cfg another found rest

/-- What follows the last underscore: `substr(rfind('_') + 1)`. -/
def afterLastUnderscore (name : Text) : Text :=
  (name.reverse.takeWhile (· ≠ '_')).reverse

/-- What comes up to the last underscore, with it. -/
def uptoLastUnderscore (name : Text) : Text :=
  (name.reverse.dropWhile (· ≠ '_')).reverse

/-- `create_token` -/
def createToken (leaf : Text) : WmProc Unit := do
  if ← ask (.createToken leaf) then pure () else .throw .cannotCreateToken

end Wms.Core
