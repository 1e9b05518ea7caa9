import Mathlib.Data.Int.Notation
import Mathlib.Data.Nat.Notation
import Wms.Lib.Instances

/-!
# What the workload manager knows about a job

The job description, the events the logging and bookkeeping service keeps
about a job, its configuration and its exceptions, each with what the
modelled functions read of them.

Text that is only shown to somebody is a `String`. Text that the code takes
apart, file names above all, is a list of characters.
-/

namespace Wms.Core

abbrev Text := List Char

/-! ## The job description -/

/-- A job description: the attributes the manager reads and writes. An
attribute that is not there, or not of its type, is `none`. -/
structure Jdl where
  type : Option String := none
  /-- The size of `dependencies` in `Nodes`, when both are there. -/
  dependencies : Option ℕ := none
  expiryTime : Option ℤ := none
  retryCount : Option ℤ := none
  shallowRetryCount : Option ℤ := none
  replansCount : Option ℤ := none
  enableWmsFeedback : Bool := false
  previousMatches : List String := []
  previousMatchesEx : List (String × ℤ) := []
  inputSandboxPath : Text := []
  lbSequenceCode : String := ""

/-- The types of job that the manager tells apart. -/
inductive JobType where
  | single
  | dag
  | collection
  deriving DecidableEq, Repr

/-- What the planner makes of a description. -/
structure Planned where
  ceId : Text
  ceinfoHostName : String
  reallyRunningToken : Text
  lbSequenceCode : String := ""

/-- The command ad delivered to the next component. -/
structure Request where
  command : String
  jobAd : Planned

/-- The text of a job ad as it is found in an event: empty, not parsable (with
what the parser says), or the ad it parses to. -/
inductive JobText where
  | empty
  | unparsable (what : String)
  | ad (jdl : Jdl)

/-! ## Logging and bookkeeping -/

/-- The components that log to the L&B. -/
inductive Source where
  | networkServer
  | workloadManager
  | bigHelper
  | logMonitor
  | other
  deriving DecidableEq, Repr

/-- What a Resubmission event says. -/
inductive ResubmissionResult where
  | willResub
  | wontResub
  | shallow
  deriving DecidableEq, Repr

/-- What an EnQueued event says. -/
inductive EnQueuedResult where
  | start
  | ok
  | fail
  deriving DecidableEq, Repr

/-- What a Done event says. -/
inductive DoneStatus where
  | ok
  | failed
  | cancelled
  deriving DecidableEq, Repr

/-- The types of event the code looks for or logs. -/
inductive EventKind where
  | match_ (destId : Text)
  | pending (reason : String)
  | resubmission (result : ResubmissionResult) (reason : String) (tag : Text)
  | userTag (name value : String)
  | enQueued (result : EnQueuedResult) (queue : String) (job : JobText)
      (reason : String)
  | done (status : DoneStatus)
  | cancel
  | abort (reason : String)
  | other

/-- An event of the L&B, with its time. -/
structure LbEvent where
  source : Source
  timestamp : ℤ
  kind : EventKind

/-- The states of the L&B. -/
inductive JobState where
  | submitted
  | waiting
  | ready
  | scheduled
  | running
  | done
  | cleared
  | aborted
  | cancelled
  | other
  deriving DecidableEq, Repr

/-- A job status, when LB gave one. -/
structure JobStat where
  state : JobState
  isCollection : Bool := false
  deriving DecidableEq, Repr

/-- The errors of a query that the manager tells apart. -/
inductive Errno where
  | enoent
  | etimedout
  | enotconn
  | econnrefused
  | eagain
  | other (code : ℤ)
  deriving DecidableEq, Repr

/-! ## Requests -/

/-- The commands of a request. -/
inductive Command where
  | jobsubmit
  | jobresubmit
  | jobcancel
  | match_
  | other (name : String)
  deriving DecidableEq, Repr

/-- How far a job had come when the manager stopped. -/
inductive Checkpoint where
  | start
  | limbo
  | pending
  deriving DecidableEq, Repr

/-- The part of a `SubmitState` that decides what is done with a job; all
copies of a processor share one. -/
structure SubmitState where
  command : Command
  ad : Jdl
  lastCheckpointing : Checkpoint
  createdAt : ℤ

/-! ## Exceptions -/

/-- What a processor can throw, as far as its handlers tell it apart. -/
inductive Exn where
  | invalidArgument (what : String)
  | manipulation (what : String)
  | exception (what : String)
  | lbQueryFailed
  | lbQueryTemporarilyFailed
  | hitMaxRetryCount (n : ℤ)
  | hitJobRetryCount (n : ℤ)
  | hitMaxShallowCount (n : ℤ)
  | hitJobShallowCount (n : ℤ)
  | cannotRetrieveJDL
  | helperError (what : String)
  | cannotCreateToken
  | cannotDeliverFatal
  | cannotCreateLBContext (what : String)
  | std (what : String)
  | unknown

/-- What `is_proxy_expired` can throw. -/
inductive ProxyError where
  | missingProxy (what : String)
  | invalidProxy (what : String)

/-! ## Configuration -/

/-- The configuration the processors read, and two names from libraries:
`lexicalCastFloat` stands for `int(boost::lexical_cast<float>(·))`, `none`
where the cast throws, and `ceInfoHost` for `JDLPrivate::CE_INFO_HOST`.
`basePath` is the job's own directory under the sandbox staging path. -/
structure Config where
  tokenFile : Text
  basePath : Text
  maxRetryCount : ℤ
  maxShallowRetryCount : ℤ
  maxReplansCount : ℤ
  expiryPeriod : ℤ
  matchRetryPeriod : ℤ
  iceInput : String
  jcInput : String
  wmInput : String
  ceInfoHost : String
  lexicalCastFloat : Text → Option ℤ

end Wms.Core
