import Wms.Core.Job
import Wms.Lib.Proc

/-!
# What WMProxy asks for when it starts or cancels a job

The calls of one request about one registered job: the LB, the lock file and
the description in the job's directory, the job directory of the workload
manager, and work that none of these depend on, of which only the exception
matters that it may end in.

The events are kept with what is read of them when the permission to start is
looked up. WMProxy logs under the source of the network server.
-/

namespace Wms.Interface

open Wms.Lib
open Wms.Core (Source EnQueuedResult DoneStatus JobState)

/-- The kinds of events that the operations look at or log. -/
inductive EventKind where
  | regJob (srcInstance jdl parent : Option String)
  | userTag
  | accepted
  | enQueued (result : EnQueuedResult) (reason : String)
  | abort (reason : String)
  | cancel
  | listener
  | other

/-- An event of the L&B. -/
structure Event where
  source : Source
  seqcode : String
  kind : EventKind

/-- The event queries made for one job. -/
inductive Query where
  | networkServer
  | aborts
  deriving DecidableEq, Repr

/-- What a query of the L&B may fail with. -/
inductive QueryError where
  | noEntry
  | temporary (code : ℤ)
  | definite (code : ℤ)
  deriving DecidableEq, Repr

/-- What a logging call of the LB library comes back with: the code of the
event, an error after which the code does not try again (`EINVAL`, GSS), or
another one. -/
inductive LogResult where
  | logged (seqcode : String)
  | refused
  | failed

/-- The codes of the exceptions. -/
inductive ErrorCode where
  | proxyExpired
  | operationNotAllowed
  | jobNotFound
  | jdlParsing
  | isFailure
  | none
  deriving DecidableEq, Repr

/-- Exceptions, as far as handlers and messages tell them apart. -/
inductive Exn where
  | requestAd (what : String)
  | jobOperation (code : ErrorCode) (what : String)
  | lb (what : String)
  | fileSystem (what : String)
  | authorization (what : String)
  | std (what : String)

/-- The text of an exception. -/
def Exn.what : Exn → String
  | .requestAd what => what
  | .jobOperation _ what => what
  | .lb what => what
  | .fileSystem what => what
  | .authorization what => what
  | .std what => what

/-- Whether a description is that of a job or of a DAG. -/
inductive AdType where
  | job
  | dag
  deriving DecidableEq, Repr

/-- The types of job. -/
inductive JobKind where
  | normal
  | interactive
  | checkpointable
  deriving DecidableEq, Repr

/-- A job description: the sizes of the input sandbox and of the list of
destinations made for the output sandbox, which is `none` without an output
sandbox and for one with wildcards. -/
structure JobAd where
  inputSandbox : Option ℕ
  outputDestinations : Option ℕ
  jobType : JobKind

/-- What the operations read of the description of a node. -/
structure NodeAd where
  jobId : String
  inputSandbox : Option ℕ
  outputDestinations : Option ℕ
  jobType : JobKind

/-- The same of a DAG or collection. -/
structure DagAd where
  inputSandbox : Option ℕ
  nodes : List NodeAd

/-- What the L&B says of a job. -/
structure JobStatus where
  parent : Option String
  cancelling : Bool
  state : JobState
  doneCode : DoneStatus

/-- Steps that touch neither the LB record of the job nor its files. -/
inductive Work where
  | initOperation
  | eventLogger
  | jobId
  | vomsProxy
  | userProxy
  | hostProxy
  | loggingJob
  | destinationUri
  | outputSandbox
  | perusal
  | unzip
  | requirements
  | nodeDirectories
  | nodeAttributes
  | submissionStrings
  | registerSubJobs
  | jobDir
  | readParentJdl
  | unregisterProxyRenewal
  deriving DecidableEq, Repr

/-- The files of a job whose presence is asked for. -/
inductive JobFile where
  | directory
  | jdlToStart
  deriving DecidableEq, Repr

/-- What taking the lock may fail with. -/
inductive LockError where
  | cannotOpen
  | cannotLock
  deriving DecidableEq, Repr

/-- What the operations ask of everything else. -/
inductive Call where
  | work (w : Work)
  | authorize
  | drained
  | existsFile (f : JobFile)
  | readJdl
  | jdlSequenceCode
  | reply
  | sendFault
  | queryEvents (proxy : Bool) (q : Query)
  | logEvent (kind : EventKind)
  | logNodeEvent (node : String) (kind : EventKind)
  | setSequenceCode (code : String)
  | incrementSequenceCode
  | getSequence
  | operationLock
  | operationUnlock (fd : ℕ)
  | isOperationLocked
  | jobStatus
  | doPurge (force isParent : Bool)
  | getType (jdl : String)
  | parseJob (jdl : String)
  | parseDag (jdl : String)
  | finish (jdl sequenceCode : String)
  | command (jdl : String)
  | deliver (command : String)
  | forwardCancel (sequenceCode : String)
  | writeJdl (text : String)
  | renameJdl

/-- Unlocking answers whether the wait for the lock was cut short, renaming
whether it was done. The sequence code of a description may not be there. -/
@[reducible] def Answer : Call → Type
  | .work _ => Except Exn Unit
  | .authorize => Except Exn Unit
  | .drained => Except Exn Bool
  | .existsFile _ => Bool
  | .readJdl => Except Exn String
  | .jdlSequenceCode => Except Exn (Option String)
  | .reply => Bool
  | .sendFault => Unit
  | .queryEvents _ _ => Except QueryError (List Event)
  | .logEvent _ => LogResult
  | .logNodeEvent _ _ => LogResult
  | .setSequenceCode _ => Except Exn Unit
  | .incrementSequenceCode => Except Exn Unit
  | .getSequence => String
  | .operationLock => Except LockError ℕ
  | .operationUnlock _ => Bool
  | .isOperationLocked => Except LockError Bool
  | .jobStatus => Except Exn JobStatus
  | .doPurge _ _ => Except Exn Bool
  | .getType _ => Except Exn AdType
  | .parseJob _ => Except Exn JobAd
  | .parseDag _ => Except Exn DagAd
  | .finish _ _ => Except Exn String
  | .command _ => Except Exn String
  | .deliver _ => Except String Unit
  | .forwardCancel _ => Except Exn Unit
  | .writeJdl _ => Except Exn Unit
  | .renameJdl => Bool

/-- A program of WMProxy. -/
abbrev WmpProc (α : Type) := Proc Call Answer Exn α

/-- A call as a program. -/
def ask (c : Call) : WmpProc (Answer c) := Proc.perform c

/-- A piece of work, with the exception it ends in. -/
def work (w : Work) : WmpProc Unit := do
  let r ← ask (.work w)
  Proc.ofExcept r

/-- The settings that the operations read. -/
structure Config where
  jobId : String
  lbProxy : Bool
  asyncJobStart : Bool
  maxInputSandboxFiles : ℤ
  maxOutputSandboxFiles : ℤ

end Wms.Interface
