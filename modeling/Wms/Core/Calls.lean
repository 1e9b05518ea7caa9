import Wms.Core.Job
import Wms.Lib.Proc

/-!
# What a processor asks for

The calls of the job processors, for one job: its shared `SubmitState`, the
LB, its directory in the sandbox, the planner, the job directories of the
next components and the event queue. Every processor is a program over them.

A query of the LB answers with its events or an error number. Logging calls
answer nothing: what the code does with their result is to ignore it. The
status is asked for in a context made for the purpose, which may fail, or in
a context at hand.
-/

namespace Wms.Core

open Wms.Lib

/-- The event queries the code makes about one job. -/
inductive Query where
  | recovery
  | interesting
  | originalJdl
  | lastMatched
  deriving DecidableEq, Repr

/-- Where the cancel token is looked for in one processing of a job. -/
inductive CancelCheck where
  | processor
  | delivery
  deriving DecidableEq, Repr

/-- The two that a job may be delivered to. -/
inductive Output where
  | ice
  | jc
  deriving DecidableEq, Repr

/-- The outcome of `::rename`. A successful one leaves `errno` as it was. -/
structure Renamed where
  failed : Bool
  errno : Errno
  deriving DecidableEq, Repr

/-- A pass over a directory: the entries it saw, and the error it stopped at,
if it did not come to the end. -/
structure Listing where
  leaves : List Text
  error : Option String

/-- What the processors ask of the L&B, the file system and the helpers. -/
inductive Call where
  | load
  | storeAd (ad : Jdl)
  | storeCheckpoint (c : Checkpoint)
  | proxyExpired
  | now
  | jobStatus
  | jobStatusIn
  | query (q : Query)
  | createContext
  | loggingJob
  | lbSequenceCode
  | log (e : EventKind)
  | existsCancelToken (site : CancelCheck)
  | unlinkCancelToken
  | purge
  | listSandbox
  | existsFile (leaf : Text)
  | createToken (leaf : Text)
  | rename (old new : Text)
  | unlink (leaf : Text)
  | plan (ad : Jdl)
  | deliver (dest : Output) (request : Request)
  | openWmInput
  | deliverToWm (ad : Jdl)
  | scheduleAt (t : ℤ)
  | schedule (c : Checkpoint)
  | removeFromInput

/-- What each call answers. -/
@[reducible] def Answer : Call → Type
  | .load => SubmitState
  | .proxyExpired => Except ProxyError Bool
  | .now => ℤ
  | .jobStatus => Except String (Option JobStat)
  | .jobStatusIn => Option JobStat
  | .query _ => Except Errno (List LbEvent)
  | .createContext => Except String Unit
  | .loggingJob => Bool
  | .lbSequenceCode => String
  | .existsCancelToken _ => Bool
  | .listSandbox => Listing
  | .existsFile _ => Bool
  | .createToken _ => Bool
  | .rename _ _ => Renamed
  | .plan _ => Except Exn Planned
  | .deliver _ _ => Except String Unit
  | .openWmInput => Except String Unit
  | .deliverToWm _ => Except String Unit
  | .storeAd _ => Unit
  | .storeCheckpoint _ => Unit
  | .log _ => Unit
  | .unlinkCancelToken => Unit
  | .purge => Unit
  | .unlink _ => Unit
  | .scheduleAt _ => Unit
  | .schedule _ => Unit
  | .removeFromInput => Unit

/-- A program of the workload manager. -/
abbrev WmProc (α : Type) := Proc Call Answer Exn α

/-- A call as a program. -/
def ask (c : Call) : WmProc (Answer c) := Proc.perform c

end Wms.Core
