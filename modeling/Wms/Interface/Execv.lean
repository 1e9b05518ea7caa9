import Wms.Core.Job
import Wms.Lib.Proc

/-!
# Running a command on many directories (`doExecvSplit`, `doExecv` in `utils.cpp`)

The command is executed in a child, on all directories at once. A list that is
too long for the system is halved there: the first half goes to another child,
and when that has ended well the second half is executed in the process
itself.

A process is followed to its end where it is made, for its parent does nothing
but wait. It is replaced by the command, or `doExecvSplit` returns in it. In a
child such a return goes up through the calls that the child has a copy of, all
of which only pass it on, to `doExecv`, and from there to whoever called it:
the child goes on as a second server, and ends some time with some status.
-/

namespace Wms.Utilities

open Wms.Core (Text)
open Wms.Lib

/-- The status of a process that has ended. -/
inductive WaitStatus where
  | exited (code : UInt8)
  | signaled (coredump : Bool)
  deriving DecidableEq, Repr

/-- What becomes of `execv`: the command is executed and ends, or the call
returns with `E2BIG` or with another error. -/
inductive ExecAnswer where
  | ended (status : WaitStatus)
  | tooBig
  | failed
  deriving DecidableEq, Repr

/-- `goOn` is what a child does that has come back from `doExecv`. -/
inductive Call where
  | fork
  | execv (argvs : List Text)
  | goOn
  deriving DecidableEq

/-- A fork succeeds or not. -/
abbrev Answer : Call → Type
  | .fork => Bool
  | .execv _ => ExecAnswer
  | .goOn => WaitStatus

/-- The exception is that a list of one directory is halved for ever. -/
abbrev ExecProc (α : Type) := Proc Call Answer Unit α

/-- One call. -/
def ask (c : Call) : ExecProc (Answer c) := Proc.perform c

/-- The codes that the functions return. -/
def successCode : ℤ := 0
def execFailure : ℤ := 2
def forkFailure : ℤ := -1
def coredumpFailure : ℤ := -2

/-- How `doExecvSplit` ends in the process that calls it. -/
inductive Outcome where
  | replaced (status : WaitStatus)
  | returned (code : ℤ)
  deriving DecidableEq, Repr

/-- What a parent gets to know of a child. -/
def childStatus : Outcome → ExecProc WaitStatus
  | .replaced status => pure status
  | .returned _ => ask .goOn

/-- The directories from one index to another. -/
def range (dirs : List Text) (startIndex endIndex : ℕ) : List Text :=
  (dirs.drop startIndex).take (endIndex + 1 - startIndex)

/-- The arguments of a child: the command, its options and some directories. -/
def argvs (command : Text) (params dirs : List Text) (startIndex endIndex : ℕ) :
    List Text :=
  command :: params ++ range dirs startIndex endIndex

/-- The first half in a child, and the second one here when the child has ended
well. -/
def execHalves (first second : ExecProc Outcome) : ExecProc Outcome := do
  let forked ← ask .fork
  if forked then
    let child ← first
    let status ← childStatus child
    if status ≠ .exited 0 then pure (.returned execFailure)
    else
      match ← second with
      | .replaced status => pure (.replaced status)
      | .returned code =>
          if code ≠ successCode then pure (.returned execFailure)
          else pure (.returned successCode)
  else pure (.returned forkFailure)

/-- With so many halvings left. After an error that is not `E2BIG` it returns
as if it had succeeded. -/
def doExecvSplit (command : Text) (params dirs : List Text) :
    ℕ → ℕ → ℕ → ExecProc Outcome
  | 0, _, _ => .throw ()
  | n + 1, startIndex, endIndex => do
      match ← ask (.execv (argvs command params dirs startIndex endIndex)) with
      | .ended status => pure (.replaced status)
      | .failed => pure (.returned successCode)
      | .tooBig =>
          let middle := startIndex + (endIndex - startIndex) / 2
          execHalves (doExecvSplit command params dirs n startIndex middle)
            (doExecvSplit command params dirs n (middle + 1) endIndex)

/-- `doExecv` makes of the status of its child what it returns; the exit status
of a process that a signal has ended is zero. -/
def resultOf : WaitStatus → ℤ
  | .exited code => code.toNat
  | .signaled true => coredumpFailure
  | .signaled false => 0

/-- `doExecv` in the process that calls it. -/
def doExecv (command : Text) (params dirs : List Text)
    (startIndex endIndex : ℕ) : ExecProc ℤ := do
  let forked ← ask .fork
  if forked then
    let child ← doExecvSplit command params dirs (endIndex + 1 - startIndex)
      startIndex endIndex
    let status ← childStatus child
    pure (resultOf status)
  else pure forkFailure

/-! ## Runs -/

/-- A call that was made, with its answer. -/
structure Event where
  call : Call
  answer : Answer call

/-- The size of an argument list, as the system counts it, and its limit. -/
structure System where
  size : List Text → ℕ
  limit : ℕ

/-- Below the limit there is no `E2BIG`. -/
def belowLimit : ExecAnswer → ExecAnswer
  | .tooBig => .failed
  | .ended status => .ended status
  | .failed => .failed

/-- The answer to a call, from the one offered: `execv` fails with `E2BIG`
exactly above the limit. -/
def answer (sys : System) : (c : Call) → Answer c → Answer c
  | .execv args, r =>
      if sys.limit < sys.size args then .tooBig else belowLimit r
  | _, r => r

/-- Everything is kept that happens. -/
def world (sys : System) : Proc.World (List Event) Call Answer :=
  fun events c r => (answer sys c r, events ++ [⟨c, answer sys c r⟩])

/-- The events of a run. -/
def run (sys : System) (o : Proc.Oracle Call Answer) (command : Text)
    (params dirs : List Text) (startIndex endIndex : ℕ) :
    Proc.Done (List Event) Unit ℤ :=
  Proc.exec (world sys) o 0 []
    (doExecv command params dirs startIndex endIndex)

/-- An execution of the command, with how it ended. -/
def Event.executed? : Event → Option (List Text × WaitStatus)
  | ⟨.execv args, .ended status⟩ => some (args, status)
  | _ => none

/-- The commands that were run, with how they ended. -/
def executed (events : List Event) : List (List Text × WaitStatus) :=
  events.filterMap Event.executed?

/-- A fork that failed, or an `execv` for another reason than the size. -/
def Event.hasFailed : Event → Bool
  | ⟨.fork, forked⟩ => !forked
  | ⟨.execv _, .failed⟩ => true
  | _ => false

/-- A child has come back. -/
def Event.comesBack : Event → Bool
  | ⟨.goOn, _⟩ => true
  | _ => false

/-- The lists that halving leads to. -/
def pieces (sys : System) (command : Text) (params dirs : List Text) :
    ℕ → ℕ → ℕ → List (List Text)
  | 0, _, _ => []
  | n + 1, startIndex, endIndex =>
      if sys.limit < sys.size (argvs command params dirs startIndex endIndex) then
        let middle := startIndex + (endIndex - startIndex) / 2
        pieces sys command params dirs n startIndex middle ++
          pieces sys command params dirs n (middle + 1) endIndex
      else [range dirs startIndex endIndex]

end Wms.Utilities
