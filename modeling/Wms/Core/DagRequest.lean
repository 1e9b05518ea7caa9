import Mathlib.Logic.Function.Basic
import Wms.Core.LbUtils

/-!
# One pass over a DAG (`src/org.glite.wms.core/src/submit_request.cpp`)

The branch of `SubmitProcessor` for a DAG, from the point where the request has
passed its first checks. The vertices are in the order in which the graph gives
them, and every vertex has a colour that starts as white.
-/

namespace Wms.Core.Dag

open Wms.Lib

/-- The DAG of a job, as the classes of the library give it. -/
structure Graph (V : Type) where
  vertices : List V
  /-- The sources of the edges into a vertex, in their order. -/
  parents : V → List V
  nodup : vertices.Nodup
  mem_vertices : ∀ v ∈ vertices, ∀ p ∈ parents v, p ∈ vertices

/-- Where a node is: waiting, under way, or done and why. -/
inductive Color where
  | white
  | gray
  | green
  | red
  deriving DecidableEq, Repr

/-- What the processor asks of the L&B and of the manager. -/
inductive Call (V : Type) where
  | logManaged
  | nodeStatus (v : V)
  | recoveryEvents (v : V)
  | createContext (v : V)
  | queue (v : V)
  | abortNode (v : V)
  | scheduleAgain
  | storeCheckpoint
  | logDoneOk
  | logAbort
  | unrecoverable (what : String)
  deriving DecidableEq

/-- What each call answers. -/
@[reducible] def Answer {V : Type} : Call V → Type
  | .nodeStatus _ => Option JobState
  | .recoveryEvents _ => Except Errno (List LbEvent)
  | .createContext _ => Except String Unit
  | .logManaged => Unit
  | .queue _ => Unit
  | .abortNode _ => Unit
  | .scheduleAgain => Unit
  | .storeCheckpoint => Unit
  | .logDoneOk => Unit
  | .logAbort => Unit
  | .unrecoverable _ => Unit

/-- A status that could not be had is looked into for a debug message. -/
inductive Fault where
  | nullStatus
  | cannotCreateLBContext (what : String)
  deriving DecidableEq, Repr

/-- A program of the processor. -/
abbrev DagProc (V α : Type) := Proc (Call V) Answer Fault α

variable {V : Type} [DecidableEq V]

/-- One call. -/
def ask (c : Call V) : DagProc V (Answer c) := Proc.perform c

/-- The color of each node, which lives as long as the processor. -/
abbrev Colors (V : Type) := V → Color

/-- The first loop. `none` is the early return. -/
def assess : List V → Colors V → DagProc V (Option (Colors V))
  | [], colors => pure (some colors)
  | v :: rest, colors => do
      match ← ask (.nodeStatus v) with
      | none => .throw .nullStatus
      | some .aborted => assess rest (Function.update colors v .red)
      | some .cancelled => assess rest (Function.update colors v .red)
      | some .done => do
          match queryResult false (← ask (.recoveryEvents v)) with
          | .ok events =>
              assess rest (Function.update colors v
                (if isLastDone events .ok then .green else .gray))
          | .error .lbQueryTemporarilyFailed => do
              ask .scheduleAgain
              assess rest colors
          | .error _ => pure none
      | some .submitted => assess rest (Function.update colors v .white)
      | some _ => assess rest (Function.update colors v .gray)

/-- The loop over the edges into a vertex: `none` where a parent is red, and
otherwise whether all are green. -/
def precedingJobs (colors : Colors V) : List V → Bool → Option Bool
  | [], preceding => some preceding
  | p :: ps, preceding =>
      match colors p with
      | .red => none
      | .white => precedingJobs colors ps false
      | .gray => precedingJobs colors ps false
      | .green => precedingJobs colors ps preceding

/-- `queue_new_submit_request`, and whether it came through. -/
def queueNewSubmitRequest (v : V) : DagProc V Bool := do
  match ← ask (.createContext v) with
  | .ok _ => do
      ask (.queue v)
      pure true
  | .error _ => pure false

/-- The second loop, with the colours and whether the DAG is completed. -/
def planNodes (g : Graph V) : List V → Colors V → Bool →
    DagProc V (Colors V × Bool)
  | [], colors, completed => pure (colors, completed)
  | v :: rest, colors, completed =>
      match colors v with
      | .gray => planNodes g rest colors false
      | .white =>
          if g.parents v = [] then do
            if ← queueNewSubmitRequest v then
              planNodes g rest (Function.update colors v .gray) false
            else planNodes g rest (Function.update colors v .red) false
          else
            match precedingJobs colors (g.parents v) true with
            | none => do
                match ← ask (.createContext v) with
                | .ok _ => do
                    ask (.abortNode v)
                    planNodes g rest (Function.update colors v .red) false
                | .error what => .throw (.cannotCreateLBContext what)
            | some true => do
                if ← queueNewSubmitRequest v then planNodes g rest colors false
                else planNodes g rest (Function.update colors v .red) false
            | some false => planNodes g rest colors false
      | _ => planNodes g rest colors completed

/-- The end of a pass. -/
def finish (g : Graph V) (colors : Colors V) (completed : Bool) :
    DagProc V Unit :=
  if completed then
    if g.vertices.all (colors · = .green) then ask .logDoneOk else ask .logAbort
  else do
    ask .scheduleAgain
    ask .storeCheckpoint

/-- One pass of the processor over the DAG. -/
def dagStages (g : Graph V) (checkpoint : Checkpoint) : DagProc V Unit := do
  if checkpoint = .start then ask .logManaged
  match ← assess g.vertices fun _ => .white with
  | none => pure ()
  | some colors => do
      let (colors, completed) ← planNodes g g.vertices colors true
      finish g colors completed

/-- A null status is past any handler. -/
def dagPass (g : Graph V) (checkpoint : Checkpoint) : DagProc V Unit :=
  Proc.tryCatch (dagStages g checkpoint) fun
    | .cannotCreateLBContext what =>
        ask (.unrecoverable (what ++ ": ignoring request"))
    | e => .throw e

end Wms.Core.Dag
