import Wms.Interface.Start
import Wms.Lib.Transcript

/-!
# A start after a failed start

One process at a time: a start runs to its end, with whatever outcome each of
its calls has, and a later start finds what it has left. The two meet in the
events, in the directory, in the lock and in the description, which has one
name before the start and another one after it.

A start has failed when the last event WMProxy has logged is a failed
enqueuing. Such a start may be repeated by permission of the events; whether
the description is still to be found is decided elsewhere. What decides it is
stated on the outcomes of the calls of the first start, `Unbroken`.
-/

namespace Wms.Interface

open Wms.Lib

/-- The answer given while no other process moves. The lock of another one is
never granted then: the wait for it ends by a signal. -/
def given (p : ℕ) (env : Env) : (c : Call) → Answer c → Answer c
  | .operationLock, r =>
      if enabled p env .operationLock r then answer p env .operationLock r
      else .error .cannotLock
  | .operationUnlock fd, cut =>
      cut || !enabled p env (.operationUnlock fd) cut
  | c, r => answer p env c r

/-- The environment of a process that is alone. -/
def world (request : Request) (p : ℕ) : Proc.World Env Call Answer :=
  fun env c r => (given p env c r, effect request p env c (given p env c r))

variable (cfg : Config)

/-- What a start leaves, from the outcomes offered to its calls. -/
def started (p : ℕ) (o : Proc.Oracle Call Answer) (env : Env) : Env :=
  (Proc.exec (world .start p) o 0 env (jobStart cfg)).state

/-- The calls of a start, each with its outcome. -/
def outcomes (p : ℕ) (o : Proc.Oracle Call Answer) (env : Env) :
    Proc.Transcript Call Answer :=
  Proc.transcript (world .start p) o 0 env (jobStart cfg)

/-! ## Failed starts -/

/-- The last event of the network server is a failed enqueuing. -/
def lastFail (history : List Entry) : Bool :=
  ((found history .networkServer).getLast?.map isEnqueuedFail).getD false

/-- A start whose delivery failed, and that has not been aborted. -/
def endsFailed (history : List Entry) : Bool :=
  lastFail history && (found history .aborts).isEmpty

/-- LB gives every event a code. -/
def Coded (o : Proc.Oracle Call Answer) : Prop :=
  ∀ n kind seqcode, o n (.logEvent kind) = .logged seqcode → seqcode ≠ ""

/-! ## Successful calls -/

/-- Whether a sandbox has no more files than it may. -/
def withinLimit (limit : ℤ) : Option ℕ → Bool
  | none => true
  | some size => !(limit > 0 && (size : ℤ) > limit)

/-- The description is one that may be submitted. -/
def acceptsJob (jad : JobAd) : Bool :=
  withinLimit cfg.maxInputSandboxFiles jad.inputSandbox &&
    withinLimit cfg.maxOutputSandboxFiles jad.outputDestinations &&
    jad.jobType ≠ .checkpointable

/-- Whether both sandboxes of a node are within their limits. -/
def acceptsNode (dag : DagAd) (node : NodeAd) : Bool :=
  withinLimit cfg.maxInputSandboxFiles (inheritedSandbox dag node) &&
    withinLimit cfg.maxInputSandboxFiles node.inputSandbox &&
    withinLimit cfg.maxOutputSandboxFiles node.outputDestinations &&
    node.jobType ≠ .checkpointable

/-- Whether all nodes are. -/
def acceptsDag (dag : DagAd) : Bool := dag.nodes.all (acceptsNode cfg dag)

/-- Whether a call did not fail. -/
def isOk {ε α : Type} : Except ε α → Bool
  | .ok _ => true
  | .error _ => false

/-- A query succeeds with what there is, which may be nothing. -/
def queried : Except QueryError (List Event) → Bool
  | .error (.temporary _) => false
  | .error (.definite _) => false
  | _ => true

/-- Whether an event reached the L&B. -/
def wasLogged : LogResult → Bool
  | .logged _ => true
  | _ => false

/-- A call that succeeds, the checks of the description among them. -/
def succeeds : (c : Call) → Answer c → Bool
  | .work _, r => isOk r
  | .authorize, r => isOk r
  | .drained, .ok drained => !drained
  | .drained, .error _ => false
  | .existsFile _, _ => true
  | .readJdl, r => isOk r
  | .jdlSequenceCode, r => isOk r
  | .reply, failed => !failed
  | .sendFault, _ => true
  | .queryEvents _ _, r => queried r
  | .logEvent _, r => wasLogged r
  | .logNodeEvent _ _, r => wasLogged r
  | .setSequenceCode _, r => isOk r
  | .incrementSequenceCode, r => isOk r
  | .getSequence, _ => true
  | .operationLock, r => isOk r
  | .operationUnlock _, _ => true
  | .isOperationLocked, r => isOk r
  | .jobStatus, r => isOk r
  | .doPurge _ _, r => isOk r
  | .getType _, r => isOk r
  | .parseJob _, .ok jad => acceptsJob cfg jad
  | .parseJob _, .error _ => false
  | .parseDag _, .ok dag => acceptsDag cfg dag
  | .parseDag _, .error _ => false
  | .finish _ _, r => isOk r
  | .command _, r => isOk r
  | .deliver _, r => isOk r
  | .forwardCancel _, r => isOk r
  | .writeJdl _, r => isOk r
  | .renameJdl, renamed => renamed

/-- Every call has succeeded. -/
def AllSucceed (t : Proc.Transcript Call Answer) : Prop :=
  ∀ x ∈ t, succeeds cfg x.1 x.2 = true

/-! ## What a repetition needs -/

/-- How often the job was delivered. -/
def deliveries (env : Env) : ℕ := env.history.countP isDelivery

/-- The events allow a start to this process, now. -/
def isAllowed (p : ℕ) (o : Proc.Oracle Call Answer) (env : Env) : Prop :=
  ∃ seqcode event,
    (Proc.exec (world .start p) o 0 env (isStartAllowed cfg)).result =
      .ok (seqcode, event) ∧ seqcode ≠ ""

/-- After a start that failed, one in which all calls succeed is allowed and
delivers, once. A description of which nothing was delivered has kept its
name. -/
structure Repeatable (env : Env) : Prop where
  allowed : endsFailed env.history = true →
    ∀ (p : ℕ) (o : Proc.Oracle Call Answer),
      AllSucceed cfg
          (Proc.transcript (world .start p) o 0 env (isStartAllowed cfg)) →
        isAllowed cfg p o env
  again : endsFailed env.history = true →
    ∀ (p : ℕ) (o : Proc.Oracle Call Answer),
      AllSucceed cfg (outcomes cfg p o env) →
        deliveries (started cfg p o env) = deliveries env + 1
  unmoved : deliveries env = 0 → .moved ∉ env.history

/-! ## The outcomes that matter -/

/-- The events LB has taken in a run, in their order. -/
def taken (t : Proc.Transcript Call Answer) : List EventKind :=
  t.filterMap fun
    | ⟨.logEvent kind, .logged _⟩ => some kind
    | _ => none

/-- The description cannot be written, or it cannot be renamed. -/
def isRefused : (Σ c, Answer c) → Bool
  | ⟨.writeJdl _, .error _⟩ => true
  | ⟨.renameJdl, false⟩ => true
  | _ => false

end Wms.Interface
