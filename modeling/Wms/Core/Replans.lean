import Wms.Core.Sandbox

/-!
# The replannings of one job

One look of the replanner after the other at the directory of one job, with
nobody else at the token. What is answered to all other calls is left open,
anew at every look, the LB's answers included.

A look leaves behind what it did: the requests it has delivered, the aborts it
has logged and the renamings it has tried.
-/

namespace Wms.Core.Replans

open Wms.Lib Wms.Core

/-- What became of a token, as `replan` takes it from the outcome of the
renaming. -/
inductive RenameOutcome where
  | skipped
  | reallyRunning
  | moved
  deriving DecidableEq, Repr

/-- What is done next, by the error of the call. -/
def renameOutcome (res : Renamed) : RenameOutcome :=
  if res.failed && res.errno ≠ .enoent then .skipped
  else if res.errno = .enoent then .reallyRunning
  else .moved

/-- What a look of the replanner leaves behind. -/
structure Look where
  dir : List Text
  requests : List Jdl
  aborts : ℕ
  renames : List (Text × Renamed)

/-- The directory answers the calls about tokens, and all else is answered at will. -/
def answer (k : Look) : (c : Call) → Answer c → Answer c
  | .listSandbox, r => Sandbox.listed k.dir r
  | .rename old _, r => Sandbox.renamed k.dir old r
  | _, r => r

/-- What each call changes. -/
def effect (k : Look) : (c : Call) → Answer c → Look
  | .log (.abort _), _ => { k with aborts := k.aborts + 1 }
  | .rename old new, r =>
      { k with
        dir := if r.failed then k.dir
          else Sandbox.place new (k.dir.erase old)
        renames := k.renames ++ [(old, r)] }
  | .unlink leaf, _ => { k with dir := k.dir.erase leaf }
  | .deliverToWm ad, .ok () => { k with requests := k.requests ++ [ad] }
  | _, _ => k

/-- The directory as the world of a look. -/
def lookWorld : Proc.World Look Call Answer := fun k c r =>
  (answer k c r, effect k c (answer k c r))

variable (cfg : Config)

/-- A look at a directory, to its end. -/
def look (o : Proc.Oracle Call Answer) (dir : List Text) : Look :=
  (Proc.exec lookWorld o 0 ⟨dir, [], 0, []⟩ (replan cfg)).state

/-- The directory, and the requests delivered so far. -/
structure Job where
  dir : List Text
  requests : List Jdl

/-- One look at a job. -/
def next (job : Job) (o : Proc.Oracle Call Answer) : Option Job :=
  some ⟨(look cfg o job.dir).dir, job.requests ++ (look cfg o job.dir).requests⟩

/-- The number in the name of a token. -/
def numberOf (leaf : Text) : Option ℤ :=
  cfg.lexicalCastFloat (afterLastUnderscore leaf)

/-- What a look at a directory must come to: at the limit an abort, no request
and no token; no request from two tokens; and a job is taken for running only
where there was no file to rename. -/
structure Stops (dir : List Text) (k : Look) : Prop where
  atLimit : ∀ leaf res n, (leaf, res) ∈ k.renames →
    renameOutcome res = .moved → numberOf cfg leaf = some n →
    cfg.maxReplansCount ≤ n →
    0 < k.aborts ∧ k.requests = [] ∧ Sandbox.tokens cfg k.dir = []
  twoTokens : 2 ≤ (Sandbox.tokens cfg dir).length → k.requests = []
  running : ∀ leaf res, (leaf, res) ∈ k.renames →
    renameOutcome res = .reallyRunning →
    res.failed = true ∧ res.errno = .enoent

/-! ## Looks that go well -/

/-- The name with the next number. -/
def plusOne (leaf : Text) (n : ℤ) : Text :=
  uptoLastUnderscore leaf ++ lexicalCastInt (n + 1)

/-- By the answers about the job it is one to be replanned; a look at any other
job ends before it comes to the tokens. -/
def isCandidate (dir : List Text) (o : Proc.Oracle Call Answer) : Bool :=
  match (Proc.exec lookWorld o 0 ⟨dir, [], 0, []⟩ replanCandidate).result with
  | .ok (some _) => true
  | _ => false

/-- There is one token at most, with a number below the limit, which a float
holds. -/
def belowLimit (dir : List Text) : Bool :=
  match Sandbox.tokens cfg dir with
  | [] => true
  | [leaf] =>
      (numberOf cfg leaf).all fun n =>
        n < 0 || (n < cfg.maxReplansCount && n < Sandbox.maxExact)
  | _ => false

/-- No token of the directory is given the next number with ENOENT left over
from an earlier call. -/
def freshErrno (dir : List Text) (o : Proc.Oracle Call Answer) : Prop :=
  ∀ i, ∀ leaf ∈ Sandbox.tokens cfg dir, ∀ n, numberOf cfg leaf = some n →
    (o i (.rename leaf (plusOne leaf n))).errno ≠ .enoent

/-- The condition for a replanning that stops. -/
def ordinary (job : Job) (o : Proc.Oracle Call Answer) : Prop :=
  isCandidate job.dir o = true →
    belowLimit cfg job.dir = true ∧ freshErrno cfg job.dir o

end Wms.Core.Replans
