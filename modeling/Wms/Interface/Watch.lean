import Wms.Interface.Start

/-!
# A start that is watched

One run of `submit`, call by call, with what the other processes and LB do
between its calls left open. With every call it is kept whether the process had
the lock just before it, for somebody else could have taken it otherwise.
-/

namespace Wms.Interface

open Wms.Lib

deriving instance DecidableEq for EventKind
deriving instance DecidableEq for Call

/-- Every entry fits what stands before it. -/
def eachFrom {α : Type} (P : List α → α → Prop) : List α → List α → Prop
  | _, [] => True
  | earlier, x :: later => P earlier x ∧ eachFrom P (earlier ++ [x]) later

/-- Each member has a property of those before it and of itself. -/
def Each {α : Type} (P : List α → α → Prop) (xs : List α) : Prop := eachFrom P [] xs

instance {α : Type} (P : List α → α → Prop) [∀ earlier x, Decidable (P earlier x)] :
    ∀ earlier xs, Decidable (eachFrom P earlier xs)
  | _, [] => isTrue trivial
  | earlier, x :: later =>
      haveI := instDecidableEachFrom P (earlier ++ [x]) later
      inferInstanceAs (Decidable (P earlier x ∧ eachFrom P (earlier ++ [x]) later))

instance {α : Type} (P : List α → α → Prop) [∀ earlier x, Decidable (P earlier x)]
    (xs : List α) : Decidable (Each P xs) :=
  inferInstanceAs (Decidable (eachFrom P [] xs))

/-- A call that has been made, and whether the process had the lock before. -/
structure Made where
  held : Bool
  call : Call
  answer : Answer call

/-- How far the run has got. -/
structure Watched where
  env : Env
  made : List Made

section

variable (p : ℕ) (meanwhile : ℕ → Env → Env)

/-- What the process finds at its next call. -/
def Watched.before (s : Watched) : Env := meanwhile s.made.length s.env

/-- The environment after a call, and the call put down. -/
def Watched.after (s : Watched) (c : Call) (r : Answer c) : Watched where
  env := effect .start p (s.before meanwhile) c r
  made := s.made ++ [⟨(s.before meanwhile).lock.holder = some p, c, r⟩]

/-- An environment that writes down what is asked of it. -/
def watchedWorld : Proc.World Watched Call Answer := fun s c r =>
  let r := answer p (s.before meanwhile) c r
  (r, s.after p meanwhile c r)

end

/-- What the others leave alone: a lock that is held, and one that is not. -/
structure Rely (p : ℕ) (env env' : Env) : Prop where
  held : ∀ fd, env.lock.HeldBy p fd → env'.lock.HeldBy p fd
  lost : env.lock.holder ≠ some p → env'.lock.holder ≠ some p

/-- The file of the lock can be opened, and LB answers. -/
def assumed : (c : Call) → Answer c → Bool
  | .queryEvents _ _, .error (.temporary _) => false
  | .queryEvents _ _, .error (.definite _) => false
  | .operationLock, .error .cannotOpen => false
  | .isOperationLocked, .error .cannotOpen => false
  | _, _ => true

/-- The contract of that environment. -/
def watchedContract (p : ℕ) (meanwhile : ℕ → Env → Env) :
    Proc.Contract Watched Call Answer where
  world := watchedWorld p meanwhile
  assume := fun s c r => assumed c (answer p (s.before meanwhile) c r) = true
  guard := fun _ _ _ => True

instance (p : ℕ) (meanwhile : ℕ → Env → Env) (s : Watched) (c : Call) (r : Answer c) :
    Decidable ((watchedContract p meanwhile).assume s c r) :=
  inferInstanceAs (Decidable (assumed c _ = true))

/-! ## What is asked of a start -/

namespace Made

/-- A lock that was granted. -/
def locks (m : Made) : Bool :=
  match m with
  | ⟨_, .operationLock, .ok _⟩ => true
  | _ => false

/-- A delivery that succeeded. -/
def delivers (m : Made) : Bool :=
  match m with
  | ⟨_, .deliver _, .ok ()⟩ => true
  | _ => false

/-- An event that says that the start has failed is in LB. -/
def failure (m : Made) : Bool :=
  match m with
  | ⟨_, .logEvent (.enQueued .fail _), .logged _⟩ => true
  | ⟨_, .logEvent (.abort _), .logged _⟩ => true
  | _ => false

end Made

/-- The lock is held from the call that has taken it on. -/
def Kept (made : List Made) : Prop :=
  Each (fun earlier m => earlier.any Made.locks = true → m.held = true) made

/-- Nothing is delivered after a failure. -/
def Undelivered (made : List Made) : Prop :=
  Each (fun earlier m => m.delivers = true → earlier.any Made.failure = false) made

/-- The lock is held to the end and not longer, and no failed job delivered. -/
structure Sound (p : ℕ) (s : Watched) : Prop where
  kept : Kept s.made
  released : s.env.lock.holder ≠ some p
  undelivered : Undelivered s.made

/-! ## Answers that do no harm -/

/-- Whether it is the exception after which `submit` goes on. -/
def Exn.isRequestAd : Exn → Bool
  | .requestAd _ => true
  | _ => false

namespace Made

/-- A log call that may be tried again. -/
def failed (m : Made) : Bool :=
  match m with
  | ⟨_, .logEvent _, .failed⟩ => true
  | ⟨_, .logNodeEvent _ _, .failed⟩ => true
  | _ => false

/-- A handler is at work. -/
def handles (m : Made) : Bool :=
  match m with
  | ⟨_, .logEvent (.enQueued .fail _), _⟩ => true
  | _ => false

/-- Whether the description that was read is that of a job. -/
def readsJob (m : Made) : Bool :=
  match m with
  | ⟨_, .getType _, .ok .job⟩ => true
  | _ => false

end Made

/-- How often a log call has just been tried in vain. -/
def tries (made : List Made) (c : Call) : ℕ :=
  (made.reverse.takeWhile fun m => decide (m.call = c) && m.failed).length

/-- The failure to log this event is caught. -/
def isCaught : EventKind → Bool
  | .enQueued .ok _ => true
  | _ => false

/-- The answer leads neither to an exception that nobody catches, nor to a look
at the lock, nor to the handler of an asynchronous start that goes on. -/
def harmless (cfg : Config) (earlier : List Made) : (c : Call) → Answer c → Bool
  | .logEvent kind, .failed =>
      isCaught kind || decide (tries earlier (.logEvent kind) < logRetryCount)
  | .logNodeEvent node kind, .failed =>
      decide (tries earlier (.logNodeEvent node kind) < logRetryCount)
  | .getType _, .error _ => false
  | .parseJob _, .error e => !(cfg.asyncJobStart && e.isRequestAd)
  | .parseDag _, .error _ => false
  | .work w, .error e =>
      w ≠ .jobDir && !earlier.any Made.handles &&
        !(cfg.asyncJobStart && earlier.any Made.readsJob && e.isRequestAd)
  | .finish _ _, .error e =>
      !(cfg.asyncJobStart && earlier.any Made.readsJob && e.isRequestAd)
  | .isOperationLocked, .ok locked => locked
  | .queryEvents _ .aborts, .ok _ => false
  | .command _, .error _ => false
  | .writeJdl _, .error _ => false
  | _, _ => true

/-- Every answer of the run was harmless. -/
def Clean (cfg : Config) (made : List Made) : Prop :=
  Each (fun earlier m => harmless cfg earlier m.call m.answer = true) made

instance (cfg : Config) (made : List Made) : Decidable (Clean cfg made) :=
  inferInstanceAs (Decidable (Each _ made))

end Wms.Interface
