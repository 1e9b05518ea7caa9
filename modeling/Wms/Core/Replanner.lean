import Wms.Core.WmReal

/-!
# The replanner (`src/org.glite.wms.core/src/replanner.cpp`)

`Replan::operator()` for one job: whether it can be replanned, the renaming of
its token to the next number, and the request for a new submission, which
carries that number.

The error number of a renaming is looked at whether it failed or not, so one
that succeeds after an earlier ENOENT counts as a token that was not there.
-/

namespace Wms.Core

open Wms.Lib

/-- The `unrecoverable` of the replanner, which leaves the cancel token. -/
def replanUnrecoverable (msg : String) : WmProc Unit := ask (.log (.abort msg))

/-- The original description; every exception is caught. -/
def replanDescription : WmProc (Option Jdl) :=
  Proc.tryCatch
    (do
      match ← getOriginalJdl with
      | .ad jdl => pure (some jdl)
      | _ => pure none)
    (fun _ => pure none)

/-- The description with the sequence code of a new context, if the job is one
to be replanned. -/
def replanCandidate : WmProc (Option Jdl) := do
  match ← replanDescription with
  | none => pure none
  | some jobAd =>
      if !jobAd.enableWmsFeedback then pure none
      else if !shallowResubmissionIsEnabled jobAd then pure none
      else
        match ← ask .createContext with
        | .error _ => pure none
        | .ok () =>
            let sequenceCode ← ask .lbSequenceCode
            let ceid ← getLastMatchedCeid
            pure (if isCreamCe ceid then
              some { jobAd with lbSequenceCode := sequenceCode } else none)

/-- The pass over the directory. -/
def replanScan (cfg : Config) : Option Text → List Text → WmProc (Option Text) :=
  scanTokensWith cfg fun leaf =>
    replanUnrecoverable (pathOf cfg leaf ++
      ": two shallow resubmit tokens are present at the same time!")

/-- The token and its number, if there is one with a number. -/
def replanToken (cfg : Config) : WmProc (Option (Text × ℤ)) := do
  let listing ← ask .listSandbox
  let found ← replanScan cfg none listing.leaves
  match listing.error with
  | some _ => pure none
  | none =>
      pure (found.bind fun tokenFile =>
        (cfg.lexicalCastFloat (afterLastUnderscore tokenFile)).bind
          fun tokenNum =>
            if tokenNum ≥ 0 then some (tokenFile, tokenNum) else none)

/-- The token gets the next number; whether the replanning goes on. -/
def moveToken (tokenFile : Text) (tokenNum : ℤ) : WmProc Bool := do
  let tokenFilePlusOne :=
    uptoLastUnderscore tokenFile ++ lexicalCastInt (tokenNum + 1)
  let res ← ask (.rename tokenFile tokenFilePlusOne)
  pure (!(res.failed && res.errno ≠ .enoent) && res.errno ≠ .enoent)

/-- The limit on the number of replannings, which does not stop one. -/
def checkReplans (cfg : Config) (tokenFile : Text) (tokenNum : ℤ) :
    WmProc Unit :=
  if tokenNum ≥ cfg.maxReplansCount then do
    -- so that the job will stop anyway
    ask (.unlink tokenFile)
    replanUnrecoverable "hit max number of replans"
  else pure ()

/-- Up to the first event: the description to submit anew, if it comes to
that. The job directory of the manager may not be there. -/
def replanPrepared (cfg : Config) : WmProc (Option Jdl) := do
  match ← replanCandidate with
  | none => pure none
  | some jobAd =>
      match ← replanToken cfg with
      | none => pure none
      | some (tokenFile, tokenNum) =>
          if ← moveToken tokenFile tokenNum then
            checkReplans cfg tokenFile tokenNum
            match ← ask .openWmInput with
            | .error what => .throw (.std what)
            | .ok () =>
                pure (some { jobAd with replansCount := some (tokenNum + 1) })
          else pure none

/-- The events of a replanning, and its request. -/
def requestReplan (cfg : Config) (jobAd : Jdl) : WmProc Unit := do
  ask (.log (.resubmission .shallow "token still exists"
    "job will be replanned".toList))
  ask (.log (.enQueued .start cfg.wmInput .empty ""))
  match ← ask (.deliverToWm jobAd) with
  | .error _ =>
      ask (.log (.enQueued .fail cfg.wmInput (.ad {})
        "cannot write in WM input"))
  | .ok () => ask (.log (.enQueued .ok cfg.wmInput (.ad {}) ""))

/-- `Replan::operator()`. -/
def replan (cfg : Config) : WmProc Unit := do
  match ← replanPrepared cfg with
  | none => pure ()
  | some jobAd => requestReplan cfg jobAd

end Wms.Core
