import Wms.Core.SubmissionUtils

/-!
# Delivery (`src/org.glite.wms.core/src/wm_real.cpp`)

`WMReal::submit` plans a job and passes it on to the next component: to ICE
if the computing element is a CREAM one, to the job controller otherwise.
-/

namespace Wms.Core

open Wms.Lib

/-- The suffixes of a text, the longest first. -/
def suffixes : Text → List Text
  | [] => [[]]
  | c :: cs => (c :: cs) :: suffixes cs

/-- A full match of `.+/cream-.+`. -/
def isCreamCe (ceId : Text) : Bool :=
  let infix_ : Text := ['/', 'c', 'r', 'e', 'a', 'm', '-']
  (suffixes (ceId.drop 1)).any fun rest =>
    infix_.isPrefixOf rest && !(rest.drop infix_.length).isEmpty

/-- The request that goes to ICE or to the job controller. -/
def submitCommandCreate (jobAd : Planned) (isReplan : Bool) : Request where
  command := if isReplan then "Reschedule" else "Submit"
  jobAd := jobAd

/-- Where requests for each of them are put. -/
def Output.input (cfg : Config) : Output → String
  | .ice => cfg.iceInput
  | .jc => cfg.jcInput

/-- The text of a command, which has none of the attributes of a job
description at its top level. -/
def commandText (_ : Request) : JobText := .ad {}

/-- What is left of a job that was cancelled goes. -/
def purgeCancelled : WmProc Unit := do
  ask (.log .cancel)
  ask .unlinkCancelToken
  ask .purge

/-- The host of the computing element is logged, where it has one. -/
def logCeinfoHost (cfg : Config) (ceinfoHostName : String) : WmProc Unit :=
  if ceinfoHostName ≠ "" then
    ask (.log (.userTag cfg.ceInfoHost ceinfoHostName))
  else pure ()

/-- The last look for a cancel token, if the job of the context is known. -/
def cancelledMeanwhile : WmProc Bool := do
  if ← ask .loggingJob then ask (.existsCancelToken .delivery)
  else pure false

/-- The delivery and the event that says how it went. -/
def passOn (dest : Output) (cmd : Request) (output : String) : WmProc Unit := do
  match ← ask (.deliver dest cmd) with
  | .ok () => ask (.log (.enQueued .ok output (commandText cmd) ""))
  | .error error =>
      ask (.log (.enQueued .fail output (commandText cmd) error))
      .throw .cannotDeliverFatal

/-- `WMReal::submit` from the planned ad on. -/
def submitPlanned (cfg : Config) (plannedAd : Planned) (isReplan : Bool) :
    WmProc Unit := do
  ask (.log (.match_ plannedAd.ceId))
  logCeinfoHost cfg plannedAd.ceinfoHostName
  let dest := if isCreamCe plannedAd.ceId then Output.ice else Output.jc
  let output := dest.input cfg
  ask (.log (.enQueued .start output .empty ""))
  let sequenceCode ← ask .lbSequenceCode
  let cmd := submitCommandCreate
    { plannedAd with lbSequenceCode := sequenceCode } isReplan
  if ← cancelledMeanwhile then
    -- right before passing on to the next component in the submission chain
    purgeCancelled
  else passOn dest cmd output

/-- `WMReal::submit`: the helpers of the planner may need a more recent
sequence code than the one received. -/
def submit (cfg : Config) (jdl : Jdl) (isReplan : Bool) : WmProc Unit := do
  let sequenceCode ← ask .lbSequenceCode
  let planned ← ask (.plan { jdl with lbSequenceCode := sequenceCode })
  let plannedAd ← Proc.ofExcept planned
  submitPlanned cfg plannedAd isReplan

end Wms.Core
