import Wms.Core.WmReal

/-!
# Processing a request (`src/org.glite.wms.core/src/submit_request.cpp`)

`SubmitProcessor::operator()` for a single job: the entry checks, the stay in
limbo, the data of a resubmission, the cancel token, the pass over the job's
directory in search of a token, the token's renaming, and the delivery. The
exceptions of all of this are turned into an abort or a postponement at the
end.

The branches for a DAG and for a collection are not followed here; `other`
stands for them.
-/

namespace Wms.Core

open Wms.Lib

/-- `unrecoverable`, for what is not a collection. -/
def unrecoverable (msg : String) : WmProc Unit := do
  ask (.log (.abort msg))
  ask .unlinkCancelToken

/-- `log_pending`, unless there is no reason. -/
def logPending (reason : String) : WmProc Unit :=
  if reason ≠ "" then ask (.log (.pending reason)) else pure ()

/-- `SubmitProcessor::postpone`. -/
def postpone (cfg : Config) (reason : String) : WmProc Unit := do
  logPending reason
  let now ← ask .now
  ask (.scheduleAt (now + cfg.matchRetryPeriod))

/-- `is_request_expired`: by the attribute, or else by the configuration. -/
def isRequestExpired (cfg : Config) (jdl : Jdl) (firstProcessed now : ℤ) :
    Bool :=
  match jdl.expiryTime with
  | none => now - firstProcessed > cfg.expiryPeriod
  | some expiryTime => expiryTime < now

/-! ## The stages of a single job

A stage that may end the processing answers whether to go on. -/

/-- What becomes of a request found in limbo, or out of it. -/
def leaveOrWait (cfg : Config) (held : Bool) : WmProc Unit :=
  if held then postpone cfg " waiting in limbo"
  else ask (.storeCheckpoint .start)

/-- The stay in limbo. A request that has to wait is postponed, and goes on
all the same. -/
def limboStage (cfg : Config) (checkpoint : Checkpoint) : WmProc Bool :=
  if checkpoint = .limbo then
    Proc.tryCatch
      (do
        let status ← jobStatus
        let events ← getRecoveryEvents
        leaveOrWait cfg (inLimbo status events)
        pure true)
      (fun e =>
        match e with
        | .lbQueryFailed => pure false
        | e => .throw e)
  else pure true

/-- What a resubmission takes from the LB. -/
structure LbInfo where
  deepCount : ℤ
  shallowCount : ℤ
  previousMatches : List (String × ℤ)
  previousMatchesSimple : List String

/-- What the L&B says about the earlier attempts. -/
def retrieveLbInfo (cfg : Config) : WmProc LbInfo := do
  let events ← getInterestingEvents
  let previousMatches := getPreviousMatches cfg events
  let retries := getRetryCounts events
  pure
    { deepCount := retries.1
      shallowCount := retries.2
      previousMatches := previousMatches
      previousMatchesSimple := previousMatches.map (·.1) }

/-- A resubmission restores the original description. -/
def resubmitStage (cfg : Config) : WmProc (LbInfo × Jdl) := do
  let info ← retrieveLbInfo cfg
  let jobAdStr ← getOriginalJdl
  match jobAdStr with
  | .empty => .throw .cannotRetrieveJDL
  | .unparsable what => .throw (.std what)
  | .ad jobAd =>
      let ad : Jdl :=
        { jobAd with
          previousMatches := info.previousMatchesSimple
          previousMatchesEx := info.previousMatches }
      ask (.storeAd ad)
      pure (info, ad)

/-- The pass over the directory. -/
def scanTokens (cfg : Config) : Option Text → List Text → WmProc (Option Text) :=
  scanTokensWith cfg fun leaf =>
    unrecoverable (pathOf cfg leaf ++
      ": at least two shallow resubmit tokens are present at the same time!")

/-- The number in the name of the token, if there is one, and the description
that carries it. -/
def replansStage (cfg : Config) (ad : Jdl) (lastTokenFile : Option Text) :
    WmProc (ℤ × Jdl) :=
  match lastTokenFile with
  | none => pure (0, ad)
  | some leaf =>
      match cfg.lexicalCastFloat (afterLastUnderscore leaf) with
      | none => .throw (.std "bad lexical cast")
      | some replansCount => do
          let ad : Jdl := { ad with replansCount := some replansCount }
          ask (.storeAd ad)
          pure (replansCount, ad)

/-- The token of a job that is submitted again; the retry counts are those
of a resubmission. -/
def resubmitTokenStage (cfg : Config) (ad : Jdl) (tokenFile : Text) :
    Option LbInfo → WmProc Unit
  | none => pure ()
  | some info => do
  if shallowResubmissionIsEnabled ad then
    let res ← ask (.rename tokenFile (tokenTmpFile tokenFile))
    if res.failed && res.errno ≠ .enoent then
      .throw .cannotCreateToken
    else if ← ask (.existsFile (tokenTmpFile tokenFile)) then
      Proc.ofExcept (checkShallowCount cfg ad info.shallowCount)
      ask (.log (.resubmission .shallow "token still exists"
        (fullPath cfg tokenFile)))
    else
      Proc.ofExcept (checkDeepCount cfg ad info.deepCount)
      ask (.log (.resubmission .willResub "token was grabbed"
        (fullPath cfg tokenFile)))
      createToken (tokenTmpFile tokenFile)
  else
    Proc.ofExcept (checkDeepCount cfg ad info.deepCount)
    ask (.log (.resubmission .willResub "shallow resubmission is disabled" []))

/-- What a submission does about its token: a reschedule finds it in place, a
first submission creates it, and a request that another one has overtaken is
dropped. -/
inductive SubmitCase where
  | reschedule
  | dropped
  | first
  deriving DecidableEq, Repr

/-- What a request is, by the count of its JDL and the number of its token. -/
def submitCase (ad : Jdl) (replansCount : ℤ) : SubmitCase :=
  let jdlReplansCount := ad.replansCount.getD 0
  if jdlReplansCount > 0 && replansCount = jdlReplansCount then .reschedule
  else if jdlReplansCount > 0 && replansCount > jdlReplansCount then .dropped
  else .first

/-- A first token is made where shallow resubmission is possible. -/
def firstTokenStage (ad : Jdl) (tokenFile : Text) : WmProc Unit := do
  if shallowResubmissionIsEnabled ad then
    if !(← ask (.existsFile (tokenTmpFile tokenFile))) then
      createToken (tokenTmpFile tokenFile)

/-- The token gets its name, unless the replanner has given it already. -/
def renameTokenStage (ad : Jdl) (tokenFile : Text) (isReplan : Bool) :
    WmProc Unit := do
  if !isReplan && shallowResubmissionIsEnabled ad then
    let res ← ask (.rename (tokenTmpFile tokenFile) tokenFile)
    if res.failed then
      .throw .cannotCreateToken

/-- The file with the exit code, which is removed before a new attempt. -/
def maradona : Text :=
  ['M', 'a', 'r', 'a', 'd', 'o', 'n', 'a', '.', 'o', 'u', 't', 'p', 'u', 't']

/-- From the token's renaming on. -/
def deliverStage (cfg : Config) (ad : Jdl) (tokenFile : Text)
    (isReplan : Bool) : WmProc Unit := do
  renameTokenStage ad tokenFile isReplan
  ask (.unlink maradona)
  submit cfg ad isReplan

/-- The token stages, once the directory has been read. -/
def tokenStages (cfg : Config) (command : Command) (ad : Jdl)
    (info : Option LbInfo) (replansCount : ℤ) : WmProc Unit := do
  let tokenFile := getReallyrunningToken cfg replansCount
  resubmitTokenStage cfg ad tokenFile info
  if command = .jobsubmit then
    match submitCase ad replansCount with
    | .reschedule => deliverStage cfg ad tokenFile true
    | .dropped => pure ()
    | .first =>
        firstTokenStage ad tokenFile
        deliverStage cfg ad tokenFile false
  else deliverStage cfg ad tokenFile false

/-- From the cancel token on. -/
def sandboxStages (cfg : Config) (command : Command) (ad : Jdl)
    (info : Option LbInfo) : WmProc Unit := do
  if ← ask (.existsCancelToken .processor) then
    ask (.log .cancel)
    ask (.log (.done .cancelled))
    ask .purge
  else
    let listing ← ask .listSandbox
    let lastTokenFile ← scanTokens cfg none listing.leaves
    match listing.error with
    | some _ => pure ()
    | none =>
        let (replansCount, ad) ← replansStage cfg ad lastTokenFile
        tokenStages cfg command ad info replansCount

/-- What follows the stay in limbo. -/
def afterLimbo (cfg : Config) (state : SubmitState) : WmProc Unit :=
  if state.command = .jobresubmit then do
    let (info, ad) ← resubmitStage cfg
    sandboxStages cfg state.command ad (some info)
  else sandboxStages cfg state.command state.ad none

/-- `SubmitProcessor::operator()` for a single job, inside the try block. -/
def singleJob (cfg : Config) (state : SubmitState) : WmProc Unit := do
  if ← limboStage cfg state.lastCheckpointing then afterLimbo cfg state

/-! ## The whole processor -/

/-- The handlers, in the order of the source. -/
def handle (cfg : Config) : Exn → WmProc Unit
  | .invalidArgument what => unrecoverable what
  | .manipulation what => unrecoverable what
  | .exception what => unrecoverable what
  | .lbQueryFailed => unrecoverable " failed (LB query failed)"
  | .lbQueryTemporarilyFailed => postpone cfg "LB query temporarily failed"
  | .hitMaxRetryCount n =>
      unrecoverable ("hit max retry count (" ++ toString n ++ ")")
  | .hitJobRetryCount n =>
      unrecoverable ("hit job retry count (" ++ toString n ++ ")")
  | .hitMaxShallowCount n =>
      unrecoverable ("hit shallow max retry count (" ++ toString n ++ ")")
  | .hitJobShallowCount n =>
      unrecoverable ("hit job shallow retry count (" ++ toString n ++ ")")
  | .cannotRetrieveJDL => postpone cfg "cannot retrieve jdl"
  | .helperError what => postpone cfg what
  | .cannotCreateToken =>
      postpone cfg "cannot create token for shallow resubmission"
  | .cannotDeliverFatal => unrecoverable " cannot deliver request"
  | .cannotCreateLBContext what => unrecoverable (what ++ ": ignoring request")
  | .std what => unrecoverable what
  | .unknown =>
      unrecoverable "unknown exception caught handling submit request"

/-- The checks at the entry: whether to go on. -/
def entryChecks (cfg : Config) (state : SubmitState) : WmProc Bool := do
  match ← ask .proxyExpired with
  | .error (.missingProxy what) =>
      unrecoverable ("X509 proxy not found or I/O error (" ++ what ++ ")")
      pure false
  | .error (.invalidProxy what) =>
      unrecoverable ("invalid X509 proxy (" ++ what ++ ")")
      pure false
  | .ok true =>
      unrecoverable "proxy expired"
      pure false
  | .ok false =>
      if isRequestExpired cfg state.ad state.createdAt (← ask .now) then
        unrecoverable "request expired"
        pure false
      else pure true

/-- `SubmitProcessor::operator()`; `other` is done with what is no single
job. -/
def submitProcessor (cfg : Config) (other : JobType → WmProc Unit) :
    WmProc Unit := do
  let state ← ask .load
  if ← entryChecks cfg state then
    Proc.tryCatch
      (match jobType state.ad with
        | .single => singleJob cfg state
        | kind => other kind)
      (handle cfg)

end Wms.Core
