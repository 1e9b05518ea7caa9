import Wms.Lib.CString

/-!
# The jobs of ICE (`src/org.glite.wms.ice/src/iceUtils/CreamJob.h`)

A job has 32 fields, which are the columns of the table `jobs`, and for each
of them a flag that says whether it has changed since the job was last
written. A job built from a request has all flags up. A job read from the
table has none.
-/

namespace Wms.Ice

open Wms.Lib

abbrev Text := List Char

/-- `job_statuses`, in the order of their codes. -/
inductive JobStatus where
  | registered
  | pending
  | idle
  | running
  | reallyRunning
  | cancelled
  | held
  | doneOk
  | doneFailed
  | purged
  | aborted
  | unknown
  deriving DecidableEq, Repr

/-- A row of the table `jobs`; the defaults are those of the constructor. -/
structure JobRow where
  gridJobid : Text := []
  creamJobid : Text := []
  completeCreamJobid : Text := []
  jdl : Text := []
  ceid : Text := []
  endpoint : Text := []
  creamAddress : Text := []
  creamDelegAddress : Text := []
  userProxyfile : Text := []
  userDn : Text := []
  sequenceCode : Text := []
  delegationId : Text := []
  wnSequenceCode : Text := []
  prevStatus : JobStatus := .unknown
  status : JobStatus := .unknown
  numLoggedStatusChanges : ℕ := 0
  lastSeen : ℤ := 0
  leaseId : Text := []
  statusPollRetryCount : ℕ := 0
  exitCode : ℕ := 0
  failureReason : Text := []
  workerNode : Text := []
  killedByice : Bool := false
  lastEmptyNotificationTime : ℤ := 0
  proxyRenewable : Bool := false
  myproxyAddress : Text := []
  isbproxyTimeEnd : ℤ := 0
  modifiedJdl : Text := []
  lastPollerVisited : ℤ := 0
  creamDbid : ℕ := 0
  tokenFile : Text := []
  cancelSequenceCode : Text := []
  deriving DecidableEq

/-- The columns whose changes are remembered. -/
inductive Field where
  | gridJobid
  | creamJobid
  | completeCreamJobid
  | jdl
  | ceid
  | endpoint
  | creamAddress
  | creamDelegAddress
  | userProxyfile
  | userDn
  | sequenceCode
  | delegationId
  | wnSequenceCode
  | prevStatus
  | status
  | numLoggedStatusChanges
  | lastSeen
  | leaseId
  | statusPollRetryCount
  | exitCode
  | failureReason
  | workerNode
  | killedByice
  | lastEmptyNotificationTime
  | proxyRenewable
  | myproxyAddress
  | isbproxyTimeEnd
  | modifiedJdl
  | lastPollerVisited
  | creamDbid
  | tokenFile
  | cancelSequenceCode
  deriving DecidableEq

/-- `CreamJob`: a row, and which of its fields have changed since it was read. -/
structure CreamJob extends JobRow where
  changed : Field → Bool := fun _ => true

namespace CreamJob

/-- `reset_change_flags` -/
def resetChangeFlags (j : CreamJob) : CreamJob :=
  { j with changed := fun _ => false }

/-- The flag of a field goes up. -/
def touch (j : CreamJob) (f : Field) : Field → Bool :=
  fun g => decide (g = f) || j.changed g

/-- The mutators set a field and mark it as changed. -/
def setCompleteCreamJobid (j : CreamJob) (s : Text) : CreamJob :=
  { j with completeCreamJobid := s, changed := j.touch .completeCreamJobid }

def setUserDn (j : CreamJob) (s : Text) : CreamJob :=
  { j with userDn := s, changed := j.touch .userDn }

def setDelegationId (j : CreamJob) (s : Text) : CreamJob :=
  { j with delegationId := s, changed := j.touch .delegationId }

def setWnSequenceCode (j : CreamJob) (s : Text) : CreamJob :=
  { j with wnSequenceCode := s, changed := j.touch .wnSequenceCode }

def setLastSeen (j : CreamJob) (t : ℤ) : CreamJob :=
  { j with lastSeen := t, changed := j.touch .lastSeen }

def setLeaseId (j : CreamJob) (s : Text) : CreamJob :=
  { j with leaseId := s, changed := j.touch .leaseId }

def setIsbproxyTimeEnd (j : CreamJob) (t : ℤ) : CreamJob :=
  { j with isbproxyTimeEnd := t, changed := j.touch .isbproxyTimeEnd }

def setCreamDbid (j : CreamJob) (n : ℕ) : CreamJob :=
  { j with creamDbid := n, changed := j.touch .creamDbid }

def setCancelSequenceCode (j : CreamJob) (s : Text) : CreamJob :=
  { j with cancelSequenceCode := s, changed := j.touch .cancelSequenceCode }

/-- `set_status`, which keeps the status before. -/
def setStatus (j : CreamJob) (st : JobStatus) : CreamJob :=
  let j := { j with prevStatus := j.status, changed := j.touch .prevStatus }
  { j with status := st, changed := j.touch .status }

/-- An empty reason is kept as a blank. -/
def setFailureReason (j : CreamJob) (f : Text) : CreamJob :=
  { j with
    failureReason := if f.isEmpty then [' '] else f
    changed := j.touch .failureReason }

/-- The new code replaces the old one in both JDLs as well, whose flags stay
as they are. -/
def setSequenceCode (j : CreamJob) (seq : Text) : CreamJob :=
  { j with
    sequenceCode := seq
    jdl := replaceAll j.sequenceCode seq j.jdl
    modifiedJdl := replaceAll j.sequenceCode seq j.modifiedJdl
    changed := j.touch .sequenceCode }

end CreamJob

/-! ## Settings and libraries -/

/-- What the configuration gives to ICE. -/
structure Config where
  creamUrlPrefix : Text
  creamUrlPostfix : Text
  creamdelegationUrlPrefix : Text
  creamdelegationUrlPostfix : Text
  /-- Leases are enabled when it is positive. -/
  leaseDeltaTime : ℤ
  proxyRenewalFrequency : ℤ
  persistDir : Text
  /-- The name of the queue requests come from. -/
  input : Text

/-- The string attributes the ClassAd library finds in a JDL. -/
structure JobAd where
  ceId : Option Text
  reallyRunningToken : Option Text
  shallowRetryCount : Option Text
  x509UserProxy : Option Text
  myProxyServer : Option Text
  lbSequenceCode : Option Text
  edgJobid : Option Text
  deriving DecidableEq

/-- What ICE takes from the ClassAd library and from the CREAM client:
`cream_jdl_helper` is a rewriting of the JDL with the former. -/
structure Libraries where
  parseClassAd : Text → Option JobAd
  creamJdlHelper : Text → Except Text Text
  /-- The pieces of a CE identifier that name its endpoint. -/
  parseCEID : Text → Except Text (Text × Text)
  compressedString : Text → Text

/-! ## URLs -/

/-- What `token_file` reads of a `Url`. -/
structure Url where
  path : Text
  valid : Bool
  error : Text
  deriving DecidableEq

/-- What an address with a wrong port is refused with. -/
def emptyPortError (url : Text) : Text :=
  "Specified an empty TCP port in the address [".toList ++ url ++
    "]. Format must be schema://hostname[:tcpport] and ".toList ++
    "tcpport must be full numeric in the range [2000-65535]".toList

def badPortError (url : Text) : Text :=
  "Specified an zero or negative TCP port in the address [".toList ++ url ++
    "]. It must be in the range [1-65535]".toList

/-- `URL::parse` -/
def Url.parse (url : Text) : Url :=
  match breakOn "://".toList url with
  | none => ⟨url, true, []⟩
  | some (protocol, address) =>
      if protocol = "file".toList then ⟨address, true, []⟩
      else
        let (endpoint, path) := (breakOn ['/'] address).getD (address, [])
        match breakOn [':'] endpoint with
        | none => ⟨path, true, []⟩
        | some (_, restport) =>
            if restport.isEmpty then ⟨path, false, emptyPortError url⟩
            else if atoi restport ≤ 0 then ⟨path, false, badPortError url⟩
            else ⟨path, true, []⟩

/-! ## The rest of the job -/

namespace CreamJob

/-- The getter reads the field as a URL. An empty path is the one it does not
survive: `at` throws. -/
def tokenFileOf (token : Text) : Option Text :=
  let url := Url.parse token
  if !url.valid then some url.error
  else
    match url.path with
    | [] => none
    | '/' :: rest => some ('/' :: rest)
    | path => some ('/' :: path)

/-- The identifier with the host it belongs to. -/
def completeId (cfg : Config) (creamUrl jobId : Text) : Text :=
  replaceAll cfg.creamUrlPostfix [] creamUrl ++ '/' :: jobId

/-- `set_cream_jobid`, which sets the complete identifier too. -/
def setCreamJobid (cfg : Config) (j : CreamJob) (cid : Text) : CreamJob :=
  let j := { j with
    creamJobid := cid
    changed := j.touch .creamJobid }
  { j with
    completeCreamJobid :=
      if cid.isEmpty || j.creamAddress.isEmpty then j.completeCreamJobid
      else completeId cfg j.creamAddress cid
    changed := j.touch .completeCreamJobid }

/-- What `update_database` makes of a row, the token being written as the
getter gives it. -/
def written (j : CreamJob) (token : Text) (row : JobRow) : JobRow where
  gridJobid := if j.changed .gridJobid then j.gridJobid else row.gridJobid
  creamJobid := if j.changed .creamJobid then j.creamJobid else row.creamJobid
  completeCreamJobid :=
    if j.changed .completeCreamJobid then j.completeCreamJobid
    else row.completeCreamJobid
  jdl := if j.changed .jdl then j.jdl else row.jdl
  ceid := if j.changed .ceid then j.ceid else row.ceid
  endpoint := if j.changed .endpoint then j.endpoint else row.endpoint
  creamAddress :=
    if j.changed .creamAddress then j.creamAddress
    else row.creamAddress
  creamDelegAddress :=
    if j.changed .creamDelegAddress then j.creamDelegAddress
    else row.creamDelegAddress
  userProxyfile :=
    if j.changed .userProxyfile then j.userProxyfile
    else row.userProxyfile
  userDn := if j.changed .userDn then j.userDn else row.userDn
  sequenceCode :=
    if j.changed .sequenceCode then j.sequenceCode
    else row.sequenceCode
  delegationId :=
    if j.changed .delegationId then j.delegationId
    else row.delegationId
  wnSequenceCode :=
    if j.changed .wnSequenceCode then j.wnSequenceCode
    else row.wnSequenceCode
  prevStatus := if j.changed .prevStatus then j.prevStatus else row.prevStatus
  status := if j.changed .status then j.status else row.status
  numLoggedStatusChanges :=
    if j.changed .numLoggedStatusChanges then j.numLoggedStatusChanges
    else row.numLoggedStatusChanges
  lastSeen := if j.changed .lastSeen then j.lastSeen else row.lastSeen
  leaseId := if j.changed .leaseId then j.leaseId else row.leaseId
  statusPollRetryCount :=
    if j.changed .statusPollRetryCount then j.statusPollRetryCount
    else row.statusPollRetryCount
  exitCode := if j.changed .exitCode then j.exitCode else row.exitCode
  failureReason :=
    if j.changed .failureReason then j.failureReason
    else row.failureReason
  workerNode := if j.changed .workerNode then j.workerNode else row.workerNode
  killedByice :=
    if j.changed .killedByice then j.killedByice
    else row.killedByice
  lastEmptyNotificationTime :=
    if j.changed .lastEmptyNotificationTime then j.lastEmptyNotificationTime
    else row.lastEmptyNotificationTime
  proxyRenewable :=
    if j.changed .proxyRenewable then j.proxyRenewable
    else row.proxyRenewable
  myproxyAddress :=
    if j.changed .myproxyAddress then j.myproxyAddress
    else row.myproxyAddress
  isbproxyTimeEnd :=
    if j.changed .isbproxyTimeEnd then j.isbproxyTimeEnd
    else row.isbproxyTimeEnd
  modifiedJdl :=
    if j.changed .modifiedJdl then j.modifiedJdl
    else row.modifiedJdl
  lastPollerVisited :=
    if j.changed .lastPollerVisited then j.lastPollerVisited
    else row.lastPollerVisited
  creamDbid := if j.changed .creamDbid then j.creamDbid else row.creamDbid
  tokenFile := if j.changed .tokenFile then token else row.tokenFile
  cancelSequenceCode :=
    if j.changed .cancelSequenceCode then j.cancelSequenceCode
    else row.cancelSequenceCode

/-- The token `update_database` writes; `none` if it throws on the way. -/
def writtenToken (j : CreamJob) : Option Text :=
  if j.changed .tokenFile then tokenFileOf j.tokenFile else some []

/-- What is cut off both ends of a token file's name. -/
def isQuote (c : Char) : Bool := c = '"'

/-- An attribute that has to be there. -/
def required (a : Option Text) (message : String) : Except Text Text :=
  match a with
  | some v => .ok v
  | none => .error message.toList

/-- No token is asked for when shallow resubmission is off. -/
def requestedToken (ad : JobAd) (token : Text) : Text :=
  let token := if token.isEmpty then "/nofile".toList else token
  let off := ad.shallowRetryCount.any fun s => atoi s = -1
  trimIf isQuote (if off then [] else token)

/-- `set_jdl`: the members that are read from the JDL. -/
def setJdl (lib : Libraries) (cfg : Config) (j : CreamJob) (jdl : Text) :
    Except Text CreamJob := do
  let ad ←
    match lib.parseClassAd jdl with
    | some ad => .ok ad
    | none => .error ("unable to parse jdl=[".toList ++ jdl ++ [']'])
  let ceid ← required ad.ceId "ce_id attribute not found, or is not a string"
  let ceid := trimIf isQuote ceid
  let token ← required ad.reallyRunningToken
    "ReallyRunningToken attribute not found, or is not a string"
  let proxy ← required ad.x509UserProxy
    "X509UserProxy attribute not found, or is not a string"
  let myproxy := trimIf (· = ' ') (ad.myProxyServer.getD [])
  let gid ← required ad.edgJobid
    "edg_jobid attribute not found, or is not a string"
  let pieces ← lib.parseCEID ceid
  let endpoint := pieces.1 ++ ':' :: pieces.2
  let modified ← lib.creamJdlHelper jdl
  return { j with
    jdl := jdl
    ceid := ceid
    tokenFile := requestedToken ad token
    userProxyfile := trimIf isQuote proxy
    proxyRenewable := !myproxy.isEmpty
    myproxyAddress := if myproxy.isEmpty then j.myproxyAddress else myproxy
    sequenceCode :=
      match ad.lbSequenceCode with
      | some code => trimIf isQuote code
      | none => j.sequenceCode
    gridJobid := trimIf isQuote gid
    endpoint := endpoint
    creamAddress := cfg.creamUrlPrefix ++ endpoint ++ cfg.creamUrlPostfix
    creamDelegAddress :=
      cfg.creamdelegationUrlPrefix ++ endpoint ++ cfg.creamdelegationUrlPostfix
    modifiedJdl := modified
    changed := fun g =>
      decide (g = .modifiedJdl) || decide (g = .jdl) || j.changed g }

/-- The job of a request: what the parser makes of the JDL, completed by
`main_loop` from the proxy file. -/
def ofRequest (lib : Libraries) (cfg : Config) (jdl userDn : Text)
    (proxyTimeEnd : ℤ) : Except Text CreamJob := do
  let j ← setJdl lib cfg {} jdl
  return ((j.setStatus .unknown).setUserDn userDn).setIsbproxyTimeEnd
    proxyTimeEnd

end CreamJob

end Wms.Ice
