import Wms.Jobsubmission.SizeFile
import Wms.Lib.CString
import Wms.Lib.ClassAd

/-!
# The timeouts on disk (`logmonitor/Timer.cpp`)

A timeout belongs to an event of the Condor log, and is kept as an ad, so that
it is there after a restart. One switch over the kinds of events writes the
attributes, and another reads them into an event that Condor makes from the
number of the kind.

The second switch has four variables that its cases share. A variable that was
not assigned has what is in memory, and one whose attribute is missing has what
was read into it before. `none` is an exception or a null pointer.
-/

namespace Wms.Jobsubmission.Timer

open Wms.Lib
open LogMonitor (Text)

/-- `time_t` -/
abbrev Time := { t : ℤ // -2 ^ 63 ≤ t ∧ t < 2 ^ 63 }

theorem zero_in_range : -2 ^ 63 ≤ (0 : ℤ) ∧ (0 : ℤ) < 2 ^ 63 := by decide

/-- What a `char *` that is not null points to. -/
abbrev CString := { s : Text // Char.ofNat 0 ∉ s }

/-- What an array of `n` characters holds, with the character that ends it. -/
abbrev CArray (n : ℕ) := { s : Text // Char.ofNat 0 ∉ s ∧ s.length < n }

/-- `BUFSIZ` -/
abbrev bufsiz : ℕ := 8192

/-- `time_t` and its text: a sign, and at least one digit and nothing else. -/
def lexicalCastTime (s : Text) : Option Time :=
  let number := splitSign s
  let t : ℤ := if number.1 then -digitsValue number.2 else digitsValue number.2
  if h : (number.2 ≠ [] ∧ number.2.all Char.isDigit = true) ∧
      -2 ^ 63 ≤ t ∧ t < 2 ^ 63 then some ⟨t, h.2⟩
  else none

/-- `NullString` -/
def nullString : Option CString → Text
  | none => []
  | some s => s.1

/-- `myStrdup`: the copy ends where the text has the character that ends it. -/
def myStrdup (s : Text) : CString :=
  ⟨s.takeWhile (· ≠ Char.ofNat 0), fun h => by simpa using List.mem_takeWhile_imp h⟩

/-- `strncpy( array, s.c_str(), n )`: without room for the end, reading the array
does not stop at it. -/
def strncpy (n : ℕ) (s : Text) : Option (CArray n) :=
  if h : (myStrdup s).1.length < n then some ⟨(myStrdup s).1, (myStrdup s).2, h⟩
  else none

/-! ## Events (`user_log.c++.h`)

What the two switches read and write of them. -/

/-- `struct timeval` -/
structure Timeval where
  sec : ℤ
  usec : ℤ

/-- `struct rusage`, the members that are written. -/
structure Rusage where
  maxrss : ℤ
  ixrss : ℤ
  idrss : ℤ
  isrss : ℤ
  minflt : ℤ
  majflt : ℤ
  nswap : ℤ
  inblock : ℤ
  oublock : ℤ
  msgsnd : ℤ
  msgrcv : ℤ
  nsignals : ℤ
  nvcsw : ℤ
  nivcsw : ℤ
  utime : Timeval
  stime : Timeval

/-- The numbers with a fraction. Every `float` is a `double`, and so is every
`int`. -/
structure Numbers where
  Single : Type
  Double : Type
  widen : Single → Double
  narrow : Double → Single
  narrow_widen : ∀ x, narrow (widen x) = x
  ofInt : ℤ → Double
  toInt : Double → ℤ
  toInt_ofInt : ∀ i, -2 ^ 31 ≤ i → i < 2 ^ 31 → toInt (ofInt i) = i

/-- The members of the events of Condor that have some of their own. -/
structure SubmitEvent where
  submitEventLogNotes : Option CString
  submitEventUserNotes : Option CString

structure JobEvictedEvent (N : Numbers) where
  checkpointed : Bool
  sentBytes : N.Single
  recvdBytes : N.Single
  terminateAndRequeued : Bool
  normal : Bool
  returnValue : ℤ
  signalNumber : ℤ
  reason : Option CString
  coreFile : Option CString
  runLocalRusage : Rusage
  runRemoteRusage : Rusage

/-- What the end of a job and of a node have in common. -/
structure TerminatedEvent (N : Numbers) where
  normal : Bool
  returnValue : ℤ
  signalNumber : ℤ
  sentBytes : N.Single
  recvdBytes : N.Single
  totalSentBytes : N.Single
  totalRecvdBytes : N.Single
  coreFile : Option CString
  runLocalRusage : Rusage
  runRemoteRusage : Rusage
  totalLocalRusage : Rusage
  totalRemoteRusage : Rusage

structure ShadowExceptionEvent (N : Numbers) where
  message : CArray bufsiz
  sentBytes : N.Single
  recvdBytes : N.Single

structure RemoteErrorEvent where
  executeHost : Option CString
  daemonName : Option CString
  errorText : Option CString
  criticalError : Bool

structure JobDisconnectedEvent where
  startdAddr : Option CString
  startdName : Option CString
  disconnectReason : Option CString
  noReconnectReason : Option CString
  canReconnect : Bool

/-- The classes that derive from `ULogEvent`. -/
inductive Details (N : Numbers) where
  | submit (e : SubmitEvent)
  | execute (executeHost : Option CString)
  | executableError (errType : ℤ)
  | checkpointed (runLocalRusage runRemoteRusage : Rusage)
  | jobEvicted (e : JobEvictedEvent N)
  | jobTerminated (e : TerminatedEvent N)
  | imageSize (imageSizeKb : ℤ)
  | shadowException (e : ShadowExceptionEvent N)
  | generic (info : CArray 128)
  | jobAborted (reason : Option CString)
  | jobSuspended (numPids : ℤ)
  | jobUnsuspended
  | jobHeld (reason : Option CString) (reasonCode reasonSubCode : ℤ)
  | jobReleased (reason : Option CString)
  | nodeExecute (node : ℤ) (executeHost : Option CString)
  | nodeTerminated (node : ℤ) (e : TerminatedEvent N)
  | postScriptTerminated (normal : Bool) (returnValue signalNumber : ℤ)
  | globusSubmit (rmContact jmContact : Option CString) (restartableJM : Bool)
  | globusSubmitFailed (reason : Option CString)
  | globusResourceUp (rmContact : Option CString)
  | globusResourceDown (rmContact : Option CString)
  | remoteError (e : RemoteErrorEvent)
  | jobDisconnected (e : JobDisconnectedEvent)
  | jobReconnected (startdAddr startdName starterAddr : Option CString)
  | jobReconnectFailed (startdName reason : Option CString)
  | gridSubmit (resourceName jobId : Option CString)
  | gridResourceUp (resourceName : Option CString)
  | gridResourceDown (resourceName : Option CString)

/-- `ULogEventNumber` -/
inductive EventNumber where
  | submit | execute | executableError | checkpointed | jobEvicted | jobTerminated
  | imageSize | shadowException | generic | jobAborted | jobSuspended
  | jobUnsuspended | jobHeld | jobReleased | nodeExecute | nodeTerminated
  | postScriptTerminated | globusSubmit | globusSubmitFailed | globusResourceUp
  | globusResourceDown | remoteError | jobDisconnected | jobReconnected
  | jobReconnectFailed | gridResourceUp | gridResourceDown | gridSubmit
  deriving DecidableEq

/-- The event number of each kind of event. -/
def Details.eventNumber {N : Numbers} : Details N → EventNumber
  | .submit _ => .submit
  | .execute _ => .execute
  | .executableError _ => .executableError
  | .checkpointed _ _ => .checkpointed
  | .jobEvicted _ => .jobEvicted
  | .jobTerminated _ => .jobTerminated
  | .imageSize _ => .imageSize
  | .shadowException _ => .shadowException
  | .generic _ => .generic
  | .jobAborted _ => .jobAborted
  | .jobSuspended _ => .jobSuspended
  | .jobUnsuspended => .jobUnsuspended
  | .jobHeld _ _ _ => .jobHeld
  | .jobReleased _ => .jobReleased
  | .nodeExecute _ _ => .nodeExecute
  | .nodeTerminated _ _ => .nodeTerminated
  | .postScriptTerminated _ _ _ => .postScriptTerminated
  | .globusSubmit _ _ _ => .globusSubmit
  | .globusSubmitFailed _ => .globusSubmitFailed
  | .globusResourceUp _ => .globusResourceUp
  | .globusResourceDown _ => .globusResourceDown
  | .remoteError _ => .remoteError
  | .jobDisconnected _ => .jobDisconnected
  | .jobReconnected _ _ _ => .jobReconnected
  | .jobReconnectFailed _ _ => .jobReconnectFailed
  | .gridSubmit _ _ => .gridSubmit
  | .gridResourceUp _ => .gridResourceUp
  | .gridResourceDown _ => .gridResourceDown

/-- An event of a Condor log. -/
structure ULogEvent (N : Numbers) (Tm : Type) where
  eventTime : Tm
  cluster : ℤ
  proc : ℤ
  subproc : ℤ
  details : Details N

/-- What is used of the C library and of Condor. `mktime` puts the time it is
given right, which is what `localtime_r` makes of its answer. The constructor
of a submit event sets both notes to null. -/
structure Libraries extends Numbers where
  Tm : Type
  mktime : Tm → Time × Tm
  localtime : Time → Tm
  localtime_mktime : ∀ tm, localtime (mktime tm).1 = (mktime tm).2
  number : EventNumber → ℤ
  instantiateEvent : ℤ → Option (ULogEvent toNumbers Tm)
  instantiateEvent_number : ∀ n, ∃ ev, instantiateEvent (number n) = some ev ∧
    ev.details.eventNumber = n
  instantiateEvent_submit : ∀ i ev e, instantiateEvent i = some ev →
    ev.details = .submit e →
      e.submitEventLogNotes = none ∧ e.submitEventUserNotes = none

/-! ## The names of the attributes -/

/-- The attributes of the ad of an event. -/
inductive Name where
  | timeout | eventNumber | eventTime | cluster | proc | subProc | logNotes
  | executeHost | node | execErrorType | runLocalRusage | runRemoteRusage
  | totalLocalRusage | totalRemoteRusage | sentBytes | recvdBytes | terminate
  | normal | returnValue | signalNumber | reason | coreFile | totalSentBytes
  | totalRecvdBytes | size | numPids | message | info | rmContact | jmContact
  | restartableJM | checkPointed | daemonName | errorStr | criticalError
  | reasonCode | reasonSubCode | userNotes | startdAddr | startdName | starterAddr
  | disconnReason | noReconnReason | canReconn | resourceName | jobId
  deriving DecidableEq

/-- Their names. -/
def Name.text : Name → Text
  | .timeout => "Timeout".toList
  | .eventNumber => "EventNumber".toList
  | .eventTime => "EventTime".toList
  | .cluster => "Cluster".toList
  | .proc => "Proc".toList
  | .subProc => "SubProc".toList
  | .logNotes => "LogNotes".toList
  | .executeHost => "ExecuteHost".toList
  | .node => "Node".toList
  | .execErrorType => "ExecErrorType".toList
  | .runLocalRusage => "RunLocalRusage".toList
  | .runRemoteRusage => "RunRemoteRusage".toList
  | .totalLocalRusage => "TotalLocalRusage".toList
  | .totalRemoteRusage => "TotalRemoteRusage".toList
  | .sentBytes => "SentBytes".toList
  | .recvdBytes => "RecvdBytes".toList
  | .terminate => "Terminate".toList
  | .normal => "Normal".toList
  | .returnValue => "ReturnValue".toList
  | .signalNumber => "SignalNumber".toList
  | .reason => "Reason".toList
  | .coreFile => "CoreFile".toList
  | .totalSentBytes => "TotalSentBytes".toList
  | .totalRecvdBytes => "TotalRecvdBytes".toList
  | .size => "Size".toList
  | .numPids => "NumPids".toList
  | .message => "Message".toList
  | .info => "Info".toList
  | .rmContact => "RmContact".toList
  | .jmContact => "JmContact".toList
  | .restartableJM => "RestartableJM".toList
  | .checkPointed => "CheckPointed".toList
  | .daemonName => "DaemonName".toList
  | .errorStr => "ErrorText".toList
  | .criticalError => "CriticalError".toList
  | .reasonCode => "ReasonCode".toList
  | .reasonSubCode => "ReasonSubCode".toList
  | .userNotes => "UserNotes".toList
  | .startdAddr => "StartdAddr".toList
  | .startdName => "StartdName".toList
  | .starterAddr => "StartesAddr".toList
  | .disconnReason => "DisconnReason".toList
  | .noReconnReason => "NoReconnReason".toList
  | .canReconn => "CanReconn".toList
  | .resourceName => "GridResource".toList
  | .jobId => "GridJobId".toList

section Attributes

variable {D : Type}

/-- `InsertAttr` -/
def put (ad : ClassAd D) (name : Name) (v : Value D) : ClassAd D :=
  ad.insertAttr name.text v

/-- `EvaluateAttrString`, which leaves the target where there is no text. -/
def getString (ad : ClassAd D) (name : Name) (target : Text) : Text :=
  ad.evaluateAttrString name.text target

/-- `EvaluateAttrBool` -/
def getBool (ad : ClassAd D) (name : Name) (target : Bool) : Bool :=
  ad.evaluateAttrBool name.text target

/-- Whether `EvaluateAttrString` finds the text. -/
def hasString (ad : ClassAd D) (name : Name) : Bool :=
  match ad.lookup name.text with
  | some (.str _) => true
  | _ => false

/-- `Lookup`, and the cast to an ad. -/
def getAd (ad : ClassAd D) (name : Name) : Option (ClassAd D) :=
  match ad.lookup name.text with
  | some (.ad attributes) => some attributes
  | _ => none

end Attributes

variable {N : Numbers}

/-- `EvaluateAttrNumber` with an `int`. -/
def getInt (ad : ClassAd N.Double) (name : Name) (target : ℤ) : ℤ :=
  ad.evaluateAttrNumber id N.toInt name.text target

/-- `EvaluateAttrNumber` with a `double`. -/
def getDouble (ad : ClassAd N.Double) (name : Name) (target : N.Double) : N.Double :=
  ad.evaluateAttrNumber N.ofInt id name.text target

/-! ## The resources -/

/-- `rusage_to_classad` -/
def toClassAd (ru : Rusage) : ClassAd N.Double :=
  [("ru_maxrss", ru.maxrss), ("ru_ixrss", ru.ixrss), ("ru_idrss", ru.idrss),
    ("ru_isrss", ru.isrss), ("ru_minflt", ru.minflt), ("ru_majflt", ru.majflt),
    ("ru_nswap", ru.nswap), ("ru_inblock", ru.inblock), ("ru_oublock", ru.oublock),
    ("ru_msgsnd", ru.msgsnd), ("ru_msgrcv", ru.msgrcv),
    ("ru_nsignals", ru.nsignals), ("ru_nvcsw", ru.nvcsw), ("ru_nivcsw", ru.nivcsw),
    ("ru_utime", ru.utime.sec), ("ru_stime", ru.stime.sec)].foldl
    (fun ad p => ad.insertAttr p.1.toList (.str (signedDigits p.2))) []

/-- One variable is read into for all fields. -/
def toRusage (val : N.Double) (ad : ClassAd N.Double) : Rusage :=
  let read (name : String) (val : N.Double) :=
    ad.evaluateAttrNumber N.ofInt id name.toList val
  let maxrss := read "ru_maxrss" val
  let ixrss := read "ru_ixrss" maxrss
  let idrss := read "ru_idrss" ixrss
  let isrss := read "ru_isrss" idrss
  let minflt := read "ru_minflt" isrss
  let majflt := read "ru_majflt" minflt
  let nswap := read "ru_nswap" majflt
  let inblock := read "ru_inblock" nswap
  let oublock := read "ru_oublock" inblock
  let msgsnd := read "ru_msgsnd" oublock
  let msgrcv := read "ru_msgrcv" msgsnd
  let nsignals := read "ru_nsignals" msgrcv
  let nvcsw := read "ru_nvcsw" nsignals
  let nivcsw := read "ru_nivcsw" nvcsw
  let utime := read "ru_utime" nivcsw
  let stime := read "ru_stime" utime
  { maxrss := N.toInt maxrss
    ixrss := N.toInt ixrss
    idrss := N.toInt idrss
    isrss := N.toInt isrss
    minflt := N.toInt minflt
    majflt := N.toInt majflt
    nswap := N.toInt nswap
    inblock := N.toInt inblock
    oublock := N.toInt oublock
    msgsnd := N.toInt msgsnd
    msgrcv := N.toInt msgrcv
    nsignals := N.toInt nsignals
    nvcsw := N.toInt nvcsw
    nivcsw := N.toInt nivcsw
    utime := ⟨N.toInt utime, 0⟩
    stime := ⟨N.toInt stime, 0⟩ }

/-! ## The ad of an event -/

/-- The attributes of `JOB_TERMINATED` and of `NODE_TERMINATED`. -/
def putTerminated (ad : ClassAd N.Double) (e : TerminatedEvent N) :
    ClassAd N.Double :=
  let ad := put ad .sentBytes (.real (N.widen e.sentBytes))
  let ad := put ad .recvdBytes (.real (N.widen e.recvdBytes))
  let ad := put ad .totalSentBytes (.real (N.widen e.totalSentBytes))
  let ad := put ad .totalRecvdBytes (.real (N.widen e.totalRecvdBytes))
  let ad := put ad .coreFile (.str (nullString e.coreFile))
  let ad := put ad .runLocalRusage (.ad (toClassAd e.runLocalRusage))
  let ad := put ad .runRemoteRusage (.ad (toClassAd e.runRemoteRusage))
  let ad := put ad .totalLocalRusage (.ad (toClassAd e.totalLocalRusage))
  put ad .totalRemoteRusage (.ad (toClassAd e.totalRemoteRusage))

/-- How a job ended: its code, or the signal that ended it. -/
def putExit (ad : ClassAd N.Double) (normal : Bool) (returnValue signalNumber : ℤ) :
    ClassAd N.Double :=
  let ad := put ad .normal (.bool normal)
  let ad := put ad .returnValue (.int returnValue)
  put ad .signalNumber (.int signalNumber)

/-- The switch of `to_classad`. -/
def putDetails (ad : ClassAd N.Double) : Details N → ClassAd N.Double
  | .submit e =>
      let ad :=
        if e.submitEventLogNotes.isSome then
          put ad .logNotes (.str (nullString e.submitEventLogNotes))
        else ad
      if e.submitEventUserNotes.isSome then
        put ad .userNotes (.str (nullString e.submitEventUserNotes))
      else ad
  | .execute _ => ad
  | .executableError errType => put ad .execErrorType (.int errType)
  | .checkpointed runLocalRusage runRemoteRusage =>
      let ad := put ad .runLocalRusage (.ad (toClassAd runLocalRusage))
      put ad .runRemoteRusage (.ad (toClassAd runRemoteRusage))
  | .jobEvicted e =>
      let ad := put ad .checkPointed (.bool e.checkpointed)
      let ad := put ad .sentBytes (.real (N.widen e.sentBytes))
      let ad := put ad .recvdBytes (.real (N.widen e.recvdBytes))
      let ad := put ad .terminate (.bool e.terminateAndRequeued)
      let ad := putExit ad e.normal e.returnValue e.signalNumber
      let ad := put ad .reason (.str (nullString e.reason))
      let ad := put ad .coreFile (.str (nullString e.coreFile))
      let ad := put ad .runLocalRusage (.ad (toClassAd e.runLocalRusage))
      put ad .runRemoteRusage (.ad (toClassAd e.runRemoteRusage))
  | .jobTerminated e =>
      putTerminated (putExit ad e.normal e.returnValue e.signalNumber) e
  | .imageSize imageSizeKb => put ad .size (.int imageSizeKb)
  | .shadowException e =>
      let ad := put ad .message (.str e.message.1)
      let ad := put ad .sentBytes (.real (N.widen e.sentBytes))
      put ad .recvdBytes (.real (N.widen e.recvdBytes))
  | .generic info => put ad .info (.str info.1)
  | .jobAborted reason => put ad .reason (.str (nullString reason))
  | .jobSuspended numPids => put ad .numPids (.int numPids)
  | .jobUnsuspended => ad
  | .jobHeld reason reasonCode reasonSubCode =>
      let ad := put ad .reason (.str (nullString reason))
      let ad := put ad .reasonCode (.int reasonCode)
      put ad .reasonSubCode (.int reasonSubCode)
  | .jobReleased reason => put ad .reason (.str (nullString reason))
  | .nodeExecute node _ => put ad .node (.int node)
  | .nodeTerminated node e =>
      putTerminated
        (put (putExit ad e.normal e.returnValue e.signalNumber) .node (.int node)) e
  | .postScriptTerminated normal returnValue signalNumber =>
      putExit ad normal returnValue signalNumber
  | .globusSubmit rmContact jmContact restartableJM =>
      let ad := put ad .rmContact (.str (nullString rmContact))
      let ad := put ad .jmContact (.str (nullString jmContact))
      put ad .restartableJM (.bool restartableJM)
  | .globusSubmitFailed reason => put ad .reason (.str (nullString reason))
  | .globusResourceUp rmContact => put ad .rmContact (.str (nullString rmContact))
  | .globusResourceDown rmContact => put ad .rmContact (.str (nullString rmContact))
  | .remoteError e =>
      let ad := put ad .executeHost (.str (nullString e.executeHost))
      let ad := put ad .daemonName (.str (nullString e.daemonName))
      let ad := put ad .errorStr (.str (nullString e.errorText))
      put ad .criticalError (.bool e.criticalError)
  | .jobDisconnected e =>
      let ad := put ad .startdAddr (.str (nullString e.startdAddr))
      let ad := put ad .startdName (.str (nullString e.startdName))
      let ad := put ad .disconnReason (.str (nullString e.disconnectReason))
      let ad := put ad .noReconnReason (.str (nullString e.noReconnectReason))
      put ad .canReconn (.bool e.canReconnect)
  | .jobReconnected startdAddr startdName starterAddr =>
      let ad := put ad .startdAddr (.str (nullString startdAddr))
      let ad := put ad .startdName (.str (nullString startdName))
      put ad .starterAddr (.str (nullString starterAddr))
  | .jobReconnectFailed startdName reason =>
      let ad := put ad .startdName (.str (nullString startdName))
      put ad .reason (.str (nullString reason))
  | .gridSubmit resourceName jobId =>
      let ad := put ad .resourceName (.str (nullString resourceName))
      put ad .jobId (.str (nullString jobId))
  | .gridResourceUp resourceName =>
      put ad .resourceName (.str (nullString resourceName))
  | .gridResourceDown resourceName =>
      put ad .resourceName (.str (nullString resourceName))

/-! ## The event of an ad -/

/-- What is in memory where the variables of `to_event` and of its calls of
`toRusage` are. -/
structure Memory (N : Numbers) where
  ival : ℤ
  dval : N.Double
  bval : Bool
  val : ℕ → N.Double

/-- The end of a job or of a node, as far as the ad has it. -/
def getTerminated (memory : Memory N) (ad : ClassAd N.Double) (sval : Text)
    (e : TerminatedEvent N) : Option (TerminatedEvent N) := do
  let sentBytes := getDouble ad .sentBytes memory.dval
  let recvdBytes := getDouble ad .recvdBytes sentBytes
  let totalSentBytes := getDouble ad .totalSentBytes recvdBytes
  let totalRecvdBytes := getDouble ad .totalRecvdBytes totalSentBytes
  let coreFile := getString ad .coreFile sval
  let runLocalRusage ← getAd ad .runLocalRusage
  let runRemoteRusage ← getAd ad .runRemoteRusage
  let totalLocalRusage ← getAd ad .totalLocalRusage
  let totalRemoteRusage ← getAd ad .totalRemoteRusage
  return {
    normal := getBool ad .normal e.normal
    returnValue := getInt ad .returnValue e.returnValue
    signalNumber := getInt ad .signalNumber e.signalNumber
    sentBytes := N.narrow sentBytes
    recvdBytes := N.narrow recvdBytes
    totalSentBytes := N.narrow totalSentBytes
    totalRecvdBytes := N.narrow totalRecvdBytes
    coreFile := some (myStrdup coreFile)
    runLocalRusage := toRusage (memory.val 0) runLocalRusage
    runRemoteRusage := toRusage (memory.val 1) runRemoteRusage
    totalLocalRusage := toRusage (memory.val 2) totalLocalRusage
    totalRemoteRusage := toRusage (memory.val 3) totalRemoteRusage }

/-- The switch of `to_event`. It begins with the number of the event in `ival`
and the text of its time in `sval`. -/
def getDetails (memory : Memory N) (ad : ClassAd N.Double) (ival : ℤ) (sval : Text) :
    Details N → Option (Details N)
  | .submit e =>
      let notes := getString ad .logNotes sval
      some (.submit {
        submitEventLogNotes :=
          if hasString ad .logNotes then some (myStrdup notes)
          else e.submitEventLogNotes
        submitEventUserNotes :=
          if hasString ad .userNotes then
            some (myStrdup (getString ad .userNotes notes))
          else e.submitEventUserNotes })
  | .execute _ =>
      let sval := getString ad .executeHost sval
      some (.execute (some (myStrdup (sval.take 128))))
  | .executableError _ => some (.executableError (getInt ad .execErrorType ival))
  | .checkpointed _ _ => do
      let runLocalRusage ← getAd ad .runLocalRusage
      let runRemoteRusage ← getAd ad .runRemoteRusage
      return .checkpointed (toRusage (memory.val 0) runLocalRusage)
        (toRusage (memory.val 1) runRemoteRusage)
  | .jobEvicted e => do
      let sentBytes := getDouble ad .sentBytes memory.dval
      let recvdBytes := getDouble ad .recvdBytes sentBytes
      let reason := getString ad .reason sval
      let coreFile := getString ad .coreFile reason
      let runLocalRusage ← getAd ad .runLocalRusage
      let runRemoteRusage ← getAd ad .runRemoteRusage
      return .jobEvicted {
        checkpointed := getBool ad .checkPointed e.checkpointed
        sentBytes := N.narrow sentBytes
        recvdBytes := N.narrow recvdBytes
        terminateAndRequeued := getBool ad .terminate e.terminateAndRequeued
        normal := getBool ad .normal e.normal
        returnValue := getInt ad .returnValue e.returnValue
        signalNumber := getInt ad .signalNumber e.signalNumber
        reason := some (myStrdup reason)
        coreFile := some (myStrdup coreFile)
        runLocalRusage := toRusage (memory.val 0) runLocalRusage
        runRemoteRusage := toRusage (memory.val 1) runRemoteRusage }
  | .jobTerminated e => do
      let e ← getTerminated memory ad sval e
      return .jobTerminated e
  | .imageSize imageSizeKb =>
      -- the attribute is read into a copy of the field, and the copy is dropped
      let _size := getInt ad .size imageSizeKb
      some (.imageSize imageSizeKb)
  | .shadowException _ => do
      let message ← strncpy bufsiz (getString ad .message sval)
      let sentBytes := getDouble ad .sentBytes memory.dval
      let recvdBytes := getDouble ad .recvdBytes sentBytes
      return .shadowException {
        message := message
        sentBytes := N.narrow sentBytes
        recvdBytes := N.narrow recvdBytes }
  | .generic _ => do
      let info ← strncpy 128 (getString ad .info sval)
      return .generic info
  | .jobAborted _ => some (.jobAborted (some (myStrdup (getString ad .reason sval))))
  | .jobSuspended numPids => some (.jobSuspended (getInt ad .numPids numPids))
  | .jobUnsuspended => some .jobUnsuspended
  | .jobHeld _ _ _ =>
      let reasonCode := getInt ad .reasonCode ival
      some (.jobHeld (some (myStrdup (getString ad .reason sval))) reasonCode
        (getInt ad .reasonSubCode reasonCode))
  | .jobReleased _ => some (.jobReleased (some (myStrdup (getString ad .reason sval))))
  | .nodeExecute node _ =>
      let sval := getString ad .executeHost sval
      some (.nodeExecute (getInt ad .node node) (some (myStrdup (sval.take 128))))
  | .nodeTerminated node e => do
      let e ← getTerminated memory ad sval e
      return .nodeTerminated (getInt ad .node node) e
  | .postScriptTerminated normal returnValue signalNumber =>
      some (.postScriptTerminated (getBool ad .normal normal)
        (getInt ad .returnValue returnValue) (getInt ad .signalNumber signalNumber))
  | .globusSubmit _ _ restartableJM =>
      let rmContact := getString ad .rmContact sval
      let jmContact := getString ad .jmContact rmContact
      some (.globusSubmit (some (myStrdup rmContact)) (some (myStrdup jmContact))
        (getBool ad .restartableJM restartableJM))
  | .globusSubmitFailed _ =>
      some (.globusSubmitFailed (some (myStrdup (getString ad .reason sval))))
  | .globusResourceUp _ =>
      some (.globusResourceUp (some (myStrdup (getString ad .rmContact sval))))
  | .globusResourceDown _ =>
      some (.globusResourceDown (some (myStrdup (getString ad .rmContact sval))))
  | .remoteError _ =>
      let executeHost := getString ad .executeHost sval
      let daemonName := getString ad .daemonName executeHost
      let errorStr := getString ad .errorStr daemonName
      some (.remoteError {
        executeHost := some (myStrdup executeHost)
        daemonName := some (myStrdup daemonName)
        errorText := some (myStrdup errorStr)
        criticalError := getBool ad .criticalError memory.bval })
  | .jobDisconnected e =>
      let startdAddr := getString ad .startdAddr sval
      let startdName := getString ad .startdName startdAddr
      let disconnReason := getString ad .disconnReason startdName
      let noReconnReason := getString ad .noReconnReason disconnReason
      some (.jobDisconnected { e with
        startdAddr := some (myStrdup startdAddr)
        startdName := some (myStrdup startdName)
        disconnectReason := some (myStrdup disconnReason)
        noReconnectReason := some (myStrdup noReconnReason) })
  | .jobReconnected _ _ _ =>
      let startdAddr := getString ad .startdAddr sval
      let startdName := getString ad .startdName startdAddr
      let starterAddr := getString ad .starterAddr startdName
      some (.jobReconnected (some (myStrdup startdAddr)) (some (myStrdup startdName))
        (some (myStrdup starterAddr)))
  | .jobReconnectFailed _ _ =>
      let startdName := getString ad .startdName sval
      let reason := getString ad .reason startdName
      some (.jobReconnectFailed (some (myStrdup startdName)) (some (myStrdup reason)))
  | .gridSubmit _ _ =>
      let resourceName := getString ad .resourceName sval
      let jobId := getString ad .jobId resourceName
      some (.gridSubmit (some (myStrdup resourceName)) (some (myStrdup jobId)))
  | .gridResourceUp _ =>
      some (.gridResourceUp (some (myStrdup (getString ad .resourceName sval))))
  | .gridResourceDown _ =>
      some (.gridResourceDown (some (myStrdup (getString ad .resourceName sval))))

/-! ## `TimeoutEvent` -/

variable {L : Libraries}

/-- `TimeoutEvent`: an event and when its time is over, or the ad that was read. -/
structure TimeoutEvent (L : Libraries) where
  epoch : Time
  event : Option (ULogEvent L.toNumbers L.Tm)
  classad : Option (ClassAd L.Double)

namespace TimeoutEvent

/-- The constructor that takes an event. -/
def ofEvent (epoch : Time) (event : ULogEvent L.toNumbers L.Tm) : TimeoutEvent L :=
  ⟨epoch, some event, none⟩

/-- The constructor that takes an ad; nothing is read from it yet. -/
def ofClassad (ad : ClassAd L.Double) : TimeoutEvent L :=
  ⟨⟨0, zero_in_range⟩, none, some ad⟩

/-- `to_classad`. The ad is made once, and `mktime` writes to the event. -/
def toClassad (te : TimeoutEvent L) : Option (TimeoutEvent L) :=
  match te.classad, te.event with
  | some _, _ => some te
  | none, none => none
  | none, some event =>
      let epoch := L.mktime event.eventTime
      let event := { event with eventTime := epoch.2 }
      let ad : ClassAd L.Double := []
      let ad := put ad .timeout (.str (signedDigits te.epoch.1))
      let ad := put ad .eventNumber (.int (L.number event.details.eventNumber))
      let ad := put ad .eventTime (.str (signedDigits epoch.1.1))
      let ad := put ad .cluster (.int event.cluster)
      let ad := put ad .proc (.int event.proc)
      let ad := put ad .subProc (.int event.subproc)
      some { te with event := some event, classad := some (putDetails ad event.details) }

/-- `to_event`. The event is made once. -/
def toEvent (memory : Memory L.toNumbers) (te : TimeoutEvent L) :
    Option (TimeoutEvent L) :=
  match te.event, te.classad with
  | some _, _ => some te
  | none, none => none
  | none, some ad => do
      let ival := getInt ad .eventNumber memory.ival
      let sval := getString ad .timeout []
      let epoch ← lexicalCastTime sval
      let event ← L.instantiateEvent ival
      let sval := getString ad .eventTime sval
      let tval ← lexicalCastTime sval
      let details ← getDetails memory ad ival sval event.details
      return {
        epoch := epoch
        event := some {
          eventTime := L.localtime tval
          cluster := getInt ad .cluster event.cluster
          proc := getInt ad .proc event.proc
          subproc := getInt ad .subProc event.subproc
          details := details }
        classad := some ad }

end TimeoutEvent

end Wms.Jobsubmission.Timer
