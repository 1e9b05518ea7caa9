import Wms.Ice.CreamJob
import Wms.Lib.Quoting
import Mathlib.Logic.Function.Basic

/-!
# The statements about jobs (`CreamJob.h`, `IceUtils`, `AbsDbOperation.cpp`)

What is written of a job is a text: every value stands between two copies of a
marker that is made once for each process, and behind that all quotes are
doubled and the markers become quotes. The text is handed on as a C string. A
row that is read comes as its columns in the order of the query.

Of SQLite two kinds of statement are read, as far as they are written here. An
error in a statement ends the process.
-/

namespace Wms.Ice

open Wms.Lib

/-! ## Columns -/

/-- The fields in the order of `get_query_fields`. -/
def allFields : List Field :=
  [.gridJobid, .creamJobid, .completeCreamJobid, .jdl, .ceid, .endpoint,
    .creamAddress, .creamDelegAddress, .userProxyfile, .userDn, .sequenceCode,
    .delegationId, .wnSequenceCode, .prevStatus, .status,
    .numLoggedStatusChanges, .lastSeen, .leaseId, .statusPollRetryCount,
    .exitCode, .failureReason, .workerNode, .killedByice,
    .lastEmptyNotificationTime, .proxyRenewable, .myproxyAddress,
    .isbproxyTimeEnd, .modifiedJdl, .lastPollerVisited, .creamDbid, .tokenFile,
    .cancelSequenceCode]

namespace Field

/-- `grid_jobid_field` and the others. -/
def name : Field → Text
  | .gridJobid => "grid_jobid".toList
  | .creamJobid => "cream_jobid".toList
  | .completeCreamJobid => "complete_cream_jobid".toList
  | .jdl => "jdl".toList
  | .ceid => "ceid".toList
  | .endpoint => "endpoint".toList
  | .creamAddress => "cream_address".toList
  | .creamDelegAddress => "cream_deleg_address".toList
  | .userProxyfile => "user_proxyfile".toList
  | .userDn => "user_dn".toList
  | .sequenceCode => "sequence_code".toList
  | .delegationId => "delegation_id".toList
  | .wnSequenceCode => "wn_sequence_code".toList
  | .prevStatus => "prev_status".toList
  | .status => "status".toList
  | .numLoggedStatusChanges => "num_logged_status_changes".toList
  | .lastSeen => "last_seen".toList
  | .leaseId => "lease_id".toList
  | .statusPollRetryCount => "status_poll_retry_count".toList
  | .exitCode => "exit_code".toList
  | .failureReason => "failure_reason".toList
  | .workerNode => "worker_node".toList
  | .killedByice => "killed_byice".toList
  | .lastEmptyNotificationTime => "last_empty_notification_time".toList
  | .proxyRenewable => "proxy_renewable".toList
  | .myproxyAddress => "myproxy_address".toList
  | .isbproxyTimeEnd => "isbproxy_time_end".toList
  | .modifiedJdl => "modified_jdl".toList
  | .lastPollerVisited => "last_poller_visited".toList
  | .creamDbid => "cream_dbid".toList
  | .tokenFile => "token_file".toList
  | .cancelSequenceCode => "cancel_sequence_code".toList

end Field

/-- The codes of `job_statuses`. -/
def JobStatus.code : JobStatus → ℕ
  | .registered => 0
  | .pending => 1
  | .idle => 2
  | .running => 3
  | .reallyRunning => 4
  | .cancelled => 5
  | .held => 6
  | .doneOk => 7
  | .doneFailed => 8
  | .purged => 9
  | .aborted => 10
  | .unknown => 11

/-- The cast of a number; no other number is ever written. -/
def JobStatus.ofCode (n : ℤ) : JobStatus :=
  [registered, pending, idle, running, reallyRunning, cancelled, held, doneOk,
    doneFailed, purged, aborted].getD n.toNat .unknown

/-- A flag as it is stored. -/
def bit (b : Bool) : Text := if b then ['1'] else ['0']

namespace JobRow

/-- `lexical_cast<string>` of the fields. -/
def text (r : JobRow) : Field → Text
  | .gridJobid => r.gridJobid
  | .creamJobid => r.creamJobid
  | .completeCreamJobid => r.completeCreamJobid
  | .jdl => r.jdl
  | .ceid => r.ceid
  | .endpoint => r.endpoint
  | .creamAddress => r.creamAddress
  | .creamDelegAddress => r.creamDelegAddress
  | .userProxyfile => r.userProxyfile
  | .userDn => r.userDn
  | .sequenceCode => r.sequenceCode
  | .delegationId => r.delegationId
  | .wnSequenceCode => r.wnSequenceCode
  | .prevStatus => Nat.toDigits 10 r.prevStatus.code
  | .status => Nat.toDigits 10 r.status.code
  | .numLoggedStatusChanges => Nat.toDigits 10 r.numLoggedStatusChanges
  | .lastSeen => signedDigits r.lastSeen
  | .leaseId => r.leaseId
  | .statusPollRetryCount => Nat.toDigits 10 r.statusPollRetryCount
  | .exitCode => Nat.toDigits 10 r.exitCode
  | .failureReason => r.failureReason
  | .workerNode => r.workerNode
  | .killedByice => bit r.killedByice
  | .lastEmptyNotificationTime => signedDigits r.lastEmptyNotificationTime
  | .proxyRenewable => bit r.proxyRenewable
  | .myproxyAddress => r.myproxyAddress
  | .isbproxyTimeEnd => signedDigits r.isbproxyTimeEnd
  | .modifiedJdl => r.modifiedJdl
  | .lastPollerVisited => signedDigits r.lastPollerVisited
  | .creamDbid => Nat.toDigits 10 r.creamDbid
  | .tokenFile => r.tokenFile
  | .cancelSequenceCode => r.cancelSequenceCode

end JobRow

/-- `strtoul` into an `unsigned short`. -/
def strtous (s : Text) : ℕ := strtoull s % 2 ^ 16

/-- `fetch_jobs_callback`. -/
def fetchJobsCallback (fields : ℕ → Text) : JobRow where
  gridJobid := fields 0
  creamJobid := fields 1
  completeCreamJobid := fields 2
  jdl := fields 3
  ceid := fields 4
  endpoint := fields 5
  creamAddress := fields 6
  creamDelegAddress := fields 7
  userProxyfile := fields 8
  userDn := fields 9
  sequenceCode := fields 10
  delegationId := fields 11
  wnSequenceCode := fields 12
  prevStatus := .ofCode (atoi (fields 13))
  status := .ofCode (atoi (fields 14))
  numLoggedStatusChanges := strtous (fields 15)
  lastSeen := strtoll (fields 16)
  leaseId := fields 17
  statusPollRetryCount := strtous (fields 18)
  exitCode := strtous (fields 19)
  failureReason := fields 20
  workerNode := fields 21
  killedByice := fields 22 = ['1']
  lastEmptyNotificationTime := strtoll (fields 23)
  proxyRenewable := fields 24 = ['1']
  myproxyAddress := fields 25
  isbproxyTimeEnd := strtoll (fields 26)
  modifiedJdl := fields 27
  lastPollerVisited := strtoll (fields 28)
  creamDbid := strtoull (fields 29)
  tokenFile := fields 30
  cancelSequenceCode := fields 31

/-! ## Statements -/

/-- `get_tmp_name`, from the address `tmpnam` gives, if any, and the time. -/
def getTmpName (ptr : Option ℤ) (sec usec : ℤ) : Text :=
  "START_GLITEWMSICE_SQL_STRING_TAG_".toList ++
    ((ptr.map signedDigits).getD [] ++
      '_' :: (signedDigits sec ++ '_' :: signedDigits usec))

section

variable (marker : Text)

/-- `withSQLDelimiters`: a value between two markers. -/
def withSQLDelimiters (value : Text) : Text := marker ++ (value ++ marker)

/-- `get_query_values`, with the comma that is cut off in the end. -/
def getQueryValues (j : CreamJob) : Text :=
  (allFields.flatMap fun f => withSQLDelimiters marker (j.text f) ++ [',']).dropLast

/-- `get_query_fields`: the names of all columns. -/
def getQueryFields : Text :=
  (allFields.flatMap fun f => f.name ++ [',']).dropLast

/-- The statement of `CreateJob`. -/
def createJobSql (j : CreamJob) : Text :=
  "INSERT OR REPLACE INTO jobs (".toList ++ getQueryFields ++ ") VALUES (".toList ++
    getQueryValues marker j ++ [')']

/-- What the getter of a field gives; `none` if it throws. -/
def valueOf (j : CreamJob) : Field → Option Text
  | .tokenFile => CreamJob.tokenFileOf j.tokenFile
  | f => some (j.text f)

/-- One column and its new value. -/
def assignmentText (f : Field) (value : Text) : Text :=
  f.name ++ ['='] ++ withSQLDelimiters marker value ++ [',']

/-- The fields that have changed, with what is written of them. -/
def changedValues (j : CreamJob) : Option (List (Field × Text)) :=
  (allFields.filter fun f => j.changed f).mapM fun f =>
    (valueOf j f).map fun value => (f, value)

/-- `update_database`: an empty text if nothing has changed, `none` if it
throws. -/
def updateDatabase (j : CreamJob) : Option Text :=
  (changedValues j).map fun values =>
    let sql := values.flatMap fun v => assignmentText marker v.1 v.2
    if sql.isEmpty then []
    else
      let sql := if sql.getLast? = some ',' then sql.dropLast else sql
      "UPDATE jobs SET ".toList ++ (sql ++ " WHERE ".toList ++
        Field.name .gridJobid ++ ['='] ++ withSQLDelimiters marker j.gridJobid ++
        [';'])

/-- What `c_str` gives of a text. -/
def cString (s : Text) : Text := s.takeWhile (· ≠ Char.ofNat 0)

/-- What `do_query` hands to SQLite. -/
def doQuery (sqlcmd : Text) : Text :=
  cString (replaceAll marker ['\''] (replaceAll ['\''] ['\'', '\''] sqlcmd))

end

/-! ## SQLite -/

/-- A column, an equals sign and a literal. -/
def readColumn (s : Text) : Option ((Text × Text) × Text) :=
  match s.dropWhile (· ≠ '=') with
  | [] => none
  | _ :: rest =>
      (readLiteral rest).map fun r => ((s.takeWhile (· ≠ '='), r.1), r.2)

/-- Columns between commas; the number bounds how many there can be. -/
def readAssignments : ℕ → Text → Option (List (Text × Text) × Text)
  | 0, _ => none
  | n + 1, s =>
      match readColumn s with
      | none => none
      | some (a, ',' :: rest) => (readAssignments n rest).map fun r => (a :: r.1, r.2)
      | some (a, rest) => some ([a], rest)

/-- Literals between commas. -/
def readLiterals : ℕ → Text → Option (List Text × Text)
  | 0, _ => none
  | n + 1, s =>
      match readLiteral s with
      | none => none
      | some (v, ',' :: rest) => (readLiterals n rest).map fun r => (v :: r.1, r.2)
      | some (v, rest) => some ([v], rest)

/-- What is behind a text that has to be there. -/
def dropText (expected s : Text) : Option Text :=
  if expected.isPrefixOf s then some (s.drop expected.length) else none

/-- What a data base reads in an `UPDATE`. -/
structure Update where
  assignments : List (Text × Text)
  key : Text × Text
  deriving DecidableEq

/-- The statement, if it can be read. -/
def readUpdate (s : Text) : Option Update := do
  let s ← dropText "UPDATE jobs SET ".toList s
  let (assignments, s) ← readAssignments (s.length + 1) s
  let s ← dropText " WHERE ".toList s
  let (key, s) ← readColumn s
  if s = [';'] then some ⟨assignments, key⟩ else none

/-- What a data base reads in an `INSERT`. -/
structure Insert where
  columns : List Text
  values : List Text
  deriving DecidableEq

/-- The statement, if it can be read. -/
def readInsert (s : Text) : Option Insert := do
  let s ← dropText "INSERT OR REPLACE INTO jobs (".toList s
  let columns := (s.takeWhile (· ≠ ')')).splitOn ','
  let s ← dropText ") VALUES (".toList (s.dropWhile (· ≠ ')'))
  let (values, s) ← readLiterals (s.length + 1) s
  if s = [')'] then some ⟨columns, values⟩ else none

/-- A row, column by column. -/
abbrev TextRow := Field → Text

/-- The column of a name. -/
def columnOf (name : Text) : Option Field := allFields.find? fun f => f.name = name

/-- One column after the other is set. -/
def setColumns (r : TextRow) (columns : List (Field × Text)) : TextRow :=
  columns.foldl (fun r c => Function.update r c.1 c.2) r

/-- Columns that are there, with their values. -/
def columnsOf (assignments : List (Text × Text)) : Option (List (Field × Text)) :=
  assignments.mapM fun a => (columnOf a.1).map fun f => (f, a.2)

/-- What the statement does to the table. -/
def Update.run (u : Update) (rows : List TextRow) : Option (List TextRow) := do
  let columns ← columnsOf u.assignments
  let key ← columnOf u.key.1
  some (rows.map fun r => if r key = u.key.2 then setColumns r columns else r)

/-- A row with the same identifier gives way. -/
def Insert.run (i : Insert) (rows : List TextRow) : Option (List TextRow) := do
  let columns ← columnsOf (i.columns.zip i.values)
  let row := setColumns (fun _ => []) columns
  some (rows.filter (fun r => r .gridJobid ≠ row .gridJobid) ++ [row])

/-! ## Operations -/

namespace Sql

/-- `CreateJob`: the text is made, read again and run. -/
def createJob (marker : Text) (j : CreamJob) (rows : List TextRow) :
    Option (List TextRow) :=
  (readInsert (doQuery marker (createJobSql marker j))).bind fun i => i.run rows

/-- `UpdateJob`: nothing is done when there is nothing to write. -/
def updateJob (marker : Text) (j : CreamJob) (rows : List TextRow) :
    Option (List TextRow) :=
  (updateDatabase marker j).bind fun sql =>
    if sql.isEmpty then some rows
    else (readUpdate (doQuery marker sql)).bind fun u => u.run rows

/-- `GetJobByGid`. -/
def getJobByGid (rows : List TextRow) (gid : Text) : Option JobRow :=
  (rows.find? fun r => r .gridJobid = gid).map fun r =>
    fetchJobsCallback fun i => (allFields.map r).getD i []

end Sql

/-! ## Mutators -/

namespace Field

/-- What a field holds. -/
def Value : Field → Type
  | .prevStatus => JobStatus
  | .status => JobStatus
  | .numLoggedStatusChanges => ℕ
  | .lastSeen => ℤ
  | .statusPollRetryCount => ℕ
  | .exitCode => ℕ
  | .killedByice => Bool
  | .lastEmptyNotificationTime => ℤ
  | .proxyRenewable => Bool
  | .isbproxyTimeEnd => ℤ
  | .lastPollerVisited => ℤ
  | .creamDbid => ℕ
  | _ => Text

/-- The fields whose setter does nothing but set them. The setter of the
identifier is never called. -/
def plain : Field → Bool
  | .gridJobid => false
  | .creamJobid => false
  | .jdl => false
  | .sequenceCode => false
  | .status => false
  | .failureReason => false
  | _ => true

end Field

/-- A field is set. -/
def JobRow.set (r : JobRow) : (f : Field) → f.Value → JobRow
  | .gridJobid, (v : Text) => { r with gridJobid := v }
  | .creamJobid, (v : Text) => { r with creamJobid := v }
  | .completeCreamJobid, (v : Text) => { r with completeCreamJobid := v }
  | .jdl, (v : Text) => { r with jdl := v }
  | .ceid, (v : Text) => { r with ceid := v }
  | .endpoint, (v : Text) => { r with endpoint := v }
  | .creamAddress, (v : Text) => { r with creamAddress := v }
  | .creamDelegAddress, (v : Text) => { r with creamDelegAddress := v }
  | .userProxyfile, (v : Text) => { r with userProxyfile := v }
  | .userDn, (v : Text) => { r with userDn := v }
  | .sequenceCode, (v : Text) => { r with sequenceCode := v }
  | .delegationId, (v : Text) => { r with delegationId := v }
  | .wnSequenceCode, (v : Text) => { r with wnSequenceCode := v }
  | .prevStatus, (v : JobStatus) => { r with prevStatus := v }
  | .status, (v : JobStatus) => { r with status := v }
  | .numLoggedStatusChanges, (v : ℕ) => { r with numLoggedStatusChanges := v }
  | .lastSeen, (v : ℤ) => { r with lastSeen := v }
  | .leaseId, (v : Text) => { r with leaseId := v }
  | .statusPollRetryCount, (v : ℕ) => { r with statusPollRetryCount := v }
  | .exitCode, (v : ℕ) => { r with exitCode := v }
  | .failureReason, (v : Text) => { r with failureReason := v }
  | .workerNode, (v : Text) => { r with workerNode := v }
  | .killedByice, (v : Bool) => { r with killedByice := v }
  | .lastEmptyNotificationTime, (v : ℤ) => { r with lastEmptyNotificationTime := v }
  | .proxyRenewable, (v : Bool) => { r with proxyRenewable := v }
  | .myproxyAddress, (v : Text) => { r with myproxyAddress := v }
  | .isbproxyTimeEnd, (v : ℤ) => { r with isbproxyTimeEnd := v }
  | .modifiedJdl, (v : Text) => { r with modifiedJdl := v }
  | .lastPollerVisited, (v : ℤ) => { r with lastPollerVisited := v }
  | .creamDbid, (v : ℕ) => { r with creamDbid := v }
  | .tokenFile, (v : Text) => { r with tokenFile := v }
  | .cancelSequenceCode, (v : Text) => { r with cancelSequenceCode := v }

/-- The mutators of a job that is in the table. -/
inductive Mutator where
  | setStatus (st : JobStatus)
  | setCreamJobid (cid : Text)
  | setSequenceCode (seq : Text)
  | setFailureReason (f : Text)
  | set (f : Field) (v : f.Value) (hplain : f.plain = true)

/-- What a mutator does to the job in memory. -/
def Mutator.apply (cfg : Config) (j : CreamJob) : Mutator → CreamJob
  | .setStatus st => j.setStatus st
  | .setCreamJobid cid => j.setCreamJobid cfg cid
  | .setSequenceCode seq => j.setSequenceCode seq
  | .setFailureReason f => j.setFailureReason f
  | .set f v _ => { j.toJobRow.set f v with changed := j.touch f }

/-- Some mutators one after another. -/
def applyAll (cfg : Config) (ms : List Mutator) (j : CreamJob) : CreamJob :=
  ms.foldl (Mutator.apply cfg) j

/-- The fields whose flags go up. -/
def Mutator.targets : Mutator → List Field
  | .setStatus _ => [.prevStatus, .status]
  | .setCreamJobid _ => [.creamJobid, .completeCreamJobid]
  | .setSequenceCode _ => [.sequenceCode]
  | .setFailureReason _ => [.failureReason]
  | .set f _ _ => [f]

/-- The sequence code that a mutator sets. -/
def Mutator.newCode : Mutator → Option Text
  | .setSequenceCode seq => some seq
  | _ => none

/-- What one sequence code after the other makes of a JDL. -/
def substituted (code : Text) : List Text → Text → Text
  | [], jdl => jdl
  | seq :: seqs, jdl => substituted seq seqs (replaceAll code seq jdl)

end Wms.Ice
