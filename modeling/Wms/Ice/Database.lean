import Mathlib.Data.List.MinMax
import Wms.Ice.CreamJob
import Wms.Lib.Table

/-!
# The database of ICE (`src/org.glite.wms.ice/src/iceDb`)

The tables `jobs`, `proxy` and `delegation` with their indices, and the
operations on them under the names of their classes. Every operation is one
statement. The tables `stats` and `registered_jobs` are only written.
-/

namespace Wms.Ice

open Wms.Lib

/-- A row of the table `proxy`. -/
structure ProxyRow where
  userdn : Text
  myproxyurl : Text
  proxyfile : Text
  exptime : ℤ
  counter : ℤ
  deriving DecidableEq

/-- The primary key of the table of proxies. -/
def ProxyRow.key (r : ProxyRow) : Text × Text := (r.userdn, r.myproxyurl)

/-- A row of the table `delegation`. -/
structure DelegationRow where
  digest : Text
  creamurl : Text
  exptime : ℤ
  duration : ℤ
  delegationid : Text
  userdn : Text
  renewable : Bool
  myproxyurl : Text
  deriving DecidableEq

/-- The primary key of the table of delegations. -/
def DelegationRow.key (r : DelegationRow) : Text × Text × Text :=
  (r.digest, r.creamurl, r.myproxyurl)

/-- The tables that the submission uses. -/
structure Db where
  jobs : Table JobRow.gridJobid := .empty
  proxies : Table ProxyRow.key := .empty
  delegations : Table DelegationRow.key := .empty

/-- The operations on the data base, under the names of their classes. -/
inductive DbOp where
  | getJobByGid (gid : Text)
  | createJob (row : JobRow)
  | updateJob (j : CreamJob) (token : Text)
  | removeJobByGid (gid : Text)
  | insertStat (status : JobStatus)
  | insertStartedJobs (creamUrl gid jobId : Text)
  | getProxyInfoByDN (dn : Text)
  | getProxyInfoByDNMYProxy (dn myproxy : Text)
  | createProxyField (row : ProxyRow)
  | updateProxyFieldsByDN (dn myproxy proxyfile : Text) (exptime : ℤ)
  | updateProxyCounterByDN (dn myproxy : Text) (counter : ℤ)
  | removeProxyByDN (dn myproxy : Text)
  | getDelegation (digest creamurl myproxy : Text)
  | checkDelegationByID (id : Text)
  | createDelegation (row : DelegationRow)
  | removeDelegation (digest creamurl myproxy : Text)
  | removeDelegationByDNMyProxy (dn myproxy : Text)

namespace DbOp

/-- What an operation gives back; `createDelegation` says whether the row went
in. -/
abbrev Result : DbOp → Type
  | getJobByGid _ => Option JobRow
  | getProxyInfoByDN _ => Option ProxyRow
  | getProxyInfoByDNMYProxy _ _ => Option ProxyRow
  | getDelegation _ _ _ => Option DelegationRow
  | checkDelegationByID _ => Bool
  | createDelegation _ => Bool
  | _ => Unit

end DbOp

namespace Db

/-- The row of a job. -/
def job? (db : Db) (gid : Text) : Option JobRow := db.jobs.find? gid

/-- The row of a proxy. -/
def proxy? (db : Db) (dn myproxy : Text) : Option ProxyRow :=
  db.proxies.find? (dn, myproxy)

/-- `ORDER BY exptime DESC LIMIT 1`. -/
def longestProxy? (db : Db) (dn : Text) : Option ProxyRow :=
  @List.argmax _ ℤ Int.instLinearOrder.toPreorder Int.decLt ProxyRow.exptime
    (db.proxies.rows.filter fun r => r.userdn = dn)

/-- The caller takes a row with an empty digest for none. -/
def delegation? (db : Db) (digest creamurl myproxy : Text) :
    Option DelegationRow :=
  if digest.isEmpty then none
  else db.delegations.find? (digest, creamurl, myproxy)

/-- Whether there is a delegation of this identifier. -/
def hasDelegation (db : Db) (id : Text) : Bool :=
  db.delegations.rows.any fun r => r.delegationid = id

/-- `INSERT OR REPLACE` of a job. -/
def createJob (db : Db) (row : JobRow) : Db :=
  { db with jobs := db.jobs.put row }

theorem written_gridJobid (j : CreamJob) (token : Text) (r : JobRow)
    (h : r.gridJobid = j.gridJobid) :
    (j.written token r).gridJobid = j.gridJobid := by
  unfold CreamJob.written
  split
  · rfl
  · exact h

/-- `UPDATE` of the fields of a job that have changed. -/
def updateJob (db : Db) (j : CreamJob) (token : Text) : Db :=
  { db with
    jobs := db.jobs.modify j.gridJobid (j.written token)
      (written_gridJobid j token) }

/-- `DELETE` of a job. -/
def removeJob (db : Db) (gid : Text) : Db :=
  { db with jobs := db.jobs.delete gid }

/-- `INSERT OR REPLACE` of a proxy. -/
def putProxy (db : Db) (row : ProxyRow) : Db :=
  { db with proxies := db.proxies.put row }

/-- `UPDATE` of the file and the time of a proxy. -/
def updateProxy (db : Db) (dn myproxy proxyfile : Text) (exptime : ℤ) : Db :=
  { db with
    proxies := db.proxies.modify (dn, myproxy)
      (fun r => { r with proxyfile := proxyfile, exptime := exptime })
      fun _ h => h }

/-- `UPDATE` of the counter of a proxy. -/
def setCounter (db : Db) (dn myproxy : Text) (counter : ℤ) : Db :=
  { db with
    proxies := db.proxies.modify (dn, myproxy)
      (fun r => { r with counter := counter }) fun _ h => h }

/-- `DELETE` of a proxy. -/
def removeProxy (db : Db) (dn myproxy : Text) : Db :=
  { db with proxies := db.proxies.delete (dn, myproxy) }

/-- A plain `INSERT`, which the indices on the key and on the identifier may
refuse. -/
def createDelegation (db : Db) (row : DelegationRow) : Option Db :=
  if db.hasDelegation row.delegationid ||
      (db.delegations.find? row.key).isSome then none
  else some { db with delegations := db.delegations.put row }

/-- `DELETE` of a delegation by its key. -/
def removeDelegation (db : Db) (digest creamurl myproxy : Text) : Db :=
  { db with
    delegations := db.delegations.delete (digest, creamurl, myproxy) }

/-- `DELETE` of all delegations of a user. -/
def removeDelegationsOf (db : Db) (dn myproxy : Text) : Db :=
  { db with
    delegations := db.delegations.deleteIf fun r =>
      r.userdn = dn && r.myproxyurl = myproxy }

@[simp] theorem job?_createJob (db : Db) (row : JobRow) :
    (db.createJob row).job? row.gridJobid = some row :=
  db.jobs.find?_put_self row

@[simp] theorem job?_updateJob (db : Db) (j : CreamJob) (token : Text) :
    (db.updateJob j token).job? j.gridJobid =
      (db.job? j.gridJobid).map (j.written token) :=
  db.jobs.find?_modify_self _ _ (written_gridJobid j token)

@[simp] theorem job?_removeJob (db : Db) (gid : Text) :
    (db.removeJob gid).job? gid = none :=
  db.jobs.find?_delete_self gid

/-- An operation on the database. -/
def run (db : Db) : (op : DbOp) → op.Result × Db
  | .getJobByGid gid => (db.job? gid, db)
  | .createJob row => ((), db.createJob row)
  | .updateJob j token => ((), db.updateJob j token)
  | .removeJobByGid gid => ((), db.removeJob gid)
  | .insertStat _ => ((), db)
  | .insertStartedJobs _ _ _ => ((), db)
  | .getProxyInfoByDN dn => (db.longestProxy? dn, db)
  | .getProxyInfoByDNMYProxy dn myproxy => (db.proxy? dn myproxy, db)
  | .createProxyField row => ((), db.putProxy row)
  | .updateProxyFieldsByDN dn myproxy file exptime =>
      ((), db.updateProxy dn myproxy file exptime)
  | .updateProxyCounterByDN dn myproxy counter =>
      ((), db.setCounter dn myproxy counter)
  | .removeProxyByDN dn myproxy => ((), db.removeProxy dn myproxy)
  | .getDelegation digest url myproxy => (db.delegation? digest url myproxy, db)
  | .checkDelegationByID id => (!id.isEmpty && db.hasDelegation id, db)
  | .createDelegation row =>
      match db.createDelegation row with
      | some db' => (true, db')
      | none => (false, db)
  | .removeDelegation digest url myproxy =>
      ((), db.removeDelegation digest url myproxy)
  | .removeDelegationByDNMyProxy dn myproxy =>
      ((), db.removeDelegationsOf dn myproxy)

end Db

end Wms.Ice
