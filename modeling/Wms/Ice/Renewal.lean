import Mathlib.Logic.Function.Basic
import Wms.Ice.Submit
import Wms.Lib.CString
import Wms.Lib.Lts
import Wms.Lib.OrderedMap

/-!
# The renewal of delegations (`iceCommandDelegationRenewal`)

A thread of its own goes through the table `delegation` again and again. For
what is about to expire it fetches a new proxy from the MyProxy server, stores
it as the proxy of the pair, gives the proxy of the pair to CREAM, and writes
the times into the table when it has been through all of it.

The other threads submit and remove jobs meanwhile. What they do with proxies and
delegations is done in sections under the lock of `DNProxyManager` or of
`Delegation_manager`. A section is one step, also beside one under the other lock,
and any may come between two calls of the renewal. A section of this thread is one
call of it.

A file is what its proxy lasts to, and a file that has none counts as missing.
The tables answer every statement.
-/

namespace Wms.Ice.Renewal

open Wms.Lib Proc

/-- What all threads see: the tables, the files, and what CREAM holds under an
identifier. The last field says which delegations CREAM has renewed. -/
structure Shared where
  db : Db
  files : Text → Option ℤ
  cream : Text → Option ℤ
  renewed : List Text

/-- A proxy file is written or removed. -/
def Shared.setFile (s : Shared) (path : Text) (v : Option ℤ) : Shared :=
  { s with files := Function.update s.files path v }

/-- CREAM takes the proxy of a file under an identifier. -/
def Shared.hold (s : Shared) (id : Text) (proxyTimeEnd : ℤ) : Shared :=
  { s with cream := Function.update s.cream id (some proxyTimeEnd) }

/-- What has no file cannot be copied or delegated. -/
def world : World Shared Call Answer
  | s, .db op, _ => ((s.db.run op).1, { s with db := (s.db.run op).2 })
  | s, .copyProxy source target, copied =>
      if copied then
        match s.files source with
        | some e => (true, s.setFile target (some e))
        | none => (false, s)
      else (false, s)
  | s, .creamDelegate _ certfile id, answer =>
      match answer, s.files certfile with
      | .ok (), some e => (.ok (), s.hold id e)
      | .ok (), none => (.error [], s)
      | .error what, _ => (.error what, s)
  | s, _, r => (r, s)

section

variable (lib : Libraries) (cfg : Config)

/-! ## What the other threads do -/

/-- The sections in which other threads store proxies, delegate and remove. -/
inductive Section where
  | setBetterProxy (job : CreamJob)
  | updateBetterProxy (job : CreamJob)
  | incrementUserProxyCounter (job : CreamJob)
  | decrementUserProxyCounter (dn myproxy : Text)
  | setUserProxyIfLongerLegacy (job : CreamJob)
  | delegate (job : CreamJob) (force : Bool)
  | redelegate (certfile url id : Text)

/-- A program of which only what it leaves counts. -/
def ignored {α : Type} (p : IceProc α) : IceProc Unit := p.bind fun _ => pure ()

/-- What a thread does while it holds the mutex of the proxies. -/
def Section.body : Section → IceProc Unit
  | .setBetterProxy job =>
      ignored (Ice.setBetterProxy lib cfg job.userDn job.userProxyfile
        job.myproxyAddress job.isbproxyTimeEnd 0)
  | .updateBetterProxy job =>
      ignored (Ice.updateBetterProxy lib cfg job.userDn job.myproxyAddress
        job.userProxyfile job.isbproxyTimeEnd)
  | .incrementUserProxyCounter job =>
      ignored (Ice.incrementUserProxyCounter lib cfg job job.isbproxyTimeEnd)
  | .decrementUserProxyCounter dn myproxy =>
      ignored (Ice.decrementUserProxyCounter dn myproxy)
  | .setUserProxyIfLongerLegacy job =>
      ignored (Ice.setUserProxyIfLongerLegacy lib cfg job.userDn job.userProxyfile
        job.isbproxyTimeEnd)
  | .delegate job force => ignored (Ice.delegate job job.proxyRenewable force)
  | .redelegate certfile url id => Ice.redelegate certfile url id

/-- With the row of a pair goes its file. -/
def Section.unlinked (s : Shared) : Section → List Text
  | .decrementUserProxyCounter dn myproxy =>
      if (s.db.proxy? dn myproxy).any (·.counter = 1) then
        [makeBetterproxyPath lib cfg dn myproxy]
      else []
  | _ => []

/-- Files that are removed one after another. -/
def unlinkAll (s : Shared) (paths : List Text) : Shared :=
  paths.foldl (fun s path => s.setFile path none) s

/-- None if the process is aborted. -/
def Section.run (o : Oracle Call Answer) (s : Shared) (m : Section) :
    Option Shared :=
  let d := exec world o 0 s (m.body lib cfg)
  match d.result with
  | .ok () => some (unlinkAll d.state (m.unlinked lib cfg s))
  | .error _ => none

/-! ## What the renewal asks -/

/-- What `glite-wms-ice-proxy-renew` has printed, and what is then in the file it
was to write. -/
structure Renewed where
  ok : Bool
  written : Option ℤ

/-- How `CreamProxy_ProxyRenew` ends. After an exception CREAM may hold the new
proxy all the same. -/
inductive RenewAnswer where
  | done
  | raised (what : Text) (carriedOut : Bool)

/-- The text of the exception, if one was raised. -/
def RenewAnswer.what : RenewAnswer → Text
  | .done => []
  | .raised what _ => what

/-- What `renewAllDelegations` asks of the rest of ICE. -/
inductive RenewalCall where
  | time
  | getDelegationEntries
  | getExactBetterProxyByDN (dn myproxy : Text)
  | proxyRenew (server certfile newcert : Text)
  | vomsTimeEnd (proxyfile : Text)
  | updateBetterProxy (dn myproxy proxyfile : Text) (exptime : ℤ)
  | unlink (path : Text)
  | isGoodProxy (proxyfile : Text)
  | removeDelegation (id : Text)
  | removeBetterProxy (dn myproxy : Text)
  | abortJobs (dn myproxy : Text)
  | creamProxyRenew (url certfile id : Text)
  | updateDelegation (id : Text) (exptime duration : ℤ)

/-- What each call answers. -/
abbrev RenewalAnswer : RenewalCall → Type
  | .time => ℤ
  | .getDelegationEntries => List DelegationRow
  | .getExactBetterProxyByDN _ _ => Option ProxyRow
  | .proxyRenew _ _ _ => Renewed
  | .vomsTimeEnd _ => Option ℤ
  | .updateBetterProxy _ _ _ _ => Bool
  | .isGoodProxy _ => Option ℤ
  | .creamProxyRenew _ _ _ => RenewAnswer
  | _ => Unit

/-- A program of `renewAllDelegations`. -/
abbrev RenewalProc := Proc RenewalCall RenewalAnswer Exception

/-- `RemoveDelegationByID` -/
def removeDelegationByID (db : Db) (id : Text) : Db :=
  { db with delegations := db.delegations.deleteIf fun r => r.delegationid = id }

/-- `UpdateDelegationTimesByID` -/
def updateDelegationTimesByID (db : Db) (id : Text) (exptime duration : ℤ) : Db :=
  { db with
    delegations := db.delegations.modifyIf (fun r => r.delegationid = id)
      (fun r => { r with exptime := exptime, duration := duration }) fun _ _ => rfl }

/-- `updateDelegation`, which looks for the row first. -/
def updateDelegation (db : Db) (id : Text) (exptime duration : ℤ) : Db :=
  if db.hasDelegation id then updateDelegationTimesByID db id exptime duration
  else db

/-- `removeBetterProxy`: the row and the file. -/
def removeBetterProxy (s : Shared) (dn myproxy : Text) : Shared :=
  ({ s with db := s.db.removeProxy dn myproxy }).setFile
    (makeBetterproxyPath lib cfg dn myproxy) none

/-- A proxy may be found unreadable. -/
def renewalWorld (o : Oracle Call Answer) :
    World Shared RenewalCall RenewalAnswer
  | s, .getDelegationEntries, _ =>
      (s.db.delegations.rows.filter (·.renewable), s)
  | s, .getExactBetterProxyByDN dn myproxy, _ => (s.db.proxy? dn myproxy, s)
  | s, .proxyRenew _ _ newcert, r => (r, s.setFile newcert r.written)
  | s, .vomsTimeEnd proxyfile, readable =>
      (readable.bind fun _ => s.files proxyfile, s)
  | s, .updateBetterProxy dn myproxy proxyfile exptime, _ =>
      let d := exec world o 0 s
        (Ice.updateBetterProxy lib cfg dn myproxy proxyfile exptime)
      (d.result.toOption.getD false, d.state)
  | s, .unlink path, _ => ((), s.setFile path none)
  | s, .isGoodProxy proxyfile, readable =>
      (readable.bind fun _ => s.files proxyfile, s)
  | s, .removeDelegation id, _ => ((), { s with db := removeDelegationByID s.db id })
  | s, .removeBetterProxy dn myproxy, _ =>
      ((), removeBetterProxy lib cfg s dn myproxy)
  | s, .creamProxyRenew _ certfile id, answer =>
      match s.files certfile, answer with
      | some e, .done =>
          (.done, { s.hold id e with renewed := id :: s.renewed })
      | some e, .raised what true => (.raised what true, s.hold id e)
      | _, answer => (.raised answer.what false, s)
  | s, .updateDelegation id exptime duration, _ =>
      ((), { s with db := updateDelegation s.db id exptime duration })
  | s, _, r => (r, s)

/-! ## `renewAllDelegations` -/

/-- One call. -/
def ask (c : RenewalCall) : RenewalProc (RenewalAnswer c) := perform c

/-- `DELEGATION_EXPIRATION_THRESHOLD_TIME` -/
def expirationThreshold : ℤ := 3600

/-- `mapDelegTime`: for an identifier, the time it expires at and the duration. -/
abbrev DelegTimes := OrderedMap Text (ℤ × ℤ)

/-- The times of a delegation are forgotten. -/
def eraseID (m : DelegTimes) (id : Text) : DelegTimes :=
  m.filter fun e => decide (e.1 ≠ id)

/-- Where the renewed proxy is written at first. -/
def renewedPath (certfile : Text) : Text := certfile ++ ".renewed".toList

/-- The proxy that has been fetched is stored, whatever it lasts to. -/
def fetchProxy (it : DelegationRow) (certfile : Text) : RenewalProc Unit := do
  let newcert := renewedPath certfile
  let answer ← ask (.proxyRenew it.myproxyurl certfile newcert)
  if answer.ok then
    match ← ask (.vomsTimeEnd newcert) with
    | none => pure ()
    | some timeEnd =>
        let _ ← ask (.updateBetterProxy it.userdn it.myproxyurl newcert timeEnd)
        ask (.unlink newcert)
  else pure ()

/-- The address of the delegation service of a CREAM. -/
def delegationUrl (creamurl : Text) : Text :=
  replaceAll cfg.creamUrlPostfix cfg.creamdelegationUrlPostfix creamurl

/-- The proxy of the pair goes to CREAM if it lasts longer than the delegation.
The time noted is the one of the table. -/
def renewWith (it : DelegationRow) (better : ProxyRow) (m : DelegTimes) :
    RenewalProc DelegTimes := do
  match ← ask (.isGoodProxy better.proxyfile) with
  | none => pure (eraseID m it.delegationid)
  | some proxyTimeEnd =>
      let t ← ask .time
      if proxyTimeEnd ≤ t - 5 then
        ask (.removeDelegation it.delegationid)
        ask (.removeBetterProxy it.userdn it.myproxyurl)
        ask (.abortJobs it.userdn it.myproxyurl)
        pure (eraseID m it.delegationid)
      else if it.exptime < proxyTimeEnd then
        match ← ask (.creamProxyRenew (delegationUrl cfg it.creamurl)
            better.proxyfile it.delegationid) with
        | .raised _ _ => pure (eraseID m it.delegationid)
        | .done =>
            let t ← ask .time
            pure (m.set it.delegationid (better.exptime, better.exptime - t))
      else pure (eraseID m it.delegationid)

/-- An entry of the table. -/
def renewDelegation (it : DelegationRow) (m : DelegTimes) :
    RenewalProc DelegTimes := do
  let t ← ask .time
  let remainingTime := it.exptime - t
  if it.duration < 5 * remainingTime ∧ expirationThreshold < remainingTime then
    pure (eraseID m it.delegationid)
  else
    match withProxyfile
        (← ask (.getExactBetterProxyByDN it.userdn it.myproxyurl)) with
    | none => pure (eraseID m it.delegationid)
    | some sbp =>
        fetchProxy it sbp.proxyfile
        let m := m.set it.delegationid (it.exptime, it.duration)
        match withProxyfile
            (← ask (.getExactBetterProxyByDN it.userdn it.myproxyurl)) with
        | none =>
            ask (.removeDelegation it.delegationid)
            pure (eraseID m it.delegationid)
        | some better => renewWith cfg it better m

/-- The loop over the delegations. -/
def renewEach : List DelegationRow → DelegTimes → RenewalProc DelegTimes
  | [], m => pure m
  | it :: entries, m => do
      let m ← renewDelegation cfg it m
      renewEach entries m

/-- The loop over the new times. -/
def updateEach : List (Text × ℤ × ℤ) → RenewalProc Unit
  | [] => pure ()
  | (id, exptime, duration) :: times => do
      ask (.updateDelegation id exptime duration)
      updateEach times

/-- `renewAllDelegations` -/
def renewAllDelegations : RenewalProc Unit := do
  let entries ← ask .getDelegationEntries
  let m ← renewEach cfg entries .empty
  updateEach m.entries

/-! ## All threads together -/

/-- `rest` is what the renewal still has to do. -/
structure State where
  shared : Shared
  rest : RenewalProc Unit

/-- A section of another thread, a file that somebody else changes, or a call of
the renewal, which begins again when it is through. -/
inductive Label where
  | other (m : Section) (o : Oracle Call Answer)
  | touch (path : Text) (v : Option ℤ)
  | renewal (o : Oracle Call Answer) (r : (c : RenewalCall) → RenewalAnswer c)

/-- One step of the renewal, or of another thread between two of them. -/
def next (s : State) : Label → Option State
  | .other m o => (m.run lib cfg o s.shared).map fun t => { s with shared := t }
  | .touch path v => some { s with shared := s.shared.setFile path v }
  | .renewal o r =>
      match s.rest with
      | .call c k =>
          let a := renewalWorld lib cfg o s.shared c (r c)
          some { shared := a.2, rest := k a.1 }
      | .ret _ => some { s with rest := renewAllDelegations cfg }
      | .throw _ => none

/-! ## What is asked of the others -/

/-- The proxy of a file does not end before a time. -/
def Lasts (s : Shared) (proxyfile : Text) (t : ℤ) : Prop :=
  ∀ e, s.files proxyfile = some e → t ≤ e

/-- The proxy of a pair is not replaced by one that ends earlier. -/
def NotShorter (s : Shared) (dn myproxy source : Text) : Prop :=
  ∀ row, s.db.proxy? dn myproxy = some row → ∀ e, s.files row.proxyfile = some e →
    Lasts s source e

/-- The file of a pair, whose name is a digest, is not the one of another pair. -/
def NotShared (s : Shared) (dn myproxy : Text) : Prop :=
  ∀ row ∈ s.db.proxies.rows,
    row.proxyfile = makeBetterproxyPath lib cfg dn myproxy → row.key = (dn, myproxy)

/-- What is asked where the proxy of a pair is stored: a renewable job names a
server, and its time is not after the end of its proxy. -/
structure Storable (s : Shared) (dn myproxy source : Text) (t : ℤ) : Prop where
  server : myproxy ≠ []
  lasts : Lasts s source t
  notShorter : NotShorter s dn myproxy source
  notShared : NotShared lib cfg s dn myproxy

/-- A proxy is stored only where it is there to be read. -/
def Section.Careful (s : Shared) : Section → Prop
  | .setBetterProxy job | .updateBetterProxy job =>
      Storable lib cfg s job.userDn job.myproxyAddress job.userProxyfile
        job.isbproxyTimeEnd
  | .incrementUserProxyCounter job =>
      s.db.proxy? job.userDn job.myproxyAddress = none →
        Storable lib cfg s job.userDn job.myproxyAddress job.userProxyfile
          job.isbproxyTimeEnd
  | .decrementUserProxyCounter _ myproxy => myproxy ≠ []
  | .setUserProxyIfLongerLegacy _ => True
  | .delegate job _ =>
      (job.proxyRenewable → job.myproxyAddress ≠ []) ∧
        Lasts s job.userProxyfile job.isbproxyTimeEnd
  | .redelegate certfile _ id => ∀ e, s.cream id = some e → Lasts s certfile e

/-- Somebody else leaves the files alone that are ICE's own. -/
def NotOwn (path : Text) : Prop :=
  ∀ dn myproxy, path ≠ makeBetterproxyPath lib cfg dn myproxy ∧
    path ≠ renewedPath (makeBetterproxyPath lib cfg dn myproxy)

/-- A proxy from the server is stored only if it does not end earlier. -/
def CallCareful (s : Shared) : RenewalCall → Prop
  | .updateBetterProxy dn myproxy source _ =>
      NotShorter s dn myproxy source ∧ NotShared lib cfg s dn myproxy
  | .removeBetterProxy dn myproxy => NotShared lib cfg s dn myproxy
  | _ => True

/-- An identifier that is generated is new. -/
def careful (s : State) : Label → Prop
  | .other m o =>
      m.Careful lib cfg s.shared ∧
        ∀ n, s.shared.cream (o n .generateDelegationID) = none
  | .touch path _ => NotOwn lib cfg path
  | .renewal _ _ =>
      match s.rest with
      | .call c _ => CallCareful lib cfg s.shared c
      | _ => True

/-! ## What holds of the tables -/

/-- What is recorded of a delegation is what CREAM holds, or less. -/
def Recorded (s : Shared) : Prop :=
  ∀ r ∈ s.db.delegations.rows, ∃ e, s.cream r.delegationid = some e ∧ r.exptime ≤ e

/-- The same of the proxies of pairs and their files, each with a file of its
own. -/
structure Consistent (s : Shared) : Prop where
  recorded : Recorded s
  unique : ∀ r ∈ s.db.delegations.rows, ∀ r' ∈ s.db.delegations.rows,
    r.delegationid = r'.delegationid → r = r'
  server : ∀ r ∈ s.db.delegations.rows, r.renewable → r.myproxyurl ≠ []
  path : ∀ row ∈ s.db.proxies.rows, row.myproxyurl ≠ [] →
    row.proxyfile = makeBetterproxyPath lib cfg row.userdn row.myproxyurl
  stored : ∀ row ∈ s.db.proxies.rows, row.myproxyurl ≠ [] →
    ∃ e, s.files row.proxyfile = some e ∧ row.exptime ≤ e
  apart : ∀ row ∈ s.db.proxies.rows, ∀ row' ∈ s.db.proxies.rows,
    row.myproxyurl ≠ [] → row'.myproxyurl ≠ [] → row.proxyfile = row'.proxyfile →
      row.key = row'.key

end

end Wms.Ice.Renewal
