import Wms.Ice.Calls

/-!
# Proxies and delegations (`DNProxyManager`, `Delegation_manager`)

The table `proxy` holds, for every user and MyProxy server with renewable
jobs, a proxy with the number of these jobs, and for a user with other jobs a
row without a server and with counter zero. The table `delegation` holds what
has been delegated to the CREAM services, under the user or under the proxy
file, the service and the MyProxy server.
-/

namespace Wms.Ice

open Wms.Lib Proc

section DNProxyManager

variable (lib : Libraries) (cfg : Config)

/-- Where the proxy of a user is kept. -/
def legacyProxyPath (dn : Text) : Text :=
  cfg.persistDir ++ '/' :: lib.compressedString dn ++ ".proxy".toList

/-- Where a better proxy of a user is kept. -/
def makeBetterproxyPath (dn myproxy : Text) : Text :=
  cfg.persistDir ++ '/' :: lib.compressedString (dn ++ '_' :: myproxy) ++
    ".betterproxy".toList

/-- The proxy is stored unless one of the user lasts as long. -/
def setUserProxyIfLongerLegacy (dn prx : Text) (exptime : ℤ) :
    IceProc Bool := do
  let localProxy := legacyProxyPath lib cfg dn
  let store : IceProc Bool := do
    if ← ask (.copyProxy prx localProxy) then
      execDb (.createProxyField
        { userdn := dn, myproxyurl := [], proxyfile := localProxy
          exptime := exptime, counter := 0 })
      pure true
    else pure false
  match ← execDb (.getProxyInfoByDN dn) with
  | none => store
  | some info =>
      if info.exptime = 0 then store
      else if info.exptime < exptime then store
      else pure true

/-- `setBetterProxy`: the file is copied and the row written. -/
def setBetterProxy (dn proxyfile myproxyname : Text) (proxyTimeEnd : ℤ)
    (initCounter : ℤ) : IceProc Bool := do
  let localProxy := makeBetterproxyPath lib cfg dn myproxyname
  if ← ask (.copyProxy proxyfile localProxy) then
    execDb (.createProxyField
      { userdn := dn, myproxyurl := myproxyname, proxyfile := localProxy
        exptime := proxyTimeEnd, counter := initCounter })
    pure true
  else pure false

/-- `updateBetterProxy` -/
def updateBetterProxy (userDN myproxyname proxyfile : Text) (exptime : ℤ) :
    IceProc Bool := do
  let localProxy := makeBetterproxyPath lib cfg userDN myproxyname
  if ← ask (.copyProxy proxyfile localProxy) then
    execDb (.updateProxyFieldsByDN userDN myproxyname localProxy exptime)
    pure true
  else pure false

/-- The row with the longest time is the one the queries for events use. -/
def getAnyBetterProxyByDN (dn : Text) : IceProc (Option ProxyRow) :=
  execDb (.getProxyInfoByDN dn)

/-- `getExactBetterProxyByDN` -/
def getExactBetterProxyByDN (dn myproxyname : Text) :
    IceProc (Option ProxyRow) :=
  execDb (.getProxyInfoByDNMYProxy dn myproxyname)

/-- The time of a proxy that is already there is left as it is. -/
def incrementUserProxyCounter (job : CreamJob) (proxyTimeEnd : ℤ) :
    IceProc Bool := do
  match ← execDb (.getProxyInfoByDNMYProxy job.userDn job.myproxyAddress) with
  | some info =>
      execDb (.updateProxyCounterByDN job.userDn job.myproxyAddress
        (info.counter + 1))
      pure true
  | none =>
      setBetterProxy lib cfg job.userDn job.userProxyfile job.myproxyAddress
        proxyTimeEnd 1

/-- With the last job go the proxy and the delegations. -/
def decrementUserProxyCounter (userDN myproxyname : Text) : IceProc Bool := do
  match ← execDb (.getProxyInfoByDNMYProxy userDN myproxyname) with
  | none => pure true
  | some info =>
      execDb (.updateProxyCounterByDN userDN myproxyname (info.counter - 1))
      if info.counter = 1 then
        execDb (.removeProxyByDN userDN myproxyname)
        execDb (.removeDelegationByDNMyProxy userDN myproxyname)
        pure true
      else pure true

end DNProxyManager

section DelegationManager

/-- The key of the delegations of a job. -/
def delegationDigest (job : CreamJob) (useNew : Bool) :
    IceProc (Except Text Text) :=
  if useNew then pure (.ok job.userDn)
  else ask (.computeSha1Digest job.userProxyfile)

/-- A new delegation and its row. A refused `INSERT` is a failed delegation here; the
query itself would end the process. The identifier is new and no row has the key, so the
table refuses none. -/
def newDelegation (job : CreamJob) (useNew : Bool) (digest : Text) :
    IceProc (Except Text Text) := do
  let id ← ask .generateDelegationID
  let t ← now
  match ← ask (.creamDelegate job.creamDelegAddress job.userProxyfile id) with
  | .error what => pure (.error what)
  | .ok () =>
      let row : DelegationRow :=
        { digest := digest, creamurl := job.creamAddress
          exptime := job.isbproxyTimeEnd, duration := job.isbproxyTimeEnd - t
          delegationid := id, userdn := job.userDn, renewable := useNew
          myproxyurl := job.myproxyAddress }
      if ← execDb (.createDelegation row) then pure (.ok id)
      else pure (.error "Delegation failed: ".toList)

/-- The row of an identifier that is to be replaced goes before CREAM is asked
for a new delegation. -/
def delegate (job : CreamJob) (useNew force : Bool) :
    IceProc (Except Text Text) := do
  match ← delegationDigest job useNew with
  | .error what => pure (.error what)
  | .ok digest =>
      match ← execDb
          (.getDelegation digest job.creamAddress job.myproxyAddress) with
      | none => newDelegation job useNew digest
      | some info =>
          if force then
            execDb (.removeDelegation digest job.creamAddress
              job.myproxyAddress)
            newDelegation job useNew digest
          else pure (.ok info.delegationid)

/-- What CREAM answers to the delegation is ignored. -/
def redelegate (certfile delegationUrl delegationId : Text) :
    IceProc Unit := do
  if ← execDb (.checkDelegationByID delegationId) then
    let _ ← ask (.creamDelegate delegationUrl certfile delegationId)
    pure ()
  else throw .abort

end DelegationManager

end Wms.Ice
