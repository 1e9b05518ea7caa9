import Mathlib.Data.Nat.Notation
import Mathlib.Data.List.Basic
import Wms.Lib.Instances

/-!
# Access control lists (`src/org.glite.wms.interface/src/security`)

`GaclManager` and the authorization that rests on it. The manager keeps the
permissions of the entry it has loaded last, and its methods may throw when
they have changed it already, so a method returns what it throws or returns
together with the manager it leaves.

GridSite keeps a credential as a URI with the value encoded behind a scheme.
The encoding and the regular expressions of Boost are parameters.
-/

namespace Wms.Security

abbrev Text := List Char

/-- What the code takes from GridSite and from Boost. -/
structure Libraries where
  urlEncode : Text → Text
  urlDecode : Text → Text
  /-- `regex_match` with a basic expression; `none` if there is an error in the
  expression. -/
  regexMatch : Text → Text → Option Bool

/-! ## GridSite -/

/-- `GRSTgaclPerm`. -/
abbrev Perm := BitVec 32

/-- `GRST_PERM_NONE` and the others. -/
def permNone : Perm := 0
def permRead : Perm := 1
def permExec : Perm := 2

/-- A conversion of `mask & p` to `bool`: one of several permissions is
enough. -/
def anyOf (mask p : Perm) : Bool := mask &&& p ≠ 0

/-- An entry with the URIs of its credentials. -/
structure Entry where
  creds : List Text
  allowed : Perm
  denied : Perm
  deriving DecidableEq, Repr

namespace Entry

/-- `GRSTgaclEntryAllowPerm` -/
def allowPerm (e : Entry) (p : Perm) : Entry :=
  { e with allowed := e.allowed ||| p }

/-- `GRSTgaclEntryUnallowPerm` -/
def unallowPerm (e : Entry) (p : Perm) : Entry :=
  { e with allowed := e.allowed &&& ~~~p }

/-- `GRSTgaclEntryDenyPerm` -/
def denyPerm (e : Entry) (p : Perm) : Entry :=
  { e with denied := e.denied ||| p }

/-- `GRSTgaclEntryUndenyPerm` -/
def undenyPerm (e : Entry) (p : Perm) : Entry :=
  { e with denied := e.denied &&& ~~~p }

end Entry

/-- `WMPgaclCredType` -/
inductive CredType where
  | undefcred
  | anyuser
  | person
  | dnlist
  | voms
  | dns
  deriving DecidableEq, Repr

/-- What a URI of each kind of credential begins with. -/
def personScheme : Text := ['d', 'n', ':']
def vomsScheme : Text := ['f', 'q', 'a', 'n', ':']
def dnlistScheme : Text := ['u', 'r', 'l', ':']
def dnsScheme : Text := ['d', 'n', 's', ':']
def anyUser : Text := ['a', 'n', 'y', '-', 'u', 's', 'e', 'r']

/-- A new credential after its value has been added. -/
def newCred (lib : Libraries) (type : CredType) (rawvalue : Text) : Text :=
  match type with
  | .undefcred => []
  | .anyuser => anyUser
  | .person => personScheme ++ lib.urlEncode rawvalue
  | .dnlist => dnlistScheme ++ lib.urlEncode rawvalue
  | .voms => vomsScheme ++ lib.urlEncode rawvalue
  | .dns => dnsScheme ++ lib.urlEncode rawvalue

/-! ## The manager -/

/-- What the functions of the manager throw. -/
inductive Thrown where
  | gacl
  | authorization
  /-- From the standard library or from Boost. -/
  | other
  deriving DecidableEq, Repr

/-- The members of `GaclManager`; the list is missing after a failed load. -/
structure Manager where
  gaclAcl : Option (List Entry)
  /-- Also stands for the name in `rawCred`. -/
  credType : CredType
  rawvalue : Text
  gaclAllowed : Perm
  gaclDenied : Perm
  deriving DecidableEq, Repr

/-- A manager of a list that has been loaded. -/
def newManager (acl : List Entry) : Manager :=
  ⟨some acl, .undefcred, [], permNone, permNone⟩

/-- The constructor, given what the file holds or that there is none that can
be loaded. -/
def openManager : Option (List Entry) → Except Thrown Manager
  | some acl => .ok (newManager acl)
  | none => .error .gacl

/-- An exception or a result, and the manager that is left in either case. -/
abbrev Outcome (α : Type) := Except Thrown α × Manager

/-- `setCredentialType`, which refuses the type that is not defined. -/
def setCredentialType (m : Manager) (type : CredType) (rawvalue : Text) :
    Outcome Unit :=
  match type with
  | .undefcred => (.error .gacl, m)
  | _ => (.ok (), { m with credType := type, rawvalue := rawvalue })

/-- A dot stands for itself in the pattern. -/
def replaceDots : Text → Text
  | [] => []
  | '.' :: cs => '[' :: '.' :: ']' :: replaceDots cs
  | c :: cs => c :: replaceDots cs

/-- An encoded star stands for any text. -/
def replaceStars : Text → Text
  | '%' :: '2' :: 'A' :: cs => '.' :: '*' :: replaceStars cs
  | c :: cs => c :: replaceStars cs
  | [] => []

/-- A plus is an encoded blank. -/
def replacePluses : Text → Text
  | [] => []
  | '+' :: cs => ' ' :: replacePluses cs
  | c :: cs => c :: replacePluses cs

/-- As many characters as "fqan:" has are cut off, whatever they are; `substr`
throws if there are not as many. -/
def compareFQAN (lib : Libraries) (gaclFqan userFqan : Text) :
    Except Thrown Bool :=
  if gaclFqan.length < vomsScheme.length then .error .other
  else
    let regex :=
      replacePluses (replaceStars (replaceDots (gaclFqan.drop
        vomsScheme.length)))
    match lib.regexMatch ('^' :: regex ++ ['$']) userFqan with
    | some b => .ok b
    | none => .error .other

/-- Whether the loader takes a credential for the requested one. -/
def taken (lib : Libraries) (type : CredType) (rawvalue auri : Text) :
    Except Thrown Bool :=
  match type with
  | .anyuser => .ok true
  | .person => .ok (auri = newCred lib type rawvalue)
  | .voms => compareFQAN lib auri rawvalue
  | _ => .ok false

/-- The credentials of one entry, up to the first that matches. -/
def scanCreds (lib : Libraries) (type : CredType) (rawvalue : Text) :
    List Text → Except Thrown Bool
  | [] => .ok false
  | auri :: auris =>
      match taken lib type rawvalue auri with
      | .error t => .error t
      | .ok true => .ok true
      | .ok false => scanCreds lib type rawvalue auris

/-- The first entry with a credential that is taken, and the entries before
it. -/
def scanEntries (lib : Libraries) (type : CredType) (rawvalue : Text) :
    List Entry → Except Thrown (Option (ℕ × Entry))
  | [] => .ok none
  | e :: es =>
      match scanCreds lib type rawvalue e.creds with
      | .error t => .error t
      | .ok true => .ok (some (0, e))
      | .ok false =>
          match scanEntries lib type rawvalue es with
          | .error t => .error t
          | .ok none => .ok none
          | .ok (some (n, e)) => .ok (some (n + 1, e))

/-- What is found is loaded; else what was loaded before stays. -/
def loadCredential (lib : Libraries) (m : Manager) :
    Outcome (Option (ℕ × Entry)) :=
  match scanEntries lib m.credType m.rawvalue (m.gaclAcl.getD []) with
  | .error t => (.error t, m)
  | .ok none => (.ok none, m)
  | .ok (some (n, e)) =>
      (.ok (some (n, e)),
        { m with gaclAllowed := e.allowed, gaclDenied := e.denied })

/-- `loadCredential` with a type and a value, which become the members. -/
def loadCredentialOf (lib : Libraries) (m : Manager) (type : CredType)
    (rawvalue : Text) : Outcome (Option (ℕ × Entry)) :=
  match setCredentialType m type rawvalue with
  | (.error t, m) => (.error t, m)
  | (.ok (), m) => loadCredential lib m

/-- `hasEntry` -/
def hasEntry (lib : Libraries) (m : Manager) (type : CredType)
    (rawvalue : Text) : Outcome Bool :=
  match loadCredentialOf lib m type rawvalue with
  | (.error t, m) => (.error t, m)
  | (.ok found, m) => (.ok found.isSome, m)

/-- `result` is set where nothing is found, and set again behind it. -/
def checkAllowPermission (lib : Libraries) (m : Manager) (type : CredType)
    (rawvalue : Text) (permission : Perm) : Outcome Bool :=
  match loadCredentialOf lib m type rawvalue with
  | (.error t, m) => (.error t, m)
  | (.ok _, m) =>
      let allow := anyOf m.gaclAllowed permission
      let deny := anyOf m.gaclDenied permission
      if allow && deny then (.error .gacl, m)
      else if !allow && !deny then (.ok false, m)
      else (.ok allow, m)

/-- `checkDenyPermission`, which does not look for anything more general. -/
def checkDenyPermission (lib : Libraries) (m : Manager) (type : CredType)
    (rawvalue : Text) (permission : Perm) : Outcome Bool :=
  match loadCredentialOf lib m type rawvalue with
  | (.error t, m) => (.error t, m)
  | (.ok none, m) => (.ok false, m)
  | (.ok (some _), m) => (.ok (anyOf m.gaclDenied permission), m)

/-- The part `allowPermission` and `denyPermission` share. -/
def changePermission (lib : Libraries) (change : Entry → Entry) (m : Manager)
    (type : CredType) (rawvalue : Text) (unsetPerm : Bool) : Outcome Unit :=
  match loadCredentialOf lib m type rawvalue with
  | (.error t, m) => (.error t, m)
  | (.ok none, m) => (.error .gacl, m)
  | (.ok (some (n, e)), m) =>
      let m :=
        if unsetPerm then
          { m with gaclAllowed := permNone, gaclDenied := e.denied }
        else m
      -- The entry itself is not reset, and the members follow the entry.
      let e := change e
      (.ok (), { m with
        gaclAcl := m.gaclAcl.map fun acl => acl.set n e
        gaclAllowed := e.allowed
        gaclDenied := e.denied })

/-- `allowPermission` -/
def allowPermission (lib : Libraries) (m : Manager) (type : CredType)
    (rawvalue : Text) (permission : Perm) (unsetPerm : Bool) : Outcome Unit :=
  changePermission lib
    (fun e => (e.allowPerm permission).undenyPerm permission)
    m type rawvalue unsetPerm

/-- `denyPermission` -/
def denyPermission (lib : Libraries) (m : Manager) (type : CredType)
    (rawvalue : Text) (permission : Perm) (unsetPerm : Bool) : Outcome Unit :=
  changePermission lib
    (fun e => (e.denyPerm permission).unallowPerm permission)
    m type rawvalue unsetPerm

/-- `setAllowPermission`: the permissions in memory are reset first. -/
def setAllowPermission (lib : Libraries) (m : Manager) (type : CredType)
    (rawvalue : Text) (permission : Perm) : Outcome Unit :=
  allowPermission lib m type rawvalue permission true

/-- `setDenyPermission` -/
def setDenyPermission (lib : Libraries) (m : Manager) (type : CredType)
    (rawvalue : Text) (permission : Perm) : Outcome Unit :=
  denyPermission lib m type rawvalue permission true

/-- `newCredential`: an entry at the end, without permissions. -/
def newCredential (lib : Libraries) (m : Manager) : Manager :=
  { m with
    gaclAcl := some (m.gaclAcl.getD [] ++
      [⟨[newCred lib m.credType m.rawvalue], permNone, permNone⟩]) }

/-- `addEntry`, which refuses a credential that is there. -/
def addEntry (lib : Libraries) (m : Manager) (type : CredType)
    (rawvalue : Text) (permission : Perm) : Outcome Unit :=
  match loadCredentialOf lib m type rawvalue with
  | (.error t, m) => (.error t, m)
  | (.ok (some _), m) => (.error .gacl, m)
  | (.ok none, m) =>
      setAllowPermission lib (newCredential lib m) type rawvalue permission

/-- `addEntries`: those before the one that is refused stay. -/
def addEntries (lib : Libraries) (m : Manager) :
    List (CredType × Text) → Outcome Unit
  | [] => (.ok (), m)
  | (type, rawvalue) :: rest =>
      match addEntry lib m type rawvalue permRead with
      | (.error t, m) => (.error t, m)
      | (.ok (), m) => addEntries lib m rest

/-- Whether the entry was found. The list goes with its last entry. -/
def removeEntry (lib : Libraries) (m : Manager) (type : CredType)
    (rawvalue : Text) : Outcome Bool :=
  match setCredentialType m type rawvalue with
  | (.error t, m) => (.error t, m)
  | (.ok (), m) =>
      let acl := m.gaclAcl.getD []
      match acl.findIdx? fun e => e.creds.contains (newCred lib type rawvalue)
        with
      | none => (.ok false, m)
      | some n =>
          let acl := acl.eraseIdx n
          (.ok true,
            { m with gaclAcl := if acl.isEmpty then none else some acl })

/-- Throws at the end if there was an error. -/
def removeEntriesFrom (lib : Libraries) (errors : Bool) (m : Manager) :
    List (CredType × Text) → Outcome Unit
  | [] => (if errors then .error .gacl else .ok (), m)
  | (type, rawvalue) :: rest =>
      match removeEntry lib m type rawvalue with
      | (.error t, m) => (.error t, m)
      | (.ok found, m) => removeEntriesFrom lib (errors || !found) m rest

/-- `removeEntries` -/
def removeEntries (lib : Libraries) (m : Manager)
    (vect : List (CredType × Text)) : Outcome Unit :=
  removeEntriesFrom lib false m vect

/-- The list is made if there is none; whether the file was written is the
answer. -/
def saveGacl (m : Manager) (written : Bool) : Outcome Bool :=
  match m.gaclAcl with
  | some _ => (.ok written, m)
  | none => (.ok true, { m with gaclAcl := some [] })

/-- The scheme of the credentials that count as of a type. For the type "dns"
there is none: its name is taken to be "hostname". -/
def schemeOf : CredType → Option Text
  | .person => some personScheme
  | .voms => some vomsScheme
  | .dnlist => some dnlistScheme
  | _ => none

/-- The value of a credential of a scheme. -/
def itemOf (lib : Libraries) (scheme auri : Text) : Option Text :=
  if scheme.isPrefixOf auri then
    some (lib.urlDecode (auri.drop scheme.length))
  else none

/-- `getItems`: the values of all credentials of a type. -/
def getItems (lib : Libraries) (m : Manager) (type : CredType) :
    Outcome (List Text) :=
  match type with
  | .anyuser => (.error .gacl, m)
  | _ =>
      match setCredentialType m type [] with
      | (.error t, m) => (.error t, m)
      | (.ok (), m) =>
          let auris := (m.gaclAcl.getD []).flatMap Entry.creds
          match schemeOf type with
          | none => (.ok [], m)
          | some scheme => (.ok (auris.filterMap (itemOf lib scheme)), m)

/-- Three characters are compared with those of "any-user", for every type. -/
def isOfType (type : CredType) (auri : Text) : Bool :=
  ((schemeOf type).map fun scheme => scheme.isPrefixOf auri).getD false ||
    (anyUser.take 3).isPrefixOf auri

/-- Whether any entry has a credential of the type. -/
def checkCredentialEntries (acl : List Entry) (type : CredType) : Bool :=
  acl.any fun e => e.creds.any (isOfType type)

/-! ## Sequences of calls -/

/-- The calls that edit the list. -/
inductive Call where
  | addEntry (type : CredType) (rawvalue : Text) (permission : Perm)
  | addEntries (vect : List (CredType × Text))
  | removeEntry (type : CredType) (rawvalue : Text)
  | removeEntries (vect : List (CredType × Text))
  | hasEntry (type : CredType) (rawvalue : Text)
  | checkAllowPermission (type : CredType) (rawvalue : Text)
      (permission : Perm)
  | checkDenyPermission (type : CredType) (rawvalue : Text)
      (permission : Perm)
  | allowPermission (type : CredType) (rawvalue : Text) (permission : Perm)
      (unsetPerm : Bool)
  | denyPermission (type : CredType) (rawvalue : Text) (permission : Perm)
      (unsetPerm : Bool)
  | setAllowPermission (type : CredType) (rawvalue : Text) (permission : Perm)
  | setDenyPermission (type : CredType) (rawvalue : Text) (permission : Perm)
  | getItems (type : CredType)
  | saveGacl (written : Bool)

/-- The manager a call leaves, whether it returns or throws. -/
def afterCall (lib : Libraries) (m : Manager) : Call → Manager
  | .addEntry type v p => (addEntry lib m type v p).2
  | .addEntries vect => (addEntries lib m vect).2
  | .removeEntry type v => (removeEntry lib m type v).2
  | .removeEntries vect => (removeEntries lib m vect).2
  | .hasEntry type v => (hasEntry lib m type v).2
  | .checkAllowPermission type v p => (checkAllowPermission lib m type v p).2
  | .checkDenyPermission type v p => (checkDenyPermission lib m type v p).2
  | .allowPermission type v p u => (allowPermission lib m type v p u).2
  | .denyPermission type v p u => (denyPermission lib m type v p u).2
  | .setAllowPermission type v p => (setAllowPermission lib m type v p).2
  | .setDenyPermission type v p => (setDenyPermission lib m type v p).2
  | .getItems type => (getItems lib m type).2
  | .saveGacl written => (saveGacl m written).2

/-- The manager after some calls, whatever they throw. -/
def afterCalls (lib : Libraries) (m : Manager) (calls : List Call) : Manager :=
  calls.foldl (afterCall lib) m

/-! ## The authorization -/

/-- A check within the authorization, where what is thrown ends it. -/
def mayExec (lib : Libraries) (m : Manager) (type : CredType)
    (rawvalue : Text) : Except Thrown (Bool × Manager) :=
  match checkAllowPermission lib m type rawvalue permExec with
  | (.error t, _) => .error t
  | (.ok b, m) => .ok (b, m)

/-- The check is made if there are credentials of the type. -/
def checkIf (lib : Libraries) (m : Manager) (exist : Bool) (type : CredType)
    (rawvalue : Text) (otherwise : Bool) : Except Thrown (Bool × Manager) :=
  if exist then mayExec lib m type rawvalue else .ok (otherwise, m)

/-- A user whose proxy has an FQAN. -/
def authorizeFqan (lib : Libraries) (m : Manager)
    (exist existDN existAU : Bool) (fqan dn : Text) : Except Thrown Bool := do
  let (execAU, m) ← checkIf lib m existAU .anyuser [] false
  let (exec, m) ← checkIf lib m exist .voms fqan (existAU || existDN)
  let execAU := execAU || (exist && exec)
  -- A second branch for `existDN` is never reached.
  let (execDN, _) ← checkIf lib m existDN .person dn (execAU || exec)
  let overrides := existDN && execDN
  return (exec || overrides) && execDN && (execAU || overrides)

/-- A user whose proxy has none; the check of the DN is made twice if it
fails. -/
def authorizeDN (lib : Libraries) (m : Manager) (existDN existAU : Bool)
    (dn : Text) : Except Thrown Bool := do
  let (execAU, m) ← checkIf lib m existAU .anyuser [] false
  let (first, m) ← checkIf lib m existDN .person dn false
  let (execDN, _) ← checkIf lib m (existDN && !first) .person dn first
  let execAU := execAU || execDN
  return execDN || execAU

/-- `acl` is what the file holds. Whatever is thrown refuses the user. -/
def checkGaclUserAuthZ (lib : Libraries) (acl : Option (List Entry))
    (fqan dn : Text) : Except Thrown Unit := do
  let m ← openManager acl
  let entries := m.gaclAcl.getD []
  let exist := checkCredentialEntries entries .voms
  let existDN := checkCredentialEntries entries .person
  let existAU := checkCredentialEntries entries .anyuser
  let exec ←
    if fqan ≠ [] then authorizeFqan lib m exist existDN existAU fqan dn
    else authorizeDN lib m existDN existAU dn
  if exec then pure () else throw .authorization

end Wms.Security
