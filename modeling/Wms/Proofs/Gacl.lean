import Wms.Interface.Gacl

/-!
# What an access decision depends on

A decision should depend on the first entry with a credential that matches. It
depends on the entry the loader stops at, and if there is none on the entry
that was loaded before. Which entry that is the credentials alone decide, so
the condition for a check, `Heeds`, speaks of nothing that is allowed or denied
in the list; it is exact for all lists with the same credentials.

Where the loader stops at the entry that matches, the authorization comes down
to three entries: that of the DN decides, else that of the FQAN, else that of
any user.
-/

namespace Wms.Security

variable (lib : Libraries)

/-! ## Credentials that match -/

/-- The credential is of the requested type and stands for the value. -/
def matching (type : CredType) (rawvalue auri : Text) : Bool :=
  match type with
  | .undefcred => false
  | .anyuser => auri = anyUser
  | .voms => vomsScheme.isPrefixOf auri &&
      (compareFQAN lib auri rawvalue).toOption = some true
  | _ => auri = newCred lib type rawvalue

/-- Whether an entry has a credential that matches. -/
def hasMatching (type : CredType) (rawvalue : Text) (e : Entry) : Bool :=
  e.creds.any (matching lib type rawvalue)

/-- The first entry that has one. -/
def firstMatch (type : CredType) (rawvalue : Text) (acl : List Entry) :
    Option Entry :=
  acl.find? (hasMatching lib type rawvalue)

namespace Entry

/-- Whether an entry allows anything of a permission. -/
def allows (e : Entry) (p : Perm) : Bool := anyOf e.allowed p

/-- Whether it denies anything of one. -/
def denies (e : Entry) (p : Perm) : Bool := anyOf e.denied p

/-- Whether it allows it and does not deny it. -/
def grants (e : Entry) (p : Perm) : Bool := e.allows p && !e.denies p

end Entry

/-- The entries, which are none where there is no list. -/
def entries (m : Manager) : List Entry := m.gaclAcl.getD []

/-- A check decides by the first entry that matches, and refuses if there is
none. -/
def DecidesByMatch (m : Manager) (type : CredType) (rawvalue : Text)
    (p : Perm) : Prop :=
  ((checkAllowPermission lib m type rawvalue p).1 = .ok true ↔
    ∃ e, firstMatch lib type rawvalue (entries m) = some e ∧
      e.allows p = true ∧ e.denies p = false) ∧
  (firstMatch lib type rawvalue (entries m) = none →
    (checkAllowPermission lib m type rawvalue p).1 = .ok false)

/-! ## Where the loader stops

It compares the credentials one by one, and stops at the first that it takes
or is not able to compare. -/

/-- Whether a credential is taken, or else cannot be compared; `none` for one
that is passed over. -/
def meets (type : CredType) (rawvalue auri : Text) : Option Bool :=
  match taken lib type rawvalue auri with
  | .ok true => some true
  | .ok false => none
  | .error _ => some false

/-- The number of the entry with the first credential that is not passed over,
and whether it is taken. -/
def stop (type : CredType) (rawvalue : Text) (creds : List (List Text)) :
    Option (ℕ × Bool) :=
  creds.zipIdx.findSome? fun entry =>
    (entry.1.findSome? (meets lib type rawvalue)).map fun b => (entry.2, b)

/-- The number of the first entry with a credential that matches. -/
def matchAt (type : CredType) (rawvalue : Text) (creds : List (List Text)) :
    Option ℕ :=
  creds.findIdx? fun auris => auris.any (matching lib type rawvalue)

/-- The credentials of the entries. -/
def credsOf (acl : List Entry) : List (List Text) := acl.map Entry.creds

/-- The loader stops at the first entry that matches. Where it stops at none,
the permissions kept from before do not allow; where it cannot compare, there
is an entry that matches and no permission is asked for. -/
def Heeds (m : Manager) (type : CredType) (rawvalue : Text) (p : Perm) : Prop :=
  match stop lib type rawvalue (credsOf (entries m)) with
  | none => anyOf m.gaclAllowed p = false
  | some (n, true) =>
      p = permNone ∨ matchAt lib type rawvalue (credsOf (entries m)) = some n
  | some (_, false) =>
      p = permNone ∧
        (matchAt lib type rawvalue (credsOf (entries m))).isSome = true

/-- The same manager with another list. -/
def withAcl (m : Manager) (acl : List Entry) : Manager :=
  { m with gaclAcl := some acl }

/-- The entry the loader stops at gives what the first entry that matches
gives. -/
def Settled (m : Manager) (type : CredType) (rawvalue : Text) (p : Perm) :
    Prop :=
  match scanEntries lib type rawvalue (entries m),
    firstMatch lib type rawvalue (entries m) with
  | .ok (some (_, e)), some e' => e.grants p = e'.grants p
  | .ok (some (_, e)), none => e.allows p = false
  | .ok none, _ => anyOf m.gaclAllowed p = false
  | .error _, some e => e.grants p = false
  | .error _, none => False

/-- The three types of credentials that are checked for. -/
def Checked (type : CredType) : Prop :=
  type = .anyuser ∨ type = .person ∨ type = .voms

variable {lib}

theorem taken_of_matching {type : CredType} {rawvalue auri : Text}
    (htype : Checked type) (h : matching lib type rawvalue auri = true) :
    taken lib type rawvalue auri = .ok true := by
  rcases htype with rfl | rfl | rfl
  · rfl
  · exact congrArg Except.ok h
  · obtain ⟨_, hfqan⟩ := Bool.and_eq_true_iff.mp h
    have hfqan := of_decide_eq_true hfqan
    unfold taken
    dsimp only
    cases hc : compareFQAN lib auri rawvalue with
    | error t =>
        rw [hc] at hfqan
        cases hfqan
    | ok b =>
        rw [hc] at hfqan
        exact congrArg Except.ok (Option.some.inj hfqan)

theorem scanCreds_of_matching {type : CredType} {rawvalue : Text}
    (htype : Checked type) {auris : List Text}
    (h : auris.any (matching lib type rawvalue) = true) :
    scanCreds lib type rawvalue auris ≠ .ok false := by
  induction auris with
  | nil => cases h
  | cons auri auris ih =>
      rw [List.any_cons, Bool.or_eq_true] at h
      unfold scanCreds
      cases htaken : taken lib type rawvalue auri with
      | error t => exact fun h => by cases h
      | ok b =>
          cases b with
          | true => exact fun h => by cases h
          | false =>
              rcases h with h | h
              · rw [taken_of_matching htype h] at htaken
                cases htaken
              · exact ih h

/-- Where the loader stops nowhere, nothing matches. -/
theorem firstMatch_of_scan_none {type : CredType} {rawvalue : Text}
    (htype : Checked type) {acl : List Entry}
    (h : scanEntries lib type rawvalue acl = .ok none) :
    firstMatch lib type rawvalue acl = none := by
  induction acl with
  | nil => rfl
  | cons e es ih =>
      unfold scanEntries at h
      cases hcreds : scanCreds lib type rawvalue e.creds with
      | error t =>
          rw [hcreds] at h
          cases h
      | ok b =>
          rw [hcreds] at h
          cases b with
          | true => cases h
          | false =>
              have hno : hasMatching lib type rawvalue e = false := by
                cases hm : hasMatching lib type rawvalue e with
                | false => rfl
                | true => exact absurd hcreds (scanCreds_of_matching htype hm)
              unfold firstMatch
              rw [List.find?_cons_of_neg (by rw [hno]; exact Bool.false_ne_true)]
              refine ih ?_
              cases hes : scanEntries lib type rawvalue es with
              | error t =>
                  rw [hes] at h
                  cases h
              | ok r =>
                  rw [hes] at h
                  cases r with
                  | none => rfl
                  | some r => cases h

/-! ## A check -/

/-- What comes of permissions that are allowed and denied. -/
def verdict (allowed denied p : Perm) : Except Thrown Bool :=
  if anyOf allowed p && anyOf denied p then .error .gacl
  else .ok (anyOf allowed p)

theorem verdict_eq_true {allowed denied p : Perm} :
    verdict allowed denied p = .ok true ↔
      anyOf allowed p = true ∧ anyOf denied p = false := by
  unfold verdict
  cases anyOf allowed p <;> cases anyOf denied p <;> simp

theorem verdict_eq_false {allowed denied p : Perm} :
    verdict allowed denied p = .ok false ↔ anyOf allowed p = false := by
  unfold verdict
  cases anyOf allowed p <;> cases anyOf denied p <;> simp

/-- The manager after a scan that did not throw. -/
def loaded (m : Manager) (type : CredType) (rawvalue : Text) :
    Option (ℕ × Entry) → Manager
  | none => { m with credType := type, rawvalue := rawvalue }
  | some (_, e) =>
      { m with
        credType := type
        rawvalue := rawvalue
        gaclAllowed := e.allowed
        gaclDenied := e.denied }

theorem loadCredentialOf_eq {m : Manager} {type : CredType} {rawvalue : Text}
    (htype : type ≠ .undefcred) :
    loadCredentialOf lib m type rawvalue =
      match scanEntries lib type rawvalue (entries m) with
      | .error t => (.error t, loaded m type rawvalue none)
      | .ok r => (.ok r, loaded m type rawvalue r) := by
  have hset : setCredentialType m type rawvalue =
      (.ok (), loaded m type rawvalue none) := by
    cases type <;> first | rfl | exact absurd rfl htype
  unfold loadCredentialOf
  rw [hset]
  unfold loadCredential entries
  dsimp only [loaded]
  rcases scanEntries lib type rawvalue (m.gaclAcl.getD []) with t | _ | ⟨n, e⟩
  · rfl
  · rfl
  · rfl

theorem checkAllowPermission_eq {m : Manager} {type : CredType}
    {rawvalue : Text} {p : Perm} (htype : type ≠ .undefcred) :
    checkAllowPermission lib m type rawvalue p =
      match scanEntries lib type rawvalue (entries m) with
      | .error t => (.error t, loaded m type rawvalue none)
      | .ok r =>
          let m := loaded m type rawvalue r
          (verdict m.gaclAllowed m.gaclDenied p, m) := by
  unfold checkAllowPermission
  rw [loadCredentialOf_eq htype]
  rcases scanEntries lib type rawvalue (entries m) with t | r
  · rfl
  · dsimp only
    generalize loaded m type rawvalue r = m'
    unfold verdict
    cases anyOf m'.gaclAllowed p <;> cases anyOf m'.gaclDenied p <;> rfl

theorem exists_grants {e : Entry} {p : Perm} :
    (∃ e', some e = some e' ∧ e'.allows p = true ∧ e'.denies p = false) ↔
      e.grants p = true := by
  unfold Entry.grants
  constructor
  · rintro ⟨e', he, hallows, hdenies⟩
    cases he
    rw [hallows, hdenies]
    rfl
  · intro h
    obtain ⟨hallows, hdenies⟩ := Bool.and_eq_true_iff.mp h
    exact ⟨e, rfl, hallows, by simpa using hdenies⟩

theorem checked_ne {type : CredType} (htype : Checked type) :
    type ≠ .undefcred := by
  rcases htype with rfl | rfl | rfl <;> decide

/-- A check decides by the first match exactly where it is settled. -/
theorem decidesByMatch_iff_settled {m : Manager} {type : CredType}
    {rawvalue : Text} {p : Perm} (htype : Checked type) :
    DecidesByMatch lib m type rawvalue p ↔ Settled lib m type rawvalue p := by
  unfold DecidesByMatch Settled
  rw [checkAllowPermission_eq (checked_ne htype)]
  cases hscan : scanEntries lib type rawvalue (entries m) with
  | error t =>
      dsimp only
      cases firstMatch lib type rawvalue (entries m) with
      | none => simp
      | some e => simp [Entry.grants]
  | ok r =>
      cases r with
      | none =>
          rw [firstMatch_of_scan_none htype hscan]
          dsimp only [loaded]
          rw [verdict_eq_true, verdict_eq_false]
          cases anyOf m.gaclAllowed p <;> simp
      | some ne =>
          obtain ⟨n, e⟩ := ne
          dsimp only [loaded]
          rw [verdict_eq_true, verdict_eq_false]
          cases firstMatch lib type rawvalue (entries m) with
          | none =>
              dsimp only
              unfold Entry.allows
              cases anyOf e.allowed p <;> simp
          | some e' =>
              rw [exists_grants]
              dsimp only
              unfold Entry.grants Entry.allows Entry.denies
              cases anyOf e.allowed p <;> cases anyOf e.denied p <;>
                cases anyOf e'.allowed p <;> cases anyOf e'.denied p <;> simp

/-! ## By the credentials -/

/-- What the loader finds, by where it stops. -/
inductive Scanned (acl : List Entry) :
    Option (ℕ × Bool) → Except Thrown (Option (ℕ × Entry)) → Prop where
  | nowhere : Scanned acl none (.ok none)
  | found (n : ℕ) (e : Entry) (h : acl[n]? = some e) :
      Scanned acl (some (n, true)) (.ok (some (n, e)))
  | broken (n : ℕ) (t : Thrown) : Scanned acl (some (n, false)) (.error t)

theorem scanCreds_findSome (type : CredType) (rawvalue : Text)
    (auris : List Text) :
    (auris.findSome? (meets lib type rawvalue) = none →
      scanCreds lib type rawvalue auris = .ok false) ∧
    (auris.findSome? (meets lib type rawvalue) = some true →
      scanCreds lib type rawvalue auris = .ok true) ∧
    (auris.findSome? (meets lib type rawvalue) = some false →
      ∃ t, scanCreds lib type rawvalue auris = .error t) := by
  induction auris with
  | nil => exact ⟨fun _ => rfl, fun h => (by cases h), fun h => (by cases h)⟩
  | cons auri auris ih =>
      rw [List.findSome?_cons]
      unfold scanCreds meets
      cases taken lib type rawvalue auri with
      | error t =>
          exact ⟨fun h => (by cases h), fun h => (by cases h), fun _ => ⟨t, rfl⟩⟩
      | ok b =>
          cases b with
          | true =>
              exact ⟨fun h => (by cases h), fun _ => rfl, fun h => (by cases h)⟩
          | false => exact ih

/-- The stop in the entries from number `k` on. -/
def stopFrom (lib : Libraries) (type : CredType) (rawvalue : Text) (k : ℕ)
    (creds : List (List Text)) : Option (ℕ × Bool) :=
  (creds.zipIdx k).findSome? fun entry =>
    (entry.1.findSome? (meets lib type rawvalue)).map fun b => (entry.2, b)

theorem stopFrom_cons (type : CredType) (rawvalue : Text) (k : ℕ)
    (auris : List Text) (creds : List (List Text)) :
    stopFrom lib type rawvalue k (auris :: creds) =
      ((auris.findSome? (meets lib type rawvalue)).map fun b => (k, b)).or
        (stopFrom lib type rawvalue (k + 1) creds) := by
  unfold stopFrom
  rw [List.zipIdx_cons, List.findSome?_cons]
  cases auris.findSome? (meets lib type rawvalue) <;> rfl

theorem stopFrom_eq (type : CredType) (rawvalue : Text) (k : ℕ)
    (creds : List (List Text)) :
    stopFrom lib type rawvalue k creds =
      (stop lib type rawvalue creds).map fun s => (s.1 + k, s.2) := by
  have hshift : ∀ j, stopFrom lib type rawvalue (j + k) creds =
      (stopFrom lib type rawvalue j creds).map fun s => (s.1 + k, s.2) := by
    induction creds with
    | nil => exact fun _ => rfl
    | cons auris creds ih =>
        intro j
        rw [stopFrom_cons, stopFrom_cons, Nat.add_right_comm, ih]
        cases auris.findSome? (meets lib type rawvalue) <;> rfl
  have hzero := hshift 0
  rw [Nat.zero_add] at hzero
  exact hzero

theorem stop_cons (type : CredType) (rawvalue : Text) (auris : List Text)
    (creds : List (List Text)) :
    stop lib type rawvalue (auris :: creds) =
      ((auris.findSome? (meets lib type rawvalue)).map fun b => (0, b)).or
        ((stop lib type rawvalue creds).map fun s => (s.1 + 1, s.2)) := by
  rw [← stopFrom_eq]
  exact stopFrom_cons type rawvalue 0 auris creds

theorem scanned (type : CredType) (rawvalue : Text) (acl : List Entry) :
    Scanned acl (stop lib type rawvalue (credsOf acl))
      (scanEntries lib type rawvalue acl) := by
  induction acl with
  | nil => exact .nowhere
  | cons e es ih =>
      obtain ⟨hnone, htrue, hfalse⟩ :=
        @scanCreds_findSome lib type rawvalue e.creds
      have hcons : credsOf (e :: es) = e.creds :: credsOf es := rfl
      rw [hcons, stop_cons]
      unfold scanEntries
      cases hmet : e.creds.findSome? (meets lib type rawvalue) with
      | some b =>
          cases b with
          | true =>
              rw [htrue hmet]
              exact .found 0 e rfl
          | false =>
              obtain ⟨t, ht⟩ := hfalse hmet
              rw [ht]
              exact .broken 0 t
      | none =>
          rw [hnone hmet]
          generalize stop lib type rawvalue (credsOf es) = s at ih
          generalize scanEntries lib type rawvalue es = r at ih
          cases ih with
          | nowhere => exact .nowhere
          | found n e' h => exact .found (n + 1) e' h
          | broken n t => exact .broken (n + 1) t

theorem firstMatch_eq (type : CredType) (rawvalue : Text) (acl : List Entry) :
    firstMatch lib type rawvalue acl =
      (matchAt lib type rawvalue (credsOf acl)).bind fun n => acl[n]? := by
  induction acl with
  | nil => rfl
  | cons e es ih =>
      have hcons : credsOf (e :: es) = e.creds :: credsOf es := rfl
      unfold firstMatch matchAt at ih ⊢
      rw [hcons, List.findIdx?_cons, List.find?_cons]
      unfold hasMatching at ih ⊢
      cases e.creds.any (matching lib type rawvalue) with
      | true => rfl
      | false =>
          rw [if_neg Bool.false_ne_true]
          refine ih.trans ?_
          cases (credsOf es).findIdx? fun auris =>
            auris.any (matching lib type rawvalue) <;> rfl

theorem isSome_matchAt (type : CredType) (rawvalue : Text) (acl : List Entry) :
    (matchAt lib type rawvalue (credsOf acl)).isSome =
      (firstMatch lib type rawvalue acl).isSome := by
  unfold matchAt firstMatch credsOf
  rw [List.findIdx?_isSome, List.any_map, Bool.eq_iff_iff, List.find?_isSome,
    List.any_eq_true]
  exact Iff.rfl

/-! ### For all lists with the same credentials -/

theorem anyOf_permNone (mask : Perm) : anyOf mask permNone = false := by
  unfold anyOf permNone
  simp

theorem anyOf_none (p : Perm) : anyOf permNone p = false := by
  unfold anyOf permNone
  simp

theorem anyOf_self {p : Perm} (h : p ≠ permNone) : anyOf p p = true := by
  unfold anyOf
  rw [BitVec.and_self]
  exact decide_eq_true h

theorem grants_permNone (e : Entry) : e.grants permNone = false := by
  unfold Entry.grants Entry.allows
  rw [anyOf_permNone]
  rfl

theorem settled_of_heeds {m : Manager} {type : CredType} {rawvalue : Text}
    {p : Perm} {acl : List Entry} (hcreds : credsOf acl = credsOf (entries m))
    (h : Heeds lib m type rawvalue p) :
    Settled lib (withAcl m acl) type rawvalue p := by
  have hentries : entries (withAcl m acl) = acl := rfl
  have hscanned := @scanned lib type rawvalue acl
  unfold Heeds at h
  unfold Settled
  rw [← hcreds] at h
  rw [hentries]
  generalize stop lib type rawvalue (credsOf acl) = s at h hscanned
  generalize scanEntries lib type rawvalue acl = r at hscanned
  cases hscanned with
  | nowhere => exact h
  | found n e he =>
      rcases h with rfl | hat
      · cases firstMatch lib type rawvalue acl with
        | none => exact anyOf_permNone e.allowed
        | some e' => exact (grants_permNone e).trans (grants_permNone e').symm
      · rw [firstMatch_eq, hat, Option.bind_some, he]
  | broken n t =>
      obtain ⟨rfl, hsome⟩ := h
      rw [isSome_matchAt] at hsome
      cases hfirst : firstMatch lib type rawvalue acl with
      | none =>
          rw [hfirst] at hsome
          cases hsome
      | some e => exact grants_permNone e

/-- These credentials, with the permission allowed in one entry. -/
def grantAt (creds : List (List Text)) (k : ℕ) (p : Perm) : List Entry :=
  creds.mapIdx fun i auris => ⟨auris, if i = k then p else permNone, permNone⟩

theorem credsOf_grantAt (creds : List (List Text)) (k : ℕ) (p : Perm) :
    credsOf (grantAt creds k p) = creds := by
  refine List.ext_getElem? fun i => ?_
  unfold credsOf grantAt
  rw [List.getElem?_map, List.getElem?_mapIdx, Option.map_map]
  cases creds[i]? <;> rfl

theorem grants_grantAt {creds : List (List Text)} {k i : ℕ} {p : Perm}
    {e : Entry} (hp : p ≠ permNone) (h : (grantAt creds k p)[i]? = some e) :
    e.allows p = decide (i = k) ∧ e.grants p = decide (i = k) := by
  unfold grantAt at h
  rw [List.getElem?_mapIdx, Option.map_eq_some_iff] at h
  obtain ⟨auris, _, rfl⟩ := h
  unfold Entry.grants Entry.allows Entry.denies
  dsimp only
  rw [anyOf_none]
  split
  · next hik =>
    rw [anyOf_self hp, decide_eq_true hik]
    exact ⟨rfl, rfl⟩
  · next hik =>
    rw [anyOf_none, decide_eq_false hik]
    exact ⟨rfl, rfl⟩

/-! What a settled check says, by where the loader stops. -/

section
variable {m : Manager} {type : CredType} {rawvalue : Text} {p : Perm}

theorem settled_nowhere (h : Settled lib m type rawvalue p)
    (hstop : stop lib type rawvalue (credsOf (entries m)) = none) :
    anyOf m.gaclAllowed p = false := by
  have hscanned := @scanned lib type rawvalue (entries m)
  rw [hstop] at hscanned
  unfold Settled at h
  generalize scanEntries lib type rawvalue (entries m) = r at h hscanned
  cases hscanned
  exact h

theorem settled_found (h : Settled lib m type rawvalue p) {n : ℕ}
    (hstop : stop lib type rawvalue (credsOf (entries m)) = some (n, true)) :
    ∃ e, (entries m)[n]? = some e ∧
      (firstMatch lib type rawvalue (entries m) = none → e.allows p = false) ∧
      ∀ e', firstMatch lib type rawvalue (entries m) = some e' →
        e.grants p = e'.grants p := by
  have hscanned := @scanned lib type rawvalue (entries m)
  rw [hstop] at hscanned
  unfold Settled at h
  generalize scanEntries lib type rawvalue (entries m) = r at h hscanned
  cases hscanned with
  | found n e he =>
      refine ⟨e, he, fun hnone => ?_, fun e' he' => ?_⟩
      · rw [hnone] at h
        exact h
      · rw [he'] at h
        exact h

theorem settled_broken (h : Settled lib m type rawvalue p) {n : ℕ}
    (hstop : stop lib type rawvalue (credsOf (entries m)) = some (n, false)) :
    ∃ e, firstMatch lib type rawvalue (entries m) = some e ∧
      e.grants p = false := by
  have hscanned := @scanned lib type rawvalue (entries m)
  rw [hstop] at hscanned
  unfold Settled at h
  generalize scanEntries lib type rawvalue (entries m) = r at h hscanned
  cases hscanned with
  | broken n t =>
      cases hfirst : firstMatch lib type rawvalue (entries m) with
      | none =>
          rw [hfirst] at h
          exact h.elim
      | some e =>
          rw [hfirst] at h
          exact ⟨e, rfl, h⟩

end

/-- Each case is decided by a list that allows in one entry only. -/
theorem heeds_of_settled {m : Manager} {type : CredType} {rawvalue : Text}
    {p : Perm}
    (h : ∀ acl, credsOf acl = credsOf (entries m) →
      Settled lib (withAcl m acl) type rawvalue p) :
    Heeds lib m type rawvalue p := by
  have hgrant : ∀ k, Settled lib
      (withAcl m (grantAt (credsOf (entries m)) k p)) type rawvalue p :=
    fun k => h _ (credsOf_grantAt _ k p)
  have hstops : ∀ k, credsOf (entries (withAcl m
      (grantAt (credsOf (entries m)) k p))) = credsOf (entries m) :=
    fun k => credsOf_grantAt _ k p
  have hfirst : ∀ k, firstMatch lib type rawvalue (entries (withAcl m
      (grantAt (credsOf (entries m)) k p))) =
        (matchAt lib type rawvalue (credsOf (entries m))).bind
          fun n => (grantAt (credsOf (entries m)) k p)[n]? := by
    intro k
    rw [firstMatch_eq, hstops]
    rfl
  unfold Heeds
  cases hstop : stop lib type rawvalue (credsOf (entries m)) with
  | none => exact settled_nowhere (h (entries m) rfl) hstop
  | some s =>
      obtain ⟨n, b⟩ := s
      cases b with
      | true =>
          refine or_iff_not_imp_left.mpr fun hp => ?_
          obtain ⟨e, he, hnone, hsome⟩ := settled_found (hgrant n)
            ((congrArg _ (hstops n)).trans hstop)
          obtain ⟨hallows, hgrants⟩ := grants_grantAt hp he
          rw [decide_eq_true rfl] at hallows hgrants
          cases hmatch : firstMatch lib type rawvalue (entries (withAcl m
              (grantAt (credsOf (entries m)) n p))) with
          | none =>
              rw [hnone hmatch] at hallows
              cases hallows
          | some e' =>
              have hsame := hsome e' hmatch
              rw [hfirst] at hmatch
              obtain ⟨k, hk, hentry⟩ := Option.bind_eq_some_iff.mp hmatch
              rw [hgrants, (grants_grantAt hp hentry).2] at hsame
              rw [hk, of_decide_eq_true hsame.symm]
      | false =>
          have hmatched : ∀ k, ∃ i e,
              matchAt lib type rawvalue (credsOf (entries m)) = some i ∧
                (grantAt (credsOf (entries m)) k p)[i]? = some e ∧
                e.grants p = false := by
            intro k
            obtain ⟨e, he, hgrants⟩ := settled_broken (hgrant k)
              ((congrArg _ (hstops k)).trans hstop)
            rw [hfirst] at he
            obtain ⟨i, hi, hentry⟩ := Option.bind_eq_some_iff.mp he
            exact ⟨i, e, hi, hentry, hgrants⟩
          obtain ⟨i, _, hi, _⟩ := hmatched 0
          refine ⟨by_contra fun hp => ?_, by rw [hi]; rfl⟩
          obtain ⟨j, e, hj, hentry, hgrants⟩ := hmatched i
          rw [hi] at hj
          cases hj
          rw [(grants_grantAt hp hentry).2, decide_eq_true rfl] at hgrants
          cases hgrants

/-- A check decides by the first entry that matches, for this list and for all
others with the same credentials. -/
def DecidesByCreds (lib : Libraries) (m : Manager) (type : CredType)
    (rawvalue : Text) (p : Perm) : Prop :=
  ∀ acl, credsOf acl = credsOf (entries m) →
    DecidesByMatch lib (withAcl m acl) type rawvalue p

theorem decidesByMatch_withAcl {m : Manager} {type : CredType}
    {rawvalue : Text} {p : Perm} (htype : Checked type) :
    DecidesByMatch lib (withAcl m (entries m)) type rawvalue p ↔
      DecidesByMatch lib m type rawvalue p := by
  rw [decidesByMatch_iff_settled htype, decidesByMatch_iff_settled htype]
  exact Iff.rfl

theorem decidesByCreds_iff {m : Manager} {type : CredType}
    {rawvalue : Text} {p : Perm} (htype : Checked type) :
    DecidesByCreds lib m type rawvalue p ↔ Heeds lib m type rawvalue p := by
  constructor
  · exact fun h => heeds_of_settled fun acl hcreds =>
      (decidesByMatch_iff_settled htype).mp (h acl hcreds)
  · exact fun h acl hcreds =>
      (decidesByMatch_iff_settled htype).mpr (settled_of_heeds hcreds h)

/-! ## The authorization -/

/-- The loader stops at the first entry that matches, or nowhere. -/
def Finds (lib : Libraries) (type : CredType) (rawvalue : Text)
    (acl : List Entry) : Prop :=
  stop lib type rawvalue (credsOf acl) =
    (matchAt lib type rawvalue (credsOf acl)).map fun n => (n, true)

/-- What it finds is the first match then. -/
theorem scanEntries_of_finds {type : CredType} {rawvalue : Text}
    {acl : List Entry} (h : Finds lib type rawvalue acl) :
    (scanEntries lib type rawvalue acl).map (Option.map Prod.snd) =
      .ok (firstMatch lib type rawvalue acl) := by
  have hscanned := @scanned lib type rawvalue acl
  rw [h] at hscanned
  rw [firstMatch_eq]
  generalize scanEntries lib type rawvalue acl = r at hscanned
  cases hat : matchAt lib type rawvalue (credsOf acl) with
  | none =>
      rw [hat] at hscanned
      cases hscanned
      rfl
  | some n =>
      rw [hat] at hscanned
      cases hscanned with
      | found n e he => exact congrArg Except.ok he.symm

/-- For any user the loader stops at an entry for any user, and for the FQAN at
one with an FQAN that matches. -/
structure Confined (lib : Libraries) (fqan : Text) (acl : List Entry) :
    Prop where
  anyuser : checkCredentialEntries acl .anyuser = true →
    Finds lib .anyuser [] acl
  voms : fqan ≠ [] → checkCredentialEntries acl .voms = true →
    Finds lib .voms fqan acl

/-- The entries by which a user is judged. -/
structure Judged where
  any : Option Entry
  voms : Option Entry
  person : Option Entry

/-- The three entries that decide. -/
def judged (lib : Libraries) (fqan dn : Text) (acl : List Entry) : Judged where
  any := firstMatch lib .anyuser [] acl
  voms := firstMatch lib .voms fqan acl
  person := firstMatch lib .person dn acl

/-- What an entry that may be missing comes to. -/
def verdictOf (e : Option Entry) : Except Thrown Bool :=
  match e with
  | none => .ok false
  | some e => verdict e.allowed e.denied permExec

/-- Whether a check ends in an exception. -/
def throws (r : Except Thrown Bool) : Bool :=
  match r with
  | .error _ => true
  | .ok _ => false

/-- The entry of the DN decides, else that of the FQAN, else that of any
user. Without an FQAN one of the two is enough. -/
def Judged.accepts (j : Judged) (fqan : Text) : Prop :=
  if fqan ≠ [] then
    throws (verdictOf j.any) = false ∧
      throws (verdictOf (j.voms <|> j.any)) = false ∧
      verdictOf (j.person <|> (j.voms <|> j.any)) = .ok true
  else
    throws (verdictOf j.any) = false ∧
      throws (verdictOf (j.person <|> j.any)) = false ∧
      (verdictOf j.any = .ok true ∨
        verdictOf (j.person <|> j.any) = .ok true)

/-- The manager has the list, and the permissions of an entry loaded before. -/
structure Kept (m : Manager) (acl : List Entry) (e : Option Entry) : Prop where
  acl_eq : m.gaclAcl = some acl
  allowed_eq : m.gaclAllowed = ((e.map Entry.allowed).getD permNone)
  denied_eq : m.gaclDenied = ((e.map Entry.denied).getD permNone)

theorem kept_newManager (acl : List Entry) : Kept (newManager acl) acl none :=
  ⟨rfl, rfl, rfl⟩

theorem verdictOf_kept {m : Manager} {acl : List Entry} {e : Option Entry}
    (h : Kept m acl e) :
    verdict m.gaclAllowed m.gaclDenied permExec = verdictOf e := by
  rw [h.allowed_eq, h.denied_eq]
  cases e with
  | none => rfl
  | some e => rfl

theorem mayExec_of_finds {m : Manager} {acl : List Entry} {e : Option Entry}
    {type : CredType} {rawvalue : Text} (hm : Kept m acl e)
    (htype : Checked type) (hfinds : Finds lib type rawvalue acl) :
    ∃ m', Kept m' acl (firstMatch lib type rawvalue acl <|> e) ∧
      mayExec lib m type rawvalue =
        (verdictOf (firstMatch lib type rawvalue acl <|> e)).map
          fun b => (b, m') := by
  have hentries : entries m = acl := by
    unfold entries
    rw [hm.acl_eq]
    rfl
  have hfinds := scanEntries_of_finds hfinds
  unfold mayExec
  rw [checkAllowPermission_eq (checked_ne htype), hentries]
  cases hscan : scanEntries lib type rawvalue acl with
  | error t =>
      rw [hscan] at hfinds
      cases hfinds
  | ok r =>
      rw [hscan] at hfinds
      have hfirst := Except.ok.inj hfinds
      rw [← hfirst]
      have hkept : Kept (loaded m type rawvalue r) acl
          (r.map Prod.snd <|> e) := by
        rcases r with _ | ⟨n, e'⟩
        · exact ⟨hm.acl_eq, hm.allowed_eq, hm.denied_eq⟩
        · exact ⟨hm.acl_eq, rfl, rfl⟩
      refine ⟨_, hkept, ?_⟩
      dsimp only
      rw [verdictOf_kept hkept]
      cases verdictOf (r.map Prod.snd <|> e) <;> rfl

/-- A person is compared as it should be. -/
theorem finds_person (dn : Text) (acl : List Entry) :
    Finds lib .person dn acl := by
  have hmeets : ∀ auri, meets lib .person dn auri =
      if matching lib .person dn auri then some true else none := by
    intro auri
    unfold meets taken matching
    dsimp only
    cases decide (auri = newCred lib .person dn) <;> rfl
  have hcreds : ∀ auris : List Text,
      auris.findSome? (meets lib .person dn) =
        if auris.any (matching lib .person dn) then some true else none := by
    intro auris
    induction auris with
    | nil => rfl
    | cons auri auris ih =>
        rw [List.findSome?_cons, hmeets, List.any_cons]
        cases matching lib .person dn auri with
        | true => rfl
        | false => exact ih
  unfold Finds
  generalize credsOf acl = creds
  induction creds with
  | nil => rfl
  | cons auris creds ih =>
      rw [stop_cons, ih, hcreds]
      unfold matchAt
      rw [List.findIdx?_cons]
      cases auris.any (matching lib .person dn) with
      | true => rfl
      | false =>
          rw [if_neg Bool.false_ne_true, if_neg Bool.false_ne_true,
            Option.map_map, Option.map_map]
          rfl

/-! ### Types that are present -/

theorem present_of_firstMatch {type type' : CredType} {rawvalue : Text}
    {acl : List Entry}
    (h : ∀ auri, matching lib type rawvalue auri = true →
      isOfType type' auri = true)
    (hfirst : (firstMatch lib type rawvalue acl).isSome = true) :
    checkCredentialEntries acl type' = true := by
  obtain ⟨e, he⟩ := Option.isSome_iff_exists.mp hfirst
  have hmem := List.mem_of_find?_eq_some he
  have hany := List.find?_some he
  obtain ⟨auri, hauri, hmatching⟩ := List.any_eq_true.mp hany
  exact List.any_eq_true.mpr
    ⟨e, hmem, List.any_eq_true.mpr ⟨auri, hauri, h auri hmatching⟩⟩

theorem isOfType_of_anyuser {type : CredType} {auri : Text}
    (h : isOfType .anyuser auri = true) : isOfType type auri = true := by
  unfold isOfType at h ⊢
  rw [Bool.or_eq_true]
  exact .inr h

theorem anyuser_present {acl : List Entry} {type : CredType}
    (h : checkCredentialEntries acl .anyuser = true) :
    checkCredentialEntries acl type = true := by
  obtain ⟨e, he, hany⟩ := List.any_eq_true.mp h
  obtain ⟨auri, hauri, hof⟩ := List.any_eq_true.mp hany
  exact List.any_eq_true.mpr ⟨e, he,
    List.any_eq_true.mpr ⟨auri, hauri, isOfType_of_anyuser hof⟩⟩

theorem anyuser_isOfType {auri : Text}
    (h : matching lib .anyuser [] auri = true) :
    isOfType .anyuser auri = true := by
  have hauri : auri = anyUser := of_decide_eq_true h
  rw [hauri]
  rfl

theorem voms_isOfType {fqan auri : Text}
    (h : matching lib .voms fqan auri = true) : isOfType .voms auri = true := by
  obtain ⟨hscheme, _⟩ := Bool.and_eq_true_iff.mp h
  unfold isOfType
  rw [Bool.or_eq_true]
  exact .inl hscheme

theorem person_isOfType {dn auri : Text}
    (h : matching lib .person dn auri = true) :
    isOfType .person auri = true := by
  have hauri : auri = newCred lib .person dn := of_decide_eq_true h
  unfold isOfType
  rw [Bool.or_eq_true, hauri]
  refine .inl ?_
  exact List.isPrefixOf_iff_prefix.mpr (List.prefix_append _ _)

theorem firstMatch_of_absent {type type' : CredType} {rawvalue : Text}
    {acl : List Entry}
    (h : ∀ auri, matching lib type rawvalue auri = true →
      isOfType type' auri = true)
    (habsent : checkCredentialEntries acl type' = false) :
    firstMatch lib type rawvalue acl = none := by
  cases hfirst : firstMatch lib type rawvalue acl with
  | none => rfl
  | some e =>
      rw [present_of_firstMatch h (by rw [hfirst]; rfl)] at habsent
      cases habsent

/-- A check that is made if the type is present. If it is not, nothing
matches either. -/
theorem checkIf_of_finds {m : Manager} {acl : List Entry} {e : Option Entry}
    {type : CredType} {rawvalue : Text} (hm : Kept m acl e)
    (htype : Checked type) {exist : Bool}
    (hfinds : exist = true → Finds lib type rawvalue acl)
    (habsent : exist = false → firstMatch lib type rawvalue acl = none) :
    ∃ m', Kept m' acl (firstMatch lib type rawvalue acl <|> e) ∧
      ∀ otherwise, checkIf lib m exist type rawvalue otherwise =
        (if exist then verdictOf (firstMatch lib type rawvalue acl <|> e)
          else .ok otherwise).map fun b => (b, m') := by
  cases exist with
  | true =>
      obtain ⟨m', hm', h⟩ := mayExec_of_finds hm htype (hfinds rfl)
      exact ⟨m', hm', fun _ => h⟩
  | false =>
      rw [habsent rfl]
      exact ⟨m, hm, fun _ => rfl⟩

theorem map_bind_pair {α β : Type} (r : Except Thrown Bool) (m : α)
    (f : Bool × α → Except Thrown β) :
    (r.map fun b => (b, m)) >>= f = r >>= fun b => f (b, m) := by
  cases r <;> rfl

/-- The three checks of a user with an FQAN, from what each would give. A check
that is not made would give what the one before it gives. -/
theorem combine_fqan {existAU exist existDN : Bool}
    {x y z : Except Thrown Bool} (hx : existAU = false → x = .ok false)
    (hy : exist = false → y = x) (hz : existDN = false → z = y)
    (hexist : existAU = true → exist = true)
    (hexistDN : existAU = true → existDN = true) :
    ((if existAU then x else .ok false) >>= fun execAU =>
      (if exist then y else .ok (existAU || existDN)) >>= fun exec =>
        (if existDN then z
          else .ok (execAU || (exist && exec) || exec)) >>= fun execDN =>
          (pure ((exec || (existDN && execDN)) && execDN &&
            (execAU || (exist && exec) || (existDN && execDN))) :
              Except Thrown Bool)) = .ok true ↔
      throws x = false ∧ throws y = false ∧ z = .ok true := by
  cases existAU with
  | true =>
      rw [hexist rfl, hexistDN rfl]
      rcases x with _ | x
      · simp [throws, bind, Except.bind]
      · rcases y with _ | y
        · simp [throws, bind, Except.bind]
        · rcases z with _ | z
          · simp [bind, Except.bind]
          · cases x <;> cases y <;> cases z <;>
              simp [throws, bind, Except.bind, pure, Except.pure]
  | false =>
      rw [hx rfl] at hy ⊢
      cases exist with
      | true =>
          rcases y with _ | y
          · simp [throws, bind, Except.bind]
          · cases existDN with
            | true =>
                rcases z with _ | z
                · simp [bind, Except.bind]
                · cases y <;> cases z <;>
                    simp [throws, bind, Except.bind, pure, Except.pure]
            | false =>
                rw [hz rfl]
                cases y <;> simp [throws, bind, Except.bind, pure, Except.pure]
      | false =>
          rw [hy rfl] at hz ⊢
          cases existDN with
          | true =>
              rcases z with _ | z
              · simp [bind, Except.bind]
              · cases z <;>
                  simp [throws, bind, Except.bind, pure, Except.pure]
          | false =>
              rw [hz rfl]
              simp [bind, Except.bind, pure, Except.pure]

/-- The same without an FQAN, where the check of the DN is repeated. -/
theorem combine_dn {existAU existDN : Bool} {x z : Except Thrown Bool}
    (hx : existAU = false → x = .ok false) (hz : existDN = false → z = x)
    (hexistDN : existAU = true → existDN = true) :
    ((if existAU then x else .ok false) >>= fun execAU =>
      (if existDN then z else .ok false) >>= fun first =>
        (if existDN && !first then z else .ok first) >>= fun execDN =>
          (pure (execDN || (execAU || execDN)) : Except Thrown Bool)) =
        .ok true ↔
      throws x = false ∧ throws z = false ∧ (x = .ok true ∨ z = .ok true) := by
  cases existAU with
  | true =>
      rw [hexistDN rfl]
      rcases x with _ | x
      · simp [throws, bind, Except.bind]
      · rcases z with _ | z
        · simp [throws, bind, Except.bind]
        · cases x <;> cases z <;>
            simp [throws, bind, Except.bind, pure, Except.pure]
  | false =>
      rw [hx rfl] at hz ⊢
      cases existDN with
      | true =>
          rcases z with _ | z
          · simp [throws, bind, Except.bind]
          · cases z <;> simp [throws, bind, Except.bind, pure, Except.pure]
      | false =>
          rw [hz rfl]
          simp [bind, Except.bind, pure, Except.pure]

theorem orElse_none_right (e : Option Entry) : (e <|> none) = e := by
  cases e <;> rfl

theorem authorizeFqan_iff {fqan dn : Text} {acl : List Entry}
    (hc : Confined lib fqan acl) (hfqan : fqan ≠ []) :
    authorizeFqan lib (newManager acl) (checkCredentialEntries acl .voms)
      (checkCredentialEntries acl .person)
      (checkCredentialEntries acl .anyuser) fqan dn = .ok true ↔
      (judged lib fqan dn acl).accepts fqan := by
  have hA : checkCredentialEntries acl .anyuser = false →
      firstMatch lib .anyuser [] acl = none :=
    firstMatch_of_absent fun _ => anyuser_isOfType
  have hV : checkCredentialEntries acl .voms = false →
      firstMatch lib .voms fqan acl = none :=
    firstMatch_of_absent fun _ => voms_isOfType
  have hD : checkCredentialEntries acl .person = false →
      firstMatch lib .person dn acl = none :=
    firstMatch_of_absent fun _ => person_isOfType
  obtain ⟨m₁, hm₁, h₁⟩ := checkIf_of_finds (kept_newManager acl) (.inl rfl)
    hc.anyuser hA
  rw [orElse_none_right] at hm₁ h₁
  obtain ⟨m₂, hm₂, h₂⟩ := checkIf_of_finds hm₁ (.inr (.inr rfl))
    (hc.voms hfqan) hV
  obtain ⟨m₃, _, h₃⟩ := checkIf_of_finds hm₂ (.inr (.inl rfl))
    (fun _ => finds_person dn acl) hD
  unfold Judged.accepts judged authorizeFqan
  rw [if_pos hfqan]
  simp only [h₁, h₂, h₃, map_bind_pair]
  refine combine_fqan (fun h => ?_) (fun h => ?_) (fun h => ?_)
    anyuser_present anyuser_present
  · rw [hA h]
    rfl
  · rw [hV h]
    rfl
  · rw [hD h]
    rfl

theorem authorizeDN_iff {dn : Text} {acl : List Entry}
    (hc : Confined lib [] acl) :
    authorizeDN lib (newManager acl) (checkCredentialEntries acl .person)
      (checkCredentialEntries acl .anyuser) dn = .ok true ↔
      (judged lib [] dn acl).accepts [] := by
  have hA : checkCredentialEntries acl .anyuser = false →
      firstMatch lib .anyuser [] acl = none :=
    firstMatch_of_absent fun _ => anyuser_isOfType
  have hD : checkCredentialEntries acl .person = false →
      firstMatch lib .person dn acl = none :=
    firstMatch_of_absent fun _ => person_isOfType
  obtain ⟨m₁, hm₁, h₁⟩ := checkIf_of_finds (kept_newManager acl) (.inl rfl)
    hc.anyuser hA
  rw [orElse_none_right] at hm₁ h₁
  obtain ⟨m₂, hm₂, h₂⟩ := checkIf_of_finds hm₁ (.inr (.inl rfl))
    (fun _ => finds_person dn acl) hD
  obtain ⟨m₃, _, h₃⟩ := mayExec_of_finds hm₂ (.inr (.inl rfl))
    (finds_person dn acl)
  -- The entry is loaded already when the check is repeated.
  have hagain : (firstMatch lib .person dn acl <|>
      (firstMatch lib .person dn acl <|> firstMatch lib .anyuser [] acl)) =
      (firstMatch lib .person dn acl <|> firstMatch lib .anyuser [] acl) := by
    cases firstMatch lib .person dn acl <;> rfl
  rw [hagain] at h₃
  unfold Judged.accepts judged authorizeDN
  rw [if_neg (fun h => h rfl)]
  simp only [h₁, h₂, map_bind_pair]
  have hx : checkCredentialEntries acl .anyuser = false →
      verdictOf (firstMatch lib .anyuser [] acl) = .ok false := by
    intro h
    rw [hA h]
    rfl
  have hz : checkCredentialEntries acl .person = false →
      verdictOf (firstMatch lib .person dn acl <|>
        firstMatch lib .anyuser [] acl) =
      verdictOf (firstMatch lib .anyuser [] acl) := by
    intro h
    rw [hD h]
    rfl
  rw [← combine_dn hx hz anyuser_present]
  refine iff_of_eq (congrArg (fun r => r = Except.ok true) ?_)
  refine congrArg (_ >>= ·) (funext fun execAU => ?_)
  refine congrArg (_ >>= ·) (funext fun first => ?_)
  cases checkCredentialEntries acl .person with
  | false => rfl
  | true =>
      cases first with
      | true => rfl
      | false =>
          unfold checkIf
          simp only [Bool.true_and, Bool.not_false, if_true]
          rw [h₃, map_bind_pair]

/-- Where the loader finds what matches, three entries decide. -/
theorem authorized_iff {fqan dn : Text} {acl : List Entry}
    (hc : Confined lib fqan acl) :
    checkGaclUserAuthZ lib (some acl) fqan dn = .ok () ↔
      (judged lib fqan dn acl).accepts fqan := by
  have hfinal : ∀ r : Except Thrown Bool,
      (r >>= fun exec => if exec then pure () else throw .authorization) =
        (.ok () : Except Thrown Unit) ↔ r = .ok true := by
    intro r
    rcases r with _ | b
    · simp [bind, Except.bind]
    · cases b <;> simp [bind, Except.bind, pure, Except.pure, throw,
        throwThe, MonadExceptOf.throw]
  by_cases hfqan : fqan ≠ []
  · have hopen : checkGaclUserAuthZ lib (some acl) fqan dn =
        (authorizeFqan lib (newManager acl) (checkCredentialEntries acl .voms)
          (checkCredentialEntries acl .person)
          (checkCredentialEntries acl .anyuser) fqan dn >>= fun exec =>
          if exec then pure () else throw .authorization) := if_pos hfqan
    rw [hopen, hfinal]
    exact authorizeFqan_iff hc hfqan
  · have hopen : checkGaclUserAuthZ lib (some acl) fqan dn =
        (authorizeDN lib (newManager acl) (checkCredentialEntries acl .person)
          (checkCredentialEntries acl .anyuser) dn >>= fun exec =>
          if exec then pure () else throw .authorization) := if_neg hfqan
    rw [hopen, hfinal]
    rw [not_not] at hfqan
    subst hfqan
    exact authorizeDN_iff hc

/-! ## Entries that match nothing -/

/-- An entry with a credential that stands for any user or for this one. -/
def related (lib : Libraries) (fqan dn : Text) (e : Entry) : Bool :=
  hasMatching lib .anyuser [] e || hasMatching lib .person dn e ||
    (fqan ≠ [] && hasMatching lib .voms fqan e)

/-- The lists differ in entries that are not related only. -/
def SameRelated (lib : Libraries) (fqan dn : Text) (acl acl' : List Entry) :
    Prop :=
  acl.filter (related lib fqan dn) = acl'.filter (related lib fqan dn)

theorem firstMatch_filter {type : CredType} {rawvalue fqan dn : Text}
    {acl : List Entry}
    (h : ∀ e, hasMatching lib type rawvalue e = true →
      related lib fqan dn e = true) :
    firstMatch lib type rawvalue (acl.filter (related lib fqan dn)) =
      firstMatch lib type rawvalue acl := by
  unfold firstMatch
  rw [List.find?_filter]
  refine congrArg (fun p => acl.find? p) (funext fun e => ?_)
  cases hm : hasMatching lib type rawvalue e with
  | false => simp
  | true => simp [h e hm]

theorem firstMatch_congr {type : CredType} {rawvalue fqan dn : Text}
    {acl acl' : List Entry} (hsame : SameRelated lib fqan dn acl acl')
    (h : ∀ e, hasMatching lib type rawvalue e = true →
      related lib fqan dn e = true) :
    firstMatch lib type rawvalue acl = firstMatch lib type rawvalue acl' := by
  calc firstMatch lib type rawvalue acl
      = firstMatch lib type rawvalue (acl.filter (related lib fqan dn)) :=
        (firstMatch_filter h).symm
    _ = firstMatch lib type rawvalue (acl'.filter (related lib fqan dn)) :=
        congrArg _ hsame
    _ = firstMatch lib type rawvalue acl' := firstMatch_filter h

theorem accepts_congr {fqan dn : Text} {acl acl' : List Entry}
    (hsame : SameRelated lib fqan dn acl acl') :
    (judged lib fqan dn acl).accepts fqan ↔
      (judged lib fqan dn acl').accepts fqan := by
  have hA : firstMatch lib .anyuser [] acl = firstMatch lib .anyuser [] acl' :=
    firstMatch_congr hsame fun e h => by
      unfold related
      rw [h]
      rfl
  have hD : firstMatch lib .person dn acl = firstMatch lib .person dn acl' :=
    firstMatch_congr hsame fun e h => by
      unfold related
      rw [h, Bool.or_true]
      rfl
  unfold Judged.accepts judged
  rw [hA, hD]
  by_cases hfqan : fqan ≠ []
  · have hV : firstMatch lib .voms fqan acl = firstMatch lib .voms fqan acl' :=
      firstMatch_congr hsame fun e h => by
        unfold related
        rw [h, decide_eq_true hfqan, Bool.true_and, Bool.or_true]
    rw [hV]
  · rw [if_neg hfqan, if_neg hfqan]

/-- Whatever was called before, a check decides by the first entry that matches
where the loader heeds the credentials, and for all lists with these only
there. Where the loader finds what matches, the entries that match neither any
user nor this one do not make a refused user an accepted one. -/
theorem access_depends_on_matching (lib : Libraries) (acl : List Entry)
    (calls : List Call) (type : CredType) (htype : Checked type)
    (rawvalue : Text) (p : Perm) :
    (DecidesByCreds lib (afterCalls lib (newManager acl) calls)
        type rawvalue p ↔
      Heeds lib (afterCalls lib (newManager acl) calls) type rawvalue p) ∧
    (Heeds lib (afterCalls lib (newManager acl) calls) type rawvalue p →
      DecidesByMatch lib (afterCalls lib (newManager acl) calls)
        type rawvalue p) ∧
    ∀ (fqan dn : Text) (acl' : List Entry),
      SameRelated lib fqan dn acl acl' →
      Confined lib fqan acl → Confined lib fqan acl' →
      checkGaclUserAuthZ lib (some acl) fqan dn ≠ .ok () →
      checkGaclUserAuthZ lib (some acl') fqan dn ≠ .ok () := by
  refine ⟨decidesByCreds_iff htype, fun h => ?_, ?_⟩
  · exact (decidesByMatch_withAcl htype).mp
      ((decidesByCreds_iff htype).mpr h _ rfl)
  intro fqan dn acl' hsame hc hc' hrefused haccepted
  rw [Ne, authorized_iff hc, accepts_congr hsame] at hrefused
  rw [authorized_iff hc'] at haccepted
  exact hrefused haccepted

/-! ## Users

Nothing is encoded, and an expression matches what it says. -/

/-- No text needs to be encoded. -/
def plain : Libraries where
  urlEncode := id
  urlDecode := id
  regexMatch := fun regex text => some (regex = '^' :: text ++ ['$'])

/-- A user, and another. -/
def alice : Text := "/CN=alice".toList
def bob : Text := "/CN=bob".toList

/-- An entry for one person, who may execute. -/
def aliceMay : Entry := ⟨[newCred plain .person alice], permExec, permNone⟩

/-- An entry by which nobody may. -/
def nobodyMay : Entry := ⟨[anyUser], permNone, permExec⟩

/-- An entry for the second user alone. -/
def bobMay : Entry := ⟨[newCred plain .person bob], permExec, permNone⟩

/-- A third user. -/
def carol : Text := "/CN=carol".toList

/-- Bob's entry decides after alice has been checked, and hers does not help
carol. -/
theorem access_depends_on_matching_bob :
    DecidesByMatch plain
        (afterCalls plain (newManager [nobodyMay, bobMay])
          [.checkAllowPermission .person alice permExec])
        .person bob permExec ∧
    checkGaclUserAuthZ plain (some [nobodyMay, bobMay]) [] carol ≠ .ok () ∧
    checkGaclUserAuthZ plain (some [nobodyMay, aliceMay, bobMay]) [] carol ≠
      .ok () := by
  have h := access_depends_on_matching plain [nobodyMay, bobMay]
    [.checkAllowPermission .person alice permExec]
    .person (.inr (.inl rfl)) bob permExec
  have hrefused : checkGaclUserAuthZ plain (some [nobodyMay, bobMay]) [] carol ≠
      .ok () := fun h => by cases h
  refine ⟨h.2.1 (.inr rfl), hrefused,
    h.2.2 [] carol [nobodyMay, aliceMay, bobMay] rfl ?_ ?_ hrefused⟩
  · exact ⟨fun _ => rfl, fun h => absurd rfl h⟩
  · exact ⟨fun _ => rfl, fun h => absurd rfl h⟩

/-- Once alice has been checked, bob may what she may. And an entry for alice in
front of that for any user is taken for the latter: bob, who was refused, is
accepted. -/
theorem not_access_depends_on_matching_bob :
    ¬ DecidesByMatch plain
        (afterCalls plain (newManager [aliceMay])
          [.checkAllowPermission .person alice permExec])
        .person bob permExec ∧
    SameRelated plain [] bob [nobodyMay] [aliceMay, nobodyMay] ∧
    checkGaclUserAuthZ plain (some [nobodyMay]) [] bob ≠ .ok () ∧
    checkGaclUserAuthZ plain (some [aliceMay, nobodyMay]) [] bob = .ok () := by
  refine ⟨fun h => ?_, rfl, fun h => (by cases h), rfl⟩
  have hfalse := h.2 rfl
  cases hfalse

end Wms.Security
