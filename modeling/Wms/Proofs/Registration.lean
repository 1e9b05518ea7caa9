import Mathlib.Data.Set.Defs
import Wms.Ice.Submit

/-!
# The loop around the registration

Each lap makes one registration. A lap that is followed by another one has raised
a flag that was not raised, or was told that the delegation is unknown: this fault
alone raises nothing, so that as many laps are made as it is given. The identifier
it is given for is always one of the table, which is why the delegation can be
made again.
-/

namespace Wms.Ice.Registration

open Wms.Lib Wms.Ice Proc

/-- The database, the registrations that were made and how many of them ended
with an unknown delegation. -/
structure Env where
  db : Db
  registrations : ℕ := 0
  unknown : ℕ := 0

/-- CREAM does not know the delegation. -/
def isUnknown : RegisterAnswer → Bool
  | .gridProxyDelegation => true
  | _ => false

/-- The data base and CREAM as they answer the calls. -/
def world (env : Env) : (c : Call) → Answer c → Answer c × Env
  | .db op, _ => ((env.db.run op).1, { env with db := (env.db.run op).2 })
  | .creamRegister _ _ _ _ _, r =>
      (r, { env with
        registrations := env.registrations + 1
        unknown := env.unknown + if isUnknown r then 1 else 0 })
  | _, r => (r, env)

/-- A new identifier is a text with something in it. -/
def offered : (c : Call) → Answer c → Prop
  | .generateDelegationID, id => id ≠ []
  | _, _ => True

/-- The contract of a registration. -/
def contract : Contract Env Call Answer where
  world := world
  assume := fun _ c r => offered c r
  guard := fun _ _ _ => True

/-- A job, what all calls are answered, and the database at the start. -/
structure Situation where
  job : CreamJob
  oracle : Oracle Call Answer
  db : Db
  named : ∀ n c, offered c (oracle n c)
  rows : ∀ r ∈ db.delegations.rows, r.delegationid ≠ []

variable (lib : Libraries) (cfg : Config)

/-- The loop, stopped after a number of laps. -/
def Situation.run (x : Situation) (laps : ℕ) : Done Env Exception (Text × Registered) :=
  exec world x.oracle 0 { db := x.db } (registerLoop lib cfg x.job laps {})

/-- A registered job, or one of the exceptions that are caught. -/
def settled {α : Type} : Except Exception α → Prop
  | .ok _ => True
  | .error e => e.isCaught = true

/-- One lap: an error is what the next lap begins with. -/
def lap (job : CreamJob) (forced : Forced) :
    IceProc (Except Forced (Text × Registered)) := do
  let (force, delegation) ← handleDelegation lib cfg job forced.delegation
  match ← registerJob cfg job delegation [] { forced with delegation := force } with
  | .error forced => pure (.error forced)
  | .ok (r, registered, err) =>
      match ← ofExcept
          (processResult cfg { forced with delegation := force } r err) with
      | none => pure (.ok (delegation, registered))
      | some forced => pure (.error forced)

theorem registerLoop_succ (job : CreamJob) (laps : ℕ) (forced : Forced) :
    registerLoop lib cfg job (laps + 1) forced =
      (lap lib cfg job forced).bind fun r =>
        match r with
        | .error forced => registerLoop lib cfg job laps forced
        | .ok registered => pure registered := by
  unfold lap
  rw [registerLoop]
  simp only [bind_eq, bind_bind]
  refine congrArg _ (funext fun delegated => ?_)
  refine congrArg _ (funext fun r => ?_)
  cases r with
  | error forced => rfl
  | ok r =>
      simp only [bind_bind]
      refine congrArg _ (funext fun o => ?_)
      cases o <;> rfl

/-! ## What a lap counts -/

/-- Every delegation has an identifier. -/
def Named (db : Db) : Prop := ∀ r ∈ db.delegations.rows, r.delegationid ≠ []

/-- A state with the same counts. -/
structure Still (env env' : Env) : Prop where
  named : Named env'.db
  registrations : env'.registrations = env.registrations
  unknown : env'.unknown = env.unknown

theorem Still.trans {env₁ env₂ env₃ : Env} (h : Still env₁ env₂) (h' : Still env₂ env₃) :
    Still env₁ env₃ :=
  ⟨h'.named, h'.registrations.trans h.registrations, h'.unknown.trans h.unknown⟩

/-- What changes no count and makes no delegation. -/
def Plain : Call → Prop
  | .creamRegister _ _ _ _ _ => False
  | .db (.createDelegation _) => False
  | _ => True

theorem named_run {db : Db} {op : DbOp} (hop : Plain (.db op)) (h : Named db) :
    Named (db.run op).2 := by
  cases op with
  | createDelegation row => exact hop.elim
  | removeDelegation digest creamurl myproxy =>
      exact fun r hr => h r (Table.mem_delete.mp hr).1
  | removeDelegationByDNMyProxy dn myproxy =>
      exact fun r hr => h r (Table.mem_deleteIf.mp hr).1
  | _ => exact h

theorem still_world {env₀ env : Env} {c : Call} {r : Answer c} (hc : Plain c)
    (h : Still env₀ env) : Still env₀ (world env c r).2 := by
  cases c with
  | db op => exact ⟨named_run hc h.named, h.registrations, h.unknown⟩
  | creamRegister url proxy jdl id lease => exact hc.elim
  | _ => exact h

theorem wp_plain {α : Type} {R : α → Prop} {T : Exception → Prop} {env₀ env : Env}
    {p : IceProc α} (hp : Within Plain R p) (ht : Throws T p) (h : Still env₀ env) :
    wp contract (fun env' a => Still env₀ env' ∧ R a) (fun env' e => Still env₀ env' ∧ T e)
      env p :=
  wp_of_within (fun _ _ _ hc hs _ => ⟨trivial, still_world hc hs⟩) hp ht h

/-! ## The delegation of a lap -/

theorem within_setBetterProxy (dn file myproxy : Text) (t c : ℤ) :
    Within Plain (fun _ => True) (setBetterProxy lib cfg dn file myproxy t c) ∧
      Throws (fun _ => False) (setBetterProxy lib cfg dn file myproxy t c) := by
  unfold setBetterProxy
  simp only [bind_eq, pure_eq]
  refine ⟨within_bind (within_perform trivial fun _ => trivial) fun copied _ => ?_,
    throws_bind (throws_perform _) fun copied => ?_⟩
  · cases copied with
    | false => trivial
    | true => exact within_bind (within_perform trivial fun _ => trivial) fun _ _ => trivial
  · cases copied with
    | false => trivial
    | true => exact throws_bind (throws_perform _) fun _ => trivial

theorem within_lengthenBetterProxy (job : CreamJob) (sbp : ProxyRow) :
    Within Plain (fun _ => True) (lengthenBetterProxy lib cfg job sbp) ∧
      Throws (fun _ => False) (lengthenBetterProxy lib cfg job sbp) := by
  unfold lengthenBetterProxy updateBetterProxy
  split
  · simp only [bind_eq, pure_eq]
    refine ⟨within_bind (within_perform trivial fun _ => trivial) fun copied _ => ?_,
      throws_bind (throws_perform _) fun copied => ?_⟩
    · cases copied with
      | false => trivial
      | true => exact within_bind (within_perform trivial fun _ => trivial) fun _ _ => trivial
    · cases copied with
      | false => trivial
      | true => exact throws_bind (throws_perform _) fun _ => trivial
  · exact ⟨trivial, trivial⟩

/-- A flag that is raised stays so. -/
theorem within_forceDelegation (job : CreamJob) (force : Bool) :
    Within Plain (fun r => force ≤ r) (forceDelegation lib cfg job force) ∧
      Throws (fun _ => False) (forceDelegation lib cfg job force) := by
  unfold forceDelegation refreshBetterProxy getExactBetterProxyByDN
  split
  · simp only [bind_eq, pure_eq]
    refine ⟨within_bind (within_perform trivial fun _ => trivial) fun info _ => ?_,
      throws_bind (throws_perform _) fun info => ?_⟩
    · split
      · exact within_bind (within_setBetterProxy lib cfg _ _ _ _ _).1 fun _ _ =>
          Bool.le_true force
      · refine within_bind (within_lengthenBetterProxy lib cfg _ _).1 fun _ _ => ?_
        refine within_bind (within_perform trivial fun _ => trivial) fun deleg _ => ?_
        refine within_bind (within_perform trivial fun _ => trivial) fun t _ => ?_
        exact Bool.left_le_or force _
    · split
      · exact throws_bind (within_setBetterProxy lib cfg _ _ _ _ _).2 fun _ => trivial
      · refine throws_bind (within_lengthenBetterProxy lib cfg _ _).2 fun _ => ?_
        exact throws_bind (throws_perform _) fun _ =>
          throws_bind (throws_perform _) fun _ => trivial
  · exact ⟨le_rfl, trivial⟩

/-- The table has the identifier. -/
def Known (db : Db) (id : Text) : Prop := (db.run (.checkDelegationByID id)).1 = true

theorem known_of_mem {db : Db} {r : DelegationRow} (h : r ∈ db.delegations.rows)
    (hname : r.delegationid ≠ []) : Known db r.delegationid := by
  show (!r.delegationid.isEmpty && db.hasDelegation r.delegationid) = true
  rw [Bool.and_eq_true, Bool.not_eq_true', List.isEmpty_eq_false_iff]
  exact ⟨hname, List.any_eq_true.mpr ⟨r, h, decide_eq_true rfl⟩⟩

theorem delegation?_mem {db : Db} {digest url myproxy : Text} {r : DelegationRow}
    (h : db.delegation? digest url myproxy = some r) : r ∈ db.delegations.rows := by
  unfold Db.delegation? at h
  split at h
  · cases h
  · exact (Table.find?_eq_some_iff.mp h).1

theorem createDelegation_mem {db db' : Db} {row : DelegationRow}
    (h : db.createDelegation row = some db') :
    (∀ r ∈ db'.delegations.rows, r ∈ db.delegations.rows ∨ r = row) ∧
      row ∈ db'.delegations.rows := by
  unfold Db.createDelegation at h
  split at h
  · cases h
  · cases h
    exact ⟨fun r hr => (Table.mem_put.mp hr).imp And.left id, Table.mem_put.mpr (.inr rfl)⟩

/-- What a delegation leaves: an identifier of the table, or a text. -/
def Delegated (env env' : Env) (r : Except Text Text) : Prop :=
  Still env env' ∧ ∀ id, r = .ok id → Known env'.db id

theorem wp_newDelegation {env : Env} (job : CreamJob) (useNew : Bool) (digest : Text)
    (h : Named env.db) :
    wp contract (Delegated env) (fun _ _ => False) env (newDelegation job useNew digest) := by
  intro id hid
  refine ⟨trivial, fun t _ => ⟨trivial, fun r _ => ⟨trivial, ?_⟩⟩⟩
  cases r with
  | error what => exact ⟨⟨h, rfl, rfl⟩, nofun⟩
  | ok u =>
      intro r _
      refine ⟨trivial, ?_⟩
      simp only [contract, world, Db.run]
      cases hrow : env.db.createDelegation _ with
      | none => exact ⟨⟨h, rfl, rfl⟩, nofun⟩
      | some db' =>
          have hnamed : Named db' := fun r hr => by
            rcases (createDelegation_mem hrow).1 r hr with hr | rfl
            · exact h r hr
            · exact hid
          refine ⟨⟨hnamed, rfl, rfl⟩, fun id' heq => ?_⟩
          cases heq
          exact known_of_mem (createDelegation_mem hrow).2 hid

theorem Delegated.after {env env' env'' : Env} {r : Except Text Text} (h : Still env env')
    (h' : Delegated env' env'' r) : Delegated env env'' r := ⟨h.trans h'.1, h'.2⟩

theorem within_delegationDigest (job : CreamJob) (useNew : Bool) :
    Within Plain (fun _ => True) (delegationDigest job useNew) ∧
      Throws (fun _ => False) (delegationDigest job useNew) := by
  unfold delegationDigest
  split
  · exact ⟨trivial, trivial⟩
  · exact ⟨within_perform trivial fun _ => trivial, throws_perform _⟩

theorem wp_delegate {env : Env} (job : CreamJob) (useNew force : Bool)
    (h : Named env.db) :
    wp contract (Delegated env) (fun _ _ => False) env (delegate job useNew force) := by
  obtain ⟨hdigest, hdigest'⟩ := within_delegationDigest job useNew
  unfold delegate
  simp only [bind_eq, wp_bind]
  refine wp_mono ?_ (fun _ _ h => h.2) (wp_plain hdigest hdigest' ⟨h, rfl, rfl⟩)
  rintro env₁ digest ⟨hstill, -⟩
  cases digest with
  | error what => exact ⟨hstill, nofun⟩
  | ok digest =>
      intro r _
      refine ⟨trivial, ?_⟩
      simp only [contract, world, Db.run]
      cases hinfo : env₁.db.delegation? digest job.creamAddress job.myproxyAddress with
      | none =>
          exact wp_mono (fun _ _ h' => h'.after hstill) (fun _ _ h => h)
            (wp_newDelegation job useNew digest hstill.named)
      | some info =>
          have hmem := delegation?_mem hinfo
          cases force with
          | false =>
              refine ⟨hstill, fun id heq => ?_⟩
              cases heq
              exact known_of_mem hmem (hstill.named info hmem)
          | true =>
              have hremoved : Still env₁ (world env₁ (.db (.removeDelegation digest
                  job.creamAddress job.myproxyAddress)) ()).2 :=
                still_world trivial ⟨hstill.named, rfl, rfl⟩
              refine fun r _ => ⟨trivial, ?_⟩
              exact wp_mono (fun _ _ h' => h'.after (hstill.trans hremoved))
                (fun _ _ h => h) (wp_newDelegation job useNew digest hremoved.named)

/-- The delegation of a lap is one of the table, or the command gives up. -/
theorem wp_handleDelegation {env : Env} (job : CreamJob) (force : Bool)
    (h : Named env.db) :
    wp contract
      (fun env' r => Still env env' ∧ force ≤ r.1 ∧ Known env'.db r.2)
      (fun env' e => Still env env' ∧ e.isCaught = true) env
      (handleDelegation lib cfg job force) := by
  obtain ⟨hforce, hforce'⟩ := within_forceDelegation lib cfg job force
  unfold handleDelegation
  simp only [bind_eq, wp_bind]
  refine wp_mono ?_ (fun _ _ h => h.2.elim) (wp_plain hforce hforce' ⟨h, rfl, rfl⟩)
  rintro env₁ force' ⟨hstill, hle⟩
  refine wp_mono ?_ (fun _ _ h => h.elim)
    (wp_delegate job job.proxyRenewable force' hstill.named)
  rintro env₂ r ⟨hstill', hknown⟩
  cases r with
  | error what => exact ⟨hstill.trans hstill', rfl⟩
  | ok id => exact ⟨hstill.trans hstill', hle, hknown id rfl⟩

/-! ## A lap -/

/-- How many flags are left to raise. -/
def left (forced : Forced) : ℕ :=
  (if forced.delegation then 0 else 1) + if forced.lease then 0 else 1

/-- The flags of a lap and of the one that follows it. -/
structure Raised (before after : Forced) : Prop where
  delegation : before.delegation ≤ after.delegation
  lease : before.lease ≤ after.lease

theorem Raised.refl (forced : Forced) : Raised forced forced := ⟨le_rfl, le_rfl⟩

theorem Raised.trans {f₁ f₂ f₃ : Forced} (h : Raised f₁ f₂) (h' : Raised f₂ f₃) :
    Raised f₁ f₃ := ⟨h.1.trans h'.1, h.2.trans h'.2⟩

theorem Raised.left_le {f₁ f₂ : Forced} (h : Raised f₁ f₂) : left f₂ ≤ left f₁ := by
  have hflag : ∀ a b : Bool, a ≤ b → (if b then 0 else 1) ≤ if a then 0 else 1 := by
    decide
  exact Nat.add_le_add (hflag _ _ h.delegation) (hflag _ _ h.lease)

theorem raise_delegation {forced : Forced} (h : forced.delegation = false) :
    Raised forced { forced with delegation := true } ∧
      left { forced with delegation := true } + 1 = left forced := by
  obtain ⟨d, l⟩ := forced
  cases h
  exact ⟨⟨Bool.false_le _, le_rfl⟩, by simp [left]; omega⟩

theorem raise_lease {forced : Forced} (h : forced.lease = false) :
    Raised forced { forced with lease := true } ∧
      left { forced with lease := true } + 1 = left forced := by
  obtain ⟨d, l⟩ := forced
  cases h
  exact ⟨⟨le_rfl, Bool.false_le _⟩, by simp [left]⟩

/-- What is left after a registration: a lap that is followed by another one has
raised a flag or was told that the delegation is unknown. -/
structure Counted (env env' : Env) (forced : Forced) (next : Option Forced) : Prop where
  named : Named env'.db
  registrations : env'.registrations = env.registrations + 1
  grows : env.unknown ≤ env'.unknown
  unknown : env'.unknown ≤ env.unknown + 1
  progress : ∀ forced', next = some forced' →
    Raised forced forced' ∧ left forced' + env.unknown + 1 ≤ left forced + env'.unknown

/-- A lap that gives up has made one registration at most. -/
structure Stopped (env env' : Env) (e : Exception) : Prop where
  caught : e.isCaught = true
  grows : env.registrations ≤ env'.registrations
  registrations : env'.registrations ≤ env.registrations + 1
  unknown : env'.unknown ≤ env.unknown + (env'.registrations - env.registrations)

/-- A lap that goes on from here. -/
theorem counted_of_raised {env env' : Env} {forced forced' : Forced}
    (hnamed : Named env'.db) (hreg : env'.registrations = env.registrations + 1)
    (hunknown : env'.unknown = env.unknown)
    (h : Raised forced forced' ∧ left forced' + 1 = left forced) :
    Counted env env' forced (some forced') := by
  refine ⟨hnamed, hreg, by omega, by omega, fun forced'' heq => ?_⟩
  cases heq
  exact ⟨h.1, by omega⟩

theorem wp_registerJob {env : Env} (job : CreamJob) (delegation leaseId : Text)
    (forced : Forced) (h : Named env.db) (hknown : Known env.db delegation) :
    wp contract
      (fun env' r => Counted env env' forced
        (match r with | .error forced => some forced | .ok _ => none))
      (fun env' e => Stopped env env' e) env
      (registerJob cfg job delegation leaseId forced) := by
  have hstopped : ∀ (e : Exception) (u : ℕ), e.isCaught = true → u ≤ env.unknown + 1 →
      Stopped env { env with registrations := env.registrations + 1, unknown := u } e :=
    fun e u he hu =>
      ⟨he, Nat.le_succ _, le_rfl, by show u ≤ env.unknown + (_ + 1 - _); omega⟩
  intro r _
  refine ⟨trivial, ?_⟩
  cases r with
  | result r registered err => exact ⟨h, rfl, le_rfl, Nat.le_succ _, nofun⟩
  | blackListFailJob what => exact hstopped _ _ rfl (Nat.le_succ _)
  | gridProxyDelegation =>
      -- the identifier is one of the table, so that the process goes on
      show wp contract _ _ _ ((redelegate _ _ _).bind _)
      unfold redelegate
      intro r _
      refine ⟨trivial, ?_⟩
      have hfound : (contract.world (contract.world env (.creamRegister job.creamAddress
          job.userProxyfile job.modifiedJdl delegation leaseId) .gridProxyDelegation).2
          (.db (.checkDelegationByID delegation)) r).1 = true := hknown
      rw [hfound]
      intro r' _
      refine ⟨trivial, h, rfl, Nat.le_succ _, le_rfl, fun forced' heq => ?_⟩
      cases heq
      exact ⟨Raised.refl forced, by show _ ≤ left forced + (env.unknown + 1); omega⟩
  | delegation what =>
      show wp contract _ _ _ (if forced.delegation then _ else _)
      split
      · exact hstopped _ _ rfl (Nat.le_succ _)
      · next hd => exact counted_of_raised h rfl rfl (raise_delegation (eq_false_of_ne_true hd))
  | generic what =>
      show wp contract _ _ _ (if leaseEnabled cfg && !forced.lease then _ else _)
      split
      · next hl =>
          rw [Bool.and_eq_true, Bool.not_eq_true'] at hl
          exact counted_of_raised h rfl rfl (raise_lease hl.2)
      · exact hstopped _ _ rfl (Nat.le_succ _)
  | base what => exact hstopped _ _ rfl (Nat.le_succ _)
  | unknown => exact hstopped _ _ rfl (Nat.le_succ _)

/-- The loop ends, or a flag is raised, or an exception is thrown. -/
theorem processResult_cases (forced : Forced) (r : RegisterResult) (err : Text) :
    processResult cfg forced r err = .ok none ∨
      (∃ forced', processResult cfg forced r err = .ok (some forced') ∧
        Raised forced forced' ∧ left forced' + 1 = left forced) ∨
      ∃ e, processResult cfg forced r err = .error e ∧ e.isCaught = true := by
  have hdelegation : ∀ e : Exception, e.isCaught = true →
      (∃ forced', (if forced.delegation then Except.error e
          else .ok (some { forced with delegation := true })) = .ok (some forced') ∧
        Raised forced forced' ∧ left forced' + 1 = left forced) ∨
      ∃ e', (if forced.delegation then Except.error e
          else .ok (some { forced with delegation := true })) = .error e' ∧
        e'.isCaught = true := by
    intro e he
    cases hd : forced.delegation with
    | true => exact .inr ⟨e, rfl, he⟩
    | false => exact .inl ⟨_, rfl, raise_delegation hd⟩
  cases r with
  | ok => exact .inl rfl
  | delegationIdMismatch => exact .inr (hdelegation _ rfl)
  | delegationProxyError => exact .inr (hdelegation _ rfl)
  | leaseIdMismatch =>
      right
      unfold processResult
      dsimp only
      split
      · next hl =>
          rw [Bool.and_eq_true, Bool.not_eq_true'] at hl
          exact .inl ⟨_, rfl, raise_lease hl.2⟩
      · exact .inr ⟨_, rfl, rfl⟩
  | other => exact .inr (.inr ⟨_, rfl, rfl⟩)

/-- What is given on top of the delegation changes what is counted by nothing. -/
theorem wp_lap {env : Env} (job : CreamJob) (forced : Forced) (h : Named env.db) :
    wp contract
      (fun env' r => Counted env env' forced
        (match r with | .error forced => some forced | .ok _ => none))
      (fun env' e => Stopped env env' e) env (lap lib cfg job forced) := by
  unfold lap
  simp only [bind_eq, wp_bind]
  refine wp_mono ?_ ?_ (wp_handleDelegation lib cfg job forced.delegation h)
  · rintro env₁ ⟨force, delegation⟩ ⟨hstill, hforce, hknown⟩
    have hraised : Raised forced { forced with delegation := force } := ⟨hforce, le_rfl⟩
    have hleft := hraised.left_le
    refine wp_mono ?_ ?_
      (wp_registerJob cfg job delegation [] { forced with delegation := force }
        hstill.named hknown)
    · intro env₂ r hcounted
      obtain ⟨hnamed, hreg, hgrows, hunknown, hprogress⟩ := hcounted
      rw [hstill.registrations] at hreg
      rw [hstill.unknown] at hgrows hunknown
      cases r with
      | error forced' =>
          refine ⟨hnamed, hreg, hgrows, hunknown, fun forced'' heq => ?_⟩
          cases heq
          obtain ⟨hr, hp⟩ := hprogress forced' rfl
          rw [hstill.unknown] at hp
          exact ⟨hraised.trans hr, by omega⟩
      | ok r =>
          obtain ⟨r, registered, err⟩ := r
          rw [wp_bind, wp_ofExcept]
          obtain hend | ⟨forced', hgo, hr, hp⟩ | ⟨e, hthrow, hcaught⟩ :=
            processResult_cases cfg { forced with delegation := force } r err
          · rw [hend]
            exact ⟨hnamed, hreg, hgrows, hunknown, nofun⟩
          · rw [hgo]
            refine ⟨hnamed, hreg, hgrows, hunknown, fun forced'' heq => ?_⟩
            cases heq
            exact ⟨hraised.trans hr, by omega⟩
          · rw [hthrow]
            exact ⟨hcaught, by omega, by omega, by omega⟩
    · intro env₂ e hstopped
      obtain ⟨hcaught, hgrows, hreg, hunknown⟩ := hstopped
      rw [hstill.registrations] at hgrows hreg hunknown
      rw [hstill.unknown] at hunknown
      exact ⟨hcaught, hgrows, hreg, hunknown⟩
  · rintro env₁ e ⟨hstill, hcaught⟩
    refine ⟨hcaught, hstill.registrations.ge, ?_, ?_⟩
    · rw [hstill.registrations]
      exact Nat.le_succ _
    · rw [hstill.unknown]
      exact Nat.le_add_right _ _

/-! ## The loop -/

/-- What the loop has counted when it is left. One that is stopped by its bound has
used up the flags and the unknown delegations. -/
structure Tally (env env' : Env) (laps : ℕ) (forced : Forced)
    (outcome : Except Exception (Text × Registered)) : Prop where
  grows : env.registrations ≤ env'.registrations
  registrations : env'.registrations ≤ env.registrations + laps
  unknown : env'.unknown ≤ env.unknown + (env'.registrations - env.registrations)
  ending : settled outcome ∨
    outcome = .error .unfinished ∧ laps + env.unknown ≤ left forced + env'.unknown

theorem wp_registerLoop {env : Env} (job : CreamJob) (laps : ℕ) (forced : Forced)
    (h : Named env.db) :
    wp contract (fun env' r => Tally env env' laps forced (.ok r))
      (fun env' e => Tally env env' laps forced (.error e)) env
      (registerLoop lib cfg job laps forced) := by
  induction laps generalizing env forced with
  | zero =>
      exact ⟨le_rfl, le_rfl, Nat.le_add_right _ _, .inr ⟨rfl, by omega⟩⟩
  | succ laps ih =>
      rw [registerLoop_succ, wp_bind]
      refine wp_mono ?_ ?_ (wp_lap lib cfg job forced h)
      · rintro env₁ r ⟨hnamed, hreg, hgrows, hunknown, hprogress⟩
        cases r with
        | ok r => exact ⟨by omega, by omega, by omega, .inl trivial⟩
        | error forced' =>
            obtain ⟨-, hp⟩ := hprogress forced' rfl
            have htally : ∀ env' outcome, Tally env₁ env' laps forced' outcome →
                Tally env env' (laps + 1) forced outcome := by
              rintro env' outcome ⟨hgrows', hreg', hunknown', hend⟩
              refine ⟨by omega, by omega, by omega, hend.imp_right ?_⟩
              rintro ⟨hout, hleft⟩
              exact ⟨hout, by omega⟩
            exact wp_mono (fun _ _ => htally _ _) (fun _ _ => htally _ _)
              (ih forced' hnamed)
      · rintro env₁ e ⟨hcaught, hgrows, hreg, hunknown⟩
        exact ⟨hgrows, by omega, hunknown, .inl hcaught⟩

theorem tally_run (x : Situation) (laps : ℕ) :
    Tally { db := x.db } (x.run lib cfg laps).state laps {} (x.run lib cfg laps).result := by
  have hkeeps : Keeps contract x.oracle 0 { db := x.db }
      (registerLoop lib cfg x.job laps {}) :=
    keeps_of_forall x.oracle (fun n _ c => x.named n c) _ _ _
  have hpost := wp_exec x.oracle hkeeps (wp_registerLoop lib cfg x.job laps {} x.rows)
  show Tally _ (exec contract.world _ _ _ _).state _ _ (exec contract.world _ _ _ _).result
  split at hpost
  · next h => exact h ▸ hpost
  · next h => exact h ▸ hpost

/-- A loop that has ended does not go on with more laps. -/
theorem exec_registerLoop_le {o : Oracle Call Answer} {job : CreamJob} {laps laps' : ℕ}
    (hle : laps ≤ laps') (n : ℕ) (env : Env) (forced : Forced)
    (h : settled (exec world o n env (registerLoop lib cfg job laps forced)).result) :
    exec world o n env (registerLoop lib cfg job laps' forced) =
      exec world o n env (registerLoop lib cfg job laps forced) := by
  induction laps generalizing laps' n env forced with
  | zero => cases h
  | succ laps ih =>
      obtain ⟨laps', rfl⟩ : ∃ k, laps' = k + 1 := ⟨laps' - 1, by omega⟩
      rw [registerLoop_succ, exec_bind] at h ⊢
      rw [registerLoop_succ, exec_bind]
      generalize exec world o n env (lap lib cfg job forced) = done at h ⊢
      obtain ⟨r, n', env'⟩ := done
      cases r with
      | error e => rfl
      | ok r =>
          cases r with
          | ok registered => rfl
          | error forced' => exact ih (by omega) n' env' forced' h

/-! ## What bounds it -/

/-- The loop has ended, with a registered job or an exception that is caught, after a
number of registrations. -/
structure Situation.EndsWithin (x : Situation) (bound : ℕ) : Prop where
  ending : settled (x.run lib cfg bound).result
  registrations : (x.run lib cfg bound).state.registrations ≤ bound

/-- However far the loop is let go, it is told that the delegation is unknown no
more often than this. -/
def Situation.UnknownAtMost (x : Situation) (faults : ℕ) : Prop :=
  ∀ laps, (x.run lib cfg laps).state.unknown ≤ faults

/-- A lap leaves a flag that is raised as it is, so that it is raised once. -/
def RaisedOnce : Prop :=
  ∀ job forced, Within (fun _ => True)
    (fun r => ∀ forced', r = .error forced' → Raised forced forced') (lap lib cfg job forced)

theorem within_handleDelegation (job : CreamJob) (force : Bool) :
    Within (fun _ => True) (fun r => force ≤ r.1) (handleDelegation lib cfg job force) := by
  unfold handleDelegation
  simp only [bind_eq]
  refine within_bind (within_mono (fun _ _ => trivial) (fun _ h => h)
    (within_forceDelegation lib cfg job force).1) fun force' hle => ?_
  refine within_bind (within_any _) fun delegation _ => ?_
  cases delegation with
  | ok id => exact hle
  | error what => trivial

theorem within_registerJob (job : CreamJob) (delegation leaseId : Text) (forced : Forced) :
    Within (fun _ => True) (fun r => ∀ forced', r = .error forced' → Raised forced forced')
      (registerJob cfg job delegation leaseId forced) := by
  have hraise : ∀ forced', Raised forced forced' → ∀ forced'',
      (Except.error forced' : Except Forced (RegisterResult × Registered × Text)) =
        .error forced'' → Raised forced forced'' := by
    intro forced' h forced'' heq
    exact Except.error.inj heq ▸ h
  refine ⟨trivial, fun r => ?_⟩
  cases r with
  | result r registered err => exact nofun
  | gridProxyDelegation =>
      show Within _ _ ((redelegate job.userProxyfile job.creamDelegAddress delegation).bind
        fun _ => ret (Except.error forced))
      exact within_bind (within_any _) fun _ _ => hraise forced (Raised.refl forced)
  | delegation what =>
      show Within _ _ (if forced.delegation then _ else _)
      split
      · trivial
      · next hd => exact hraise _ (raise_delegation (eq_false_of_ne_true hd)).1
  | generic what =>
      show Within _ _ (if leaseEnabled cfg && !forced.lease then _ else _)
      split
      · next hl =>
          rw [Bool.and_eq_true, Bool.not_eq_true'] at hl
          exact hraise _ (raise_lease hl.2).1
      · trivial
  | _ => trivial

theorem raisedOnce : RaisedOnce lib cfg := by
  intro job forced
  unfold lap
  simp only [bind_eq]
  refine within_bind (within_handleDelegation lib cfg job _) fun ⟨force, delegation⟩ hle => ?_
  have hraised : Raised forced { forced with delegation := force } := ⟨hle, le_rfl⟩
  refine within_bind (within_registerJob cfg job delegation [] _) fun r hr => ?_
  cases r with
  | error forced' =>
      intro forced'' heq
      cases heq
      exact hraised.trans (hr forced' rfl)
  | ok r =>
      obtain ⟨r, registered, err⟩ := r
      refine within_bind (within_ofExcept fun o ho => ho) fun o ho => ?_
      cases o with
      | none => exact nofun
      | some forced' =>
          intro forced'' heq
          cases heq
          obtain hend | ⟨forced', hgo, hr, -⟩ | ⟨e, hthrow, -⟩ :=
            processResult_cases cfg { forced with delegation := force } r err
          · cases hend.symm.trans ho
          · cases hgo.symm.trans ho
            exact hraised.trans hr
          · cases hthrow.symm.trans ho

/-- The loop is bounded just where the faults are that raise no flag. -/
theorem bounded_iff (situations : Set Situation) :
    ((∃ bound, ∀ x ∈ situations, x.EndsWithin lib cfg bound) ∧ RaisedOnce lib cfg) ↔
      ∃ faults, ∀ x ∈ situations, x.UnknownAtMost lib cfg faults := by
  constructor
  · rintro ⟨⟨bound, hends⟩, -⟩
    refine ⟨bound, fun x hx laps => ?_⟩
    have htally := tally_run lib cfg x
    have hunknown : ∀ laps, (x.run lib cfg laps).state.unknown ≤
        (x.run lib cfg laps).state.registrations := by
      intro laps
      have h := (htally laps).unknown
      rwa [Nat.zero_add] at h
    refine (hunknown laps).trans ?_
    rcases Nat.le_total laps bound with hle | hle
    · exact ((htally laps).registrations.trans (by simpa using hle))
    · obtain ⟨hend, hreg⟩ := hends x hx
      have hsame : x.run lib cfg laps = x.run lib cfg bound :=
        exec_registerLoop_le lib cfg hle 0 _ {} hend
      rw [hsame]
      exact hreg
  · rintro ⟨faults, hfew⟩
    refine ⟨⟨faults + 3, fun x hx => ?_⟩, raisedOnce lib cfg⟩
    obtain ⟨-, hreg, -, hend⟩ := tally_run lib cfg x (faults + 3)
    refine ⟨hend.resolve_right ?_, by simpa using hreg⟩
    rintro ⟨-, hleft⟩
    have hmany := hfew x hx (faults + 3)
    have htwo : left {} = 2 := rfl
    simp only [htwo] at hleft
    omega

/-! ## An unknown delegation, every time -/

/-- The answers of a CREAM that takes delegations and knows none. -/
def forgetful : (c : Call) → Answer c
  | .db op => (({ } : Db).run op).1
  | .time => 0
  | .log _ _ => none
  | .copyProxy _ _ => true
  | .computeSha1Digest _ => .ok ['d']
  | .generateDelegationID => ['i']
  | .creamDelegate _ _ _ => .ok ()
  | .creamRegister _ _ _ _ _ => .gridProxyDelegation
  | .creamStart _ _ _ => .result {}
  | .noResubmit => false
  | .proxyTimeEnd _ => 0
  | .putRequest _ _ => .ok ()
  | .removeRequest => true

def delegatedDb : Db where
  delegations := ⟨[{
    digest := ['d'], creamurl := [], exptime := 0, duration := 0, delegationid := ['i'],
    userdn := [], renewable := false, myproxyurl := [] }], List.nodup_singleton _⟩

def forgottenDelegation : Situation where
  job := {}
  oracle := fun _ => forgetful
  db := delegatedDb
  named := by
    intro n c
    cases c with
    | generateDelegationID => exact List.cons_ne_nil _ _
    | _ => trivial
  rows := by decide

def bareLibraries : Libraries where
  parseClassAd := fun _ => none
  creamJdlHelper := .ok
  parseCEID := .error
  compressedString := id

def bareConfig : Config where
  creamUrlPrefix := []
  creamUrlPostfix := []
  creamdelegationUrlPrefix := []
  creamdelegationUrlPostfix := []
  leaseDeltaTime := 0
  proxyRenewalFrequency := 0
  persistDir := []
  input := []

theorem unfinished_forgotten (laps n r u : ℕ) :
    (exec world (fun _ => forgetful) n ⟨delegatedDb, r, u⟩
      (registerLoop bareLibraries bareConfig {} laps {})).result = .error .unfinished := by
  induction laps generalizing n r u with
  | zero => rfl
  | succ laps ih =>
      rw [registerLoop_succ, exec_bind]
      exact ih _ _ _

/-- The loop does not end while CREAM knows none of the delegations it takes. -/
theorem not_bounded_forgotten :
    ¬ ∃ bound, ∀ x ∈ ({forgottenDelegation} : Set Situation),
      x.EndsWithin bareLibraries bareConfig bound := by
  rintro ⟨bound, h⟩
  obtain ⟨hend, -⟩ := h forgottenDelegation rfl
  have hrun : (forgottenDelegation.run bareLibraries bareConfig bound).result =
      .error .unfinished := unfinished_forgotten bound 0 0 0
  rw [hrun] at hend
  cases hend

end Wms.Ice.Registration
