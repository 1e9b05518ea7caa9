import Wms.Lib.Interference
import Wms.Proofs.ProxySections
import Wms.Proofs.Registration

/-!
# Recorded delegations

What the renewal knows of an entry it has read stays true whatever the others do:
as long as the row of the entry is there nobody else changes its time, and the
proxy it has looked up for the pair is in its file or something longer is. So what
it notes when CREAM has taken the proxy is covered by what CREAM holds, or the row
it is noted for is gone.
-/

namespace Wms.Ice.Renewal

open Wms.Lib Proc

variable {lib : Libraries} {cfg : Config} {s t : Shared}

/-! ## What is known between two calls -/

/-- No row is left under an identifier, and none will come. -/
def Gone (s : Shared) (id : Text) : Prop :=
  s.cream id ≠ none ∧ ∀ r ∈ s.db.delegations.rows, r.delegationid ≠ id

/-- CREAM holds a proxy that lasts to a time. -/
def Covered (s : Shared) (id : Text) (exptime : ℤ) : Prop :=
  ∃ e, s.cream id = some e ∧ exptime ≤ e

/-- An entry that was read; its row has not changed if it is still there. -/
structure Entry (it : DelegationRow) (s : Shared) : Prop where
  server : it.myproxyurl ≠ []
  known : s.cream it.delegationid ≠ none
  same : ∀ r ∈ s.db.delegations.rows, r.delegationid = it.delegationid →
    r.userdn = it.userdn ∧ r.myproxyurl = it.myproxyurl ∧ r.exptime = it.exptime

/-- What has been noted for the end of the round. -/
def Noted (m : DelegTimes) (s : Shared) : Prop :=
  ∀ id times, (id, times) ∈ m →
    id ∈ s.renewed ∧ (Gone s id ∨ Covered s id times.1)

/-- The file of the pair of an entry holds a proxy that lasts to a time. -/
def Ready (it : DelegationRow) (file : Text) (exptime : ℤ) (s : Shared) : Prop :=
  Gone s it.delegationid ∨ ∃ row ∈ s.db.proxies.rows,
    row.key = (it.userdn, it.myproxyurl) ∧ row.proxyfile = file ∧
      ∃ e, s.files file = some e ∧ exptime ≤ e

/-- Rows with a time of their own keep it until CREAM renews them. -/
def Kept (first : Text → Option ℤ) (s : Shared) : Prop :=
  ∀ id exptime, first id = some exptime → s.cream id ≠ none ∧
    (id ∉ s.renewed → ∀ r ∈ s.db.delegations.rows, r.delegationid = id →
      r.exptime = exptime)

/-- The part of a step that entries and notes depend on. -/
structure Mild (s t : Shared) : Prop where
  cream : ∀ id e, s.cream id = some e → ∃ e', t.cream id = some e' ∧ e ≤ e'
  rows : ∀ r ∈ t.db.delegations.rows,
    r ∈ s.db.delegations.rows ∨ s.cream r.delegationid = none
  renewed : t.renewed = s.renewed

theorem Others.mild (h : Others lib cfg s t) : Mild s t := ⟨h.cream, h.rows, h.renewed⟩

theorem Mild.known (h : Mild s t) {id : Text} (hid : s.cream id ≠ none) :
    t.cream id ≠ none := by
  obtain ⟨e, he⟩ := Option.ne_none_iff_exists'.mp hid
  obtain ⟨e', he', -⟩ := h.cream id e he
  rw [he']
  exact Option.some_ne_none e'

theorem Mild.old (h : Mild s t) {id : Text} (hid : s.cream id ≠ none)
    {r : DelegationRow} (hr : r ∈ t.db.delegations.rows) (hrid : r.delegationid = id) :
    r ∈ s.db.delegations.rows := by
  rcases h.rows r hr with hr | hnew
  · exact hr
  · exact absurd (hrid ▸ hnew) hid

theorem Gone.mild (h : Mild s t) {id : Text} (hg : Gone s id) : Gone t id :=
  ⟨h.known hg.1, fun r hr hrid => hg.2 r (h.old hg.1 hr hrid) hrid⟩

theorem Covered.mild (h : Mild s t) {id : Text} {exptime : ℤ}
    (hcov : Covered s id exptime) : Covered t id exptime := by
  obtain ⟨e, he, hle⟩ := hcov
  obtain ⟨e', he', hle'⟩ := h.cream id e he
  exact ⟨e', he', hle.trans hle'⟩

theorem settled_mild (h : Mild s t) {id : Text} {exptime : ℤ}
    (hcov : Gone s id ∨ Covered s id exptime) : Gone t id ∨ Covered t id exptime :=
  hcov.imp (Gone.mild h) (Covered.mild h)

theorem Entry.mild (h : Mild s t) {it : DelegationRow} (he : Entry it s) :
    Entry it t where
  server := he.server
  known := h.known he.known
  same := fun r hr hrid => he.same r (h.old he.known hr hrid) hrid

theorem Noted.mild (h : Mild s t) {m : DelegTimes} (hm : Noted m s) : Noted m t := by
  intro id times hin
  obtain ⟨hrenewed, hcov⟩ := hm id times hin
  exact ⟨h.renewed ▸ hrenewed, settled_mild h hcov⟩

theorem Kept.mild (h : Mild s t) {first : Text → Option ℤ} (hk : Kept first s) :
    Kept first t := by
  intro id exptime hfirst
  obtain ⟨hknown, hsame⟩ := hk id exptime hfirst
  refine ⟨h.known hknown, fun hnot r hr hrid => ?_⟩
  exact hsame (h.renewed ▸ hnot) r (h.old hknown hr hrid) hrid

/-- If the pair loses its delegations, the entry is among them. -/
theorem Ready.after (h : After lib cfg s t) {it : DelegationRow} {file : Text}
    {exptime : ℤ} (he : Entry it s) (hr : Ready it file exptime s) :
    Ready it file exptime t := by
  rcases hr with hgone | ⟨row, hrow, hkey, hfile, e, hends, hle⟩
  · exact .inl (hgone.mild h.1.mild)
  · have hdn : row.userdn = it.userdn := congrArg Prod.fst hkey
    have hmyproxy : row.myproxyurl = it.myproxyurl := congrArg Prod.snd hkey
    rcases h.1.pairs row hrow (hmyproxy ▸ he.server) with
      ⟨row', hrow', hkey', hfile', hends'⟩ | hlost
    · obtain ⟨e', he', hle'⟩ := hends' e (hfile ▸ hends)
      exact .inr ⟨row', hrow', hkey'.trans hkey, hfile'.trans hfile, e', hfile ▸ he',
        hle.trans hle'⟩
    · refine .inl ⟨h.1.mild.known he.known, fun r hr hrid => ?_⟩
      obtain ⟨hdn', hmyproxy', -⟩ := he.same r (h.1.mild.old he.known hr hrid) hrid
      exact he.known (hrid ▸ hlost r hr (hdn'.trans hdn.symm)
        (hmyproxy'.trans hmyproxy.symm))

/-! ## A round -/

variable (lib cfg) in
/-- The call is answered in a state, as the renewal is asked to make it. -/
def Own (s : Shared) (c : RenewalCall) (r : RenewalAnswer c) (t : Shared) : Prop :=
  ∃ o offered, CallCareful lib cfg s c ∧ renewalWorld lib cfg o s c offered = (r, t)

variable (lib cfg) in
/-- What holds all the time. -/
def Inv (first : Text → Option ℤ) (s : Shared) : Prop :=
  Consistent lib cfg s ∧ Kept first s

variable (lib cfg) in
/-- A property of all states of a run, others acting between its calls. -/
def Along (first : Text → Option ℤ) {α : Type} (Q : Shared → α → Prop) (s : Shared)
    (p : RenewalProc α) : Prop :=
  Amid (Own lib cfg) (After lib cfg) (Inv lib cfg first) Q s p

variable (lib cfg) in
/-- Between the calls of a round, with what it has still to look at. -/
structure Round (first : Text → Option ℤ) (entries : List DelegationRow)
    (m : DelegTimes) (s : Shared) : Prop where
  inv : Inv lib cfg first s
  entries : ∀ it ∈ entries, Entry it s
  noted : Noted m s

variable {first : Text → Option ℤ} {entries : List DelegationRow} {m : DelegTimes}

theorem Round.mild (h : Mild s t) (hc : Consistent lib cfg t)
    (hr : Round lib cfg first entries m s) : Round lib cfg first entries m t where
  inv := ⟨hc, hr.inv.2.mild h⟩
  entries := fun it hit => (hr.entries it hit).mild h
  noted := hr.noted.mild h

theorem stable_round : Stable (After lib cfg) (Round lib cfg first entries m) :=
  fun _ _ h hr => hr.mild h.1.mild h.2

theorem mem_eraseID {id : Text} {e : Text × ℤ × ℤ} :
    e ∈ eraseID m id ↔ e ∈ m ∧ e.1 ≠ id := by
  refine OrderedMap.mem_filter.trans (and_congr_right fun _ => ?_)
  exact decide_eq_true_iff

theorem Noted.erase (h : Noted m s) (id : Text) : Noted (eraseID m id) s :=
  fun id' times hin => h id' times (mem_eraseID.mp hin).1

theorem Noted.erase_set (h : Noted m s) (id : Text) (times : ℤ × ℤ) :
    Noted (eraseID (OrderedMap.set m id times) id) s := by
  intro id' times' hin
  obtain ⟨hin, hne⟩ := mem_eraseID.mp hin
  rcases OrderedMap.mem_set.mp hin with heq | ⟨hin, -⟩
  · exact absurd (congrArg Prod.fst heq) hne
  · exact h id' times' hin

section Calls

variable {α : Type} {Q : Shared → α → Prop} {A : Shared → Prop}

theorem along_ret {a : α} (hstable : Stable (After lib cfg) A)
    (hI : ∀ s, A s → Inv lib cfg first s) (hs : A s) (hQ : ∀ s, A s → Q s a) :
    Along lib cfg first Q s (ret a) := amid_ret hstable hI hs hQ

/-- What is asserted before a call holds where it is answered. -/
theorem along_ask {c : RenewalCall} {f : RenewalAnswer c → RenewalProc α}
    (hstable : Stable (After lib cfg) A) (hI : ∀ s, A s → Inv lib cfg first s)
    (hs : A s)
    (hk : ∀ s o offered, A s → CallCareful lib cfg s c →
      Along lib cfg first Q (renewalWorld lib cfg o s c offered).2
        (f (renewalWorld lib cfg o s c offered).1)) :
    Along lib cfg first Q s ((ask c).bind f) := by
  refine amid_call hstable hI hs ?_
  rintro s r t hs ⟨o, offered, hcareful, heq⟩
  have h := hk s o offered hs hcareful
  rwa [heq] at h

theorem along_bind {β : Type} {Q : Shared → β → Prop} {p : RenewalProc α}
    {f : α → RenewalProc β} {Q' : Shared → α → Prop}
    (hp : Along lib cfg first Q' s p)
    (hf : ∀ s a, Q' s a → Along lib cfg first Q s (f a)) :
    Along lib cfg first Q s (p.bind f) := (hp.mono hf).bind

/-- A call before which no more is known than at any time of a round. -/
theorem Round.ask {c : RenewalCall} {f : RenewalAnswer c → RenewalProc α}
    (hr : Round lib cfg first entries m s)
    (hk : ∀ s o offered, Round lib cfg first entries m s → CallCareful lib cfg s c →
      Along lib cfg first Q (renewalWorld lib cfg o s c offered).2
        (f (renewalWorld lib cfg o s c offered).1)) :
    Along lib cfg first Q s ((Renewal.ask c).bind f) :=
  along_ask stable_round (fun _ h => h.inv) hr hk

theorem Round.answer (hr : Round lib cfg first entries m s) (a : α) :
    Along lib cfg first (fun s _ => Round lib cfg first entries m s) s (ret a) :=
  along_ret stable_round (fun _ h => h.inv) hr fun _ h => h

/-- The times that have been noted are handed on. -/
theorem Round.handOn (hr : Round lib cfg first entries m s) :
    Along lib cfg first (fun s m => Round lib cfg first entries m s) s (ret m) :=
  along_ret stable_round (fun _ h => h.inv) hr fun _ h => h

end Calls

theorem mild_setFile (s : Shared) (path : Text) (v : Option ℤ) :
    Mild s (s.setFile path v) := ⟨fun _ e he => ⟨e, he, le_rfl⟩, fun _ hr => .inl hr, rfl⟩

/-- The file a fetched proxy is written to is of no pair. -/
theorem consistent_setFile (hc : Consistent lib cfg s) (path : Text) (v : Option ℤ) :
    Consistent lib cfg (s.setFile (renewedPath path) v) where
  recorded := hc.recorded
  unique := hc.unique
  server := hc.server
  path := hc.path
  stored := by
    intro row hrow hserver
    rw [setFile_of_ne (hc.path row hrow hserver ▸ (renewedPath_ne path _ _).symm)]
    exact hc.stored row hrow hserver
  apart := hc.apart

theorem Round.setFile (hr : Round lib cfg first entries m s) (path : Text)
    (v : Option ℤ) : Round lib cfg first entries m (s.setFile (renewedPath path) v) :=
  hr.mild (mild_setFile s _ v) (consistent_setFile hr.inv.1 path v)

/-- The time that is stored is the one that was read of the same file. -/
theorem updateBetterProxy_after (hc : Consistent lib cfg s) {dn myproxy source : Text}
    {timeEnd : ℤ} (hserver : myproxy ≠ []) (hends : s.files source = some timeEnd)
    (hcareful : CallCareful lib cfg s (.updateBetterProxy dn myproxy source timeEnd))
    (o : Oracle Call Answer) :
    After lib cfg s (exec world o 0 s
      (Ice.updateBetterProxy lib cfg dn myproxy source timeEnd)).state := by
  have hstorable : Storable lib cfg s dn myproxy source timeEnd :=
    ⟨hserver, fun e he => le_of_eq (Option.some.inj (hends.symm.trans he)), hcareful.1,
      hcareful.2⟩
  -- a world in which every identifier is new asks nothing of the answers
  have h := @leaves_updateBetterProxy lib cfg s { s with cream := fun _ => none } dn
    source myproxy timeEnd hc hstorable
  refine wp_exec_state o (keeps_of_forall o (fun n _ c => ?_) 0 s _) h
  cases c <;> trivial

theorem along_fetchProxy {it : DelegationRow} (hit : it ∈ entries)
    (hr : Round lib cfg first entries m s) :
    Along lib cfg first (fun s _ => Round lib cfg first entries m s) s
      (fetchProxy it (makeBetterproxyPath lib cfg it.userdn it.myproxyurl)) := by
  unfold fetchProxy
  refine hr.ask fun s o answer hr _ => ?_
  have hr' := hr.setFile (makeBetterproxyPath lib cfg it.userdn it.myproxyurl) answer.written
  split
  · refine hr'.ask fun s o readable hr _ => ?_
    cases hread : (renewalWorld lib cfg o s (.vomsTimeEnd (renewedPath
        (makeBetterproxyPath lib cfg it.userdn it.myproxyurl))) readable).1 with
    | none => exact hr.answer ()
    | some timeEnd =>
        obtain ⟨-, -, hends⟩ := Option.bind_eq_some_iff.mp hread
        have hstable : Stable (After lib cfg) fun s => Round lib cfg first entries m s ∧
            s.files (renewedPath (makeBetterproxyPath lib cfg it.userdn it.myproxyurl)) =
              some timeEnd := fun _ _ h hs =>
          ⟨hs.1.mild h.1.mild h.2, (h.1.fetched _ _).trans hs.2⟩
        refine along_ask hstable (fun _ h => h.1.inv) ⟨hr, hends⟩
          fun s o _ hs hcareful => ?_
        have hafter := updateBetterProxy_after hs.1.inv.1 (hr.entries it hit).server hs.2
          hcareful o
        refine (hs.1.mild hafter.1.mild hafter.2).ask fun s o _ hr _ => ?_
        exact (hr.setFile _ none).answer ()
  · exact hr'.answer ()

theorem Round.erase (hr : Round lib cfg first entries m s) (id : Text) :
    Round lib cfg first entries (eraseID m id) s :=
  ⟨hr.inv, hr.entries, hr.noted.erase id⟩

theorem Round.removeDelegation (hr : Round lib cfg first entries m s) (id : Text) :
    Round lib cfg first entries m { s with db := removeDelegationByID s.db id } := by
  have hrows : ∀ r ∈ (removeDelegationByID s.db id).delegations.rows,
      r ∈ s.db.delegations.rows := fun r hr => (Table.mem_deleteIf.mp hr).1
  have hmild : Mild s { s with db := removeDelegationByID s.db id } :=
    ⟨fun _ e he => ⟨e, he, le_rfl⟩, fun r hin => .inl (hrows r hin), rfl⟩
  exact hr.mild hmild (hr.inv.1.fewer hrows fun _ hrow => hrow)

/-- The other delegations of the pair stay, though its proxy goes. -/
theorem Round.removeBetterProxy (hr : Round lib cfg first entries m s) {dn myproxy : Text}
    (hcareful : NotShared lib cfg s dn myproxy) :
    Round lib cfg first entries m (removeBetterProxy lib cfg s dn myproxy) := by
  have hrows : ∀ row ∈ (s.db.removeProxy dn myproxy).proxies.rows,
      row ∈ s.db.proxies.rows ∧ row.key ≠ (dn, myproxy) := fun row hrow =>
    Table.mem_delete.mp hrow
  have hmild : Mild s (Renewal.removeBetterProxy lib cfg s dn myproxy) :=
    ⟨fun _ e he => ⟨e, he, le_rfl⟩, fun r hin => .inl hin, rfl⟩
  have hc := hr.inv.1
  refine hr.mild hmild ⟨hc.recorded, hc.unique, hc.server,
    fun row hrow => hc.path row (hrows row hrow).1, ?_,
    fun row hrow row' hrow' => hc.apart row (hrows row hrow).1 row' (hrows row' hrow').1⟩
  intro row hrow hserver
  obtain ⟨hin, hne⟩ := hrows row hrow
  have hfile : row.proxyfile ≠ makeBetterproxyPath lib cfg dn myproxy := fun hpath =>
    hne (hcareful row hin hpath)
  obtain ⟨e, he, hle⟩ := hc.stored row hin hserver
  exact ⟨e, (setFile_of_ne hfile _ _).trans he, hle⟩

/-- CREAM holds another proxy for an entry, under which nothing is noted. -/
theorem Round.hold {it : DelegationRow} (hit : it ∈ entries)
    (hr : Round lib cfg first entries (eraseID m it.delegationid) s) {e : ℤ}
    (hends : Gone s it.delegationid ∨ it.exptime ≤ e) {renewed : List Text}
    (hrenewed : ∀ id ∈ s.renewed, id ∈ renewed) :
    Round lib cfg first entries (eraseID m it.delegationid)
      { s.hold it.delegationid e with renewed := renewed } := by
  have hc := hr.inv.1
  have hknown : ∀ id, s.cream id ≠ none → (s.hold it.delegationid e).cream id ≠ none := by
    intro id hid
    by_cases heq : id = it.delegationid
    · rw [heq, hold_self]
      exact Option.some_ne_none e
    · rwa [hold_of_ne heq]
  refine ⟨⟨⟨?_, hc.unique, hc.server, hc.path, hc.stored, hc.apart⟩, ?_⟩, ?_, ?_⟩
  · intro r hin
    by_cases hid : r.delegationid = it.delegationid
    · refine ⟨e, by rw [hid]; exact hold_self s _ e, ?_⟩
      rcases hends with hgone | hle
      · exact absurd hid (hgone.2 r hin)
      · exact ((hr.entries it hit).same r hin hid).2.2 ▸ hle
    · obtain ⟨e₀, he₀, hle⟩ := hc.recorded r hin
      exact ⟨e₀, (hold_of_ne hid s e).trans he₀, hle⟩
  · intro id exptime hfirst
    obtain ⟨hid, hsame⟩ := hr.inv.2 id exptime hfirst
    exact ⟨hknown id hid, fun hnot => hsame fun hin => hnot (hrenewed id hin)⟩
  · intro it' hit'
    obtain ⟨hserver, hid, hsame⟩ := hr.entries it' hit'
    exact ⟨hserver, hknown _ hid, hsame⟩
  · intro id times hin
    obtain ⟨hmem, hcov⟩ := hr.noted id times hin
    have hne : id ≠ it.delegationid := (mem_eraseID.mp hin).2
    refine ⟨hrenewed id hmem, hcov.imp (fun hg => ⟨hknown id hg.1, hg.2⟩) ?_⟩
    rintro ⟨e₀, he₀, hle⟩
    exact ⟨e₀, (hold_of_ne hne s e).trans he₀, hle⟩

/-- What is noted for an entry once CREAM has taken the proxy. -/
theorem Round.note {id : Text} {times : ℤ × ℤ}
    (hr : Round lib cfg first entries (eraseID m id) s) (hid : id ∈ s.renewed)
    (hcov : Gone s id ∨ Covered s id times.1) :
    Round lib cfg first entries (OrderedMap.set m id times) s := by
  refine ⟨hr.inv, hr.entries, fun id' times' hin => ?_⟩
  rcases OrderedMap.mem_set.mp hin with heq | hold
  · obtain ⟨rfl, rfl⟩ := Prod.mk.inj heq
    exact ⟨hid, hcov⟩
  · exact hr.noted id' times' (mem_eraseID.mpr hold)

theorem Ready.ends {it : DelegationRow} {file : Text} {exptime e : ℤ}
    (h : Ready it file exptime s) (he : s.files file = some e) :
    Gone s it.delegationid ∨ exptime ≤ e := by
  refine h.imp_right ?_
  rintro ⟨row, -, -, -, e', he', hle⟩
  exact Option.some.inj (he'.symm.trans he) ▸ hle

/-- The same file, by what was read of it. -/
theorem Ready.of_read {it : DelegationRow} {file : Text} {exptime e : ℤ}
    (h : Ready it file exptime s) (he : s.files file = some e) : Ready it file e s := by
  refine h.imp_right ?_
  rintro ⟨row, hrow, hkey, hfile, -⟩
  exact ⟨row, hrow, hkey, hfile, e, he, le_rfl⟩

/-- CREAM has taken the proxy, or may have. -/
theorem creamProxyRenew_cases (s : Shared) (o : Oracle Call Answer)
    (url file id : Text) (answer : RenewAnswer) :
    (∃ e, s.files file = some e ∧
      renewalWorld lib cfg o s (.creamProxyRenew url file id) answer =
        (.done, { s.hold id e with renewed := id :: s.renewed })) ∨
    ∃ what carriedOut t,
      renewalWorld lib cfg o s (.creamProxyRenew url file id) answer =
        (.raised what carriedOut, t) ∧
      (t = s ∨ ∃ e, s.files file = some e ∧
        t = { s.hold id e with renewed := s.renewed }) := by
  cases hfile : s.files file with
  | none => exact .inr ⟨answer.what, false, s, by simp [renewalWorld, hfile], .inl rfl⟩
  | some e =>
      cases answer with
      | done => exact .inl ⟨e, rfl, by simp [renewalWorld, hfile]⟩
      | raised what carriedOut =>
          cases carriedOut with
          | false =>
              exact .inr ⟨what, false, s, by simp [renewalWorld, hfile, RenewAnswer.what],
                .inl rfl⟩
          | true =>
              exact .inr ⟨what, true, s.hold id e, by simp [renewalWorld, hfile],
                .inr ⟨e, rfl, rfl⟩⟩

theorem covered_of_hold {id : Text} {exptime e : ℤ}
    (h : Gone s id ∨ exptime ≤ e) (renewed : List Text) :
    Gone { s.hold id e with renewed := renewed } id ∨
      Covered { s.hold id e with renewed := renewed } id exptime := by
  have hself : (s.hold id e).cream id = some e := hold_self s id e
  rcases h with hgone | hle
  · exact .inl ⟨hself ▸ Option.some_ne_none e, hgone.2⟩
  · exact .inr ⟨e, hself, hle⟩

theorem stable_taken {id : Text} {exptime : ℤ} :
    Stable (After lib cfg) fun s => Round lib cfg first entries m s ∧
      id ∈ s.renewed ∧ (Gone s id ∨ Covered s id exptime) := fun _ _ h hs =>
  ⟨hs.1.mild h.1.mild h.2, h.1.renewed ▸ hs.2.1, settled_mild h.1.mild hs.2.2⟩

theorem along_renewWith {it : DelegationRow} {better : ProxyRow} (hit : it ∈ entries)
    (hr : Round lib cfg first entries (eraseID m it.delegationid) s)
    (hready : Ready it better.proxyfile better.exptime s) :
    Along lib cfg first (fun s m => Round lib cfg first entries m s) s
      (renewWith cfg it better m) := by
  have hstable : ∀ exptime, Stable (After lib cfg) fun s =>
      Round lib cfg first entries (eraseID m it.delegationid) s ∧
        Ready it better.proxyfile better.exptime s ∧
          Ready it better.proxyfile exptime s := fun exptime _ _ h hs =>
    ⟨hs.1.mild h.1.mild h.2, hs.2.1.after h (hs.1.entries it hit),
      hs.2.2.after h (hs.1.entries it hit)⟩
  unfold renewWith
  refine along_ask (hstable better.exptime) (fun _ h => h.1.inv) ⟨hr, hready, hready⟩
    fun s o readable hs _ => ?_
  cases hread : (renewalWorld lib cfg o s (.isGoodProxy better.proxyfile) readable).1 with
  | none => exact hs.1.handOn
  | some proxyTimeEnd =>
      obtain ⟨-, -, hends⟩ := Option.bind_eq_some_iff.mp hread
      have hread' := hs.2.1.of_read hends
      refine along_ask (hstable proxyTimeEnd) (fun _ h => h.1.inv)
        ⟨hs.1, hs.2.1, hread'⟩ fun s o now hs _ => ?_
      split
      · -- the proxy has expired, and all that hangs on it goes
        refine hs.1.ask fun s o _ hr _ => ?_
        refine (hr.removeDelegation _).ask fun s o _ hr hcareful => ?_
        refine (hr.removeBetterProxy hcareful).ask fun s o _ hr _ => ?_
        exact hr.handOn
      · split
        · next hlonger =>
            refine along_ask (hstable proxyTimeEnd) (fun _ h => h.1.inv) hs
              fun s o answer hs _ => ?_
            have hends : ∀ e, s.files better.proxyfile = some e →
                Gone s it.delegationid ∨ it.exptime ≤ e := fun e he =>
              (hs.2.2.ends he).imp_right hlonger.le.trans
            rcases @creamProxyRenew_cases lib cfg s o (delegationUrl cfg it.creamurl)
              better.proxyfile it.delegationid answer with
              ⟨e, he, heq⟩ | ⟨what, carriedOut, t, heq, rfl | ⟨e, he, rfl⟩⟩ <;>
              rw [heq]
            · have hheld := hs.1.hold hit (hends e he) fun id hid =>
                List.mem_cons_of_mem it.delegationid hid
              refine along_ask stable_taken (fun _ h => h.1.inv)
                ⟨hheld, List.mem_cons_self, covered_of_hold (hs.2.1.ends he) _⟩
                fun s o now hs _ => ?_
              exact along_ret stable_taken (fun _ h => h.1.inv) hs
                fun s hs => hs.1.note hs.2.1 hs.2.2
            · exact hs.1.handOn
            · exact (hs.1.hold hit (hends e he) fun _ hid => hid).handOn
        · exact hs.1.handOn

/-- The proxy of a pair that was looked up, with the file it is in. -/
theorem looked_up (hc : Consistent lib cfg s) {it : DelegationRow}
    (hserver : it.myproxyurl ≠ []) {row : ProxyRow}
    (h : withProxyfile (s.db.proxy? it.userdn it.myproxyurl) = some row) :
    row.proxyfile = makeBetterproxyPath lib cfg it.userdn it.myproxyurl ∧
      Ready it row.proxyfile row.exptime s := by
  have hfound := (Option.filter_eq_some_iff.mp h).1
  obtain ⟨hrow, hkey⟩ := Table.find?_eq_some_iff.mp hfound
  have hmyproxy : row.myproxyurl = it.myproxyurl := congrArg Prod.snd hkey
  obtain ⟨e, he, hle⟩ := hc.stored row hrow (hmyproxy ▸ hserver)
  exact ⟨path_of_key hc hrow hserver hkey, .inr ⟨row, hrow, hkey, rfl, e, he, hle⟩⟩

theorem along_renewDelegation {it : DelegationRow} (hit : it ∈ entries)
    (hr : Round lib cfg first entries m s) :
    Along lib cfg first (fun s m => Round lib cfg first entries m s) s
      (renewDelegation cfg it m) := by
  unfold renewDelegation
  refine hr.ask fun s o now hr _ => ?_
  dsimp only
  split
  · exact (hr.erase _).handOn
  · refine hr.ask fun s o found hr _ => ?_
    cases hsbp : withProxyfile (renewalWorld lib cfg o s
        (.getExactBetterProxyByDN it.userdn it.myproxyurl) found).1 with
    | none => exact (hr.erase _).handOn
    | some sbp =>
        obtain ⟨hpath, -⟩ := looked_up hr.inv.1 (hr.entries it hit).server hsbp
        dsimp only
        rw [hpath]
        refine along_bind (along_fetchProxy hit hr) fun s _ hr => ?_
        refine hr.ask fun s o found hr _ => ?_
        have hr' : Round lib cfg first entries
            (eraseID (OrderedMap.set m it.delegationid (it.exptime, it.duration))
              it.delegationid) s := ⟨hr.inv, hr.entries, hr.noted.erase_set _ _⟩
        cases hbetter : withProxyfile (renewalWorld lib cfg o s
            (.getExactBetterProxyByDN it.userdn it.myproxyurl) found).1 with
        | none =>
            refine hr'.ask fun s o _ hr' _ => ?_
            exact (hr'.removeDelegation _).handOn
        | some better =>
            obtain ⟨-, hready⟩ := looked_up hr.inv.1 (hr.entries it hit).server hbetter
            exact along_renewWith hit hr' hready

/-- The loop, by induction on the entries that are left. -/
theorem along_renewEach {left : List DelegationRow} (hleft : ∀ it ∈ left, it ∈ entries)
    (hr : Round lib cfg first entries m s) :
    Along lib cfg first (fun s m => Round lib cfg first entries m s) s
      (renewEach cfg left m) := by
  induction left generalizing m s with
  | nil => exact hr.handOn
  | cons it left ih =>
      unfold renewEach
      refine along_bind (along_renewDelegation (hleft it List.mem_cons_self) hr)
        fun s m hr => ?_
      exact ih (fun it hit => hleft it (List.mem_cons_of_mem _ hit)) hr

/-! ## The end of a round -/

/-- Times that are still to be written. -/
def Due (times : List (Text × ℤ × ℤ)) (s : Shared) : Prop :=
  ∀ e ∈ times, e.1 ∈ s.renewed ∧ (Gone s e.1 ∨ Covered s e.1 e.2.1)

theorem stable_due {times : List (Text × ℤ × ℤ)} :
    Stable (After lib cfg) fun s => Inv lib cfg first s ∧ Due times s := by
  intro s t h hs
  have hmild := h.1.mild
  refine ⟨⟨h.2, hs.1.2.mild hmild⟩, fun e he => ?_⟩
  obtain ⟨hrenewed, hcov⟩ := hs.2 e he
  exact ⟨hmild.renewed ▸ hrenewed, settled_mild hmild hcov⟩

/-- A row with the times that are written. -/
def retimed (id : Text) (exptime duration : ℤ) (r : DelegationRow) : DelegationRow :=
  if r.delegationid = id then { r with exptime := exptime, duration := duration } else r

theorem retimed_fields (id : Text) (exptime duration : ℤ) (r : DelegationRow) :
    (retimed id exptime duration r).delegationid = r.delegationid ∧
      (retimed id exptime duration r).renewable = r.renewable ∧
      (retimed id exptime duration r).myproxyurl = r.myproxyurl := by
  unfold retimed
  split <;> exact ⟨rfl, rfl, rfl⟩

theorem retimed_of_ne {id : Text} {exptime duration : ℤ} {r : DelegationRow}
    (h : r.delegationid ≠ id) : retimed id exptime duration r = r := if_neg h

theorem mem_updateDelegation {db : Db} {id : Text} {exptime duration : ℤ}
    {r : DelegationRow}
    (hr : r ∈ (updateDelegation db id exptime duration).delegations.rows) :
    ∃ r' ∈ db.delegations.rows, r = retimed id exptime duration r' := by
  unfold updateDelegation at hr
  split at hr
  · obtain ⟨r', hold, rfl⟩ := List.mem_map.mp hr
    refine ⟨r', hold, ?_⟩
    unfold retimed
    simp only [decide_eq_true_eq]
  · next hnone =>
      refine ⟨r, hr, (retimed_of_ne fun hid => hnone ?_).symm⟩
      exact List.any_eq_true.mpr ⟨r, hr, decide_eq_true hid⟩

theorem consistent_updateDelegation (hc : Consistent lib cfg s) {id : Text}
    {exptime : ℤ} (duration : ℤ) (hcov : Gone s id ∨ Covered s id exptime) :
    Consistent lib cfg { s with db := updateDelegation s.db id exptime duration } := by
  have hrest : (updateDelegation s.db id exptime duration).proxies = s.db.proxies := by
    unfold updateDelegation
    split <;> rfl
  refine ⟨?_, ?_, ?_, hrest ▸ hc.path, hrest ▸ hc.stored, hrest ▸ hc.apart⟩
  · intro r hr
    obtain ⟨r', hold, rfl⟩ := mem_updateDelegation hr
    rw [(retimed_fields id exptime duration r').1]
    by_cases hid : r'.delegationid = id
    · rcases hcov with hgone | ⟨e, he, hle⟩
      · exact absurd hid (hgone.2 r' hold)
      · refine ⟨e, hid ▸ he, ?_⟩
        unfold retimed
        rw [if_pos hid]
        exact hle
    · rw [retimed_of_ne hid]
      exact hc.recorded r' hold
  · intro r hr r₂ hr₂ heq
    obtain ⟨r', hold, rfl⟩ := mem_updateDelegation hr
    obtain ⟨r₂', hold₂, rfl⟩ := mem_updateDelegation hr₂
    rw [(retimed_fields id exptime duration r').1,
      (retimed_fields id exptime duration r₂').1] at heq
    rw [hc.unique r' hold r₂' hold₂ heq]
  · intro r hr hrenewable
    obtain ⟨r', hold, rfl⟩ := mem_updateDelegation hr
    obtain ⟨-, hsame, hmyproxy⟩ := retimed_fields id exptime duration r'
    exact hmyproxy ▸ hc.server r' hold (hsame ▸ hrenewable)

/-- The row that is written is of a delegation that CREAM has renewed. -/
theorem kept_updateDelegation (hk : Kept first s) {id : Text} (exptime duration : ℤ)
    (hrenewed : id ∈ s.renewed) :
    Kept first { s with db := updateDelegation s.db id exptime duration } := by
  intro id' exptime' hfirst
  obtain ⟨hknown, hsame⟩ := hk id' exptime' hfirst
  refine ⟨hknown, fun hnot r hr hrid => ?_⟩
  obtain ⟨r', hold, rfl⟩ := mem_updateDelegation hr
  rw [(retimed_fields id exptime duration r').1] at hrid
  have hne : r'.delegationid ≠ id := fun hid => hnot (hrid.symm.trans hid ▸ hrenewed)
  rw [retimed_of_ne hne]
  exact hsame hnot r' hold hrid

theorem due_updateDelegation {times : List (Text × ℤ × ℤ)} (h : Due times s) (id : Text)
    (exptime duration : ℤ) :
    Due times { s with db := updateDelegation s.db id exptime duration } := by
  intro e he
  obtain ⟨hrenewed, hcov⟩ := h e he
  refine ⟨hrenewed, hcov.imp_left fun hgone => ⟨hgone.1, fun r hr => ?_⟩⟩
  obtain ⟨r', hold, rfl⟩ := mem_updateDelegation hr
  rw [(retimed_fields id exptime duration r').1]
  exact hgone.2 r' hold

theorem along_updateEach {times : List (Text × ℤ × ℤ)} (hs : Inv lib cfg first s)
    (hdue : Due times s) :
    Along lib cfg first (fun s _ => Inv lib cfg first s) s (updateEach times) := by
  induction times generalizing s with
  | nil => exact along_ret stable_due (fun _ h => h.1) ⟨hs, hdue⟩ fun _ h => h.1
  | cons e times ih =>
      obtain ⟨id, exptime, duration⟩ := e
      unfold updateEach
      refine along_ask stable_due (fun _ h => h.1) ⟨hs, hdue⟩ fun s o _ hs _ => ?_
      obtain ⟨hrenewed, hcov⟩ := hs.2 _ List.mem_cons_self
      refine ih ⟨consistent_updateDelegation hs.1.1 duration hcov,
        kept_updateDelegation hs.1.2 exptime duration hrenewed⟩ ?_
      exact due_updateDelegation (fun e he => hs.2 e (List.mem_cons_of_mem _ he)) id
        exptime duration

/-- An entry is the row it was read from, at first. -/
theorem entry_of_mem (hc : Consistent lib cfg s) {it : DelegationRow}
    (hit : it ∈ s.db.delegations.rows.filter (·.renewable)) : Entry it s := by
  obtain ⟨hin, hrenewable⟩ := List.mem_filter.mp hit
  obtain ⟨e, he, -⟩ := hc.recorded it hin
  refine ⟨hc.server it hin hrenewable, he ▸ Option.some_ne_none e, fun r hr hrid => ?_⟩
  rw [hc.unique r hr it hin hrid]
  exact ⟨rfl, rfl, rfl⟩

theorem stable_inv : Stable (After lib cfg) (Inv lib cfg first) :=
  fun _ _ h hs => ⟨h.2, hs.2.mild h.1.mild⟩

theorem along_renewAllDelegations (hs : Inv lib cfg first s) :
    Along lib cfg first (fun s _ => Inv lib cfg first s) s (renewAllDelegations cfg) := by
  unfold renewAllDelegations
  refine along_ask stable_inv (fun _ h => h) hs fun s o _ hs _ => ?_
  have hround : Round lib cfg first (s.db.delegations.rows.filter (·.renewable))
      OrderedMap.empty s :=
    ⟨hs, fun _ hit => entry_of_mem hs.1 hit, fun _ _ hin =>
      absurd hin OrderedMap.not_mem_empty⟩
  refine along_bind (along_renewEach (fun _ h => h) hround) fun s m hr => ?_
  exact along_updateEach hr.inv fun e he => hr.noted e.1 e.2 he

/-! ## Runs -/

/-- The renewal begins again, wherever its round has ended. -/
theorem along_next {s s' : State} {l : Label} (hl : careful lib cfg s l)
    (hs : Along lib cfg first (fun s _ => Inv lib cfg first s) s.shared s.rest)
    (h : next lib cfg s l = some s') :
    Along lib cfg first (fun s _ => Inv lib cfg first s) s'.shared s'.rest := by
  cases l with
  | other m o =>
      obtain ⟨t, ht, rfl⟩ := Option.map_eq_some_iff.mp h
      exact hs.disturbed (after_of_run hs.inv.1 hl.1 hl.2 ht)
  | touch path v =>
      obtain rfl := Option.some.inj h
      exact hs.disturbed (touch_after hs.inv.1 hl v)
  | renewal o r =>
      obtain ⟨shared, rest⟩ := s
      cases rest with
      | ret a =>
          obtain rfl := Option.some.inj h
          exact along_renewAllDelegations hs.post
      | throw e => cases h
      | call c k =>
          obtain rfl := Option.some.inj h
          exact hs.answered ⟨o, r c, hl, rfl⟩

/-- The state between two rounds. -/
def atRest (s : Shared) : State := ⟨s, ret ()⟩

theorem along_run {s : Shared} {s' : State} {ls : List Label}
    (hs : Inv lib cfg first s) (hls : Meets (next lib cfg) (careful lib cfg) (atRest s) ls)
    (h : run (next lib cfg) (atRest s) ls = some s') :
    Along lib cfg first (fun s _ => Inv lib cfg first s) s'.shared s'.rest :=
  @run_invariant _ _ (next lib cfg) (fun s =>
    Along lib cfg first (fun s _ => Inv lib cfg first s) s.shared s.rest) _
    (fun _ _ _ hs hl hn => along_next hl hs hn) _ _ _
    (along_ret stable_inv (fun _ h => h) hs fun _ h => h) hls h

/-- Whatever the others do between two calls of the renewal, as long as no proxy is
replaced by a shorter one. -/
theorem recorded_within_held {s : Shared} {s' : State} {ls : List Label}
    (hs : Consistent lib cfg s)
    (hls : Meets (next lib cfg) (careful lib cfg) (atRest s) ls)
    (h : run (next lib cfg) (atRest s) ls = some s') : Recorded s'.shared := by
  have hinv : Inv lib cfg (fun _ => none) s :=
    ⟨hs, fun _ _ hfirst => absurd hfirst.symm (Option.some_ne_none _)⟩
  exact (along_run hinv hls h).inv.1.recorded

/-! ## A round with two delegations

One lasts for less than the proxy of the pair, and the other for longer than the
threshold. Meanwhile another thread is through with a job. -/

def sampleRow (id : Text) (exptime : ℤ) : DelegationRow where
  digest := id
  creamurl := []
  exptime := exptime
  duration := exptime
  delegationid := id
  userdn := ['d']
  renewable := true
  myproxyurl := ['m']

def samplePath : Text := "/d_m.betterproxy".toList

def sampleProxy : ProxyRow := ⟨['d'], ['m'], samplePath, 50, 1⟩

def sampleShared : Shared where
  db := { proxies := ⟨[sampleProxy], List.nodup_singleton _⟩
          delegations := ⟨[sampleRow ['a'] 40, sampleRow ['b'] 9000], by decide⟩ }
  files := fun path => if path = samplePath then some 60 else none
  cream := fun id =>
    if id = ['a'] then some 45 else if id = ['b'] then some 9000 else none
  renewed := []

/-- The server has no proxy; the one that is there can be read. -/
def sampleAnswer : (c : RenewalCall) → RenewalAnswer c
  | .time => 0
  | .getDelegationEntries => []
  | .getExactBetterProxyByDN _ _ => none
  | .proxyRenew _ _ _ => ⟨false, none⟩
  | .vomsTimeEnd _ => none
  | .updateBetterProxy _ _ _ _ => false
  | .unlink _ => ()
  | .isGoodProxy _ => some 0
  | .removeDelegation _ => ()
  | .removeBetterProxy _ _ => ()
  | .abortJobs _ _ => ()
  | .creamProxyRenew _ _ _ => .done
  | .updateDelegation _ _ _ => ()

def sampleCall : Label := .renewal (fun _ => Registration.forgetful) sampleAnswer

def sampleSection : Label :=
  .other (.decrementUserProxyCounter ['e'] ['m']) fun _ => Registration.forgetful

def sampleRound : List Label :=
  List.replicate 5 sampleCall ++ sampleSection :: List.replicate 7 sampleCall

/-- Whether the renewal is about to store or remove the proxy of a pair. -/
def changesPair (s : State) : Bool :=
  match s.rest with
  | .call (.updateBetterProxy _ _ _ _) _ => true
  | .call (.removeBetterProxy _ _) _ => true
  | _ => false

theorem careful_sampleCall {s : State} (h : changesPair s = false) :
    careful lib cfg s sampleCall := by
  obtain ⟨shared, rest⟩ := s
  cases rest with
  | ret a => trivial
  | throw e => trivial
  | call c k =>
      cases c with
      | updateBetterProxy dn myproxy proxyfile exptime =>
          exact Bool.noConfusion h
      | removeBetterProxy dn myproxy =>
          exact Bool.noConfusion h
      | _ => trivial

theorem careful_sampleSection {s : State} (h : s.shared.cream ['i'] = none) :
    careful lib cfg s sampleSection :=
  ⟨List.cons_ne_nil _ _, fun _ => h⟩

theorem consistent_sample :
    Consistent Registration.bareLibraries Registration.bareConfig sampleShared where
  recorded := by
    intro r hr
    rcases List.mem_pair.mp hr with rfl | rfl
    · exact ⟨45, by decide, by decide⟩
    · exact ⟨9000, by decide, by decide⟩
  unique := by decide
  server := by decide
  path := by decide
  stored := by
    intro row hrow _
    obtain rfl := List.mem_singleton.mp hrow
    exact ⟨60, by decide, by decide⟩
  apart := by
    intro row hrow row' hrow' _ _ _
    rw [List.mem_singleton.mp hrow, List.mem_singleton.mp hrow']

theorem meets_sampleRound :
    Meets (next Registration.bareLibraries Registration.bareConfig)
      (careful Registration.bareLibraries Registration.bareConfig)
      (atRest sampleShared) sampleRound := by
  have hok : ((steps (next Registration.bareLibraries Registration.bareConfig)
      (atRest sampleShared) sampleRound).all fun p =>
        !changesPair p.1 && decide (p.1.shared.cream ['i'] = none)) = true := by
    decide +kernel
  intro p hp
  have hstep := List.all_eq_true.mp hok p hp
  rw [Bool.and_eq_true, Bool.not_eq_true', decide_eq_true_eq] at hstep
  rcases List.mem_append.mp (label_mem_of_steps hp) with hbefore | hafter
  · exact List.eq_of_mem_replicate hbefore ▸ careful_sampleCall hstep.1
  · rcases List.mem_cons.mp hafter with hother | hcall
    · exact hother ▸ careful_sampleSection hstep.2
    · exact List.eq_of_mem_replicate hcall ▸ careful_sampleCall hstep.1

theorem recorded_within_held_round :
    ∃ s', run (next Registration.bareLibraries Registration.bareConfig)
        (atRest sampleShared) sampleRound = some s' ∧
      s'.shared.db.delegations.rows.map (·.exptime) = [50, 9000] ∧
      Recorded s'.shared := by
  have hend : (run (next Registration.bareLibraries Registration.bareConfig)
      (atRest sampleShared) sampleRound).map
        (fun s => s.shared.db.delegations.rows.map (·.exptime)) = some [50, 9000] := by
    decide +kernel
  obtain ⟨s', hrun, htimes⟩ := Option.map_eq_some_iff.mp hend
  exact ⟨s', hrun, htimes,
    recorded_within_held consistent_sample meets_sampleRound hrun⟩

/-- A row that CREAM has not renewed keeps the time it had. -/
theorem unrenewed_keeps_time {s : Shared} {s' : State} {ls : List Label}
    (hs : Consistent lib cfg s)
    (hls : Meets (next lib cfg) (careful lib cfg) (atRest s) ls)
    (h : run (next lib cfg) (atRest s) ls = some s') {r r' : DelegationRow}
    (hr : r ∈ s.db.delegations.rows) (hr' : r' ∈ s'.shared.db.delegations.rows)
    (hid : r'.delegationid = r.delegationid)
    (hnot : r.delegationid ∉ s'.shared.renewed) : r'.exptime = r.exptime := by
  have hinv : Inv lib cfg (fun id => if id = r.delegationid then some r.exptime else none)
      s := by
    refine ⟨hs, fun id exptime hfirst => ?_⟩
    obtain ⟨rfl, heq⟩ := Option.ite_none_right_eq_some.mp hfirst
    obtain ⟨e, he, -⟩ := hs.recorded r hr
    refine ⟨he ▸ Option.some_ne_none e, fun _ r₂ hr₂ hid₂ => ?_⟩
    rw [hs.unique r₂ hr₂ r hr hid₂]
    exact Option.some.inj heq
  obtain ⟨-, hkept⟩ := (along_run hinv hls h).inv
  exact (hkept r.delegationid r.exptime (if_pos rfl)).2 hnot r' hr' hid

theorem unrenewed_keeps_time_round :
    ∃ s' r', run (next Registration.bareLibraries Registration.bareConfig)
        (atRest sampleShared) sampleRound = some s' ∧
      r' ∈ s'.shared.db.delegations.rows ∧ r'.delegationid = ['b'] ∧
      r'.exptime = 9000 := by
  have hend : (run (next Registration.bareLibraries Registration.bareConfig)
      (atRest sampleShared) sampleRound).map
        (fun s => (s.shared.db.delegations.rows, s.shared.renewed)) =
      some ([{ sampleRow ['a'] 50 with duration := 50 }, sampleRow ['b'] 9000],
        [['a']]) := by
    decide +kernel
  obtain ⟨s', hrun, hs⟩ := Option.map_eq_some_iff.mp hend
  obtain ⟨hrows, hrenewed⟩ := Prod.mk.inj hs
  have hin : sampleRow ['b'] 9000 ∈ s'.shared.db.delegations.rows := by
    rw [hrows]
    exact List.mem_cons_of_mem _ List.mem_cons_self
  have hnot : ['b'] ∉ s'.shared.renewed := by
    rw [hrenewed]
    decide
  exact ⟨s', _, hrun, hin, rfl, unrenewed_keeps_time consistent_sample meets_sampleRound
    hrun (List.mem_cons_of_mem _ List.mem_cons_self) hin rfl hnot⟩

end Wms.Ice.Renewal
