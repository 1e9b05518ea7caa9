import Wms.Ice.Renewal

/-!
# What other threads do with proxies and delegations

All of it is summed up once: the proxies that CREAM holds do not get shorter, no
row comes under an identifier that is known, and a pair either keeps a proxy that
is no shorter or loses its delegations. Every section does no more than that, and
keeps the tables consistent.
-/

namespace Wms.Ice.Renewal

open Wms.Lib Proc

variable {lib : Libraries} {cfg : Config} {s t : Shared}

/-! ## Names of files -/

private theorem reverse_getElem? (a b : Text) {i : ℕ} (h : i < b.length) :
    (a ++ b).reverse[i]? = b.reverse[i]? := by
  rw [List.reverse_append, List.getElem?_append_left (by simpa using h)]

private theorem ne_of_ends {a a' b b' : Text} {i : ℕ} (hb : i < b.length)
    (hb' : i < b'.length) (h : b.reverse[i]? ≠ b'.reverse[i]?) : a ++ b ≠ a' ++ b' := by
  intro heq
  apply h
  rw [← reverse_getElem? a b hb, ← reverse_getElem? a' b' hb', heq]

private theorem legacyProxyPath_eq (dn : Text) :
    legacyProxyPath lib cfg dn =
      (cfg.persistDir ++ '/' :: lib.compressedString dn) ++ ".proxy".toList := by
  simp [legacyProxyPath]

private theorem makeBetterproxyPath_eq (dn myproxy : Text) :
    makeBetterproxyPath lib cfg dn myproxy =
      (cfg.persistDir ++ '/' :: lib.compressedString (dn ++ '_' :: myproxy)) ++
        ".betterproxy".toList := by
  simp [makeBetterproxyPath]

theorem legacyProxyPath_ne (dn dn' myproxy : Text) :
    legacyProxyPath lib cfg dn ≠ makeBetterproxyPath lib cfg dn' myproxy := by
  rw [legacyProxyPath_eq, makeBetterproxyPath_eq]
  exact @ne_of_ends _ _ _ _ 5 (by decide) (by decide) (by decide)

theorem renewedPath_ne (path dn myproxy : Text) :
    renewedPath path ≠ makeBetterproxyPath lib cfg dn myproxy := by
  rw [makeBetterproxyPath_eq]
  exact @ne_of_ends _ _ _ _ 0 (by decide) (by decide) (by decide)

theorem renewedPath_ne_legacy (path dn : Text) :
    renewedPath path ≠ legacyProxyPath lib cfg dn := by
  rw [legacyProxyPath_eq]
  exact @ne_of_ends _ _ _ _ 0 (by decide) (by decide) (by decide)

@[simp] theorem setFile_self (s : Shared) (path : Text) (v : Option ℤ) :
    (s.setFile path v).files path = v := Function.update_self ..

theorem setFile_of_ne {path path' : Text} (h : path' ≠ path) (s : Shared)
    (v : Option ℤ) : (s.setFile path v).files path' = s.files path' :=
  Function.update_of_ne h ..

/-! ## What the others do -/

variable (lib cfg) in
/-- All that a step of the others can do. -/
structure Others (s t : Shared) : Prop where
  cream : ∀ id e, s.cream id = some e → ∃ e', t.cream id = some e' ∧ e ≤ e'
  rows : ∀ r ∈ t.db.delegations.rows,
    r ∈ s.db.delegations.rows ∨ s.cream r.delegationid = none
  pairs : ∀ row ∈ s.db.proxies.rows, row.myproxyurl ≠ [] →
    (∃ row' ∈ t.db.proxies.rows, row'.key = row.key ∧
      row'.proxyfile = row.proxyfile ∧ ∀ e, s.files row.proxyfile = some e →
        ∃ e', t.files row.proxyfile = some e' ∧ e ≤ e') ∨
    ∀ r ∈ t.db.delegations.rows, r.userdn = row.userdn →
      r.myproxyurl = row.myproxyurl → s.cream r.delegationid = none
  fetched : ∀ dn myproxy, t.files (renewedPath (makeBetterproxyPath lib cfg dn myproxy)) =
    s.files (renewedPath (makeBetterproxyPath lib cfg dn myproxy))
  renewed : t.renewed = s.renewed

variable (lib cfg) in
/-- A step of the others from tables that are consistent to such tables. -/
def After (s t : Shared) : Prop := Others lib cfg s t ∧ Consistent lib cfg t

/-- A pair whose row and file are as they were. -/
theorem pair_kept {row : ProxyRow} (hrow : row ∈ t.db.proxies.rows)
    (hfile : t.files row.proxyfile = s.files row.proxyfile) :
    ∃ row' ∈ t.db.proxies.rows, row'.key = row.key ∧
      row'.proxyfile = row.proxyfile ∧ ∀ e, s.files row.proxyfile = some e →
        ∃ e', t.files row.proxyfile = some e' ∧ e ≤ e' :=
  ⟨row, hrow, rfl, rfl, fun e he => ⟨e, hfile.trans he, le_rfl⟩⟩

/-- Where rows have only been removed. -/
theorem Consistent.fewer (hc : Consistent lib cfg s) {db : Db}
    (hrows : ∀ r ∈ db.delegations.rows, r ∈ s.db.delegations.rows)
    (hproxies : ∀ row ∈ db.proxies.rows, row ∈ s.db.proxies.rows) :
    Consistent lib cfg { s with db := db } where
  recorded := fun r hr => hc.recorded r (hrows r hr)
  unique := fun r hr r' hr' => hc.unique r (hrows r hr) r' (hrows r' hr')
  server := fun r hr => hc.server r (hrows r hr)
  path := fun row hrow => hc.path row (hproxies row hrow)
  stored := fun row hrow => hc.stored row (hproxies row hrow)
  apart := fun row hrow row' hrow' =>
    hc.apart row (hproxies row hrow) row' (hproxies row' hrow')

theorem Others.refl (s : Shared) : Others lib cfg s s where
  cream := fun _ e h => ⟨e, h, le_rfl⟩
  rows := fun _ hr => .inl hr
  pairs := fun _ hrow _ => .inl (pair_kept hrow rfl)
  fetched := fun _ _ => rfl
  renewed := rfl

theorem Others.new (h : Others lib cfg s t) {id : Text}
    (hid : t.cream id = none) : s.cream id = none := by
  cases he : s.cream id with
  | none => rfl
  | some e =>
      obtain ⟨e', he', -⟩ := h.cream id e he
      exact absurd (hid.symm.trans he') (Option.some_ne_none e').symm

theorem Others.trans {u : Shared} (h : Others lib cfg s t) (h' : Others lib cfg t u) :
    Others lib cfg s u where
  cream := by
    intro id e he
    obtain ⟨e', he', hle⟩ := h.cream id e he
    obtain ⟨e'', he'', hle'⟩ := h'.cream id e' he'
    exact ⟨e'', he'', hle.trans hle'⟩
  rows := by
    intro r hr
    rcases h'.rows r hr with hr | hnew
    · exact h.rows r hr
    · exact .inr (h.new hnew)
  pairs := by
    intro row hrow hserver
    rcases h.pairs row hrow hserver with ⟨row', hrow', hkey, hfile, hends⟩ | hgone
    · have hmyproxy : row'.myproxyurl = row.myproxyurl := congrArg Prod.snd hkey
      have hdn : row'.userdn = row.userdn := congrArg Prod.fst hkey
      rcases h'.pairs row' hrow' (hmyproxy ▸ hserver) with
        ⟨row'', hrow'', hkey', hfile', hends'⟩ | hgone
      · refine .inl ⟨row'', hrow'', hkey'.trans hkey, hfile'.trans hfile, fun e he => ?_⟩
        obtain ⟨e', he', hle⟩ := hends e he
        obtain ⟨e'', he'', hle'⟩ := hends' e' (hfile ▸ he')
        exact ⟨e'', hfile ▸ he'', hle.trans hle'⟩
      · exact .inr fun r hr hdn' hmyproxy' =>
          h.new (hgone r hr (hdn'.trans hdn.symm) (hmyproxy'.trans hmyproxy.symm))
    · refine .inr fun r hr hdn hmyproxy => ?_
      rcases h'.rows r hr with hr | hnew
      · exact hgone r hr hdn hmyproxy
      · exact h.new hnew
  fetched := fun dn myproxy => (h'.fetched dn myproxy).trans (h.fetched dn myproxy)
  renewed := h'.renewed.trans h.renewed

theorem After.refl (hc : Consistent lib cfg s) : After lib cfg s s := ⟨.refl s, hc⟩

theorem After.trans {u : Shared} (h : After lib cfg s t) (h' : After lib cfg t u) :
    After lib cfg s u := ⟨h.1.trans h'.1, h'.2⟩

variable (lib cfg) in
/-- A proxy has been stored for a pair, in a row that is new or was there. -/
structure Stored (dn myproxy source : Text) (exptime : ℤ) (s t : Shared) : Prop where
  files : ∃ e, s.files source = some e ∧
    t.files = (s.setFile (makeBetterproxyPath lib cfg dn myproxy) (some e)).files
  delegations : t.db.delegations = s.db.delegations
  cream : t.cream = s.cream
  renewed : t.renewed = s.renewed
  mem : ∀ row ∈ t.db.proxies.rows,
    row ∈ s.db.proxies.rows ∧ row.key ≠ (dn, myproxy) ∨ row.key = (dn, myproxy) ∧
      row.proxyfile = makeBetterproxyPath lib cfg dn myproxy ∧ row.exptime = exptime
  kept : ∀ row ∈ s.db.proxies.rows, row.key ≠ (dn, myproxy) → row ∈ t.db.proxies.rows
  replaced : ∀ row ∈ s.db.proxies.rows, row.key = (dn, myproxy) →
    ∃ row' ∈ t.db.proxies.rows, row'.key = (dn, myproxy)

theorem path_of_key (hc : Consistent lib cfg s) {row : ProxyRow}
    (hrow : row ∈ s.db.proxies.rows) {dn myproxy : Text} (hserver : myproxy ≠ [])
    (hkey : row.key = (dn, myproxy)) :
    row.proxyfile = makeBetterproxyPath lib cfg dn myproxy := by
  obtain ⟨hdn, hmyproxy⟩ := Prod.mk.inj hkey
  have hpath := hc.path row hrow (hmyproxy ▸ hserver)
  rw [hpath, hdn, hmyproxy]

/-- The file of a pair that has a row is of no other pair. -/
theorem key_of_path (hc : Consistent lib cfg s) {row row' : ProxyRow}
    (hrow : row ∈ s.db.proxies.rows) (hserver : row.myproxyurl ≠ []) {dn myproxy : Text}
    (hserver' : myproxy ≠ []) (hrow' : row' ∈ s.db.proxies.rows)
    (hkey : row'.key = (dn, myproxy))
    (hpath : row.proxyfile = makeBetterproxyPath lib cfg dn myproxy) :
    row.key = (dn, myproxy) := by
  have hmyproxy : row'.myproxyurl = myproxy := congrArg Prod.snd hkey
  have heq := hpath.trans (path_of_key hc hrow' hserver' hkey).symm
  exact (hc.apart row hrow row' hrow' hserver (hmyproxy ▸ hserver') heq).trans hkey

theorem Stored.others {dn myproxy source : Text} {exptime : ℤ}
    (h : Stored lib cfg dn myproxy source exptime s t) (hc : Consistent lib cfg s)
    (hs : Storable lib cfg s dn myproxy source exptime) : Others lib cfg s t where
  cream := fun id e he => ⟨e, by rw [h.cream, he], le_rfl⟩
  rows := fun r hr => .inl (h.delegations ▸ hr)
  pairs := by
    intro row hrow hserver
    obtain ⟨e, he, hfiles⟩ := h.files
    refine .inl ?_
    by_cases hkey : row.key = (dn, myproxy)
    · obtain ⟨row', hrow', hkey'⟩ := h.replaced row hrow hkey
      have hfile : row'.proxyfile = makeBetterproxyPath lib cfg dn myproxy := by
        rcases h.mem row' hrow' with ⟨-, hne⟩ | ⟨-, hfile, -⟩
        · exact absurd hkey' hne
        · exact hfile
      have hpath := path_of_key hc hrow hs.server hkey
      refine ⟨row', hrow', hkey'.trans hkey.symm, hfile.trans hpath.symm, ?_⟩
      intro e₀ he₀
      refine ⟨e, ?_, hs.notShorter row (Table.find?_eq_some_iff.mpr ⟨hrow, hkey⟩) e₀ he₀ e he⟩
      rw [hfiles, hpath, setFile_self]
    · refine pair_kept (h.kept row hrow hkey) ?_
      rw [hfiles, setFile_of_ne fun hpath => hkey (hs.notShared row hrow hpath)]
  fetched := by
    intro dn' myproxy'
    obtain ⟨e, -, hfiles⟩ := h.files
    rw [hfiles, setFile_of_ne (renewedPath_ne _ _ _)]
  renewed := h.renewed

theorem Stored.consistent {dn myproxy source : Text} {exptime : ℤ}
    (h : Stored lib cfg dn myproxy source exptime s t) (hc : Consistent lib cfg s)
    (hs : Storable lib cfg s dn myproxy source exptime) : Consistent lib cfg t where
  recorded := by
    intro r hr
    rw [h.cream]
    exact hc.recorded r (h.delegations ▸ hr)
  unique := by
    rw [h.delegations]
    exact hc.unique
  server := fun r hr => hc.server r (h.delegations ▸ hr)
  path := by
    intro row hrow hserver
    rcases h.mem row hrow with ⟨hold, -⟩ | ⟨hkey, hfile, -⟩
    · exact hc.path row hold hserver
    · obtain ⟨hdn, hmyproxy⟩ := Prod.mk.inj hkey
      rw [hfile, hdn, hmyproxy]
  stored := by
    intro row hrow hserver
    obtain ⟨e, he, hfiles⟩ := h.files
    rw [hfiles]
    rcases h.mem row hrow with ⟨hold, hne⟩ | ⟨-, hfile, hexptime⟩
    · rw [setFile_of_ne fun hpath => hne (hs.notShared row hold hpath)]
      exact hc.stored row hold hserver
    · rw [hfile, setFile_self, hexptime]
      exact ⟨e, rfl, hs.lasts e he⟩
  apart := by
    intro row hrow row' hrow' hserver hserver' heq
    rcases h.mem row hrow with ⟨hold, hne⟩ | ⟨hkey, hfile, -⟩ <;>
      rcases h.mem row' hrow' with ⟨hold', hne'⟩ | ⟨hkey', hfile', -⟩
    · exact hc.apart row hold row' hold' hserver hserver' heq
    · exact absurd (hs.notShared row hold (heq.trans hfile')) hne
    · exact absurd (hs.notShared row' hold' (heq.symm.trans hfile)) hne'
    · exact hkey.trans hkey'.symm

/-! ### The sections -/

/-- An identifier that is generated was new at the start. -/
def offered (s₀ : Shared) : (c : Call) → Answer c → Prop
  | .generateDelegationID, id => s₀.cream id = none
  | _, _ => True

def contract (s₀ : Shared) : Contract Shared Call Answer where
  world := world
  assume := fun _ c r => offered s₀ c r
  guard := fun _ _ _ => True

variable (lib cfg) in
/-- A section can do no more than a step of the others. -/
def Leaves (s₀ s : Shared) {α : Type} (p : IceProc α) : Prop :=
  wp (contract s₀) (fun t _ => After lib cfg s t) (fun t _ => After lib cfg s t) s p

theorem putProxy_stored {dn myproxy source : Text} {exptime counter e : ℤ}
    (he : s.files source = some e) :
    Stored lib cfg dn myproxy source exptime s
      { s.setFile (makeBetterproxyPath lib cfg dn myproxy) (some e) with
        db := s.db.putProxy
          { userdn := dn, myproxyurl := myproxy
            proxyfile := makeBetterproxyPath lib cfg dn myproxy
            exptime := exptime, counter := counter } } where
  files := ⟨e, he, rfl⟩
  delegations := rfl
  cream := rfl
  renewed := rfl
  mem := by
    intro row hrow
    rcases Table.mem_put.mp hrow with hold | rfl
    · exact .inl hold
    · exact .inr ⟨rfl, rfl, rfl⟩
  kept := fun row hrow hne => Table.mem_put.mpr (.inl ⟨hrow, hne⟩)
  replaced := fun _ _ _ => ⟨_, Table.mem_put.mpr (.inr rfl), rfl⟩

theorem mem_updateProxy {db : Db} {dn myproxy file : Text} {exptime : ℤ}
    {row : ProxyRow} :
    row ∈ (db.updateProxy dn myproxy file exptime).proxies.rows ↔
      row ∈ db.proxies.rows ∧ row.key ≠ (dn, myproxy) ∨
        ∃ row' ∈ db.proxies.rows, row'.key = (dn, myproxy) ∧
          { row' with proxyfile := file, exptime := exptime } = row :=
  @Table.mem_modify _ _ _ ProxyRow.key db.proxies (dn, myproxy)
    (fun r => { r with proxyfile := file, exptime := exptime }) (fun _ h => h) row

theorem updateProxy_stored {dn myproxy source : Text} {exptime e : ℤ}
    (he : s.files source = some e) :
    Stored lib cfg dn myproxy source exptime s
      { s.setFile (makeBetterproxyPath lib cfg dn myproxy) (some e) with
        db := s.db.updateProxy dn myproxy (makeBetterproxyPath lib cfg dn myproxy)
          exptime } where
  files := ⟨e, he, rfl⟩
  delegations := rfl
  cream := rfl
  renewed := rfl
  mem := by
    intro row hrow
    rcases mem_updateProxy.mp hrow with hold | ⟨row', -, hkey, rfl⟩
    · exact .inl hold
    · exact .inr ⟨hkey, rfl, rfl⟩
  kept := fun row hrow hne => mem_updateProxy.mpr (.inl ⟨hrow, hne⟩)
  replaced := fun row hrow hkey =>
    ⟨_, mem_updateProxy.mpr (.inr ⟨row, hrow, hkey, rfl⟩), hkey⟩

theorem wp_execDb {s₀ : Shared} {α : Type} {Q : Shared → α → Prop}
    {E : Shared → Exception → Prop} {op : DbOp} {f : op.Result → IceProc α}
    (h : wp (contract s₀) Q E { s with db := (s.db.run op).2 } (f (s.db.run op).1)) :
    wp (contract s₀) Q E s ((execDb op).bind f) := fun _ _ => ⟨trivial, h⟩

/-- What a copy leaves, and what its caller does next. -/
theorem wp_copyProxy {s₀ : Shared} {α : Type} {Q : Shared → α → Prop}
    {E : Shared → Exception → Prop} {source target : Text}
    {k : Bool → IceProc α}
    (hcopied : ∀ e, s.files source = some e →
      wp (contract s₀) Q E (s.setFile target (some e)) (k true))
    (hfails : wp (contract s₀) Q E s (k false)) :
    wp (contract s₀) Q E s (.call (.copyProxy source target) k) := by
  intro copied _
  refine ⟨trivial, ?_⟩
  show wp (contract s₀) Q E (world s (.copyProxy source target) copied).2
    (k (world s (.copyProxy source target) copied).1)
  cases copied with
  | false => exact hfails
  | true =>
      cases he : s.files source with
      | none => simpa [world, he] using hfails
      | some e => simpa [world, he] using hcopied e he

theorem leaves_setBetterProxy {s₀ : Shared} {dn source myproxy : Text}
    {exptime counter : ℤ} (hc : Consistent lib cfg s)
    (hs : Storable lib cfg s dn myproxy source exptime) :
    Leaves lib cfg s₀ s (setBetterProxy lib cfg dn source myproxy exptime counter) := by
  unfold setBetterProxy
  refine wp_copyProxy (fun e he => ?_) ⟨.refl s, hc⟩
  intro _ _
  have h := @putProxy_stored lib cfg s dn myproxy source exptime counter e he
  exact ⟨trivial, h.others hc hs, h.consistent hc hs⟩

theorem leaves_updateBetterProxy {s₀ : Shared} {dn source myproxy : Text}
    {exptime : ℤ} (hc : Consistent lib cfg s)
    (hs : Storable lib cfg s dn myproxy source exptime) :
    Leaves lib cfg s₀ s (updateBetterProxy lib cfg dn myproxy source exptime) := by
  unfold updateBetterProxy
  refine wp_copyProxy (fun e he => ?_) ⟨.refl s, hc⟩
  intro _ _
  have h := @updateProxy_stored lib cfg s dn myproxy source exptime e he
  exact ⟨trivial, h.others hc hs, h.consistent hc hs⟩

theorem mem_setCounter {db : Db} {dn myproxy : Text} {counter : ℤ} {row : ProxyRow} :
    row ∈ (db.setCounter dn myproxy counter).proxies.rows ↔
      row ∈ db.proxies.rows ∧ row.key ≠ (dn, myproxy) ∨
        ∃ row' ∈ db.proxies.rows, row'.key = (dn, myproxy) ∧
          { row' with counter := counter } = row :=
  @Table.mem_modify _ _ _ ProxyRow.key db.proxies (dn, myproxy)
    (fun r => { r with counter := counter }) (fun _ h => h) row

/-- Only the number of jobs of a pair has changed. -/
theorem setCounter_after (hc : Consistent lib cfg s) (dn myproxy : Text) (counter : ℤ) :
    After lib cfg s { s with db := s.db.setCounter dn myproxy counter } := by
  -- the row a row comes from differs from it in the counter alone
  have hfrom : ∀ row ∈ (s.db.setCounter dn myproxy counter).proxies.rows,
      ∃ row' ∈ s.db.proxies.rows, row'.userdn = row.userdn ∧
        row'.myproxyurl = row.myproxyurl ∧ row'.proxyfile = row.proxyfile ∧
        row'.exptime = row.exptime := by
    intro row hrow
    rcases mem_setCounter.mp hrow with ⟨hold, -⟩ | ⟨row', hold, -, rfl⟩
    · exact ⟨row, hold, rfl, rfl, rfl, rfl⟩
    · exact ⟨row', hold, rfl, rfl, rfl, rfl⟩
  refine ⟨⟨fun id e he => ⟨e, he, le_rfl⟩, fun r hr => .inl hr, ?_, fun _ _ => rfl, rfl⟩,
    ⟨hc.recorded, hc.unique, hc.server, ?_, ?_, ?_⟩⟩
  · intro row hrow _
    refine .inl ?_
    by_cases hkey : row.key = (dn, myproxy)
    · exact ⟨_, mem_setCounter.mpr (.inr ⟨row, hrow, hkey, rfl⟩), rfl, rfl,
        fun e he => ⟨e, he, le_rfl⟩⟩
    · exact pair_kept (mem_setCounter.mpr (.inl ⟨hrow, hkey⟩)) rfl
  · intro row hrow hserver
    obtain ⟨row', hold, hdn, hmyproxy, hfile, -⟩ := hfrom row hrow
    rw [← hfile, ← hdn, ← hmyproxy]
    exact hc.path row' hold (hmyproxy ▸ hserver)
  · intro row hrow hserver
    obtain ⟨row', hold, -, hmyproxy, hfile, hexptime⟩ := hfrom row hrow
    rw [← hfile, ← hexptime]
    exact hc.stored row' hold (hmyproxy ▸ hserver)
  · intro row hrow row₂ hrow₂ hserver hserver₂ heq
    obtain ⟨row', hold, hdn, hmyproxy, hfile, -⟩ := hfrom row hrow
    obtain ⟨row₂', hold₂, hdn₂, hmyproxy₂, hfile₂, -⟩ := hfrom row₂ hrow₂
    have hkey := hc.apart row' hold row₂' hold₂ (hmyproxy ▸ hserver)
      (hmyproxy₂ ▸ hserver₂) (hfile.trans (heq.trans hfile₂.symm))
    exact Prod.ext (hdn.symm.trans ((congrArg Prod.fst hkey).trans hdn₂))
      (hmyproxy.symm.trans ((congrArg Prod.snd hkey).trans hmyproxy₂))

theorem leaves_incrementUserProxyCounter {s₀ : Shared} {job : CreamJob}
    (hc : Consistent lib cfg s)
    (hs : s.db.proxy? job.userDn job.myproxyAddress = none →
      Storable lib cfg s job.userDn job.myproxyAddress job.userProxyfile
        job.isbproxyTimeEnd) :
    Leaves lib cfg s₀ s
      (incrementUserProxyCounter lib cfg job job.isbproxyTimeEnd) := by
  unfold incrementUserProxyCounter
  refine wp_execDb ?_
  simp only [Db.run]
  cases hrow : s.db.proxy? job.userDn job.myproxyAddress with
  | none => exact leaves_setBetterProxy hc (hs hrow)
  | some info => exact fun _ _ => ⟨trivial, setCounter_after hc _ _ _⟩

/-- A proxy outside the pairs has been stored. -/
theorem putProxy_after (hc : Consistent lib cfg s) (dn : Text) (exptime e : ℤ) :
    After lib cfg s
      { s.setFile (legacyProxyPath lib cfg dn) (some e) with
        db := s.db.putProxy
          { userdn := dn, myproxyurl := [], proxyfile := legacyProxyPath lib cfg dn
            exptime := exptime, counter := 0 } } := by
  have hold : ∀ row : ProxyRow, row.myproxyurl ≠ [] →
      (row ∈ (s.db.putProxy
        { userdn := dn, myproxyurl := [], proxyfile := legacyProxyPath lib cfg dn
          exptime := exptime, counter := 0 }).proxies.rows ↔ row ∈ s.db.proxies.rows) := by
    intro row hserver
    refine Table.mem_put.trans ⟨?_, fun hrow => .inl ⟨hrow, ?_⟩⟩
    · rintro (⟨hrow, -⟩ | rfl)
      · exact hrow
      · exact absurd rfl hserver
    · exact fun hkey => hserver (congrArg Prod.snd hkey)
  have hfile : ∀ row ∈ s.db.proxies.rows, row.myproxyurl ≠ [] →
      (s.setFile (legacyProxyPath lib cfg dn) (some e)).files row.proxyfile =
        s.files row.proxyfile := by
    intro row hrow hserver
    rw [hc.path row hrow hserver]
    exact setFile_of_ne (legacyProxyPath_ne dn _ _).symm s _
  refine ⟨⟨fun id e he => ⟨e, he, le_rfl⟩, fun r hr => .inl hr, ?_, ?_, rfl⟩,
    ⟨hc.recorded, hc.unique, hc.server, ?_, ?_, ?_⟩⟩
  · intro row hrow hserver
    exact .inl (pair_kept ((hold row hserver).mpr hrow) (hfile row hrow hserver))
  · exact fun dn' myproxy' => setFile_of_ne (renewedPath_ne_legacy _ dn) s _
  · intro row hrow hserver
    exact hc.path row ((hold row hserver).mp hrow) hserver
  · intro row hrow hserver
    have hrow := (hold row hserver).mp hrow
    obtain ⟨e₀, he₀, hle⟩ := hc.stored row hrow hserver
    exact ⟨e₀, (hfile row hrow hserver).trans he₀, hle⟩
  · intro row hrow row' hrow' hserver hserver' heq
    exact hc.apart row ((hold row hserver).mp hrow) row' ((hold row' hserver').mp hrow')
      hserver hserver' heq

theorem leaves_setUserProxyIfLongerLegacy {s₀ : Shared} (hc : Consistent lib cfg s)
    (dn prx : Text) (exptime : ℤ) :
    Leaves lib cfg s₀ s (setUserProxyIfLongerLegacy lib cfg dn prx exptime) := by
  unfold setUserProxyIfLongerLegacy
  refine wp_execDb ?_
  simp only [Db.run]
  have hstore : Leaves lib cfg s₀ s
      (.call (.copyProxy prx (legacyProxyPath lib cfg dn)) fun copied =>
        if copied then
          .call (.db (.createProxyField
            { userdn := dn, myproxyurl := [], proxyfile := legacyProxyPath lib cfg dn
              exptime := exptime, counter := 0 })) fun _ => .ret true
        else .ret false) :=
    wp_copyProxy (fun e _ _ _ => ⟨trivial, putProxy_after hc dn exptime e⟩) (.refl hc)
  split
  · exact hstore
  · split
    · exact hstore
    · split
      · exact hstore
      · exact After.refl hc

/-- With the last job of a pair go its row and its delegations. -/
theorem removePair_after (hc : Consistent lib cfg s) (dn myproxy : Text) :
    After lib cfg s
      { s with db := (s.db.removeProxy dn myproxy).removeDelegationsOf dn myproxy } := by
  have hrows : ∀ r ∈ ((s.db.removeProxy dn myproxy).removeDelegationsOf dn
      myproxy).delegations.rows,
      r ∈ s.db.delegations.rows ∧ ¬ (r.userdn = dn ∧ r.myproxyurl = myproxy) := by
    intro r hr
    have h := Table.mem_deleteIf.mp hr
    refine ⟨h.1, fun hboth => ?_⟩
    simpa [hboth] using h.2
  have hproxies : ∀ row ∈ (s.db.removeProxy dn myproxy).proxies.rows,
      row ∈ s.db.proxies.rows := fun row hrow => (Table.mem_delete.mp hrow).1
  refine ⟨⟨fun id e he => ⟨e, he, le_rfl⟩, fun r hr => .inl (hrows r hr).1, ?_,
    fun _ _ => rfl, rfl⟩, hc.fewer (fun r hr => (hrows r hr).1) hproxies⟩
  intro row hrow hserver
  by_cases hkey : row.key = (dn, myproxy)
  · refine .inr fun r hr hdn hmyproxy => ?_
    obtain ⟨hdn', hmyproxy'⟩ := Prod.mk.inj hkey
    exact absurd ⟨hdn.trans hdn', hmyproxy.trans hmyproxy'⟩ (hrows r hr).2
  · exact .inl (pair_kept (Table.mem_delete.mpr ⟨hrow, hkey⟩) rfl)

/-- A file that no row of a pair names may be removed. -/
theorem After.unlink (h : After lib cfg s t) {dn myproxy : Text}
    (hfree : ∀ row ∈ t.db.proxies.rows, row.myproxyurl ≠ [] →
      row.proxyfile ≠ makeBetterproxyPath lib cfg dn myproxy) :
    After lib cfg s (t.setFile (makeBetterproxyPath lib cfg dn myproxy) none) := by
  obtain ⟨ho, hc⟩ := h
  refine ⟨⟨ho.cream, ho.rows, ?_, ?_, ho.renewed⟩,
    ⟨hc.recorded, hc.unique, hc.server, hc.path, ?_, hc.apart⟩⟩
  · intro row hrow hserver
    rcases ho.pairs row hrow hserver with ⟨row', hrow', hkey, hfile, hends⟩ | hgone
    · refine .inl ⟨row', hrow', hkey, hfile, fun e he => ?_⟩
      obtain ⟨e', he', hle⟩ := hends e he
      have hserver' : row'.myproxyurl ≠ [] := by
        rw [show row'.myproxyurl = row.myproxyurl from congrArg Prod.snd hkey]
        exact hserver
      refine ⟨e', ?_, hle⟩
      rw [setFile_of_ne (hfile ▸ hfree row' hrow' hserver'), he']
    · exact .inr hgone
  · intro dn' myproxy'
    rw [setFile_of_ne (renewedPath_ne _ _ _)]
    exact ho.fetched dn' myproxy'
  · intro row hrow hserver
    rw [setFile_of_ne (hfree row hrow hserver)]
    exact hc.stored row hrow hserver

/-- The removal of a pair, its file included. -/
theorem leaves_decrementUserProxyCounter {s₀ : Shared} (hc : Consistent lib cfg s)
    (dn myproxy : Text) (hserver : myproxy ≠ []) :
    wp (contract s₀)
      (fun t _ => After lib cfg s
        (unlinkAll t ((Section.decrementUserProxyCounter dn myproxy).unlinked lib cfg s)))
      (fun _ _ => True) s (decrementUserProxyCounter dn myproxy) := by
  unfold decrementUserProxyCounter
  refine wp_execDb ?_
  simp only [Db.run, Section.unlinked]
  cases hrow : s.db.proxy? dn myproxy with
  | none => exact After.refl hc
  | some info =>
      refine wp_execDb ?_
      have hcounted := setCounter_after hc dn myproxy (info.counter - 1)
      simp only [Db.run, Option.any_some]
      by_cases hlast : info.counter = 1
      · rw [if_pos hlast, if_pos (decide_eq_true hlast)]
        refine wp_execDb (wp_execDb ?_)
        obtain ⟨hinfo, hkey⟩ := Table.find?_eq_some_iff.mp hrow
        refine After.unlink (hcounted.trans (removePair_after hcounted.2 dn myproxy)) ?_
        intro row hin hserver' hpath
        obtain ⟨hin, hne⟩ := Table.mem_delete.mp hin
        exact hne (key_of_path hcounted.2 hin hserver' hserver
          (mem_setCounter.mpr (.inr ⟨info, hinfo, hkey, rfl⟩)) hkey hpath)
      · rw [if_neg hlast, if_neg (by simpa using hlast)]
        exact hcounted

@[simp] theorem hold_self (s : Shared) (id : Text) (e : ℤ) :
    (s.hold id e).cream id = some e := Function.update_self ..

theorem hold_of_ne {id id' : Text} (h : id' ≠ id) (s : Shared) (e : ℤ) :
    (s.hold id e).cream id' = s.cream id' := Function.update_of_ne h ..

/-- CREAM holds at least what it held. -/
theorem hold_after (hc : Consistent lib cfg s) {id : Text} {e : ℤ}
    (hlasts : ∀ e₀, s.cream id = some e₀ → e₀ ≤ e) :
    After lib cfg s (s.hold id e) := by
  have hmono : ∀ id' e₀, s.cream id' = some e₀ →
      ∃ e', (s.hold id e).cream id' = some e' ∧ e₀ ≤ e' := by
    intro id' e₀ he₀
    by_cases hid : id' = id
    · subst hid
      exact ⟨e, hold_self s id' e, hlasts e₀ he₀⟩
    · exact ⟨e₀, (hold_of_ne hid s e).trans he₀, le_rfl⟩
  refine ⟨⟨hmono, fun r hr => .inl hr, ?_, fun _ _ => rfl, rfl⟩,
    ⟨?_, hc.unique, hc.server, hc.path, hc.stored, hc.apart⟩⟩
  · exact fun row hrow _ => .inl (pair_kept hrow rfl)
  · intro r hr
    obtain ⟨e₀, he₀, hle⟩ := hc.recorded r hr
    obtain ⟨e', he', hle'⟩ := hmono r.delegationid e₀ he₀
    exact ⟨e', he', hle.trans hle'⟩

theorem hold_new_after (hc : Consistent lib cfg s) {id : Text}
    (hnew : s.cream id = none) (e : ℤ) : After lib cfg s (s.hold id e) :=
  hold_after hc fun e₀ he₀ =>
    absurd (hnew.symm.trans he₀) (Option.some_ne_none e₀).symm

theorem wp_creamDelegate {s₀ : Shared} {α : Type} {Q : Shared → α → Prop}
    {E : Shared → Exception → Prop} {url certfile id : Text}
    {f : Except Text Unit → IceProc α}
    (htaken : ∀ e, s.files certfile = some e →
      wp (contract s₀) Q E (s.hold id e) (f (.ok ())))
    (hfails : ∀ what, wp (contract s₀) Q E s (f (.error what))) :
    wp (contract s₀) Q E s ((Ice.ask (.creamDelegate url certfile id)).bind f) := by
  intro answer _
  refine ⟨trivial, ?_⟩
  show wp (contract s₀) Q E (world s (.creamDelegate url certfile id) answer).2
    (f (world s (.creamDelegate url certfile id) answer).1)
  cases answer with
  | error what => simpa [world] using hfails what
  | ok u =>
      cases he : s.files certfile with
      | none => simpa [world, he] using hfails []
      | some e => simpa [world, he] using htaken e he

/-- A row under an identifier that was new, with what CREAM holds under it. -/
theorem put_after (hc : Consistent lib cfg s) {row : DelegationRow} {e : ℤ}
    (hnew : s.cream row.delegationid = none) (hexptime : row.exptime ≤ e)
    (hserver : row.renewable → row.myproxyurl ≠ []) :
    After lib cfg s
      { s.hold row.delegationid e with
        db := { s.db with delegations := s.db.delegations.put row } } := by
  obtain ⟨ho, hc'⟩ := hold_new_after hc hnew e
  have hmem : ∀ r ∈ (s.db.delegations.put row).rows,
      r ∈ s.db.delegations.rows ∨ r = row := fun r hr =>
    (Table.mem_put.mp hr).imp_left And.left
  have hne : ∀ r ∈ s.db.delegations.rows, r.delegationid ≠ row.delegationid := by
    intro r hr heq
    obtain ⟨e₀, he₀, -⟩ := hc.recorded r hr
    exact absurd (hnew.symm.trans (heq ▸ he₀)) (Option.some_ne_none e₀).symm
  refine ⟨⟨ho.cream, ?_, ?_, ho.fetched, rfl⟩, ⟨?_, ?_, ?_, hc.path, hc.stored, hc.apart⟩⟩
  · intro r hr
    rcases hmem r hr with hr | rfl
    · exact .inl hr
    · exact .inr hnew
  · exact fun row hrow _ => .inl (pair_kept hrow rfl)
  · intro r hr
    rcases hmem r hr with hr | rfl
    · exact hc'.recorded r hr
    · exact ⟨e, hold_self s _ e, hexptime⟩
  · intro r hr r' hr' heq
    rcases hmem r hr with hin | rfl <;> rcases hmem r' hr' with hin' | rfl
    · exact hc.unique r hin r' hin' heq
    · exact absurd heq (hne r hin)
    · exact absurd heq.symm (hne r' hin')
    · rfl
  · intro r hr
    rcases hmem r hr with hr | rfl
    · exact hc.server r hr
    · exact hserver

theorem eq_of_createDelegation {db db' : Db} {row : DelegationRow}
    (h : db.createDelegation row = some db') :
    db' = { db with delegations := db.delegations.put row } := by
  unfold Db.createDelegation at h
  split at h
  · cases h
  · exact (Option.some.inj h).symm

theorem wp_createDelegation {s₀ : Shared} {α : Type} {Q : Shared → α → Prop}
    {E : Shared → Exception → Prop} {row : DelegationRow} {f : Bool → IceProc α}
    (hcreated : ∀ db, s.db.createDelegation row = some db →
      wp (contract s₀) Q E { s with db := db } (f true))
    (hrefused : wp (contract s₀) Q E s (f false)) :
    wp (contract s₀) Q E s ((execDb (.createDelegation row)).bind f) := by
  refine wp_execDb ?_
  cases h : s.db.createDelegation row with
  | none => simpa [Db.run, h] using hrefused
  | some db => simpa [Db.run, h] using hcreated db h

theorem wp_delegationDigest {s₀ : Shared} {Q : Shared → Except Text Text → Prop}
    {E : Shared → Exception → Prop} {job : CreamJob} {useNew : Bool}
    (h : ∀ answer, Q s answer) :
    wp (contract s₀) Q E s (delegationDigest job useNew) := by
  unfold delegationDigest
  split
  · exact h _
  · exact fun answer _ => ⟨trivial, h answer⟩

theorem leaves_newDelegation {s₀ : Shared} (hc : Consistent lib cfg s)
    (hcream : s.cream = s₀.cream) {job : CreamJob} (digest : Text)
    (hserver : job.proxyRenewable → job.myproxyAddress ≠ [])
    (hlasts : Lasts s job.userProxyfile job.isbproxyTimeEnd) :
    Leaves lib cfg s₀ s (newDelegation job job.proxyRenewable digest) := by
  unfold newDelegation
  intro id hid
  refine ⟨trivial, fun t _ => ⟨trivial, ?_⟩⟩
  have hnew : s.cream id = none := (congrFun hcream id).trans hid
  refine wp_creamDelegate (fun e he => ?_) fun what => After.refl hc
  refine wp_createDelegation (fun db hcreated => ?_) (hold_new_after hc hnew e)
  obtain rfl := eq_of_createDelegation hcreated
  exact put_after hc hnew (hlasts e he) hserver

/-- A row that is to be replaced goes first. -/
theorem removeDelegation_after (hc : Consistent lib cfg s)
    (digest creamurl myproxy : Text) :
    After lib cfg s { s with db := s.db.removeDelegation digest creamurl myproxy } := by
  have hrows : ∀ r ∈ (s.db.removeDelegation digest creamurl myproxy).delegations.rows,
      r ∈ s.db.delegations.rows := fun r hr => (Table.mem_delete.mp hr).1
  exact ⟨⟨fun id e he => ⟨e, he, le_rfl⟩, fun r hr => .inl (hrows r hr),
    fun row hrow _ => .inl (pair_kept hrow rfl), fun _ _ => rfl, rfl⟩,
    hc.fewer hrows fun _ hrow => hrow⟩

theorem leaves_delegate (hc : Consistent lib cfg s) {job : CreamJob} (force : Bool)
    (hserver : job.proxyRenewable → job.myproxyAddress ≠ [])
    (hlasts : Lasts s job.userProxyfile job.isbproxyTimeEnd) :
    Leaves lib cfg s s (delegate job job.proxyRenewable force) := by
  unfold delegate
  rw [Leaves, bind_eq, wp_bind]
  refine wp_delegationDigest fun answer => ?_
  cases answer with
  | error what => exact After.refl hc
  | ok digest =>
      refine wp_execDb ?_
      simp only [Db.run]
      split
      · exact leaves_newDelegation hc rfl digest hserver hlasts
      · split
        · refine wp_execDb ?_
          have h := removeDelegation_after hc digest job.creamAddress job.myproxyAddress
          refine wp_mono (fun _ _ h' => h.trans h') (fun _ _ h' => h.trans h')
            (leaves_newDelegation h.2 rfl digest hserver hlasts)
        · exact After.refl hc

/-- The rest of a section that ends in an exception is of no account. -/
theorem leaves_redelegate {s₀ : Shared} (hc : Consistent lib cfg s)
    {certfile url id : Text} (hlasts : ∀ e, s.cream id = some e → Lasts s certfile e) :
    Leaves lib cfg s₀ s (redelegate certfile url id) := by
  unfold redelegate
  refine wp_execDb ?_
  by_cases hfound : (!List.isEmpty id && s.db.hasDelegation id) = true
  · rw [show (s.db.run (.checkDelegationByID id)).1 = true from hfound, if_pos rfl]
    refine wp_creamDelegate (fun e he => ?_) fun what => After.refl hc
    exact hold_after hc fun e₀ he₀ => hlasts e₀ he₀ e he
  · rw [show (s.db.run (.checkDelegationByID id)).1 = false from
        Bool.eq_false_of_not_eq_true hfound,
      if_neg Bool.false_ne_true]
    exact After.refl hc

theorem wp_ignored {s₀ : Shared} {α : Type} {p : IceProc α} {G : Shared → Prop}
    {E : Shared → Exception → Prop}
    (h : wp (contract s₀) (fun t _ => G t) E s p) :
    wp (contract s₀) (fun t _ => G t) (fun _ _ => True) s (ignored p) :=
  wp_mono (fun _ _ h => h) (fun _ _ _ => trivial) ((wp_bind s p _).mpr h)

/-- What a section of another thread leaves, files that it removes included. -/
theorem wp_section (hc : Consistent lib cfg s) {m : Section}
    (hm : m.Careful lib cfg s) :
    wp (contract s)
      (fun t _ => After lib cfg s (unlinkAll t (m.unlinked lib cfg s)))
      (fun _ _ => True) s (m.body lib cfg) := by
  cases m with
  | setBetterProxy job => exact wp_ignored (leaves_setBetterProxy hc hm)
  | updateBetterProxy job => exact wp_ignored (leaves_updateBetterProxy hc hm)
  | incrementUserProxyCounter job =>
      exact wp_ignored (leaves_incrementUserProxyCounter hc hm)
  | decrementUserProxyCounter dn myproxy =>
      exact wp_ignored (leaves_decrementUserProxyCounter hc dn myproxy hm)
  | setUserProxyIfLongerLegacy job =>
      exact wp_ignored (leaves_setUserProxyIfLongerLegacy hc _ _ _)
  | delegate job force => exact wp_ignored (leaves_delegate hc force hm.1 hm.2)
  | redelegate certfile url id =>
      exact wp_mono (fun _ _ h => h) (fun _ _ _ => trivial) (leaves_redelegate hc hm)

theorem after_of_run (hc : Consistent lib cfg s) {m : Section}
    (hm : m.Careful lib cfg s) {o : Oracle Call Answer}
    (ho : ∀ n, s.cream (o n .generateDelegationID) = none)
    (h : m.run lib cfg o s = some t) : After lib cfg s t := by
  have hkeeps : Keeps (contract s) o 0 s (m.body lib cfg) := by
    refine keeps_of_forall o (fun n _ c => ?_) 0 s _
    cases c with
    | generateDelegationID => exact ho n
    | _ => trivial
  have hpost := wp_exec o hkeeps (wp_section hc hm)
  unfold Section.run at h
  simp only at h
  split at h
  next heq =>
      rw [show (contract s).world = world from rfl, heq] at hpost
      exact Option.some.inj h ▸ hpost
  next => cases h

/-- A file that is not ICE's own has changed. -/
theorem touch_after (hc : Consistent lib cfg s) {path : Text}
    (hpath : NotOwn lib cfg path) (v : Option ℤ) :
    After lib cfg s (s.setFile path v) := by
  have hfile : ∀ row ∈ s.db.proxies.rows, row.myproxyurl ≠ [] →
      (s.setFile path v).files row.proxyfile = s.files row.proxyfile := by
    intro row hrow hserver
    rw [hc.path row hrow hserver]
    exact setFile_of_ne (hpath _ _).1.symm s v
  refine ⟨⟨fun id e he => ⟨e, he, le_rfl⟩, fun r hr => .inl hr, ?_,
    fun dn myproxy => setFile_of_ne (hpath dn myproxy).2.symm s v, rfl⟩,
    ⟨hc.recorded, hc.unique, hc.server, hc.path, ?_, hc.apart⟩⟩
  · exact fun row hrow hserver => .inl (pair_kept hrow (hfile row hrow hserver))
  · intro row hrow hserver
    obtain ⟨e, he, hle⟩ := hc.stored row hrow hserver
    exact ⟨e, (hfile row hrow hserver).trans he, hle⟩

end Wms.Ice.Renewal
