import Wms.Proofs.EventQuery

/-!
# Executions one after the other hand over once

What a user's execution hands over is behind all that has been handed over to the
user before: the id that is kept is behind it, an answer starts with that id, and
of the groups that are left each has events of its own job only. While groups are
handed over the kept id lags, so the bound is said of the execution then.

The ids are set back where no event of the new data base has been handed over yet.
-/

namespace Wms.Ice.EventQuery

open Wms.Lib

section
variable {endpoint userDN job : Text} {s s' : State} {id : ℕ} {e : Event} {p : Phase}
  {g : Text × List Event} {groups : List (Text × List Event)} {last : ℕ}

/-- What has been handed over to a user, of the data base CREAM has, is before an
id. -/
def Below (s : State) (userDN : Text) (id : ℕ) : Prop :=
  ∀ g ∈ s.handed, ∀ e ∈ g.2, e.userDN = userDN → e.dbid = s.dbid → e.id < id

/-- What can be handed over for a job of a user. -/
structure Fits (handed : List (Text × List Event)) (dbid : ℕ) (userDN : Text) (last : ℕ)
    (g : Text × List Event) : Prop where
  growing : Growing g.2
  dbids : ∀ e ∈ g.2, e.dbid = dbid
  users : ∀ e ∈ g.2, e.userDN = userDN
  ids : ∀ e ∈ g.2, e.id ≤ last
  after : ∀ g' ∈ handed, g'.1 = g.1 → ∀ e' ∈ g'.2, e'.userDN = userDN →
    e'.dbid = dbid → ∀ e ∈ g.2, e'.id < e.id

def Phase.inOrder (s : State) (userDN : Text) : Phase → Prop
  | .inserting => Below s userDN 0
  | .asking start => Below s userDN start
  | .checking dbid answer | .recording dbid answer => dbid = s.dbid ∧
      Growing answer ∧
      ∀ e ∈ answer, e.dbid = s.dbid ∧ e.userDN = userDN ∧ Below s userDN e.id
  | .replacing dbid => dbid = s.dbid ∧
      ∃ olddbid, s.savedDbid = some olddbid ∧ olddbid ≠ s.dbid
  | .resetting => True
  | .processing groups last => s.savedDbid = some s.dbid ∧
      (groups.map (·.1)).Nodup ∧ Below s userDN (last + 1) ∧
      ∀ g ∈ groups, Fits s.handed s.dbid userDN last g

/-- Whether groups are handed over. -/
def Phase.isProcessing : Phase → Bool
  | .processing _ _ => true
  | _ => false

/-- The id an execution would start with. -/
def State.start (s : State) (userDN : Text) : ℕ := (s.eventId userDN).getD 0

structure Ordered (s : State) : Prop where
  dbid : ∀ e ∈ s.events, e.dbid = s.dbid
  growing : Growing s.events
  fresh : ∀ x ∈ s.executions.rows, x.number < s.count
  user : ∀ x ∈ s.executions.rows, ∀ y ∈ s.executions.rows, x.userDN = y.userDN → x = y
  saved : ∀ dbid, s.savedDbid = some dbid → dbid ≤ s.dbid
  handed : ∀ g ∈ s.handed, ∀ e ∈ g.2, ∃ dbid, s.savedDbid = some dbid ∧ e.dbid ≤ dbid
  kept : ∀ userDN, (∀ x ∈ s.executions.rows, x.userDN = userDN →
    x.phase.isProcessing = false) → Below s userDN (s.start userDN)
  executions : ∀ x ∈ s.executions.rows, x.phase.inOrder s x.userDN
  single : ∀ x ∈ s.executions.rows, x.phase = .resetting →
    ∀ y ∈ s.executions.rows, y = x
  unseen : ∀ x ∈ s.executions.rows, x.phase = .resetting → ∀ userDN, Below s userDN 0
  inOrder : InOrder s

theorem Ordered.quiet (h : Ordered s) {x : Execution} (hx : x ∈ s.executions.rows)
    (hphase : x.phase ≠ .resetting) : Quiet s := by
  intro y hy hreset
  rw [h.single y hy hreset x hx] at hphase
  exact hphase hreset

theorem Below.mono {id' : ℕ} (h : Below s userDN id) (hle : id ≤ id') :
    Below s userDN id' :=
  fun g hg e he huser hdbid => Nat.lt_of_lt_of_le (h g hg e he huser hdbid) hle

/-! ## Executions start, go on and end -/

/-- An execution is there that was not, or has gone on. -/
theorem Ordered.puts (h : Ordered s) (hquiet : Quiet s) {x : Execution} {count : ℕ}
    (omitted : List Event) (hcount : s.count ≤ count) (hfresh : x.number < count)
    (hsame : ∀ y ∈ s.executions.rows, y.number = x.number ↔ y.userDN = x.userDN)
    (hreset : x.phase ≠ .resetting) (hphase : x.phase.inOrder s x.userDN)
    (hkept : x.phase.isProcessing = false → Below s x.userDN (s.start x.userDN)) :
    Ordered { s with
      count := count
      executions := s.executions.put x
      omitted := omitted } where
  dbid := h.dbid
  growing := h.growing
  fresh y hy := by
    rcases Table.mem_put.mp hy with ⟨hy, -⟩ | rfl
    · exact Nat.lt_of_lt_of_le (h.fresh y hy) hcount
    · exact hfresh
  user y hy z hz huser := by
    rcases Table.mem_put.mp hy with ⟨hy', hney⟩ | rfl
    · rcases Table.mem_put.mp hz with ⟨hz', -⟩ | rfl
      · exact h.user y hy' z hz' huser
      · exact absurd ((hsame y hy').mpr huser) hney
    · rcases Table.mem_put.mp hz with ⟨hz', hnez⟩ | rfl
      · exact absurd ((hsame z hz').mpr huser.symm) hnez
      · rfl
  saved := h.saved
  handed := h.handed
  kept u hu := by
    by_cases hux : x.userDN = u
    · subst hux
      exact hkept (hu x (Table.mem_put.mpr (.inr rfl)) rfl)
    · refine h.kept u fun y hy huser => hu y (Table.mem_put.mpr (.inl ⟨hy, ?_⟩)) huser
      intro hnum
      exact hux (((hsame y hy).mp hnum).symm.trans huser)
  executions y hy := by
    rcases Table.mem_put.mp hy with ⟨hy, -⟩ | rfl
    · exact h.executions y hy
    · exact hphase
  single y hy hyreset := by
    rcases Table.mem_put.mp hy with ⟨hy, -⟩ | rfl
    · exact absurd hyreset (hquiet y hy)
    · exact absurd hyreset hreset
  unseen y hy hyreset := by
    rcases Table.mem_put.mp hy with ⟨hy, -⟩ | rfl
    · exact absurd hyreset (hquiet y hy)
    · exact absurd hyreset hreset
  inOrder := h.inOrder

/-- Who goes on keeps its number and its user. -/
theorem Ordered.same (h : Ordered s) {x : Execution} (hx : x ∈ s.executions.rows) :
    ∀ y ∈ s.executions.rows, y.number = x.number ↔ y.userDN = x.userDN := by
  intro y hy
  constructor
  · intro hnum
    rw [Table.eq_of_mem hy hx hnum]
  · intro huser
    rw [h.user y hy x hx huser]

/-- The id that is kept is behind all that has been handed over, but for what is
being handed over. -/
theorem Ordered.keptOf (h : Ordered s) {x : Execution} (hx : x ∈ s.executions.rows)
    (hphase : x.phase.isProcessing = false) : Below s x.userDN (s.start x.userDN) := by
  refine h.kept x.userDN fun y hy huser => ?_
  rw [h.user y hy x hx huser]
  exact hphase

theorem Ordered.goes (h : Ordered s) {number : ℕ} {p' : Phase}
    (hx : ⟨number, userDN, p⟩ ∈ s.executions.rows) (hquiet : p ≠ .resetting)
    (omitted : List Event) (hreset : p' ≠ .resetting) (hphase : p'.inOrder s userDN)
    (hproc : p'.isProcessing = false → p.isProcessing = false) :
    Ordered { s with
      executions := s.executions.put ⟨number, userDN, p'⟩
      omitted := omitted } := by
  have hfresh : number < s.count := h.fresh _ hx
  have hsame : ∀ y ∈ s.executions.rows, y.number = number ↔ y.userDN = userDN :=
    h.same hx
  have hkept : p'.isProcessing = false → Below s userDN (s.start userDN) :=
    fun hp => h.keptOf hx (hproc hp)
  exact h.puts (h.quiet hx hquiet) omitted (Nat.le_refl _) hfresh hsame hreset hphase
    hkept

theorem Ordered.ends (h : Ordered s) {x : Execution} (hx : x ∈ s.executions.rows)
    (hkept : Below s x.userDN (s.start x.userDN)) :
    Ordered { s with executions := s.executions.delete x.number } where
  dbid := h.dbid
  growing := h.growing
  fresh y hy := h.fresh y (Table.mem_delete.mp hy).1
  user y hy z hz := h.user y (Table.mem_delete.mp hy).1 z (Table.mem_delete.mp hz).1
  saved := h.saved
  handed := h.handed
  kept u hu := by
    by_cases hux : x.userDN = u
    · exact hux ▸ hkept
    · refine h.kept u fun y hy huser => hu y (Table.mem_delete.mpr ⟨hy, ?_⟩) huser
      intro hnum
      exact hux (((h.same hx y hy).mp hnum).symm.trans huser)
  executions y hy := h.executions y (Table.mem_delete.mp hy).1
  single y hy hreset z hz :=
    h.single y (Table.mem_delete.mp hy).1 hreset z (Table.mem_delete.mp hz).1
  unseen y hy := h.unseen y (Table.mem_delete.mp hy).1
  inOrder := h.inOrder

/-- An id is written. -/
theorem Ordered.writes (h : Ordered s) (hbelow : Below s userDN id) :
    Ordered { s with
      eventId := Function.update s.eventId userDN (some id) } where
  dbid := h.dbid
  growing := h.growing
  fresh := h.fresh
  user := h.user
  saved := h.saved
  handed := h.handed
  kept u hu := by
    show Below s u ((Function.update s.eventId userDN (some id) u).getD 0)
    by_cases huser : u = userDN
    · subst huser
      rw [Function.update_self]
      exact hbelow
    · rw [Function.update_of_ne huser]
      exact h.kept u hu
  executions := h.executions
  single := h.single
  unseen := h.unseen
  inOrder := h.inOrder

/-! ## Handing over -/

theorem handedFor_append : handedFor { s with handed := s.handed ++ [g] } userDN job =
    handedFor s userDN job ++
      if g.1 = job then g.2.filter fun e => e.userDN = userDN else [] := by
  rw [handedFor, List.filter_append, List.flatMap_append, List.filter_append]
  by_cases hjob : g.1 = job
  · simp [handedFor, hjob]
  · simp [handedFor, hjob]

theorem mem_handedFor : e ∈ handedFor s userDN job ↔
    ∃ g ∈ s.handed, g.1 = job ∧ e ∈ g.2 ∧ e.userDN = userDN := by
  simp [handedFor, List.mem_flatMap, ← exists_and_right, and_assoc]

theorem below_append {g : Text × List Event} (h : Below s userDN id)
    (hg : ∀ e ∈ g.2, e.userDN = userDN → e.id < id) :
    Below { s with handed := s.handed ++ [g] } userDN id := by
  intro g' hg' e he huser hdbid
  rcases List.mem_append.mp hg' with hg' | hg'
  · exact h g' hg' e he huser hdbid
  · rw [List.mem_singleton.mp hg'] at he
    exact hg e he huser

theorem fits_append {g' : Text × List Event} {u : Text}
    (h : Fits s.handed s.dbid u last g') (hg : g.1 ≠ g'.1 ∨ ∀ e ∈ g.2, e.userDN ≠ u) :
    Fits (s.handed ++ [g]) s.dbid u last g' := by
  refine ⟨h.growing, h.dbids, h.users, h.ids, fun g₁ hg₁ hjob e₁ he₁ huser => ?_⟩
  rcases List.mem_append.mp hg₁ with hg₁ | hg₁
  · exact h.after g₁ hg₁ hjob e₁ he₁ huser
  · rw [List.mem_singleton.mp hg₁] at hjob he₁
    rcases hg with hne | hne
    · exact absurd hjob hne
    · exact absurd huser (hne e₁ he₁)

/-- Another user's execution is not concerned. -/
theorem inOrder_append {u : Text} (h : p.inOrder s u) (hg : ∀ e ∈ g.2, e.userDN ≠ u) :
    p.inOrder { s with handed := s.handed ++ [g] } u := by
  have hbelow : ∀ {n}, Below s u n → Below { s with handed := s.handed ++ [g] } u n :=
    fun hb => below_append hb fun e he huser => absurd huser (hg e he)
  cases p with
  | inserting => exact hbelow h
  | asking start => exact hbelow h
  | checking dbid answer | recording dbid answer =>
      obtain ⟨hdbid, hgrow, hall⟩ := h
      exact ⟨hdbid, hgrow, fun e he =>
        ⟨(hall e he).1, (hall e he).2.1, hbelow (hall e he).2.2⟩⟩
  | replacing dbid => exact h
  | resetting => trivial
  | processing groups last =>
      obtain ⟨hsaved, hnodup, hb, hfits⟩ := h
      exact ⟨hsaved, hnodup, hbelow hb, fun g' hg' =>
        fits_append (hfits g' hg') (.inr hg)⟩

/-- What is handed over fits behind what has been. -/
theorem inOrder_handed (h : Ordered s) (hfits : Fits s.handed s.dbid userDN last g)
    (hsaved : s.savedDbid = some s.dbid) :
    InOrder { s with handed := s.handed ++ [g] } := by
  intro u job
  rw [handedFor_append]
  split
  next hjob =>
      refine List.pairwise_append.mpr ⟨h.inOrder u job, ?_, fun e' he' e he => ?_⟩
      · refine (hfits.growing.filter _).imp_of_mem fun he he' hlt => ?_
        have hdb := hfits.dbids _ (List.mem_of_mem_filter he)
        have hdb' := hfits.dbids _ (List.mem_of_mem_filter he')
        exact .inr ⟨hdb.trans hdb'.symm, hlt⟩
      · obtain ⟨hmem, hu⟩ := List.mem_filter.mp he
        replace he : e ∈ g.2 := hmem
        obtain rfl : userDN = u := (hfits.users e he).symm.trans (of_decide_eq_true hu)
        obtain ⟨g', hg', hjob', heg', hu'⟩ := mem_handedFor.mp he'
        obtain ⟨d, hd, hle⟩ := h.handed g' hg' e' heg'
        obtain rfl := Option.some.inj (hsaved.symm.trans hd)
        rw [Event.before, hfits.dbids e he]
        rcases Nat.lt_or_eq_of_le hle with hlt | heq
        · exact .inl hlt
        · exact .inr ⟨heq,
            hfits.after g' hg' (hjob'.trans hjob.symm) e' heg' hu' heq e he⟩
  next =>
      rw [List.append_nil]
      exact h.inOrder u job

/-- A group is handed over that no execution has still before it. -/
theorem Ordered.hands (h : Ordered s) {x : Execution} (hx : x ∈ s.executions.rows)
    (hphase : x.phase = .processing groups last)
    (hfits : Fits s.handed s.dbid x.userDN last g)
    (hnew : g.1 ∉ groups.map (·.1)) :
    Ordered { s with handed := s.handed ++ [g] } where
  dbid := h.dbid
  growing := h.growing
  fresh := h.fresh
  user := h.user
  saved := h.saved
  handed g' hg' e he := by
    rcases List.mem_append.mp hg' with hg' | hg'
    · exact h.handed g' hg' e he
    · have hrow := h.executions x hx
      rw [hphase] at hrow
      rw [List.mem_singleton.mp hg'] at he
      exact ⟨s.dbid, hrow.1, Nat.le_of_eq (hfits.dbids e he)⟩
  kept u hu := by
    refine below_append (h.kept u hu) fun e he huser => ?_
    have hproc := hu x hx ((hfits.users e he).symm.trans huser)
    rw [hphase] at hproc
    cases hproc
  executions y hy := by
    by_cases hyx : y.userDN = x.userDN
    · obtain rfl := h.user y hy x hx hyx
      have hrow := h.executions y hy
      rw [hphase] at hrow ⊢
      obtain ⟨hsaved, hnodup, hb, hall⟩ := hrow
      refine ⟨hsaved, hnodup, below_append hb fun e he _ => ?_, fun g' hg' => ?_⟩
      · exact Nat.lt_succ_of_le (hfits.ids e he)
      · refine fits_append (hall g' hg') (.inl fun hjob => hnew ?_)
        rw [hjob]
        exact List.mem_map_of_mem hg'
    · exact inOrder_append (h.executions y hy) fun e he huser =>
        hyx (huser.symm.trans (hfits.users e he))
  single := h.single
  unseen y hy hreset := absurd hreset (h.quiet hx (by simp [hphase]) y hy)
  inOrder := by
    have hrow := h.executions x hx
    rw [hphase] at hrow
    exact inOrder_handed h hfits hrow.1

theorem Ordered.handOver (h : Ordered s) {number : ℕ}
    (hx : ⟨number, userDN, .processing (g :: groups) last⟩ ∈ s.executions.rows) :
    Ordered { s with
      executions := s.executions.put ⟨number, userDN, .processing groups last⟩
      handed := s.handed ++ [g] } := by
  obtain ⟨hsaved, hnodup, hb, hall⟩ := h.executions _ hx
  obtain ⟨hnew, hnodup⟩ := List.nodup_cons.mp hnodup
  have hputs : Ordered { s with
      executions := s.executions.put ⟨number, userDN, .processing groups last⟩ } :=
    h.goes hx (by simp) s.omitted (by simp)
      ⟨hsaved, hnodup, hb, fun g' hg' => hall g' (List.mem_cons_of_mem _ hg')⟩ id
  have hfits := hall g List.mem_cons_self
  exact hputs.hands (Table.mem_put.mpr (.inr rfl)) rfl
    ⟨hfits.growing, hfits.dbids, hfits.users, hfits.ids, hfits.after⟩ hnew

/-! ## What an execution does -/

theorem Ordered.getEventID (h : Ordered s) (hquiet : Quiet s) {x : Execution}
    (hone : ∀ y ∈ s.executions.rows, y.userDN ≠ x.userDN) (hnumber : x.number = s.count)
    (hphase : x.phase = .inserting ∧ s.eventId x.userDN = none ∨
      x.phase = .asking (s.start x.userDN)) :
    Ordered { s with
      count := s.count + 1
      executions := s.executions.put x } := by
  have hkept : Below s x.userDN (s.start x.userDN) :=
    h.kept x.userDN fun y hy huser => absurd huser (hone y hy)
  refine h.puts hquiet s.omitted (Nat.le_succ _) (by omega) (fun y hy => ?_) ?_ ?_
    fun _ => hkept
  · have hlt := h.fresh y hy
    constructor
    · intro hnum
      omega
    · intro huser
      exact absurd huser (hone y hy)
  · rcases hphase with ⟨hphase, -⟩ | hphase
    · simp [hphase]
    · simp [hphase]
  · rcases hphase with ⟨hphase, hnone⟩ | hphase
    · rw [hphase]
      rw [State.start, hnone] at hkept
      exact hkept
    · rw [hphase]
      exact hkept

theorem Ordered.insertEventID (h : Ordered s) {number : ℕ}
    (hx : ⟨number, userDN, .inserting⟩ ∈ s.executions.rows) :
    Ordered { s with
      eventId := Function.update s.eventId userDN (some 0)
      executions := s.executions.put ⟨number, userDN, .asking 0⟩ } := by
  have hbelow : Below s userDN 0 := h.executions _ hx
  have hputs : Ordered { s with
      executions := s.executions.put ⟨number, userDN, .asking 0⟩ } :=
    h.goes hx (by simp) s.omitted (by simp) hbelow id
  exact hputs.writes hbelow

theorem Ordered.ask (h : Ordered s) {number start dbid : ℕ} {answer : List Event}
    (hx : ⟨number, userDN, .asking start⟩ ∈ s.executions.rows)
    (hreply : Reply s userDN start dbid answer) :
    Ordered (ask s number userDN start dbid answer) := by
  have hbelow : Below s userDN start := h.executions _ hx
  refine h.goes hx (by simp) _ (by simp)
    ⟨hreply.current, hreply.sorted, fun e he => ?_⟩ id
  obtain ⟨hmem, huser, hle⟩ := hreply.real e he
  exact ⟨h.dbid e hmem, huser, hbelow.mono hle⟩

/-- The groups of an answer fit behind what has been handed over. -/
theorem fits_mappedEvents {answer : List Event} (hgrow : Growing answer)
    (hall : ∀ e ∈ answer, e.dbid = s.dbid ∧ e.userDN = userDN ∧ Below s userDN e.id)
    (hg : g ∈ (mappedEvents endpoint answer).entries) :
    Fits s.handed s.dbid userDN (lastId answer) g := by
  obtain ⟨hfilter, -⟩ := mem_group.mp hg
  have hmem : ∀ e ∈ g.2, e ∈ answer := by
    intro e he
    rw [hfilter] at he
    exact List.mem_of_mem_filter he
  refine ⟨?_, fun e he => (hall e (hmem e he)).1, fun e he => (hall e (hmem e he)).2.1,
    fun e he => le_lastId (hmem e he), fun g' hg' _ e' he' huser hdbid e he => ?_⟩
  · rw [hfilter]
    exact hgrow.filter _
  · exact (hall e (hmem e he)).2.2 g' hg' e' he' huser hdbid

/-- An execution that has an answer. -/
def Phase.has (p : Phase) (dbid : ℕ) (answer : List Event) : Prop :=
  p = .checking dbid answer ∨ p = .recording dbid answer

theorem Ordered.answer (h : Ordered s) {number dbid : ℕ} {answer : List Event}
    (hx : ⟨number, userDN, p⟩ ∈ s.executions.rows) (hp : p.has dbid answer) :
    dbid = s.dbid ∧ Growing answer ∧
      ∀ e ∈ answer, e.dbid = s.dbid ∧ e.userDN = userDN ∧ Below s userDN e.id := by
  rcases hp with rfl | rfl
  · exact h.executions _ hx
  · exact h.executions _ hx

theorem Ordered.process (h : Ordered s) {number dbid : ℕ} {answer : List Event}
    (hx : ⟨number, userDN, p⟩ ∈ s.executions.rows) (hp : p.has dbid answer)
    (hsaved : s.savedDbid = some s.dbid) :
    Ordered (process endpoint s number userDN answer) := by
  obtain ⟨-, hgrow, hall⟩ := h.answer hx hp
  have hproc : p.isProcessing = false ∧ p ≠ .resetting := by
    rcases hp with rfl | rfl <;> exact ⟨rfl, by simp⟩
  rw [EventQuery.process]
  split
  next => exact h.ends hx (h.keptOf hx hproc.1)
  next hne =>
      refine h.goes hx hproc.2 s.omitted (by simp)
        ⟨hsaved, (mappedEvents endpoint answer).nodup_keys, ?_,
          fun g hg => fits_mappedEvents hgrow hall hg⟩ fun _ => hproc.1
      obtain ⟨e, he, hid⟩ := lastId_mem fun hnil => hne (List.isEmpty_iff.mpr hnil)
      exact (hall e he).2.2.mono (by omega)

/-- Nothing has been handed over before the first answer. -/
theorem Ordered.first (h : Ordered s) (hsaved : s.savedDbid = none) :
    Ordered { s with savedDbid := some s.dbid } where
  dbid := h.dbid
  growing := h.growing
  fresh := h.fresh
  user := h.user
  saved dbid hd := Nat.le_of_eq (Option.some.inj hd).symm
  handed g hg e he := by
    obtain ⟨d, hd, -⟩ := h.handed g hg e he
    rw [hsaved] at hd
    cases hd
  kept := h.kept
  executions x hx := by
    have hrow := h.executions x hx
    cases hp : x.phase with
    | inserting | asking | checking | recording | resetting =>
        rw [hp] at hrow
        exact hrow
    | replacing dbid =>
        rw [hp] at hrow
        obtain ⟨-, olddbid, hold, -⟩ := hrow
        exact absurd (hsaved.symm.trans hold) (Option.some_ne_none _).symm
    | processing groups last =>
        rw [hp] at hrow
        exact absurd (hsaved.symm.trans hrow.1) (Option.some_ne_none _).symm
  single := h.single
  unseen := h.unseen
  inOrder := h.inOrder

/-- Nothing has been handed over of a data base that was not known. -/
theorem Ordered.mismatch (h : Ordered s) {x y : Execution} {olddbid : ℕ}
    (hy : y ∈ s.executions.rows)
    (hone : ∀ z ∈ s.executions.rows, z.number = y.number)
    (hsame : y.number = x.number ∧ y.userDN = x.userDN)
    (hsaved : s.savedDbid = some olddbid) (hne : olddbid ≠ s.dbid)
    (hphase : x.phase = .resetting) :
    Ordered { s with
      savedDbid := some s.dbid
      executions := s.executions.put x } := by
  have hrows : ∀ z ∈ (s.executions.put x).rows, z = x := by
    intro z hz
    rcases Table.mem_put.mp hz with ⟨hz, hnum⟩ | rfl
    · exact absurd ((hone z hz).trans hsame.1) hnum
    · rfl
  have hlt : ∀ g ∈ s.handed, ∀ e ∈ g.2, e.dbid < s.dbid := by
    intro g hg e he
    obtain ⟨d, hd, hle⟩ := h.handed g hg e he
    obtain rfl := Option.some.inj (hsaved.symm.trans hd)
    exact Nat.lt_of_le_of_lt hle (Nat.lt_of_le_of_ne (h.saved _ hsaved) hne)
  have hunseen : ∀ u n, Below s u n := fun u n g hg e he _ hdbid =>
    absurd hdbid (Nat.ne_of_lt (hlt g hg e he))
  exact {
    dbid := h.dbid
    growing := h.growing
    fresh := fun z hz => by
      rw [hrows z hz, ← hsame.1]
      exact h.fresh y hy
    user := fun z hz z' hz' _ => (hrows z hz).trans (hrows z' hz').symm
    saved := fun dbid hd => Nat.le_of_eq (Option.some.inj hd).symm
    handed := fun g hg e he => ⟨s.dbid, rfl, Nat.le_of_lt (hlt g hg e he)⟩
    kept := fun u _ => hunseen u _
    executions := fun z hz => by
      rw [hrows z hz, hphase]
      trivial
    single := fun z hz _ z' hz' => (hrows z' hz').trans (hrows z hz).symm
    unseen := fun _ _ _ u => hunseen u 0
    inOrder := h.inOrder }

theorem Ordered.getDbID (h : Ordered s) {number dbid : ℕ} {answer : List Event}
    (hx : ⟨number, userDN, .checking dbid answer⟩ ∈ s.executions.rows) :
    Ordered (getDbID endpoint s number userDN dbid answer) := by
  have hanswer := h.answer hx (.inl rfl)
  rw [EventQuery.getDbID]
  split
  next => exact h.goes hx (by simp) s.omitted (by simp) hanswer id
  next olddbid hsaved =>
      obtain ⟨rfl, -⟩ := hanswer
      split
      next heq => exact h.process hx (.inl rfl) (heq ▸ hsaved)
      next hne =>
          exact h.goes hx (by simp) s.omitted (by simp) ⟨rfl, olddbid, hsaved, hne⟩ id

theorem Ordered.record (h : Ordered s) {number dbid : ℕ} {answer : List Event}
    (hx : ⟨number, userDN, .recording dbid answer⟩ ∈ s.executions.rows)
    (hok : careful s (.setDbID number)) :
    Ordered (EventQuery.process endpoint { s with savedDbid := some dbid } number userDN
      answer) := by
  obtain ⟨rfl, -⟩ := h.answer hx (.inr rfl)
  rcases (hok _ hx rfl).1 _ rfl with hsaved | hsaved
  · exact (h.first hsaved).process hx (.inr rfl) rfl
  · rw [← hsaved]
    exact h.process hx (.inr rfl) hsaved

theorem Ordered.replace (h : Ordered s) {number dbid : ℕ}
    (hx : ⟨number, userDN, .replacing dbid⟩ ∈ s.executions.rows)
    (hok : careful s (.setDbID number)) :
    Ordered { s with
      savedDbid := some dbid
      executions := s.executions.put ⟨number, userDN, .resetting⟩ } := by
  obtain ⟨rfl, olddbid, hsaved, hne⟩ := h.executions _ hx
  exact h.mismatch hx ((hok _ hx rfl).2 rfl) ⟨rfl, rfl⟩ hsaved hne rfl

theorem Ordered.setEventIDForCE (h : Ordered s) {number : ℕ}
    (hx : ⟨number, userDN, .resetting⟩ ∈ s.executions.rows) :
    Ordered { s with
      eventId := fun userDN => (s.eventId userDN).map fun _ => 0
      executions := s.executions.delete number } := by
  have hback : Ordered { s with
      eventId := fun userDN => (s.eventId userDN).map fun _ => 0 } :=
    ⟨h.dbid, h.growing, h.fresh, h.user, h.saved, h.handed,
      fun u _ => (h.unseen _ hx rfl u).mono (Nat.zero_le _), h.executions, h.single,
      h.unseen, h.inOrder⟩
  exact hback.ends hx ((h.unseen _ hx rfl userDN).mono (Nat.zero_le _))

theorem Ordered.setEventID (h : Ordered s) {number : ℕ}
    (hx : ⟨number, userDN, .processing [] last⟩ ∈ s.executions.rows) :
    Ordered { s with
      eventId := Function.update s.eventId userDN (some (last + 1))
      executions := s.executions.delete number } := by
  obtain ⟨-, -, hbelow, -⟩ := h.executions _ hx
  refine (h.writes hbelow).ends hx ?_
  show Below s userDN
    ((Function.update s.eventId userDN (some (last + 1)) userDN).getD 0)
  rw [Function.update_self]
  exact hbelow

/-! ## What CREAM does -/

theorem Ordered.happen (h : Ordered s)
    (hnew : e.dbid = s.dbid ∧ ∀ e' ∈ s.events, e'.id < e.id) :
    Ordered { s with events := s.events ++ [e] } where
  dbid e' he' := by
    rcases List.mem_append.mp he' with he' | he'
    · exact h.dbid e' he'
    · rw [List.mem_singleton.mp he']
      exact hnew.1
  growing := by
    refine List.pairwise_append.mpr ⟨h.growing, List.pairwise_singleton _ _, ?_⟩
    intro e' he' e'' he''
    rw [List.mem_singleton.mp he'']
    exact hnew.2 e' he'
  fresh := h.fresh
  user := h.user
  saved := h.saved
  handed := h.handed
  kept := h.kept
  executions := h.executions
  single := h.single
  unseen := h.unseen
  inOrder := h.inOrder

/-- A new data base, of which nothing has been handed over. -/
theorem Ordered.scratch (h : Ordered s) {dbid : ℕ} (hdbid : s.dbid < dbid)
    (hrows : s.executions.rows = []) :
    Ordered { s with dbid := dbid, events := [] } := by
  have hnone : ∀ x, x ∉ s.executions.rows := fun x hx => by
    rw [hrows] at hx
    exact List.not_mem_nil hx
  exact {
    dbid := fun _ he => absurd he List.not_mem_nil
    growing := .nil
    fresh := h.fresh
    user := h.user
    saved := fun d hd => Nat.le_trans (h.saved d hd) (Nat.le_of_lt hdbid)
    handed := h.handed
    kept := fun u _ g hg e he _ hd => by
      obtain ⟨d, hsaved, hle⟩ := h.handed g hg e he
      have hd' := h.saved d hsaved
      replace hd : e.dbid = dbid := hd
      omega
    executions := fun x hx => absurd hx (hnone x)
    single := h.single
    unseen := fun x hx => absurd hx (hnone x)
    inOrder := h.inOrder }

theorem Ordered.restart (h : Ordered s) (startTime : ℤ)
    (hrows : s.executions.rows = []) :
    Ordered { s with startTime := startTime, executions := .empty } := by
  have hsame : s.executions = .empty := Table.eq_of_rows hrows
  rw [← hsame]
  exact ⟨h.dbid, h.growing, h.fresh, h.user, h.saved, h.handed, h.kept, h.executions,
    h.single, h.unseen, h.inOrder⟩

/-! ## Runs -/

theorem ordered_next {l : Label} (h : Ordered s) (hcream : truthful s l)
    (hok : careful s l ∧ alone s l) (hn : next endpoint s l = some s') :
    Ordered s' := by
  obtain ⟨hcareful, halone⟩ := hok
  cases goes_of_next hn with
  | happen => exact h.happen hcream
  | scratch => exact h.scratch hcream halone
  | @inserts userDN hid =>
      exact h.getEventID (x := ⟨s.count, userDN, .inserting⟩) hcareful halone rfl
        (.inl ⟨rfl, hid⟩)
  | @asks userDN start hid =>
      have hstart : s.start userDN = start := by
        rw [State.start, hid, Option.getD_some]
      exact h.getEventID (x := ⟨s.count, userDN, .asking start⟩) hcareful halone rfl
        (.inr (by rw [hstart]))
  | insertEventID hx => exact h.insertEventID hx
  | giveUp hx => exact h.ends hx (h.keptOf hx rfl)
  | query hx => exact h.ask hx (hcream _ hx rfl _ rfl)
  | getDbID hx => exact h.getDbID hx
  | records hx => exact h.record hx hcareful
  | replaces hx => exact h.replace hx hcareful
  | setEventIDForCE hx => exact h.setEventIDForCE hx
  | handOver hx => exact h.handOver hx
  | setEventID hx => exact h.setEventID hx
  | @restart startTime => exact h.restart startTime halone

end

theorem ordered_init (startTime : ℤ) (dbid : ℕ) : Ordered (init startTime dbid) where
  dbid _ he := absurd he List.not_mem_nil
  growing := .nil
  fresh _ hx := absurd hx List.not_mem_nil
  user _ hx := absurd hx List.not_mem_nil
  saved _ hd := absurd hd (Option.some_ne_none _).symm
  handed _ hg := absurd hg List.not_mem_nil
  kept _ _ _ hg := absurd hg List.not_mem_nil
  executions _ hx := absurd hx List.not_mem_nil
  single _ hx := absurd hx List.not_mem_nil
  unseen _ hx := absurd hx List.not_mem_nil
  inOrder _ _ := .nil

/-- Where no two executions for a user overlap. -/
theorem handed_over_once {endpoint : Text} {startTime : ℤ} {dbid : ℕ}
    {ls : List Label} {s : State}
    (hcream : Meets (next endpoint) truthful (init startTime dbid) ls)
    (hok : Meets (next endpoint) (fun s l => careful s l ∧ alone s l)
      (init startTime dbid) ls)
    (hrun : run (next endpoint) (init startTime dbid) ls = some s) : InOrder s := by
  have hboth : Meets (next endpoint)
      (fun s l => truthful s l ∧ careful s l ∧ alone s l) (init startTime dbid) ls :=
    fun p hp => ⟨hcream p hp, hok p hp⟩
  have hordered : Ordered s := run_invariant
    (fun _ _ _ hs hl hn => ordered_next hs hl.1 hl.2 hn)
    (ordered_init startTime dbid) hboth hrun
  exact hordered.inOrder

theorem handed_over_once_scratched :
    ∃ s, run (next ['c']) (init 0 1) scratched = some s ∧ InOrder s := by
  obtain ⟨s, hs⟩ := Option.isSome_iff_exists.mp scratched_enabled
  have hok : ∀ p ∈ steps (next ['c']) (init 0 1) scratched,
      careful p.1 p.2 ∧ alone p.1 p.2 := by
    decide +kernel
  exact ⟨s, hs, handed_over_once scratched_truthful hok hs⟩

end Wms.Ice.EventQuery
