import Wms.Ice.EventQuery

/-!
# No event of a job is passed over

The id that is kept is a promise: the events before it have been handed over.
Whoever reads it takes the promise over, adds to it what the answer has, and
writes it back with the id behind the answer. An answer is without a gap. So the
promise is kept even if an execution writes back an id that is behind what another
has written.

A promise is about one data base. As long as the one that ICE knows is not the one
CREAM has, there is nothing to keep, and it can only get to be the same where no
data base was known, with all ids still zero, or in the two transactions that set
back the ids. These are why the runs have to be careful: an execution that has read
an id before and asks after them would be promised too much.

Executions for a user that come one after the other also hand over once.
-/

namespace Wms.Ice.EventQuery

open Wms.Lib

/-! ## Answers -/

section
variable {events : List Event} {e : Event}

theorem lastId_snoc : lastId (events ++ [e]) = max (lastId events) e.id := by
  rw [lastId, List.foldl_append]
  rfl

theorem le_lastId (h : e ∈ events) : e.id ≤ lastId events := by
  induction events using List.reverseRecOn with
  | nil => cases h
  | append_singleton events e' ih =>
      rw [lastId_snoc]
      rcases List.mem_append.mp h with h | h
      · exact Nat.le_trans (ih h) (Nat.le_max_left _ _)
      · rw [List.mem_singleton.mp h]
        exact Nat.le_max_right _ _

theorem lastId_mem (h : events ≠ []) : ∃ e ∈ events, e.id = lastId events := by
  induction events using List.reverseRecOn with
  | nil => exact absurd rfl h
  | append_singleton events e' ih =>
      rw [lastId_snoc]
      by_cases hnil : events = []
      · refine ⟨e', List.mem_append_right _ (List.mem_singleton.mpr rfl), ?_⟩
        rw [hnil]
        exact (Nat.zero_max _).symm
      · obtain ⟨e, he, hid⟩ := ih hnil
        rcases Nat.le_total e'.id (lastId events) with hle | hle
        · exact ⟨e, List.mem_append_left _ he, by rw [hid, Nat.max_eq_left hle]⟩
        · exact ⟨e', List.mem_append_right _ (List.mem_singleton.mpr rfl),
            (Nat.max_eq_right hle).symm⟩

end

/-! ## The promise -/

section
variable {endpoint userDN : Text} {s s' : State} {id : ℕ} {e : Event} {p : Phase}

/-- All before an id has been handed over, and CREAM has got as far. -/
def Promised (endpoint : Text) (s : State) (userDN : Text) (id : ℕ) : Prop :=
  (∀ e ∈ s.events, e.userDN = userDN → e.id < id → Covered endpoint s e) ∧
    (id = 0 ∨ ∃ e ∈ s.events, e.id + 1 = id)

/-- The promise is made for the data base that is known. -/
structure Kept (endpoint : Text) (s : State) (userDN : Text) (id : ℕ) : Prop where
  unknown : s.savedDbid = none → id = 0
  known : s.savedDbid = some s.dbid → Promised endpoint s userDN id

/-- An answer of the data base that is there, which may be used. -/
structure Answered (endpoint : Text) (s : State) (userDN : Text)
    (answer : List Event) : Prop where
  mem : ∀ e ∈ answer, e ∈ s.events
  whole : ∀ e ∈ s.events, e.userDN = userDN → ∀ e' ∈ answer, e.id ≤ e'.id →
    Covered endpoint s e ∨ e ∈ answer

/-- What has still to be handed over. -/
structure Left (endpoint : Text) (s : State) (userDN : Text)
    (groups : List (Text × List Event)) (last : ℕ) : Prop where
  mem : ∃ e ∈ s.events, e.id = last
  whole : ∀ e ∈ s.events, e.userDN = userDN → e.id ≤ last →
    Covered endpoint s e ∨ ∃ g ∈ groups, g.1 = e.creamJobid endpoint ∧ e ∈ g.2

/-- The promise an execution makes. -/
def Phase.promised (endpoint : Text) (s : State) (userDN : Text) : Phase → Prop
  | .inserting => True
  | .asking start => Kept endpoint s userDN start
  | .checking dbid answer | .recording dbid answer => dbid ≤ s.dbid ∧
      (dbid = s.dbid → s.savedDbid = none ∨ s.savedDbid = some s.dbid →
        Answered endpoint s userDN answer)
  | .replacing dbid => dbid ≤ s.dbid
  | .resetting => True
  | .processing groups last => s.savedDbid ≠ none ∧
      (s.savedDbid = some s.dbid → Left endpoint s userDN groups last)

structure Inv (endpoint : Text) (s : State) : Prop where
  growing : Growing s.events
  saved : ∀ dbid, s.savedDbid = some dbid → dbid ≤ s.dbid
  kept : Quiet s → ∀ userDN id, s.eventId userDN = some id → Kept endpoint s userDN id
  executions : ∀ x ∈ s.executions.rows, x.phase.promised endpoint s x.userDN
  single : ∀ x ∈ s.executions.rows, x.phase = .resetting →
    ∀ y ∈ s.executions.rows, y = x

/-- Who sets back the ids has no other beside it. -/
theorem Inv.quiet (h : Inv endpoint s) {x : Execution} (hx : x ∈ s.executions.rows)
    (hphase : x.phase ≠ .resetting) : Quiet s := by
  intro y hy hreset
  rw [h.single y hy hreset x hx] at hphase
  exact hphase hreset

/-- More has been handed over. -/
structure Extends (s s' : State) : Prop where
  dbid : s'.dbid = s.dbid
  events : s'.events = s.events
  savedDbid : s'.savedDbid = s.savedDbid
  handed : s.handed ⊆ s'.handed
  omitted : s.omitted ⊆ s'.omitted

/-- Nothing has been handed over. -/
theorem Extends.same (startTime : ℤ) (eventId : Text → Option ℕ) (count : ℕ)
    (executions : Table Execution.number) : Extends s { s with
      startTime := startTime
      eventId := eventId
      count := count
      executions := executions } :=
  ⟨rfl, rfl, rfl, List.Subset.refl _, List.Subset.refl _⟩

theorem Covered.mono (h : Covered endpoint s e) (hext : Extends s s') :
    Covered endpoint s' e := by
  rcases h with ⟨g, hg, hjob, he⟩ | h
  · exact .inl ⟨g, hext.handed hg, hjob, he⟩
  · exact .inr (hext.omitted h)

theorem Promised.mono (h : Promised endpoint s userDN id) (hext : Extends s s') :
    Promised endpoint s' userDN id := by
  obtain ⟨hcovered, hreached⟩ := h
  rw [Promised, hext.events]
  exact ⟨fun e he huser hid => (hcovered e he huser hid).mono hext, hreached⟩

theorem Kept.mono (h : Kept endpoint s userDN id) (hext : Extends s s') :
    Kept endpoint s' userDN id := by
  constructor
  · rw [hext.savedDbid]
    exact h.unknown
  · rw [hext.savedDbid, hext.dbid]
    exact fun hs => (h.known hs).mono hext

theorem Phase.promised_mono (h : p.promised endpoint s userDN) (hext : Extends s s') :
    p.promised endpoint s' userDN := by
  cases p with
  | inserting => trivial
  | asking start => exact Kept.mono h hext
  | checking dbid answer | recording dbid answer =>
      rw [Phase.promised, hext.savedDbid, hext.dbid]
      refine ⟨h.1, fun hdbid hs => ?_⟩
      obtain ⟨hmem, hwhole⟩ := h.2 hdbid hs
      rw [← hext.events] at hmem hwhole
      exact ⟨hmem, fun e he huser e' he' hid =>
        (hwhole e he huser e' he' hid).imp_left (·.mono hext)⟩
  | replacing dbid =>
      rw [Phase.promised, hext.dbid]
      exact h
  | resetting => trivial
  | processing groups last =>
      rw [Phase.promised, hext.savedDbid, hext.dbid]
      refine ⟨h.1, fun hs => ?_⟩
      obtain ⟨hmem, hwhole⟩ := h.2 hs
      rw [← hext.events] at hmem hwhole
      exact ⟨hmem, fun e he huser hid =>
        (hwhole e he huser hid).imp_left (·.mono hext)⟩

theorem kept_zero : Kept endpoint s userDN 0 :=
  ⟨fun _ => rfl, fun _ => ⟨fun _ _ _ hid => absurd hid (Nat.not_lt_zero _), .inl rfl⟩⟩

/-! ## What CREAM does -/

/-- A new event is behind all that is promised. -/
theorem kept_happen (h : Kept endpoint s userDN id)
    (hnew : ∀ e' ∈ s.events, e'.id < e.id) :
    Kept endpoint { s with events := s.events ++ [e] } userDN id := by
  refine ⟨h.unknown, fun hs => ?_⟩
  obtain ⟨hcovered, hreached⟩ := h.known hs
  constructor
  · intro e' he' huser hid
    rcases List.mem_append.mp he' with he' | he'
    · exact hcovered e' he' huser hid
    · obtain rfl := List.mem_singleton.mp he'
      rcases hreached with rfl | ⟨e₀, he₀, rfl⟩
      · exact absurd hid (Nat.not_lt_zero _)
      · have hlt := hnew e₀ he₀
        omega
  · exact hreached.imp_right fun ⟨e₀, he₀, hid⟩ =>
      ⟨e₀, List.mem_append_left _ he₀, hid⟩

theorem phase_happen (h : p.promised endpoint s userDN)
    (hnew : ∀ e' ∈ s.events, e'.id < e.id) :
    p.promised endpoint { s with events := s.events ++ [e] } userDN := by
  cases p with
  | inserting => trivial
  | asking start => exact kept_happen h hnew
  | checking dbid answer | recording dbid answer =>
      refine ⟨h.1, fun hdbid hs => ?_⟩
      obtain ⟨hmem, hwhole⟩ := h.2 hdbid hs
      refine ⟨fun e' he' => List.mem_append_left _ (hmem e' he'), ?_⟩
      intro e₁ he₁ huser e₂ he₂ hid
      rcases List.mem_append.mp he₁ with he₁ | he₁
      · exact hwhole e₁ he₁ huser e₂ he₂ hid
      · obtain rfl := List.mem_singleton.mp he₁
        exact absurd hid (Nat.not_le_of_lt (hnew e₂ (hmem e₂ he₂)))
  | replacing dbid => exact h
  | resetting => trivial
  | processing groups last =>
      refine ⟨h.1, fun hs => ?_⟩
      obtain ⟨⟨e₀, he₀, rfl⟩, hwhole⟩ := h.2 hs
      refine ⟨⟨e₀, List.mem_append_left _ he₀, rfl⟩, fun e₁ he₁ huser hid => ?_⟩
      rcases List.mem_append.mp he₁ with he₁ | he₁
      · exact hwhole e₁ he₁ huser hid
      · obtain rfl := List.mem_singleton.mp he₁
        exact absurd hid (Nat.not_le_of_lt (hnew e₀ he₀))

theorem Inv.happen (h : Inv endpoint s) (hnew : ∀ e' ∈ s.events, e'.id < e.id) :
    Inv endpoint { s with events := s.events ++ [e] } where
  growing := by
    refine List.pairwise_append.mpr ⟨h.growing, List.pairwise_singleton _ _, ?_⟩
    intro e' he' e'' he''
    rw [List.mem_singleton.mp he'']
    exact hnew e' he'
  saved := h.saved
  kept hquiet userDN id hid := kept_happen (h.kept hquiet userDN id hid) hnew
  executions x hx := phase_happen (h.executions x hx) hnew
  single := h.single

/-- The data base that is known is not the new one, and nothing is promised. -/
theorem Inv.scratch (h : Inv endpoint s) {dbid : ℕ} (hdbid : s.dbid < dbid) :
    Inv endpoint { s with dbid := dbid, events := [] } := by
  have hsaved : s.savedDbid ≠ some dbid := fun hs =>
    absurd (h.saved dbid hs) (Nat.not_le_of_lt hdbid)
  refine ⟨.nil, fun d hd => ?_, fun hquiet userDN id hid => ?_, fun x hx => ?_,
    h.single⟩
  · exact Nat.le_trans (h.saved d hd) (Nat.le_of_lt hdbid)
  · exact ⟨(h.kept hquiet userDN id hid).unknown, fun hs => absurd hs hsaved⟩
  · have hphase := h.executions x hx
    cases hp : x.phase with
    | inserting => trivial
    | asking start =>
        rw [hp] at hphase
        exact ⟨hphase.unknown, fun hs => absurd hs hsaved⟩
    | checking d answer | recording d answer =>
        rw [hp] at hphase
        have hlt : d < dbid := Nat.lt_of_le_of_lt hphase.1 hdbid
        exact ⟨Nat.le_of_lt hlt, fun hd => absurd hd (Nat.ne_of_lt hlt)⟩
    | replacing d =>
        rw [hp] at hphase
        exact Nat.le_trans hphase (Nat.le_of_lt hdbid)
    | resetting => trivial
    | processing groups last =>
        rw [hp] at hphase
        exact ⟨hphase.1, fun hs => absurd hs hsaved⟩

/-! ## What an execution does -/

/-- Executions start, go on and end while no ids are set back. -/
theorem Inv.moves (h : Inv endpoint s) (hquiet : Quiet s) (hext : Extends s s')
    (hid : s'.eventId = s.eventId)
    (hrows : ∀ x ∈ s'.executions.rows, x ∈ s.executions.rows ∨
      x.phase ≠ .resetting ∧ x.phase.promised endpoint s' x.userDN) :
    Inv endpoint s' := by
  have hquiet' : Quiet s' := by
    intro x hx
    rcases hrows x hx with hx | ⟨hphase, -⟩
    · exact hquiet x hx
    · exact hphase
  refine ⟨?_, ?_, fun _ userDN id hs' => ?_, fun x hx => ?_, fun x hx hreset => ?_⟩
  · rw [hext.events]
    exact h.growing
  · rw [hext.savedDbid, hext.dbid]
    exact h.saved
  · rw [hid] at hs'
    exact (h.kept hquiet userDN id hs').mono hext
  · rcases hrows x hx with hx | ⟨-, hphase⟩
    · exact Phase.promised_mono (h.executions x hx) hext
    · exact hphase
  · exact absurd hreset (hquiet' x hx)

/-- One execution goes on. -/
theorem Inv.goes (h : Inv endpoint s) (hquiet : Quiet s) {x : Execution}
    (hext : Extends s s') (hid : s'.eventId = s.eventId)
    (hrows : s'.executions = s.executions.put x) (hreset : x.phase ≠ .resetting)
    (hx : x.phase.promised endpoint s' x.userDN) : Inv endpoint s' := by
  refine h.moves hquiet hext hid fun y hy => ?_
  rw [hrows] at hy
  rcases Table.mem_put.mp hy with ⟨hy, -⟩ | rfl
  · exact .inl hy
  · exact .inr ⟨hreset, hx⟩

theorem Inv.ends (h : Inv endpoint s) (hquiet : Quiet s) {number : ℕ} :
    Inv endpoint { s with executions := s.executions.delete number } :=
  h.moves hquiet (.same _ _ _ _) rfl fun _ hy =>
    .inl (Table.mem_delete.mp hy).1

/-- The answer is added to the promise. -/
theorem Inv.ask (h : Inv endpoint s) (hquiet : Quiet s) {number start dbid : ℕ}
    {answer : List Event} (hstart : Kept endpoint s userDN start)
    (hreply : Reply s userDN start dbid answer) :
    Inv endpoint (ask s number userDN start dbid answer) := by
  have hext : Extends s (EventQuery.ask s number userDN start dbid answer) :=
    ⟨rfl, rfl, rfl, fun _ => id, List.subset_append_left _ _⟩
  refine h.goes hquiet hext rfl rfl (by simp)
    ⟨Nat.le_of_eq hreply.current, fun _ hs => ?_⟩
  refine ⟨fun e he => (hreply.real e he).1, fun e he huser e' he' hid => ?_⟩
  have hpromised : Promised endpoint s userDN start := by
    rcases hs with hs | hs
    · rw [hstart.unknown hs]
      exact ⟨fun _ _ _ hid => absurd hid (Nat.not_lt_zero _), .inl rfl⟩
    · exact hstart.known hs
  by_cases hlt : e.id < start
  · exact .inl ((hpromised.1 e he huser hlt).mono hext)
  · rcases hreply.gapless e he huser (Nat.le_of_not_lt hlt) ⟨e', he', hid⟩ with
      hin | homit
    · exact .inr hin
    · refine .inl (.inr (List.mem_append_right _ ?_))
      rw [List.mem_filter, homit]
      exact ⟨he, by simpa using huser⟩

/-- The groups have the events of the answer. -/
theorem Answered.left {answer : List Event} (h : Answered endpoint s userDN answer)
    (hne : answer ≠ []) :
    Left endpoint s userDN (mappedEvents endpoint answer).entries (lastId answer) := by
  obtain ⟨e', he', hid'⟩ := lastId_mem hne
  refine ⟨⟨e', h.mem e' he', hid'⟩, fun e he huser hid => ?_⟩
  rcases h.whole e he huser e' he' (hid' ▸ hid) with hc | hin
  · exact .inl hc
  · obtain ⟨g, hg, heg⟩ := exists_group (·.creamJobid endpoint) hin
    exact .inr ⟨_, hg, rfl, heg⟩

theorem Inv.process (h : Inv endpoint s) (hquiet : Quiet s) {number dbid : ℕ}
    {answer : List Event} (hsaved : s.savedDbid = some dbid)
    (hanswer : dbid = s.dbid → Answered endpoint s userDN answer) :
    Inv endpoint (process endpoint s number userDN answer) := by
  rw [EventQuery.process]
  split
  next => exact h.ends hquiet
  next hne =>
      have hext : Extends s { s with executions := s.executions.put ⟨number, userDN,
          .processing (mappedEvents endpoint answer).entries (lastId answer)⟩ } :=
        .same _ _ _ _
      refine h.goes hquiet hext rfl rfl (by simp) ⟨?_, fun hs => ?_⟩
      · rw [hsaved]
        exact Option.some_ne_none _
      · have hdbid : dbid = s.dbid := Option.some.inj (hsaved.symm.trans hs)
        have hleft := (hanswer hdbid).left fun hnil => hne (List.isEmpty_iff.mpr hnil)
        exact ⟨hleft.mem, hleft.whole⟩

/-- The first answer says which data base is known. Up to then all ids are zero. -/
theorem Inv.first (h : Inv endpoint s) {dbid : ℕ} (hsaved : s.savedDbid = none)
    (hdbid : dbid ≤ s.dbid) : Inv endpoint { s with savedDbid := some dbid } := by
  refine ⟨h.growing, ?_, fun hquiet userDN id hid => ?_, fun x hx => ?_, h.single⟩
  · rintro d ⟨⟩
    exact hdbid
  · rw [(h.kept hquiet userDN id hid).unknown hsaved]
    exact kept_zero
  · have hphase := h.executions x hx
    cases hp : x.phase with
    | inserting => trivial
    | asking start =>
        rw [hp] at hphase
        rw [Phase.promised, hphase.unknown hsaved]
        exact kept_zero
    | checking d answer | recording d answer =>
        rw [hp] at hphase
        refine ⟨hphase.1, fun hd _ => ?_⟩
        obtain ⟨hmem, hwhole⟩ := hphase.2 hd (.inl hsaved)
        exact ⟨hmem, hwhole⟩
    | replacing d =>
        rw [hp] at hphase
        exact hphase
    | resetting => trivial
    | processing groups last =>
        rw [hp] at hphase
        exact absurd hsaved hphase.1

/-- The ids are about to be set back. -/
theorem Inv.mismatch (h : Inv endpoint s) {x : Execution} {dbid : ℕ}
    (hdbid : dbid ≤ s.dbid) (hx : ∀ y ∈ s.executions.rows, y.number = x.number)
    (hphase : x.phase = .resetting) :
    Inv endpoint { s with
      savedDbid := some dbid
      executions := s.executions.put x } := by
  have hrows : ∀ y ∈ (s.executions.put x).rows, y = x := by
    intro y hy
    rcases Table.mem_put.mp hy with ⟨hy, hne⟩ | rfl
    · exact absurd (hx y hy) hne
    · rfl
  refine ⟨h.growing, ?_, fun hquiet => ?_, fun y hy => ?_, fun y hy _ z hz => ?_⟩
  · rintro d ⟨⟩
    exact hdbid
  · exact absurd hphase (hquiet x (Table.mem_put.mpr (.inr rfl)))
  · rw [hrows y hy, hphase]
    trivial
  · rw [hrows y hy, hrows z hz]

theorem Inv.getDbID (h : Inv endpoint s) {number dbid : ℕ} {answer : List Event}
    (hx : ⟨number, userDN, .checking dbid answer⟩ ∈ s.executions.rows) :
    Inv endpoint (getDbID endpoint s number userDN dbid answer) := by
  have hquiet : Quiet s := h.quiet hx (by simp)
  have hphase := h.executions _ hx
  obtain ⟨hdbid, hanswer⟩ := hphase
  rw [EventQuery.getDbID]
  split
  next =>
      have hext := Extends.same (s := s) s.startTime s.eventId s.count
        (s.executions.put ⟨number, userDN, .recording dbid answer⟩)
      exact h.goes hquiet hext rfl rfl (by simp)
        (Phase.promised_mono (p := .recording dbid answer) ⟨hdbid, hanswer⟩ hext)
  next olddbid hsaved =>
      split
      next heq =>
          subst heq
          exact h.process hquiet hsaved fun hd => hanswer hd (.inr (hd ▸ hsaved))
      next => exact h.goes hquiet (.same _ _ _ _) rfl rfl (by simp) hdbid

/-- The data base is written where none was known, or has been since. -/
theorem Inv.record (h : Inv endpoint s) {number dbid : ℕ} {answer : List Event}
    (hx : ⟨number, userDN, .recording dbid answer⟩ ∈ s.executions.rows)
    (hok : careful s (.setDbID number)) :
    Inv endpoint (EventQuery.process endpoint { s with savedDbid := some dbid } number
      userDN answer) := by
  have hquiet : Quiet s := h.quiet hx (by simp)
  obtain ⟨hdbid, hanswer⟩ := h.executions _ hx
  rcases (hok _ hx rfl).1 dbid rfl with hsaved | hsaved
  · refine (h.first hsaved hdbid).process hquiet rfl fun hd => ?_
    obtain ⟨hmem, hwhole⟩ := hanswer hd (.inl hsaved)
    exact ⟨hmem, hwhole⟩
  · rw [← hsaved]
    exact h.process hquiet hsaved fun hd => hanswer hd (.inr (hd ▸ hsaved))

theorem Inv.setEventIDForCE (h : Inv endpoint s) {number : ℕ}
    (hx : ⟨number, userDN, .resetting⟩ ∈ s.executions.rows) :
    Inv endpoint { s with
      eventId := fun userDN => (s.eventId userDN).map fun _ => 0
      executions := s.executions.delete number } := by
  have hrows : ∀ y, y ∉ (s.executions.delete number).rows := by
    intro y hy
    obtain ⟨hy, hne⟩ := Table.mem_delete.mp hy
    rw [h.single _ hx rfl y hy] at hne
    exact hne rfl
  refine ⟨h.growing, h.saved, fun _ u id hid => ?_, fun y hy => absurd hy (hrows y),
    fun y hy => absurd hy (hrows y)⟩
  obtain ⟨_, -, rfl⟩ := Option.map_eq_some_iff.mp hid
  exact kept_zero

/-- An id is written. -/
theorem Inv.writes (h : Inv endpoint s) (hkept : Kept endpoint s userDN id) :
    Inv endpoint { s with
      eventId := Function.update s.eventId userDN (some id) } := by
  have hext : Extends s { s with
      eventId := Function.update s.eventId userDN (some id) } :=
    .same _ _ _ _
  refine ⟨h.growing, h.saved, fun hquiet u n hn => Kept.mono ?_ hext,
    fun x hx => Phase.promised_mono (h.executions x hx) hext, h.single⟩
  replace hn : Function.update s.eventId userDN (some id) u = some n := hn
  by_cases hu : u = userDN
  · subst hu
    rw [Function.update_self] at hn
    rw [← Option.some.inj hn]
    exact hkept
  · rw [Function.update_of_ne hu] at hn
    exact h.kept hquiet u n hn

theorem Inv.insertEventID (h : Inv endpoint s) {number : ℕ}
    (hx : ⟨number, userDN, .inserting⟩ ∈ s.executions.rows) :
    Inv endpoint { s with
      eventId := Function.update s.eventId userDN (some 0)
      executions := s.executions.put ⟨number, userDN, .asking 0⟩ } := by
  have hgoes : Inv endpoint { s with
      executions := s.executions.put ⟨number, userDN, .asking 0⟩ } :=
    h.goes (h.quiet hx (by simp)) (.same _ _ _ _) rfl rfl (by simp) kept_zero
  exact hgoes.writes kept_zero

theorem Inv.handOver (h : Inv endpoint s) {number last : ℕ} {g : Text × List Event}
    {groups : List (Text × List Event)}
    (hx : ⟨number, userDN, .processing (g :: groups) last⟩ ∈ s.executions.rows) :
    Inv endpoint { s with
      executions := s.executions.put ⟨number, userDN, .processing groups last⟩
      handed := s.handed ++ [g] } := by
  have hext : Extends s { s with
      executions := s.executions.put ⟨number, userDN, .processing groups last⟩
      handed := s.handed ++ [g] } :=
    ⟨rfl, rfl, rfl, List.subset_append_left _ _, fun _ => id⟩
  obtain ⟨hsaved, hleft⟩ := h.executions _ hx
  refine h.goes (h.quiet hx (by simp)) hext rfl rfl (by simp) ⟨hsaved, fun hs => ?_⟩
  obtain ⟨hmem, hwhole⟩ := hleft hs
  refine ⟨hmem, fun e he huser hid => ?_⟩
  rcases hwhole e he huser hid with hc | ⟨g', hg', hjob, heg⟩
  · exact .inl (hc.mono hext)
  · rcases List.mem_cons.mp hg' with rfl | hg'
    · exact .inl (.inl ⟨g', List.mem_append_right _ (List.mem_singleton.mpr rfl),
        hjob, heg⟩)
    · exact .inr ⟨g', hg', hjob, heg⟩

theorem Left.kept {last : ℕ} (h : Left endpoint s userDN [] last) :
    Promised endpoint s userDN (last + 1) := by
  obtain ⟨⟨e₀, he₀, rfl⟩, hwhole⟩ := h
  refine ⟨fun e he huser hid => ?_, .inr ⟨e₀, he₀, rfl⟩⟩
  rcases hwhole e he huser (Nat.le_of_lt_succ hid) with hc | ⟨g, hg, -⟩
  · exact hc
  · cases hg

theorem row_of_find? {number : ℕ} {x : Execution}
    (h : s.executions.find? number = some x) :
    ⟨number, x.userDN, x.phase⟩ ∈ s.executions.rows := by
  obtain ⟨hrow, hnum⟩ := Table.find?_eq_some_iff.mp h
  subst hnum
  exact hrow

/-- What a step can do, by the row of the execution that makes it. -/
inductive Goes (endpoint : Text) (s : State) : Label → State → Prop where
  | happen {e : Event} : Goes endpoint s (.happen e) { s with events := s.events ++ [e] }
  | scratch {dbid : ℕ} :
      Goes endpoint s (.scratch dbid) { s with dbid := dbid, events := [] }
  | inserts {userDN : Text} (hid : s.eventId userDN = none) :
      Goes endpoint s (.getEventID userDN) { s with
        count := s.count + 1
        executions := s.executions.put ⟨s.count, userDN, .inserting⟩ }
  | asks {userDN : Text} {start : ℕ} (hid : s.eventId userDN = some start) :
      Goes endpoint s (.getEventID userDN) { s with
        count := s.count + 1
        executions := s.executions.put ⟨s.count, userDN, .asking start⟩ }
  | insertEventID {number : ℕ} {userDN : Text}
      (hx : ⟨number, userDN, .inserting⟩ ∈ s.executions.rows) :
      Goes endpoint s (.insertEventID number) { s with
        eventId := Function.update s.eventId userDN (some 0)
        executions := s.executions.put ⟨number, userDN, .asking 0⟩ }
  | giveUp {number start : ℕ} {userDN : Text}
      (hx : ⟨number, userDN, .asking start⟩ ∈ s.executions.rows) :
      Goes endpoint s (.giveUp number) { s with
        executions := s.executions.delete number }
  | query {number start dbid : ℕ} {events : List Event} {userDN : Text}
      (hx : ⟨number, userDN, .asking start⟩ ∈ s.executions.rows) :
      Goes endpoint s (.query number dbid events) (ask s number userDN start dbid events)
  | getDbID {number dbid : ℕ} {events : List Event} {userDN : Text}
      (hx : ⟨number, userDN, .checking dbid events⟩ ∈ s.executions.rows) :
      Goes endpoint s (.getDbID number) (getDbID endpoint s number userDN dbid events)
  | records {number dbid : ℕ} {events : List Event} {userDN : Text}
      (hx : ⟨number, userDN, .recording dbid events⟩ ∈ s.executions.rows) :
      Goes endpoint s (.setDbID number)
        (process endpoint { s with savedDbid := some dbid } number userDN events)
  | replaces {number dbid : ℕ} {userDN : Text}
      (hx : ⟨number, userDN, .replacing dbid⟩ ∈ s.executions.rows) :
      Goes endpoint s (.setDbID number) { s with
        savedDbid := some dbid
        executions := s.executions.put ⟨number, userDN, .resetting⟩ }
  | setEventIDForCE {number : ℕ} {userDN : Text}
      (hx : ⟨number, userDN, .resetting⟩ ∈ s.executions.rows) :
      Goes endpoint s (.setEventIDForCE number) { s with
        eventId := fun userDN => (s.eventId userDN).map fun _ => 0
        executions := s.executions.delete number }
  | handOver {number last : ℕ} {userDN : Text} {g : Text × List Event}
      {groups : List (Text × List Event)}
      (hx : ⟨number, userDN, .processing (g :: groups) last⟩ ∈ s.executions.rows) :
      Goes endpoint s (.handOver number) { s with
        executions := s.executions.put ⟨number, userDN, .processing groups last⟩
        handed := s.handed ++ [g] }
  | setEventID {number last : ℕ} {userDN : Text}
      (hx : ⟨number, userDN, .processing [] last⟩ ∈ s.executions.rows) :
      Goes endpoint s (.setEventID number) { s with
        eventId := Function.update s.eventId userDN (some (last + 1))
        executions := s.executions.delete number }
  | restart {startTime : ℤ} : Goes endpoint s (.restart startTime) { s with
      startTime := startTime
      executions := .empty }

theorem goes_of_next {l : Label} (hn : next endpoint s l = some s') :
    Goes endpoint s l s' := by
  cases l with
  | happen e =>
      obtain rfl := Option.some.inj hn
      exact .happen
  | scratch dbid =>
      obtain rfl := Option.some.inj hn
      exact .scratch
  | getEventID userDN =>
      obtain rfl := Option.some.inj hn
      cases hid : s.eventId userDN with
      | none => exact .inserts hid
      | some start => exact .asks hid
  | insertEventID number =>
      rw [next] at hn
      split at hn
      next hx =>
          obtain rfl := Option.some.inj hn
          exact .insertEventID (row_of_find? hx)
      next => cases hn
  | giveUp number =>
      rw [next] at hn
      split at hn
      next hx =>
          obtain rfl := Option.some.inj hn
          exact .giveUp (row_of_find? hx)
      next => cases hn
  | query number dbid events =>
      rw [next] at hn
      split at hn
      next hx =>
          obtain rfl := Option.some.inj hn
          exact .query (row_of_find? hx)
      next => cases hn
  | getDbID number =>
      rw [next] at hn
      split at hn
      next hx =>
          obtain rfl := Option.some.inj hn
          exact .getDbID (row_of_find? hx)
      next => cases hn
  | setDbID number =>
      rw [next] at hn
      split at hn
      next hx =>
          obtain rfl := Option.some.inj hn
          exact .records (row_of_find? hx)
      next hx =>
          obtain rfl := Option.some.inj hn
          exact .replaces (row_of_find? hx)
      next => cases hn
  | setEventIDForCE number =>
      rw [next] at hn
      split at hn
      next hx =>
          obtain rfl := Option.some.inj hn
          exact .setEventIDForCE (row_of_find? hx)
      next => cases hn
  | handOver number =>
      rw [next] at hn
      split at hn
      next hx =>
          obtain rfl := Option.some.inj hn
          exact .handOver (row_of_find? hx)
      next => cases hn
  | setEventID number =>
      rw [next] at hn
      split at hn
      next hx =>
          obtain rfl := Option.some.inj hn
          exact .setEventID (row_of_find? hx)
      next => cases hn
  | restart startTime =>
      obtain rfl := Option.some.inj hn
      exact .restart

theorem inv_next {l : Label} (h : Inv endpoint s) (hcream : truthful s l)
    (hok : careful s l) (hn : next endpoint s l = some s') : Inv endpoint s' := by
  cases goes_of_next hn with
  | happen => exact h.happen hcream.2
  | scratch => exact h.scratch hcream
  | inserts hid => exact h.goes hok (.same _ _ _ _) rfl rfl (by simp) trivial
  | @asks userDN start hid =>
      have hext := Extends.same (s := s) s.startTime s.eventId (s.count + 1)
        (s.executions.put ⟨s.count, userDN, .asking start⟩)
      exact h.goes hok hext rfl rfl (by simp) ((h.kept hok userDN start hid).mono hext)
  | insertEventID hx => exact h.insertEventID hx
  | giveUp hx => exact h.ends (h.quiet hx (by simp))
  | query hx =>
      exact h.ask (h.quiet hx (by simp)) (h.executions _ hx) (hcream _ hx rfl _ rfl)
  | getDbID hx => exact h.getDbID hx
  | records hx => exact h.record hx hok
  | replaces hx => exact h.mismatch (h.executions _ hx) ((hok _ hx rfl).2 rfl) rfl
  | setEventIDForCE hx => exact h.setEventIDForCE hx
  | handOver hx => exact h.handOver hx
  | setEventID hx =>
      obtain ⟨hsaved, hleft⟩ := h.executions _ hx
      exact (h.ends (h.quiet hx (by simp))).writes
        ⟨fun hs => absurd hs hsaved, fun hs => (hleft hs).kept⟩
  | restart =>
      exact h.moves hok (.same _ _ _ _) rfl fun _ hx => absurd hx List.not_mem_nil

end

theorem inv_init (endpoint : Text) (startTime : ℤ) (dbid : ℕ) :
    Inv endpoint (init startTime dbid) :=
  ⟨.nil, fun _ hd => absurd hd (Option.some_ne_none _).symm,
    fun _ _ _ hid => absurd hid (Option.some_ne_none _).symm,
    fun _ hx => absurd hx List.not_mem_nil, fun _ hx => absurd hx List.not_mem_nil⟩

/-- However executions interleave, wherever the process ends and as often as CREAM is
scratched. -/
theorem nothing_passed_over {endpoint : Text} {startTime : ℤ} {dbid : ℕ}
    {ls : List Label} {s : State}
    (hcream : Meets (next endpoint) truthful (init startTime dbid) ls)
    (hok : Meets (next endpoint) careful (init startTime dbid) ls)
    (hrun : run (next endpoint) (init startTime dbid) ls = some s) :
    Complete endpoint s := by
  have hboth : Meets (next endpoint) (fun s l => truthful s l ∧ careful s l)
      (init startTime dbid) ls := fun p hp => ⟨hcream p hp, hok p hp⟩
  have hinv : Inv endpoint s := run_invariant
    (fun _ _ _ hs hl hn => inv_next hs hl.1 hl.2 hn)
    (inv_init endpoint startTime dbid) hboth hrun
  intro hquiet hsaved e he id hid hlt
  exact ((hinv.kept hquiet e.userDN id hid).known hsaved).1 e he rfl hlt

/-! ### A run in which CREAM is scratched -/

/-- An event of the one job a user has. -/
def event (dbid id : ℕ) (userDN : Text) : Event := ⟨dbid, id, userDN, userDN, 0⟩

/-- What is done with an event of the data base that is known. -/
def used (number : ℕ) : List Label := [.handOver number, .setEventID number]

/-- The first executions of two users, both of which find no data base, then the end
of the process and a next start. CREAM is scratched, one of the users finds that out,
and is given the event of the new data base when it asks again. -/
def scratched : List Label :=
  [.happen (event 1 3 ['u']), .happen (event 1 4 ['v']), .getEventID ['u'],
    .getEventID ['v'], .insertEventID 0, .insertEventID 1,
    .query 0 1 [event 1 3 ['u']], .query 1 1 [event 1 4 ['v']], .getDbID 0, .getDbID 1,
    .setDbID 0, .setDbID 1] ++ used 0 ++ used 1 ++
    [.restart 0, .scratch 2, .happen (event 2 0 ['u']), .getEventID ['u'],
      .query 2 2 [], .getDbID 2, .setDbID 2, .setEventIDForCE 2, .getEventID ['u'],
      .query 3 2 [event 2 0 ['u']], .getDbID 3] ++ used 3

theorem scratched_enabled :
    (run (next ['c']) (init 0 1) scratched).isSome = true := by
  decide +kernel

theorem scratched_truthful : Meets (next ['c']) truthful (init 0 1) scratched := by
  have hall : ∀ p ∈ steps (next ['c']) (init 0 1) scratched, truthful p.1 p.2 := by
    decide +kernel
  exact hall

theorem nothing_passed_over_scratched :
    ∃ s, run (next ['c']) (init 0 1) scratched = some s ∧ Complete ['c'] s := by
  obtain ⟨s, hs⟩ := Option.isSome_iff_exists.mp scratched_enabled
  have hok : ∀ p ∈ steps (next ['c']) (init 0 1) scratched, careful p.1 p.2 := by
    decide +kernel
  exact ⟨s, hs, nothing_passed_over scratched_truthful hok hs⟩

/-- Two first executions write different data bases: the first event that `v` has
in the second one is passed over. -/
example : ((run (next ['c']) (init 0 1)
    ([.happen (event 1 5 ['u']), .getEventID ['u'], .insertEventID 0,
      .query 0 1 [event 1 5 ['u']], .scratch 2, .happen (event 2 1 ['u']),
      .getEventID ['v'], .insertEventID 1, .query 1 2 [], .getDbID 0, .getDbID 1,
      .setDbID 0, .setDbID 1] ++ used 0)).map fun s =>
      (s.savedDbid, s.eventId ['u'], handedFor s ['u'] ['c', '/', 'u'])) =
    some (some 2, some 6, [event 1 5 ['u']]) := by decide +kernel

end Wms.Ice.EventQuery
