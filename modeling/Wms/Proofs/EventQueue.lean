import Wms.Core.Events

/-!
# What the event queue keeps, and where a worker can miss

Two questions about `Events::run` under any number of workers.

The first is whether an event can get lost or be called twice, or called
too early or out of turn. The multimaps carry their own order, so a critical
section only has to be followed with two eyes: what it moves, as a
permutation, and when the entries that arrive in the ready queue were due.
The invariant `Sound` collects both and one lemma for each kind of step
preserves it. `stop` makes no difference to it.

The second is whether a worker can look into an empty queue. The outer wait
loop tests both queues before it goes on; the inner one does not test again
after its timed wait, and other workers may have emptied both queues in the
meantime. So the answer is decided by one kind of step, and
`looksFound_iff` says by which state it is decided.
-/

namespace Wms.Core.Events

open Wms.Lib

section
variable {α : Type}

/-! ## What a critical section moves -/

/-- The event a section takes away. -/
def Leave.called : Leave α → List (Entry α)
  | .call e => [e]
  | _ => []

theorem expiredToReady_perm (now : ℤ) (q : Impl α) :
    List.Perm ((expiredToReady now q).waiting.entries ++
        (expiredToReady now q).ready.entries)
      (q.waiting.entries ++ q.ready.entries) := by
  let comp : TimePriority := ⟨now, 0⟩
  have hsplit := Multimap.before_append_eraseBefore comp q.waiting
  calc
    List.Perm _ ((q.waiting.eraseBefore comp).entries ++
        (q.waiting.before comp ++ q.ready.entries)) :=
      List.Perm.append_left _ (Multimap.entries_insertRange_perm _ _)
    _ = ((q.waiting.eraseBefore comp).entries ++ q.waiting.before comp) ++
          q.ready.entries := (List.append_assoc _ _ _).symm
    List.Perm _ ((q.waiting.before comp ++
        (q.waiting.eraseBefore comp).entries) ++ q.ready.entries) :=
      List.Perm.append_right _ List.perm_append_comm
    _ = q.waiting.entries ++ q.ready.entries := by rw [hsplit]

/-- The bound taken under `<=` leaves behind exactly what is due later. -/
theorem expiredToReady_waiting (now : ℤ) (q : Impl α) :
    (expiredToReady now q).waiting.entries =
      q.waiting.entries.filter (fun e => decide (now < e.1.time)) := by
  simp only [expiredToReady, Multimap.eraseBefore_eq_filter]
  congr 1
  funext e
  simp only [timeFirst]
  by_cases h : e.1.time ≤ now
  · simp [h, Int.not_lt.mpr h]
  · simp [h, Int.lt_of_not_ge h]

theorem before_now (now : ℤ) (q : Impl α) :
    q.waiting.before ⟨now, 0⟩ =
      q.waiting.entries.filter (fun e => decide (e.1.time ≤ now)) :=
  Multimap.before_eq_filter _ _

theorem expiredToReady_ready (now : ℤ) (q : Impl α) :
    List.Perm (expiredToReady now q).ready.entries
      (q.waiting.entries.filter (fun e => decide (e.1.time ≤ now)) ++
        q.ready.entries) := by
  rw [← before_now]
  exact Multimap.entries_insertRange_perm _ _

/-- Nothing in this depends on the shape of the tree the library keeps: in
every search tree that holds the waiting entries, the descent to the bound
collects the same ones. -/
theorem expired_of_tree {now : ℤ} {q : Impl α} {t : SearchTree (Entry α)}
    (h : t.toList = q.waiting.entries) :
    t.prefixBelow (fun e => timeFirst e.1 ⟨now, 0⟩) =
      q.waiting.entries.filter (fun e => decide (e.1.time ≤ now)) := by
  rw [SearchTree.prefixBelow_eq_before h, before_now]

/-- Nor does the place of an event that is scheduled for later. -/
theorem scheduled_of_tree {q : Impl α} {t : SearchTree (Entry α)}
    (h : t.toList = q.waiting.entries) (v : Entry α) :
    (t.insert (fun e => timeFirst v.1 e.1) v).toList = (q.waiting.insert v).entries :=
  SearchTree.toList_insert_eq h v

theorem innerLoop_perm (q : Impl α) :
    List.Perm ((innerLoop q).impl.waiting.entries ++
        (innerLoop q).impl.ready.entries ++ (innerLoop q).leave.called)
      (q.waiting.entries ++ q.ready.entries) := by
  simp only [innerLoop]
  split
  · simp [Leave.called]
  · split
    · simp [Leave.called]
    · next it rest hready =>
        simp only [Leave.called, Multimap.eraseFirst_entries, hready,
          List.tail_cons, List.append_assoc]
        exact List.Perm.append_left _ List.perm_append_comm

/-- A section that starts at the outer loop either changes nothing and looks
at nothing, or goes on into the inner loop with the expired events moved. -/
theorem outerLoop_cases (now : ℤ) (q : Impl α) :
    outerLoop now q = innerLoop (expiredToReady now q) ∨
      outerLoop now q = ⟨q, .wait, [], []⟩ ∨
      outerLoop now q = ⟨q, .exit, [], []⟩ := by
  simp only [outerLoop]
  split
  · exact .inr (.inl rfl)
  · split
    · exact .inr (.inr rfl)
    · exact .inl rfl

theorem innerLoop_ready_sublist (q : Impl α) :
    List.Sublist (innerLoop q).impl.ready.entries q.ready.entries := by
  simp only [innerLoop]
  split
  · exact List.Sublist.refl _
  · split
    · exact List.Sublist.refl _
    · exact List.tail_sublist _

/-- The event a section takes is the first of the ready queue it sees. -/
theorem innerLoop_call {q : Impl α} {e : Entry α}
    (h : e ∈ (innerLoop q).leave.called) :
    ∃ rest, q.ready.entries = e :: rest := by
  simp only [innerLoop] at h
  split at h
  · cases h
  · split at h
    · cases h
    · next it rest hready =>
        have he : e = it := by simpa [Leave.called] using h
        exact ⟨rest, he ▸ hready⟩

/-- Nothing in a ready queue comes before its first entry. -/
theorem priorityFirst_first {q : ReadyQueue α} {e : Entry α}
    {rest : List (Entry α)} (h : q.entries = e :: rest) :
    ∀ r ∈ q.entries, priorityFirst r.1 e.1 = false := by
  intro r hr
  rw [h] at hr
  simp only [priorityFirst, Bool.or_eq_false_iff, Bool.and_eq_false_iff,
    decide_eq_false_iff_not]
  rcases List.mem_cons.mp hr with rfl | hr
  · omega
  · have hle := Multimap.le_of_first h r hr
    simp only [priorityLe] at hle
    omega

end

/-! ## The steps of the system -/

section
variable {W α : Type}

/-- A worker's step is a section of one of two kinds, and the step's effect
is the section's. -/
theorem criticalSection_cases {s : State W α} {l : Label W α} {w : W}
    {c : Section (Event α)} (h : criticalSection s l = some (w, c)) :
    c = innerLoop (expiredToReady s.clock s.impl) ∨
      c = ⟨s.impl, .wait, [], []⟩ ∨ c = ⟨s.impl, .exit, [], []⟩ := by
  cases l with
  | lock v =>
      simp only [criticalSection] at h
      split at h
      · injection h with h
        injection h with _ h
        exact h ▸ outerLoop_cases s.clock s.impl
      · cases h
  | wake v =>
      simp only [criticalSection] at h
      split at h
      · injection h with h
        injection h with _ h
        exact h ▸ outerLoop_cases s.clock s.impl
      · injection h with h
        injection h with _ h
        exact .inl h.symm
      · cases h
  | _ => simp [criticalSection] at h

/-- Every entry there is: waiting, ready, or taken by a worker. -/
def places (s : State W α) : List (Entry (Event α)) :=
  s.impl.waiting.entries ++ s.impl.ready.entries ++ s.taken.map (·.entry)

structure Sound (s : State W α) : Prop where
  /-- Every scheduled event is in one of the three places, once. -/
  partition : List.Perm (places s) s.scheduled
  tickets : s.scheduled.map (·.2.ticket) = List.range s.scheduled.length
  ready_due : ∀ e ∈ s.impl.ready.entries, e.1.time ≤ s.clock
  taken_due : ∀ t ∈ s.taken, t.entry.1.time ≤ t.now ∧ t.now ≤ s.clock
  /-- A worker calls only what it has taken. -/
  held : ∀ w e, s.pc w = .calling e →
    ∃ t ∈ s.taken, t.worker = w ∧ t.entry = e

theorem sound_init (clock : ℤ) : Sound (init W α clock) where
  partition := List.Perm.refl []
  tickets := rfl
  ready_due := fun e he => absurd he (List.not_mem_nil)
  taken_due := fun t ht => absurd ht (List.not_mem_nil)
  held := fun w e h => by cases h

/-! What a worker's step keeps. -/

theorem map_takenBy (w : W) (now : ℤ) (l : Leave (Event α)) :
    (takenBy w now l).map (·.entry) = l.called := by
  cases l <;> rfl

theorem section_perm {s : State W α} {l : Label W α} {w : W}
    {c : Section (Event α)} (h : criticalSection s l = some (w, c)) :
    List.Perm (c.impl.waiting.entries ++ c.impl.ready.entries ++
        c.leave.called)
      (s.impl.waiting.entries ++ s.impl.ready.entries) := by
  rcases criticalSection_cases h with rfl | rfl | rfl
  · exact (innerLoop_perm _).trans (expiredToReady_perm s.clock s.impl)
  · simp [Leave.called]
  · simp [Leave.called]

theorem expiredToReady_due {s : State W α} (hs : Sound s) :
    ∀ e ∈ (expiredToReady s.clock s.impl).ready.entries,
      e.1.time ≤ s.clock := by
  intro e he
  rw [(expiredToReady_ready s.clock s.impl).mem_iff, List.mem_append,
    List.mem_filter] at he
  rcases he with ⟨-, he⟩ | he
  · exact of_decide_eq_true he
  · exact hs.ready_due e he

theorem section_ready_due {s : State W α} (hs : Sound s) {l : Label W α}
    {w : W} {c : Section (Event α)} (h : criticalSection s l = some (w, c)) :
    ∀ e ∈ c.impl.ready.entries, e.1.time ≤ s.clock := by
  rcases criticalSection_cases h with rfl | rfl | rfl
  · exact fun e he =>
      expiredToReady_due hs e ((innerLoop_ready_sublist _).subset he)
  · exact hs.ready_due
  · exact hs.ready_due

/-- What a worker takes is due, and first among the ready events it sees. -/
theorem section_takes {s : State W α} (hs : Sound s) {l : Label W α}
    {w : W} {c : Section (Event α)} (h : criticalSection s l = some (w, c))
    {e : Entry (Event α)} (he : e ∈ c.leave.called) :
    e.1.time ≤ s.clock ∧
      e ∈ (expiredToReady s.clock s.impl).ready.entries ∧
      ∀ r ∈ (expiredToReady s.clock s.impl).ready.entries,
        priorityFirst r.1 e.1 = false := by
  rcases criticalSection_cases h with rfl | rfl | rfl
  · obtain ⟨rest, hrest⟩ := innerLoop_call he
    have hmem : e ∈ (expiredToReady s.clock s.impl).ready.entries := by
      rw [hrest]
      exact List.mem_cons_self
    exact ⟨expiredToReady_due hs e hmem, hmem, priorityFirst_first hrest⟩
  · cases he
  · cases he

theorem mem_takenBy {w : W} {now : ℤ} {l : Leave (Event α)} {t : Taken W α}
    (h : t ∈ takenBy w now l) :
    t.worker = w ∧ t.now = now ∧ t.entry ∈ l.called := by
  cases l with
  | call e =>
      simp only [takenBy, List.mem_singleton] at h
      subst h
      exact ⟨rfl, rfl, List.mem_cons_self⟩
  | _ => cases h

/-! What the insertion of a new event keeps. -/

theorem tickets_snoc {s s' : State W α} (hs : Sound s)
    {v : Entry (Event α)} (hv : v.2.ticket = s.scheduled.length)
    (hsch : s'.scheduled = s.scheduled ++ [v]) :
    s'.scheduled.map (·.2.ticket) = List.range s'.scheduled.length := by
  rw [hsch, List.map_append, hs.tickets, List.length_append,
    List.length_singleton, List.range_succ]
  simp [hv]

/-- An entry put into one of the three places has joined them. -/
theorem places_insert {s s' : State W α} {v : Entry (Event α)}
    (htaken : s'.taken = s.taken)
    (himpl : s'.impl = { s.impl with ready := s.impl.ready.insert v } ∨
      s'.impl = { s.impl with waiting := s.impl.waiting.insert v }) :
    List.Perm (places s') (places s ++ [v]) := by
  have hfront : List.Perm (places s') (v :: places s) := by
    simp only [places, htaken]
    rcases himpl with h | h
    · rw [h]
      refine (List.Perm.append_right _ (List.Perm.append_left _
        (Multimap.entries_insert_perm v s.impl.ready))).trans ?_
      exact List.Perm.append_right _ List.perm_middle
    · rw [h]
      exact List.Perm.append_right _ (List.Perm.append_right _
        (Multimap.entries_insert_perm v s.impl.waiting))
  exact hfront.trans (List.perm_append_singleton v (places s)).symm

/-! One lemma for each kind of step. -/

variable [DecidableEq W]

/-- The kinds of steps: a worker's critical section, the insertion of a new
event into either queue, and what leaves the queues alone. -/
theorem next_cases {s s' : State W α} {l : Label W α}
    (h : next s l = some s') :
    (∃ w c, criticalSection s l = some (w, c) ∧ s' = enter s w c) ∨
    (∃ v : Entry (Event α), v.2.ticket = s.scheduled.length ∧
      s'.scheduled = s.scheduled ++ [v] ∧ s'.taken = s.taken ∧
      s'.pc = s.pc ∧ s'.clock = s.clock ∧
      ((v.1.time ≤ s.clock ∧ s'.impl =
          { s.impl with ready := s.impl.ready.insert v }) ∨
        s'.impl = { s.impl with waiting := s.impl.waiting.insert v })) ∨
    (s'.impl.waiting = s.impl.waiting ∧ s'.impl.ready = s.impl.ready ∧
      s'.scheduled = s.scheduled ∧ s'.taken = s.taken ∧
      s.clock ≤ s'.clock ∧
      ∀ w, s'.pc w = s.pc w ∨ s'.pc w = .top ∨ s'.pc w = .locking ∨
        s'.pc w = .exited) := by
  cases l with
  | tick d =>
      simp only [next, Option.some.injEq] at h
      subst h
      refine .inr (.inr ⟨rfl, rfl, rfl, rfl, ?_, fun _ => .inl rfl⟩)
      show s.clock ≤ s.clock + d
      omega
  | schedule f t p =>
      simp only [next] at h
      split at h
      · next ht =>
          simp only [Option.some.injEq] at h
          subst h
          exact .inr (.inl ⟨scheduledEntry s f t p, rfl, rfl, rfl, rfl, rfl,
            .inl ⟨ht, rfl⟩⟩)
      · cases h
  | scheduleAt f t p =>
      simp only [next, Option.some.injEq] at h
      subst h
      exact .inr (.inl ⟨scheduledEntry s f t p, rfl, rfl, rfl, rfl, rfl,
        .inr rfl⟩)
  | stop =>
      simp only [next, Option.some.injEq] at h
      subst h
      exact .inr (.inr ⟨rfl, rfl, rfl, rfl, Int.le_refl _,
        fun _ => .inl rfl⟩)
  | check w =>
      simp only [next] at h
      split at h
      · simp only [Option.some.injEq] at h
        subst h
        refine .inr (.inr ⟨rfl, rfl, rfl, rfl, Int.le_refl _, fun v => ?_⟩)
        by_cases hvw : v = w
        · subst hvw
          simp only [Function.update_self]
          split
          · exact .inr (.inr (.inr rfl))
          · exact .inr (.inr (.inl rfl))
        · exact .inl (Function.update_of_ne hvw _ _)
      · cases h
  | lock w =>
      simp only [next, Option.map_eq_some_iff] at h
      obtain ⟨⟨v, c⟩, hc, hs⟩ := h
      exact .inl ⟨v, c, hc, hs.symm⟩
  | wake w =>
      simp only [next, Option.map_eq_some_iff] at h
      obtain ⟨⟨v, c⟩, hc, hs⟩ := h
      exact .inl ⟨v, c, hc, hs.symm⟩
  | finish w =>
      simp only [next] at h
      split at h
      · simp only [Option.some.injEq] at h
        subst h
        refine .inr (.inr ⟨rfl, rfl, rfl, rfl, Int.le_refl _, fun v => ?_⟩)
        by_cases hvw : v = w
        · subst hvw
          exact .inr (.inl (Function.update_self _ _ _))
        · exact .inl (Function.update_of_ne hvw _ _)
      · cases h

theorem enter_places {s : State W α} {l : Label W α} {w : W}
    {c : Section (Event α)} (h : criticalSection s l = some (w, c)) :
    List.Perm (places (enter s w c)) (places s) := by
  simp only [places, enter, List.map_append, map_takenBy]
  rw [← List.append_assoc, List.append_assoc _ _ c.leave.called]
  calc
    List.Perm _ (c.impl.waiting.entries ++ c.impl.ready.entries ++
        (c.leave.called ++ s.taken.map (·.entry))) :=
      List.Perm.append_left _ List.perm_append_comm
    _ = (c.impl.waiting.entries ++ c.impl.ready.entries ++ c.leave.called) ++
          s.taken.map (·.entry) := (List.append_assoc _ _ _).symm
    List.Perm _ (s.impl.waiting.entries ++ s.impl.ready.entries ++
        s.taken.map (·.entry)) := List.Perm.append_right _ (section_perm h)

theorem sound_enter {s : State W α} (hs : Sound s) {l : Label W α} {w : W}
    {c : Section (Event α)} (h : criticalSection s l = some (w, c)) :
    Sound (enter s w c) where
  partition := (enter_places h).trans hs.partition
  tickets := hs.tickets
  ready_due := section_ready_due hs h
  taken_due := by
    intro t ht
    rcases List.mem_append.mp ht with ht | ht
    · exact hs.taken_due t ht
    · obtain ⟨-, hnow, hmem⟩ := mem_takenBy ht
      exact ⟨hnow ▸ (section_takes hs h hmem).1, hnow ▸ Int.le_refl _⟩
  held := by
    intro v e hv
    simp only [enter] at hv ⊢
    by_cases hvw : v = w
    · subst hvw
      rw [Function.update_self] at hv
      cases hleave : c.leave with
      | call e' =>
          simp only [hleave, pcAfter, Pc.calling.injEq] at hv
          subst hv
          exact ⟨⟨v, s.clock, e'⟩,
            List.mem_append_right _ List.mem_cons_self, rfl, rfl⟩
      | _ => simp [hleave, pcAfter] at hv
    · rw [Function.update_of_ne hvw] at hv
      obtain ⟨t, ht, hw, he⟩ := hs.held v e hv
      exact ⟨t, List.mem_append_left _ ht, hw, he⟩

theorem sound_next {s s' : State W α} {l : Label W α} (hs : Sound s)
    (h : next s l = some s') : Sound s' := by
  rcases next_cases h with ⟨w, c, hc, rfl⟩ |
    ⟨v, hv, hsch, htaken, hpc, hclock, himpl⟩ |
    ⟨hwaiting, hready, hsch, htaken, hclock, hpc⟩
  · exact sound_enter hs hc
  · exact
      { partition := by
          rw [hsch]
          exact (places_insert htaken (himpl.imp And.right id)).trans
            (List.Perm.append_right _ hs.partition)
        tickets := tickets_snoc hs hv hsch
        ready_due := by
          intro e he
          rw [hclock]
          rcases himpl with ⟨hdue, himpl⟩ | himpl
          · rw [himpl] at he
            rcases Multimap.mem_insert.mp he with rfl | he
            · exact hdue
            · exact hs.ready_due e he
          · rw [himpl] at he
            exact hs.ready_due e he
        taken_due := by
          rw [htaken, hclock]
          exact hs.taken_due
        held := by
          rw [htaken, hpc]
          exact hs.held }
  · exact
      { partition := by
          simp only [places, hwaiting, hready, htaken, hsch]
          exact hs.partition
        tickets := by
          rw [hsch]
          exact hs.tickets
        ready_due := by
          rw [hready]
          exact fun e he => Int.le_trans (hs.ready_due e he) hclock
        taken_due := by
          rw [htaken]
          exact fun t ht =>
            ⟨(hs.taken_due t ht).1, Int.le_trans (hs.taken_due t ht).2 hclock⟩
        held := by
          rw [htaken]
          intro w e he
          rcases hpc w with h | h | h | h
          · exact hs.held w e (h ▸ he)
          all_goals rw [h] at he; cases he }

theorem sound_run {clock : ℤ} {ls : List (Label W α)} {s : State W α}
    (h : run next (init W α clock) ls = some s) : Sound s :=
  run_invariant (fun _ _ _ hs _ hn => sound_next hs hn) (sound_init clock)
    (meets_true next _ _) h

/-! ## Nothing is lost and nothing is duplicated -/

/-- What the queue promises about a state: where the events are, when they
were taken, what a worker takes next, and what becomes ready. -/
structure Conserved (s : State W α) : Prop where
  partition : List.Perm (places s) s.scheduled
  apart : ((places s).map (·.2.ticket)).Nodup
  taken_due : ∀ t ∈ s.taken, t.entry.1.time ≤ t.now
  held : ∀ w e, s.pc w = .calling e →
    ∃ t ∈ s.taken, t.worker = w ∧ t.entry = e
  takes_first : ∀ l w c e, criticalSection s l = some (w, c) →
    e ∈ c.leave.called → e.1.time ≤ s.clock ∧
      e ∈ (expiredToReady s.clock s.impl).ready.entries ∧
      ∀ r ∈ (expiredToReady s.clock s.impl).ready.entries,
        priorityFirst r.1 e.1 = false
  expires : ∀ now : ℤ,
    (expiredToReady now s.impl).waiting.entries =
        s.impl.waiting.entries.filter (fun e => decide (now < e.1.time)) ∧
      List.Perm (expiredToReady now s.impl).ready.entries
        (s.impl.waiting.entries.filter (fun e => decide (e.1.time ≤ now)) ++
          s.impl.ready.entries)

theorem events_conserved (clock : ℤ) (ls : List (Label W α)) (s : State W α)
    (h : run next (init W α clock) ls = some s) : Conserved s := by
  have hs := sound_run h
  exact
    { partition := hs.partition
      apart := by
        have hp := hs.partition.map (·.2.ticket)
        rw [hs.tickets] at hp
        exact hp.nodup_iff.mpr List.nodup_range
      taken_due := fun t ht => (hs.taken_due t ht).1
      held := hs.held
      takes_first := fun l w c e hc he => section_takes hs hc he
      expires := fun now =>
        ⟨expiredToReady_waiting now s.impl, expiredToReady_ready now s.impl⟩ }

end

/-- Two workers, three events, two of them due at the same time. -/
def shared : List (Label (Fin 2) ℕ) :=
  [.scheduleAt 7 9 1, .scheduleAt 8 9 1, .check 0, .lock 0, .check 1, .lock 1,
    .schedule 3 5 2, .wake 1, .tick 4, .wake 0]

theorem events_conserved_shared :
    Conserved ((run next (init (Fin 2) ℕ 5) shared).get rfl) :=
  events_conserved 5 shared _ (Option.some_get _).symm

/-! ## A look into an empty queue -/

section
variable {W α : Type}

/-- Every look at the front of a queue in this step finds an entry. -/
def LooksFound (s : State W α) (l : Label W α) : Prop :=
  ∀ w c, criticalSection s l = some (w, c) →
    none ∉ c.waitingReads ∧ none ∉ c.readyReads

/-- A worker that comes back from the inner timed wait finds the queue shut
down, or an event still in one of the two queues. -/
def WakesToEvent (s : State W α) (l : Label W α) : Prop :=
  ∀ w t, l = .wake w → s.pc w = .timedWait t →
    s.impl.shutdown = true ∨ s.impl.ready.entries ≠ [] ∨
      s.impl.waiting.entries ≠ []

/-- The inner loop looks into `waiting` when there is nothing in `ready`, so
it needs one of the two to hold something. -/
theorem innerLoop_looks (q : Impl α) :
    (none ∉ (innerLoop q).waitingReads ∧ none ∉ (innerLoop q).readyReads) ↔
      (q.shutdown = true ∨ q.ready.entries ≠ [] ∨ q.waiting.entries ≠ []) := by
  simp only [innerLoop]
  split
  · next hshut => simp [hshut]
  · next hshut =>
      split
      · next hready =>
          cases hw : q.waiting.entries with
          | nil => simp [hshut, hready]
          | cons e rest => simp
      · next it rest hready => simp [hready]

/-- Moving the expired events over does not change whether there are any. -/
theorem expiredToReady_nil (now : ℤ) (q : Impl α) :
    ((expiredToReady now q).ready.entries ≠ [] ∨
      (expiredToReady now q).waiting.entries ≠ []) ↔
    (q.ready.entries ≠ [] ∨ q.waiting.entries ≠ []) := by
  have hlen := (expiredToReady_perm now q).length_eq
  simp only [List.length_append] at hlen
  simp only [← List.length_pos_iff]
  omega

theorem outerLoop_looks (now : ℤ) (q : Impl α) :
    none ∉ (outerLoop now q).waitingReads ∧
      none ∉ (outerLoop now q).readyReads := by
  simp only [outerLoop]
  split
  · simp
  · next hempty =>
      split
      · simp
      · next hshut =>
          refine (innerLoop_looks _).mpr (.inr ((expiredToReady_nil _ _).mpr ?_))
          by_contra hnil
          simp only [ne_eq, not_or, not_not] at hnil
          simp [hshut, hnil.1, hnil.2] at hempty

theorem looksFound_step (s : State W α) (l : Label W α) :
    LooksFound s l ↔ WakesToEvent s l := by
  cases l with
  | lock w =>
      refine ⟨fun _ _ _ h => (by cases h), fun _ v c hc => ?_⟩
      simp only [criticalSection] at hc
      split at hc
      · injection hc with hc
        injection hc with _ hc
        exact hc ▸ outerLoop_looks s.clock s.impl
      · cases hc
  | wake w =>
      cases hpc : s.pc w with
      | timedWait t =>
          have hlooks := innerLoop_looks (expiredToReady s.clock s.impl)
          rw [expiredToReady_nil] at hlooks
          simp only [LooksFound, WakesToEvent, criticalSection, hpc,
            Option.some.injEq, Prod.mk.injEq, Label.wake.injEq]
          constructor
          · rintro h v t' rfl -
            exact hlooks.mp (h w _ ⟨rfl, rfl⟩)
          · rintro h v c ⟨rfl, rfl⟩
            exact hlooks.mpr (h w t rfl hpc)
      | wait =>
          refine ⟨fun _ v t h ht => ?_, fun _ v c hc => ?_⟩
          · injection h with h
            subst h
            rw [hpc] at ht
            cases ht
          · simp only [criticalSection, hpc, Option.some.injEq,
              Prod.mk.injEq] at hc
            exact hc.2 ▸ outerLoop_looks s.clock s.impl
      | _ =>
          refine ⟨fun _ v t h ht => ?_, fun _ v c hc => ?_⟩
          · injection h with h
            subst h
            rw [hpc] at ht
            cases ht
          · simp [criticalSection, hpc] at hc
  | _ =>
      refine ⟨fun _ _ _ h => (by cases h), fun _ _ _ hc => ?_⟩
      simp [criticalSection] at hc

end

section
variable {W α : Type} [DecidableEq W]

/-- The workers of a run never look into an empty queue exactly when none of
them comes back from the inner timed wait to an empty event queue. -/
theorem looksFound_iff (clock : ℤ) (ls : List (Label W α)) :
    Meets next LooksFound (init W α clock) ls ↔
      Meets next WakesToEvent (init W α clock) ls :=
  forall₂_congr fun p _ => looksFound_step p.1 p.2

/-! A lone worker is such a case: between its look and its return nobody
takes anything. -/

/-- A worker in the inner wait has left an event behind. -/
def WaitsForEvent (s : State W α) : Prop :=
  ∀ w t, s.pc w = .timedWait t →
    s.impl.ready.entries ≠ [] ∨ s.impl.waiting.entries ≠ []

/-- The section that puts a worker into the inner wait has looked at the
event the worker waits for, and leaves it there. -/
theorem innerLoop_timedWait {q : Impl α} {t : Option ℤ}
    (h : (innerLoop q).leave = .timedWait t) :
    (innerLoop q).waitingReads =
      [(innerLoop q).impl.waiting.entries.head?] := by
  simp only [innerLoop] at h ⊢
  split at h
  · cases h
  · next hshut =>
      rw [if_neg hshut]
      split at h
      · rfl
      · cases h

theorem waitsForEvent_enter [Subsingleton W] {s : State W α} {l : Label W α}
    {w : W} {c : Section (Event α)} (hs : WaitsForEvent s)
    (hc : criticalSection s l = some (w, c)) :
    WaitsForEvent (enter s w c) := by
  have hlooks : LooksFound s l :=
    (looksFound_step s l).mpr fun v t _ ht => .inr (hs v t ht)
  intro v t hv
  have hvw : v = w := Subsingleton.elim v w
  subst hvw
  simp only [enter, Function.update_self] at hv ⊢
  have hleave : c.leave = .timedWait t := by
    cases hl : c.leave with
    | timedWait t' =>
        simp only [hl, pcAfter, Pc.timedWait.injEq] at hv
        rw [hv]
    | _ => simp [hl, pcAfter] at hv
  rcases criticalSection_cases hc with rfl | rfl | rfl
  · have hread := (hlooks _ _ hc).1
    rw [innerLoop_timedWait hleave] at hread
    refine .inr fun hnil => hread ?_
    rw [hnil]
    exact List.mem_cons_self
  · cases hleave
  · cases hleave

theorem waitsForEvent_next [Subsingleton W] {s s' : State W α}
    {l : Label W α} (hs : WaitsForEvent s) (h : next s l = some s') :
    WaitsForEvent s' := by
  rcases next_cases h with ⟨w, c, hc, rfl⟩ | ⟨v, -, -, -, hpc, -, himpl⟩ |
    ⟨hwaiting, hready, -, -, -, hpc⟩
  · exact waitsForEvent_enter hs hc
  · intro w t ht
    rcases himpl with ⟨-, himpl⟩ | himpl
    · rw [himpl]
      exact .inl (List.ne_nil_of_mem (Multimap.mem_insert.mpr (.inl rfl)))
    · rw [himpl]
      exact .inr (List.ne_nil_of_mem (Multimap.mem_insert.mpr (.inl rfl)))
  · intro w t ht
    rw [hwaiting, hready]
    rcases hpc w with h | h | h | h
    · exact hs w t (h ▸ ht)
    all_goals rw [h] at ht; cases ht

/-- A lone worker never looks into an empty queue. -/
theorem looksFound_single [Subsingleton W] (clock : ℤ)
    (ls : List (Label W α)) :
    Meets next LooksFound (init W α clock) ls := by
  have hinit : WaitsForEvent (init W α clock) := fun w t h => by cases h
  have hwaits : ∀ p ∈ steps next (init W α clock) ls, WaitsForEvent p.1 :=
    steps_invariant (fun _ _ _ hs _ h => waitsForEvent_next hs h) hinit
      (meets_true next _ ls)
  intro p hp
  rw [looksFound_step]
  exact fun w t _ ht => .inr (hwaits p hp w t ht)

end

/-- Two workers wait for the same event; the first to wake takes it. -/
def drained : List (Label (Fin 2) Unit) :=
  [.scheduleAt () 10 0, .check 0, .lock 0, .check 1, .lock 1, .tick 10,
    .wake 0, .wake 1]

theorem not_looksFound_drained :
    ¬ Meets next LooksFound (init (Fin 2) Unit 0) drained := by
  intro h
  let last : State (Fin 2) Unit :=
    (run next (init (Fin 2) Unit 0) (drained.take 7)).get rfl
  have hmem : (last, .wake 1) ∈ steps next (init (Fin 2) Unit 0) drained :=
    List.mem_of_getElem? (i := 7) rfl
  have hreads := (h _ hmem 1 _ rfl).1
  exact hreads List.mem_cons_self

end Wms.Core.Events
