import Mathlib.Tactic.Common
import Wms.Ice.ThreadPool

/-!
# One command of a job at a time

What keeps two commands of one job apart is a set of ids, and the worker that
executes a command does not keep the id it put there. So everything rests on
the commands: a command has to give the same id whenever it is asked.

As long as it does, the scan that takes a command off the queue passes over
earlier ones only for an id in the set. The id of a command that was passed
over is therefore not the id of the one that was taken, and stays so. This is
what carries the order of execution, and the invariant `Inv` keeps it in the
field `passed`.

An id made from the clock is another one at each question.
-/

namespace Wms.Ice.ThreadPool

open Wms.Lib

/-! ## The scan -/

@[simp] theorem length_answers (clock : ℕ → Timeval) (q : List Entry) :
    (answers clock q).length = q.length := by
  induction q generalizing clock with
  | nil => rfl
  | cons e q ih => rw [answers, List.length_cons, List.length_cons, ih]

theorem getElem?_answers (clock : ℕ → Timeval) (q : List Entry) (n : ℕ) :
    (answers clock q)[n]? = q[n]?.map fun e => e.ask (clock n) := by
  induction q generalizing clock n with
  | nil => rfl
  | cons e q ih =>
      cases n with
      | zero => rfl
      | succ n => simpa only [answers, List.getElem?_cons_succ] using ih _ n

section
variable {p : Finset Text} {clock : ℕ → Timeval} {q : List Entry}

theorem mem_scanned {e : Entry} {n : ℕ} (h : q[n]? = some e)
    (hn : n ≤ getFirstRequest p clock q) :
    e.ask (clock n) ∈ scanned p clock q := by
  refine List.mem_of_getElem? (i := n) ?_
  rw [scanned, List.getElem?_take_of_lt (Nat.lt_succ_of_le hn),
    getElem?_answers, h, Option.map_some]

/-- The scan passes over a command for an id in the set only. -/
theorem mem_of_lt_getFirstRequest {e : Entry} {n : ℕ} (h : q[n]? = some e)
    (hn : n < getFirstRequest p clock q) : (e.ask (clock n)).id ∈ p := by
  have hget : (answers clock q)[n]? = some (e.ask (clock n)) := by
    rw [getElem?_answers, h, Option.map_some]
  obtain ⟨hlen, heq⟩ := List.getElem?_eq_some_iff.mp hget
  have hnot := List.not_of_lt_findIdx hn
  rw [heq] at hnot
  simpa using hnot

theorem notMem_of_getFirstRequest {e : Entry}
    (h : q[getFirstRequest p clock q]? = some e) :
    (e.ask (clock (getFirstRequest p clock q))).id ∉ p := by
  have hget : (answers clock q)[getFirstRequest p clock q]? =
      some (e.ask (clock (getFirstRequest p clock q))) := by
    rw [getElem?_answers, h, Option.map_some]
  have hfound := List.findIdx_of_getElem?_eq_some
    (p := fun a : Asked => decide (a.id ∉ p)) hget
  simpa using hfound

/-- A scan that ends at the end of the queue has asked every command. -/
theorem scanned_all (h : getFirstRequest p clock q = q.length) {e : Entry}
    (he : e ∈ q) : ∃ y ∈ p, ⟨e.ticket, y⟩ ∈ scanned p clock q := by
  obtain ⟨n, hn⟩ := List.mem_iff_getElem?.mp he
  have hlt : n < getFirstRequest p clock q := by
    rw [h]
    exact (List.getElem?_eq_some_iff.mp hn).1
  exact ⟨_, mem_of_lt_getFirstRequest hn hlt, mem_scanned hn hlt.le⟩

end

/-! ## What a pool promises -/

section
variable {W : Type}

/-- Every command is in the queue or was started once; one that was started is
executed by one worker or has ended. The set holds the ids of those that are
being executed. -/
structure Exclusive (s : State W) : Prop where
  live : s.aborted = false
  numbered : s.added.map Entry.ticket = List.range s.added.length
  once : List.Perm (s.requestsQueue ++ s.started.map Started.entry) s.added
  finishedOnce : s.finished.Nodup
  finishedStarted : ∀ e ∈ s.finished, ∃ a ∈ s.started, a.entry = e
  executing : ∀ a : Started, (∃ w, s.pc w = .running a.entry a.id) ↔
    a ∈ s.started ∧ a.entry ∉ s.finished
  apart : ∀ v w e f id, s.pc v = .running e id → s.pc w = .running f id → v = w
  inOrder : s.started.Pairwise fun a b =>
    a.id = b.id → a.entry.ticket < b.entry.ticket
  pending : ∀ id, id ∈ s.pendingJobs ↔ ∃ w e, s.pc w = .running e id

/-- No worker is running a request. -/
def Quiet (s : State W) : Prop := ∀ w e id, s.pc w ≠ .running e id

/-- What the pool promises. When nothing is being executed the set is empty,
and a worker that waits then has seen every command to its end. -/
structure Orderly (s : State W) : Prop extends Exclusive s where
  idle : Quiet s → s.pendingJobs = ∅
  served : ∀ v, s.pc v = .waiting → Quiet s →
    s.requestsQueue = [] ∧ List.Perm s.finished s.added

/-- Every command a step asks for its id answers as it did each time before. -/
def Steady (s : State W) (l : Label W) : Prop :=
  ∀ a ∈ asks s l, ∀ b ∈ s.asked ++ asks s l, a.ticket = b.ticket → a.id = b.id

/-- The invariant of the runs. -/
structure Inv (s : State W) : Prop extends Exclusive s where
  sorted : s.requestsQueue.Pairwise fun e f => e.ticket < f.ticket
  steady : ∀ a ∈ s.asked, ∀ b ∈ s.asked, a.ticket = b.ticket → a.id = b.id
  asked : ∀ a ∈ s.started, ⟨a.entry.ticket, a.id⟩ ∈ s.asked
  passed : ∀ e ∈ s.requestsQueue, ∀ a ∈ s.started,
    e.ticket < a.entry.ticket → ∃ y, ⟨e.ticket, y⟩ ∈ s.asked ∧ y ≠ a.id
  waits : ∀ w, s.pc w = .waiting → ∀ e ∈ s.requestsQueue,
    ∃ y ∈ s.pendingJobs, ⟨e.ticket, y⟩ ∈ s.asked

variable {s : State W}

/-! Two commands with one number are one command. -/

theorem ticket_injOn (hs : Inv s) {e f : Entry} (he : e ∈ s.added)
    (hf : f ∈ s.added) (h : e.ticket = f.ticket) : e = f := by
  have hnodup : (s.added.map Entry.ticket).Nodup := by
    rw [hs.numbered]
    exact List.nodup_range
  exact List.inj_on_of_nodup_map hnodup he hf h

theorem added_nodup (hs : Inv s) : s.added.Nodup := by
  refine List.Nodup.of_map Entry.ticket ?_
  rw [hs.numbered]
  exact List.nodup_range

theorem ticket_lt (hs : Inv s) {e : Entry} (he : e ∈ s.added) :
    e.ticket < s.added.length := by
  have hmem := List.mem_map_of_mem (f := Entry.ticket) he
  rw [hs.numbered] at hmem
  exact List.mem_range.mp hmem

theorem queue_added (hs : Inv s) {e : Entry} (he : e ∈ s.requestsQueue) :
    e ∈ s.added :=
  hs.once.mem_iff.mp (List.mem_append_left _ he)

theorem started_added (hs : Inv s) {a : Started} (ha : a ∈ s.started) :
    a.entry ∈ s.added :=
  hs.once.mem_iff.mp (List.mem_append_right _ (List.mem_map_of_mem ha))

/-- A command in the queue was not started. -/
theorem queue_not_started (hs : Inv s) {e : Entry} (he : e ∈ s.requestsQueue)
    {a : Started} (ha : a ∈ s.started) : a.entry ≠ e := by
  intro h
  have hnodup := hs.once.nodup_iff.mpr (added_nodup hs)
  exact List.disjoint_of_nodup_append hnodup he
    (h ▸ List.mem_map_of_mem ha)

theorem orderly_of_inv (hs : Inv s) : Orderly s := by
  have hidle : Quiet s → s.pendingJobs = ∅ := by
    intro hquiet
    refine Finset.eq_empty_of_forall_notMem fun id hid => ?_
    obtain ⟨w, e, hw⟩ := (hs.pending id).mp hid
    exact hquiet w e id hw
  refine ⟨hs.toExclusive, hidle, ?_⟩
  intro v hv hquiet
  have hqueue : s.requestsQueue = [] := by
    refine List.eq_nil_iff_forall_not_mem.mpr fun e he => ?_
    obtain ⟨y, hy, -⟩ := hs.waits v hv e he
    rw [hidle hquiet] at hy
    exact Finset.notMem_empty y hy
  refine ⟨hqueue, ?_⟩
  rw [List.perm_ext_iff_of_nodup hs.finishedOnce (added_nodup hs)]
  intro e
  rw [← hs.once.mem_iff, hqueue, List.nil_append, List.mem_map]
  constructor
  · exact hs.finishedStarted e
  · rintro ⟨a, ha, rfl⟩
    by_contra hfin
    obtain ⟨w, hw⟩ := (hs.executing a).mpr ⟨ha, hfin⟩
    exact hquiet w _ _ hw

theorem inv_init (W : Type) : Inv (init W) where
  live := rfl
  numbered := rfl
  once := List.Perm.refl _
  finishedOnce := List.nodup_nil
  finishedStarted := by simp [init]
  executing := by simp [init]
  apart := by simp [init]
  inOrder := List.Pairwise.nil
  pending := by simp [init]
  sorted := List.Pairwise.nil
  steady := by simp [init]
  asked := by simp [init]
  passed := by simp [init]
  waits := by simp [init]

end

/-! ## The steps -/

@[simp] theorem notified_running {pc : Pc} {e : Entry} {id : Text} :
    notified pc = .running e id ↔ pc = .running e id := by
  cases pc <;> simp [notified]

@[simp] theorem notified_ne_waiting (pc : Pc) : notified pc ≠ .waiting := by
  cases pc <;> simp [notified]

section
variable {W : Type} {s : State W}

/-- What a step asks joins the history, and the history stays steady. -/
theorem steady_append (hs : Inv s) {l : Label W} (hst : Steady s l) :
    ∀ a ∈ s.asked ++ asks s l, ∀ b ∈ s.asked ++ asks s l,
      a.ticket = b.ticket → a.id = b.id := by
  intro a ha b hb hab
  rcases List.mem_append.mp ha with ha | ha
  · rcases List.mem_append.mp hb with hb | hb
    · exact hs.steady a ha b hb hab
    · exact (hst b hb a (List.mem_append_left _ ha) hab.symm).symm
  · exact hst a ha b hb hab

/-- The id that is taken out is the one that was put in. -/
theorem removal_id {w : W} {removal : Timeval} {e : Entry} {id : Text}
    (hs : Inv s) (hst : Steady s (.finish w removal))
    (hpc : s.pc w = .running e id) : e.cmd.getGridJobId removal = id := by
  have hstarted := ((hs.executing ⟨e, id⟩).mp ⟨w, hpc⟩).1
  have hasks : asks s (.finish w removal) = [e.ask removal] := by
    simp only [asks, hpc]
  exact hst (e.ask removal) (by simp [hasks]) _
    (List.mem_append_left _ (hs.asked _ hstarted)) rfl

theorem inv_addRequest (hs : Inv s) (req : Command) :
    Inv { s with
      requestsQueue := s.requestsQueue ++ [⟨s.added.length, req⟩]
      pc := fun w => notified (s.pc w)
      added := s.added ++ [⟨s.added.length, req⟩] } where
  live := hs.live
  numbered := by
    rw [List.map_append, hs.numbered, List.length_append, List.length_singleton,
      List.range_succ]
    rfl
  once := by
    refine List.Perm.trans ?_ (List.Perm.append_right _ hs.once)
    rw [List.append_assoc, List.append_assoc]
    exact List.Perm.append_left _ List.perm_append_comm
  finishedOnce := hs.finishedOnce
  finishedStarted := hs.finishedStarted
  executing := by
    simpa only [notified_running] using hs.executing
  apart := by
    simpa only [notified_running] using hs.apart
  inOrder := hs.inOrder
  pending := by
    simpa only [notified_running] using hs.pending
  sorted := by
    refine List.pairwise_append.mpr ⟨hs.sorted, List.pairwise_singleton _ _, ?_⟩
    intro e he f hf
    rw [List.mem_singleton.mp hf]
    exact ticket_lt hs (queue_added hs he)
  steady := hs.steady
  asked := hs.asked
  passed := by
    intro e he a ha hlt
    rcases List.mem_append.mp he with he | he
    · exact hs.passed e he a ha hlt
    · have hbound := ticket_lt hs (started_added hs ha)
      rw [List.mem_singleton.mp he] at hlt
      exact absurd hlt (Nat.lt_asymm hbound)
  waits := fun w hw => absurd hw (notified_ne_waiting _)

theorem passed_append (hs : Inv s) (l : List Asked) :
    ∀ e ∈ s.requestsQueue, ∀ a ∈ s.started, e.ticket < a.entry.ticket →
      ∃ y, ⟨e.ticket, y⟩ ∈ s.asked ++ l ∧ y ≠ a.id := by
  intro e he a ha hlt
  obtain ⟨y, hy, hne⟩ := hs.passed e he a ha hlt
  exact ⟨y, List.mem_append_left _ hy, hne⟩

/-! The second scan and the insertion. -/

section
variable {w : W} {scan again : ℕ → Timeval} {insertion : Timeval} {e : Entry}

/-- The second scan finds what the first has found. -/
theorem chosen_isSome (hst : Steady s (.enter w scan again insertion))
    (hsome : getFirstRequest s.pendingJobs scan s.requestsQueue ≠
      s.requestsQueue.length) :
    ∃ e, chosen s again = some e := by
  have hle : getFirstRequest s.pendingJobs scan s.requestsQueue ≤
      s.requestsQueue.length := by
    rw [← length_answers scan]
    exact List.findIdx_le_length
  obtain ⟨e, he⟩ : ∃ e, s.requestsQueue[getFirstRequest s.pendingJobs scan
      s.requestsQueue]? = some e :=
    ⟨_, List.getElem?_eq_getElem (lt_of_le_of_ne hle hsome)⟩
  by_contra hno
  have hnone : chosen s again = none :=
    Option.eq_none_iff_forall_ne_some.mpr fun f hf => hno ⟨f, hf⟩
  have hend : getFirstRequest s.pendingJobs again s.requestsQueue =
      s.requestsQueue.length := by
    refine Nat.le_antisymm ?_ (List.getElem?_eq_none_iff.mp hnone)
    rw [← length_answers again]
    exact List.findIdx_le_length
  obtain ⟨y, hy, hmem⟩ := scanned_all hend (List.mem_of_getElem? he)
  have hasks : asks s (.enter w scan again insertion) =
      scanned s.pendingJobs scan s.requestsQueue ++
        scanned s.pendingJobs again s.requestsQueue := by
    rw [asks, if_neg hsome, hnone]
    simp
  have hfirst := List.mem_append_left
    (scanned s.pendingJobs again s.requestsQueue) (mem_scanned he (le_refl _))
  rw [← hasks] at hfirst
  have hsecond := List.mem_append_right
    (scanned s.pendingJobs scan s.requestsQueue) hmem
  rw [← hasks] at hsecond
  have heq := hst _ hfirst _ (List.mem_append_right _ hsecond) rfl
  have hnot := notMem_of_getFirstRequest he
  rw [heq] at hnot
  exact hnot hy

theorem asks_chosen (w : W) (insertion : Timeval)
    (hsome : getFirstRequest s.pendingJobs scan s.requestsQueue ≠
      s.requestsQueue.length)
    (he : chosen s again = some e) :
    asks s (.enter w scan again insertion) =
      scanned s.pendingJobs scan s.requestsQueue ++
        (scanned s.pendingJobs again s.requestsQueue ++ [e.ask insertion]) := by
  rw [asks, if_neg hsome, he]
  rfl

/-- A command that is taken was asked in the scan and at the insertion, so its
id was not in the set. -/
theorem insertion_notMem (hst : Steady s (.enter w scan again insertion))
    (hsome : getFirstRequest s.pendingJobs scan s.requestsQueue ≠
      s.requestsQueue.length) (he : chosen s again = some e) :
    e.cmd.getGridJobId insertion ∉ s.pendingJobs := by
  have hasks := asks_chosen w insertion hsome he
  have hscan : e.ask (again (getFirstRequest s.pendingJobs again
      s.requestsQueue)) ∈ asks s (.enter w scan again insertion) := by
    rw [hasks]
    exact List.mem_append_right _
      (List.mem_append_left _ (mem_scanned he (le_refl _)))
  have heq := hst (e.ask insertion) (by simp [hasks]) _
    (List.mem_append_right _ hscan) rfl
  have hnot := notMem_of_getFirstRequest he
  rw [← heq] at hnot
  exact hnot

/-- The commands that are passed over have an id in the set. -/
theorem passed_over {f : Entry} (w : W) (insertion : Timeval) (hs : Inv s)
    (hsome : getFirstRequest s.pendingJobs scan s.requestsQueue ≠
      s.requestsQueue.length) (he : chosen s again = some e)
    (hf : f ∈ s.requestsQueue) (hlt : f.ticket < e.ticket) :
    ∃ y ∈ s.pendingJobs,
      ⟨f.ticket, y⟩ ∈ asks s (.enter w scan again insertion) := by
  obtain ⟨n, hn⟩ := List.mem_iff_getElem?.mp hf
  obtain ⟨hnlen, hnf⟩ := List.getElem?_eq_some_iff.mp hn
  obtain ⟨hlen, hget⟩ := List.getElem?_eq_some_iff.mp he
  have hbefore : n < getFirstRequest s.pendingJobs again s.requestsQueue := by
    by_contra hge
    rcases Nat.lt_or_eq_of_le (Nat.le_of_not_lt hge) with hgt | heq
    · have hsorted := List.pairwise_iff_getElem.mp hs.sorted _ _ hlen hnlen hgt
      rw [hget, hnf] at hsorted
      exact Nat.lt_asymm hlt hsorted
    · have hsame : f = e := by
        rw [← hnf, ← hget]
        simp only [heq]
      exact absurd hlt (hsame ▸ Nat.lt_irrefl _)
  refine ⟨_, mem_of_lt_getFirstRequest hn hbefore, ?_⟩
  rw [asks_chosen w insertion hsome he]
  exact List.mem_append_right _
    (List.mem_append_left _ (mem_scanned hn hbefore.le))

theorem take_perm (he : chosen s again = some e) :
    List.Perm s.requestsQueue
      (e :: s.requestsQueue.eraseIdx
        (getFirstRequest s.pendingJobs again s.requestsQueue)) := by
  obtain ⟨hlen, hget⟩ := List.getElem?_eq_some_iff.mp he
  exact hget ▸ (List.getElem_cons_eraseIdx_perm hlen).symm

end

end

section
variable {W : Type} [DecidableEq W] {s : State W}

/-! A worker that does not execute anything, before the step and after it. -/

theorem update_running_iff {pc : W → Pc} {w : W} {p : Pc}
    (hw : ∀ e id, pc w ≠ .running e id) (hp : ∀ e id, p ≠ .running e id)
    (v : W) (e : Entry) (id : Text) :
    Function.update pc w p v = .running e id ↔ pc v = .running e id := by
  by_cases hv : v = w
  · subst hv
    rw [Function.update_self]
    exact ⟨fun h => absurd h (hp e id), fun h => absurd h (hw e id)⟩
  · rw [Function.update_of_ne hv]

theorem exclusive_update (hs : Exclusive s) {w : W} {p : Pc} {asked : List Asked}
    (hw : ∀ e id, s.pc w ≠ .running e id) (hp : ∀ e id, p ≠ .running e id) :
    Exclusive { s with pc := Function.update s.pc w p, asked := asked } where
  live := hs.live
  numbered := hs.numbered
  once := hs.once
  finishedOnce := hs.finishedOnce
  finishedStarted := hs.finishedStarted
  executing := by simpa only [update_running_iff hw hp] using hs.executing
  apart := by simpa only [update_running_iff hw hp] using hs.apart
  inOrder := hs.inOrder
  pending := by simpa only [update_running_iff hw hp] using hs.pending

theorem inv_wake (hs : Inv s) {w : W} (hpc : s.pc w = .waiting) :
    Inv { s with pc := Function.update s.pc w .looking } where
  toExclusive := exclusive_update hs.toExclusive (by simp [hpc]) (by simp)
  sorted := hs.sorted
  steady := hs.steady
  asked := hs.asked
  passed := hs.passed
  waits := by
    intro v hv
    by_cases hvw : v = w
    · subst hvw
      simp only [Function.update_self] at hv
      cases hv
    · simp only [Function.update_of_ne hvw] at hv
      exact hs.waits v hv

/-- A worker that finds nothing waits, with every command in the queue held
back by an id in the set. -/
theorem inv_wait (hs : Inv s) {w : W} {scan again : ℕ → Timeval}
    {insertion : Timeval} (hst : Steady s (.enter w scan again insertion))
    (hpc : s.pc w = .looking)
    (hnone : getFirstRequest s.pendingJobs scan s.requestsQueue =
      s.requestsQueue.length) :
    Inv { s with
      pc := Function.update s.pc w .waiting
      asked := s.asked ++ asks s (.enter w scan again insertion) } where
  toExclusive := exclusive_update hs.toExclusive (by simp [hpc]) (by simp)
  sorted := hs.sorted
  steady := steady_append hs hst
  asked := fun a ha => List.mem_append_left _ (hs.asked a ha)
  passed := passed_append hs _
  waits := by
    intro v _ e he
    obtain ⟨y, hy, hmem⟩ := scanned_all hnone he
    refine ⟨y, hy, List.mem_append_right _ ?_⟩
    exact List.mem_append_left _ hmem

section
variable {w : W} {scan again : ℕ → Timeval} {insertion : Timeval} {e : Entry}

/-- What is running after a worker with nothing to execute takes a command. -/
theorem running_take {id : Text} (hpc : s.pc w = .looking) (v : W) (f : Entry)
    (j : Text) :
    Function.update s.pc w (.running e id) v = .running f j ↔
      s.pc v = .running f j ∨ (v = w ∧ e = f ∧ id = j) := by
  by_cases hv : v = w
  · subst hv
    simp [hpc]
  · simp [hv]

theorem exclusive_take (hs : Inv s)
    (hst : Steady s (.enter w scan again insertion)) (hpc : s.pc w = .looking)
    (hsome : getFirstRequest s.pendingJobs scan s.requestsQueue ≠
      s.requestsQueue.length) (he : chosen s again = some e) :
    Exclusive { s with
      requestsQueue := s.requestsQueue.eraseIdx
        (getFirstRequest s.pendingJobs again s.requestsQueue)
      pendingJobs := insert (e.cmd.getGridJobId insertion) s.pendingJobs
      pc := Function.update s.pc w
        (.running e (e.cmd.getGridJobId insertion))
      asked := s.asked ++ asks s (.enter w scan again insertion)
      started := s.started ++ [⟨e, e.cmd.getGridJobId insertion⟩] } := by
  have hmem : e ∈ s.requestsQueue := List.mem_of_getElem? he
  have hnot := insertion_notMem hst hsome he
  have hasks := asks_chosen w insertion hsome he
  exact {
    live := hs.live
    numbered := hs.numbered
    once := by
      refine List.Perm.trans ?_ hs.once
      rw [List.map_append, List.map_singleton, ← List.append_assoc]
      refine List.Perm.trans List.perm_append_comm ?_
      exact List.Perm.append_right _ (take_perm he).symm
    finishedOnce := hs.finishedOnce
    finishedStarted := by
      intro f hf
      obtain ⟨a, ha, haf⟩ := hs.finishedStarted f hf
      exact ⟨a, List.mem_append_left _ ha, haf⟩
    executing := by
      intro a
      have hold := hs.executing a
      have hfin : e ∉ s.finished := by
        intro hf
        obtain ⟨b, hb, hbe⟩ := hs.finishedStarted e hf
        exact queue_not_started hs hmem hb hbe
      simp only [running_take hpc, exists_or, hold, List.mem_append,
        List.mem_singleton, exists_eq_left]
      constructor
      · rintro (⟨ha, hnf⟩ | ⟨h₁, h₂⟩)
        · exact ⟨.inl ha, hnf⟩
        · exact ⟨.inr (by cases a; simp_all), h₁ ▸ hfin⟩
      · rintro ⟨ha | rfl, hnf⟩
        · exact .inl ⟨ha, hnf⟩
        · exact .inr ⟨rfl, rfl⟩
    apart := by
      intro u v f g id hu hv
      simp only [running_take hpc] at hu hv
      rcases hu with hu | ⟨rfl, -, rfl⟩
      · rcases hv with hv | ⟨rfl, -, rfl⟩
        · exact hs.apart u v f g id hu hv
        · exact absurd ((hs.pending _).mpr ⟨u, f, hu⟩) hnot
      · rcases hv with hv | ⟨rfl, -, -⟩
        · exact absurd ((hs.pending _).mpr ⟨v, g, hv⟩) hnot
        · rfl
    inOrder := by
      refine List.pairwise_append.mpr
        ⟨hs.inOrder, List.pairwise_singleton _ _, ?_⟩
      intro a ha b hb hab
      rw [List.mem_singleton.mp hb] at hab ⊢
      by_contra hge
      have hne : a.entry.ticket ≠ e.ticket := fun h =>
        queue_not_started hs hmem ha
          (ticket_injOn hs (started_added hs ha) (queue_added hs hmem) h)
      have hlt : e.ticket < a.entry.ticket := by
        simp only at hge
        omega
      -- `e` was passed over when `a` was taken, for another id
      obtain ⟨y, hy, hya⟩ := hs.passed e hmem a ha hlt
      have heq := hst (e.ask insertion) (by simp [hasks]) _
        (List.mem_append_left _ hy) rfl
      exact hya (by rw [hab]; exact heq.symm)
    pending := by
      intro id
      have hold := hs.pending id
      simp only [Finset.mem_insert, running_take hpc, exists_or, hold]
      constructor
      · rintro (rfl | h)
        · exact .inr ⟨w, e, rfl, rfl, rfl⟩
        · exact .inl h
      · rintro (h | ⟨v, f, rfl, rfl, rfl⟩)
        · exact .inr h
        · exact .inl rfl }

theorem inv_take (hs : Inv s)
    (hst : Steady s (.enter w scan again insertion)) (hpc : s.pc w = .looking)
    (hsome : getFirstRequest s.pendingJobs scan s.requestsQueue ≠
      s.requestsQueue.length) (he : chosen s again = some e) :
    Inv { s with
      requestsQueue := s.requestsQueue.eraseIdx
        (getFirstRequest s.pendingJobs again s.requestsQueue)
      pendingJobs := insert (e.cmd.getGridJobId insertion) s.pendingJobs
      pc := Function.update s.pc w
        (.running e (e.cmd.getGridJobId insertion))
      asked := s.asked ++ asks s (.enter w scan again insertion)
      started := s.started ++ [⟨e, e.cmd.getGridJobId insertion⟩] } := by
  have hmem : e ∈ s.requestsQueue := List.mem_of_getElem? he
  have hnot := insertion_notMem hst hsome he
  have hasks := asks_chosen w insertion hsome he
  have hsub := List.eraseIdx_sublist s.requestsQueue
    (getFirstRequest s.pendingJobs again s.requestsQueue)
  exact {
    toExclusive := exclusive_take hs hst hpc hsome he
    sorted := hs.sorted.sublist hsub
    steady := steady_append hs hst
    asked := by
      intro a ha
      rcases List.mem_append.mp ha with ha | ha
      · exact List.mem_append_left _ (hs.asked a ha)
      · rw [List.mem_singleton.mp ha, hasks]
        exact List.mem_append_right _ (List.mem_append_right _
          (List.mem_append_right _ List.mem_cons_self))
    passed := by
      intro f hf a ha hlt
      have hfq := hsub.subset hf
      rcases List.mem_append.mp ha with ha | ha
      · exact passed_append hs _ f hfq a ha hlt
      · rw [List.mem_singleton.mp ha] at hlt ⊢
        obtain ⟨y, hy, hyasks⟩ :=
          passed_over w insertion hs hsome he hfq hlt
        refine ⟨y, List.mem_append_right _ hyasks, ?_⟩
        rintro rfl
        exact hnot hy
    waits := by
      intro v hv f hf
      have hvw : v ≠ w := by
        rintro rfl
        simp at hv
      simp only [Function.update_of_ne hvw] at hv
      obtain ⟨y, hy, hyasked⟩ := hs.waits v hv f (hsub.subset hf)
      exact ⟨y, Finset.mem_insert_of_mem hy, List.mem_append_left _ hyasked⟩ }

end

/-! The removal. -/

section
variable {w : W} {removal : Timeval} {e : Entry} {id : Text}

/-- What is still running after a worker has ended its command. -/
theorem running_finish (v : W) (f : Entry) (j : Text) :
    notified (Function.update s.pc w .looking v) = .running f j ↔
      v ≠ w ∧ s.pc v = .running f j := by
  by_cases hv : v = w
  · subst hv
    simp
  · simp [hv]

theorem inv_finish (hs : Inv s) (hst : Steady s (.finish w removal))
    (hpc : s.pc w = .running e id) :
    Inv { s with
      pendingJobs := s.pendingJobs.erase (e.cmd.getGridJobId removal)
      pc := fun v => notified (Function.update s.pc w .looking v)
      asked := s.asked ++ asks s (.finish w removal)
      finished := s.finished ++ [e] } := by
  have hrun := (hs.executing ⟨e, id⟩).mp ⟨w, hpc⟩
  exact {
    live := hs.live
    numbered := hs.numbered
    once := hs.once
    finishedOnce := by
      rw [List.nodup_append]
      refine ⟨hs.finishedOnce, List.nodup_singleton _, ?_⟩
      rintro f hf _ hg rfl
      exact hrun.2 (List.mem_singleton.mp hg ▸ hf)
    finishedStarted := by
      intro f hf
      rcases List.mem_append.mp hf with hf | hf
      · exact hs.finishedStarted f hf
      · exact ⟨_, hrun.1, (List.mem_singleton.mp hf).symm⟩
    executing := by
      intro a
      simp only [running_finish, List.mem_append, List.mem_singleton]
      constructor
      · rintro ⟨v, hvw, hv⟩
        obtain ⟨ha, hfin⟩ := (hs.executing a).mp ⟨v, hv⟩
        refine ⟨ha, ?_⟩
        rintro (h | h)
        · exact hfin h
        · have hid : a.id = id := hs.steady _ (hs.asked a ha) _
            (hs.asked _ hrun.1) (by rw [h])
          rw [hid] at hv
          exact hvw (hs.apart v w _ _ id hv hpc)
      · rintro ⟨ha, hfin⟩
        rw [not_or] at hfin
        obtain ⟨v, hv⟩ := (hs.executing a).mpr ⟨ha, hfin.1⟩
        refine ⟨v, ?_, hv⟩
        rintro rfl
        rw [hpc] at hv
        injection hv with hea
        exact hfin.2 hea.symm
    apart := by
      intro u v f g j hu hv
      simp only [running_finish] at hu hv
      exact hs.apart u v f g j hu.2 hv.2
    inOrder := hs.inOrder
    pending := by
      intro j
      simp only [running_finish, removal_id hs hst hpc, Finset.mem_erase,
        hs.pending j]
      constructor
      · rintro ⟨hj, v, f, hv⟩
        refine ⟨v, f, ?_, hv⟩
        rintro rfl
        rw [hpc] at hv
        injection hv with _ hid
        exact hj hid.symm
      · rintro ⟨v, f, hvw, hv⟩
        refine ⟨?_, v, f, hv⟩
        rintro rfl
        exact hvw (hs.apart v w f e j hv hpc)
    sorted := hs.sorted
    steady := steady_append hs hst
    asked := fun a ha => List.mem_append_left _ (hs.asked a ha)
    passed := passed_append hs _
    waits := fun v hv => absurd hv (notified_ne_waiting _) }

end

theorem inv_next {l : Label W} {s' : State W} (hs : Inv s) (hst : Steady s l)
    (h : next s l = some s') : Inv s' := by
  rw [next, if_neg (by simp [hs.live]), Option.map_eq_some_iff] at h
  obtain ⟨t, ht, rfl⟩ := h
  cases l with
  | addRequest req =>
      cases ht
      simpa only [asks, List.append_nil] using inv_addRequest hs req
  | wake w =>
      cases hpc : s.pc w with
      | waiting =>
          simp only [act, hpc, Option.some.injEq] at ht
          subst ht
          simpa only [asks, List.append_nil] using inv_wake hs hpc
      | _ => simp [act, hpc] at ht
  | enter w scan again insertion =>
      cases hpc : s.pc w with
      | looking =>
          simp only [act, hpc, Option.some.injEq, enter] at ht
          split at ht
          · next hnone =>
              subst ht
              exact inv_wait hs hst hpc hnone
          · next hsome =>
              obtain ⟨e, he⟩ := chosen_isSome hst hsome
              simp only [takeRequest, he] at ht
              subst ht
              exact inv_take hs hst hpc hsome he
      | _ => simp [act, hpc] at ht
  | finish w removal =>
      cases hpc : s.pc w with
      | running e id =>
          simp only [act, hpc, Option.some.injEq] at ht
          subst ht
          exact inv_finish hs hst hpc
      | _ => simp [act, hpc] at ht

/-- As long as every command keeps to its id, the pool keeps its promise. -/
theorem orderly_of_steady {ls : List (Label W)}
    (hst : Meets next Steady (init W) ls) (h : run next (init W) ls = some s) :
    Orderly s :=
  orderly_of_inv (run_invariant (fun _ _ _ => inv_next) (inv_init W) hst h)

/-- A command that gives another id at the end leaves the first one behind. -/
theorem not_orderly_of_finish {s' : State W} {w : W} {removal : Timeval}
    {e : Entry} {id : Text} (hs : Exclusive s) (hpc : s.pc w = .running e id)
    (hne : e.cmd.getGridJobId removal ≠ id)
    (h : next s (.finish w removal) = some s') : ¬ Orderly s' := by
  intro hord
  rw [next, if_neg (by simp [hs.live]), Option.map_eq_some_iff] at h
  obtain ⟨t, ht, rfl⟩ := h
  simp only [act, hpc, Option.some.injEq] at ht
  subst ht
  have hid : id ∈ s.pendingJobs.erase (e.cmd.getGridJobId removal) :=
    Finset.mem_erase.mpr ⟨hne.symm, (hs.pending id).mpr ⟨w, e, hpc⟩⟩
  obtain ⟨v, f, hv⟩ := (hord.pending id).mp hid
  simp only [running_finish] at hv
  exact hv.1 (hs.apart v w f e id hv.2 hpc)

end

/-! ## Commands that keep their id -/

section
variable {W : Type} {s : State W}

/-- The id of the command does not depend on the clock. -/
def Command.KeepsId (c : Command) : Prop :=
  ∀ now now', c.getGridJobId now = c.getGridJobId now'

/-- Every question was put to a command that was added. -/
structure Known (s : State W) : Prop where
  numbered : s.added.map Entry.ticket = List.range s.added.length
  queue : ∀ e ∈ s.requestsQueue, e ∈ s.added
  running : ∀ w e id, s.pc w = .running e id → e ∈ s.added
  asked : ∀ a ∈ s.asked, ∃ e ∈ s.added, ∃ now, a = e.ask now

theorem mem_answers {clock : ℕ → Timeval} {q : List Entry} {a : Asked}
    (h : a ∈ answers clock q) : ∃ e ∈ q, ∃ now, a = e.ask now := by
  obtain ⟨n, hn⟩ := List.mem_iff_getElem?.mp h
  rw [getElem?_answers, Option.map_eq_some_iff] at hn
  obtain ⟨e, he, rfl⟩ := hn
  exact ⟨e, List.mem_of_getElem? he, _, rfl⟩

theorem asks_known (hs : Known s) {l : Label W} {a : Asked} (h : a ∈ asks s l) :
    ∃ e ∈ s.added, ∃ now, a = e.ask now := by
  have hscan : ∀ clock, a ∈ scanned s.pendingJobs clock s.requestsQueue →
      ∃ e ∈ s.added, ∃ now, a = e.ask now := by
    intro clock ha
    obtain ⟨e, he, hask⟩ := mem_answers (List.mem_of_mem_take ha)
    exact ⟨e, hs.queue e he, hask⟩
  cases l with
  | enter w scan again insertion =>
      rcases List.mem_append.mp h with h | h
      · exact hscan _ h
      · split at h
        · cases h
        · rcases List.mem_append.mp h with h | h
          · exact hscan _ h
          · rw [Option.mem_toList, Option.map_eq_some_iff] at h
            obtain ⟨e, he, rfl⟩ := h
            exact ⟨e, hs.queue e (List.mem_of_getElem? he), _, rfl⟩
  | finish w removal =>
      cases hpc : s.pc w with
      | running e id =>
          simp only [asks, hpc, List.mem_singleton] at h
          exact ⟨e, hs.running w e id hpc, _, h⟩
      | _ => simp [asks, hpc] at h
  | _ => cases h

/-- What is asked is put to a command that was added, before and after. -/
theorem asked_known (hs : Known s) {l : Label W} {added : List Entry}
    (hsub : s.added ⊆ added) :
    ∀ a ∈ s.asked ++ asks s l, ∃ e ∈ added, ∃ now, a = e.ask now := by
  intro a ha
  have hknown : ∃ e ∈ s.added, ∃ now, a = e.ask now := by
    rcases List.mem_append.mp ha with ha | ha
    · exact hs.asked a ha
    · exact asks_known hs ha
  obtain ⟨e, he, hask⟩ := hknown
  exact ⟨e, hsub he, hask⟩

theorem known_init (W : Type) : Known (init W) where
  numbered := rfl
  queue := by simp [init]
  running := by simp [init]
  asked := by simp [init]

/-- Commands that keep their id answer alike. -/
theorem steady_of_known (hs : Known s) (hk : ∀ e ∈ s.added, e.cmd.KeepsId)
    (l : Label W) : Steady s l := by
  intro a ha b hb hab
  obtain ⟨e, he, now, rfl⟩ := asks_known hs ha
  obtain ⟨f, hf, now', rfl⟩ := asked_known hs (List.Subset.refl _) b hb
  have hnodup : (s.added.map Entry.ticket).Nodup := by
    rw [hs.numbered]
    exact List.nodup_range
  have hef : e = f := List.inj_on_of_nodup_map hnodup he hf hab
  rw [← hef]
  exact hk e he now now'

variable [DecidableEq W]

theorem known_enter (hs : Known s) (w : W) (scan again : ℕ → Timeval)
    (insertion : Timeval) (l : Label W) :
    Known { enter s w scan again insertion with
      asked := s.asked ++ asks s l } := by
  have hasked := asked_known hs (l := l) (List.Subset.refl _)
  have hpc : ∀ p, (∀ e id, p = .running e id → e ∈ s.added) →
      ∀ v e id, Function.update s.pc w p v = .running e id → e ∈ s.added := by
    intro p hp v e id h
    by_cases hv : v = w
    · subst hv
      rw [Function.update_self] at h
      exact hp e id h
    · rw [Function.update_of_ne hv] at h
      exact hs.running v e id h
  simp only [enter, takeRequest]
  split
  · exact ⟨hs.numbered, hs.queue, hpc .waiting (by simp), hasked⟩
  · cases he : chosen s again with
    | none => exact ⟨hs.numbered, hs.queue, hs.running, hasked⟩
    | some e =>
        have hmem : e ∈ s.added := hs.queue e (List.mem_of_getElem? he)
        refine ⟨hs.numbered, ?_, hpc _ (by simp [hmem]), hasked⟩
        exact fun f hf => hs.queue f (List.eraseIdx_subset hf)

theorem known_next {l : Label W} {s' : State W} (hs : Known s)
    (h : next s l = some s') :
    Known s' ∧ ∀ e ∈ s'.added, e ∈ s.added ∨ l = .addRequest e.cmd := by
  simp only [next] at h
  split at h
  · cases h
  · rw [Option.map_eq_some_iff] at h
    obtain ⟨t, ht, rfl⟩ := h
    have hasked := asked_known hs (l := l) (List.Subset.refl _)
    cases l with
    | addRequest req =>
        cases ht
        refine ⟨⟨?_, ?_, ?_, asked_known hs (List.subset_append_left _ _)⟩, ?_⟩
        · simp [hs.numbered, List.range_succ]
        · intro e he
          rcases List.mem_append.mp he with he | he
          · exact List.mem_append_left _ (hs.queue e he)
          · exact List.mem_append_right _ he
        · intro w e id hw
          exact List.mem_append_left _
            (hs.running w e id (notified_running.mp hw))
        · intro e he
          rcases List.mem_append.mp he with he | he
          · exact .inl he
          · rw [List.mem_singleton.mp he]
            exact .inr rfl
    | wake w =>
        cases hpc : s.pc w with
        | waiting =>
            simp only [act, hpc, Option.some.injEq] at ht
            subst ht
            refine ⟨⟨hs.numbered, hs.queue, ?_, hasked⟩, fun e he => .inl he⟩
            intro v e id hv
            exact hs.running v e id
              ((update_running_iff (by simp [hpc]) (by simp) v e id).mp hv)
        | _ => simp [act, hpc] at ht
    | enter w scan again insertion =>
        cases hpc : s.pc w with
        | looking =>
            simp only [act, hpc, Option.some.injEq] at ht
            subst ht
            refine ⟨known_enter hs w scan again insertion _, ?_⟩
            intro e he
            refine .inl ?_
            simp only [enter, takeRequest] at he
            split at he
            · exact he
            · split at he <;> exact he
        | _ => simp [act, hpc] at ht
    | finish w removal =>
        cases hpc : s.pc w with
        | running e id =>
            simp only [act, hpc, Option.some.injEq] at ht
            subst ht
            refine ⟨⟨hs.numbered, hs.queue, ?_, hasked⟩, fun e he => .inl he⟩
            intro v f j hv
            exact hs.running v f j (running_finish v f j |>.mp hv).2
        | _ => simp [act, hpc] at ht

/-- What is added keeps its identifier. -/
def AddsKeeping (_ : State W) (l : Label W) : Prop :=
  ∀ req, l = .addRequest req → req.KeepsId

/-- With commands that keep their id every run is steady. -/
theorem steady_of_keepsId {ls : List (Label W)}
    (hk : ∀ req, .addRequest req ∈ ls → req.KeepsId) :
    Meets next Steady (init W) ls := by
  have hstep : ∀ (s : State W) l s',
      (Known s ∧ ∀ e ∈ s.added, e.cmd.KeepsId) → AddsKeeping s l →
      next s l = some s' → Known s' ∧ ∀ e ∈ s'.added, e.cmd.KeepsId := by
    intro s l s' hs hl h
    obtain ⟨hknown, hadded⟩ := known_next hs.1 h
    refine ⟨hknown, fun e he => ?_⟩
    rcases hadded e he with he | rfl
    · exact hs.2 e he
    · exact hl e.cmd rfl
  have hmeets : Meets next AddsKeeping (init W) ls :=
    fun p hp req hl => hk req (hl ▸ label_mem_of_steps hp)
  have hinv := steps_invariant hstep ⟨known_init W, by simp [init]⟩ hmeets
  exact fun p hp => steady_of_known (hinv p hp).1 (hinv p hp).2 p.2

end

/-- Two commands of one job, with two workers. -/
def twoCommands : List (Label (Fin 2)) :=
  let t : Timeval := ⟨0, 0⟩
  [.addRequest (.submit "a".toList), .addRequest (.cancel "a".toList),
    .enter 0 (fun _ => t) (fun _ => t) t, .enter 1 (fun _ => t) (fun _ => t) t,
    .finish 0 t, .enter 1 (fun _ => t) (fun _ => t) t, .finish 1 t]

theorem orderly_twoCommands :
    ∃ s, run next (init (Fin 2)) twoCommands = some s ∧ Orderly s := by
  obtain ⟨s, hs⟩ : ∃ s, run next (init (Fin 2)) twoCommands = some s :=
    Option.isSome_iff_exists.mp (by decide)
  refine ⟨s, hs, orderly_of_steady ?_ hs⟩
  unfold Meets Steady
  decide

/-- One command whose id is the time, executed within a second. -/
def staleId : List (Label Unit) :=
  let t : Timeval := ⟨0, 0⟩
  [.addRequest .eventQuery, .enter () (fun _ => t) (fun _ => t) t,
    .finish () ⟨1, 0⟩]

/-- Nothing is being executed, and the id is still in the set. -/
theorem not_orderly_staleId :
    ¬ ∀ ls : List (Label Unit), ∀ s, run next (init Unit) ls = some s →
      Orderly s := by
  intro h
  obtain ⟨s, hs⟩ : ∃ s, run next (init Unit) staleId = some s :=
    Option.isSome_iff_exists.mp (by decide)
  have hlast : (run next (init Unit) staleId).map (fun s => s.pc ()) =
      some .looking := by decide
  have hset : (run next (init Unit) staleId).map (fun s => s.pendingJobs) =
      some {"0.0".toList} := by decide
  rw [hs, Option.map_some, Option.some.injEq] at hlast hset
  have hquiet : Quiet s := by
    intro w e id hw
    rw [show w = () from rfl, hlast] at hw
    cases hw
  have hempty := (h staleId s hs).idle hquiet
  rw [hset] at hempty
  exact Finset.singleton_ne_empty _ hempty

end Wms.Ice.ThreadPool
