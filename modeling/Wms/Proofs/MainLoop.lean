import Wms.Ice.MainLoop

/-!
# What becomes of the requests of ICE

The invariant is kept for one name at a time: how often the name stands in each
place is balanced. Each step of the loop and of the workers moves one name from
one place to another.

No step removes a file that is waiting under `new`. So a request that was moved
back while a command for it was in memory is executed again, and so is one whose
file could not be removed. One whose file stays where it was found until its command
has ended, and is removed then, is executed once.
-/

namespace Wms.Ice.MainLoop

open Wms.Lib

/-! ## One step -/

/-- What a step can do. Where no request changes its place the loop goes on with
those it has in hand. -/
inductive Goes (s : State) : Label → State → Prop where
  | deliver {n : Text} (hnew : n ∉ s.arrived) : Goes s (.deliver n) { s with
      new := insert n s.new
      arrived := s.arrived ++ [n] }
  | walk {l : Label} {loop : Loop} {countOld : ℕ}
      (hrequests : loop.requests = s.loop.requests) (hup : loop ≠ .stopped) :
      Goes s l { s with loop := loop, countOld := countOld }
  | setOld {n : Text} {entries requests : List Text}
      (hloop : s.loop = .fetching (n :: entries) requests) (hmem : n ∈ s.new) :
      Goes s .setOld { s with
        new := s.new.erase n
        old := insert n s.old
        loop := .fetching entries (requests ++ [n])
        fetched := s.fetched ++ [n] }
  | handle {n : Text} {requests : List Text} {v : Verdict}
      (hloop : s.loop = .handling (n :: requests)) :
      Goes s (.handle v) (handle { s with loop := .handling requests } n v)
  | requeue {n : Text} (hloop : s.loop = .sweeping) (hmem : n ∈ s.old) :
      Goes s (.requeue n) (moveBack s n)
  | take {i : ℕ} {cmd : Command} (hcmd : s.requestsQueue[i]? = some cmd) :
      Goes s (.take i) { s with
        requestsQueue := s.requestsQueue.eraseIdx i
        running := s.running ++ [cmd] }
  | finish {i : ℕ} {purges removes : Bool} {cmd : Command}
      (hcmd : s.running[i]? = some cmd) : Goes s (.finish i purges removes)
        (endCommand { s with running := s.running.eraseIdx i } cmd purges removes)
  | stop (hup : s.loop ≠ .stopped) : Goes s .stop { s with
      loop := .stopped
      requestsQueue := []
      running := []
      lost := s.lost ++ inMemory s }
  | start (hloop : s.loop = .stopped) : Goes s (.start true) { s with
      new := s.new ∪ s.old
      old := ∅
      loop := .check
      countOld := 0
      requeued := s.requeued ++ s.old.sort (· ≤ ·) }

theorem goes_of_next {cfg : Config} {s s' : State} {l : Label}
    (hn : next cfg s l = some s') : Goes s l s' := by
  cases l with
  | deliver n =>
      rw [next] at hn
      split at hn
      next => cases hn
      next hnew =>
          obtain rfl := Option.some.inj hn
          exact .deliver hnew
  | check =>
      rw [next] at hn
      split at hn
      next hloop =>
          split at hn <;> obtain rfl := Option.some.inj hn <;>
            exact .walk (by rw [hloop]; rfl) (by simp)
      next => cases hn
  | setOld =>
      rw [next] at hn
      split at hn
      next n entries requests hloop =>
          split at hn
          next =>
              obtain rfl := Option.some.inj hn
              exact .walk (by rw [hloop]; rfl) (by simp)
          next =>
              split at hn
              next hmem =>
                  obtain rfl := Option.some.inj hn
                  exact .setOld hloop hmem
              next =>
                  obtain rfl := Option.some.inj hn
                  exact .walk (by rw [hloop]; rfl) (by simp)
      next hloop =>
          obtain rfl := Option.some.inj hn
          exact .walk (by rw [hloop]; rfl) (by simp)
      next => cases hn
  | setOldFails =>
      rw [next] at hn
      split at hn
      next hloop =>
          obtain rfl := Option.some.inj hn
          exact .walk (by rw [hloop]; rfl) (by simp)
      next => cases hn
  | handle v =>
      rw [next] at hn
      split at hn
      next hloop =>
          obtain rfl := Option.some.inj hn
          exact .handle hloop
      next hloop =>
          obtain rfl := Option.some.inj hn
          exact .walk (by rw [hloop]; rfl) (by simp)
      next => cases hn
  | sleep =>
      rw [next] at hn
      split at hn
      next hloop =>
          split at hn <;> obtain rfl := Option.some.inj hn <;>
            exact .walk (by rw [hloop]; rfl) (by simp)
      next => cases hn
  | requeue n =>
      rw [next] at hn
      split at hn
      next hmem =>
          obtain rfl := Option.some.inj hn
          exact .requeue hmem.1 hmem.2
      next => cases hn
  | endSweep =>
      rw [next] at hn
      split at hn
      next hloop =>
          obtain rfl := Option.some.inj hn
          exact .walk (by rw [hloop]; rfl) (by simp)
      next => cases hn
  | take i =>
      rw [next] at hn
      split at hn
      next cmd hcmd =>
          obtain rfl := Option.some.inj hn
          exact .take hcmd
      next => cases hn
  | finish i purges removes =>
      rw [next] at hn
      split at hn
      next cmd hcmd =>
          obtain rfl := Option.some.inj hn
          exact .finish hcmd
      next => cases hn
  | stop =>
      rw [next] at hn
      split at hn
      next => cases hn
      next hup =>
          obtain rfl := Option.some.inj hn
          exact .stop hup
  | start moves =>
      rw [next] at hn
      split at hn
      next hloop =>
          split at hn
          next hmoves =>
              obtain rfl := Option.some.inj hn
              subst hmoves
              exact .start hloop
          next =>
              obtain rfl := Option.some.inj hn
              exact .walk (by rw [hloop]; rfl) (by simp)
      next => cases hn

/-! ## One name -/

/-- One if the name is there. -/
def here (dir : Finset Text) (name : Text) : ℕ := if name ∈ dir then 1 else 0

structure Balanced (s : State) (name : Text) : Prop where
  kept : s.arrived.count name =
    here s.new name + here s.old name + s.removed.count name
  unique : s.arrived.count name ≤ 1
  reason : 0 < s.removed.count name →
    0 < s.refused.count name + s.finished.count name
  fetched : s.fetched.count name + here s.new name =
    s.arrived.count name + s.requeued.count name
  ends : s.fetched.count name = (inMemory s).count name + s.refused.count name +
    s.putOff.count name + s.dropped.count name + s.finished.count name +
    s.lost.count name

section
variable {s s' : State} {name n : Text} {dir : Finset Text} {cfg : Config}
  {removes : Bool}

/-- What the loop can do with a request. -/
theorem handle_cases (s : State) (name : Text) (v : Verdict) :
    handle s name v = refuse s name v.removes ∨
      handle s name v = { s with putOff := s.putOff ++ [name] } ∨
        ∃ type, handle s name v = addRequest s type name := by
  rw [handle]
  split
  · exact .inl rfl
  · exact .inr (.inr ⟨_, rfl⟩)
  · split
    · exact .inl rfl
    · split
      · exact .inr (.inl rfl)
      · exact .inr (.inr ⟨_, rfl⟩)

theorem here_insert_self : here (insert n dir) n = 1 := by simp [here]

theorem here_insert_ne (h : name ≠ n) : here (insert n dir) name = here dir name := by
  simp [here, h]

theorem here_erase_self : here (dir.erase n) n = 0 := by simp [here]

theorem here_erase_ne (h : name ≠ n) : here (dir.erase n) name = here dir name := by
  simp [here, h]

theorem here_of_mem (h : n ∈ dir) : here dir n = 1 := if_pos h

theorem here_of_not_mem (h : n ∉ dir) : here dir n = 0 := if_neg h

theorem count_inMemory : (inMemory s).count name = s.loop.requests.count name +
    (s.requestsQueue.map (·.request)).count name +
    (s.running.map (·.request)).count name := by
  rw [inMemory, List.count_append, List.count_append]

theorem count_snoc {xs : List Text} :
    (xs ++ [n]).count name = xs.count name + if n = name then 1 else 0 := by
  rw [List.count_append, List.count_singleton]
  simp [beq_iff_eq]

/-- A command that is taken out of a list. -/
theorem count_eraseIdx (name : Text) {cmds : List Command} {cmd : Command} {i : ℕ}
    (h : cmds[i]? = some cmd) : (cmds.map (·.request)).count name =
      ((cmds.eraseIdx i).map (·.request)).count name +
        if cmd.request = name then 1 else 0 := by
  induction cmds generalizing i with
  | nil => cases h
  | cons c cmds ih =>
      cases i with
      | zero =>
          obtain rfl := Option.some.inj h
          rw [List.eraseIdx_cons_zero, List.map_cons, List.count_cons]
          simp [beq_iff_eq]
      | succ i =>
          rw [List.eraseIdx_cons_succ, List.map_cons, List.map_cons, List.count_cons,
            List.count_cons, ih h]
          omega

/-- What the process has in hand or has lost matters to the ends only. -/
theorem Balanced.moving (h : Balanced s name) (hnew : s'.new = s.new)
    (hold : s'.old = s.old) (harrived : s'.arrived = s.arrived)
    (hremoved : s'.removed = s.removed) (hrefused : s'.refused = s.refused)
    (hfinished : s'.finished = s.finished) (hfetched : s'.fetched = s.fetched)
    (hrequeued : s'.requeued = s.requeued)
    (hends : (inMemory s').count name + s'.putOff.count name +
      s'.dropped.count name + s'.lost.count name = (inMemory s).count name +
        s.putOff.count name + s.dropped.count name + s.lost.count name) :
    Balanced s' name := by
  obtain ⟨hkept, hunique, hreason, hfetch, hall⟩ := h
  refine ⟨?_, ?_, ?_, ?_, ?_⟩
  · rw [hnew, hold, harrived, hremoved, hkept]
  · rw [harrived]
    exact hunique
  · rw [hremoved, hrefused, hfinished]
    exact hreason
  · rw [harrived, hnew, hfetched, hrequeued]
    exact hfetch
  · rw [hfetched, hrefused, hfinished]
    omega

/-- The removal of a request that has been refused, or whose command has ended. -/
theorem balanced_removeRequest (hkept : s.arrived.count name =
      here s.new name + here s.old name + s.removed.count name)
    (hunique : s.arrived.count name ≤ 1)
    (hreason : 0 < s.removed.count name →
      0 < s.refused.count name + s.finished.count name)
    (hfetched : s.fetched.count name + here s.new name =
      s.arrived.count name + s.requeued.count name)
    (hends : s.fetched.count name = (inMemory s).count name + s.refused.count name +
      s.putOff.count name + s.dropped.count name + s.finished.count name +
      s.lost.count name)
    (hdone : n = name → 0 < s.refused.count name + s.finished.count name) :
    Balanced (removeRequest s n removes) name := by
  cases removes with
  | false => exact ⟨hkept, hunique, hreason, hfetched, hends⟩
  | true =>
      refine ⟨?_, hunique, ?_, hfetched, hends⟩
      · by_cases hn : n = name
        · subst hn
          by_cases hmem : n ∈ s.old
          · rw [here_of_mem hmem] at hkept
            simp only [removeRequest, if_pos hmem, here_erase_self, count_snoc, if_true]
            omega
          · simp only [removeRequest, if_neg hmem, Finset.erase_eq_of_notMem hmem,
              if_true]
            exact hkept
        · simp only [removeRequest, if_true, here_erase_ne (Ne.symm hn)]
          split
          · rw [count_snoc, if_neg hn, Nat.add_zero]
            exact hkept
          · exact hkept
      · intro hremoved
        by_cases hn : n = name
        · exact hdone hn
        · refine hreason ?_
          simp only [removeRequest, if_true] at hremoved
          split at hremoved
          · rw [count_snoc, if_neg hn, Nat.add_zero] at hremoved
            exact hremoved
          · exact hremoved

theorem Balanced.deliver (h : Balanced s name) (hnew : n ∉ s.arrived) :
    Balanced { s with new := insert n s.new, arrived := s.arrived ++ [n] } name := by
  obtain ⟨hkept, hunique, hreason, hfetched, hends⟩ := h
  by_cases hn : n = name
  · subst hn
    have hzero := List.count_eq_zero_of_not_mem hnew
    have hmem : here s.new n = 0 := by omega
    refine ⟨?_, ?_, hreason, ?_, hends⟩ <;>
      simp only [count_snoc, here_insert_self, if_true] <;> omega
  · refine ⟨?_, ?_, hreason, ?_, hends⟩ <;>
      simpa only [count_snoc, here_insert_ne (Ne.symm hn), if_neg hn, Nat.add_zero]

theorem Balanced.setOld (h : Balanced s name) {entries requests : List Text}
    (hloop : s.loop = .fetching (n :: entries) requests) (hmem : n ∈ s.new) :
    Balanced { s with
      new := s.new.erase n
      old := insert n s.old
      loop := .fetching entries (requests ++ [n])
      fetched := s.fetched ++ [n] } name := by
  obtain ⟨hkept, hunique, hreason, hfetched, hends⟩ := h
  rw [count_inMemory, hloop] at hends
  simp only [Loop.requests] at hends
  by_cases hn : n = name
  · subst hn
    rw [here_of_mem hmem] at hkept hfetched
    refine ⟨?_, hunique, hreason, ?_, ?_⟩ <;>
      simp only [count_inMemory, Loop.requests, count_snoc, here_erase_self,
        here_insert_self, if_true] <;> omega
  · refine ⟨?_, hunique, hreason, ?_, ?_⟩ <;>
      simp only [count_inMemory, Loop.requests, count_snoc,
        here_erase_ne (Ne.symm hn), here_insert_ne (Ne.symm hn), if_neg hn] <;> omega

/-- A request in hand that is refused. -/
theorem Balanced.refuse (h : Balanced s name) {requests : List Text}
    (hloop : s.loop = .handling (n :: requests)) :
    Balanced (refuse { s with loop := .handling requests } n removes) name := by
  obtain ⟨hkept, hunique, hreason, hfetched, hends⟩ := h
  rw [count_inMemory, hloop] at hends
  simp only [Loop.requests, List.count_cons, beq_iff_eq] at hends
  refine balanced_removeRequest hkept hunique (fun hremoved => ?_) hfetched ?_
    (fun hn => ?_)
  · have hbefore := hreason hremoved
    simp only [count_snoc]
    omega
  · simp only [count_inMemory, Loop.requests, count_snoc]
    omega
  · simp only [count_snoc, if_pos hn]
    omega

theorem Balanced.handle (h : Balanced s name) {requests : List Text} {v : Verdict}
    (hloop : s.loop = .handling (n :: requests)) :
    Balanced (handle { s with loop := .handling requests } n v) name := by
  rcases handle_cases { s with loop := .handling requests } n v with
    heq | heq | ⟨type, heq⟩ <;> rw [heq]
  · exact h.refuse hloop
  · refine h.moving rfl rfl rfl rfl rfl rfl rfl rfl ?_
    simp only [count_inMemory, hloop, Loop.requests, List.count_cons, count_snoc,
      beq_iff_eq]
    omega
  · refine h.moving rfl rfl rfl rfl rfl rfl rfl rfl ?_
    simp only [count_inMemory, hloop, addRequest, Loop.requests, List.count_cons,
      List.map_append, List.map_cons, List.map_nil, count_snoc, beq_iff_eq]
    omega

theorem Balanced.moveBack (h : Balanced s name) (hmem : n ∈ s.old) :
    Balanced (moveBack s n) name := by
  obtain ⟨hkept, hunique, hreason, hfetched, hends⟩ := h
  by_cases hn : n = name
  · subst hn
    have hold := here_of_mem hmem
    refine ⟨?_, hunique, hreason, ?_, hends⟩ <;>
      simp only [MainLoop.moveBack, count_snoc, here_insert_self, here_erase_self,
        if_true] <;> omega
  · refine ⟨?_, hunique, hreason, ?_, hends⟩ <;>
      simp only [MainLoop.moveBack, count_snoc, here_insert_ne (Ne.symm hn),
        here_erase_ne (Ne.symm hn), if_neg hn] <;> omega

theorem Balanced.take (h : Balanced s name) {i : ℕ} {cmd : Command}
    (hcmd : s.requestsQueue[i]? = some cmd) :
    Balanced { s with
      requestsQueue := s.requestsQueue.eraseIdx i
      running := s.running ++ [cmd] } name := by
  refine h.moving rfl rfl rfl rfl rfl rfl rfl rfl ?_
  rw [count_inMemory, count_inMemory, count_eraseIdx name hcmd]
  simp only [List.map_append, List.map_cons, List.map_nil, count_snoc]
  omega

theorem Balanced.finish (h : Balanced s name) {i : ℕ} {cmd : Command} {purges : Bool}
    (hcmd : s.running[i]? = some cmd) :
    Balanced (endCommand { s with running := s.running.eraseIdx i } cmd purges removes)
      name := by
  have hcount := count_eraseIdx name hcmd
  rw [endCommand]
  split
  · refine h.moving rfl rfl rfl rfl rfl rfl rfl rfl ?_
    rw [count_inMemory, count_inMemory]
    simp only [count_snoc]
    omega
  · obtain ⟨hkept, hunique, hreason, hfetched, hends⟩ := h
    rw [count_inMemory] at hends
    refine balanced_removeRequest hkept hunique (fun hremoved => ?_) hfetched ?_
      (fun hn => ?_)
    · have hbefore := hreason hremoved
      simp only [count_snoc]
      omega
    · rw [count_inMemory]
      simp only [count_snoc]
      omega
    · simp only [count_snoc, if_pos hn]
      omega

theorem Balanced.stop (h : Balanced s name) : Balanced { s with
    loop := .stopped
    requestsQueue := []
    running := []
    lost := s.lost ++ inMemory s } name := by
  refine h.moving rfl rfl rfl rfl rfl rfl rfl rfl ?_
  rw [count_inMemory]
  simp only [Loop.requests, List.map_nil, List.count_nil, List.count_append]
  omega

theorem count_sort : (dir.sort (· ≤ ·)).count name = here dir name := by
  rw [(dir.sort_nodup (· ≤ ·)).count, here]
  simp

theorem here_union {dir' : Finset Text} (h : here dir name + here dir' name ≤ 1) :
    here (dir ∪ dir') name = here dir name + here dir' name := by
  simp only [here, Finset.mem_union] at h ⊢
  by_cases hmem : name ∈ dir
  · by_cases hmem' : name ∈ dir'
    · simp [hmem, hmem'] at h
    · simp [hmem, hmem']
  · simp [hmem]

theorem Balanced.start (h : Balanced s name) (hloop : s.loop = .stopped) :
    Balanced { s with
      new := s.new ∪ s.old
      old := ∅
      loop := .check
      countOld := 0
      requeued := s.requeued ++ s.old.sort (· ≤ ·) } name := by
  obtain ⟨hkept, hunique, hreason, hfetched, hends⟩ := h
  have hunion : here (s.new ∪ s.old) name = here s.new name + here s.old name :=
    here_union (by omega)
  have hempty : here ∅ name = 0 := here_of_not_mem (Finset.notMem_empty name)
  rw [count_inMemory, hloop] at hends
  refine ⟨?_, hunique, hreason, ?_, ?_⟩
  · simp only [hunion, hempty]
    omega
  · simp only [hunion, List.count_append, count_sort]
    omega
  · rw [count_inMemory]
    exact hends

/-- Where the loop goes without a request in hand. -/
theorem Balanced.walk (h : Balanced s name) {loop : Loop} {countOld : ℕ}
    (hrequests : loop.requests = s.loop.requests) :
    Balanced { s with loop := loop, countOld := countOld } name := by
  refine h.moving rfl rfl rfl rfl rfl rfl rfl rfl ?_
  rw [count_inMemory, count_inMemory, hrequests]

theorem balanced_next {l : Label} (h : Balanced s name) (hn : next cfg s l = some s') :
    Balanced s' name := by
  cases goes_of_next hn with
  | deliver hnew => exact h.deliver hnew
  | walk hrequests _ => exact h.walk hrequests
  | setOld hloop hmem => exact h.setOld hloop hmem
  | handle hloop => exact h.handle hloop
  | requeue _ hmem => exact h.moveBack hmem
  | take hcmd => exact h.take hcmd
  | finish hcmd => exact h.finish hcmd
  | stop _ => exact h.stop
  | start hloop => exact h.start hloop

end

theorem balanced_init (name : Text) : Balanced init name :=
  ⟨rfl, Nat.zero_le 1, fun h => absurd h (Nat.lt_irrefl 0), rfl, rfl⟩

/-! ## All of them -/

theorem balanced_run {cfg : Config} {ls : List Label} {s : State}
    (hrun : run (next cfg) init ls = some s) (name : Text) : Balanced s name :=
  run_invariant (fun _ _ _ h _ hn => balanced_next h hn) (balanced_init name)
    (meets_true (next cfg) init ls) hrun

/-- Stops of the process and moves back included. -/
theorem requests_accounted {cfg : Config} {ls : List Label} {s : State}
    (hrun : run (next cfg) init ls = some s) : Accounted s where
  kept name := (balanced_run hrun name).kept
  unique := List.nodup_iff_count_le_one.mpr fun name => (balanced_run hrun name).unique
  reason name hname := by
    have hdone := (balanced_run hrun name).reason (List.count_pos_iff.mpr hname)
    rcases Nat.eq_zero_or_pos (s.refused.count name) with hzero | hpos
    · exact .inr (List.count_pos_iff.mp (by omega))
    · exact .inl (List.count_pos_iff.mp hpos)
  fetched name := (balanced_run hrun name).fetched
  ends := List.perm_iff_count.mpr fun name => by
    rw [(balanced_run hrun name).ends]
    simp only [List.count_append]

/-- The loop takes as many requests as there are. -/
def fetch (count : ℕ) : List Label := .check :: List.replicate (count + 1) .setOld

/-- The loop queues a submission. -/
def submit : Label := .handle ⟨some .submit, true, false, true⟩

/-- No request is left in hand. -/
def handled : Label := .handle ⟨none, true, true, true⟩

/-- The loop finds nothing for a while. -/
def idle (rounds : ℕ) : List Label :=
  (List.replicate rounds (fetch 0 ++ [handled, .sleep])).flatten

/-- Two requests. The file of the first one cannot be removed when its command has
ended, so that it is moved back after two minutes and executed again. The second one
comes meanwhile, is refused and removed. -/
def twoRequests : List Label :=
  [.deliver ['q']] ++ fetch 1 ++
    [submit, handled, .take 0, .finish 0 true false, .sleep] ++ idle 119 ++
    [.requeue ['q'], .endSweep] ++ fetch 1 ++ [submit, handled, .deliver ['r'], .sleep] ++
    fetch 1 ++ [.handle ⟨some .submit, false, false, true⟩, handled, .take 0,
      .finish 0 true true]

theorem twoRequests_enabled : (run (next ⟨5⟩) init twoRequests).isSome = true := by
  decide +kernel

theorem requests_accounted_two :
    ∃ s, run (next ⟨5⟩) init twoRequests = some s ∧ Accounted s := by
  obtain ⟨s, hs⟩ := Option.isSome_iff_exists.mp twoRequests_enabled
  exact ⟨s, hs, requests_accounted hs⟩

/-! ## Once -/

/-- What is in memory has its file under `old`, and there is only one of it. -/
structure Sole (s : State) (name : Text) : Prop where
  memory : (inMemory s).count name ≤ here s.old name
  done : s.finished.count name + s.refused.count name =
    s.removed.count name + s.unremoved.count name
  idle : s.loop = .stopped → inMemory s = []

section
variable {s s' : State} {name n : Text} {cfg : Config} {removes : Bool}

theorem Sole.moving (h : Sole s name) (hold : s'.old = s.old)
    (hremoved : s'.removed = s.removed) (hunremoved : s'.unremoved = s.unremoved)
    (hrefused : s'.refused = s.refused) (hfinished : s'.finished = s.finished)
    (hmemory : (inMemory s').count name ≤ (inMemory s).count name)
    (hidle : s'.loop = .stopped → inMemory s' = []) : Sole s' name := by
  refine ⟨?_, ?_, hidle⟩
  · rw [hold]
    exact Nat.le_trans hmemory h.memory
  · rw [hfinished, hrefused, hremoved, hunremoved]
    exact h.done

theorem Sole.walk (h : Sole s name) {loop : Loop} {countOld : ℕ}
    (hrequests : loop.requests = s.loop.requests) (hup : loop ≠ .stopped) :
    Sole { s with loop := loop, countOld := countOld } name := by
  refine h.moving rfl rfl rfl rfl rfl ?_ (fun hstopped => absurd hstopped hup)
  rw [count_inMemory, count_inMemory, hrequests]

/-- The file of what was in memory is there, so it is removed, or could not be. -/
theorem sole_removeRequest (hdone : s.finished.count name + s.refused.count name =
      s.removed.count name + s.unremoved.count name + if n = name then 1 else 0)
    (hmemory : (inMemory s).count name + (if n = name then 1 else 0) ≤
      here s.old name) (hidle : s.loop = .stopped → inMemory s = []) :
    Sole (removeRequest s n removes) name := by
  cases removes with
  | false =>
      refine ⟨Nat.le_trans (Nat.le_add_right _ _) hmemory, ?_, hidle⟩
      show s.finished.count name + s.refused.count name =
        s.removed.count name + (s.unremoved ++ [n]).count name
      rw [count_snoc, hdone, Nat.add_assoc]
  | true =>
      by_cases hn : n = name
      · subst hn
        rw [if_pos rfl] at hdone hmemory
        have hmem : n ∈ s.old := by
          by_contra hnot
          rw [here_of_not_mem hnot] at hmemory
          omega
        rw [here_of_mem hmem] at hmemory
        refine ⟨?_, ?_, hidle⟩
        · show (inMemory s).count n ≤ here (s.old.erase n) n
          omega
        · simp only [removeRequest, if_pos hmem, count_snoc, if_true]
          omega
      · rw [if_neg hn, Nat.add_zero] at hdone hmemory
        refine ⟨?_, ?_, hidle⟩
        · show (inMemory s).count name ≤ here (s.old.erase n) name
          rw [here_erase_ne (Ne.symm hn)]
          exact hmemory
        · simp only [removeRequest, if_true]
          split
          · rw [count_snoc, if_neg hn]
            exact hdone
          · exact hdone

theorem Sole.setOld (h : Sole s name) (hb : Balanced s name)
    {entries requests : List Text} (hloop : s.loop = .fetching (n :: entries) requests)
    (hmem : n ∈ s.new) :
    Sole { s with
      new := s.new.erase n
      old := insert n s.old
      loop := .fetching entries (requests ++ [n])
      fetched := s.fetched ++ [n] } name := by
  have hmemory := h.memory
  rw [count_inMemory, hloop] at hmemory
  refine ⟨?_, h.done, fun hstopped => by cases hstopped⟩
  rw [count_inMemory]
  simp only [Loop.requests, count_snoc] at hmemory ⊢
  by_cases hn : n = name
  · subst hn
    have hkept := hb.kept
    have hunique := hb.unique
    rw [here_of_mem hmem] at hkept
    rw [here_insert_self, if_pos rfl]
    omega
  · rw [here_insert_ne (Ne.symm hn), if_neg hn]
    exact hmemory

theorem Sole.handle (h : Sole s name) {requests : List Text} {v : Verdict}
    (hloop : s.loop = .handling (n :: requests)) :
    Sole (handle { s with loop := .handling requests } n v) name := by
  have hmemory := h.memory
  rw [count_inMemory, hloop] at hmemory
  simp only [Loop.requests, List.count_cons, beq_iff_eq] at hmemory
  rcases handle_cases { s with loop := .handling requests } n v with
    heq | heq | ⟨type, heq⟩ <;> rw [heq]
  · refine sole_removeRequest ?_ ?_ (fun hstopped => by cases hstopped)
    · simp only [count_snoc]
      have hdone := h.done
      omega
    · simp only [count_inMemory, Loop.requests]
      omega
  · refine h.moving rfl rfl rfl rfl rfl ?_ (fun hstopped => by cases hstopped)
    simp only [count_inMemory, hloop, Loop.requests, List.count_cons]
    omega
  · refine h.moving rfl rfl rfl rfl rfl ?_ (fun hstopped => by cases hstopped)
    simp only [count_inMemory, hloop, addRequest, Loop.requests, List.count_cons,
      List.map_append, List.map_cons, List.map_nil, count_snoc, beq_iff_eq]
    omega

theorem Sole.moveBack (h : Sole s name) (hspares : n ∉ inMemory s) :
    Sole (moveBack s n) name := by
  refine ⟨?_, h.done, h.idle⟩
  show (inMemory s).count name ≤ here (s.old.erase n) name
  by_cases hn : n = name
  · subst hn
    rw [List.count_eq_zero_of_not_mem hspares]
    exact Nat.zero_le _
  · rw [here_erase_ne (Ne.symm hn)]
    exact h.memory

theorem inMemory_of_stopped (h : Sole s name) (hloop : s.loop = .stopped) :
    s.requestsQueue = [] ∧ s.running = [] := by
  have hidle := h.idle hloop
  rw [inMemory, List.append_eq_nil_iff, List.append_eq_nil_iff, List.map_eq_nil_iff,
    List.map_eq_nil_iff] at hidle
  exact ⟨hidle.1.2, hidle.2⟩

theorem Sole.finish (h : Sole s name) {i : ℕ} {cmd : Command} {purges : Bool}
    (hcmd : s.running[i]? = some cmd) :
    Sole (endCommand { s with running := s.running.eraseIdx i } cmd purges removes)
      name := by
  have hcount := count_eraseIdx name hcmd
  have hup : s.loop ≠ .stopped := by
    intro hloop
    rw [(inMemory_of_stopped h hloop).2] at hcmd
    cases hcmd
  have hmemory := h.memory
  rw [count_inMemory] at hmemory
  rw [endCommand]
  split
  · refine h.moving rfl rfl rfl rfl rfl ?_ (fun hstopped => absurd hstopped hup)
    rw [count_inMemory, count_inMemory]
    dsimp only
    omega
  · refine sole_removeRequest ?_ ?_ (fun hstopped => absurd hstopped hup)
    · simp only [count_snoc]
      have hdone := h.done
      omega
    · rw [count_inMemory]
      dsimp only
      omega

theorem Sole.take (h : Sole s name) {i : ℕ} {cmd : Command}
    (hcmd : s.requestsQueue[i]? = some cmd) :
    Sole { s with
      requestsQueue := s.requestsQueue.eraseIdx i
      running := s.running ++ [cmd] } name := by
  refine h.moving rfl rfl rfl rfl rfl ?_ (fun hloop => ?_)
  · rw [count_inMemory, count_inMemory, count_eraseIdx name hcmd]
    simp only [List.map_append, List.map_cons, List.map_nil, count_snoc]
    omega
  · rw [(inMemory_of_stopped h hloop).1] at hcmd
    cases hcmd

theorem Sole.start (h : Sole s name) (hloop : s.loop = .stopped) :
    Sole { s with
      new := s.new ∪ s.old
      old := ∅
      loop := .check
      countOld := 0
      requeued := s.requeued ++ s.old.sort (· ≤ ·) } name := by
  obtain ⟨hqueue, hrunning⟩ := inMemory_of_stopped h hloop
  refine ⟨?_, h.done, fun hstopped => by cases hstopped⟩
  rw [count_inMemory]
  simp only [hqueue, hrunning, Loop.requests, List.map_nil, List.count_nil]
  exact Nat.zero_le _

theorem sole_next {l : Label} (h : Balanced s name ∧ Sole s name) (hok : spares s l)
    (hn : next cfg s l = some s') : Sole s' name := by
  obtain ⟨hb, h⟩ := h
  cases goes_of_next hn with
  | deliver _ => exact ⟨h.memory, h.done, h.idle⟩
  | walk hrequests hup => exact h.walk hrequests hup
  | setOld hloop hmem => exact h.setOld hb hloop hmem
  | handle hloop => exact h.handle hloop
  | requeue _ _ => exact h.moveBack hok
  | take hcmd => exact h.take hcmd
  | finish hcmd => exact h.finish hcmd
  | stop _ => exact h.moving rfl rfl rfl rfl rfl (Nat.zero_le _) (fun _ => rfl)
  | start hloop => exact h.start hloop

end

theorem sole_init (name : Text) : Sole init name := ⟨Nat.zero_le _, rfl, fun _ => rfl⟩

/-- Where the move back spares what is in memory, a request is executed or refused
once, and once more for each removal that has failed. -/
theorem executed_once {cfg : Config} {ls : List Label} {s : State}
    (hspares : Meets (next cfg) spares init ls)
    (hrun : run (next cfg) init ls = some s) : Once s := by
  have hboth : ∀ name, Balanced s name ∧ Sole s name := fun name =>
    run_invariant (I := fun s => Balanced s name ∧ Sole s name)
      (fun _ _ _ h hok hn => ⟨balanced_next h.1 hn, sole_next h hok hn⟩)
      ⟨balanced_init name, sole_init name⟩ hspares hrun
  refine ⟨?_, ?_, ?_, ?_⟩
  · refine List.nodup_iff_count_le_one.mpr fun name => ?_
    obtain ⟨hb, h⟩ := hboth name
    have hmemory := h.memory
    have hkept := hb.kept
    have hunique := hb.unique
    omega
  · intro name hname
    have hmemory := (hboth name).2.memory
    by_contra hnot
    rw [here_of_not_mem hnot] at hmemory
    exact absurd (List.count_pos_iff.mpr hname) (by omega)
  · intro name
    obtain ⟨hb, h⟩ := hboth name
    have hkept := hb.kept
    have hunique := hb.unique
    rw [List.count_append, h.done]
    omega
  · intro name hname
    rw [List.count_append, (hboth name).2.done] at hname
    exact List.count_pos_iff.mp (by omega)

theorem executed_once_two :
    ∃ s, run (next ⟨5⟩) init twoRequests = some s ∧ Once s := by
  obtain ⟨s, hs⟩ := Option.isSome_iff_exists.mp twoRequests_enabled
  have hspares : ∀ p ∈ steps (next ⟨5⟩) init twoRequests, spares p.1 p.2 := by
    decide +kernel
  exact ⟨s, hs, executed_once hspares hs⟩

/-- Two minutes pass while a command is in the queue: it is executed twice. -/
example : ((run (next ⟨5⟩) init
    ([.deliver ['r']] ++ fetch 1 ++ [submit, handled, .sleep] ++ idle 119 ++
      [.requeue ['r'], .endSweep] ++ fetch 1 ++
      [submit, handled, .take 0, .take 0, .finish 0 true true, .finish 0 true true])).map
        fun s => s.finished) = some [['r'], ['r']] := by decide +kernel

end Wms.Ice.MainLoop
