import Mathlib.Data.List.Nodup
import Wms.Core.DagRequest

/-!
# What one pass over a DAG does

The first loop reads a colour, a failure or nothing from every vertex, and the
second goes through the vertices again with the colours it has got. What the
second finds at a vertex follows from the statuses, as long as the vertices
behind it keep their colours: red stands for a node that has ended badly or was
aborted in the pass, green for one that is done.
-/

namespace Wms.Core.Dag

open Wms.Lib

variable {V : Type} [DecidableEq V] (ans : (c : Call V) → Answer c)

/-! ## What is read from a vertex -/

/-- What the L&B says of a node. -/
def statusOf (v : V) : Option JobState := ans (.nodeStatus v)

/-- What the query for the events of a node ends in. -/
def eventsOf (v : V) : Except Exn (List LbEvent) :=
  queryResult false (ans (.recoveryEvents v))

/-- The context of a node can be made. -/
def hasContext (v : V) : Prop := ∃ u, ans (.createContext v) = .ok u

/-- What a look at a node comes to. -/
inductive Reading where
  | colored (color : Color)
  | temporarilyFailed
  | failed
  | null
  deriving DecidableEq

/-- The color of a node that is done, by its events. -/
def readDone : Except Exn (List LbEvent) → Reading
  | .ok events => .colored (if isLastDone events .ok then .green else .gray)
  | .error .lbQueryTemporarilyFailed => .temporarilyFailed
  | .error _ => .failed

/-- The color of a node, by what the L&B says. -/
def reading (v : V) : Reading :=
  match statusOf ans v with
  | none => .null
  | some .aborted => .colored .red
  | some .cancelled => .colored .red
  | some .done => readDone (eventsOf ans v)
  | some .submitted => .colored .white
  | some _ => .colored .gray

/-- The calls of the first loop at a vertex. -/
def readCalls (v : V) : List (Call V) :=
  .nodeStatus v ::
    if statusOf ans v = some .done then
      .recoveryEvents v ::
        if reading ans v = .temporarilyFailed then [.scheduleAgain] else []
    else []

/-- What is asked about the nodes. -/
def assessCalls : List V → List (Call V)
  | [] => []
  | v :: rest =>
      readCalls ans v ++
        match reading ans v with
        | .null => []
        | .failed => []
        | _ => assessCalls rest

/-- The colors after that, or what ended the pass. -/
def assessEnd : List V → Colors V → Except Fault (Option (Colors V))
  | [], colors => .ok (some colors)
  | v :: rest, colors =>
      match reading ans v with
      | .null => .error .nullStatus
      | .failed => .ok none
      | .temporarilyFailed => assessEnd rest colors
      | .colored color => assessEnd rest (Function.update colors v color)

/-- How many queries fail temporarily before one fails for good, and whether
one does; nothing where a status could not be had before. -/
def scan : List V → Option (ℕ × Bool)
  | [] => some (0, false)
  | v :: rest =>
      match reading ans v with
      | .null => none
      | .failed => some (0, true)
      | .temporarilyFailed => (scan rest).map fun r => (r.1 + 1, r.2)
      | .colored _ => scan rest

/-- The colour that stays where the query fails temporarily is the first one. -/
def colorOf (v : V) : Color :=
  match reading ans v with
  | .colored color => color
  | _ => .white

section
variable {ans} {v : V} {vs : List V} {colors : Colors V}

theorem replay_assess : Proc.replay ans (assess vs colors) =
    (assessCalls ans vs, assessEnd ans vs colors) := by
  induction vs generalizing colors with
  | nil => rfl
  | cons v rest ih =>
      rw [assess, ask, Proc.bind_eq, Proc.perform_bind, Proc.replay_call,
        assessCalls, assessEnd, readCalls]
      cases hs : (ans (.nodeStatus v) : Option JobState) with
      | none => simp [reading, statusOf, hs]
      | some state =>
          cases state with
          | done =>
              simp only [ask, Proc.bind_eq, Proc.perform_bind, Proc.replay_call]
              cases he : queryResult false (ans (.recoveryEvents v)) with
              | ok events =>
                  simp [reading, statusOf, eventsOf, readDone, hs, he, ih]
              | error e =>
                  cases e <;>
                    simp [reading, statusOf, eventsOf, readDone, hs, he, ih,
                      Proc.replay_call]
          | _ => simp [reading, statusOf, hs, ih]

theorem assessEnd_null (h : scan ans vs = none) :
    assessEnd ans vs colors = .error .nullStatus := by
  induction vs generalizing colors with
  | nil => cases h
  | cons v rest ih =>
      rw [scan] at h
      rw [assessEnd]
      split at h
      · rfl
      · cases h
      · exact ih (Option.map_eq_none_iff.mp h)
      · exact ih h

theorem assessEnd_failed {n : ℕ} (h : scan ans vs = some (n, true)) :
    assessEnd ans vs colors = .ok none := by
  induction vs generalizing colors n with
  | nil => cases h
  | cons v rest ih =>
      rw [scan] at h
      rw [assessEnd]
      split at h
      · cases h
      · rfl
      · obtain ⟨r, hr, hn⟩ := Option.map_eq_some_iff.mp h
        obtain ⟨m, b⟩ := r
        cases hn
        exact ih hr
      · exact ih h

theorem assessEnd_through {n : ℕ} (hnd : vs.Nodup)
    (h : scan ans vs = some (n, false)) :
    ∃ colors', assessEnd ans vs colors = .ok (some colors') ∧
      (∀ v ∉ vs, colors' v = colors v) ∧
      ((∀ v ∈ vs, colors v = .white) → ∀ v ∈ vs, colors' v = colorOf ans v) := by
  induction vs generalizing colors n with
  | nil => exact ⟨colors, rfl, fun _ _ => rfl, fun _ v hv => (by cases hv)⟩
  | cons v rest ih =>
      obtain ⟨hv, hnd⟩ := List.nodup_cons.mp hnd
      rw [scan] at h
      rw [assessEnd]
      cases hread : reading ans v with
      | null =>
          rw [hread] at h
          cases h
      | failed =>
          rw [hread] at h
          cases h
      | temporarilyFailed =>
          rw [hread] at h
          obtain ⟨⟨m, b⟩, hr, hn⟩ := Option.map_eq_some_iff.mp h
          cases hn
          obtain ⟨colors', hend, hkeep, hread'⟩ := ih hnd hr
          refine ⟨colors', hend, fun u hu => ?_, fun hwhite u hu => ?_⟩
          · exact hkeep u fun hu' => hu (List.mem_cons_of_mem v hu')
          · rcases List.mem_cons.mp hu with rfl | hu
            · rw [hkeep u hv, hwhite u List.mem_cons_self, colorOf, hread]
            · exact hread' (fun w hw => hwhite w (List.mem_cons_of_mem v hw)) u hu
      | colored color =>
          rw [hread] at h
          obtain ⟨colors', hend, hkeep, hread'⟩ := ih hnd h
          refine ⟨colors', hend, fun u hu => ?_, fun hwhite u hu => ?_⟩
          · have hne : u ≠ v := fun heq => hu (heq ▸ List.mem_cons_self)
            rw [hkeep u fun hu' => hu (List.mem_cons_of_mem v hu'),
              Function.update_of_ne hne]
          · rcases List.mem_cons.mp hu with rfl | hu
            · rw [hkeep u hv, Function.update_self, colorOf, hread]
            · refine hread' (fun w hw => ?_) u hu
              have hne : w ≠ v := fun heq => hv (heq ▸ hw)
              rw [Function.update_of_ne hne]
              exact hwhite w (List.mem_cons_of_mem v hw)

omit [DecidableEq V] in
theorem reading_temporarilyFailed : reading ans v = .temporarilyFailed ↔
    statusOf ans v = some .done ∧
      eventsOf ans v = .error .lbQueryTemporarilyFailed := by
  have hdone : ∀ r, readDone r = .temporarilyFailed ↔
      r = .error .lbQueryTemporarilyFailed := by
    intro r
    cases r with
    | ok events => simp [readDone]
    | error e => cases e <;> simp [readDone]
  rw [reading]
  cases hs : statusOf ans v with
  | none => simp
  | some state => cases state <;> simp [hdone]

theorem count_readCalls : (readCalls ans v).count .scheduleAgain =
    if reading ans v = .temporarilyFailed then 1 else 0 := by
  rw [readCalls]
  by_cases hd : statusOf ans v = some .done
  · rw [if_pos hd]
    split <;> rfl
  · rw [if_neg hd, if_neg fun h => hd (reading_temporarilyFailed.mp h).1]
    rfl

theorem count_assessCalls {n : ℕ} {b : Bool} (h : scan ans vs = some (n, b)) :
    (assessCalls ans vs).count .scheduleAgain = n := by
  induction vs generalizing n with
  | nil =>
      cases h
      rfl
  | cons v rest ih =>
      rw [scan] at h
      rw [assessCalls, List.count_append, count_readCalls]
      cases hread : reading ans v with
      | null =>
          rw [hread] at h
          cases h
      | failed =>
          rw [hread] at h
          cases h
          rfl
      | temporarilyFailed =>
          rw [hread] at h
          obtain ⟨⟨m, b⟩, hr, hn⟩ := Option.map_eq_some_iff.mp h
          cases hn
          rw [if_pos rfl]
          change 1 + (assessCalls ans rest).count .scheduleAgain = m + 1
          rw [ih hr, Nat.add_comm]
      | colored color =>
          rw [hread] at h
          rw [if_neg (by simp), Nat.zero_add]
          exact ih h

omit [DecidableEq V] in
/-- A query that fails temporarily is one that was made and did. -/
theorem scan_pos_iff {n : ℕ} {b : Bool} (h : scan ans vs = some (n, b)) :
    0 < n ↔ ∃ v, .recoveryEvents v ∈ assessCalls ans vs ∧
      eventsOf ans v = .error .lbQueryTemporarilyFailed := by
  induction vs generalizing n with
  | nil =>
      cases h
      simp [assessCalls]
  | cons v rest ih =>
      rw [scan] at h
      rw [assessCalls]
      have hcalls : ∀ u, .recoveryEvents u ∈ readCalls ans v ↔
          u = v ∧ statusOf ans v = some .done := by
        intro u
        rw [readCalls]
        split <;> rename_i hd
        · split <;> simp [hd]
        · simp [hd]
      cases hread : reading ans v with
      | null =>
          rw [hread] at h
          cases h
      | failed =>
          rw [hread] at h
          cases h
          refine ⟨fun h => absurd h (Nat.lt_irrefl 0), ?_⟩
          rintro ⟨u, hu, he⟩
          rw [List.append_nil, hcalls] at hu
          obtain ⟨rfl, hd⟩ := hu
          rw [reading_temporarilyFailed.mpr ⟨hd, he⟩] at hread
          cases hread
      | temporarilyFailed =>
          rw [hread] at h
          obtain ⟨⟨m, b⟩, hr, hn⟩ := Option.map_eq_some_iff.mp h
          cases hn
          obtain ⟨hd, he⟩ := reading_temporarilyFailed.mp hread
          exact ⟨fun _ => ⟨v, List.mem_append_left _ ((hcalls v).mpr ⟨rfl, hd⟩),
            he⟩, fun _ => Nat.succ_pos m⟩
      | colored color =>
          rw [hread] at h
          rw [ih h]
          refine exists_congr fun u => ?_
          rw [List.mem_append, hcalls]
          refine and_congr_left fun he => ⟨.inr, ?_⟩
          rintro (⟨rfl, hd⟩ | hu)
          · rw [reading_temporarilyFailed.mpr ⟨hd, he⟩] at hread
            cases hread
          · exact hu

end

/-! ## What is done about a vertex -/

/-- What is to be done about a node. -/
inductive Plan where
  | leave
  | queue
  | abort
  deriving DecidableEq

variable (g : Graph V)

/-- The choice of the pass for one node. -/
def plan (colors : Colors V) (v : V) : Plan :=
  if colors v = .white then
    match precedingJobs colors (g.parents v) true with
    | none => .abort
    | some true => .queue
    | some false => .leave
  else .leave

/-- What is done about it. -/
def planNode (v : V) (colors : Colors V) : DagProc V (Colors V) :=
  match plan g colors v with
  | .leave => pure colors
  | .queue => do
      if ← queueNewSubmitRequest v then
        pure (if g.parents v = [] then Function.update colors v .gray
          else colors)
      else pure (Function.update colors v .red)
  | .abort => do
      match ← ask (.createContext v) with
      | .ok _ => do
          ask (.abortNode v)
          pure (Function.update colors v .red)
      | .error what => .throw (.cannotCreateLBContext what)

/-- Whether nothing more is to come of a node of this color. -/
def ended : Color → Bool
  | .green => true
  | .red => true
  | _ => false

/-- The calls that are made for it. -/
def planCalls (colors : Colors V) (v : V) : List (Call V) :=
  match plan g colors v with
  | .leave => []
  | .queue =>
      match ans (.createContext v) with
      | .ok _ => [.createContext v, .queue v]
      | .error _ => [.createContext v]
  | .abort =>
      match ans (.createContext v) with
      | .ok _ => [.createContext v, .abortNode v]
      | .error _ => [.createContext v]

/-- The colors after them. -/
def planEnd (colors : Colors V) (v : V) : Except Fault (Colors V) :=
  match plan g colors v with
  | .leave => .ok colors
  | .queue =>
      match ans (.createContext v) with
      | .ok _ => .ok (if g.parents v = [] then Function.update colors v .gray
          else colors)
      | .error _ => .ok (Function.update colors v .red)
  | .abort =>
      match ans (.createContext v) with
      | .ok _ => .ok (Function.update colors v .red)
      | .error what => .error (.cannotCreateLBContext what)

section
variable {ans} {g} {v : V} {vs : List V} {colors : Colors V}

omit [DecidableEq V] in
theorem replay_queueNewSubmitRequest :
    Proc.replay ans (queueNewSubmitRequest v) =
      match (ans (.createContext v) : Except String Unit) with
      | .ok _ => ([.createContext v, .queue v], .ok true)
      | .error _ => ([.createContext v], .ok false) := by
  rw [queueNewSubmitRequest, ask, Proc.bind_eq, Proc.perform_bind,
    Proc.replay_call]
  cases (ans (.createContext v) : Except String Unit) <;> rfl

theorem replay_planNode : Proc.replay ans (planNode g v colors) =
    (planCalls ans g colors v, planEnd ans g colors v) := by
  rw [planNode, planCalls, planEnd]
  cases plan g colors v with
  | leave => rfl
  | queue =>
      rw [Proc.bind_eq, Proc.replay_bind, replay_queueNewSubmitRequest]
      cases (ans (.createContext v) : Except String Unit) <;> rfl
  | abort =>
      change Proc.replay ans ((Proc.perform (Call.createContext v)).bind _) = _
      rw [Proc.perform_bind, Proc.replay_call]
      cases (ans (.createContext v) : Except String Unit) <;> rfl

theorem planNodes_cons (completed : Bool) :
    planNodes g (v :: vs) colors completed =
      planNode g v colors >>= fun colors' =>
        planNodes g vs colors' (completed && ended (colors v)) := by
  rw [planNodes, planNode, plan]
  cases hc : colors v with
  | white =>
      by_cases hp : g.parents v = []
      · rw [if_pos hp, if_pos rfl, hp, precedingJobs]
        simp only [Proc.bind_eq, Proc.bind_bind]
        refine congrArg _ (funext fun b => ?_)
        cases b <;> simp [ended]
      · rw [if_neg hp, if_pos rfl]
        cases precedingJobs colors (g.parents v) true with
        | none =>
            simp only [Proc.bind_eq, Proc.bind_bind]
            refine congrArg _ (funext fun r => ?_)
            cases r <;> simp [ended, Proc.bind_bind]
        | some b =>
            cases b with
            | true =>
                simp only [Proc.bind_eq, Proc.bind_bind]
                refine congrArg _ (funext fun b => ?_)
                cases b <;> simp [ended, hp]
            | false => simp [ended]
  | _ => simp [ended]

end

/-! ## What the statuses call for -/

/-- The node was aborted or cancelled. -/
def hasFailed (v : V) : Bool :=
  statusOf ans v = some .aborted || statusOf ans v = some .cancelled

/-- The node is done and its last Done event says OK. -/
def doneOk (v : V) : Bool :=
  statusOf ans v = some .done &&
    match eventsOf ans v with
    | .ok events => isLastDone events .ok
    | .error _ => false

/-- Nothing more is to come of the node. -/
def terminal (v : V) : Bool := hasFailed ans v || doneOk ans v

/-- The node waits to be scheduled. -/
def submitted (v : V) : Bool := statusOf ans v = some .submitted

/-- The L&B has said what there is to say about the node. -/
def answered (v : V) : Bool :=
  (statusOf ans v).isSome &&
    (statusOf ans v ≠ some .done || (eventsOf ans v).isOk)

/-- A node that waits for no other. -/
def ready (v : V) : Bool := submitted ans v && (g.parents v).all (doneOk ans)

/-- A parent has ended badly, or is one of those aborted so far. -/
def doomed (aborted : List V) (v : V) : Bool :=
  submitted ans v &&
    (g.parents v).any fun p => hasFailed ans p || aborted.contains p

/-- The vertices that are aborted, in their order. -/
def aborts : List V → List V → List V
  | [], _ => []
  | v :: rest, aborted =>
      if doomed ans g aborted v then v :: aborts rest (v :: aborted)
      else aborts rest aborted

/-- The calls about the nodes that have not been submitted. -/
def requests : List V → List V → List (Call V)
  | [], _ => []
  | v :: rest, aborted =>
      if doomed ans g aborted v then
        .createContext v :: .abortNode v :: requests rest (v :: aborted)
      else if ready ans g v then
        .createContext v :: .queue v :: requests rest aborted
      else requests rest aborted

/-- The colours between two vertices of the second loop, `rest` being those to
come. -/
structure Tracks (colors : Colors V) (aborted rest : List V) : Prop where
  red : ∀ v ∈ g.vertices, colors v = .red ↔ hasFailed ans v ∨ v ∈ aborted
  green : ∀ v ∈ g.vertices, colors v = .green ↔ doneOk ans v
  white : ∀ v ∈ rest, colors v = .white ↔ submitted ans v
  fresh : ∀ v ∈ rest, v ∉ aborted

section
variable {ans} {g} {v : V} {vs aborted : List V} {colors : Colors V}

omit [DecidableEq V] in
theorem precedingJobs_eq (ps : List V) (preceding : Bool) :
    precedingJobs colors ps preceding =
      if ps.any (colors · = .red) then none
      else some (preceding && ps.all (colors · = .green)) := by
  induction ps generalizing preceding with
  | nil => simp [precedingJobs]
  | cons p ps ih =>
      rw [precedingJobs]
      cases hc : colors p <;> simp [hc, ih]

omit [DecidableEq V] in
theorem not_failed_of_submitted (h : submitted ans v) :
    hasFailed ans v = false ∧ doneOk ans v = false := by
  have hs : statusOf ans v = some .submitted := of_decide_eq_true h
  simp [hasFailed, doneOk, hs]

theorem plan_eq (ht : Tracks ans g colors aborted (v :: vs))
    (hv : v ∈ g.vertices) : plan g colors v =
      if doomed ans g aborted v then .abort
      else if ready ans g v then .queue else .leave := by
  have hany : (g.parents v).any (colors · = .red) =
      (g.parents v).any fun p => hasFailed ans p || aborted.contains p := by
    rw [Bool.eq_iff_iff, List.any_eq_true, List.any_eq_true]
    refine exists_congr fun p => and_congr_right fun hp => ?_
    rw [decide_eq_true_iff, ht.red p (g.mem_vertices v hv p hp)]
    simp
  have hall : (g.parents v).all (colors · = .green) =
      (g.parents v).all (doneOk ans) := by
    rw [Bool.eq_iff_iff, List.all_eq_true, List.all_eq_true]
    refine forall₂_congr fun p hp => ?_
    rw [decide_eq_true_iff, ht.green p (g.mem_vertices v hv p hp)]
  rw [plan, precedingJobs_eq, hany, hall, doomed, ready]
  by_cases hw : colors v = .white
  · have hs := (ht.white v List.mem_cons_self).mp hw
    rw [if_pos hw, hs]
    cases (g.parents v).any fun p => hasFailed ans p || aborted.contains p <;>
      cases (g.parents v).all (doneOk ans) <;> simp
  · have hs := mt (ht.white v List.mem_cons_self).mpr hw
    rw [if_neg hw, Bool.eq_false_iff.mpr hs]
    simp


/-- One vertex. A submission that cannot be made would leave a red vertex. -/
theorem tracks_next {colors' : Colors V} (hv : v ∉ vs)
    (ht : Tracks ans g colors aborted (v :: vs)) (hvg : v ∈ g.vertices)
    (hready : ready ans g v → hasContext ans v)
    (hend : planEnd ans g colors v = .ok colors') :
    Tracks ans g colors'
      (if doomed ans g aborted v then v :: aborted else aborted) vs := by
  have hne : ∀ u ∈ vs, u ≠ v := fun u hu heq => hv (heq ▸ hu)
  have hwhite : ∀ u ∈ vs, colors u = .white ↔ submitted ans u := fun u hu =>
    ht.white u (List.mem_cons_of_mem v hu)
  have hfresh : ∀ u ∈ vs, u ∉ aborted := fun u hu =>
    ht.fresh u (List.mem_cons_of_mem v hu)
  rw [planEnd, plan_eq ht hvg] at hend
  by_cases hd : doomed ans g aborted v = true
  · obtain ⟨hfailed, hdone⟩ :=
      not_failed_of_submitted (Bool.and_eq_true_iff.mp hd).1
    rw [if_pos hd] at hend ⊢
    cases hc : (ans (.createContext v) : Except String Unit) with
    | error what =>
        rw [hc] at hend
        cases hend
    | ok _ =>
        rw [hc] at hend
        cases hend
        refine ⟨fun u hu => ?_, fun u hu => ?_, fun u hu => ?_, fun u hu => ?_⟩
        · by_cases huv : u = v
          · simp [huv]
          · rw [Function.update_of_ne huv, ht.red u hu, List.mem_cons]
            simp [huv]
        · by_cases huv : u = v
          · simp [huv, hdone]
          · rw [Function.update_of_ne huv, ht.green u hu]
        · rw [Function.update_of_ne (hne u hu), hwhite u hu]
        · rw [List.mem_cons, not_or]
          exact ⟨hne u hu, hfresh u hu⟩
  · rw [if_neg hd] at hend ⊢
    by_cases hr : ready ans g v = true
    · obtain ⟨hfailed, hdone⟩ :=
        not_failed_of_submitted (Bool.and_eq_true_iff.mp hr).1
      obtain ⟨_, hc⟩ := hready hr
      rw [if_pos hr, hc] at hend
      have hcolors : colors' = colors ∨ colors' = Function.update colors v .gray := by
        cases hend
        split
        · exact .inr rfl
        · exact .inl rfl
      rcases hcolors with rfl | rfl
      · exact ⟨ht.red, ht.green, hwhite, hfresh⟩
      · refine ⟨fun u hu => ?_, fun u hu => ?_, fun u hu => ?_, hfresh⟩
        · by_cases huv : u = v
          · simp [huv, hfailed, ht.fresh v List.mem_cons_self]
          · rw [Function.update_of_ne huv, ht.red u hu]
        · by_cases huv : u = v
          · simp [huv, hdone]
          · rw [Function.update_of_ne huv, ht.green u hu]
        · rw [Function.update_of_ne (hne u hu), hwhite u hu]
    · rw [if_neg hr] at hend
      cases hend
      exact ⟨ht.red, ht.green, hwhite, hfresh⟩

theorem replay_planNodes_cons (completed : Bool) :
    Proc.replay ans (planNodes g (v :: vs) colors completed) =
      match planEnd ans g colors v with
      | .ok colors' => (planCalls ans g colors v ++
          (Proc.replay ans
            (planNodes g vs colors' (completed && ended (colors v)))).1,
          (Proc.replay ans
            (planNodes g vs colors' (completed && ended (colors v)))).2)
      | .error e => (planCalls ans g colors v, .error e) := by
  rw [planNodes_cons, Proc.bind_eq, Proc.replay_bind, replay_planNode]
  cases planEnd ans g colors v <;> rfl

/-- A vertex is given a colour at its own turn. -/
theorem planEnd_keeps {colors' : Colors V}
    (hend : planEnd ans g colors v = .ok colors') {u : V} (hu : u ≠ v) :
    colors' u = colors u := by
  rw [planEnd] at hend
  split at hend
  · cases hend
    rfl
  · split at hend
    · cases hend
      split
      · exact Function.update_of_ne hu ..
      · rfl
    · cases hend
      exact Function.update_of_ne hu ..
  · split at hend
    · cases hend
      exact Function.update_of_ne hu ..
    · cases hend

theorem planCalls_eq (ht : Tracks ans g colors aborted (v :: vs))
    (hvg : v ∈ g.vertices) (hready : ready ans g v → hasContext ans v)
    (hdoomed : doomed ans g aborted v → hasContext ans v) :
    (∃ colors', planEnd ans g colors v = .ok colors') ∧
      planCalls ans g colors v =
        if doomed ans g aborted v then [.createContext v, .abortNode v]
        else if ready ans g v then [.createContext v, .queue v] else [] := by
  rw [planEnd, planCalls, plan_eq ht hvg]
  by_cases hd : doomed ans g aborted v = true
  · obtain ⟨_, hc⟩ := hdoomed hd
    rw [if_pos hd, if_pos hd, hc]
    exact ⟨⟨_, rfl⟩, rfl⟩
  · rw [if_neg hd, if_neg hd]
    by_cases hr : ready ans g v = true
    · obtain ⟨_, hc⟩ := hready hr
      rw [if_pos hr, if_pos hr, hc]
      exact ⟨⟨_, rfl⟩, rfl⟩
    · rw [if_neg hr, if_neg hr]
      exact ⟨⟨_, rfl⟩, rfl⟩

/-- The second loop, where every context can be had. -/
theorem replay_planNodes (completed : Bool) (hnd : vs.Nodup)
    (ht : Tracks ans g colors aborted vs) (hvs : ∀ v ∈ vs, v ∈ g.vertices)
    (hready : ∀ v ∈ vs, ready ans g v → hasContext ans v)
    (hdoomed : ∀ v ∈ aborts ans g vs aborted, hasContext ans v) :
    ∃ colors' aborted',
      Proc.replay ans (planNodes g vs colors completed) =
        (requests ans g vs aborted,
          .ok (colors', completed && vs.all fun v => ended (colors v))) ∧
      Tracks ans g colors' aborted' [] := by
  induction vs generalizing colors aborted completed with
  | nil => exact ⟨colors, aborted, by simp [planNodes, requests], ht⟩
  | cons v rest ih =>
      obtain ⟨hv, hnd⟩ := List.nodup_cons.mp hnd
      have hvg := hvs v List.mem_cons_self
      have hr := hready v List.mem_cons_self
      have hd : doomed ans g aborted v → hasContext ans v := fun h =>
        hdoomed v (by rw [aborts, if_pos h]; exact List.mem_cons_self)
      obtain ⟨⟨colors', hend⟩, hcalls⟩ := planCalls_eq ht hvg hr hd
      have hdrest : ∀ u ∈ aborts ans g rest
          (if doomed ans g aborted v then v :: aborted else aborted),
          hasContext ans u := by
        intro u hu
        refine hdoomed u ?_
        rw [aborts]
        split
        · rw [if_pos ‹_›] at hu
          exact List.mem_cons_of_mem v hu
        · rwa [if_neg ‹_›] at hu
      obtain ⟨colors'', aborted', hrest, hlast⟩ :=
        ih (completed && ended (colors v)) hnd (tracks_next hv ht hvg hr hend)
          (fun u hu => hvs u (List.mem_cons_of_mem v hu))
          (fun u hu => hready u (List.mem_cons_of_mem v hu)) hdrest
      have hall : rest.all (fun u => ended (colors' u)) =
          rest.all fun u => ended (colors u) := by
        rw [Bool.eq_iff_iff, List.all_eq_true, List.all_eq_true]
        refine forall₂_congr fun u hu => ?_
        rw [planEnd_keeps hend fun heq => hv (heq ▸ hu)]
      refine ⟨colors'', aborted', ?_, hlast⟩
      rw [replay_planNodes_cons, hend]
      simp only [hrest, hall, hcalls, requests, List.all_cons, Bool.and_assoc]
      split
      · rfl
      · split <;> rfl

/-- The second loop ends early where a vertex is to be aborted whose context
cannot be had. -/
theorem planNodes_fails (completed : Bool) (hnd : vs.Nodup)
    (ht : Tracks ans g colors aborted vs) (hvs : ∀ v ∈ vs, v ∈ g.vertices)
    (hready : ∀ v ∈ vs, ready ans g v → hasContext ans v)
    (hdoomed : ∃ v ∈ aborts ans g vs aborted, ¬hasContext ans v) :
    ∃ e, (Proc.replay ans (planNodes g vs colors completed)).2 = .error e := by
  induction vs generalizing colors aborted completed with
  | nil =>
      obtain ⟨v, hv, -⟩ := hdoomed
      cases hv
  | cons v rest ih =>
      obtain ⟨hv, hnd⟩ := List.nodup_cons.mp hnd
      have hvg := hvs v List.mem_cons_self
      have hr := hready v List.mem_cons_self
      rw [replay_planNodes_cons]
      cases hend : planEnd ans g colors v with
      | error e => exact ⟨e, rfl⟩
      | ok colors' =>
          refine ih (completed && ended (colors v)) hnd
            (tracks_next hv ht hvg hr hend)
            (fun u hu => hvs u (List.mem_cons_of_mem v hu))
            (fun u hu => hready u (List.mem_cons_of_mem v hu)) ?_
          obtain ⟨u, hu, hnone⟩ := hdoomed
          rw [aborts] at hu
          split at hu
          · rename_i hd
            rw [if_pos hd]
            rcases List.mem_cons.mp hu with rfl | hu
            · rw [planEnd, plan_eq ht hvg, if_pos hd] at hend
              refine absurd ?_ hnone
              cases hc : (ans (.createContext u) : Except String Unit) with
              | ok x => exact ⟨x, hc⟩
              | error what =>
                  rw [hc] at hend
                  cases hend
            · exact ⟨u, hu, hnone⟩
          · rename_i hd
            rw [if_neg hd]
            exact ⟨u, hu, hnone⟩


theorem hasContext_of_queue (completed : Bool)
    (h : .queue v ∈ (Proc.replay ans (planNodes g vs colors completed)).1) :
    hasContext ans v := by
  induction vs generalizing colors completed with
  | nil => cases h
  | cons u rest ih =>
      have hcalls : .queue v ∈ planCalls ans g colors u → hasContext ans v := by
        intro hmem
        rw [planCalls] at hmem
        split at hmem
        · cases hmem
        · split at hmem <;> rename_i hc
          · simp only [List.mem_cons, reduceCtorEq, Call.queue.injEq,
              List.not_mem_nil, or_false, false_or] at hmem
            subst hmem
            exact ⟨_, hc⟩
          · simp at hmem
        · split at hmem <;> simp at hmem
      rw [replay_planNodes_cons] at h
      split at h
      · rcases List.mem_append.mp h with h | h
        · exact hcalls h
        · exact ih _ h
      · exact hcalls h

/-- The DAG is completed over vertices that had all ended. -/
theorem ended_of_completed {completed : Bool} {colors' : Colors V}
    (hnd : vs.Nodup)
    (h : (Proc.replay ans (planNodes g vs colors completed)).2 =
      .ok (colors', true)) : ∀ v ∈ vs, ended (colors v) = true := by
  have hflag : ∀ (us : List V) (colors : Colors V),
      (Proc.replay ans (planNodes g us colors false)).2 ≠ .ok (colors', true) := by
    intro us
    induction us with
    | nil => simp [planNodes]
    | cons u rest ih =>
        intro colors hrun
        rw [replay_planNodes_cons] at hrun
        split at hrun
        · exact ih _ hrun
        · cases hrun
  induction vs generalizing colors completed with
  | nil =>
      intro v hv
      cases hv
  | cons v rest ih =>
      obtain ⟨hv, hnd⟩ := List.nodup_cons.mp hnd
      rw [replay_planNodes_cons] at h
      split at h
      · rename_i colors₁ hend
        intro u hu
        rcases List.mem_cons.mp hu with rfl | hu
        · cases he : ended (colors u) with
          | true => rfl
          | false =>
              rw [he, Bool.and_false] at h
              exact absurd h (hflag rest colors₁)
        · rw [← planEnd_keeps hend fun heq => hv (heq ▸ hu)]
          exact ih hnd h u hu
      · cases h

/-- What the loops ask for, as far as the rest of the pass goes. -/
def isPlanning : Call V → Bool
  | .createContext _ => true
  | .queue _ => true
  | .abortNode _ => true
  | _ => false

theorem callsOnly_planNode :
    Proc.CallsOnly (isPlanning · = true) (planNode g v colors) := by
  rw [planNode]
  split
  · trivial
  · refine Proc.callsOnly_bind (Proc.callsOnly_bind
      (Proc.callsOnly_perform rfl) fun r => ?_) fun b => ?_
    · cases r with
      | ok _ => exact Proc.callsOnly_bind (Proc.callsOnly_perform rfl) fun _ => trivial
      | error _ => trivial
    · cases b <;> trivial
  · refine Proc.callsOnly_bind (Proc.callsOnly_perform rfl) fun r => ?_
    cases r with
    | ok _ => exact Proc.callsOnly_bind (Proc.callsOnly_perform rfl) fun _ => trivial
    | error _ => trivial

theorem callsOnly_planNodes (completed : Bool) :
    Proc.CallsOnly (isPlanning · = true) (planNodes g vs colors completed) := by
  induction vs generalizing colors completed with
  | nil => trivial
  | cons v rest ih =>
      rw [planNodes_cons]
      exact Proc.callsOnly_bind callsOnly_planNode fun _ => ih _

theorem planNodes_fault {completed : Bool} {e : Fault}
    (h : (Proc.replay ans (planNodes g vs colors completed)).2 = .error e) :
    ∃ what, e = .cannotCreateLBContext what := by
  induction vs generalizing colors completed with
  | nil => cases h
  | cons v rest ih =>
      rw [replay_planNodes_cons] at h
      split at h
      · exact ih h
      · rename_i e' hend
        cases h
        rw [planEnd] at hend
        split at hend
        · cases hend
        · split at hend <;> cases hend
        · split at hend <;> cases hend
          exact ⟨_, rfl⟩

/-- What a pass only asks. -/
def isReading : Call V → Bool
  | .nodeStatus _ => true
  | .recoveryEvents _ => true
  | .scheduleAgain => true
  | _ => false

omit [DecidableEq V] in
theorem isReading_of_mem {c : Call V} (h : c ∈ assessCalls ans vs) :
    isReading c = true := by
  induction vs with
  | nil => cases h
  | cons v rest ih =>
      rw [assessCalls] at h
      rcases List.mem_append.mp h with h | h
      · rw [readCalls] at h
        split at h
        · split at h <;> simp at h <;> rcases h with rfl | rfl | rfl <;> rfl
        · simp at h
          rw [h]
          rfl
      · split at h
        · cases h
        · cases h
        · exact ih h

theorem mem_requests {c : Call V} (hc : isPlanning c = false) :
    c ∉ requests ans g vs aborted := by
  induction vs generalizing aborted with
  | nil => exact List.not_mem_nil
  | cons v rest ih =>
      rw [requests]
      split
      · cases c <;> simp_all [isPlanning]
      · split
        · cases c <;> simp_all [isPlanning]
        · exact ih

theorem mem_requests_queue : .queue v ∈ requests ans g vs aborted →
    v ∈ vs ∧ ready ans g v = true := by
  induction vs generalizing aborted with
  | nil => exact fun h => absurd h List.not_mem_nil
  | cons u rest ih =>
      intro h
      rw [requests] at h
      split at h
      · simp only [List.mem_cons, reduceCtorEq, false_or] at h
        exact ⟨List.mem_cons_of_mem u (ih h).1, (ih h).2⟩
      · split at h
        · rename_i hr
          simp only [List.mem_cons, reduceCtorEq, false_or,
            Call.queue.injEq] at h
          rcases h with rfl | h
          · exact ⟨List.mem_cons_self, hr⟩
          · exact ⟨List.mem_cons_of_mem u (ih h).1, (ih h).2⟩
        · exact ⟨List.mem_cons_of_mem u (ih h).1, (ih h).2⟩

theorem queue_mem_requests (hv : v ∈ vs) (hr : ready ans g v = true)
    (haborted : ∀ u ∈ aborted, submitted ans u = true) :
    .queue v ∈ requests ans g vs aborted := by
  have hnot : ∀ aborted : List V, (∀ u ∈ aborted, submitted ans u = true) →
      ∀ w, ready ans g w = true → doomed ans g aborted w = false := by
    intro aborted haborted w hw
    rw [doomed, Bool.and_eq_false_iff]
    refine .inr (Bool.eq_false_iff.mpr fun hany => ?_)
    obtain ⟨p, hp, hbad⟩ := List.any_eq_true.mp hany
    have hdone := List.all_eq_true.mp (Bool.and_eq_true_iff.mp hw).2 p hp
    rcases Bool.or_eq_true_iff.mp hbad with hbad | hbad
    · have hs : statusOf ans p = some .done :=
        of_decide_eq_true (Bool.and_eq_true_iff.mp hdone).1
      simp [hasFailed, hs] at hbad
    · have hsub := haborted p (List.contains_iff_mem.mp hbad)
      rw [(not_failed_of_submitted hsub).2] at hdone
      cases hdone
  induction vs generalizing aborted with
  | nil => cases hv
  | cons u rest ih =>
      rw [requests]
      split
      · rename_i hd
        have hne : v ≠ u := by
          rintro rfl
          rw [hnot aborted haborted v hr] at hd
          cases hd
        refine List.mem_cons_of_mem _ (List.mem_cons_of_mem _ (ih ?_ ?_))
        · exact (List.mem_cons.mp hv).resolve_left hne
        · intro w hw
          rcases List.mem_cons.mp hw with rfl | hw
          · exact (Bool.and_eq_true_iff.mp hd).1
          · exact haborted w hw
      · rcases List.mem_cons.mp hv with rfl | hv
        · rw [if_pos hr]
          exact List.mem_cons_of_mem _ List.mem_cons_self
        · split
          · exact List.mem_cons_of_mem _ (List.mem_cons_of_mem _ (ih hv haborted))
          · exact ih hv haborted

/-- Whoever is aborted has a parent that has ended badly or is aborted too. -/
theorem abortNode_mem_requests (h : .abortNode v ∈ requests ans g vs aborted) :
    submitted ans v = true ∧ ∃ p ∈ g.parents v, hasFailed ans p = true ∨
      p ∈ aborted ∨ .abortNode p ∈ requests ans g vs aborted := by
  induction vs generalizing aborted with
  | nil => cases h
  | cons u rest ih =>
      rw [requests] at h ⊢
      split at h
      · rename_i hd
        rw [if_pos hd]
        simp only [List.mem_cons, reduceCtorEq, false_or,
          Call.abortNode.injEq] at h ⊢
        rcases h with rfl | h
        · obtain ⟨hs, hany⟩ := Bool.and_eq_true_iff.mp hd
          obtain ⟨p, hp, hbad⟩ := List.any_eq_true.mp hany
          refine ⟨hs, p, hp, ?_⟩
          rcases Bool.or_eq_true_iff.mp hbad with hbad | hbad
          · exact .inl hbad
          · exact .inr (.inl (List.contains_iff_mem.mp hbad))
        · obtain ⟨hs, p, hp, hbad⟩ := ih h
          refine ⟨hs, p, hp, ?_⟩
          rcases hbad with hbad | hbad | hbad
          · exact .inl hbad
          · rcases List.mem_cons.mp hbad with rfl | hbad
            · exact .inr (.inr (.inl rfl))
            · exact .inr (.inl hbad)
          · exact .inr (.inr (.inr hbad))
      · rename_i hd
        rw [if_neg hd]
        split at h
        · rename_i hr
          rw [if_pos hr]
          simp only [List.mem_cons, reduceCtorEq, false_or] at h ⊢
          exact ih h
        · rename_i hr
          rw [if_neg hr]
          exact ih h

end

/-! ## A whole pass -/

/-- What the first pass logs. -/
def startCalls (checkpoint : Checkpoint) : List (Call V) :=
  if checkpoint = .start then [.logManaged] else []

/-- What the last pass logs. -/
def endCalls (colors : Colors V) (completed : Bool) : List (Call V) :=
  if completed then
    [if g.vertices.all (colors · = .green) then .logDoneOk else .logAbort]
  else [.scheduleAgain, .storeCheckpoint]

section
variable {ans} {g} {v : V} {checkpoint : Checkpoint} {colors : Colors V}

omit [DecidableEq V] in
theorem replay_finish (completed : Bool) :
    Proc.replay ans (finish g colors completed) =
      (endCalls g colors completed, .ok ()) := by
  rw [finish, endCalls]
  cases completed with
  | false => rfl
  | true =>
      rw [if_pos rfl, if_pos rfl]
      split <;> rfl

variable (ans g checkpoint) in
/-- The calls up to the end of the first loop. -/
def firstCalls : List (Call V) :=
  startCalls checkpoint ++ assessCalls ans g.vertices

theorem replay_dagStages : Proc.replay ans (dagStages g checkpoint) =
    match assessEnd ans g.vertices fun _ => .white with
    | .error e => (firstCalls ans g checkpoint, .error e)
    | .ok none => (firstCalls ans g checkpoint, .ok ())
    | .ok (some colors) =>
        match Proc.replay ans (planNodes g g.vertices colors true) with
        | (cs, .ok (colors', completed)) =>
            (firstCalls ans g checkpoint ++ (cs ++ endCalls g colors' completed),
              .ok ())
        | (cs, .error e) => (firstCalls ans g checkpoint ++ cs, .error e) := by
  have hstart : ∀ next : Option (Colors V) → DagProc V Unit,
      Proc.replay ans
        (if checkpoint = .start then ask .logManaged >>= fun _ =>
          assess g.vertices (fun _ => .white) >>= next
        else assess g.vertices (fun _ => .white) >>= next) =
      Proc.replay ans ((if checkpoint = .start then ask .logManaged
        else pure ()) >>= fun _ =>
          assess g.vertices (fun _ => .white) >>= next) := by
    intro next
    split <;> rfl
  have hfirst : Proc.replay ans
      (if checkpoint = .start then ask .logManaged else pure () :
        DagProc V Unit) = (startCalls checkpoint, .ok ()) := by
    rw [startCalls]
    split <;> rfl
  rw [dagStages]
  refine (hstart _).trans ?_
  rw [Proc.bind_eq, Proc.replay_bind, hfirst, Proc.bind_eq, Proc.replay_bind,
    replay_assess, firstCalls]
  cases assessEnd ans g.vertices fun _ => .white with
  | error e => rfl
  | ok read =>
      cases read with
      | none => simp
      | some colors =>
          simp only [Proc.bind_eq, Proc.replay_bind]
          cases Proc.replay ans (planNodes g g.vertices colors true) with
          | mk cs result =>
              cases result with
              | error e => simp
              | ok r => simp [replay_finish]

end

/-! ## When a pass is exact -/

/-- What is only logged at the end. -/
def isEnd : Call V → Bool
  | .logDoneOk => true
  | .logAbort => true
  | .unrecoverable _ => true
  | _ => false

/-- A query about a node that was looked at failed for a while. -/
def failedTemporarily (cs : List (Call V)) : Prop :=
  ∃ v, .recoveryEvents v ∈ cs ∧
    eventsOf ans v = .error .lbQueryTemporarilyFailed

/-- The statuses and the queries made call for a further pass. -/
def goesOn (cs : List (Call V)) : Prop :=
  (∃ v ∈ g.vertices, terminal ans v = false) ∨ failedTemporarily ans cs

/-- A pass does what the statuses call for. -/
structure Exact (run : List (Call V) × Except Fault Unit) : Prop where
  returns : run.2 = .ok ()
  queuesOnly : ∀ v, .queue v ∈ run.1 → v ∈ g.vertices ∧ ready ans g v = true
  queuesAll : (∀ v ∈ g.vertices, answered ans v = true) →
    ∀ v ∈ g.vertices, ready ans g v = true → .queue v ∈ run.1
  abortsOnly : ∀ v, .abortNode v ∈ run.1 → submitted ans v = true ∧
    ∃ p ∈ g.parents v, hasFailed ans p = true ∨ .abortNode p ∈ run.1
  again : goesOn ans g run.1 →
    run.1.count .scheduleAgain = 1 ∧ run.1.countP isEnd = 0
  ends : ¬goesOn ans g run.1 →
    run.1.count .scheduleAgain = 0 ∧ run.1.countP isEnd = 1 ∧
      (.logDoneOk ∈ run.1 ↔ ∀ v ∈ g.vertices, doneOk ans v = true)

/-- The LB contexts that a pass needs can be made. -/
def Contexts : Prop :=
  (∀ v ∈ g.vertices, ready ans g v = true → hasContext ans v) ∧
    ∀ v ∈ aborts ans g g.vertices [], hasContext ans v

section
variable {ans} {g} {v : V} {vs : List V} {checkpoint : Checkpoint}
  {colors : Colors V}

omit [DecidableEq V] in
theorem reading_colored {color : Color} (h : reading ans v = .colored color) :
    (color = .red ↔ hasFailed ans v = true) ∧
      (color = .green ↔ doneOk ans v = true) ∧
      (color = .white ↔ submitted ans v = true) ∧ answered ans v = true := by
  rw [reading] at h
  cases hs : statusOf ans v with
  | none =>
      rw [hs] at h
      cases h
  | some state =>
      rw [hs] at h
      cases state with
      | done =>
          cases he : eventsOf ans v with
          | ok events =>
              rw [he] at h
              cases h
              cases hd : isLastDone events .ok <;>
                simp [hasFailed, doneOk, submitted, answered, hs, he, hd,
                  Except.isOk, Except.toBool]
          | error e =>
              rw [he] at h
              cases e <;> cases h
      | _ =>
          cases h
          simp [hasFailed, doneOk, submitted, answered, hs]

omit [DecidableEq V] in
theorem colored_of_scan (h : scan ans vs = some (0, false)) :
    ∀ v ∈ vs, reading ans v = .colored (colorOf ans v) := by
  induction vs with
  | nil =>
      intro v hv
      cases hv
  | cons u rest ih =>
      rw [scan] at h
      intro v hv
      cases hread : reading ans u with
      | colored color =>
          rw [hread] at h
          rcases List.mem_cons.mp hv with rfl | hv
          · rw [colorOf, hread]
          · exact ih h v hv
      | temporarilyFailed =>
          rw [hread] at h
          obtain ⟨r, -, hr⟩ := Option.map_eq_some_iff.mp h
          simp at hr
      | _ =>
          rw [hread] at h
          cases h

omit [DecidableEq V] in
theorem unanswered_of_scan {n : ℕ} (h : scan ans vs = some (n, true)) :
    ∃ v ∈ vs, answered ans v = false := by
  induction vs generalizing n with
  | nil => cases h
  | cons u rest ih =>
      have hrest : ∀ m, scan ans rest = some (m, true) →
          ∃ v ∈ u :: rest, answered ans v = false := by
        intro m hm
        obtain ⟨v, hv, hnot⟩ := ih hm
        exact ⟨v, List.mem_cons_of_mem u hv, hnot⟩
      rw [scan] at h
      cases hread : reading ans u with
      | null =>
          rw [hread] at h
          cases h
      | colored color =>
          rw [hread] at h
          exact hrest n h
      | temporarilyFailed =>
          rw [hread] at h
          obtain ⟨⟨m, b⟩, hm, hr⟩ := Option.map_eq_some_iff.mp h
          cases hr
          exact hrest m hm
      | failed =>
          refine ⟨u, List.mem_cons_self, ?_⟩
          rw [reading] at hread
          cases hs : statusOf ans u with
          | none => simp [answered, hs]
          | some state =>
              rw [hs] at hread
              cases state with
              | done =>
                  cases he : eventsOf ans u with
                  | ok events =>
                      rw [he] at hread
                      cases hread
                  | error e =>
                      simp [answered, hs, he, Except.isOk, Except.toBool]
              | _ => cases hread

omit [DecidableEq V] in
theorem unfinished_of_scan {n : ℕ} {b : Bool}
    (h : scan ans vs = some (n + 1, b)) :
    ∃ v ∈ vs, reading ans v = .temporarilyFailed := by
  induction vs with
  | nil => cases h
  | cons u rest ih =>
      rw [scan] at h
      cases hread : reading ans u with
      | temporarilyFailed => exact ⟨u, List.mem_cons_self, hread⟩
      | colored color =>
          rw [hread] at h
          obtain ⟨v, hv, hv'⟩ := ih h
          exact ⟨v, List.mem_cons_of_mem u hv, hv'⟩
      | _ =>
          rw [hread] at h
          cases h

omit [DecidableEq V] in
/-- The colours of the first loop are the statuses, if every query answers. -/
theorem tracks_first (h : scan ans g.vertices = some (0, false))
    (hc : ∀ v ∈ g.vertices, colors v = colorOf ans v) :
    Tracks ans g colors [] g.vertices := by
  have hread := colored_of_scan h
  refine ⟨fun v hv => ?_, fun v hv => ?_, fun v hv => ?_,
    fun _ _ => List.not_mem_nil⟩
  · rw [hc v hv, (reading_colored (hread v hv)).1]
    simp
  · rw [hc v hv, (reading_colored (hread v hv)).2.1]
  · rw [hc v hv, (reading_colored (hread v hv)).2.2.1]

omit [DecidableEq V] in
variable (checkpoint) in
theorem mem_firstCalls {c : Call V} (h : c ∈ firstCalls ans g checkpoint) :
    c = .logManaged ∨ isReading c = true := by
  rcases List.mem_append.mp h with h | h
  · rw [startCalls] at h
    split at h
    · exact .inl (List.mem_singleton.mp h)
    · cases h
  · exact .inr (isReading_of_mem h)

variable (checkpoint) in
theorem count_firstCalls {n : ℕ} {b : Bool}
    (h : scan ans g.vertices = some (n, b)) :
    (firstCalls ans g checkpoint).count .scheduleAgain = n ∧
      (firstCalls ans g checkpoint).countP isEnd = 0 := by
  constructor
  · rw [firstCalls, List.count_append, count_assessCalls h, startCalls]
    split <;> simp
  · rw [List.countP_eq_zero]
    intro c hc
    rcases mem_firstCalls checkpoint hc with rfl | hc
    · simp [isEnd]
    · cases c <;> simp_all [isReading, isEnd]

omit [DecidableEq V] in
variable (checkpoint) in
theorem failedTemporarily_iff {n : ℕ} {b : Bool} {cs : List (Call V)}
    (h : scan ans g.vertices = some (n, b))
    (hcs : ∀ v, .recoveryEvents v ∉ cs) :
    failedTemporarily ans (firstCalls ans g checkpoint ++ cs) ↔ 0 < n := by
  rw [scan_pos_iff h, failedTemporarily]
  refine exists_congr fun v => and_congr_left fun _ => ?_
  rw [firstCalls, List.append_assoc, List.mem_append, List.mem_append]
  have hstart : .recoveryEvents v ∉ (startCalls checkpoint : List (Call V)) := by
    rw [startCalls]
    split <;> simp
  simp [hstart, hcs v]

variable (checkpoint) in
theorem pass_null (h : scan ans g.vertices = none) :
    (Proc.replay ans (dagPass g checkpoint)).2 = .error .nullStatus := by
  rw [dagPass, Proc.replay_tryCatch, replay_dagStages, assessEnd_null h]
  rfl

variable (checkpoint) in
theorem pass_failed {n : ℕ} (h : scan ans g.vertices = some (n, true)) :
    Proc.replay ans (dagPass g checkpoint) =
      (firstCalls ans g checkpoint, .ok ()) := by
  rw [dagPass, Proc.replay_tryCatch, replay_dagStages, assessEnd_failed h]

/-- The pass after its first loop: the second ends, or it throws. -/
theorem pass_through
    (h : assessEnd ans g.vertices (fun _ => .white) = .ok (some colors)) :
    (∃ cs colors' completed,
      Proc.replay ans (planNodes g g.vertices colors true) =
        (cs, .ok (colors', completed)) ∧
      Proc.replay ans (dagPass g checkpoint) =
        (firstCalls ans g checkpoint ++ (cs ++ endCalls g colors' completed),
          .ok ())) ∨
    ∃ cs what, Proc.replay ans (planNodes g g.vertices colors true) =
        (cs, .error (.cannotCreateLBContext what)) ∧
      Proc.replay ans (dagPass g checkpoint) =
        (firstCalls ans g checkpoint ++
          (cs ++ [.unrecoverable (what ++ ": ignoring request")]), .ok ()) := by
  rw [dagPass, Proc.replay_tryCatch, replay_dagStages, h]
  cases hplan : Proc.replay ans (planNodes g g.vertices colors true) with
  | mk cs result =>
      cases result with
      | ok r => exact .inl ⟨cs, r.1, r.2, rfl, by simp only [hplan]⟩
      | error e =>
          obtain ⟨what, rfl⟩ := planNodes_fault (congrArg Prod.snd hplan)
          refine .inr ⟨cs, what, rfl, ?_⟩
          simp [hplan, ask, Proc.perform]

theorem planning_count {completed : Bool} {cs : List (Call V)}
    {r : Except Fault (Colors V × Bool)}
    (h : Proc.replay ans (planNodes g vs colors completed) = (cs, r)) :
    cs.count .scheduleAgain = 0 ∧ cs.countP isEnd = 0 ∧
      ∀ v, .recoveryEvents v ∉ cs := by
  have hkind : ∀ c ∈ cs, isPlanning c = true := by
    have hall := Proc.replay_callsOnly ans
      (@callsOnly_planNodes V _ g vs colors completed)
    rwa [h] at hall
  refine ⟨List.count_eq_zero.mpr fun hmem => ?_,
    List.countP_eq_zero.mpr fun c hc => ?_, fun v hmem => ?_⟩
  · cases hkind _ hmem
  · have := hkind c hc
    cases c <;> simp_all [isPlanning, isEnd]
  · cases hkind _ hmem


omit [DecidableEq V] in
theorem all_ended (h : scan ans g.vertices = some (0, false))
    (hc : ∀ v ∈ g.vertices, colors v = colorOf ans v) :
    (g.vertices.all fun v => ended (colors v)) =
      g.vertices.all (terminal ans) := by
  rw [Bool.eq_iff_iff, List.all_eq_true, List.all_eq_true]
  refine forall₂_congr fun v hv => ?_
  obtain ⟨hred, hgreen, -, -⟩ := reading_colored (colored_of_scan h v hv)
  rw [hc v hv, terminal, Bool.or_eq_true_iff, ← hred, ← hgreen]
  cases colorOf ans v <;> simp [ended]

theorem count_endCalls (completed : Bool) :
    (endCalls g colors completed).count .scheduleAgain =
        (if completed then 0 else 1) ∧
      (endCalls g colors completed).countP isEnd =
        if completed then 1 else 0 := by
  rw [endCalls]
  cases completed with
  | false => exact ⟨rfl, rfl⟩
  | true =>
      rw [if_pos rfl]
      split <;> exact ⟨rfl, rfl⟩

omit [DecidableEq V] in
/-- The calls of a whole pass, told apart. -/
theorem mem_pass {cs : List (Call V)} {completed : Bool} {c : Call V}
    (hc : isPlanning c = true) :
    c ∈ firstCalls ans g checkpoint ++ (cs ++ endCalls g colors completed) ↔
      c ∈ cs := by
  have hfirst : c ∉ firstCalls ans g checkpoint := by
    intro hmem
    rcases mem_firstCalls checkpoint hmem with rfl | h
    · cases hc
    · cases c <;> simp_all [isReading, isPlanning]
  have hend : c ∉ endCalls g colors completed := by
    rw [endCalls]
    split
    · split <;> rintro hmem <;> cases List.mem_singleton.mp hmem <;> cases hc
    · intro hmem
      rcases List.mem_cons.mp hmem with rfl | hmem
      · cases hc
      · cases List.mem_singleton.mp hmem
        cases hc
  rw [List.mem_append, List.mem_append]
  simp [hfirst, hend]

theorem mem_aborts {aborted : List V} (h : v ∈ aborts ans g vs aborted) :
    v ∈ vs ∧ submitted ans v = true := by
  induction vs generalizing aborted with
  | nil => cases h
  | cons u rest ih =>
      rw [aborts] at h
      split at h
      · rename_i hd
        rcases List.mem_cons.mp h with rfl | h
        · exact ⟨List.mem_cons_self, (Bool.and_eq_true_iff.mp hd).1⟩
        · exact ⟨List.mem_cons_of_mem u (ih h).1, (ih h).2⟩
      · exact ⟨List.mem_cons_of_mem u (ih h).1, (ih h).2⟩

/-- The pass where nothing fails. -/
theorem exact_served (h : scan ans g.vertices = some (0, false))
    (hctx : Contexts ans g) :
    Exact ans g (Proc.replay ans (dagPass g checkpoint)) := by
  obtain ⟨colors, hend, -, hread⟩ :=
    @assessEnd_through V _ ans _ (fun _ => .white) 0 g.nodup h
  have hcolors := hread fun _ _ => rfl
  obtain ⟨colors', aborted', hplan, hlast⟩ := replay_planNodes true g.nodup
    (tracks_first h hcolors) (fun _ hv => hv) hctx.1 hctx.2
  rw [Bool.true_and, all_ended h hcolors] at hplan
  have hrun : Proc.replay ans (dagPass g checkpoint) =
      (firstCalls ans g checkpoint ++ (requests ans g g.vertices [] ++
        endCalls g colors' (g.vertices.all (terminal ans))), .ok ()) := by
    rcases @pass_through V _ ans g checkpoint colors hend with
      ⟨cs, c', b, hp, hr⟩ | ⟨cs, what, hp, hr⟩
    · rw [hplan] at hp
      cases hp
      exact hr
    · rw [hplan] at hp
      cases hp
  have hgreen : (g.vertices.all (colors' · = .green) = true) ↔
      ∀ v ∈ g.vertices, doneOk ans v = true := by
    rw [List.all_eq_true]
    refine forall₂_congr fun v hv => ?_
    rw [decide_eq_true_iff, hlast.green v hv]
  obtain ⟨hcount, hends, hquery⟩ := planning_count hplan
  obtain ⟨hcount₁, hends₁⟩ := count_firstCalls checkpoint h
  obtain ⟨hcount₂, hends₂⟩ :=
    @count_endCalls V _ g colors' (g.vertices.all (terminal ans))
  have hgoes : goesOn ans g (Proc.replay ans (dagPass g checkpoint)).1 ↔
      g.vertices.all (terminal ans) = false := by
    rw [goesOn, hrun, failedTemporarily_iff checkpoint h, List.all_eq_false]
    · simp
    · intro v hmem
      rcases List.mem_append.mp hmem with hmem | hmem
      · exact hquery v hmem
      · rw [endCalls] at hmem
        split at hmem
        · split at hmem <;> cases List.mem_singleton.mp hmem
        · simp at hmem
  refine ⟨?_, fun v hv => ?_, fun _ v hv hr => ?_, fun v hv => ?_, fun hg => ?_,
    fun hg => ?_⟩
  · rw [hrun]
  · rw [hrun, mem_pass rfl] at hv
    exact mem_requests_queue hv
  · rw [hrun, mem_pass rfl]
    exact queue_mem_requests hv hr fun u hu => absurd hu List.not_mem_nil
  · rw [hrun, mem_pass rfl] at hv
    obtain ⟨hs, p, hp, hbad⟩ := abortNode_mem_requests hv
    refine ⟨hs, p, hp, ?_⟩
    rw [hrun, mem_pass rfl]
    rcases hbad with hbad | hbad | hbad
    · exact .inl hbad
    · exact absurd hbad List.not_mem_nil
    · exact .inr hbad
  · rw [hgoes] at hg
    rw [hg] at hcount₂ hends₂ hrun
    rw [if_neg Bool.false_ne_true] at hcount₂ hends₂
    rw [hrun]
    simp only [List.count_append, List.countP_append]
    exact ⟨by omega, by omega⟩
  · rw [hgoes, Bool.not_eq_false] at hg
    rw [hg] at hcount₂ hends₂ hrun
    rw [if_pos rfl] at hcount₂ hends₂
    rw [hrun]
    simp only [List.count_append, List.countP_append]
    refine ⟨by omega, by omega, ?_⟩
    rw [← hgreen, List.mem_append, List.mem_append, endCalls, if_pos rfl]
    have hfirst : .logDoneOk ∉ firstCalls ans g checkpoint := by
      intro hmem
      rcases mem_firstCalls checkpoint hmem with hmem | hmem <;> cases hmem
    have hreq : .logDoneOk ∉ requests ans g g.vertices [] := mem_requests rfl
    simp [hfirst, hreq]

/-- The pass that a query ends, after another has failed temporarily. -/
theorem exact_stopped (h : scan ans g.vertices = some (1, true)) :
    Exact ans g (Proc.replay ans (dagPass g checkpoint)) := by
  have hnot : ∀ c : Call V, isPlanning c = true →
      c ∉ firstCalls ans g checkpoint := by
    intro c hc hmem
    rcases mem_firstCalls checkpoint hmem with rfl | h
    · cases hc
    · cases c <;> simp_all [isReading, isPlanning]
  have hgoes : goesOn ans g (firstCalls ans g checkpoint) := by
    have hfailed := failedTemporarily_iff checkpoint h
      (fun v => @List.not_mem_nil _ (Call.recoveryEvents v))
    rw [List.append_nil] at hfailed
    exact .inr (hfailed.mpr Nat.one_pos)
  rw [pass_failed checkpoint h]
  refine ⟨rfl, fun v hv => absurd hv (hnot _ rfl), fun hall => ?_,
    fun v hv => absurd hv (hnot _ rfl), fun _ => count_firstCalls checkpoint h,
    fun hg => absurd hgoes hg⟩
  obtain ⟨v, hv, hnone⟩ := unanswered_of_scan h
  rw [hall v hv] at hnone
  cases hnone

/-- Where the pass is exact there is one more to come or an end is logged. -/
theorem exact_count {run : List (Call V) × Except Fault Unit}
    (h : Exact ans g run) :
    run.1.count .scheduleAgain = 1 ∧ run.1.countP isEnd = 0 ∨
      run.1.count .scheduleAgain = 0 ∧ run.1.countP isEnd = 1 := by
  by_cases hg : goesOn ans g run.1
  · exact .inl (h.again hg)
  · exact .inr ⟨(h.ends hg).1, (h.ends hg).2.1⟩

theorem contexts_of_exact (h : scan ans g.vertices = some (0, false))
    (hexact : Exact ans g (Proc.replay ans (dagPass g checkpoint))) :
    Contexts ans g := by
  obtain ⟨colors, hend, -, hread⟩ :=
    @assessEnd_through V _ ans _ (fun _ => .white) 0 g.nodup h
  have hcolors := hread fun _ _ => rfl
  have htracks := tracks_first h hcolors
  have hall := colored_of_scan h
  have hready : ∀ v ∈ g.vertices, ready ans g v = true → hasContext ans v := by
    intro v hv hr
    have hq := hexact.queuesAll
      (fun u hu => (reading_colored (hall u hu)).2.2.2) v hv hr
    rcases @pass_through V _ ans g checkpoint colors hend with
      ⟨cs, c', b, hp, hrun⟩ | ⟨cs, what, hp, hrun⟩
    · rw [hrun, mem_pass rfl] at hq
      exact @hasContext_of_queue V _ ans g v g.vertices colors true
        (by rw [hp]; exact hq)
    · rw [hrun, List.mem_append, List.mem_append] at hq
      rcases hq with hq | hq | hq
      · rcases mem_firstCalls checkpoint hq with hq | hq <;> cases hq
      · exact @hasContext_of_queue V _ ans g v g.vertices colors true
          (by rw [hp]; exact hq)
      · cases List.mem_singleton.mp hq
  refine ⟨hready, fun v hv => Classical.byContradiction fun hnone => ?_⟩
  obtain ⟨e, he⟩ := planNodes_fails true g.nodup htracks (fun _ hv => hv)
    hready ⟨v, hv, hnone⟩
  rcases @pass_through V _ ans g checkpoint colors hend with
    ⟨cs, c', b, hp, hrun⟩ | ⟨cs, what, hp, hrun⟩
  · rw [hp] at he
    cases he
  · obtain ⟨hcount, hends, -⟩ := planning_count hp
    obtain ⟨hcount₁, hends₁⟩ := count_firstCalls checkpoint h
    -- the vertex that cannot be aborted has not ended
    obtain ⟨hvg, hs⟩ := mem_aborts hv
    have hagain := (hexact.again (.inl ⟨v, hvg, ?_⟩)).1
    · rw [hrun] at hagain
      simp only [List.count_append, hcount, hcount₁] at hagain
      cases hagain
    · rw [terminal, Bool.or_eq_false_iff]
      exact not_failed_of_submitted hs

/-- Where a query has failed temporarily and none for good, its vertex stays
white: the second loop goes on to a second further pass, or throws. -/
theorem twice_or_both {n : ℕ} (h : scan ans g.vertices = some (n + 1, false)) :
    ¬((Proc.replay ans (dagPass g checkpoint)).1.count .scheduleAgain = 1 ∧
        (Proc.replay ans (dagPass g checkpoint)).1.countP isEnd = 0 ∨
      (Proc.replay ans (dagPass g checkpoint)).1.count .scheduleAgain = 0 ∧
        (Proc.replay ans (dagPass g checkpoint)).1.countP isEnd = 1) := by
  obtain ⟨colors, hend, -, hread⟩ :=
    @assessEnd_through V _ ans _ (fun _ => .white) _ g.nodup h
  obtain ⟨v, hv, hfailed⟩ := unfinished_of_scan h
  have hwhite : colors v = .white := by
    rw [hread (fun _ _ => rfl) v hv, colorOf, hfailed]
  obtain ⟨hcount₁, hends₁⟩ := count_firstCalls checkpoint h
  rcases @pass_through V _ ans g checkpoint colors hend with
    ⟨cs, c', b, hp, hrun⟩ | ⟨cs, what, hp, hrun⟩
  · obtain ⟨hcount, hends, -⟩ := planning_count hp
    cases b with
    | true =>
        have hended := ended_of_completed g.nodup (congrArg Prod.snd hp) v hv
        rw [hwhite] at hended
        cases hended
    | false =>
        rw [hrun]
        simp only [List.count_append, hcount, hcount₁,
          (@count_endCalls V _ g c' false).1, Bool.false_eq_true, if_false]
        omega
  · obtain ⟨hcount, hends, -⟩ := planning_count hp
    rw [hrun]
    simp only [List.count_append, List.countP_append, hcount, hcount₁, hends,
      hends₁, List.count_singleton, List.countP_singleton, isEnd]
    simp

/-- A pass does what the statuses call for if every query it needs answers and
every context can be made, and also where one query fails temporarily before
another fails for good. -/
theorem pass_exact_iff (ans : (c : Call V) → Answer c) (g : Graph V)
    (checkpoint : Checkpoint) :
    Exact ans g (Proc.replay ans (dagPass g checkpoint)) ↔
      scan ans g.vertices = some (0, false) ∧ Contexts ans g ∨
        scan ans g.vertices = some (1, true) := by
  constructor
  · intro h
    have hone := exact_count h
    cases hscan : scan ans g.vertices with
    | none =>
        have hret := h.returns
        rw [pass_null checkpoint hscan] at hret
        cases hret
    | some r =>
        obtain ⟨n, b⟩ := r
        obtain ⟨hcount, hends⟩ := count_firstCalls checkpoint hscan
        cases b with
        | true =>
            rw [pass_failed checkpoint hscan, hcount, hends] at hone
            obtain rfl : n = 1 := by omega
            exact .inr rfl
        | false =>
            cases n with
            | zero => exact .inl ⟨rfl, contexts_of_exact hscan h⟩
            | succ n => exact absurd hone (twice_or_both hscan)
  · rintro (⟨h, hctx⟩ | h)
    · exact exact_served h hctx
    · exact exact_stopped h

end

/-! A DAG of one node, which is done; the query of its events times out. -/

/-- A DAG of one node. -/
def oneNode : Graph ℕ where
  vertices := [0]
  parents := fun _ => []
  nodup := by decide
  mem_vertices := by decide

/-- The events of no node can be had. -/
def timingOut : (c : Call ℕ) → Answer c
  | .nodeStatus _ => some .done
  | .recoveryEvents _ => .error .etimedout
  | .createContext _ => .ok ()
  | .logManaged => ()
  | .queue _ => ()
  | .abortNode _ => ()
  | .scheduleAgain => ()
  | .storeCheckpoint => ()
  | .logDoneOk => ()
  | .logAbort => ()
  | .unrecoverable _ => ()

/-- The node is submitted again, and there are two further passes. -/
theorem pass_resubmits_done :
    (Proc.replay timingOut (dagPass oneNode .pending)).1 =
      [.nodeStatus 0, .recoveryEvents 0, .scheduleAgain, .createContext 0,
        .queue 0, .scheduleAgain, .storeCheckpoint] ∧
    ¬Exact timingOut oneNode
      (Proc.replay timingOut (dagPass oneNode .pending)) := by
  have hrun : (Proc.replay timingOut (dagPass oneNode .pending)).1 =
      [.nodeStatus 0, .recoveryEvents 0, .scheduleAgain, .createContext 0,
        .queue 0, .scheduleAgain, .storeCheckpoint] := by decide
  refine ⟨hrun, fun h => ?_⟩
  have hready := (h.queuesOnly 0 (by rw [hrun]; decide)).2
  cases hready

end Wms.Core.Dag
