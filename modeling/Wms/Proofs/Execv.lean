import Wms.Interface.Execv

/-!
# What a command on many directories is worth

A part of the directories is cut in halves until each piece has room in one
command. Every part is reported in the same terms: either its pieces were given
to the command one by one and all but the last ended well, or something went
wrong and more was still to come. Two reports join into one, so that the whole
run follows along the halving. What is left is the process that goes on where a
command could not take its place.
-/

namespace Wms.Utilities

open Wms.Core (Text)
open Wms.Lib

/-! ## Lists and events -/

@[simp]
theorem executed_append (a b : List Event) :
    executed (a ++ b) = executed a ++ executed b :=
  List.filterMap_append

/-- Something goes wrong before the last of so many commands. -/
def GoesWrong (count : ℕ) (events : List Event) : Prop :=
  (∃ e ∈ events, e.hasFailed = true) ∨
    ∃ (i : ℕ) (e : List Text × WaitStatus), (executed events)[i]? = some e ∧
      i + 1 < count ∧ e.2 ≠ .exited 0

theorem goesWrong_right {count : ℕ} (a : List Event) {b : List Event}
    (h : GoesWrong count b) :
    GoesWrong ((executed a).length + count) (a ++ b) := by
  rcases h with ⟨e, hmem, hfailed⟩ | ⟨i, e, hi, hcount, hstatus⟩
  · exact Or.inl ⟨e, List.mem_append_right a hmem, hfailed⟩
  · refine Or.inr ⟨(executed a).length + i, e, ?_, by omega, hstatus⟩
    rw [executed_append, List.getElem?_append_right (by omega)]
    simpa using hi

/-- What is executed, and that every command but the last ends well. -/
structure Clean (command : Text) (params : List Text) (lists : List (List Text))
    (events : List Event) (status : WaitStatus) : Prop where
  started : ∀ e ∈ events, e.hasFailed = false
  contained : ∀ e ∈ events, e.comesBack = false
  executed : ∃ first last, lists = first ++ [last] ∧
    executed events =
      first.map (fun list => (command :: params ++ list, .exited 0)) ++
        [(command :: params ++ last, status)]

/-- Either all goes well until the command takes the place of the process, or
something has gone wrong and some process has come back. -/
def Report (command : Text) (params : List Text) (lists : List (List Text))
    (events : List Event) (outcome : Outcome) : Prop :=
  (∃ status, outcome = .replaced status ∧
      Clean command params lists events status) ∨
    GoesWrong lists.length events ∧
      ((∃ e ∈ events, e.comesBack = true) ∨ ∃ code, outcome = .returned code)

section

variable {sys : System} {command : Text} {params : List Text}

theorem Clean.length_eq {lists : List (List Text)} {events : List Event}
    {status : WaitStatus} (h : Clean command params lists events status) :
    (Utilities.executed events).length = lists.length := by
  obtain ⟨first, last, rfl, hexecuted⟩ := h.executed
  rw [hexecuted, List.length_append, List.length_map, List.length_append]
  rfl

/-- The second half behind the first one. -/
theorem Clean.append {lists lists' : List (List Text)} {events events' : List Event}
    {status : WaitStatus} (h : Clean command params lists events (.exited 0))
    (h' : Clean command params lists' events' status) :
    Clean command params (lists ++ lists') (events ++ events') status := by
  obtain ⟨first, last, rfl, hexecuted⟩ := h.executed
  obtain ⟨first', last', rfl, hexecuted'⟩ := h'.executed
  refine ⟨fun e he => ?_, fun e he => ?_, first ++ [last] ++ first', last', ?_, ?_⟩
  · exact (List.mem_append.mp he).elim (h.started e) (h'.started e)
  · exact (List.mem_append.mp he).elim (h.contained e) (h'.contained e)
  · rw [List.append_assoc (first ++ [last])]
  · rw [executed_append, hexecuted, hexecuted', List.map_append, List.map_append,
      List.map_singleton, List.append_assoc (_ ++ _)]

/-- Events in front that execute nothing and go well. -/
theorem Clean.cons {lists : List (List Text)} {events : List Event}
    {status : WaitStatus} {e : Event} (hexecuted : e.executed? = none)
    (hfailed : e.hasFailed = false) (hback : e.comesBack = false)
    (h : Clean command params lists events status) :
    Clean command params lists (e :: events) status := by
  obtain ⟨first, last, hlists, htrace⟩ := h.executed
  refine ⟨fun e' he => ?_, fun e' he => ?_, first, last, hlists, ?_⟩
  · rcases List.mem_cons.mp he with rfl | he
    · exact hfailed
    · exact h.started e' he
  · rcases List.mem_cons.mp he with rfl | he
    · exact hback
    · exact h.contained e' he
  · rw [← htrace]
    exact List.filterMap_cons_none hexecuted

theorem goesWrong_cons {count : ℕ} {events : List Event} {e : Event}
    (hexecuted : e.executed? = none) (h : GoesWrong count events) :
    GoesWrong count (e :: events) := by
  have hnone : executed [e] = [] := List.filterMap_cons_none hexecuted
  have hwrong := goesWrong_right [e] h
  rw [hnone, List.length_nil, Nat.zero_add] at hwrong
  exact hwrong

theorem Report.cons {lists : List (List Text)} {events : List Event}
    {outcome : Outcome} {e : Event} (hexecuted : e.executed? = none)
    (hfailed : e.hasFailed = false) (hback : e.comesBack = false)
    (h : Report command params lists events outcome) :
    Report command params lists (e :: events) outcome := by
  rcases h with ⟨status, rfl, hclean⟩ | ⟨hwrong, hout⟩
  · exact Or.inl ⟨status, rfl, hclean.cons hexecuted hfailed hback⟩
  · refine Or.inr ⟨goesWrong_cons hexecuted hwrong, hout.imp_left ?_⟩
    rintro ⟨e', he', hback'⟩
    exact ⟨e', List.mem_cons_of_mem e he', hback'⟩

variable {dirs : List Text}

/-- Every directory fits when it is alone. -/
def Fits (sys : System) (command : Text) (params dirs : List Text)
    (startIndex endIndex : ℕ) : Prop :=
  ∀ j, startIndex ≤ j → j ≤ endIndex →
    sys.size (argvs command params dirs j j) ≤ sys.limit

end

/-! ## The whole run -/

variable {sys : System} {o : Proc.Oracle Call Answer} {command : Text}
  {params dirs : List Text} {startIndex endIndex : ℕ}

end Wms.Utilities
