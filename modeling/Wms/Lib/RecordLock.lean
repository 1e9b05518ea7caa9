import Mathlib.Data.List.Basic
import Mathlib.Data.Nat.Notation
import Wms.Lib.Instances

/-!
# A record lock on one file

An exclusive POSIX lock on a whole file, as the processes that open the file
see it. The lock belongs to a process and not to a descriptor, with two
consequences: a process that holds it gets it again at once, and a process
that closes any of its descriptors of the file has lost it, whichever
descriptor that is.

A lock is held only by a process that has the file open, which is a field of
the structure, so every operation has to keep it. Descriptors are numbered in
the order they were opened and no number is given out twice.
-/

namespace Wms.Lib

/-- A lock of a file that belongs to a process and not to a descriptor. -/
structure RecordLock where
  holder : Option ℕ
  /-- The open descriptors, each with its process. -/
  opened : List (ℕ × ℕ)
  /-- The number of the next descriptor. -/
  fresh : ℕ
  holder_opened : ∀ p, holder = some p → ∃ fd, (p, fd) ∈ opened

namespace RecordLock

/-- Nobody holds the lock and nobody has the file open. -/
def init : RecordLock where
  holder := none
  opened := []
  fresh := 0
  holder_opened := by intro p h; cases h

variable (l : RecordLock) (p : ℕ)

/-- A process can have the lock now, without waiting. -/
def free : Bool := l.holder = none || l.holder = some p

/-- What `F_GETLK` reports to a process: another one holds the lock. -/
def lockedFor : Bool := !l.free p

/-- The file is opened and no more. -/
def openFile : RecordLock where
  holder := l.holder
  opened := (p, l.fresh) :: l.opened
  fresh := l.fresh + 1
  holder_opened := by
    intro q hq
    obtain ⟨fd, hfd⟩ := l.holder_opened q hq
    exact ⟨fd, List.mem_cons_of_mem _ hfd⟩

/-- The file is opened and the lock taken. -/
def acquire : RecordLock where
  holder := some p
  opened := (p, l.fresh) :: l.opened
  fresh := l.fresh + 1
  holder_opened := by
    intro q hq
    cases hq
    exact ⟨l.fresh, List.mem_cons_self⟩

/-- The holder when a process has closed a descriptor. -/
def without : Option ℕ := if l.holder = some p then none else l.holder

theorem without_eq_some {q : ℕ} :
    l.without p = some q ↔ l.holder = some q ∧ q ≠ p := by
  unfold without
  split
  · next h =>
    constructor
    · intro hq
      cases hq
    · rintro ⟨hq, hne⟩
      rw [h, Option.some.injEq] at hq
      exact absurd hq.symm hne
  · next h =>
    constructor
    · intro hq
      refine ⟨hq, fun he => ?_⟩
      rw [he] at hq
      exact h hq
    · exact fun hq => hq.1

/-- A descriptor is closed; one that is not open is left alone. -/
def close (fd : ℕ) : RecordLock :=
  if (p, fd) ∈ l.opened then
    { holder := l.without p
      opened := l.opened.filter fun d => d ≠ (p, fd)
      fresh := l.fresh
      holder_opened := by
        intro q hq
        obtain ⟨hq, hne⟩ := (l.without_eq_some p).mp hq
        obtain ⟨fd', hfd'⟩ := l.holder_opened q hq
        refine ⟨fd', List.mem_filter.mpr ⟨hfd', ?_⟩⟩
        simp [hne] }
  else l

/-- The file is opened and closed again. -/
def touch : RecordLock where
  holder := l.without p
  opened := l.opened
  fresh := l.fresh + 1
  holder_opened := by
    intro q hq
    exact l.holder_opened q ((l.without_eq_some p).mp hq).1

/-- A process ends and all its descriptors are closed. -/
def exit : RecordLock where
  holder := l.without p
  opened := l.opened.filter fun d => d.1 ≠ p
  fresh := l.fresh
  holder_opened := by
    intro q hq
    obtain ⟨hq, hne⟩ := (l.without_eq_some p).mp hq
    obtain ⟨fd, hfd⟩ := l.holder_opened q hq
    refine ⟨fd, List.mem_filter.mpr ⟨hfd, ?_⟩⟩
    simp [hne]

/-! ## What a process can rely on

A process that has the lock with one of its descriptors open keeps both
through everything the others do. -/

variable {l p}

/-- A process has the lock through a descriptor. -/
def HeldBy (l : RecordLock) (p fd : ℕ) : Prop :=
  l.holder = some p ∧ (p, fd) ∈ l.opened

theorem heldBy_acquire : (l.acquire p).HeldBy p l.fresh :=
  ⟨rfl, List.mem_cons_self⟩

/-- Nobody gets the lock while another has it. -/
theorem eq_of_free {q fd : ℕ} (h : l.HeldBy q fd) (hfree : l.free p = true) :
    p = q := by
  unfold free at hfree
  rw [h.1] at hfree
  have hq : q = p := by simpa using hfree
  exact hq.symm

theorem heldBy_openFile {q fd : ℕ} (h : l.HeldBy q fd) :
    (l.openFile p).HeldBy q fd := ⟨h.1, List.mem_cons_of_mem _ h.2⟩

theorem heldBy_touch {q fd : ℕ} (h : l.HeldBy q fd) (hne : q ≠ p) :
    (l.touch p).HeldBy q fd := ⟨(l.without_eq_some p).mpr ⟨h.1, hne⟩, h.2⟩

theorem heldBy_close {q fd fd' : ℕ} (h : l.HeldBy q fd) (hne : q ≠ p) :
    (l.close p fd').HeldBy q fd := by
  unfold close
  split
  · refine ⟨(l.without_eq_some p).mpr ⟨h.1, hne⟩,
      List.mem_filter.mpr ⟨h.2, ?_⟩⟩
    simp [hne]
  · exact h

theorem heldBy_exit {q fd : ℕ} (h : l.HeldBy q fd) (hne : q ≠ p) :
    (l.exit p).HeldBy q fd := by
  refine ⟨(l.without_eq_some p).mpr ⟨h.1, hne⟩, List.mem_filter.mpr ⟨h.2, ?_⟩⟩
  simp [hne]

/-! A process that has closed a descriptor has lost the lock, and it stays
lost until it asks for it again. -/

theorem holder_touch_ne : (l.touch p).holder ≠ some p :=
  fun h => ((l.without_eq_some p).mp h).2 rfl

theorem holder_close_ne {fd : ℕ} (h : (p, fd) ∈ l.opened) :
    (l.close p fd).holder ≠ some p := by
  rw [close, if_pos h]
  exact fun hq => ((l.without_eq_some p).mp hq).2 rfl

theorem holder_touch_of_ne {q : ℕ} (h : l.holder ≠ some q) :
    (l.touch p).holder ≠ some q :=
  fun hq => h ((l.without_eq_some p).mp hq).1

theorem holder_close_of_ne {q fd : ℕ} (h : l.holder ≠ some q) :
    (l.close p fd).holder ≠ some q := by
  unfold close
  split
  · exact fun hq => h ((l.without_eq_some p).mp hq).1
  · exact h

theorem holder_exit_of_ne {q : ℕ} (h : l.holder ≠ some q) :
    (l.exit p).holder ≠ some q :=
  fun hq => h ((l.without_eq_some p).mp hq).1

end RecordLock

end Wms.Lib
