import Wms.Lib.Lts
import Wms.Proofs.FileChange

/-!
# The stamps of a shared container

A handle finds out that another one has changed the file by comparing stamps, so
every update has to leave a stamp above the one it read. The epoch never goes
back, whatever the clock says. What can go back is the counter: it has 16 bits,
and where the clock does not pass the epoch of the file the update only counts.

So an update goes up exactly where the clock has passed the file or the counter
of the file is not the last one. The state here is the file with all of its
handles, and a run is any order of their updates.
-/

namespace Wms.Jobsubmission.FileContainer

open Wms.Lib

/-! ## One update -/

/-- The clock has passed the file, or the file's counter can still be raised. -/
def HasRoom (now : ℤ) (t : TimeStamp) : Prop :=
  t.epoch < now ∨ t.counter < 65535

/-- The new stamp is above the one of the file, and above the old one of the
handle where that was not ahead of the file. -/
def GoesUp (now : ℤ) (s t : TimeStamp) : Prop :=
  (s.updateStamp now t).gt t = true ∧
    (s.gt t = false → (s.updateStamp now t).gt s = true)

theorem gt_iff {s t : TimeStamp} :
    s.gt t = true ↔ t.epoch < s.epoch ∨ s.epoch = t.epoch ∧ t.counter < s.counter := by
  simp [TimeStamp.gt]

theorem gt_false_iff {s t : TimeStamp} :
    s.gt t = false ↔ s.epoch < t.epoch ∨ s.epoch = t.epoch ∧ s.counter ≤ t.counter := by
  rw [← Bool.not_eq_true, gt_iff]
  omega

theorem gt_trans {s t u : TimeStamp} (h : u.gt t = true) (h' : t.gt s = true) :
    u.gt s = true := by
  rw [gt_iff] at *
  omega

theorem nextCounter_of_lt {n : ℕ} (h : n < 65535) : nextCounter n = n + 1 :=
  Nat.mod_eq_of_lt (by omega)

theorem nextCounter_le (n : ℕ) : nextCounter n ≤ 65535 := by
  have h := Nat.mod_lt (n + 1) (by omega : 0 < 65536)
  rw [nextCounter]
  omega

/-- What the clock makes of the handle's stamp, before the file is looked at. -/
def ticked (now : ℤ) (s : TimeStamp) : TimeStamp :=
  if s.epoch = now then ⟨s.epoch, nextCounter s.counter⟩ else ⟨now, 0⟩

theorem ticked_epoch (now : ℤ) (s : TimeStamp) : (ticked now s).epoch = now := by
  rw [ticked]
  split
  · assumption
  · rfl

theorem ticked_counter_le (now : ℤ) (s : TimeStamp) :
    (ticked now s).counter ≤ 65535 := by
  rw [ticked]
  split
  · exact nextCounter_le s.counter
  · exact Nat.zero_le _

/-- The three outcomes of an update. -/
theorem updateStamp_cases (now : ℤ) (s t : TimeStamp) :
    (now < t.epoch ∧ s.updateStamp now t = ⟨t.epoch, nextCounter t.counter⟩) ∨
      (t.epoch = now ∧ (ticked now s).counter ≤ t.counter ∧
        s.updateStamp now t = ⟨now, nextCounter t.counter⟩) ∨
      ((t.epoch < now ∨ t.epoch = now ∧ t.counter < (ticked now s).counter) ∧
        s.updateStamp now t = ticked now s) := by
  have hepoch := ticked_epoch now s
  have hupdate : s.updateStamp now t =
      if (ticked now s).epoch < t.epoch then ⟨t.epoch, nextCounter t.counter⟩
      else if (ticked now s).epoch = t.epoch ∧
        (ticked now s).counter ≤ t.counter then
        ⟨(ticked now s).epoch, nextCounter t.counter⟩
      else ticked now s := rfl
  rw [hupdate, hepoch]
  split
  next hlt => exact Or.inl ⟨hlt, rfl⟩
  next hnot =>
      split
      next hle => exact Or.inr (Or.inl ⟨hle.1.symm, hle.2, rfl⟩)
      next hgt => exact Or.inr (Or.inr ⟨by omega, rfl⟩)

theorem goesUp_iff (now : ℤ) (s t : TimeStamp) : GoesUp now s t ↔ HasRoom now t := by
  have hnext := nextCounter_le t.counter
  have hticked := ticked_counter_le now s
  have hepoch := ticked_epoch now s
  rw [GoesUp, HasRoom, gt_iff, gt_iff, gt_false_iff]
  constructor
  · intro h
    by_contra hnone
    rcases updateStamp_cases now s t with ⟨hlt, heq⟩ | ⟨hsame, -, heq⟩ | ⟨hover, heq⟩
    · rw [heq] at h
      have hup := h.1
      simp only [lt_irrefl, false_or, true_and] at hup
      omega
    · rw [heq] at h
      have hup := h.1
      simp only [hsame, lt_irrefl, false_or, true_and] at hup
      omega
    · omega
  · intro hroom
    rcases updateStamp_cases now s t with ⟨hlt, heq⟩ | ⟨hsame, -, heq⟩ | ⟨hover, heq⟩
    · have hcount := nextCounter_of_lt (n := t.counter) (by omega)
      rw [heq, hcount]
      show (t.epoch < t.epoch ∨ t.epoch = t.epoch ∧ t.counter < t.counter + 1) ∧ _
      constructor
      · omega
      · intro hle
        show s.epoch < t.epoch ∨ t.epoch = s.epoch ∧ s.counter < t.counter + 1
        omega
    · have hcount := nextCounter_of_lt (n := t.counter) (by omega)
      rw [heq, hcount]
      show (_ ∨ now = t.epoch ∧ t.counter < t.counter + 1) ∧ _
      constructor
      · omega
      · intro hle
        show s.epoch < now ∨ now = s.epoch ∧ s.counter < t.counter + 1
        omega
    · rw [heq]
      constructor
      · omega
      · intro hle
        omega

/-! ## Runs of updates -/

/-- The file and all the handles on it. -/
structure Shared where
  file : File
  handle : ℕ → Handle

/-- What may happen to the stamps: a handle is built, reads the container again,
or stamps a change. -/
inductive StampUse where
  | create (i : ℕ) (now : ℤ)
  | sync (i : ℕ)
  | update (i : ℕ) (now : ℤ)
  deriving DecidableEq, Repr

/-- A handle runs one of the functions of the container; `none` is an error. -/
def Shared.perform (s : Shared) (m : FileProg Unit) (i : ℕ) : Option Shared :=
  let o := m.run s.file (s.handle i)
  if o.result.isOk then
    some ⟨Store.applyAll s.file o.log, Function.update s.handle i o.priv⟩
  else none

def Shared.next (s : Shared) : StampUse → Option Shared
  | .create i now =>
      some { s with handle := Function.update s.handle i (fresh now) }
  | .sync i => s.perform readStamp i
  | .update i now => s.perform (updateTimeStamp now) i

/-- An update finds a stamp with room. -/
def FindsRoom (s : Shared) : StampUse → Prop
  | .update _ now => ∃ t, s.file.stamp = some t ∧ HasRoom now t
  | _ => True

/-- An update writes a stamp above the one it read and above the handle's own,
where that was not ahead, and the handle keeps what it wrote. -/
def Raises (s : Shared) : StampUse → Prop
  | .update i now => ∃ t u s', s.file.stamp = some t ∧
      s.next (.update i now) = some s' ∧ s'.file.stamp = some u ∧
      (s'.handle i).stamp = u ∧ u.gt t = true ∧
      ((s.handle i).stamp.gt t = false → u.gt (s.handle i).stamp = true)
  | _ => True

theorem next_update {s : Shared} {t : TimeStamp} (ht : s.file.stamp = some t)
    (i : ℕ) (now : ℤ) :
    s.next (.update i now) = some
      ⟨s.file.apply (.stamp ((s.handle i).stamp.updateStamp now t)),
        Function.update s.handle i
          { s.handle i with stamp := (s.handle i).stamp.updateStamp now t }⟩ := by
  rw [Shared.next, Shared.perform, updateTimeStamp_run now ht]
  rfl

theorem next_update_none {s : Shared} (ht : s.file.stamp = none) (i : ℕ) (now : ℤ) :
    s.next (.update i now) = none := by
  simp [Shared.next, Shared.perform, updateTimeStamp, ht, Except.isOk, Except.toBool]

theorem next_sync_file {s s' : Shared} {i : ℕ} (h : s.next (.sync i) = some s') :
    s'.file = s.file := by
  rw [Shared.next, Shared.perform] at h
  cases hstamp : s.file.stamp with
  | none => simp [readStamp, hstamp] at h; rw [← h.2]
  | some t => simp [readStamp, setStamp, hstamp] at h; rw [← h.2]

theorem raises_iff (s : Shared) (l : StampUse) : Raises s l ↔ FindsRoom s l := by
  cases l with
  | create i now => rfl
  | sync i => rfl
  | update i now =>
      constructor
      · intro h
        obtain ⟨t, u, s', ht, hnext, hu, hkept, hup, hown⟩ := h
        rw [next_update ht] at hnext
        cases hnext
        cases hu
        exact ⟨t, ht, (goesUp_iff now _ t).mp ⟨hup, hown⟩⟩
      · intro h
        obtain ⟨t, ht, hroom⟩ := h
        have hup := (goesUp_iff now (s.handle i).stamp t).mpr hroom
        refine ⟨t, _, _, ht, next_update ht i now, rfl, ?_, hup.1, hup.2⟩
        show (Function.update s.handle i _ i).stamp = _
        rw [Function.update_self]

/-- The stamps a run writes into the file, one for each update. -/
def stampsWritten (s : Shared) (ls : List StampUse) : List TimeStamp :=
  (steps Shared.next s ls).filterMap fun p =>
    match p.2 with
    | .update _ _ => (p.1.next p.2).bind (·.file.stamp)
    | _ => none

theorem stampsWritten_update {s s' : Shared} {i : ℕ} {now : ℤ} {u : TimeStamp}
    {ls : List StampUse} (h : s.next (.update i now) = some s')
    (hu : s'.file.stamp = some u) :
    stampsWritten s (.update i now :: ls) = u :: stampsWritten s' ls := by
  rw [stampsWritten, steps_cons_of_next h]
  simp [stampsWritten, h, hu]

theorem stampsWritten_cons {s s' : Shared} {l : StampUse} {ls : List StampUse}
    (h : s.next l = some s') (hl : ∀ i now, l ≠ .update i now) :
    stampsWritten s (l :: ls) = stampsWritten s' ls := by
  rw [stampsWritten, steps_cons_of_next h]
  cases l with
  | create i now => rfl
  | sync i => rfl
  | update i now => exact absurd rfl (hl i now)

theorem next_file {s s' : Shared} {l : StampUse} (h : s.next l = some s')
    (hl : ∀ i now, l ≠ .update i now) : s'.file = s.file := by
  cases l with
  | create i now => cases h; rfl
  | sync i => exact next_sync_file h
  | update i now => exact absurd rfl (hl i now)

theorem meets_cons {s s' : Shared} {l : StampUse} {ls : List StampUse}
    (h : s.next l = some s') :
    Meets Shared.next FindsRoom s (l :: ls) ↔
      FindsRoom s l ∧ Meets Shared.next FindsRoom s' ls := by
  rw [Meets, steps_cons_of_next h, List.forall_mem_cons]
  rfl

/-- Every stamp that is written is above all before it. -/
theorem stampsWritten_increasing {s : Shared} {t : TimeStamp} {ls : List StampUse}
    (ht : s.file.stamp = some t) (h : Meets Shared.next FindsRoom s ls) :
    (t :: stampsWritten s ls).Pairwise fun t u => u.gt t = true := by
  induction ls generalizing s t with
  | nil => exact List.pairwise_singleton _ t
  | cons l ls ih =>
      cases hnext : s.next l with
      | none =>
          have hnone : stampsWritten s (l :: ls) = [] := by
            simp [stampsWritten, steps, hnext]
          rw [hnone]
          exact List.pairwise_singleton _ t
      | some s' =>
          obtain ⟨hroom, hrest⟩ := (meets_cons hnext).mp h
          by_cases hl : ∀ i now, l ≠ .update i now
          · rw [stampsWritten_cons hnext hl]
            exact ih (next_file hnext hl ▸ ht) hrest
          · obtain ⟨i, now, rfl⟩ : ∃ i now, l = .update i now := by
              by_contra hnot
              exact hl fun i now heq => hnot ⟨i, now, heq⟩
            obtain ⟨t', u, s'', ht', hnext', hu, -, hup, -⟩ :=
              (raises_iff s (.update i now)).mpr hroom
            cases hnext.symm.trans hnext'
            cases ht.symm.trans ht'
            rw [stampsWritten_update hnext hu]
            have hchain := ih hu hrest
            refine List.pairwise_cons.mpr ⟨?_, hchain⟩
            intro v hv
            rcases List.mem_cons.mp hv with rfl | hv
            · exact hup
            · exact gt_trans ((List.pairwise_cons.mp hchain).1 v hv) hup

/-- A stamp that cannot be read is never replaced. -/
theorem stampsWritten_of_none {s : Shared} {ls : List StampUse}
    (h : s.file.stamp = none) : stampsWritten s ls = [] := by
  induction ls generalizing s with
  | nil => rfl
  | cons l ls ih =>
      cases hnext : s.next l with
      | none => simp [stampsWritten, steps, hnext]
      | some s' =>
          by_cases hl : ∀ i now, l ≠ .update i now
          · rw [stampsWritten_cons hnext hl]
            exact ih (next_file hnext hl ▸ h)
          · obtain ⟨i, now, rfl⟩ : ∃ i now, l = .update i now := by
              by_contra hnot
              exact hl fun i now heq => hnot ⟨i, now, heq⟩
            rw [next_update_none h] at hnext
            cases hnext

/-- The updates of a run raise the stamps, and each writes one above all that
were written before, exactly where every update finds room. -/
theorem stamps_increase_iff (s : Shared) (ls : List StampUse) :
    ((∀ p ∈ steps Shared.next s ls, Raises p.1 p.2) ∧
      (stampsWritten s ls).Pairwise fun t u => u.gt t = true) ↔
      Meets Shared.next FindsRoom s ls := by
  constructor
  · intro h p hp
    exact (raises_iff p.1 p.2).mp (h.1 p hp)
  · intro h
    constructor
    · intro p hp
      exact (raises_iff p.1 p.2).mpr (h p hp)
    · cases hstamp : s.file.stamp with
      | none =>
          rw [stampsWritten_of_none hstamp]
          exact List.Pairwise.nil
      | some t => exact (List.pairwise_cons.mp (stampsWritten_increasing hstamp h)).2

/-- A clock that stands where the file is, and a file whose counter is full. -/
theorem not_goesUp_full :
    ¬ ∀ (now : ℤ) (s t : TimeStamp), s.counter < 65536 → t.counter < 65536 →
      GoesUp now s t := by
  intro h
  have hup := h 7 ⟨7, 65535⟩ ⟨7, 65535⟩ (by decide) (by decide)
  exact absurd hup.1 (by decide)

/-! ## Within one second -/

/-- No handle is ahead of the file. -/
structure NotAhead (s : Shared) (t : TimeStamp) : Prop where
  stamp : s.file.stamp = some t
  handle : ∀ i, (s.handle i).stamp.gt t = false

/-- A handle that is not ahead only counts, where the clock has not passed the
file. -/
theorem updateStamp_notAhead {now : ℤ} {s t : TimeStamp} (h : s.gt t = false)
    (hclock : now ≤ t.epoch) :
    s.updateStamp now t = ⟨t.epoch, nextCounter t.counter⟩ := by
  rw [gt_false_iff] at h
  rcases updateStamp_cases now s t with ⟨-, heq⟩ | ⟨hsame, -, heq⟩ | ⟨hover, heq⟩
  · exact heq
  · rw [heq, hsame]
  · have hsame : t.epoch = now := by omega
    by_cases hepoch : s.epoch = now
    · rw [ticked, if_pos hepoch] at hover heq
      have hcounter : t.counter < nextCounter s.counter := by
        have hover := hover.resolve_left (by omega)
        exact hover.2
      have hle : nextCounter s.counter ≤ s.counter + 1 := Nat.mod_le _ _
      have heqs : s.counter = t.counter := by omega
      rw [heq, heqs, hepoch, hsame]
    · rw [ticked, if_neg hepoch] at hover
      have hover := hover.resolve_left (by omega)
      exact absurd hover.2 (Nat.not_lt_zero _)

theorem NotAhead.update {s : Shared} {t : TimeStamp} (h : NotAhead s t) (i : ℕ)
    {now : ℤ} (hclock : now ≤ t.epoch) (hroom : t.counter < 65535) :
    ∃ s', s.next (.update i now) = some s' ∧
      NotAhead s' ⟨t.epoch, t.counter + 1⟩ := by
  have hstamp := updateStamp_notAhead (h.handle i) hclock
  rw [nextCounter_of_lt hroom] at hstamp
  have hnext := next_update h.stamp i now
  rw [hstamp] at hnext
  refine ⟨_, hnext, rfl, fun j => ?_⟩
  show (Function.update s.handle i _ j).stamp.gt _ = false
  by_cases hj : j = i
  · rw [hj, Function.update_self]
    exact gt_self _
  · rw [Function.update_of_ne hj]
    have hbehind := h.handle j
    rw [gt_false_iff] at hbehind ⊢
    show (s.handle j).stamp.epoch < t.epoch ∨
      (s.handle j).stamp.epoch = t.epoch ∧ (s.handle j).stamp.counter ≤ t.counter + 1
    omega

/-- As many updates as the counter has values left go up, by any handles in any
order, while the clock stands at or behind the file. -/
theorem burst_iff {s : Shared} {t : TimeStamp} (h : NotAhead s t)
    (hcounter : t.counter < 65536) {us : List (ℕ × ℤ)}
    (hclock : ∀ u ∈ us, u.2 ≤ t.epoch) :
    Meets Shared.next FindsRoom s (us.map fun u => .update u.1 u.2) ↔
      t.counter + us.length < 65536 := by
  induction us generalizing s t with
  | nil =>
      constructor
      · intro _
        exact hcounter
      · intro _ p hp
        cases hp
  | cons u us ih =>
      have hu : u.2 ≤ t.epoch := hclock u List.mem_cons_self
      have hroom : FindsRoom s (.update u.1 u.2) ↔ t.counter < 65535 := by
        constructor
        · intro hfinds
          obtain ⟨t', ht', hroom⟩ := hfinds
          cases h.stamp.symm.trans ht'
          exact hroom.resolve_left (by omega)
        · intro hlt
          exact ⟨t, h.stamp, Or.inr hlt⟩
      rw [List.map_cons, List.length_cons]
      by_cases hlt : t.counter < 65535
      · obtain ⟨s', hnext, hbehind⟩ := h.update u.1 hu hlt
        rw [meets_cons hnext, ih hbehind (Nat.succ_lt_succ hlt)
          fun v hv => hclock v (List.mem_cons_of_mem u hv)]
        show _ ∧ t.counter + 1 + us.length < 65536 ↔ _
        rw [hroom]
        omega
      · rw [meets_cons (next_update h.stamp u.1 u.2), hroom]
        omega

end Wms.Jobsubmission.FileContainer
