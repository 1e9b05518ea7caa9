import Wms.Interface.Watch
import Wms.Proofs.Start

/-!
# A start and its lock

What is left of a start is followed part by part. As long as every answer is
harmless the lock is held, and what ends a part goes to a handler that unlocks,
or to the end. A harmful answer is one of three kinds: an exception that nobody
catches leaves the lock behind; the look at the lock and the handler that goes
on lose it, and there is always one more call.
-/

namespace Wms.Interface

open Wms.Lib Wms.Lib.Proc
open Wms.Core (EnQueuedResult)

/-! ## Entries one after the other -/

theorem eachFrom_concat {α : Type} (P : List α → α → Prop) (earlier xs : List α) (x : α) :
    eachFrom P earlier (xs ++ [x]) ↔ eachFrom P earlier xs ∧ P (earlier ++ xs) x := by
  induction xs generalizing earlier with
  | nil =>
      rw [List.append_nil]
      exact ⟨fun h => ⟨trivial, h.1⟩, fun h => ⟨h.2, trivial⟩⟩
  | cons y ys ih =>
      show P earlier y ∧ eachFrom P (earlier ++ [y]) (ys ++ [x]) ↔
        (P earlier y ∧ eachFrom P (earlier ++ [y]) ys) ∧ _
      rw [ih, and_assoc, List.append_assoc, List.singleton_append]

theorem each_concat {α : Type} (P : List α → α → Prop) (xs : List α) (x : α) :
    Each P (xs ++ [x]) ↔ Each P xs ∧ P xs x := eachFrom_concat P [] xs x

theorem tries_concat (made : List Made) (m : Made) (c : Call) :
    tries (made ++ [m]) c =
      if m.call = c ∧ m.failed = true then tries made c + 1 else 0 := by
  unfold tries
  rw [List.reverse_append, List.reverse_singleton, List.singleton_append,
    List.takeWhile_cons]
  by_cases h : m.call = c ∧ m.failed = true
  · rw [if_pos h, h.2, decide_eq_true h.1]
    rfl
  · have hfalse : (decide (m.call = c) && m.failed) = false := by
      rw [← Bool.not_eq_true, Bool.and_eq_true, decide_eq_true_iff]
      exact h
    rw [if_neg h, hfalse]
    rfl

/-! ## States of a run -/

section

variable (cfg : Config) (p : ℕ) (fd : ℕ)

/-- The process has the lock and has had it. -/
structure Stands (s : Watched) : Prop where
  held : s.env.lock.HeldBy p fd
  kept : Kept s.made
  locked : s.made.any Made.locks = true

/-- The lock has been lost and that has been seen. -/
structure Ruined (s : Watched) : Prop where
  notKept : ¬ Kept s.made
  notClean : ¬ Clean cfg s.made

/-- The lock has just been lost. -/
structure Lost (s : Watched) : Prop where
  lost : s.env.lock.holder ≠ some p
  locked : s.made.any Made.locks = true
  notClean : ¬ Clean cfg s.made

/-- What is to be shown of a run that is over. -/
def Settled (s : Watched) : Prop := Sound p s ↔ Clean cfg s.made

variable {cfg p fd} {s : Watched}

theorem Ruined.settled (h : Ruined cfg s) : Settled cfg p s :=
  ⟨fun hs => absurd hs.kept h.notKept, fun hc => absurd hc h.notClean⟩

/-- The lock is left behind. -/
theorem Stands.settled (h : Stands p fd s) (hclean : ¬ Clean cfg s.made) :
    Settled cfg p s :=
  ⟨fun hs => absurd h.held.1 hs.released, fun hc => absurd hc hclean⟩

end

section

variable {cfg : Config} {p fd : ℕ} {meanwhile : ℕ → Env → Env} {s : Watched} {α : Type}
  {Q : Watched → α → Prop} {E : Watched → Exn → Prop}

/-- A call that may be answered in any way that is assumed. -/
theorem wp_answered {c : Call} {k : Answer c → WmpProc α}
    (h : ∀ r, assumed c r = true →
      wp (watchedContract p meanwhile) Q E (s.after p meanwhile c r) (k r)) :
    wp (watchedContract p meanwhile) Q E s (.call c k) :=
  fun _ hassumed => ⟨trivial, h _ hassumed⟩

theorem kept_after (c : Call) (r : Answer c) :
    Kept (s.after p meanwhile c r).made ↔ Kept s.made ∧
      (s.made.any Made.locks = true →
        decide ((s.before meanwhile).lock.holder = some p) = true) :=
  each_concat _ s.made _

theorem clean_after (c : Call) (r : Answer c) :
    Clean cfg (s.after p meanwhile c r).made ↔
      Clean cfg s.made ∧ harmless cfg s.made c r = true :=
  each_concat _ s.made _

theorem undelivered_after (c : Call) (r : Answer c) :
    Undelivered (s.after p meanwhile c r).made ↔ Undelivered s.made ∧
      ((Made.delivers ⟨decide ((s.before meanwhile).lock.holder = some p), c, r⟩) = true →
        s.made.any Made.failure = false) :=
  each_concat _ s.made _

theorem any_after (P : Made → Bool) (c : Call) (r : Answer c) :
    (s.after p meanwhile c r).made.any P = (s.made.any P ||
      P ⟨decide ((s.before meanwhile).lock.holder = some p), c, r⟩) := by
  unfold Watched.after
  rw [List.any_append, List.any_cons, List.any_nil, Bool.or_false]

theorem Ruined.after (h : Ruined cfg s) (c : Call) (r : Answer c) :
    Ruined cfg (s.after p meanwhile c r) where
  notKept := fun hk => h.notKept ((kept_after c r).mp hk).1
  notClean := fun hc => h.notClean ((clean_after c r).mp hc).1

/-- Nothing helps a run that has lost the lock. -/
theorem wp_ruined (h : Ruined cfg s) (q : WmpProc α) :
    wp (watchedContract p meanwhile) (fun s _ => Ruined cfg s) (fun s _ => Ruined cfg s)
      s q := by
  induction q generalizing s with
  | ret a => exact h
  | throw e => exact h
  | call c k ih => exact wp_answered fun r _ => ih r (h.after c r)

variable (hrely : ∀ n env, Rely p env (meanwhile n env))

include hrely

theorem Lost.after (h : Lost cfg p s) (c : Call) (r : Answer c) :
    Ruined cfg (s.after p meanwhile c r) where
  notKept := fun hk => (hrely s.made.length s.env).lost h.lost
    (of_decide_eq_true (((kept_after c r).mp hk).2 h.locked))
  notClean := fun hc => h.notClean ((clean_after c r).mp hc).1

/-- A call that does nothing to the lock. -/
theorem Stands.after (h : Stands p fd s) {c : Call} (hc : c.locks = false)
    (r : Answer c) : Stands p fd (s.after p meanwhile c r) := by
  have hheld := (hrely s.made.length s.env).held fd h.held
  refine ⟨?_, (kept_after c r).mpr ⟨h.kept, fun _ => decide_eq_true hheld.1⟩, ?_⟩
  · unfold Watched.after
    dsimp only
    rw [lock_effect hc r]
    exact hheld
  · rw [any_after, h.locked, Bool.true_or]

/-- The lock is given back. -/
theorem Stands.unlocked (h : Stands p fd s) (r : Answer (.operationUnlock fd)) :
    Kept (s.after p meanwhile (.operationUnlock fd) r).made ∧
      (s.after p meanwhile (.operationUnlock fd) r).env.lock.holder ≠ some p := by
  have hheld := (hrely s.made.length s.env).held fd h.held
  exact ⟨(kept_after _ r).mpr ⟨h.kept, fun _ => decide_eq_true hheld.1⟩,
    RecordLock.holder_close_ne hheld.2⟩

/-- One more call without the lock. -/
theorem Lost.wp_call (h : Lost cfg p s) (c : Call) (k : Answer c → WmpProc α) :
    wp (watchedContract p meanwhile) (fun s _ => Ruined cfg s) (fun s _ => Ruined cfg s)
      s (.call c k) :=
  wp_answered fun r _ => wp_ruined (h.after hrely c r) (k r)

end

/-! ## Inside the blocks that are watched over -/

section

variable (cfg : Config) (p fd : ℕ)

/-- The lock is held, nothing harmful has been delivered, and the run has been
harmless as far as the proposition says. -/
structure Held (C : Prop) (s : Watched) : Prop where
  stands : Stands p fd s
  undelivered : Undelivered s.made
  clean : Clean cfg s.made ↔ C

/-- No log call has just been tried in vain. -/
def Fresh (s : Watched) : Prop := ∀ c, tries s.made c = 0

/-- Nothing has gone wrong. -/
structure Unharmed (job : Bool) (s : Watched) : Prop extends Held cfg p fd True s where
  read : s.made.any Made.readsJob = job
  unhandled : s.made.any Made.handles = false
  unfailed : s.made.any Made.failure = false
  fresh : Fresh s

/-- The exception with which a handler of an asynchronous start goes on. -/
def GoesOn (job : Bool) (e : Exn) : Prop :=
  cfg.asyncJobStart = true ∧ job = true ∧ e.isRequestAd = true

variable {cfg} in
theorem goesOn_iff {job : Bool} {e : Exn} :
    (!(cfg.asyncJobStart && job && e.isRequestAd)) = true ↔ ¬ GoesOn cfg job e := by
  unfold GoesOn
  rw [Bool.not_eq_true', ← Bool.not_eq_true, Bool.and_eq_true, Bool.and_eq_true, and_assoc]

/-- What a handler finds. -/
def Thrown (job : Bool) (s : Watched) (e : Exn) : Prop :=
  Ruined cfg s ∨
    (Held cfg p fd (¬ GoesOn cfg job e) s ∧ s.made.any Made.handles = false)

variable {cfg p fd}

/-- An entry that is neither a delivery nor a failure nor about one. -/
def Made.plain (m : Made) : Bool :=
  !m.delivers && !m.failure && !m.failed && !m.handles && !m.readsJob

theorem Made.plain_iff {m : Made} : m.plain = true ↔
    m.delivers = false ∧ m.failure = false ∧ m.failed = false ∧ m.handles = false ∧
      m.readsJob = false := by
  unfold Made.plain
  simp only [Bool.and_eq_true, Bool.not_eq_true', and_assoc]

variable {meanwhile : ℕ → Env → Env} {s : Watched} {α β : Type} {job : Bool} {C : Prop}

theorem Held.congr {C' : Prop} (h : Held cfg p fd C s) (hC : C ↔ C') :
    Held cfg p fd C' s := ⟨h.stands, h.undelivered, h.clean.trans hC⟩

theorem fresh_after {c : Call} {r : Answer c}
    (h : ∀ b, (Made.mk b c r).failed = false) : Fresh (s.after p meanwhile c r) := by
  intro c'
  show tries (s.made ++ [_]) c' = 0
  rw [tries_concat, if_neg]
  rintro ⟨-, hfailed⟩
  rw [h] at hfailed
  cases hfailed

variable (hrely : ∀ n env, Rely p env (meanwhile n env))

include hrely

/-- A call that does nothing to the lock and delivers nothing. -/
theorem Held.after (h : Held cfg p fd C s) {c : Call} {r : Answer c}
    (hlocks : c.locks = false) (hdelivers : ∀ b, (Made.mk b c r).delivers = false) :
    Held cfg p fd (C ∧ harmless cfg s.made c r = true) (s.after p meanwhile c r) where
  stands := h.stands.after hrely hlocks r
  undelivered := (undelivered_after c r).mpr ⟨h.undelivered, fun hd => by
    rw [hdelivers] at hd
    cases hd⟩
  clean := (clean_after c r).trans (and_congr_left fun _ => h.clean)

theorem Held.harmless_after (h : Held cfg p fd C s) {c : Call} {r : Answer c}
    (hlocks : c.locks = false) (hdelivers : ∀ b, (Made.mk b c r).delivers = false)
    (hr : harmless cfg s.made c r = true) :
    Held cfg p fd C (s.after p meanwhile c r) :=
  (h.after hrely hlocks hdelivers).congr (and_iff_left hr)

/-- A harmful answer to a call that leaves the lock alone. -/
theorem Held.harmful_after (h : Held cfg p fd C s) {c : Call} {r : Answer c}
    (hlocks : c.locks = false) (hr : harmless cfg s.made c r = false) :
    Settled cfg p (s.after p meanwhile c r) := by
  refine (h.stands.after hrely hlocks r).settled fun hclean => ?_
  have hr' := ((clean_after c r).mp hclean).2
  rw [hr] at hr'
  cases hr'

theorem Unharmed.after (h : Unharmed cfg p fd job s) {c : Call} {r : Answer c}
    (hlocks : c.locks = false) (hplain : ∀ b, (Made.mk b c r).plain = true)
    (hr : harmless cfg s.made c r = true) :
    Unharmed cfg p fd job (s.after p meanwhile c r) where
  toHeld := h.harmless_after hrely hlocks (fun b => (Made.plain_iff.mp (hplain b)).1) hr
  read := by
    rw [any_after, (Made.plain_iff.mp (hplain _)).2.2.2.2, Bool.or_false]
    exact h.read
  unhandled := by
    rw [any_after, (Made.plain_iff.mp (hplain _)).2.2.2.1, Bool.or_false]
    exact h.unhandled
  unfailed := by
    rw [any_after, (Made.plain_iff.mp (hplain _)).2.1, Bool.or_false]
    exact h.unfailed
  fresh := fresh_after fun b => (Made.plain_iff.mp (hplain b)).2.2.1

/-- A call whose failure goes to the handler. -/
theorem Unharmed.thrown (h : Unharmed cfg p fd job s) {c : Call} {r : Answer c} {e : Exn}
    (hlocks : c.locks = false) (hplain : ∀ b, (Made.mk b c r).plain = true)
    (hr : harmless cfg s.made c r = true ↔ ¬ GoesOn cfg job e) :
    Thrown cfg p fd job (s.after p meanwhile c r) e := by
  refine Or.inr ⟨?_, ?_⟩
  · exact (h.toHeld.after hrely hlocks fun b => (Made.plain_iff.mp (hplain b)).1).congr
      ((Iff.of_eq (true_and _)).trans hr)
  · rw [any_after, (Made.plain_iff.mp (hplain _)).2.2.2.1, Bool.or_false]
    exact h.unhandled

/-! A part of such a block goes well or ends in an exception for the handler. -/

variable (cfg p fd meanwhile job) in
def Watches (q : WmpProc α) : Prop :=
  ∀ s, Unharmed cfg p fd job s →
    wp (watchedContract p meanwhile) (fun s _ => Unharmed cfg p fd job s)
      (fun s e => Thrown cfg p fd job s e) s q

omit hrely in
theorem watches_pure (a : α) : Watches cfg p fd meanwhile job (.ret a : WmpProc α) :=
  fun _ h => h

omit hrely in
theorem Unharmed.throws (h : Unharmed cfg p fd job s) {e : Exn} (he : e.isRequestAd = false) :
    Thrown cfg p fd job s e := by
  refine Or.inr ⟨h.toHeld.congr ⟨fun _ hgoes => ?_, fun _ => trivial⟩, h.unhandled⟩
  have hrequest := hgoes.2.2
  rw [he] at hrequest
  cases hrequest

omit hrely in
theorem watches_throw {e : Exn} (he : e.isRequestAd = false) :
    Watches cfg p fd meanwhile job (.throw e : WmpProc α) := fun _ h => h.throws he

omit hrely in
theorem watches_bind {q : WmpProc α} {f : α → WmpProc β}
    (hq : Watches cfg p fd meanwhile job q)
    (hf : ∀ a, Watches cfg p fd meanwhile job (f a)) :
    Watches cfg p fd meanwhile job (q.bind f) := fun s hs =>
  (wp_bind _ _ _).mpr (wp_mono (fun s' a hs' => hf a s' hs') (fun _ _ h => h) (hq s hs))

/-- The failure of a piece of work goes to the handler. -/
theorem watches_work {w : Work} (hw : w ≠ .jobDir) :
    Watches cfg p fd meanwhile job (work w) := by
  refine fun s hs => wp_answered fun r _ => ?_
  cases r with
  | ok u => exact hs.after hrely rfl (fun _ => rfl) rfl
  | error e =>
      refine hs.thrown hrely rfl (fun _ => rfl) ?_
      show (_ && _ && _) = true ↔ _
      rw [decide_eq_true hw, hs.unhandled, hs.read, Bool.not_false, Bool.true_and,
        Bool.true_and]
      exact goesOn_iff

/-- The answers to a call whose failure goes to the handler. -/
theorem watches_finish (jdl : String) : Watches cfg p fd meanwhile job (finish jdl) := by
  refine fun s hs => wp_answered fun code _ => wp_answered fun r _ => ?_
  have hcode : Unharmed cfg p fd job (s.after p meanwhile .getSequence code) :=
    hs.after hrely rfl (fun _ => rfl) rfl
  cases r with
  | ok text => exact hcode.after hrely rfl (fun _ => rfl) rfl
  | error e =>
      refine hcode.thrown hrely rfl (fun _ => rfl) ?_
      show (!(_ && _ && _)) = true ↔ _
      rw [hcode.read]
      exact goesOn_iff

/-! Logging with a result instead of an exception. -/

omit hrely in
theorem wp_logTries {kind : EventKind} {I : ℕ → Watched → Prop} {G R : Watched → Prop}
    (hlogged : ∀ n s code, I (n + 1) s →
      G (s.after p meanwhile (.logEvent kind) (.logged code)))
    (hagain : ∀ n s r, I (n + 1) s → r = .refused ∨ r = .failed →
      I n (s.after p meanwhile (.logEvent kind) r))
    (hrest : ∀ s, I 0 s → R s) {n : ℕ} (h : I n s) :
    wp (watchedContract p meanwhile)
      (fun s b => (b = true → G s) ∧ (b = false → R s))
      (fun _ _ => False) s (logTries kind n) := by
  induction n generalizing s with
  | zero => exact ⟨fun hb => absurd hb Bool.false_ne_true, fun _ => hrest s h⟩
  | succ n ih =>
      refine wp_answered fun r _ => ?_
      cases r with
      | logged code => exact ⟨fun _ => hlogged n s code h, fun hb => (nomatch hb)⟩
      | refused => exact ih (hagain n s .refused h (Or.inl rfl))
      | failed => exact ih (hagain n s .failed h (Or.inr rfl))

omit hrely in
theorem tries_after_le {n : ℕ} {c : Call} {r : Answer c}
    (h : tries s.made c + (n + 1) ≤ logRetryCount) :
    tries (s.after p meanwhile c r).made c + n ≤ logRetryCount := by
  show tries (s.made ++ [_]) c + n ≤ _
  rw [tries_concat]
  split <;> omega

omit hrely in
theorem harmless_log_again {kind : EventKind} {n : ℕ} {r : LogResult}
    (h : tries s.made (.logEvent kind) + (n + 1) ≤ logRetryCount) :
    harmless cfg s.made (.logEvent kind) r = true := by
  cases r with
  | failed =>
      show (isCaught kind || decide _) = true
      rw [decide_eq_true (by omega), Bool.or_true]
  | _ => rfl

theorem watches_logListener : Watches cfg p fd meanwhile job logListener := by
  intro s hs
  -- of the calm only the freshness is not kept by a call in vain
  let I : ℕ → Watched → Prop := fun n s => Held cfg p fd True s ∧
    s.made.any Made.readsJob = job ∧ s.made.any Made.handles = false ∧
    s.made.any Made.failure = false ∧ tries s.made (.logEvent .listener) + n ≤ logRetryCount
  have hstart : I logRetryCount s :=
    ⟨hs.toHeld, hs.read, hs.unhandled, hs.unfailed, by rw [hs.fresh]; omega⟩
  have hnext : ∀ n s (r : LogResult), I (n + 1) s →
      I n (s.after p meanwhile (.logEvent .listener) r) := by
    rintro n s r ⟨hheld, hread, hunhandled, hunfailed, hn⟩
    refine ⟨hheld.harmless_after hrely rfl (fun _ => rfl) (harmless_log_again hn), ?_, ?_, ?_,
      tries_after_le hn⟩
    · rw [any_after, hread]
      exact Bool.or_false job
    · rw [any_after, hunhandled]
      rfl
    · rw [any_after, hunfailed]
      rfl
  refine (wp_bind _ _ _).mpr (wp_mono ?_ (fun _ _ h => h.elim) (wp_logTries
    (G := Unharmed cfg p fd job)
    (R := fun s => Held cfg p fd True s ∧ s.made.any Made.handles = false)
    (fun n s code h => ?_) (fun n s r h _ => hnext n s r h) (fun s h => ⟨h.1, h.2.2.1⟩)
    hstart))
  · intro s b hb
    cases b with
    | true => exact hb.1 rfl
    | false =>
        obtain ⟨hheld, hunhandled⟩ := hb.2 rfl
        refine Or.inr ⟨hheld.congr ⟨fun _ hgoes => ?_, fun _ => trivial⟩, hunhandled⟩
        exact absurd hgoes.2.2 Bool.false_ne_true
  · obtain ⟨hheld, hread, hunhandled, hunfailed, -⟩ := hnext n s (.logged code) h
    exact ⟨hheld, hread, hunhandled, hunfailed, fresh_after fun _ => rfl⟩

/-! ### Too many files -/

/-- A look at the lock that does not close the file. -/
theorem Held.looked (h : Held cfg p fd True s) {r : Answer .isOperationLocked}
    (hr : r = .ok true ∨ r = .error .cannotLock) :
    Held cfg p fd True (s.after p meanwhile .isOperationLocked r) := by
  have hheld := (hrely s.made.length s.env).held fd h.stands.held
  have hharmless : harmless cfg s.made .isOperationLocked r = true := by
    rcases hr with rfl | rfl <;> rfl
  refine ⟨⟨?_, (kept_after _ r).mpr ⟨h.stands.kept, fun _ => decide_eq_true hheld.1⟩, ?_⟩,
    (undelivered_after _ r).mpr ⟨h.undelivered, fun hd => nomatch hd⟩,
    (clean_after _ r).trans (and_iff_left hharmless) |>.trans h.clean⟩
  · rcases hr with rfl | rfl <;> exact RecordLock.heldBy_openFile hheld
  · rw [any_after, h.stands.locked, Bool.true_or]

/-- The lock may be lost here: the look at it closes the file again. -/
theorem wp_tooManyFiles (reason : String) (hs : Unharmed cfg p fd job s) :
    wp (watchedContract p meanwhile) (fun _ _ => False)
      (fun s e => Thrown cfg p fd job s e) s (tooManyFiles reason) := by
  have hthrow {s : Watched} (h : Held cfg p fd True s)
      (hunhandled : s.made.any Made.handles = false) {e : Exn}
      (he : e.isRequestAd = false) : Thrown cfg p fd job s e := by
    refine Or.inr ⟨h.congr ⟨fun _ hgoes => ?_, fun _ => trivial⟩, hunhandled⟩
    have hrequest := hgoes.2.2
    rw [he] at hrequest
    cases hrequest
  let I : ℕ → Watched → Prop := fun n s => Held cfg p fd True s ∧
    s.made.any Made.handles = false ∧ tries s.made (.logEvent (.abort reason)) + n ≤ logRetryCount
  have hnext : ∀ n s (r : LogResult), I (n + 1) s →
      I n (s.after p meanwhile (.logEvent (.abort reason)) r) := by
    rintro n s r ⟨hheld, hunhandled, hn⟩
    refine ⟨hheld.harmless_after hrely rfl (fun _ => rfl) (harmless_log_again hn), ?_,
      tries_after_le hn⟩
    rw [any_after, hunhandled]
    rfl
  have hstart : I logRetryCount s :=
    ⟨hs.toHeld, hs.unhandled, by rw [hs.fresh]; omega⟩
  have hlog : wp (watchedContract p meanwhile) _ _ s (logTries (.abort reason) _) := wp_logTries
    (G := fun s => Held cfg p fd True s ∧ s.made.any Made.handles = false)
    (R := fun s => Held cfg p fd True s ∧ s.made.any Made.handles = false)
    (fun n s code h => ⟨(hnext n s _ h).1, (hnext n s _ h).2.1⟩)
    (fun n s r h _ => hnext n s r h) (fun s h => ⟨h.1, h.2.1⟩) hstart
  unfold tooManyFiles abortAndPurge logAbortEventSync
  refine (wp_bind _ _ _).mpr ((wp_bind _ _ _).mpr (wp_mono ?_ (fun _ _ h => h.elim) hlog))
  intro s' b hb
  cases b with
  | false => exact hthrow (hb.2 rfl).1 (hb.2 rfl).2 rfl
  | true =>
      obtain ⟨hheld, hunhandled⟩ := hb.1 rfl
      refine wp_answered fun r hassumed => ?_
      rcases r with e | locked
      · cases e with
        | cannotOpen => cases hassumed
        | cannotLock =>
            refine hthrow (hheld.looked hrely (Or.inr rfl)) ?_ rfl
            rw [any_after, hunhandled]
            rfl
      · cases locked with
        | true =>
            refine hthrow (hheld.looked hrely (Or.inl rfl)) ?_ rfl
            rw [any_after, hunhandled]
            rfl
        | false =>
            have hlost : Lost cfg p (s'.after p meanwhile .isOperationLocked (.ok false)) := by
              refine ⟨RecordLock.holder_touch_ne, ?_, fun hclean => ?_⟩
              · rw [any_after, hheld.stands.locked, Bool.true_or]
              · exact absurd ((clean_after _ _).mp hclean).2 Bool.false_ne_true
            exact wp_mono (fun _ _ h => Or.inl h) (fun _ _ h => Or.inl h)
              (hlost.wp_call hrely (.work .eventLogger) _)

theorem watches_tooManyFiles (reason : String) :
    Watches cfg p fd meanwhile job (tooManyFiles reason) := fun _ hs =>
  wp_mono (fun _ _ h => h.elim) (fun _ _ h => h) (wp_tooManyFiles hrely reason hs)

/-! ### The descriptions -/

theorem watches_checkInputSandbox (size : Option ℕ) :
    Watches cfg p fd meanwhile job (checkInputSandbox cfg size) := by
  cases size with
  | none => exact watches_pure ()
  | some size =>
      unfold checkInputSandbox
      dsimp only
      split
      · exact watches_tooManyFiles hrely _
      · exact watches_pure ()

theorem watches_checkOutputSandbox (size : Option ℕ) :
    Watches cfg p fd meanwhile job (checkOutputSandbox cfg size) := by
  cases size with
  | none => exact watches_pure ()
  | some size =>
      unfold checkOutputSandbox
      dsimp only
      split
      · exact watches_tooManyFiles hrely _
      · exact watches_pure ()

theorem watches_checkJobType (kind : JobKind) :
    Watches cfg p fd meanwhile job (checkJobType kind) := by
  cases kind with
  | normal => exact watches_pure ()
  | interactive => exact watches_logListener hrely
  | checkpointable => exact watches_throw rfl

omit hrely in
theorem watches_checkNodeType (kind : JobKind) :
    Watches cfg p fd meanwhile job (checkNodeType kind) := by
  cases kind with
  | checkpointable => exact watches_throw rfl
  | _ => exact watches_pure ()

theorem watches_prepareJob (jdl : String) :
    Watches cfg p fd meanwhile true (prepareJob cfg jdl) := by
  refine fun s hs => wp_answered fun r _ => ?_
  cases r with
  | error e =>
      refine hs.thrown hrely rfl (fun _ => rfl) ?_
      show (!(cfg.asyncJobStart && e.isRequestAd)) = true ↔ _
      rw [← Bool.and_true cfg.asyncJobStart]
      exact goesOn_iff
  | ok jad =>
      have hrest : Watches cfg p fd meanwhile true (do
          work .destinationUri
          checkInputSandbox cfg jad.inputSandbox
          work .outputSandbox
          checkOutputSandbox cfg jad.outputDestinations
          work .perusal
          work .unzip
          checkJobType jad.jobType
          work .requirements
          finish jdl) :=
        watches_bind (watches_work hrely (by decide)) fun _ =>
        watches_bind (watches_checkInputSandbox hrely _) fun _ =>
        watches_bind (watches_work hrely (by decide)) fun _ =>
        watches_bind (watches_checkOutputSandbox hrely _) fun _ =>
        watches_bind (watches_work hrely (by decide)) fun _ =>
        watches_bind (watches_work hrely (by decide)) fun _ =>
        watches_bind (watches_checkJobType hrely _) fun _ =>
        watches_bind (watches_work hrely (by decide)) fun _ => watches_finish hrely jdl
      exact hrest _ (hs.after hrely rfl (fun _ => rfl) rfl)

theorem watches_prepareNode (dag : DagAd) (node : NodeAd) :
    Watches cfg p fd meanwhile job (prepareNode cfg dag node) :=
  watches_bind (watches_work hrely (by decide)) fun _ =>
  watches_bind (watches_checkInputSandbox hrely _) fun _ =>
  watches_bind (watches_work hrely (by decide)) fun _ =>
  watches_bind (watches_work hrely (by decide)) fun _ =>
  watches_bind (watches_checkOutputSandbox hrely _) fun _ =>
  watches_bind (watches_work hrely (by decide)) fun _ => watches_checkNodeType _

theorem watches_prepareNodes (dag : DagAd) (nodes : List NodeAd) :
    Watches cfg p fd meanwhile job (prepareNodes cfg dag nodes) := by
  induction nodes with
  | nil => exact watches_pure ()
  | cons node nodes ih => exact watches_bind (watches_prepareNode hrely dag node) fun _ => ih

theorem watches_checkNodes (nodes : List NodeAd) :
    Watches cfg p fd meanwhile job (checkNodes cfg nodes) := by
  induction nodes with
  | nil => exact watches_pure ()
  | cons node nodes ih =>
      exact watches_bind (watches_checkInputSandbox hrely _) fun _ => ih

theorem watches_prepareDag (jdl : String) (dag : DagAd) :
    Watches cfg p fd meanwhile job (prepareDag cfg jdl dag) :=
  watches_bind (watches_work hrely (by decide)) fun _ =>
  watches_bind (watches_prepareNodes hrely dag _) fun _ =>
  watches_bind (watches_work hrely (by decide)) fun _ =>
  watches_bind (watches_checkNodes hrely _) fun _ =>
  watches_bind (watches_work hrely (by decide)) fun _ =>
  watches_bind (watches_work hrely (by decide)) fun _ =>
  watches_bind (watches_work hrely (by decide)) fun _ =>
  watches_bind (watches_work hrely (by decide)) fun _ => watches_finish hrely jdl

/-! ## Logging on which everything depends -/

omit hrely in
/-- A logging call with its retries, from what one try does. -/
theorem wp_logLaps {log : WmpProc LogResult} {I : ℕ → Watched → Prop} {G B : Watched → Prop}
    (hlog : ∀ n s, I n s → wp (watchedContract p meanwhile)
      (fun s' r => (r ≠ .failed → G s') ∧ (r = .failed → n = 0 → B s') ∧
        (r = .failed → ∀ m, n = m + 1 → I m s'))
      (fun _ _ => False) s log) {n : ℕ} (h : I n s) :
    wp (watchedContract p meanwhile) (fun s _ => G s) (fun s _ => B s) s
      (logLaps log n) := by
  induction n generalizing s with
  | zero =>
      unfold logLaps
      refine (wp_bind _ _ _).mpr (wp_mono ?_ (fun _ _ h => h.elim) (hlog 0 s h))
      rintro s' r ⟨hgood, hbad, -⟩
      cases r with
      | logged code => exact hgood (by intro hr; cases hr)
      | refused => exact hgood (by intro hr; cases hr)
      | failed => exact hbad rfl rfl
  | succ n ih =>
      unfold logLaps
      refine (wp_bind _ _ _).mpr (wp_mono ?_ (fun _ _ h => h.elim) (hlog (n + 1) s h))
      rintro s' r ⟨hgood, -, hagain⟩
      cases r with
      | logged code => exact hgood (by intro hr; cases hr)
      | refused => exact hgood (by intro hr; cases hr)
      | failed => exact ih (hagain rfl n rfl)

/-- What a handler has when its log calls have gone well so far. -/
structure Reporting (cfg : Config) (p fd : ℕ) (C : Prop) (s : Watched) : Prop
    extends Held cfg p fd C s where
  handling : s.made.any Made.handles = true
  fresh : Fresh s

omit hrely in
theorem tries_eq_zero {made : List Made} {c : Call}
    (h : ∀ m ∈ made, m.call = c → m.failed = false) : tries made c = 0 := by
  unfold tries
  cases hlast : made.reverse with
  | nil => rfl
  | cons m earlier =>
      have hmem : m ∈ made := List.mem_reverse.mp (hlast ▸ List.mem_cons_self)
      rw [List.takeWhile_cons_of_neg]
      · rfl
      · rw [Bool.and_eq_true, decide_eq_true_iff]
        rintro ⟨hcall, hfailed⟩
        rw [h m hmem hcall] at hfailed
        cases hfailed

omit hrely in
/-- Before the handlers no failure has been asked to be logged. -/
theorem tries_enQueuedFail {made : List Made} (h : made.any Made.handles = false)
    (what : String) : tries made (.logEvent (.enQueued .fail what)) = 0 := by
  refine tries_eq_zero fun m hm hcall => ?_
  obtain ⟨held, c, r⟩ := m
  subst hcall
  exact absurd (List.any_eq_false.mp h _ hm) (fun hnot => hnot rfl)

/-- An event that has to be logged, with what its calls keep up. -/
theorem wp_logEvent {kind : EventKind} {X Y : Watched → Prop}
    (hX : ∀ s r, X s → Y (s.after p meanwhile (.logEvent kind) r))
    (hY : ∀ s, Y s → X s) (hcaught : isCaught kind = false) (h : Held cfg p fd C s)
    (hs : X s) (htries : tries s.made (.logEvent kind) = 0) :
    wp (watchedContract p meanwhile)
      (fun s' _ => Held cfg p fd C s' ∧ Fresh s' ∧ Y s') (fun s' _ => Settled cfg p s') s
      (logEvent kind) := by
  refine wp_logLaps (I := fun n s => Held cfg p fd C s ∧ X s ∧
    tries s.made (.logEvent kind) + n = logRetryCount) ?_ ⟨h, hs, by omega⟩
  rintro n s ⟨h, hs, hn⟩
  refine wp_answered fun r _ => ?_
  cases r with
  | logged code =>
      exact ⟨fun _ => ⟨h.harmless_after hrely rfl (fun _ => rfl) rfl,
        fresh_after fun _ => rfl, hX s _ hs⟩, fun hr => (nomatch hr), fun hr => (nomatch hr)⟩
  | refused =>
      exact ⟨fun _ => ⟨h.harmless_after hrely rfl (fun _ => rfl) rfl,
        fresh_after fun _ => rfl, hX s _ hs⟩, fun hr => (nomatch hr), fun hr => (nomatch hr)⟩
  | failed =>
      have hharmless : harmless cfg s.made (.logEvent kind) LogResult.failed =
          decide (tries s.made (.logEvent kind) < logRetryCount) := by
        show (isCaught kind || _) = _
        rw [hcaught, Bool.false_or]
      refine ⟨fun hr => absurd rfl hr, fun _ hzero => ?_, fun _ m hm => ?_⟩
      · refine h.harmful_after hrely rfl ?_
        rw [hharmless]
        exact decide_eq_false (by omega)
      · refine ⟨h.harmless_after hrely rfl (fun _ => rfl) ?_, hY _ (hX s _ hs), ?_⟩
        · rw [hharmless]
          exact decide_eq_true (by omega)
        · show tries (s.made ++ [_]) _ + m = _
          rw [tries_concat, if_pos ⟨rfl, rfl⟩]
          omega

/-- The same for an event of a node, in a handler. -/
theorem wp_logNodeEvent {node : String} {kind : EventKind}
    (h : Reporting cfg p fd C s) :
    wp (watchedContract p meanwhile)
      (fun s' _ => Reporting cfg p fd C s') (fun s' _ => Settled cfg p s') s
      (logNodeEvent node kind) := by
  have hhandling {s : Watched} {r : LogResult} (h : s.made.any Made.handles = true) :
      (s.after p meanwhile (.logNodeEvent node kind) r).made.any Made.handles = true := by
    rw [any_after, h, Bool.true_or]
  refine wp_logLaps (I := fun n s => Held cfg p fd C s ∧ s.made.any Made.handles = true ∧
    tries s.made (.logNodeEvent node kind) + n = logRetryCount) ?_
    ⟨h.toHeld, h.handling, by rw [h.fresh]; rfl⟩
  rintro n s ⟨h, hs, hn⟩
  refine wp_answered fun r _ => ?_
  cases r with
  | logged code =>
      exact ⟨fun _ => ⟨h.harmless_after hrely rfl (fun _ => rfl) rfl, hhandling hs,
        fresh_after fun _ => rfl⟩, fun hr => (nomatch hr), fun hr => (nomatch hr)⟩
  | refused =>
      exact ⟨fun _ => ⟨h.harmless_after hrely rfl (fun _ => rfl) rfl, hhandling hs,
        fresh_after fun _ => rfl⟩, fun hr => (nomatch hr), fun hr => (nomatch hr)⟩
  | failed =>
      refine ⟨fun hr => absurd rfl hr, fun _ hzero => ?_, fun _ m hm => ?_⟩
      · exact h.harmful_after hrely rfl (decide_eq_false (by omega))
      · refine ⟨h.harmless_after hrely rfl (fun _ => rfl) (decide_eq_true (by omega)),
          hhandling hs, ?_⟩
        show tries (s.made ++ [_]) _ + m = _
        rw [tries_concat, if_pos ⟨rfl, rfl⟩]
        omega

theorem wp_reportFailure {what : String} (h : Held cfg p fd C s)
    (htries : tries s.made (.logEvent (.enQueued .fail what)) = 0) :
    wp (watchedContract p meanwhile)
      (fun s' _ => Reporting cfg p fd C s') (fun s' _ => Settled cfg p s') s
      (logEvent (.enQueued .fail what)) := by
  refine wp_mono (fun s' _ h => ⟨h.1, h.2.2, h.2.1⟩) (fun _ _ h => h)
    (wp_logEvent hrely (X := fun _ => True) (Y := fun s => s.made.any Made.handles = true)
      (fun s r _ => ?_) (fun _ _ => trivial) rfl h trivial htries)
  rw [any_after]
  exact Bool.or_true _

theorem wp_reportAbort {what : String} (h : Reporting cfg p fd C s) :
    wp (watchedContract p meanwhile)
      (fun s' _ => Reporting cfg p fd C s') (fun s' _ => Settled cfg p s') s
      (logEvent (.abort what)) := by
  refine wp_mono (fun s' _ h => ⟨h.1, h.2.2, h.2.1⟩) (fun _ _ h => h)
    (wp_logEvent hrely (X := fun s => s.made.any Made.handles = true)
      (Y := fun s => s.made.any Made.handles = true)
      (fun s r hs => ?_) (fun _ h => h) rfl h.toHeld h.handling (h.fresh _))
  rw [any_after, hs, Bool.true_or]

/-! ## The handlers -/

/-- The lock is given back and the run is over. -/
theorem Held.unlocked (h : Held cfg p fd C s) (r : Answer (.operationUnlock fd)) (hC : C) :
    Settled cfg p (s.after p meanwhile (.operationUnlock fd) r) := by
  obtain ⟨hkept, hreleased⟩ := h.stands.unlocked hrely r
  have hclean : Clean cfg (s.after p meanwhile (.operationUnlock fd) r).made :=
    (clean_after _ r).mpr ⟨h.clean.mpr hC, rfl⟩
  exact ⟨fun _ => hclean, fun _ => ⟨hkept, hreleased,
    (undelivered_after _ r).mpr ⟨h.undelivered, fun hd => (nomatch hd)⟩⟩⟩

/-- The lock is given back and the run goes on. -/
theorem Held.lost (h : Held cfg p fd C s) (r : Answer (.operationUnlock fd)) (hC : ¬ C) :
    Lost cfg p (s.after p meanwhile (.operationUnlock fd) r) where
  lost := (h.stands.unlocked hrely r).2
  locked := by rw [any_after, h.stands.locked, Bool.true_or]
  notClean := fun hclean => hC (h.clean.mp ((clean_after _ r).mp hclean).1)

/-- What the description ends with. -/
def Prepared (cfg : Config) (p fd : ℕ) (s : Watched) : Option String → Prop
  | none => Settled cfg p s
  | some _ => (∃ job, Unharmed cfg p fd job s) ∨ Lost cfg p s ∨ Ruined cfg s

omit hrely in
theorem wp_ruined_settled (h : Ruined cfg s) (q : WmpProc (Option String)) :
    wp (watchedContract p meanwhile) (fun s o => Prepared cfg p fd s o)
      (fun s _ => Settled cfg p s) s q := by
  refine wp_mono (fun s' o h => ?_) (fun _ _ h => h.settled) (wp_ruined h q)
  cases o with
  | none => exact h.settled
  | some jdl => exact Or.inr (Or.inr h)

/-- The end of the handlers that do not go on. -/
theorem wp_unlockAndLeave {jdl : Option String} {e : Exn} (hC : C)
    (h : Held cfg p fd C s) (hjdl : jdl = none) (async : Bool) :
    wp (watchedContract p meanwhile) (fun s o => Prepared cfg p fd s o)
      (fun s _ => Settled cfg p s) s
      ((operationUnlock (some fd)).bind fun _ =>
        if async = true then pure jdl else .throw e) := by
  subst hjdl
  refine wp_answered fun r _ => ?_
  have hover := h.unlocked hrely r hC
  show wp _ _ _ _ (if async = true then pure none else .throw e)
  split <;> exact hover

omit hrely in
theorem goesOn_of_async {e : Exn} (h : cfg.asyncJobStart = false) : ¬ GoesOn cfg job e :=
  fun hgoes => absurd (hgoes.1.symm.trans h) (by decide)

theorem wp_jobFailed (jdl : String) {e : Exn} (h : Thrown cfg p fd true s e) :
    wp (watchedContract p meanwhile) (fun s o => Prepared cfg p fd s o)
      (fun s _ => Settled cfg p s) s (jobFailed cfg jdl (some fd) e) := by
  rcases h with h | ⟨h, hunhandled⟩
  · exact wp_ruined_settled h _
  have hreport (what : String) := wp_reportFailure hrely h
    (tries_enQueuedFail hunhandled what)
  have hother (he : e.isRequestAd = false) : ¬ GoesOn cfg true e := fun hgoes =>
    absurd (hgoes.2.2.symm.trans he) (by decide)
  cases e with
  | requestAd what =>
      refine (wp_bind _ _ _).mpr (wp_mono (fun s' _ h => ?_) (fun _ _ h => h) (hreport what))
      refine (wp_bind _ _ _).mpr (wp_mono (fun s' _ h => ?_) (fun _ _ h => h)
        (wp_reportAbort hrely h))
      refine wp_answered fun r _ => ?_
      show wp _ _ _ _ (if cfg.asyncJobStart = true then pure (some jdl) else _)
      split
      · rename_i hasync
        exact Or.inr (Or.inl (h.toHeld.lost hrely r fun hnot => hnot ⟨hasync, rfl, rfl⟩))
      · rename_i hasync
        exact h.toHeld.unlocked hrely r (goesOn_of_async (Bool.eq_false_iff.mpr hasync))
  | _ =>
      exact (wp_bind _ _ _).mpr (wp_mono (fun s' _ h => wp_unlockAndLeave hrely (hother rfl)
        h.toHeld rfl cfg.asyncJobStart) (fun _ _ h => h) (hreport _))

theorem wp_abortNodes {reason : String} {nodes : List NodeAd}
    (h : Reporting cfg p fd C s) :
    wp (watchedContract p meanwhile) (fun s' _ => Reporting cfg p fd C s')
      (fun s' _ => Settled cfg p s') s (abortNodes reason nodes) := by
  induction nodes generalizing s with
  | nil => exact h
  | cons node nodes ih =>
      refine wp_answered fun r _ => ?_
      cases r with
      | error e =>
          refine h.toHeld.harmful_after hrely rfl ?_
          show (_ && !(s.made.any Made.handles) && _) = false
          rw [h.handling]
          rfl
      | ok u =>
          have hwork : Reporting cfg p fd C (s.after p meanwhile (.work .loggingJob) (.ok u)) :=
            ⟨h.toHeld.harmless_after hrely rfl (fun _ => rfl) rfl,
              by rw [any_after, h.handling, Bool.true_or], fresh_after fun _ => rfl⟩
          show wp _ _ _ _ ((logNodeEvent node.jobId (.abort reason)).bind fun _ =>
            abortNodes reason nodes)
          exact (wp_bind _ _ _).mpr (wp_mono (fun s' _ h => ih h) (fun _ _ h => h)
            (wp_logNodeEvent hrely hwork))

theorem wp_dagFailed (dag : DagAd) {e : Exn} (h : Thrown cfg p fd false s e) :
    wp (watchedContract p meanwhile) (fun s o => Prepared cfg p fd s o)
      (fun s _ => Settled cfg p s) s (dagFailed dag (some fd) e) := by
  rcases h with h | ⟨h, hunhandled⟩
  · exact wp_ruined_settled h _
  have hreport (what : String) := wp_reportFailure hrely h
    (tries_enQueuedFail hunhandled what)
  have hnot : ¬ GoesOn cfg false e := fun hgoes => absurd hgoes.2.1 Bool.false_ne_true
  have hleave {s : Watched} (h : Reporting cfg p fd (¬ GoesOn cfg false e) s) (e' : Exn) :
      wp (watchedContract p meanwhile) (fun s o => Prepared cfg p fd s o)
        (fun s _ => Settled cfg p s) s
        ((operationUnlock (some fd)).bind fun _ => (.throw e' : WmpProc (Option String))) :=
    wp_answered fun r _ => h.toHeld.unlocked hrely r hnot
  cases e with
  | requestAd what =>
      refine (wp_bind _ _ _).mpr (wp_mono (fun s' _ h => ?_) (fun _ _ h => h) (hreport what))
      refine (wp_bind _ _ _).mpr (wp_mono (fun s' _ h => ?_) (fun _ _ h => h)
        (wp_reportAbort hrely h))
      exact (wp_bind _ _ _).mpr (wp_mono (fun s' _ h => hleave h _) (fun _ _ h => h)
        (wp_abortNodes hrely h))
  | _ =>
      exact (wp_bind _ _ _).mpr (wp_mono (fun s' _ h => hleave h _) (fun _ _ h => h)
        (hreport _))

theorem watched_prepare (jdl : String) {job : Bool} (hs : Unharmed cfg p fd job s)
    (hread : s.made.any Made.readsJob = false) :
    wp (watchedContract p meanwhile) (fun s o => Prepared cfg p fd s o)
      (fun s _ => Settled cfg p s) s (prepare cfg jdl (some fd)) := by
  refine wp_answered fun r _ => ?_
  cases r with
  | error e => exact hs.toHeld.harmful_after hrely rfl rfl
  | ok type =>
      have hheld : Held cfg p fd True (s.after p meanwhile (.getType jdl) (.ok type)) :=
        hs.toHeld.harmless_after hrely rfl (fun _ => rfl) rfl
      have hunhandled : (s.after p meanwhile (.getType jdl) (.ok type)).made.any
          Made.handles = false := by
        rw [any_after, hs.unhandled]
        rfl
      have hunfailed : (s.after p meanwhile (.getType jdl) (.ok type)).made.any
          Made.failure = false := by
        rw [any_after, hs.unfailed]
        rfl
      have hfresh : Fresh (s.after p meanwhile (.getType jdl) (.ok type)) :=
        fresh_after fun _ => rfl
      cases type with
      | job =>
          have hjob : Unharmed cfg p fd true (s.after p meanwhile (.getType jdl) (.ok .job)) :=
            ⟨hheld, by rw [any_after]; exact Bool.or_true _, hunhandled, hunfailed, hfresh⟩
          refine (wp_tryCatch _ _ _).mpr (wp_mono (fun _ _ h => h)
            (fun s' e h => wp_jobFailed hrely jdl h) ?_)
          exact (wp_bind _ _ _).mpr (wp_mono (fun s' text h => Or.inl ⟨true, h⟩)
            (fun _ _ h => h) (watches_prepareJob hrely jdl _ hjob))
      | dag =>
          have hdag : Unharmed cfg p fd false (s.after p meanwhile (.getType jdl) (.ok .dag)) :=
            ⟨hheld, by rw [any_after, hread]; rfl, hunhandled, hunfailed, hfresh⟩
          refine wp_answered fun r _ => ?_
          cases r with
          | error e => exact hdag.toHeld.harmful_after hrely rfl rfl
          | ok dag =>
              have hparsed := hdag.after hrely (c := .parseDag jdl) (r := .ok dag) rfl
                (fun _ => rfl) rfl
              refine (wp_tryCatch _ _ _).mpr (wp_mono (fun _ _ h => h)
                (fun s' e h => wp_dagFailed hrely dag h) ?_)
              exact (wp_bind _ _ _).mpr (wp_mono (fun s' text h => Or.inl ⟨false, h⟩)
                (fun _ _ h => h) (watches_prepareDag hrely jdl dag _ hparsed))

/-! ## Forwarding -/

/-- LB has no abort, or the run is harmful. -/
def Asked (cfg : Config) (p fd : ℕ) (job : Bool) (s : Watched)
    (r : Except QueryError (List Event)) : Prop :=
  (r = .error .noEntry ∧ Unharmed cfg p fd job s) ∨ ((∃ es, r = .ok es) ∧ Settled cfg p s)

theorem asked_after (hs : Unharmed cfg p fd job s) (proxy : Bool)
    {r : Except QueryError (List Event)}
    (hassumed : assumed (.queryEvents proxy .aborts) r = true) :
    Asked cfg p fd job (s.after p meanwhile (.queryEvents proxy .aborts) r) r := by
  rcases r with e | es
  · cases e with
    | noEntry => exact Or.inl ⟨rfl, hs.after hrely rfl (fun _ => rfl) rfl⟩
    | temporary code => cases hassumed
    | definite code => cases hassumed
  · exact Or.inr ⟨⟨es, rfl⟩, hs.toHeld.harmful_after hrely rfl rfl⟩

theorem watched_queryOnce (hs : Unharmed cfg p fd job s) (proxy : Bool) :
    wp (watchedContract p meanwhile) (fun s' r => Asked cfg p fd job s' r.1)
      (fun _ _ => False) s (queryOnce proxy .aborts) := by
  refine wp_answered fun r hassumed => ?_
  have hasked := asked_after hrely hs proxy hassumed
  rcases r with e | es
  · cases e with
    | noEntry =>
        cases proxy with
        | false => exact hasked
        | true =>
            have hunharmed := hs.after hrely (c := .queryEvents true .aborts)
              (r := .error .noEntry) rfl (fun _ => rfl) rfl
            exact wp_answered fun r hassumed => asked_after hrely hunharmed false hassumed
    | temporary code => cases hassumed
    | definite code => cases hassumed
  · cases proxy <;> exact hasked

theorem watched_testAndQuery (hs : Unharmed cfg p fd job s) :
    wp (watchedContract p meanwhile) (fun s' r => Asked cfg p fd job s' r)
      (fun _ _ => False) s (testAndQuery cfg .aborts) := by
  refine (wp_bind _ _ _).mpr (wp_mono ?_ (fun _ _ h => h) (watched_queryOnce hrely hs cfg.lbProxy))
  rintro s' ⟨r, proxy⟩ hasked
  rcases hasked with ⟨hr, hunharmed⟩ | ⟨⟨es, hr⟩, hsettled⟩
  · dsimp only at hr hunharmed
    subst hr
    exact Or.inl ⟨rfl, hunharmed⟩
  · dsimp only at hr hsettled
    subst hr
    exact Or.inr ⟨⟨es, rfl⟩, hsettled⟩

/-- What is left once a request has been delivered or not. -/
theorem wp_reported {what : String} (h : Held cfg p fd True s)
    (htries : tries s.made (.logEvent (.enQueued .fail what)) = 0) :
    wp (watchedContract p meanwhile) (fun s' _ => Held cfg p fd True s')
      (fun s' _ => Settled cfg p s') s (logEvent (.enQueued .fail what)) :=
  wp_mono (fun _ _ h => h.toHeld) (fun _ _ h => h) (wp_reportFailure hrely h htries)

/-- An event whose loss is caught. -/
theorem wp_logEnqueued (h : Held cfg p fd True s)
    (htries : ∀ what, tries s.made (.logEvent (.enQueued .fail what)) = 0) :
    wp (watchedContract p meanwhile) (fun s' _ => Held cfg p fd True s')
      (fun s' _ => Held cfg p fd True s' ∧
        ∀ what, tries s'.made (.logEvent (.enQueued .fail what)) = 0) s
      (logEvent (.enQueued .ok "")) := by
  refine wp_logLaps (I := fun _ s => Held cfg p fd True s ∧
    ∀ what, tries s.made (.logEvent (.enQueued .fail what)) = 0) ?_ ⟨h, htries⟩
  rintro n s ⟨h, htries⟩
  refine wp_answered fun r _ => ?_
  have hharmless : harmless cfg s.made (.logEvent (.enQueued .ok "")) r = true := by
    cases r <;> rfl
  have hheld : Held cfg p fd True (s.after p meanwhile (.logEvent (.enQueued .ok "")) r) :=
    h.harmless_after hrely rfl (fun _ => rfl) hharmless
  have htries' : ∀ what, tries (s.after p meanwhile (.logEvent (.enQueued .ok "")) r).made
      (.logEvent (.enQueued .fail what)) = 0 := by
    intro what
    show tries (s.made ++ [_]) _ = 0
    rw [tries_concat, if_neg]
    rintro ⟨hcall, -⟩
    cases hcall
  exact ⟨fun _ => hheld, fun _ _ => ⟨hheld, htries'⟩, fun _ _ _ => ⟨hheld, htries'⟩⟩

theorem watched_wmpSubmit (jdl : String) (hs : Unharmed cfg p fd job s) :
    wp (watchedContract p meanwhile) (fun s' _ => Held cfg p fd True s')
      (fun s' _ => Settled cfg p s') s (wmpSubmit jdl) := by
  refine wp_answered fun r _ => ?_
  cases r with
  | error e => exact hs.toHeld.harmful_after hrely rfl rfl
  | ok command =>
      have hcommand := hs.after hrely (c := .command jdl) (r := .ok command) rfl
        (fun _ => rfl) rfl
      refine (wp_tryCatch _ _ _).mpr (wp_mono (fun _ _ h => h)
        (fun s' e (h : Held cfg p fd True s' ∧
          ∀ what, tries s'.made (.logEvent (.enQueued .fail what)) = 0) =>
          wp_reported hrely h.1 (h.2 e.what)) ?_)
      refine wp_answered fun r _ => ?_
      cases r with
      | error what =>
          have hfresh : Fresh ((s.after p meanwhile (.command jdl) (.ok command)).after p
            meanwhile (.deliver command) (.error what)) := fresh_after fun _ => rfl
          exact ⟨hcommand.toHeld.harmless_after hrely rfl (fun _ => rfl) rfl,
            fun _ => hfresh _⟩
      | ok u =>
          have hfresh : Fresh ((s.after p meanwhile (.command jdl) (.ok command)).after p
            meanwhile (.deliver command) (.ok u)) := fresh_after fun _ => rfl
          refine wp_logEnqueued hrely ⟨hcommand.stands.after hrely rfl _, ?_, ?_⟩
            fun _ => hfresh _
          · exact (undelivered_after _ _).mpr ⟨hcommand.undelivered, fun _ => hcommand.unfailed⟩
          · exact (clean_after _ _).trans ((and_iff_left rfl).trans hcommand.clean)

theorem watched_forward (jdl : String) (hs : Unharmed cfg p fd job s) :
    wp (watchedContract p meanwhile) (fun s' _ => Settled cfg p s')
      (fun s' _ => Settled cfg p s') s (forward cfg (some fd) jdl) := by
  refine (wp_bind _ _ _).mpr ((wp_bind _ _ _).mpr (wp_mono ?_ (fun _ _ h => h.elim)
    (watched_testAndQuery hrely hs)))
  intro s' r hasked
  rcases hasked with ⟨rfl, hs⟩ | ⟨⟨es, rfl⟩, hsettled⟩
  · show wp _ _ _ s' ((work .jobDir).bind _)
    refine wp_answered fun r _ => ?_
    cases r with
    | error e => exact hs.toHeld.harmful_after hrely rfl rfl
    | ok u =>
        have hdir := hs.after hrely (c := .work .jobDir) (r := .ok u) rfl (fun _ => rfl) rfl
        show wp _ _ _ _ ((wmpSubmit jdl).bind _)
        refine (wp_bind _ _ _).mpr (wp_mono ?_ (fun _ _ h => h) (watched_wmpSubmit hrely jdl hdir))
        intro s'' _ h
        refine wp_answered fun r _ => ?_
        cases r with
        | error e => exact h.harmful_after hrely rfl rfl
        | ok u =>
            have hwritten : Held cfg p fd True (s''.after p meanwhile (.writeJdl jdl) (.ok u)) :=
              h.harmless_after hrely rfl (fun _ => rfl) rfl
            refine wp_answered fun renamed _ => wp_answered fun r _ => ?_
            exact (hwritten.harmless_after hrely rfl (fun _ => rfl) rfl).unlocked hrely r trivial
  · exact hsettled

/-- An event at the beginning. -/
theorem wp_logBeginning {kind : EventKind} (hcaught : isCaught kind = false)
    (hplain : ∀ b r, (Made.mk b (.logEvent kind) r).handles = false ∧
      (Made.mk b (.logEvent kind) r).failure = false) (hs : Unharmed cfg p fd job s) :
    wp (watchedContract p meanwhile) (fun s' _ => Unharmed cfg p fd job s')
      (fun s' _ => Settled cfg p s') s (logEvent kind) := by
  let X : Watched → Prop := fun s => s.made.any Made.readsJob = job ∧
    s.made.any Made.handles = false ∧ s.made.any Made.failure = false
  have hX : ∀ s r, X s → X (s.after p meanwhile (.logEvent kind) r) := by
    rintro s r ⟨hread, hunhandled, hunfailed⟩
    refine ⟨?_, ?_, ?_⟩
    · rw [any_after, hread]
      exact Bool.or_false job
    · rw [any_after, hunhandled, (hplain _ r).1]
      rfl
    · rw [any_after, hunfailed, (hplain _ r).2]
      rfl
  exact wp_mono (fun s' _ h => ⟨h.1, h.2.2.1, h.2.2.2.1, h.2.2.2.2, h.2.1⟩) (fun _ _ h => h)
    (wp_logEvent hrely hX (fun _ h => h) hcaught hs.toHeld
      ⟨hs.read, hs.unhandled, hs.unfailed⟩ (hs.fresh _))

theorem watched_submitWith (jdl : String) (hs : Unharmed cfg p fd false s) :
    wp (watchedContract p meanwhile) (fun s' _ => Settled cfg p s')
      (fun s' _ => Settled cfg p s') s (submitWith cfg jdl (some fd)) := by
  refine (wp_bind _ _ _).mpr (wp_mono (fun s' _ hs => ?_) (fun _ _ h => h)
    (wp_logBeginning hrely rfl (fun b r => ⟨rfl, rfl⟩) hs))
  refine (wp_bind _ _ _).mpr (wp_mono (fun s' _ hs => ?_) (fun _ _ h => h)
    (wp_logBeginning hrely rfl (fun b r => ⟨rfl, rfl⟩) hs))
  refine (wp_bind _ _ _).mpr (wp_mono (fun s' o h => ?_) (fun _ _ h => h)
    (watched_prepare hrely jdl hs hs.read))
  cases o with
  | none => exact h
  | some jdltostart =>
      rcases h with ⟨job, h⟩ | h | h
      · exact watched_forward hrely jdltostart h
      · exact wp_mono (fun _ _ h => h.settled) (fun _ _ h => h.settled)
          (h.wp_call hrely (.queryEvents cfg.lbProxy .aborts) _)
      · exact wp_mono (fun _ _ h => h.settled) (fun _ _ h => h.settled) (wp_ruined h _)

theorem watched_submit (jdl : String) (env : Env) :
    wp (watchedContract p meanwhile) (fun s' _ => Settled cfg p s')
      (fun s' _ => Settled cfg p s') ⟨env, []⟩ (submit cfg jdl) := by
  intro offered hassumed
  refine ⟨trivial, ?_⟩
  dsimp only [watchedContract, watchedWorld] at hassumed ⊢
  rcases answer_operationLock p ((⟨env, []⟩ : Watched).before meanwhile) offered with
    ⟨e, he⟩ | ⟨-, -, hfd⟩
  · rw [he] at hassumed ⊢
    cases e with
    | cannotOpen => cases hassumed
    | cannotLock =>
        exact ⟨fun _ => (clean_after _ _).mpr ⟨trivial, rfl⟩, fun _ =>
          ⟨(kept_after _ _).mpr ⟨trivial, fun h => (nomatch h)⟩, RecordLock.holder_touch_ne,
            (undelivered_after _ _).mpr ⟨trivial, fun h => (nomatch h)⟩⟩⟩
  · rw [hfd]
    refine watched_submitWith hrely jdl ⟨⟨⟨RecordLock.heldBy_acquire, ?_, ?_⟩, ?_, ?_⟩, ?_, ?_,
      ?_, fresh_after fun _ => rfl⟩
    · exact (kept_after _ _).mpr ⟨trivial, fun h => (nomatch h)⟩
    · rw [any_after]
      rfl
    · exact (undelivered_after _ _).mpr ⟨trivial, fun h => (nomatch h)⟩
    · exact iff_of_true ((clean_after _ _).mpr ⟨trivial, rfl⟩) trivial
    · rw [any_after]
      rfl
    · rw [any_after]
      rfl
    · rw [any_after]
      rfl

end

/-! ## A start among the others -/

/-- The process a step belongs to. -/
def Label.process : Label → Option ℕ
  | .component _ => none
  | .receive p _ => some p
  | .step p _ => some p
  | .finish p => some p
  | .exit p => some p

/-- What the system does without a process can be relied on by it. -/
theorem rely_next {cfg : Config} {s s' : State} {l : Label} {p : ℕ}
    (hl : l.process ≠ some p) (h : next cfg s l = some s') : Rely p s.env s'.env := by
  have hsame {env env' : Env} (hlock : env'.lock = env.lock) : Rely p env env' := by
    constructor
    · intro fd
      rw [hlock]
      exact id
    · rw [hlock]
      exact id
  cases l with
  | component e =>
      unfold next at h
      dsimp only at h
      split at h
      · cases h
        exact hsame rfl
      · cases h
  | receive q request =>
      unfold next at h
      dsimp only at h
      split at h
      · cases h
      · cases h
        exact hsame rfl
  | step q ans =>
      have hq : p ≠ q := fun heq => hl (congrArg some heq.symm)
      obtain ⟨request, c, k, -, henabled, rfl⟩ := next_step h
      refine ⟨fun fd hheld => ?_, fun hlost => ?_⟩
      · have hfits : (Phase.inside fd).Fits s.env p := hheld
        exact fits_other hq _ henabled hfits
      · have hfits : Phase.released.Fits s.env p := hlost
        exact fits_other hq _ henabled hfits
  | finish q =>
      unfold next at h
      dsimp only at h
      split at h
      · cases h
      · split at h
        · cases h
          exact hsame rfl
        · cases h
  | exit q =>
      have hq : p ≠ q := fun heq => hl (congrArg some heq.symm)
      cases h
      exact ⟨fun fd hheld => RecordLock.heldBy_exit hheld hq,
        fun hlost => RecordLock.holder_exit_of_ne hlost⟩

/-- A start holds its lock to its end, and no longer, exactly when every answer
was harmless. -/
theorem sound_submit_iff (cfg : Config) (jdl : String) (p : ℕ)
    (meanwhile : ℕ → Env → Env) (hrely : ∀ n env, Rely p env (meanwhile n env))
    (env : Env) (o : Proc.Oracle Call Answer)
    (hassumed : Keeps (watchedContract p meanwhile) o 0 ⟨env, []⟩ (submit cfg jdl)) :
    Sound p (exec (watchedWorld p meanwhile) o 0 ⟨env, []⟩ (submit cfg jdl)).state ↔
      Clean cfg
        (exec (watchedWorld p meanwhile) o 0 ⟨env, []⟩ (submit cfg jdl)).state.made :=
  wp_exec_state o hassumed (watched_submit hrely jdl env)

/-- Nobody comes in between and everything goes well. -/
theorem sound_submit_sample :
    Sound 0 (exec (watchedWorld 0 fun _ env => env) (fun _ => sampleAnswer) 0
      ⟨registered sampleEvents "jdl", []⟩ (submit sampleConfig "jdl")).state :=
  (sound_submit_iff sampleConfig "jdl" 0 (fun _ env => env)
    (fun _ _ => ⟨fun _ h => h, fun h => h⟩) (registered sampleEvents "jdl")
    (fun _ => sampleAnswer) (by decide +kernel)).mpr (by decide +kernel)

/-- LB does not take any event. -/
def unlogged : (c : Call) → Answer c
  | .logEvent _ => .failed
  | c => sampleAnswer c

/-- The lock is left behind. -/
theorem not_sound_unlogged :
    ¬ Sound 0 (exec (watchedWorld 0 fun _ env => env) (fun _ => unlogged) 0
      ⟨registered sampleEvents "jdl", []⟩ (submit sampleConfig "jdl")).state :=
  fun h => h.released (by decide +kernel)

end Wms.Interface
