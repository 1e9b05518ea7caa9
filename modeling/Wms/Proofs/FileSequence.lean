import Mathlib.Data.List.Induction
import Wms.Lib.Lts
import Wms.Proofs.FileErasure
import Wms.Proofs.FileRemoval

/-!
# A file container is a list

One handle creates the file and changes it. Beside the file and the handle goes
the list that the changes should have made, and after every change the list is
found in the file, whichever way the records are followed.
-/

namespace Wms.Jobsubmission.FileContainer

open Wms.Lib

/-! ## What an operation leaves -/

section
variable {f g : File} {h : Handle} {L L' : List Entry} {data : Text} {w : ℕ}
  {log : List Write}

theorem wellFormed_closing (s : FileStatus) (hs : Sound g L) :
    WellFormed (Store.applyAll g (closing s L.length)) L :=
  ⟨sound_asides hs (closing_aside s L.length), rfl⟩

theorem stamp_opening (f : File) (t : TimeStamp) :
    (Store.applyAll f (opening f t)).stamp = some t := by
  rw [opening, Store.applyAll_append]
  rfl

/-- The writes that leave the stamp. -/
def Write.Unstamped : Write → Prop
  | .stamp _ | .overwriteStart => False
  | .truncate n => n ≠ 0
  | _ => True

theorem stamp_unstamped (hlog : ∀ v ∈ log, v.Unstamped) :
    (Store.applyAll g log).stamp = g.stamp := by
  induction log generalizing g with
  | nil => rfl
  | cons v log ih =>
      have hv := hlog v List.mem_cons_self
      rw [Store.applyAll_cons, ih fun u hu => hlog u (List.mem_cons_of_mem _ hu)]
      cases v with
      | stamp t => exact hv.elim
      | overwriteStart => exact hv.elim
      | truncate n =>
          cases n with
          | zero => exact absurd rfl hv
          | succ n => rfl
      | _ => rfl

theorem Write.Adds.unstamped {v : Write} (hv : v.Adds) : v.Unstamped := by
  cases v <;> first | exact hv.elim | trivial

theorem Insertion.unstamped (hi : Insertion g data w L L' log) :
    ∀ v ∈ log, v.Unstamped := by
  cases hi with
  | atEmpty => simp [logAtEmpty, Write.Unstamped]
  | atEnd => simp [logAtEnd, Write.Unstamped]
  | atBegin => simp [logAtBegin, Write.Unstamped]
  | inMiddle => simp [logInMiddle, Write.Unstamped]

theorem Removal.unstamped (hr : Removal g w L L' log) :
    ∀ v ∈ log, v.Unstamped := by
  cases hr with
  | only => simp [logOnly, Write.Unstamped, headerSize]
  | last => simp [logAtLimit, Write.Unstamped]
  | first => simp [logAtLimit, Write.Unstamped]
  | inMiddle => simp [logBetween, Write.Unstamped]

/-- Where every operation is left that does not begin the file anew. -/
structure Left (f : File) (h : Handle) (L : List Entry) : Prop where
  wellFormed : WellFormed f L
  atRest : AtRest f
  current : Current h L
  stamp : f.stamp = some h.stamp

theorem left_closing {t : TimeStamp} (s : FileStatus) (hs : Sound g L)
    (hcur : Current h L) (hstamp : g.stamp = some t) (ht : h.stamp = t) :
    Left (Store.applyAll g (closing s L.length)) h L where
  wellFormed := wellFormed_closing s hs
  atRest := .inl rfl
  current := hcur
  stamp := ht ▸ hstamp

theorem addData_left (now : ℤ) (hw : WellFormed f L) (hf : AtRest f)
    (hh : Usable f h L) (hd : data ≠ [])
    (hwhere : w = f.getEnd ∨ w ∈ positions L) :
    ∃ it h' log, (addData now data w).run f h = ⟨.ok it, h', log⟩ ∧
      it.current = f.getEnd ∧
      Left (Store.applyAll f log) h' (insertBefore w (f.getEnd, data) L) ∧
      (Store.applyAll f log).status = some .closed := by
  obtain ⟨t, g, L', log, it, h', hg, hi, hit, hcur, hstamp, hrun⟩ :=
    addData_run now hw hf hh hd hwhere
  have hs : Sound g L :=
    hg ▸ sound_asides hw.toSound (opening_aside f t)
  have hend : g.getEnd = f.getEnd := by
    rw [hg, opening, repairs]
    split <;> rfl
  have hlist := hi.eq_insertBefore hs
  rw [hend] at hlist
  refine ⟨it, h', _, hrun, hit, ?_⟩
  rw [Store.applyAll_append, Store.applyAll_append, ← hg, ← hi.length, ← hlist]
  refine ⟨left_closing _ (hi.sound hs hd) hcur ?_ hstamp, rfl⟩
  rw [stamp_unstamped hi.unstamped, hg]
  exact stamp_opening f t

/-- The links of the erased record are there as long as a record is left. -/
theorem removeData_left (now : ℤ) (hw : WellFormed f L) (hf : AtRest f)
    (hh : Usable f h L) (hwhere : w ∈ positions L) :
    ∃ h' log, (removeData now w).run f h = ⟨.ok (), h', log⟩ ∧
      Left (Store.applyAll f log) h' (without w L) ∧
      (Store.applyAll f log).status = some .closed ∧
      ∀ r, without w L ≠ [] → f.recordAt w = some r →
        (Store.applyAll f log).getEnd = f.getEnd ∧
          ∃ r', (Store.applyAll f log).recordAt w = some r' ∧
            r'.links = r.links := by
  obtain ⟨t, g, L', log, h', hg, hrem, hcur, hstamp, hrun⟩ :=
    removeData_run now hw hf hh hwhere
  have hopen : SameRecords f g := hg ▸ same_asides (opening_aside f t)
  have hs : Sound g L :=
    hg ▸ sound_asides hw.toSound (opening_aside f t)
  have hclose := same_asides (f := Store.applyAll g log)
    (closing_aside .rdEmpty L'.length)
  refine ⟨h', _, hrun, ?_⟩
  rw [Store.applyAll_append, Store.applyAll_append, ← hg, ← hrem.eq_without hs]
  refine ⟨left_closing _ (hrem.sound hs) hcur ?_ hstamp, rfl,
    fun r hne hr => ?_⟩
  · rw [stamp_unstamped hrem.unstamped, hg]
    exact stamp_opening f t
  · obtain ⟨hend, r', hr', hlinks⟩ :=
      hrem.erased hs hne ((hopen.2 w).trans hr)
    exact ⟨hclose.1.trans (hend.trans hopen.1), r', (hclose.2 w).trans hr',
      hlinks⟩

theorem truncate_left (now : ℤ) (hw : WellFormed f L) (hf : AtRest f)
    (ht : f.stamp = some h.stamp) :
    ∃ h' log, (truncate now).run f h = ⟨.ok (), h', log⟩ ∧
      Left (Store.applyAll f log) h' [] := by
  obtain ⟨h', hrun, hinit⟩ :=
    truncate_run now hw hf ht fun _ => gt_self h.stamp
  refine ⟨_, _, hrun, ?_⟩
  rw [Store.applyAll_append, applyAll_eraseLog]
  exact ⟨wellFormed_status (wellFormed_emptied now), .inr rfl,
    ⟨hinit, rfl, rfl⟩, rfl⟩

theorem compactData_left (now : ℤ) (hw : WellFormed f L) (hf : AtRest f)
    (hh : Usable f h L) :
    ∃ h' log, (compactData now).run f h = ⟨.ok (), h', log⟩ ∧
      Left (Store.applyAll f log) h' (compacted L) := by
  obtain ⟨log, h', hrun, hcur, hstamp, hadds, hs, -⟩ :=
    compactData_run now hw hf hh
  refine ⟨h', _, hrun, ?_⟩
  rw [Store.applyAll_append, Store.applyAll_append, Store.applyAll_cons,
    Store.applyAll_append, applyAll_eraseLog, ← compacted_length L]
  refine left_closing _ hs hcur ?_ hstamp
  exact stamp_unstamped fun v hv => (hadds v hv).unstamped

end

/-! ## Following the records -/

/-- The records that are reached from a position, by the one or the other link.
The walk ends where there is no live record. -/
def follow (link : Links → ℕ) (f : File) : ℕ → ℕ → List Entry
  | 0, _ => []
  | fuel + 1, p =>
      match f.recordAt p with
      | some r =>
          if r.good then (p, r.data) :: follow link f fuel (link r.links) else []
      | none => []

/-- The list is in the file, followed either way. The walks are as long as they
need. -/
structure Represents (f : File) (L : List Entry) : Prop where
  limits : f.limits = some (limitsOf L)
  forwards : ∀ fuel, f.extent < fuel →
    follow Links.next f fuel (limitsOf L).prev = L
  backwards : ∀ fuel, f.extent < fuel →
    follow Links.prev f fuel (limitsOf L).next = L.reverse
  first : ∀ e ∈ L.head?, ∃ r, f.recordAt e.1 = some r ∧ r.links.prev = 0
  last : ∀ e ∈ L.getLast?, ∃ r, f.recordAt e.1 = some r ∧
    r.links.next = f.getEnd
  size : f.size = some L.length

section
variable {f : File} {L : List Entry} {before after fuel : ℕ}

theorem follow_next (hL : Linked f.recordAt before L after)
    (hafter : f.recordAt after = none) (hfuel : L.length < fuel) :
    follow Links.next f fuel (headPos L after) = L := by
  induction L generalizing before fuel with
  | nil =>
      obtain ⟨fuel, rfl⟩ : ∃ k, fuel = k + 1 := ⟨fuel - 1, by omega⟩
      rw [headPos_nil, follow, hafter]
  | cons e L ih =>
      rw [List.length_cons] at hfuel
      obtain ⟨fuel, rfl⟩ : ∃ k, fuel = k + 1 := ⟨fuel - 1, by omega⟩
      obtain ⟨⟨lit, hr⟩, hrest⟩ := hL
      rw [headPos_cons, follow, hr]
      simp only [if_true]
      rw [ih hrest (by omega)]

theorem follow_prev (hL : Linked f.recordAt before L after)
    (hbefore : f.recordAt before = none) (hfuel : L.length < fuel) :
    follow Links.prev f fuel (lastPos before L) = L.reverse := by
  induction L using List.reverseRecOn generalizing after fuel with
  | nil =>
      obtain ⟨fuel, rfl⟩ : ∃ k, fuel = k + 1 := ⟨fuel - 1, by omega⟩
      rw [lastPos_nil, follow, hbefore]
      rfl
  | append_singleton A e ih =>
      rw [List.length_append, List.length_singleton] at hfuel
      obtain ⟨fuel, rfl⟩ : ∃ k, fuel = k + 1 := ⟨fuel - 1, by omega⟩
      obtain ⟨hA, -⟩ := linked_append.mp hL
      obtain ⟨lit, hr⟩ := linked_last (d := e.2) (q := e.1) hL
      rw [lastPos_append, lastPos_cons, lastPos_nil, follow, hr]
      simp only [if_true]
      rw [ih hA (by omega), List.reverse_append]
      rfl

theorem recordAt_zero (f : File) : f.recordAt 0 = none := by
  simp [File.recordAt, headerSize]

theorem follow_none {link : Links → ℕ} {p : ℕ} (hr : f.recordAt p = none) :
    follow link f fuel p = [] := by
  cases fuel with
  | zero => rfl
  | succ fuel => rw [follow, hr]

theorem recordAt_bare (hext : f.extent = 0) (p : ℕ) : f.recordAt p = none := by
  rw [File.recordAt, if_neg]
  simp only [File.getEnd]
  omega

theorem represents (hw : WellFormed f L) : Represents f L where
  limits := hw.limits
  forwards := by
    intro fuel hfuel
    have hlen := length_le_extent hw.linked hw.nodup
    cases L with
    | nil => exact follow_none (recordAt_bare (hw.bare rfl) _)
    | cons e L => exact follow_next hw.linked (recordAt_getEnd f) (by omega)
  backwards := by
    intro fuel hfuel
    have hlen := length_le_extent hw.linked hw.nodup
    cases L with
    | nil => exact follow_none (recordAt_bare (hw.bare rfl) _)
    | cons e L =>
        have hprev := follow_prev hw.linked (recordAt_zero f)
          (by omega : (e :: L).length < fuel)
        exact hprev
  first := by
    cases L with
    | nil => simp
    | cons e L =>
        obtain ⟨⟨lit, hr⟩, -⟩ := hw.linked
        rintro e' ⟨⟩
        exact ⟨_, hr, rfl⟩
  last := by
    rcases List.eq_nil_or_concat' L with rfl | ⟨A, e, rfl⟩
    · simp
    · obtain ⟨lit, hr⟩ := linked_last (d := e.2) (q := e.1) hw.linked
      intro e' he'
      rw [List.getLast?_append, List.getLast?_singleton] at he'
      obtain rfl : e = e' := by simpa using he'
      exact ⟨_, hr, rfl⟩
  size := hw.size

end

/-! ## Sequences of changes -/

/-- The changes of a container. -/
inductive Change where
  | add (data : Text) (where_ : ℕ)
  | remove (where_ : ℕ)
  | truncate
  | compact
  deriving DecidableEq, Repr

/-- What does the change. -/
def Change.call (now : ℤ) : Change → FileProg Unit
  | .add data where_ => do
      let _ ← addData now data where_
  | .remove where_ => removeData now where_
  | .truncate => FileContainer.truncate now
  | .compact => compactData now

/-- The data and the place a client has to give. -/
def Change.Allowed (fileEnd : ℕ) (L : List Entry) : Change → Prop
  | .add data where_ => data ≠ [] ∧ (where_ = fileEnd ∨ where_ ∈ positions L)
  | .remove where_ => where_ ∈ positions L
  | .truncate | .compact => True

instance (fileEnd : ℕ) (L : List Entry) (c : Change) :
    Decidable (c.Allowed fileEnd L) := by
  cases c <;> unfold Change.Allowed <;> infer_instance

/-- What becomes of the list. A compaction keeps the data. -/
def Change.onList (fileEnd : ℕ) (L : List Entry) : Change → List Entry
  | .add data where_ => insertBefore where_ (fileEnd, data) L
  | .remove where_ => without where_ L
  | .truncate => []
  | .compact => compacted L

/-- With the list, and whether every call has ended without an exception. -/
structure Container where
  file : File
  handle : Handle
  list : List Entry
  good : Bool

/-- A handle that has created its file. -/
def created (now : ℤ) : Container :=
  let o := (openNew now).run .none (fresh now)
  ⟨Store.applyAll .none o.log, o.priv, [], o.result.isOk⟩

/-- A change where it is allowed. -/
def Container.next (c : Container) (l : ℤ × Change) : Option Container :=
  if l.2.Allowed c.file.getEnd c.list then
    let o := (l.2.call l.1).run c.file c.handle
    some ⟨Store.applyAll c.file o.log, o.priv, l.2.onList c.file.getEnd c.list,
      c.good && o.result.isOk⟩
  else none

section
variable {c c' : Container} {now : ℤ} {l : ℤ × Change}

theorem created_left (now : ℤ) :
    Left (created now).file (created now).handle [] ∧
      (created now).good = true := by
  have hstamp : (File.emptied now).stamp = some ⟨now, 0⟩ := rfl
  have hrun : (openNew now).run .none (fresh now) =
      ⟨.ok (), { (fresh now).emptied now 0 with
          initialized := true
          stamp := (⟨now, 0⟩ : TimeStamp).updateStamp now ⟨now, 0⟩ },
        emptyLog now ++
          [.stamp ((⟨now, 0⟩ : TimeStamp).updateStamp now ⟨now, 0⟩)]⟩ := by
    have hupdate := updateTimeStamp_run (f := File.emptied now)
      (h := (fresh now).emptied now 0) now hstamp
    simp only [openNew, Prog.bind_run, createEmptyFile_run, Prog.resume_ok]
    rw [← File.emptied, hupdate]
    simp [Handle.emptied]
  rw [created]
  simp only [hrun, Store.applyAll_append]
  refine ⟨⟨⟨sound_aside (.stamp _) (wellFormed_emptied now).toSound trivial,
    rfl⟩,
    .inl rfl, ⟨rfl, rfl, rfl⟩, rfl⟩, rfl⟩

theorem next_left (hc : Left c.file c.handle c.list ∧ c.good = true)
    (hn : c.next l = some c') :
    Left c'.file c'.handle c'.list ∧ c'.good = true := by
  obtain ⟨⟨hw, hf, hcur, hstamp⟩, hgood⟩ := hc
  obtain ⟨now, change⟩ := l
  have hh : Usable c.file c.handle c.list := .inr (.inr hcur)
  rw [Container.next] at hn
  split at hn
  · next hallowed =>
      rw [Option.some.injEq] at hn
      subst hn
      cases change with
      | add data w =>
          obtain ⟨it, h', log, hrun, -, hleft, -⟩ :=
            addData_left now hw hf hh hallowed.1 hallowed.2
          simpa [Change.call, hrun, hgood, Change.onList] using
            ⟨hleft, rfl⟩
      | remove w =>
          obtain ⟨h', log, hrun, hleft, -⟩ :=
            removeData_left now hw hf hh hallowed
          simpa [Change.call, hrun, hgood, Change.onList] using ⟨hleft, rfl⟩
      | truncate =>
          obtain ⟨h', log, hrun, hleft⟩ := truncate_left now hw hf hstamp
          simpa [Change.call, hrun, hgood, Change.onList] using ⟨hleft, rfl⟩
      | compact =>
          obtain ⟨h', log, hrun, hleft⟩ := compactData_left now hw hf hh
          simpa [Change.call, hrun, hgood, Change.onList] using ⟨hleft, rfl⟩
  · cases hn

/-- After any sequence of changes every call has ended well, the list is in the
file, and the next call finds the status closed or makes it so. -/
theorem refines_list {calls : List (ℤ × Change)}
    (hrun : run Container.next (created now) calls = some c) :
    c.good = true ∧ Represents c.file c.list ∧
      ∀ now', ((checkStreamAndStamp now').final c.file c.handle).status =
        some .closed := by
  obtain ⟨⟨hw, hf, hcur, hstamp⟩, hgood⟩ :=
    run_invariant (fun _ _ _ hc _ hn => next_left hc hn) (created_left now)
      (meets_true _ _ _) hrun
  refine ⟨hgood, represents hw, fun now' => ?_⟩
  have hcheck := checkStreamAndStamp_inStep now' hf hcur.initialized hstamp
    (gt_self c.handle.stamp)
  rw [Prog.final, hcheck]
  exact closed_repairs

/-- Two records, one put before the other, one removed, and a compaction. -/
theorem refines_list_four :
    ∃ c, run Container.next (created 5)
        [(5, .add ['a'] 391), (6, .add ['b'] 391), (6, .remove 391),
          (7, .compact)] = some c ∧
      c.list = [(391, ['b'])] ∧ c.good = true ∧ Represents c.file c.list := by
  have hlist : (run Container.next (created 5)
      [(5, .add ['a'] 391), (6, .add ['b'] 391), (6, .remove 391),
        (7, .compact)]).map Container.list = some [(391, ['b'])] := by
    decide
  obtain ⟨c, hrun, hc⟩ := Option.map_eq_some_iff.mp hlist
  obtain ⟨hgood, hrep, -⟩ := refines_list hrun
  exact ⟨c, hrun, hc, hgood, hrep⟩

end

end Wms.Jobsubmission.FileContainer
