import Wms.Jobsubmission.FileList
import Wms.Proofs.FileSequence

/-!
# The operations of the list over a file container

Each call of the container is described by what it returns and by the list the
file holds then. A call that only reads leaves the records and the end of the
file, and a removal that leaves a record leaves the end too, and the links of
the record it erased. This is what the loops go on from.
-/

namespace Wms.Jobsubmission.FileContainer

open Wms.Lib

/-! ## Between two calls -/

/-- A container that a call can be made on. -/
structure Ready (f : File) (h : Handle) (L : List Entry) : Prop where
  wellFormed : WellFormed f L
  atRest : AtRest f
  usable : Usable f h L

/-- The same after a call that was not a truncation. -/
structure Settled (f : File) (h : Handle) (L : List Entry) : Prop where
  wellFormed : WellFormed f L
  closed : f.status = some .closed
  current : Current h L
  inStep : InStep f h

section
variable {f g : File} {h : Handle} {L A B : List Entry} {e : Entry}
  {data : Text} {p : ℕ}

theorem Settled.ready (hs : Settled f h L) : Ready f h L :=
  ⟨hs.wellFormed, .inl hs.closed, .inr (.inr hs.current)⟩

theorem Left.ready (hl : Left f h L) : Ready f h L :=
  ⟨hl.wellFormed, hl.atRest, .inr (.inr hl.current)⟩

theorem same_repairs (f : File) : SameRecords f (Store.applyAll f (repairs f)) := by
  rw [repairs]
  split
  · exact ⟨rfl, fun _ => rfl⟩
  · exact ⟨rfl, fun _ => rfl⟩

theorem settled_repairs (hw : WellFormed f L) (hcur : Current h L)
    (hstep : InStep f h) : Settled (Store.applyAll f (repairs f)) h L where
  wellFormed := by
    refine ⟨sound_repairs hw.toSound, ?_⟩
    rw [← hw.size, repairs]
    split <;> rfl
  closed := closed_repairs
  current := hcur
  inStep := by
    obtain ⟨t, ht, hgt⟩ := hstep
    refine ⟨t, ?_, hgt⟩
    rw [← ht, repairs]
    split <;> rfl

/-! ## Reading -/

theorem wp_begin (now : ℤ) (hr : Ready f h L) :
    Prog.wp (begin_ now true)
      (fun _ g h' => SameRecords f g ∧ Settled g h' L) f h := by
  obtain ⟨h', hrun, hcur, hstep⟩ :=
    begin_run now hr.wellFormed hr.atRest hr.usable true
  exact Prog.wp_of_run hrun
    ⟨same_repairs f, settled_repairs hr.wellFormed hcur (hstep rfl)⟩

theorem wp_beginAt (now : ℤ) (hr : Ready f h L) :
    Prog.wp (beginAt now true)
      (fun fileEnd g h' => fileEnd = f.getEnd ∧ SameRecords f g ∧ Settled g h' L)
      f h := by
  obtain ⟨h', hrun, hcur, hstep⟩ :=
    beginAt_run now hr.wellFormed hr.atRest hr.usable true
  exact Prog.wp_of_run hrun
    ⟨rfl, same_repairs f, settled_repairs hr.wellFormed hcur (hstep rfl)⟩

theorem wp_readEnd (now : ℤ) (hr : Ready f h L) :
    Prog.wp (readEnd now)
      (fun fileEnd g h' => fileEnd = f.getEnd ∧ SameRecords f g ∧ Settled g h' L)
      f h := by
  refine Prog.wp_seq (wp_begin now hr) ?_
  rintro _ g h' ⟨hsame, hset⟩
  exact ⟨g.getEnd, h', [], rfl, hsame.1, hsame, hset⟩

/-- Where the list begins, which is the end of the file where it is empty. -/
theorem headPos_limits (hw : WellFormed f L) :
    (limitsOf L).prev = headPos L f.getEnd := by
  cases L with
  | nil =>
      rw [headPos_nil, File.getEnd, hw.bare rfl]
      rfl
  | cons e L => rfl

theorem wp_readBegin (now : ℤ) (hr : Ready f h L) :
    Prog.wp (readBegin now)
      (fun first g h' => first = headPos L f.getEnd ∧ SameRecords f g ∧
        Settled g h' L) f h := by
  refine Prog.wp_seq (wp_begin now hr) ?_
  rintro _ g h' ⟨hsame, hset⟩
  refine ⟨h'.limits.prev, h', [], rfl, ?_, hsame, hset⟩
  rw [hset.current.limits, headPos_limits hr.wellFormed]

/-- The links that are read are those of the record there, if there is one. -/
def Reads (f : File) (it : FileIterator) : Prop :=
  ∀ r, f.recordAt it.current = some r →
    it.prev = r.links.prev ∧ it.next = r.links.next

theorem Reads.same {it : FileIterator} (hread : Reads g it) (hs : SameRecords f g) :
    Reads f it := fun r hr => hread r ((hs.2 _).trans hr)

theorem wp_readIterator {k : Handle}
    (hp : p = f.getEnd ∨ (f.recordAt p).isSome) :
    Prog.wp (readIterator p false)
      (fun it g h' => g = f ∧ h' = k ∧ it.current = p ∧ Reads f it) f k := by
  rcases hp with rfl | hp
  · refine ⟨_, k, [], readIterator_getEnd, rfl, rfl, rfl, fun r hr => ?_⟩
    rw [recordAt_getEnd] at hr
    cases hr
  · obtain ⟨r, hr⟩ := Option.isSome_iff_exists.mp hp
    refine ⟨⟨r.links.prev, r.links.next, p⟩, k, [], ?_, rfl, rfl, rfl, ?_⟩
    · rw [readIterator_run hp, hr]
      rfl
    · intro r' hr'
      obtain rfl : r = r' := by simpa [hr] using hr'
      exact ⟨rfl, rfl⟩

theorem recordAt_isSome (hw : WellFormed f L) (hp : p ∈ positions L) :
    (f.recordAt p).isSome := by
  obtain ⟨e, he, rfl⟩ := List.mem_map.mp hp
  obtain ⟨r, hr, -⟩ := linked_record hw.linked he
  rw [hr]
  rfl

theorem wp_getIterator (now : ℤ) (hr : Ready f h L)
    (hp : p = f.getEnd ∨ p ∈ positions L) :
    Prog.wp (getIterator now p)
      (fun it g h' => it.current = p ∧ Reads f it ∧ SameRecords f g ∧ Settled g h' L)
      f h := by
  refine Prog.wp_seq (wp_begin now hr) ?_
  rintro _ g h' ⟨hsame, hset⟩
  refine Prog.wp_mono ?_ (wp_readIterator ?_)
  · rintro it _ _ ⟨rfl, rfl, hit, hread⟩
    exact ⟨hit, hread.same hsame, hsame, hset⟩
  · rw [hsame.1]
    exact hp.imp_right (recordAt_isSome hset.wellFormed)

theorem headPos_cases (B : List Entry) (after : ℕ) :
    headPos B after = after ∨ headPos B after ∈ positions B := by
  cases B with
  | nil => exact .inl rfl
  | cons e B => exact .inr List.mem_cons_self

theorem wp_readData (now : ℤ) (hr : Ready f h (A ++ e :: B)) :
    Prog.wp (readData now e.1 false)
      (fun r g h' => r.1 = e.2 ∧ r.2.current = e.1 ∧
        r.2.next = headPos B f.getEnd ∧ SameRecords f g ∧
        Settled g h' (A ++ e :: B)) f h := by
  refine Prog.wp_seq (wp_beginAt now hr) ?_
  rintro _ g h' ⟨rfl, hsame, hset⟩
  obtain ⟨lit, hrec⟩ := linked_entry hset.wellFormed.linked
  have hle : e.1 ≤ f.getEnd := by
    rw [← hsame.1]
    exact Nat.le_of_lt (recordAt_some hrec).2
  refine ⟨(e.2, ⟨lastPos 0 A, headPos B g.getEnd, e.1⟩), h', [], ?_, rfl, rfl,
    ?_, hsame, hset⟩
  · simp [hle, readDataHere, hrec]
  · exact congrArg (headPos B) hsame.1

/-- Also from a record that was erased, where its links are still right. -/
theorem wp_incrementIterator {it : FileIterator} {r : Record} (now : ℤ)
    (hr : Ready f h L) (hrec : f.recordAt it.current = some r)
    (hlinks : r.links.next = it.next)
    (hnext : it.next = f.getEnd ∨ it.next ∈ positions L) :
    Prog.wp (incrementIterator now it)
      (fun it' g h' => it'.current = it.next ∧ SameRecords f g ∧ Settled g h' L)
      f h := by
  refine Prog.wp_seq (wp_beginAt now hr) ?_
  rintro _ g h₁ ⟨rfl, hsame, hset⟩
  refine Prog.wp_seq (P := fun _ g' h₂ => g = g' ∧ h₁ = h₂)
    ⟨h₁, h₁, [], rfl, rfl, rfl⟩ ?_
  rintro _ _ _ ⟨rfl, rfl⟩
  have hpos : it.current ≠ 0 := by
    rintro hzero
    rw [hzero, recordAt_zero] at hrec
    cases hrec
  rw [if_neg hpos]
  by_cases hend : it.next = f.getEnd
  · rw [if_pos hend]
    exact ⟨_, _, [], rfl, hend.symm, hsame, hset⟩
  · rw [if_neg hend]
    have hrec' : g.recordAt it.current = some r := (hsame.2 _).trans hrec
    have hsome : (g.recordAt it.current).isSome := by
      rw [hrec']
      rfl
    refine Prog.wp_seq (wp_readIterator (.inr hsome)) ?_
    rintro it₁ _ _ ⟨rfl, rfl, hit, hread⟩
    obtain ⟨-, hn⟩ := hread r (hit.symm ▸ hrec')
    rw [hn, hlinks]
    refine Prog.wp_mono ?_ (wp_readIterator
      (.inr (recordAt_isSome hset.wellFormed (hnext.resolve_left hend))))
    rintro it₂ _ _ ⟨rfl, rfl, hit₂, -⟩
    exact ⟨hit₂, hsame, hset⟩

theorem wp_decrementIterator {it : FileIterator} (now : ℤ) (hr : Ready f h L)
    (hL : L ≠ []) (hit : it.current = f.getEnd) :
    Prog.wp (decrementIterator now it)
      (fun it' g h' => it'.current = lastPos 0 L ∧ SameRecords f g ∧ Settled g h' L)
      f h := by
  refine Prog.wp_seq (wp_begin now hr) ?_
  rintro _ g h₁ ⟨hsame, hset⟩
  have hlast : h₁.limits.next = lastPos 0 L := by
    rw [hset.current.limits]
    cases L with
    | nil => exact absurd rfl hL
    | cons e L => rfl
  have hsome : (g.recordAt (lastPos 0 L)).isSome :=
    recordAt_isSome hset.wellFormed (lastPos_mem 0 hL)
  have hcond : it.current = g.getEnd := hit.trans hsame.1.symm
  have hread := wp_readIterator (k := h₁) (.inr hsome)
  obtain ⟨it₁, h₂, ws, hrun, hg, rfl, hit₁, -⟩ := hread
  refine ⟨it₁, h₂, ws, ?_, hit₁, ?_, ?_⟩
  · simp only [getEnd, Prog.bind_run, Prog.store_run, Prog.resume_ok,
      Store.applyAll_nil, Prog.pure_run, Prog.after_nil, Prog.priv_run, hcond,
      if_true, hlast, hrun]
  · rw [hg]
    exact hsame
  · rw [hg]
    exact hset

/-! ## Changing the list -/

theorem settled_of_left (hl : Left f h L) (hclosed : f.status = some .closed) :
    Settled f h L :=
  ⟨hl.wellFormed, hclosed, hl.current, h.stamp, hl.stamp, gt_self h.stamp⟩

theorem wp_removeData (now : ℤ) (hr : Ready f h (A ++ e :: B)) :
    Prog.wp (removeData now e.1)
      (fun _ g h' => Settled g h' (A ++ B) ∧ (A ++ B ≠ [] →
        g.getEnd = f.getEnd ∧ ∃ r, g.recordAt e.1 = some r ∧
          r.links.next = headPos B f.getEnd)) f h := by
  obtain ⟨hw, hf, hh⟩ := hr
  have hmem : e.1 ∈ positions (A ++ e :: B) := List.mem_map_of_mem (by simp)
  obtain ⟨h', log, hrun, hleft, hclosed, herased⟩ :=
    removeData_left now hw hf hh hmem
  rw [without_append (w := e.1) (c := e.2) hw.nodup] at hleft herased
  refine Prog.wp_of_run hrun ⟨settled_of_left hleft hclosed, fun hne => ?_⟩
  obtain ⟨lit, hrec⟩ := linked_entry hw.linked
  obtain ⟨hend, r, hr, hlinks⟩ := herased _ hne hrec
  exact ⟨hend, r, hr, hlinks ▸ rfl⟩

theorem wp_addData (now : ℤ) (hr : Ready f h L) (hd : data ≠ [])
    (hp : p = f.getEnd ∨ p ∈ positions L) :
    Prog.wp (addData now data p)
      (fun it g h' => it.current = f.getEnd ∧
        Settled g h' (insertBefore p (f.getEnd, data) L)) f h := by
  obtain ⟨it, h', log, hrun, hit, hleft, hclosed⟩ :=
    addData_left now hr.wellFormed hr.atRest hr.usable hd hp
  exact Prog.wp_of_run hrun ⟨hit, settled_of_left hleft hclosed⟩

theorem not_wp_throw {α : Type} {e : Fault} {Q : α → File → Handle → Prop} :
    ¬ Prog.wp (Prog.throw e) Q f h :=
  Prog.not_wp_of_error rfl

theorem not_wp_writeDataHere {it lit : FileIterator} {s : FileStatus}
    {Q : Unit → File → Handle → Prop} :
    ¬ Prog.wp (writeDataHere it lit [] s) Q f h :=
  not_wp_throw

/-- An empty text is refused, wherever it should go. -/
theorem not_wp_addDataAt {fileEnd : ℕ} {Q : FileIterator → File → Handle → Prop} :
    ¬ Prog.wp (addDataAt [] p fileEnd) Q f h := by
  refine Prog.not_wp_bind fun h₁ g _ => ?_
  split
  · rw [addDataAtEnd]
    iterate 5 refine Prog.not_wp_bind fun _ _ _ => ?_
    exact Prog.not_wp_first fun _ => not_wp_writeDataHere
  split
  · rw [addDataAtBegin]
    iterate 7 refine Prog.not_wp_bind fun _ _ _ => ?_
    exact Prog.not_wp_first fun _ => not_wp_writeDataHere
  · rw [addDataInMiddle]
    iterate 7 refine Prog.not_wp_bind fun _ _ _ => ?_
    exact Prog.not_wp_first fun _ => not_wp_writeDataHere

theorem not_wp_addData (now : ℤ) {Q : FileIterator → File → Handle → Prop} :
    ¬ Prog.wp (addData now [] p) Q f h := by
  rw [addData]
  iterate 3 refine Prog.not_wp_bind fun _ _ _ => ?_
  exact Prog.not_wp_first fun _ => not_wp_addDataAt

/-- The size is the right one already. -/
theorem wp_readSize (now : ℤ) (hs : Settled f h L) :
    Prog.wp (readSize_ now)
      (fun size g h' => size = L.length ∧ f = g ∧ h = h') f h := by
  obtain ⟨t, ht, hgt⟩ := hs.inStep
  have hcheck := checkStreamAndStamp_inStep now (.inl hs.closed)
    hs.current.initialized ht hgt
  rw [repairs, if_pos hs.closed] at hcheck
  have hgood : ¬ (h.limits.prev ≠ f.getEnd ∧ h.size = 0) := by
    rintro ⟨hprev, hsize⟩
    rw [hs.current.size, List.length_eq_zero_iff] at hsize
    rw [hs.current.limits, headPos_limits hs.wellFormed, hsize] at hprev
    exact hprev rfl
  refine ⟨h.size, h, [], ?_, hs.current.size, rfl, rfl⟩
  simp [readSize_, hs.current.initialized, hcheck, hgood]

/-- The file is begun anew, whatever it was. -/
theorem wp_eraseFile (now : ℤ) {Q : Unit → File → Handle → Prop}
    (hinit : h.initialized = true)
    (hQ : ∀ g h', Ready g h' [] → Q () g h') :
    Prog.wp (do eraseFile now 0; setSize 0) Q f h := by
  refine ⟨(), { h.emptied now 0 with size := 0 }, eraseLog now, ?_, ?_⟩
  · simp [eraseFile_run, setSize]
  · rw [applyAll_eraseLog]
    refine hQ _ _ ⟨wellFormed_status (wellFormed_emptied now), .inr rfl, ?_⟩
    exact .inr (.inr ⟨hinit, rfl, rfl⟩)

/-- `truncate` takes a modification for a failure. -/
def Behind (f : File) (h : Handle) : Prop :=
  h.initialized = true ∧ f.status = some .closed ∧
    ∃ t, f.stamp = some t ∧ t.gt h.stamp = true

theorem wp_truncate_iff (now : ℤ) (hr : Ready f h L)
    {Q : Unit → File → Handle → Prop}
    (hQ : ∀ g h', Ready g h' [] → Q () g h') :
    Prog.wp (truncate now) Q f h ↔ ¬ Behind f h := by
  obtain ⟨hw, hf, hh⟩ := hr
  obtain ⟨t, ht⟩ := stamp_isSome hw
  obtain ⟨r, hr⟩ := removed_isSome hw
  have herase : ∀ (m : FileProg Unit) (k : Handle) (log : List Write),
      m.run f h = ⟨.ok (), k, log⟩ → k.initialized = true →
      Prog.wp (do m; eraseFile now 0; setSize 0) Q f h := by
    intro m k log hrun hk
    exact Prog.wp_seq (P := fun _ _ h' => h'.initialized = true)
      ⟨(), k, log, hrun, hk⟩ fun _ _ _ hinit' => wp_eraseFile now hinit' hQ
  cases hinit : h.initialized with
  | false =>
      have hform : (truncate now).run f h =
          (do initContainer now; eraseFile now 0; setSize 0 :
            FileProg Unit).run f h := by
        simp [truncate, hinit]
      refine iff_of_true ?_ ?_
      · rw [Prog.wp, hform]
        exact herase _ _ _ (initContainer_atRest now hw hf ht hr) rfl
      · rintro ⟨hyes, -⟩
        rw [hinit] at hyes
        cases hyes
  | true =>
      have hform : (truncate now).run f h =
          (do checkStreamAndStamp now; eraseFile now 0; setSize 0 :
            FileProg Unit).run f h := by
        simp [truncate, hinit]
      rw [Prog.wp, hform]
      by_cases hb : Behind f h
      · refine iff_of_false ?_ (not_not_intro hb)
        obtain ⟨-, hclosed, t', ht', hgt⟩ := hb
        exact Prog.not_wp_of_error (Prog.bind_of_error
          (checkStreamAndStamp_behind now hclosed ht' hgt) _)
      · refine iff_of_true ?_ hb
        rcases checkStreamAndStamp_atRest now hw hf hh hinit with
          ⟨h', hrun, hcur, -⟩ | ⟨hrun, hclosed⟩
        · exact herase _ _ _ hrun hcur.initialized
        · have hgt : t.gt h.stamp = false := by
            by_contra hgt
            exact hb ⟨hinit, hclosed, t, ht, by simpa using hgt⟩
          exact herase _ _ _
            (checkStreamAndStamp_inStep now hf hinit ht hgt) hinit

end

end Wms.Jobsubmission.FileContainer

namespace Wms.Jobsubmission.FileList

open Wms.Lib FileContainer

/-! ## The sequence -/

section
variable {f g : File} {h : Handle} {L A B X : List Entry} {e : Entry}
  {data : Text} {p : ℕ}

theorem wp_getBegin (now : ℤ) (hr : Ready f h L) :
    Prog.wp (getBegin now)
      (fun it g h' => it.current = headPos L f.getEnd ∧ SameRecords f g ∧
        Settled g h' L) f h := by
  refine Prog.wp_seq (wp_readBegin now hr) ?_
  rintro _ g₁ h₁ ⟨rfl, hs₁, hset₁⟩
  refine Prog.wp_seq (wp_readEnd now hset₁.ready) ?_
  rintro _ g₂ h₂ ⟨-, hs₂, hset₂⟩
  have hs := hs₁.trans hs₂
  refine Prog.wp_mono ?_ (wp_getIterator now hset₂.ready ?_)
  · rintro it g₃ h₃ ⟨hit, -, hs₃, hset₃⟩
    exact ⟨hit, hs.trans hs₃, hset₃⟩
  · rw [hs.1]
    exact headPos_cases L f.getEnd

theorem wp_getEnd (now : ℤ) (hr : Ready f h L) :
    Prog.wp (getEnd now)
      (fun it g h' => it.current = f.getEnd ∧ SameRecords f g ∧
        Settled g h' L) f h := by
  refine Prog.wp_seq (wp_readEnd now hr) ?_
  rintro _ g₁ h₁ ⟨rfl, hs₁, hset₁⟩
  refine Prog.wp_mono ?_ (wp_getIterator now hset₁.ready (.inl hs₁.1.symm))
  rintro it g₂ h₂ ⟨hit, -, hs₂, hset₂⟩
  exact ⟨hit, hs₁.trans hs₂, hset₂⟩

/-- What an iterator stands for: the first entry of `B`, or the end. -/
structure Denotes (f : File) (B : List Entry) (it : BaseIterator) : Prop where
  position : it.iterator.current = headPos B f.getEnd
  good : it.good = !B.isEmpty
  data : ∀ e ∈ B.head?, it.data = e.2

theorem wp_readString (now : ℤ) (hr : Ready f h (A ++ B)) {it : FileIterator}
    (hit : it.current = headPos B f.getEnd) :
    Prog.wp (readString now false it)
      (fun it' g h' => Denotes g B it' ∧ SameRecords f g ∧
        Settled g h' (A ++ B)) f h := by
  refine Prog.wp_seq (wp_readEnd now hr) ?_
  rintro _ g₁ h₁ ⟨rfl, hs₁, hset₁⟩
  cases B with
  | nil =>
      rw [headPos_nil] at hit
      rw [if_pos ⟨rfl, hit⟩]
      refine ⟨_, h₁, [], rfl, ⟨?_, rfl, by simp⟩, hs₁, hset₁⟩
      exact hit.trans hs₁.1.symm
  | cons e B =>
      rw [headPos_cons] at hit
      have hne : e.1 ≠ f.getEnd := by
        obtain ⟨lit, hrec⟩ := linked_entry hr.wellFormed.linked
        exact Nat.ne_of_lt (recordAt_some hrec).2
      rw [if_neg fun hc => hne (hit ▸ hc.2), hit]
      refine Prog.wp_seq (wp_readData now hset₁.ready) ?_
      rintro ⟨d, it'⟩ g₂ h₂ ⟨hd, hcur, -, hs₂, hset₂⟩
      refine ⟨_, h₂, [], rfl, ⟨hcur, rfl, ?_⟩, hs₁.trans hs₂, hset₂⟩
      rintro e' ⟨⟩
      exact hd

theorem headPos_mem_append (A B : List Entry) (after : ℕ) :
    headPos B after = after ∨ headPos B after ∈ positions (A ++ B) := by
  refine (headPos_cases B after).imp_right fun hmem => ?_
  rw [positions, List.map_append]
  exact List.mem_append_right _ hmem

theorem wp_erasePointer (now : ℤ) (hr : Ready f h (A ++ e :: B)) :
    Prog.wp (erasePointer now e.1)
      (fun it g h' => it.current = headPos B g.getEnd ∧ Settled g h' (A ++ B))
      f h := by
  refine Prog.wp_seq (wp_readEnd now hr) ?_
  rintro _ g₁ h₁ ⟨-, hs₁, hset₁⟩
  have hmem : e.1 ∈ positions (A ++ e :: B) := List.mem_map_of_mem (by simp)
  refine Prog.wp_seq (wp_getIterator now hset₁.ready (.inr hmem)) ?_
  rintro it g₂ h₂ ⟨hit, hread, hs₂, hset₂⟩
  obtain ⟨lit, hrec⟩ := linked_entry hset₁.wellFormed.linked
  obtain ⟨-, hnext⟩ := hread _ (hit.symm ▸ hrec)
  have hrec₂ := (hs₂.2 e.1).trans hrec
  have hB : it.next = g₂.getEnd ∨ it.next ∈ positions (A ++ e :: B) := by
    rw [hnext, hs₂.1, List.append_cons]
    exact headPos_mem_append (A ++ [e]) B _
  refine Prog.wp_seq (wp_incrementIterator now hset₂.ready (hit.symm ▸ hrec₂)
    hnext.symm hB) ?_
  rintro it₃ g₃ h₃ ⟨hit₃, hs₃, hset₃⟩
  refine Prog.wp_seq (wp_removeData now hset₃.ready) ?_
  rintro _ g₄ h₄ ⟨hset₄, hleft⟩
  refine Prog.wp_seq (wp_readSize now hset₄) ?_
  rintro _ _ _ ⟨rfl, rfl, rfl⟩
  by_cases hne : A ++ B = []
  · have hsize : ¬ (A ++ B).length ≠ 0 := by simp [hne]
    rw [if_neg hsize]
    refine Prog.wp_seq (wp_readEnd now hset₄.ready) ?_
    rintro _ g₅ h₅ ⟨rfl, hs₅, hset₅⟩
    refine Prog.wp_mono ?_ (wp_getIterator now hset₅.ready (.inl hs₅.1.symm))
    rintro it₆ g₆ h₆ ⟨hit₆, -, hs₆, hset₆⟩
    refine ⟨?_, hset₆⟩
    rw [(List.append_eq_nil_iff.mp hne).2, headPos_nil, hit₆, hs₆.1, hs₅.1]
  · have hsize : (A ++ B).length ≠ 0 := by simpa using hne
    obtain ⟨hend₄, -⟩ := hleft hne
    have hend : it₃.current = headPos B g₄.getEnd := by
      rw [hit₃, hnext, hend₄, hs₃.1, hs₂.1]
    rw [if_pos hsize]
    refine Prog.wp_mono ?_ (wp_getIterator now hset₄.ready ?_)
    · rintro it₆ g₆ h₆ ⟨hit₆, -, hs₆, hset₆⟩
      exact ⟨hit₆.trans (hend.trans (by rw [hs₆.1])), hset₆⟩
    · rw [hend]
      refine (headPos_cases B _).imp_right fun hmem => ?_
      rw [positions, List.map_append]
      exact List.mem_append_right _ hmem

/-! The loop over an interval. -/

/-- A round that leaves a record. -/
theorem wp_eraseNext (now : ℤ) (hr : Ready f h (A ++ e :: B))
    (hne : A ++ B ≠ []) {iter : FileIterator} (hiter : iter.current = e.1) :
    Prog.wp (eraseNext now iter)
      (fun r g h' => r.1.current = headPos B f.getEnd ∧ r.2 = f.getEnd ∧
        g.getEnd = f.getEnd ∧ Settled g h' (A ++ B)) f h := by
  have hmem : e.1 ∈ positions (A ++ e :: B) := List.mem_map_of_mem (by simp)
  refine Prog.wp_seq (wp_getIterator now hr (.inr (hiter.symm ▸ hmem))) ?_
  rintro it g₁ h₁ ⟨hit, hread, hs₁, hset₁⟩
  obtain ⟨lit, hrec⟩ := linked_entry hr.wellFormed.linked
  have hcur : it.current = e.1 := hit.trans hiter
  obtain ⟨-, hnext⟩ := hread _ (hcur.symm ▸ hrec)
  rw [hcur]
  refine Prog.wp_seq (wp_removeData now hset₁.ready) ?_
  rintro _ g₂ h₂ ⟨hset₂, hleft⟩
  obtain ⟨hend₂, r, hrec₂, hlinks⟩ := hleft hne
  have hnext₂ : r.links.next = it.next := by
    rw [hlinks, hnext, hs₁.1]
  have hplace : it.next = g₂.getEnd ∨ it.next ∈ positions (A ++ B) := by
    rw [hnext, hend₂, hs₁.1]
    exact headPos_mem_append A B _
  refine Prog.wp_seq (wp_incrementIterator now hset₂.ready
    (hcur.symm ▸ hrec₂) hnext₂ hplace) ?_
  rintro it₃ g₃ h₃ ⟨hit₃, hs₃, hset₃⟩
  refine Prog.wp_seq (wp_readEnd now hset₃.ready) ?_
  rintro _ g₄ h₄ ⟨rfl, hs₄, hset₄⟩
  have hend₃ : g₃.getEnd = f.getEnd := by
    rw [hs₃.1, hend₂, hs₁.1]
  exact ⟨_, _, [], rfl, hit₃.trans hnext, hend₃, hs₄.1.trans hend₃, hset₄⟩

/-! With the last record the file is cut. The iterator of that record is then
behind the end or at it, and in the second case it goes on to position 0. -/

theorem getEnd_nil (hw : WellFormed f []) : f.getEnd = headerSize := by
  rw [File.getEnd, hw.bare rfl, Nat.add_zero]

theorem readIterator_zero {k : Handle} :
    (readIterator 0 false).run f k = ⟨.ok ⟨0, 0, 0⟩, k, []⟩ := by
  have hend : ¬ 0 = f.getEnd := by
    simp only [File.getEnd, headerSize]
    omega
  simp [readIterator, headerSize, hend]

theorem incrementIterator_cut {it : FileIterator}
    {Q : FileIterator → File → Handle → Prop} (now : ℤ) (hr : Ready f h [])
    (hpos : headerSize ≤ it.current) (hnext : it.next ≠ headerSize)
    (hwp : Prog.wp (incrementIterator now it) Q f h) :
    ∃ g h', Ready g h' [] ∧ Q ⟨0, 0, 0⟩ g h' := by
  obtain ⟨_, g, h₁, ⟨rfl, hs, hset⟩, hrest⟩ :=
    Prog.wp_rest (wp_beginAt now hr) hwp
  have hpriv : Prog.run (Prog.priv : FileProg Handle) g h₁ =
      ⟨.ok h₁, h₁, []⟩ := rfl
  rw [Prog.wp_bind, Prog.wp_iff_of_run hpriv, Store.applyAll_nil] at hrest
  have hzero : it.current ≠ 0 := by
    have := headerSize_pos
    omega
  have hend : g.getEnd = headerSize := getEnd_nil hset.wellFormed
  rw [if_neg hzero, ← hs.1, hend, if_neg hnext] at hrest
  by_cases hcur : it.current = headerSize
  · rw [hcur, ← hend, Prog.wp_bind, Prog.wp_iff_of_run readIterator_getEnd,
      Store.applyAll_nil, Prog.wp_iff_of_run readIterator_zero] at hrest
    exact ⟨g, h₁, hset.ready, hrest⟩
  · have hthrow : (readIterator it.current false).run g h₁ =
        ⟨.error .unavailablePosition, h₁, []⟩ := by
      have hbound : ¬ it.current < headerSize := by omega
      simp [readIterator, hend, hbound, hcur, hzero]
    exact absurd (Prog.wp_bind.mp hrest) (Prog.not_wp_of_error hthrow)

/-- The round that erases the only record. -/
theorem eraseNext_cut {iter : FileIterator}
    {Q : FileIterator × ℕ → File → Handle → Prop} (now : ℤ)
    (hr : Ready f h [e]) (hiter : iter.current = e.1)
    (hwp : Prog.wp (eraseNext now iter) Q f h) :
    ∃ g h', Ready g h' [] ∧ Q (⟨0, 0, 0⟩, headerSize) g h' := by
  have hmem : e.1 = f.getEnd ∨ e.1 ∈ positions [e] := .inr List.mem_cons_self
  obtain ⟨it, g₁, h₁, ⟨hit, hread, hs₁, hset₁⟩, hrest⟩ :=
    Prog.wp_rest (wp_getIterator now hr (hiter.symm ▸ hmem)) hwp
  obtain ⟨lit, hrec⟩ := linked_entry (A := []) hr.wellFormed.linked
  have hcur : it.current = e.1 := hit.trans hiter
  obtain ⟨-, hnext⟩ := hread _ (hcur.symm ▸ hrec)
  have hbounds := recordAt_some hrec
  rw [hcur] at hrest
  obtain ⟨_, g₂, h₂, ⟨hset₂, -⟩, hrest⟩ :=
    Prog.wp_rest (wp_removeData (A := []) (B := []) now hset₁.ready) hrest
  rw [Prog.wp_bind] at hrest
  have hnext' : it.next ≠ headerSize := by
    rw [hnext]
    exact Nat.ne_of_gt (Nat.lt_of_le_of_lt hbounds.1 hbounds.2)
  obtain ⟨g₃, h₃, hr₃, hrest⟩ := incrementIterator_cut now hset₂.ready
    (hcur.symm ▸ hbounds.1) hnext' hrest
  obtain ⟨_, g₄, h₄, ⟨rfl, hs₄, hset₄⟩, hrest⟩ :=
    Prog.wp_rest (wp_readEnd now hr₃) hrest
  rw [Prog.wp_iff_of_run rfl, getEnd_nil hr₃.wellFormed] at hrest
  exact ⟨g₄, h₄, hset₄.ready, hrest⟩

/-- There is nothing to erase at position 0. -/
theorem not_wp_removeData_zero (now : ℤ) {Q : Unit → File → Handle → Prop} :
    ¬ Prog.wp (removeData now 0) Q f h := by
  rw [removeData]
  iterate 4 refine Prog.not_wp_bind fun _ _ _ => ?_
  refine Prog.not_wp_first fun P => ?_
  rintro ⟨a, h', ws, hrun, -⟩
  simp [readSizeAndState, recordAt_zero] at hrun

theorem not_wp_eraseNext_zero (now : ℤ) (hr : Ready f h [])
    {Q : FileIterator × ℕ → File → Handle → Prop} :
    ¬ Prog.wp (eraseNext now ⟨0, 0, 0⟩) Q f h := by
  have hget : Prog.wp (getIterator now 0)
      (fun it g h' => it = ⟨0, 0, 0⟩) f h := by
    refine Prog.wp_seq (wp_begin now hr) ?_
    rintro _ g h' -
    exact Prog.wp_of_run readIterator_zero rfl
  intro hwp
  obtain ⟨_, g, h', rfl, hrest⟩ := Prog.wp_rest hget hwp
  exact not_wp_removeData_zero now (Prog.wp_bind.mp hrest)

/-! Whole intervals. -/

/-- The loop goes on at a record inside the interval. -/
theorem next_of_kept {x : Entry} (hw : WellFormed f (A ++ (x :: X ++ B))) :
    x.1 ≠ headPos B f.getEnd ∧ x.1 ≠ f.getEnd := by
  have hlt : x.1 < f.getEnd :=
    (linked_bounds hw.linked (List.mem_map_of_mem (by simp))).2
  refine ⟨?_, Nat.ne_of_lt hlt⟩
  rcases headPos_cases B f.getEnd with hend | hmem
  · rw [hend]
    exact Nat.ne_of_lt hlt
  · have hnodup := hw.nodup
    rw [positions, List.map_append, List.nodup_append] at hnodup
    obtain ⟨-, hXB, -⟩ := hnodup
    rw [List.cons_append, List.map_cons, List.nodup_cons] at hXB
    intro heq
    refine hXB.1 ?_
    rw [heq, List.map_append]
    exact List.mem_append_right _ hmem

theorem wp_eraseFrom {last fuel : ℕ} {now : ℕ → ℤ} {iter : FileIterator}
    (hr : Ready f h (A ++ X ++ B)) (hX : X ≠ []) (hne : A ++ B ≠ [])
    (hiter : iter.current = headPos X f.getEnd)
    (hlast : last = headPos B f.getEnd) (hfuel : X.length ≤ fuel) :
    Prog.wp (eraseFrom last fuel now iter)
      (fun it g h' => it.current = headPos B g.getEnd ∧
        Settled g h' (A ++ B)) f h := by
  induction X generalizing f h fuel now iter with
  | nil => exact absurd rfl hX
  | cons e X ih =>
      rw [List.length_cons] at hfuel
      obtain ⟨fuel, rfl⟩ : ∃ k, fuel = k + 1 := ⟨fuel - 1, by omega⟩
      rw [List.append_assoc, List.cons_append] at hr
      have hrest : A ++ (X ++ B) ≠ [] := by
        rw [ne_eq, List.append_eq_nil_iff] at hne ⊢
        exact fun hnil => hne ⟨hnil.1, (List.append_eq_nil_iff.mp hnil.2).2⟩
      rw [eraseFrom]
      refine Prog.wp_seq (wp_eraseNext (now 0) hr hrest hiter) ?_
      rintro ⟨it, fileEnd⟩ g h₁ ⟨hit, rfl, hend, hset⟩
      dsimp only at hit ⊢
      cases X with
      | nil =>
          rw [List.nil_append] at hit hset
          have hstop : ¬ (it.current ≠ last ∧ it.current ≠ f.getEnd) :=
            fun hc => hc.1 (hit.trans hlast.symm)
          rw [if_neg hstop]
          exact ⟨it, h₁, [], rfl, hit.trans (congrArg (headPos B) hend.symm),
            hset⟩
      | cons x X =>
          rw [List.cons_append, headPos_cons] at hit
          have hgo : it.current ≠ last ∧ it.current ≠ f.getEnd := by
            rw [hit, hlast, ← hend]
            exact next_of_kept hset.wellFormed
          rw [if_pos hgo]
          refine ih ?_ (List.cons_ne_nil _ _) hit (hend ▸ hlast) (by omega)
          rw [List.append_assoc]
          exact hset.ready

/-- An interval that is the whole list. -/
theorem not_wp_eraseFrom {last fuel : ℕ} {now : ℕ → ℤ} {iter : FileIterator}
    {Q : FileIterator → File → Handle → Prop} (hr : Ready f h X) (hX : X ≠ [])
    (hiter : iter.current = headPos X f.getEnd) (hlast : last = f.getEnd) :
    ¬ Prog.wp (eraseFrom last fuel now iter) Q f h := by
  induction X generalizing f h fuel now iter with
  | nil => exact absurd rfl hX
  | cons e X ih =>
      intro hwp
      cases fuel with
      | zero => exact not_wp_throw hwp
      | succ fuel =>
          rw [eraseFrom] at hwp
          cases X with
          | nil =>
              obtain ⟨g, h₁, hr₁, hrest⟩ :=
                eraseNext_cut (now 0) hr hiter (Prog.wp_bind.mp hwp)
              have hgo : (0 : ℕ) ≠ last ∧ 0 ≠ headerSize := by
                have := headerSize_pos
                simp only [hlast, File.getEnd]
                omega
              rw [if_pos hgo] at hrest
              cases fuel with
              | zero => exact not_wp_throw hrest
              | succ fuel =>
                  rw [eraseFrom] at hrest
                  exact not_wp_eraseNext_zero _ hr₁ (Prog.wp_bind.mp hrest)
          | cons x X =>
              obtain ⟨⟨it, fileEnd⟩, g, h₁, ⟨hit, rfl, hend, hset⟩, hrest⟩ :=
                Prog.wp_rest (wp_eraseNext (A := []) (now 0) hr
                  (List.cons_ne_nil _ _) hiter) hwp
              dsimp only at hit hrest
              have hgo : it.current ≠ last ∧ it.current ≠ f.getEnd := by
                rw [hit, hlast, ← hend]
                exact next_of_kept (A := []) (X := X) (B := [])
                  (by rw [List.append_nil]; exact hset.wellFormed)
              rw [if_pos hgo] at hrest
              exact ih hset.ready (List.cons_ne_nil _ _) hit (hend ▸ hlast) hrest

/-! ## The loop over all records -/

/-- The list up to a record that has been looked at. -/
def kept (value : Text) (A : List Entry) (e : Entry) : List Entry :=
  if e.2 = value then A else A ++ [e]

/-- A round that leaves a record. -/
theorem wp_removeNext (now : ℤ) (value : Text) (hr : Ready f h (A ++ e :: X))
    (hne : kept value A e ++ X ≠ []) {iter : FileIterator}
    (hiter : iter.current = e.1) :
    Prog.wp (removeNext now value iter)
      (fun r g h' => r.1.current = headPos X f.getEnd ∧ r.2 = f.getEnd ∧
        g.getEnd = f.getEnd ∧ Settled g h' (kept value A e ++ X)) f h := by
  have hafter : ∀ {k : File} {h₁ : Handle} {it : FileIterator} {r : Record},
      k.getEnd = f.getEnd → Settled k h₁ (kept value A e ++ X) →
      it.next = headPos X f.getEnd → k.recordAt it.current = some r →
      r.links.next = it.next →
      Prog.wp (do
          let iter ← incrementIterator now it
          let fileEnd ← readEnd now
          pure (iter, fileEnd) : FileProg (FileIterator × ℕ))
        (fun r g h' => r.1.current = headPos X f.getEnd ∧ r.2 = f.getEnd ∧
          g.getEnd = f.getEnd ∧ Settled g h' (kept value A e ++ X)) k h₁ := by
    intro k h₁ it r hend hset hnext hrec hlinks
    have hplace : it.next = k.getEnd ∨
        it.next ∈ positions (kept value A e ++ X) := by
      rw [hnext, hend]
      exact headPos_mem_append _ X _
    refine Prog.wp_seq
      (wp_incrementIterator now hset.ready hrec hlinks hplace) ?_
    rintro it₁ g₁ h₂ ⟨hit₁, hs₁, hset₁⟩
    refine Prog.wp_seq (wp_readEnd now hset₁.ready) ?_
    rintro _ g₂ h₃ ⟨rfl, hs₂, hset₂⟩
    have hend₁ : g₁.getEnd = f.getEnd := hs₁.1.trans hend
    exact ⟨_, _, [], rfl, hit₁.trans hnext, hend₁, hs₂.1.trans hend₁, hset₂⟩
  rw [removeNext, hiter]
  refine Prog.wp_seq (wp_readData now hr) ?_
  rintro ⟨data, it⟩ g₁ h₁ ⟨hdata, hcur, hnext, hs₁, hset₁⟩
  dsimp only at hdata hcur hnext ⊢
  by_cases hv : data = value
  · have hkept : kept value A e = A := if_pos (hdata ▸ hv)
    rw [hkept] at hafter hne ⊢
    rw [if_pos hv, hcur]
    refine Prog.wp_seq (wp_removeData now hset₁.ready) ?_
    rintro _ g₂ h₂ ⟨hset₂, hleft⟩
    obtain ⟨hend₂, r, hrec₂, hlinks⟩ := hleft hne
    refine hafter (hend₂.trans hs₁.1) hset₂ hnext (hcur.symm ▸ hrec₂) ?_
    rw [hlinks, hnext, hs₁.1]
  · have hkept : kept value A e = A ++ [e] := if_neg (hdata ▸ hv)
    rw [if_neg hv]
    obtain ⟨lit, hrec⟩ := linked_entry hset₁.wellFormed.linked
    refine hafter hs₁.1 ?_ hnext (hcur.symm ▸ hrec) ?_
    · rw [hkept, List.append_assoc]
      exact hset₁
    · rw [hnext, hs₁.1]

def others (value : Text) (X : List Entry) : List Entry :=
  X.filter fun e => e.2 ≠ value

theorem kept_others (value : Text) :
    kept value A e ++ others value X = A ++ others value (e :: X) := by
  rw [kept, others, others]
  by_cases hv : e.2 = value
  · simp [hv]
  · simp [hv]

theorem wp_removeFrom {value : Text} {fuel : ℕ} {now : ℕ → ℤ}
    {iter : FileIterator} (hr : Ready f h (A ++ X)) (hX : X ≠ [])
    (hne : A ++ others value X ≠ [])
    (hiter : iter.current = headPos X f.getEnd) (hfuel : X.length ≤ fuel) :
    Prog.wp (removeFrom value fuel now iter)
      (fun _ g h' => Settled g h' (A ++ others value X)) f h := by
  induction X generalizing f h fuel now iter A with
  | nil => exact absurd rfl hX
  | cons e X ih =>
      rw [List.length_cons] at hfuel
      obtain ⟨fuel, rfl⟩ : ∃ k, fuel = k + 1 := ⟨fuel - 1, by omega⟩
      rw [← kept_others] at hne ⊢
      have hrest : kept value A e ++ X ≠ [] := by
        intro hnil
        obtain ⟨hA, rfl⟩ := List.append_eq_nil_iff.mp hnil
        exact hne (by rw [hA]; rfl)
      rw [removeFrom]
      refine Prog.wp_seq (wp_removeNext (now 0) value hr hrest hiter) ?_
      rintro ⟨it, fileEnd⟩ g h₁ ⟨hit, rfl, hend, hset⟩
      dsimp only at hit ⊢
      cases X with
      | nil =>
          have hstop : ¬ it.current ≠ f.getEnd := not_not_intro hit
          rw [if_neg hstop]
          exact ⟨(), h₁, [], rfl, hset⟩
      | cons x X =>
          have hgo : it.current ≠ f.getEnd := by
            rw [hit, headPos_cons, ← hend]
            exact (next_of_kept (B := [])
              (by rw [List.append_nil]; exact hset.wellFormed)).2
          rw [if_pos hgo]
          exact ih hset.ready (List.cons_ne_nil _ _) hne (hend ▸ hit) (by omega)

/-- The round that removes the only record. -/
theorem removeNext_cut {iter : FileIterator}
    {Q : FileIterator × ℕ → File → Handle → Prop} (now : ℤ)
    (hr : Ready f h [e]) (hiter : iter.current = e.1)
    (hwp : Prog.wp (removeNext now e.2 iter) Q f h) :
    ∃ g h', Ready g h' [] ∧ Q (⟨0, 0, 0⟩, headerSize) g h' := by
  rw [removeNext, hiter] at hwp
  obtain ⟨⟨data, it⟩, g₁, h₁, ⟨hdata, hcur, hnext, hs₁, hset₁⟩, hrest⟩ :=
    Prog.wp_rest (wp_readData (A := []) (B := []) now hr) hwp
  dsimp only at hdata hcur hnext hrest
  obtain ⟨lit, hrec⟩ := linked_entry (A := []) hr.wellFormed.linked
  have hbounds := recordAt_some hrec
  rw [if_pos hdata, hcur] at hrest
  obtain ⟨_, g₂, h₂, ⟨hset₂, -⟩, hrest⟩ :=
    Prog.wp_rest (wp_removeData (A := []) (B := []) now hset₁.ready) hrest
  rw [Prog.wp_bind] at hrest
  have hnext' : it.next ≠ headerSize := by
    rw [hnext]
    exact Nat.ne_of_gt (Nat.lt_of_le_of_lt hbounds.1 hbounds.2)
  obtain ⟨g₃, h₃, hr₃, hrest⟩ := incrementIterator_cut now hset₂.ready
    (hcur.symm ▸ hbounds.1) hnext' hrest
  obtain ⟨_, g₄, h₄, ⟨rfl, hs₄, hset₄⟩, hrest⟩ :=
    Prog.wp_rest (wp_readEnd now hr₃) hrest
  rw [Prog.wp_iff_of_run rfl, getEnd_nil hr₃.wellFormed] at hrest
  exact ⟨g₄, h₄, hset₄.ready, hrest⟩

/-- There is nothing to read at position 0. -/
theorem not_wp_removeNext_zero (now : ℤ) {value : Text}
    {Q : FileIterator × ℕ → File → Handle → Prop} :
    ¬ Prog.wp (removeNext now value ⟨0, 0, 0⟩) Q f h := by
  refine Prog.not_wp_first fun P => Prog.not_wp_bind fun fileEnd g h₁ => ?_
  rw [if_pos (Nat.zero_le fileEnd)]
  refine Prog.not_wp_first fun P' => ?_
  rintro ⟨a, h', ws, hrun, -⟩
  simp [readDataHere, recordAt_zero] at hrun

theorem not_wp_removeFrom {value : Text} {fuel : ℕ} {now : ℕ → ℤ}
    {iter : FileIterator} {Q : Unit → File → Handle → Prop} (hr : Ready f h X)
    (hX : X ≠ []) (hall : ∀ e ∈ X, e.2 = value)
    (hiter : iter.current = headPos X f.getEnd) :
    ¬ Prog.wp (removeFrom value fuel now iter) Q f h := by
  induction X generalizing f h fuel now iter with
  | nil => exact absurd rfl hX
  | cons e X ih =>
      intro hwp
      have he : e.2 = value := hall e List.mem_cons_self
      cases fuel with
      | zero => exact not_wp_throw hwp
      | succ fuel =>
          rw [removeFrom] at hwp
          cases X with
          | nil =>
              rw [← he] at hwp
              obtain ⟨g, h₁, hr₁, hrest⟩ :=
                removeNext_cut (now 0) hr hiter (Prog.wp_bind.mp hwp)
              have hgo : (0 : ℕ) ≠ headerSize := Nat.ne_of_lt headerSize_pos
              rw [if_pos hgo] at hrest
              cases fuel with
              | zero => exact not_wp_throw hrest
              | succ fuel =>
                  rw [removeFrom] at hrest
                  exact not_wp_removeNext_zero _ (Prog.wp_bind.mp hrest)
          | cons x X =>
              have hkept : kept value [] e = [] := if_pos he
              obtain ⟨⟨it, fileEnd⟩, g, h₁, ⟨hit, rfl, hend, hset⟩, hrest⟩ :=
                Prog.wp_rest (wp_removeNext (A := []) (now 0) value hr
                  (by simp) hiter) hwp
              rw [hkept] at hset
              dsimp only at hit hrest
              have hgo : it.current ≠ f.getEnd := by
                rw [hit, headPos_cons, ← hend]
                exact (next_of_kept (A := []) (X := X) (B := [])
                  (by rw [List.append_nil]; exact hset.wellFormed)).2
              rw [if_pos hgo] at hrest
              refine ih hset.ready (List.cons_ne_nil _ _) ?_ (hend ▸ hit) hrest
              exact fun e' he' => hall e' (List.mem_cons_of_mem _ he')

end

end Wms.Jobsubmission.FileList
