import Wms.Proofs.FileRecovery

/-!
# The changes of a file container

What each operation writes, and that it turns a well-formed container with a list
into one with the list after the change. The writes are given one by one, because
a stop may come between any two of them.

An operation is begun by a handle that has read the container, that has been
left behind by another one, or that has not read anything yet. In each case it
goes on with what the file says.
-/

namespace Wms.Jobsubmission.FileContainer

open Wms.Lib

/-! ## The beginning of an operation -/

@[simp] theorem gt_self (t : TimeStamp) : t.gt t = false := by
  simp [TimeStamp.gt]

/-- Nothing is being done to the container. A truncation leaves `ft_end`. -/
def AtRest (f : File) : Prop :=
  f.status = some .closed ∨ f.status = some .ftEnd

/-- The handle knows the limits and the size. -/
structure Current (h : Handle) (L : List Entry) : Prop where
  initialized : h.initialized = true
  limits : h.limits = limitsOf L
  size : h.size = L.length

/-- The handle knows them, or will know that it has to read them. -/
def Usable (f : File) (h : Handle) (L : List Entry) : Prop :=
  h.initialized = false ∨ (∃ t, f.stamp = some t ∧ t.gt h.stamp = true) ∨
    Current h L

/-- The handle is not left behind. -/
def InStep (f : File) (h : Handle) : Prop :=
  ∃ t, f.stamp = some t ∧ t.gt h.stamp = false

/-- What an operation writes before it begins: `ft_end` is made `closed`. -/
def repairs (f : File) : List Write :=
  if f.status = some .closed then [] else [.status .closed, .status .closed]

section
variable {f : File} {h : Handle} {L : List Entry} {now : ℤ} {t : TimeStamp}

theorem checkModified_run (ht : f.stamp = some t) :
    checkModified.run f h =
      if t.gt h.stamp then ⟨.error .containerModified, h, []⟩
      else ⟨.ok (), h, []⟩ := by
  by_cases hgt : t.gt h.stamp = true
  · simp [checkModified, checkStamp, ht, hgt]
  · simp [checkModified, checkStamp, ht, hgt]

theorem removed_isSome (hw : WellFormed f L) :
    ∃ r, f.removed = some r :=
  Option.isSome_iff_exists.mp hw.complete.removed

theorem stamp_isSome (hw : WellFormed f L) : ∃ t, f.stamp = some t :=
  Option.isSome_iff_exists.mp hw.complete.stamp

theorem syncData_run (hw : WellFormed f L) (ht : f.stamp = some t)
    {r : Links} (hr : f.removed = some r) (stamp : Bool) :
    (syncData stamp).run f h =
      ⟨.ok (),
        { h with
          limits := limitsOf L, removed := r, size := L.length,
          stamp := if stamp then t else h.stamp }, []⟩ := by
  cases stamp <;>
    simp [syncData, readInitialPosition, readInitialRemoved, readSize,
      readStamp, hw.limits, hw.size, hr, ht]

theorem recover_ftEnd : (recover now .ftEnd).run f h =
    ⟨.ok (), h, [.status .closed, .status .closed]⟩ := by
  simp [recover, recoverFrom]

/-- A handle that has read everything. -/
def synced (L : List Entry) (t : TimeStamp) (r : Links) : Handle :=
  ⟨true, L.length, t, limitsOf L, r⟩

theorem current_synced (L : List Entry) (t : TimeStamp) (r : Links) :
    Current (synced L t r) L := ⟨rfl, rfl, rfl⟩

theorem initContainer_atRest (now : ℤ) (hw : WellFormed f L) (hf : AtRest f)
    (ht : f.stamp = some t) {r : Links} (hr : f.removed = some r) :
    (initContainer now).run f h = ⟨.ok (), synced L t r, repairs f⟩ := by
  rcases hf with hf | hf <;>
    simp [initContainer, readStamp, readInitialPosition, readInitialRemoved,
      readSize, readFileStatus, hw.limits, hw.size, hr, ht, hf, repairs,
      recover_ftEnd, synced]

theorem current_of_usable (hh : Usable f h L) (hinit : h.initialized = true)
    (ht : f.stamp = some t) (hgt : t.gt h.stamp = false) : Current h L := by
  rcases hh with hno | ⟨t', ht', hgt'⟩ | hcur
  · rw [hinit] at hno
    cases hno
  · rw [ht, Option.some.injEq] at ht'
    rw [← ht', hgt] at hgt'
    cases hgt'
  · exact hcur

/-- The handle has not been left behind. -/
theorem checkStreamAndStamp_inStep (now : ℤ) (hf : AtRest f)
    (hinit : h.initialized = true) (ht : f.stamp = some t)
    (hgt : t.gt h.stamp = false) :
    (checkStreamAndStamp now).run f h = ⟨.ok (), h, repairs f⟩ := by
  rcases hf with hf | hf
  · simp [checkStreamAndStamp, checkStream, readFileStatus, hf,
      checkModified_run ht, hgt, repairs]
  · have hafter : ((f.apply (.status .closed)).apply (.status .closed)).stamp =
        some t := ht
    simp [checkStreamAndStamp, checkStream, readFileStatus, hf, recoverData,
      hinit, orSync, checkModified_run ht, hgt, recover_ftEnd, repairs,
      checkModified_run hafter]

/-- The handle has been left behind, and nothing is to be repaired. -/
theorem checkStreamAndStamp_behind (now : ℤ) (hf : f.status = some .closed)
    (ht : f.stamp = some t) (hgt : t.gt h.stamp = true) :
    (checkStreamAndStamp now).run f h = ⟨.error .containerModified, h, []⟩ := by
  simp [checkStreamAndStamp, checkStream, readFileStatus, hf,
    checkModified_run ht, hgt]

/-- Either the check goes through, with what it repairs, or it finds the
container modified and leaves it to the operation. -/
theorem checkStreamAndStamp_atRest (now : ℤ) (hw : WellFormed f L)
    (hf : AtRest f) (hh : Usable f h L) (hinit : h.initialized = true) :
    (∃ h', (checkStreamAndStamp now).run f h = ⟨.ok (), h', repairs f⟩ ∧
        Current h' L ∧ InStep f h') ∨
      (checkStreamAndStamp now).run f h =
          ⟨.error .containerModified, h, []⟩ ∧ f.status = some .closed := by
  obtain ⟨t, ht⟩ := stamp_isSome hw
  obtain ⟨r, hr⟩ := removed_isSome hw
  cases hgt : t.gt h.stamp with
  | false =>
      exact .inl ⟨h, checkStreamAndStamp_inStep now hf hinit ht hgt,
        current_of_usable hh hinit ht hgt, t, ht, hgt⟩
  | true =>
      rcases hf with hf | hf
      · exact .inr ⟨checkStreamAndStamp_behind now hf ht hgt, hf⟩
      · have hafter : ((f.apply (.status .closed)).apply
            (.status .closed)).stamp = some t := ht
        refine .inl ⟨{ synced L t r with initialized := h.initialized }, ?_,
          ⟨hinit, rfl, rfl⟩, t, ht, gt_self t⟩
        simp [checkStreamAndStamp, checkStream, readFileStatus, hf, recoverData,
          hinit, orSync, checkModified_run ht, hgt, syncData_run hw ht hr,
          recover_ftEnd, repairs, checkModified_run hafter, synced]

/-- An operation that only reads is in step when it has begun. -/
theorem begin_run (now : ℤ) (hw : WellFormed f L) (hf : AtRest f)
    (hh : Usable f h L) (stamp : Bool) :
    ∃ h', (begin_ now stamp).run f h = ⟨.ok (), h', repairs f⟩ ∧
      Current h' L ∧ (stamp = true → InStep f h') := by
  obtain ⟨t, ht⟩ := stamp_isSome hw
  obtain ⟨r, hr⟩ := removed_isSome hw
  cases hinit : h.initialized with
  | false =>
      refine ⟨synced L t r, ?_, current_synced L t r, fun _ => ?_⟩
      · simp [begin_, hinit, initContainer_atRest now hw hf ht hr]
      · exact ⟨t, ht, gt_self t⟩
  | true =>
      rcases checkStreamAndStamp_atRest now hw hf hh hinit with
        ⟨h', hrun, hcur, hstep⟩ | ⟨hrun, hclosed⟩
      · exact ⟨h', by simp [begin_, hinit, orSync, hrun], hcur, fun _ => hstep⟩
      · refine ⟨{ h with
            limits := limitsOf L, removed := r, size := L.length,
            stamp := if stamp then t else h.stamp }, ?_, ⟨hinit, rfl, rfl⟩, ?_⟩
        · simp [begin_, hinit, orSync, hrun, syncData_run hw ht hr, repairs,
            hclosed]
        · rintro rfl
          exact ⟨t, ht, gt_self t⟩

theorem beginAt_run (now : ℤ) (hw : WellFormed f L) (hf : AtRest f)
    (hh : Usable f h L) (stamp : Bool) :
    ∃ h', (beginAt now stamp).run f h = ⟨.ok f.getEnd, h', repairs f⟩ ∧
      Current h' L ∧ (stamp = true → InStep f h') := by
  obtain ⟨t, ht⟩ := stamp_isSome hw
  obtain ⟨r, hr⟩ := removed_isSome hw
  cases hinit : h.initialized with
  | false =>
      refine ⟨synced L t r, ?_, current_synced L t r, fun _ => ?_⟩
      · simp [beginAt, hinit, initContainer_atRest now hw hf ht hr]
      · exact ⟨t, ht, gt_self t⟩
  | true =>
      rcases checkStreamAndStamp_atRest now hw hf hh hinit with
        ⟨h', hrun, hcur, hstep⟩ | ⟨hrun, hclosed⟩
      · exact ⟨h', by simp [beginAt, hinit, hrun], hcur, fun _ => hstep⟩
      · refine ⟨{ h with
            limits := limitsOf L, removed := r, size := L.length,
            stamp := if stamp then t else h.stamp }, ?_, ⟨hinit, rfl, rfl⟩, ?_⟩
        · simp [beginAt, hinit, hrun, syncData_run hw ht hr, repairs, hclosed]
        · rintro rfl
          exact ⟨t, ht, gt_self t⟩

/-- The stamp and the status that follow. -/
theorem updateTimeStamp_run (now : ℤ) (ht : f.stamp = some t) :
    (updateTimeStamp now).run f h =
      ⟨.ok (), { h with stamp := h.stamp.updateStamp now t },
        [.stamp (h.stamp.updateStamp now t)]⟩ := by
  simp [updateTimeStamp, ht]

end

/-! ## Insertion -/

section
variable {f : File} {h : Handle} {data : Text} {p q : ℕ} {r s : Record}

/-- The record that is written, with what it is told of its neighbours. -/
def newRecord (prev next previous last : ℕ) (data : Text) : Record :=
  ⟨⟨prev, next⟩, data, true, ⟨previous, last⟩⟩

/-- Where the file ends when the record is in it. -/
def endWith (f : File) (data : Text) : ℕ :=
  f.getEnd + calculateDataSize data.length

/-- The writes of an addition to an empty container. -/
def logAtEmpty (f : File) (data : Text) (limits : Links) : List Write :=
  [.limitsBackup limits, .status .aeLimits,
    .limits ⟨limits.prev, f.getEnd⟩, .status .aeWriting,
    .append (newRecord 0 (endWith f data) f.getEnd (endWith f data) data),
    .status .aeWritten]

/-- The writes of an addition at the end. -/
def logAtEnd (f : File) (data : Text) (limits : Links) (p : ℕ) (l : Links) :
    List Write :=
  [.iteratorBackup 0 ⟨l.prev, l.next, p⟩, .status .aeIterator,
    .iterator p ⟨l.prev, f.getEnd⟩, .limitsBackup limits, .status .aeLimits,
    .limits ⟨limits.prev, f.getEnd⟩, .status .aeWriting,
    .append (newRecord p (endWith f data) p (endWith f data) data),
    .status .aeWritten]

/-- The writes of an addition at the beginning. -/
def logAtBegin (f : File) (data : Text) (limits : Links) (p : ℕ) (l : Links)
    (q : ℕ) (m : Links) : List Write :=
  [.iteratorBackup 0 ⟨l.prev, l.next, p⟩, .status .abIterator,
    .iterator p ⟨f.getEnd, l.next⟩, .limitsBackup limits, .status .abLimits,
    .limits ⟨f.getEnd, limits.next⟩, .status .abWriting,
    .append (newRecord 0 p q (endWith f data) data), .status .abWritten,
    .iteratorBackup 2 ⟨m.prev, m.next, q⟩, .status .abLast,
    .iterator q ⟨m.prev, endWith f data⟩]

/-- The writes of an addition in the middle. -/
def logInMiddle (f : File) (data : Text) (where_ : ℕ) (l : Links) (b : ℕ)
    (k : Links) (q : ℕ) (m : Links) : List Write :=
  [.iteratorBackup 0 ⟨l.prev, l.next, where_⟩, .status .amIterator1,
    .iteratorBackup 1 ⟨k.prev, k.next, b⟩, .status .amIterator2,
    .iterator where_ ⟨f.getEnd, l.next⟩, .iterator b ⟨k.prev, f.getEnd⟩,
    .status .amWriting,
    .append (newRecord b where_ q (endWith f data) data), .status .amWritten,
    .iteratorBackup 2 ⟨m.prev, m.next, q⟩, .status .amLast,
    .iterator q ⟨m.prev, endWith f data⟩]

theorem addDataAtEnd_empty (hd : data ≠ []) (hlim : h.limits.next = f.getEnd) :
    (addDataAtEnd data f.getEnd).run f h =
      ⟨.ok ⟨0, endWith f data, f.getEnd⟩,
        { h with limits := ⟨h.limits.prev, f.getEnd⟩ },
        logAtEmpty f data h.limits⟩ := by
  have hpos : 0 < data.length := List.length_pos_iff.mpr hd
  simp [addDataAtEnd, linkLast, hlim, writeDataHere, hpos, FileStatus.written,
    logAtEmpty, newRecord, endWith]

theorem addDataAtEnd_run (hd : data ≠ []) (hlim : h.limits.next = p)
    (hr : f.recordAt p = some r) :
    (addDataAtEnd data f.getEnd).run f h =
      ⟨.ok ⟨p, endWith f data, f.getEnd⟩,
        { h with limits := ⟨h.limits.prev, f.getEnd⟩ },
        logAtEnd f data h.limits p r.links⟩ := by
  have hne : p ≠ f.getEnd := Nat.ne_of_lt (recordAt_some hr).2
  have hpos : 0 < data.length := List.length_pos_iff.mpr hd
  subst hlim
  simp [addDataAtEnd, linkLast, hne, readIterator_run, hr, writeIterator_run,
    writeDataHere, hpos, FileStatus.written, logAtEnd, newRecord, endWith]

/-- The last record is read after the first one was changed; they may be the
same. -/
theorem addDataAtBegin_run (hd : data ≠ []) (hlim : h.limits = ⟨p, q⟩)
    (hr : f.recordAt p = some r) (hs : f.recordAt q = some s) :
    (addDataAtBegin data f.getEnd).run f h =
      ⟨.ok ⟨0, p, f.getEnd⟩, { h with limits := ⟨f.getEnd, q⟩ },
        logAtBegin f data h.limits p r.links q
          ⟨if q = p then f.getEnd else s.links.prev, s.links.next⟩⟩ := by
  have hne : p ≠ f.getEnd := Nat.ne_of_lt (recordAt_some hr).2
  have hne' : q ≠ f.getEnd := Nat.ne_of_lt (recordAt_some hs).2
  have hpos : 0 < data.length := List.length_pos_iff.mpr hd
  by_cases hqp : q = p
  · subst hqp
    obtain rfl : r = s := by simpa [hr] using hs
    simp [addDataAtBegin, hne, readIterator_run, hr, hlim, writeIterator_run,
      writeDataHere, hpos, FileStatus.written, resetNextOfLast, logAtBegin,
      newRecord, endWith]
  · simp [addDataAtBegin, hne', hqp, readIterator_run, hr, hs, hlim,
      writeIterator_run, writeDataHere, hpos, FileStatus.written,
      resetNextOfLast, logAtBegin, newRecord, endWith]

theorem addDataInMiddle_run {where_ b : ℕ} {k : Record} (hd : data ≠ [])
    (hlim : h.limits.next = q) (hr : f.recordAt where_ = some r)
    (hb : r.links.prev = b) (hk : f.recordAt b = some k)
    (hs : f.recordAt q = some s) (hbw : b ≠ where_) (hqb : q ≠ b) :
    (addDataInMiddle data where_ f.getEnd).run f h =
      ⟨.ok ⟨b, where_, f.getEnd⟩, h,
        logInMiddle f data where_ r.links b k.links q
          ⟨if q = where_ then f.getEnd else s.links.prev, s.links.next⟩⟩ := by
  have hne : where_ ≠ f.getEnd := Nat.ne_of_lt (recordAt_some hr).2
  have hne' : q ≠ f.getEnd := Nat.ne_of_lt (recordAt_some hs).2
  have hpos : 0 < data.length := List.length_pos_iff.mpr hd
  subst hlim hb
  by_cases hqp : h.limits.next = where_
  · subst hqp
    obtain rfl : r = s := by simpa [hr] using hs
    simp [addDataInMiddle, hne, readIterator_run, hr, hk, writeIterator_run,
      writeDataHere, hpos, FileStatus.written, resetNextOfLast, logInMiddle,
      newRecord, endWith, hbw, hqb]
  · simp [addDataInMiddle, hne', hqp, readIterator_run, hr, hs, hk,
      writeIterator_run, writeDataHere, hpos, FileStatus.written,
      resetNextOfLast, logInMiddle, newRecord, endWith, hbw, hqb]

end

/-! The list after the writes. -/

section
variable {f : File} {data : Text} {A B C : List Entry} {b p q w : ℕ}
  {c d e : Text}

/-- The first record of a list in an empty file. -/
theorem sound_logAtEmpty (hs : Sound f []) (hd : data ≠ []) :
    Sound (Store.applyAll f (logAtEmpty f data (limitsOf [])))
      [(f.getEnd, data)] := by
  let log := logAtEmpty f data (limitsOf [])
  have hend : f.getEnd = headerSize := by
    rw [File.getEnd, hs.bare rfl, Nat.add_zero]
  have h₀ := chain_nil hs.complete f.getEnd (endWith f data)
  have h₁ := chain_headers (log.take 4) (by simp [log, logAtEmpty, Write.Header])
    h₀
  have h₂ := chain_header (.status .aeWritten) trivial
    (chain_cons_appended 0 ⟨f.getEnd, endWith f data⟩ hd h₁)
  have hfinal : (Store.applyAll f log).getEnd = endWith f data := by
    simp [log, logAtEmpty, endWith, newRecord]
  refine ⟨?_, ?_, by simp⟩
  · rw [hfinal]
    exact h₂
  · simp [logAtEmpty, limitsOf, hend, File.apply]

theorem sound_logAtEnd (hs : Sound f (A ++ [(p, d)])) (hd : data ≠ []) :
    Sound (Store.applyAll f (logAtEnd f data (limitsOf (A ++ [(p, d)])) p
      ⟨lastPos 0 A, f.getEnd⟩)) (A ++ [(p, d)] ++ [(f.getEnd, data)]) := by
  let log := logAtEnd f data (limitsOf (A ++ [(p, d)])) p
    ⟨lastPos 0 A, f.getEnd⟩
  have h₁ := chain_headers (log.take 2) (by simp [log, logAtEnd, Write.Header])
    hs.toChain
  have h₂ := chain_setNext f.getEnd h₁
  have h₃ := chain_headers ((log.drop 3).take 4)
    (by simp [log, logAtEnd, Write.Header]) h₂
  have h₄ := chain_insert (B := []) ⟨p, endWith f data⟩ hd h₃
    (chain_nil h₃.complete _ (endWith f data)) (by simpa using h₃.nodup)
  have h₅ := chain_header (.status .aeWritten) trivial h₄
  have hfinal : (Store.applyAll f log).getEnd = endWith f data := by
    simp [log, logAtEnd, endWith, newRecord]
  refine ⟨?_, ?_, by simp⟩
  · rw [hfinal]
    simpa [newRecord, log, logAtEnd] using h₅
  · simp [logAtEnd, limitsOf, File.apply]

/-- `B` is the list behind its first record and `C` the list before its last. -/
theorem sound_logAtBegin (hs : Sound f ((p, c) :: B))
    (hsplit : (p, c) :: B = C ++ [(q, d)]) (hd : data ≠ []) :
    Sound (Store.applyAll f (logAtBegin f data (limitsOf ((p, c) :: B)) p
        ⟨0, headPos B f.getEnd⟩ q ⟨lastPos f.getEnd C, f.getEnd⟩))
      ((f.getEnd, data) :: (p, c) :: B) := by
  let log := logAtBegin f data (limitsOf ((p, c) :: B)) p
    ⟨0, headPos B f.getEnd⟩ q ⟨lastPos f.getEnd C, f.getEnd⟩
  have h₁ := chain_headers (log.take 2)
    (by simp [log, logAtBegin, Write.Header]) hs.toChain
  have h₂ := chain_setPrev f.getEnd h₁
  have h₃ := chain_headers ((log.drop 3).take 4)
    (by simp [log, logAtBegin, Write.Header]) h₂
  have h₄ := chain_cons_appended 0 ⟨q, endWith f data⟩ hd h₃
  have h₅ := chain_headers ((log.drop 8).take 3)
    (by simp [log, logAtBegin, Write.Header]) h₄
  have hsplit' : (f.getEnd, data) :: (p, c) :: B =
      ((f.getEnd, data) :: C) ++ [(q, d)] := by
    rw [hsplit, List.cons_append]
  have hend : (Store.applyAll ((Store.applyAll f (log.take 2)).apply
      (.iterator p ⟨f.getEnd, headPos B f.getEnd⟩))
        ((log.drop 3).take 4)).getEnd = f.getEnd := by
    simp [log, logAtBegin]
  rw [hend, hsplit'] at h₅
  have h₆ := chain_setNext (endWith f data) h₅
  have hfinal : (Store.applyAll f log).getEnd = endWith f data := by
    simp [log, logAtBegin, endWith, newRecord]
  refine ⟨?_, ?_, by simp⟩
  · rw [hfinal, hsplit']
    simpa [newRecord, log, logAtBegin] using h₆
  · simp [logAtBegin, limitsOf, File.apply]

/-- The new record goes between `b` and `w`. -/
theorem sound_logInMiddle (hs : Sound f (A ++ [(b, e)] ++ (w, c) :: B))
    (hsplit : (w, c) :: B = C ++ [(q, d)]) (hd : data ≠ []) :
    Sound (Store.applyAll f (logInMiddle f data w ⟨b, headPos B f.getEnd⟩ b
        ⟨lastPos 0 A, w⟩ q ⟨lastPos f.getEnd C, f.getEnd⟩))
      (A ++ [(b, e)] ++ (f.getEnd, data) :: (w, c) :: B) := by
  let log := logInMiddle f data w ⟨b, headPos B f.getEnd⟩ b ⟨lastPos 0 A, w⟩ q
    ⟨lastPos f.getEnd C, f.getEnd⟩
  have hnodup := hs.nodup
  have hdisj := hnodup
  rw [positions, List.map_append, List.nodup_append] at hdisj
  have hb : b ∉ positions ((w, c) :: B) :=
    fun hmem => hdisj.2.2 b (by simp) b hmem rfl
  have hw : w ∉ positions (A ++ [(b, e)]) :=
    fun hmem => hdisj.2.2 w hmem w (by simp) rfl
  have hfields : ∀ v ∈ log.take 4, v.Header := by
    simp [log, logInMiddle, Write.Header]
  obtain ⟨hA₀, hB₀⟩ := chain_split hs.toChain
  have hA₁ := chain_headers (log.take 4) hfields hA₀
  have hB₁ := chain_headers (log.take 4) hfields hB₀
  have hA₂ := chain_iterator_of_notMem hw ⟨f.getEnd, headPos B f.getEnd⟩ hA₁
  have hB₂ := chain_setPrev f.getEnd hB₁
  have hA₃ := chain_setNext f.getEnd hA₂
  have hB₃ := chain_iterator_of_notMem hb ⟨lastPos 0 A, f.getEnd⟩ hB₂
  have hA₄ := chain_header (.status .amWriting) trivial hA₃
  have hB₄ := chain_header (.status .amWriting) trivial hB₃
  have h₅ := chain_insert ⟨q, endWith f data⟩ hd hA₄ hB₄ hnodup
  have h₆ := chain_headers ((log.drop 8).take 3)
    (by simp [log, logInMiddle, Write.Header]) h₅
  have hsplit' : A ++ [(b, e)] ++ (f.getEnd, data) :: (w, c) :: B =
      (A ++ [(b, e)] ++ (f.getEnd, data) :: C) ++ [(q, d)] := by
    rw [hsplit]
    simp
  have hend : ((((Store.applyAll f (log.take 4)).apply
      (.iterator w ⟨f.getEnd, headPos B f.getEnd⟩)).apply
        (.iterator b ⟨lastPos 0 A, f.getEnd⟩)).apply
          (.status .amWriting)).getEnd = f.getEnd := by
    simp [log, logInMiddle]
  rw [hend, hsplit'] at h₆
  have h₇ := chain_setNext (endWith f data) h₆
  have hfinal : (Store.applyAll f log).getEnd = endWith f data := by
    simp [log, logInMiddle, endWith, newRecord]
  refine ⟨?_, ?_, by simp⟩
  · rw [hfinal, hsplit']
    simpa [newRecord, log, logInMiddle] using h₇
  · have hlim := hs.limits
    simp only [limitsOf, headPos_append, lastPos_append, headPos_cons,
      lastPos_cons, lastPos_nil] at hlim
    simpa [logInMiddle, limitsOf, File.apply] using hlim

end

/-! The whole insertion. -/

/-- The list with an entry before the one at `where_`, or at its end. -/
def insertBefore (where_ : ℕ) (x : Entry) : List Entry → List Entry
  | [] => [x]
  | e :: L => if e.1 = where_ then x :: e :: L else e :: insertBefore where_ x L

theorem insertBefore_of_notMem {w : ℕ} {x : Entry} {L : List Entry}
    (hw : w ∉ positions L) : insertBefore w x L = L ++ [x] := by
  induction L with
  | nil => rfl
  | cons e L ih =>
      rw [positions, List.map_cons, List.mem_cons, not_or] at hw
      rw [insertBefore, if_neg (Ne.symm hw.1), ih hw.2, List.cons_append]

theorem insertBefore_append {w : ℕ} {x : Entry} {c : Text} {A B : List Entry}
    (hw : w ∉ positions A) :
    insertBefore w x (A ++ (w, c) :: B) = A ++ x :: (w, c) :: B := by
  induction A with
  | nil => rw [List.nil_append, insertBefore, if_pos rfl, List.nil_append]
  | cons e A ih =>
      rw [positions, List.map_cons, List.mem_cons, not_or] at hw
      rw [List.cons_append, insertBefore, if_neg (Ne.symm hw.1), ih hw.2,
        List.cons_append]

/-- The three forms of an insertion, with the list before and after it and the
writes. -/
inductive Insertion (f : File) (data : Text) :
    ℕ → List Entry → List Entry → List Write → Prop where
  | atEmpty : Insertion f data f.getEnd [] [(f.getEnd, data)]
      (logAtEmpty f data (limitsOf []))
  | atEnd (A : List Entry) (p : ℕ) (d : Text) :
      Insertion f data f.getEnd (A ++ [(p, d)])
        (A ++ [(p, d)] ++ [(f.getEnd, data)])
        (logAtEnd f data (limitsOf (A ++ [(p, d)])) p ⟨lastPos 0 A, f.getEnd⟩)
  | atBegin (p : ℕ) (c : Text) (B C : List Entry) (q : ℕ) (d : Text)
      (hsplit : (p, c) :: B = C ++ [(q, d)]) :
      Insertion f data p ((p, c) :: B) ((f.getEnd, data) :: (p, c) :: B)
        (logAtBegin f data (limitsOf ((p, c) :: B)) p ⟨0, headPos B f.getEnd⟩ q
          ⟨lastPos f.getEnd C, f.getEnd⟩)
  | inMiddle (A : List Entry) (b : ℕ) (e : Text) (w : ℕ) (c : Text)
      (B C : List Entry) (q : ℕ) (d : Text)
      (hsplit : (w, c) :: B = C ++ [(q, d)]) :
      Insertion f data w (A ++ [(b, e)] ++ (w, c) :: B)
        (A ++ [(b, e)] ++ (f.getEnd, data) :: (w, c) :: B)
        (logInMiddle f data w ⟨b, headPos B f.getEnd⟩ b ⟨lastPos 0 A, w⟩ q
          ⟨lastPos f.getEnd C, f.getEnd⟩)

theorem Insertion.sound {f : File} {data : Text} {w : ℕ} {L L' : List Entry}
    {log : List Write} (hi : Insertion f data w L L' log) (hs : Sound f L)
    (hd : data ≠ []) : Sound (Store.applyAll f log) L' := by
  cases hi with
  | atEmpty => exact sound_logAtEmpty hs hd
  | atEnd => exact sound_logAtEnd hs hd
  | atBegin _ _ _ _ _ _ hsplit => exact sound_logAtBegin hs hsplit hd
  | inMiddle _ _ _ _ _ _ _ _ _ hsplit => exact sound_logInMiddle hs hsplit hd

theorem Insertion.eq_insertBefore {f : File} {data : Text} {w : ℕ}
    {L L' : List Entry} {log : List Write} (hi : Insertion f data w L L' log)
    (hs : Sound f L) : L' = insertBefore w (f.getEnd, data) L := by
  have hend : f.getEnd ∉ positions L := fun hmem =>
    Nat.lt_irrefl _ (linked_bounds hs.linked hmem).2
  cases hi with
  | atEmpty => rfl
  | atEnd => rw [insertBefore_of_notMem hend]
  | atBegin p c B C q d hsplit => rw [insertBefore, if_pos rfl]
  | inMiddle A b e w c B C q d hsplit =>
      have hnodup := hs.nodup
      rw [positions, List.map_append, List.nodup_append] at hnodup
      rw [insertBefore_append]
      exact fun hmem => hnodup.2.2 w hmem w (by simp) rfl

theorem Insertion.length {f : File} {data : Text} {w : ℕ} {L L' : List Entry}
    {log : List Write} (hi : Insertion f data w L L' log) :
    L'.length = L.length + 1 := by
  cases hi with
  | atEmpty => rfl
  | atEnd => simp
  | atBegin => simp
  | inMiddle A b e w c B =>
      simp only [List.length_append, List.length_cons, List.length_nil]
      omega

theorem linked_last {rec_ : ℕ → Option Record} {before after q : ℕ}
    {C : List Entry} {d : Text}
    (hL : Linked rec_ before (C ++ [(q, d)]) after) :
    ∃ lit, rec_ q = some ⟨⟨lastPos before C, after⟩, d, true, lit⟩ :=
  (linked_append.mp hL).2.1

/-- What the last record says of its predecessor after the first one was given
another. -/
theorem lastPos_changed (before x : ℕ) {p q : ℕ} {c d : Text}
    {B C : List Entry}
    (hsplit : (p, c) :: B = C ++ [(q, d)])
    (hnodup : (positions ((p, c) :: B)).Nodup) :
    (if q = p then x else lastPos before C) = lastPos x C := by
  cases C with
  | nil =>
      rw [List.nil_append, List.cons.injEq, Prod.mk.injEq] at hsplit
      rw [if_pos hsplit.1.1.symm, lastPos_nil]
  | cons e C =>
      rw [List.cons_append, List.cons.injEq] at hsplit
      obtain ⟨rfl, rfl⟩ := hsplit
      have hq : q ≠ p := by
        rintro rfl
        exact (List.nodup_cons.mp hnodup).1 (by simp)
      rw [if_neg hq, lastPos_cons, lastPos_cons]

section
variable {f : File} {h : Handle} {data : Text} {w p : ℕ} {L A B : List Entry}
  {c : Text}

/-- The form of an insertion that `addData` chooses, on its run. -/
def Inserts (f : File) (h : Handle) (data : Text) (w : ℕ) (L : List Entry)
    (m : FileProg FileIterator) : Prop :=
  ∃ L' log it, Insertion f data w L L' log ∧ it.current = f.getEnd ∧
    m.run f h = ⟨.ok it, { h with limits := limitsOf L' }, log⟩

theorem inserts_atEnd (hs : Sound f L) (hlim : h.limits = limitsOf L)
    (hd : data ≠ []) :
    Inserts f h data f.getEnd L (addDataAtEnd data f.getEnd) := by
  rcases List.eq_nil_or_concat' L with rfl | ⟨A, ⟨p, d⟩, rfl⟩
  · have hbare : f.getEnd = headerSize := by
      rw [File.getEnd, hs.bare rfl, Nat.add_zero]
    have hnext : h.limits.next = f.getEnd := by
      rw [hlim, hbare]
      rfl
    refine ⟨_, _, ⟨0, endWith f data, f.getEnd⟩, .atEmpty, rfl, ?_⟩
    rw [addDataAtEnd_empty hd hnext, hlim]
    simp [limitsOf, hbare]
  · have hnext : h.limits.next = p := by simp [hlim, limitsOf]
    obtain ⟨lit, hr⟩ := linked_last hs.linked
    refine ⟨_, _, ⟨p, endWith f data, f.getEnd⟩, .atEnd A p d, rfl, ?_⟩
    rw [addDataAtEnd_run hd hnext hr, hlim]
    simp [limitsOf]

theorem inserts_atBegin (hs : Sound f ((p, c) :: B))
    (hlim : h.limits = limitsOf ((p, c) :: B)) (hd : data ≠ []) :
    Inserts f h data p ((p, c) :: B) (addDataAtBegin data f.getEnd) := by
  obtain ⟨C, ⟨q, d⟩, hsplit⟩ := (List.eq_nil_or_concat'
    ((p, c) :: B)).resolve_left (List.cons_ne_nil _ _)
  obtain ⟨⟨lit, hr⟩, -⟩ := hs.linked
  obtain ⟨lit', hq⟩ := linked_last (hsplit ▸ hs.linked)
  have hlim' : h.limits = ⟨p, q⟩ := by
    rw [hlim, hsplit]
    simp only [limitsOf, lastPos_append, lastPos_cons, lastPos_nil]
    rw [← hsplit, headPos_cons]
  have hlast := lastPos_changed 0 f.getEnd hsplit hs.nodup
  have hlq : lastPos p B = q := congrArg Links.next (hlim.symm.trans hlim')
  refine ⟨_, _, ⟨0, p, f.getEnd⟩, .atBegin p c B C q d hsplit, rfl, ?_⟩
  rw [addDataAtBegin_run hd hlim' hr hq, hlast]
  simp [limitsOf, hlim', hlq]

theorem inserts_inMiddle {b : ℕ} {e : Text}
    (hs : Sound f (A ++ [(b, e)] ++ (w, c) :: B))
    (hlim : h.limits = limitsOf (A ++ [(b, e)] ++ (w, c) :: B))
    (hd : data ≠ []) :
    Inserts f h data w (A ++ [(b, e)] ++ (w, c) :: B)
      (addDataInMiddle data w f.getEnd) := by
  have hnodup := hs.nodup
  rw [positions, List.map_append, List.nodup_append] at hnodup
  obtain ⟨C, ⟨q, d⟩, hsplit⟩ := (List.eq_nil_or_concat'
    ((w, c) :: B)).resolve_left (List.cons_ne_nil _ _)
  obtain ⟨hl, hr⟩ := linked_append.mp hs.linked
  obtain ⟨lit₁, hb⟩ := linked_last hl
  obtain ⟨lit₃, hq⟩ := linked_last (hsplit ▸ hr)
  obtain ⟨⟨lit₂, hw⟩, -⟩ := hr
  simp only [lastPos_append, lastPos_cons, lastPos_nil] at hw hq
  have hbw : b ≠ w := hnodup.2.2 b (by simp) w (by simp)
  have hqb : q ≠ b := by
    refine (hnodup.2.2 b (by simp) q ?_).symm
    rw [hsplit]
    simp
  have hnext : h.limits.next = q := by
    rw [hlim, hsplit]
    simp [limitsOf]
  have hlast := lastPos_changed b f.getEnd hsplit hnodup.2.1
  have hsame : limitsOf (A ++ [(b, e)] ++ (f.getEnd, data) :: (w, c) :: B) =
      h.limits := by
    rw [hlim]
    simp [limitsOf]
  refine ⟨_, _, ⟨b, w, f.getEnd⟩, .inMiddle A b e w c B C q d hsplit, rfl, ?_⟩
  rw [addDataInMiddle_run hd hnext hw rfl hb hq hbw hqb, hlast, hsame]
  rfl

/-- The form is the right one for the place. -/
theorem inserts (hs : Sound f L) (hlim : h.limits = limitsOf L)
    (hd : data ≠ []) (hw : w = f.getEnd ∨ w ∈ positions L) :
    Inserts f h data w L (addDataAt data w f.getEnd) := by
  rw [Inserts]
  simp only [addDataAt, Prog.bind_run, Prog.priv_run, Prog.resume_ok,
    Store.applyAll_nil, Prog.after_nil]
  by_cases hend : w = f.getEnd
  · subst hend
    simp only [if_pos]
    exact inserts_atEnd hs hlim hd
  · simp only [if_neg hend]
    obtain ⟨⟨w', c⟩, he, rfl⟩ := List.mem_map.mp (hw.resolve_left hend)
    obtain ⟨A, B, rfl⟩ := List.append_of_mem he
    rcases List.eq_nil_or_concat' A with rfl | ⟨A, ⟨b, e⟩, rfl⟩
    · have hprev : w' = h.limits.prev := by
        rw [hlim]
        rfl
      simp only [if_pos hprev]
      exact inserts_atBegin hs hlim hd
    · have hprev : w' ≠ h.limits.prev := by
        have hnodup := hs.nodup
        rw [positions, List.map_append, List.nodup_append] at hnodup
        have hfirst : headPos (A ++ [(b, e)]) w' ∈ positions (A ++ [(b, e)]) := by
          cases A <;> exact List.mem_cons_self
        rw [hlim, limitsOf, headPos_append]
        exact (hnodup.2.2 _ hfirst w' (by simp)).symm
      simp only [if_neg hprev]
      exact inserts_inMiddle hs hlim hd

/-- What an operation writes around its change. -/
def opening (f : File) (t : TimeStamp) : List Write :=
  repairs f ++ [.stamp t, .status .opened]

/-- The writes that end each change. -/
def closing (status : FileStatus) (n : ℕ) : List Write :=
  [.emptyBackup, .status status, .size n, .status .closed]

theorem opening_aside (f : File) (t : TimeStamp) :
    ∀ w ∈ opening f t, w.Aside := by
  intro w hw
  rw [opening, repairs] at hw
  split at hw <;> simp at hw <;> rcases hw with rfl | rfl | rfl <;> trivial

theorem closing_aside (status : FileStatus) (n : ℕ) :
    ∀ w ∈ closing status n, w.Aside := by
  intro w hw
  simp only [closing, List.mem_cons, List.not_mem_nil, or_false] at hw
  rcases hw with rfl | rfl | rfl | rfl <;> trivial

theorem addData_run (now : ℤ) (hw : WellFormed f L) (hf : AtRest f)
    (hh : Usable f h L) (hd : data ≠ [])
    (hwhere : w = f.getEnd ∨ w ∈ positions L) :
    ∃ t g L' log it h', g = Store.applyAll f (opening f t) ∧
      Insertion g data w L L' log ∧ it.current = f.getEnd ∧
      Current h' L' ∧ h'.stamp = t ∧
      (addData now data w).run f h =
        ⟨.ok it, h',
          opening f t ++ log ++ closing .adEmpty (L.length + 1)⟩ := by
  obtain ⟨h₁, hrun, hcur, -⟩ := beginAt_run now hw hf hh false
  obtain ⟨t, ht⟩ := stamp_isSome hw
  have ht' : (Store.applyAll f (repairs f)).stamp = some t := by
    rw [repairs]
    split <;> exact ht
  obtain ⟨t', hstamp⟩ : ∃ t', h₁.stamp.updateStamp now t = t' := ⟨_, rfl⟩
  obtain ⟨g, hopen⟩ : ∃ g, Store.applyAll f (opening f t') = g := ⟨_, rfl⟩
  have hs : Sound g L :=
    hopen ▸ sound_asides hw.toSound (opening_aside f t')
  have hg : ((Store.applyAll f (repairs f)).apply (.stamp t')).apply
      (.status .opened) = g := by
    simp [← hopen, opening]
  have hend : g.getEnd = f.getEnd := by
    rw [← hg, getEnd_status, getEnd_stamp, repairs]
    split <;> rfl
  obtain ⟨L', log, it, hi, hit, hins⟩ :=
    inserts (h := { h₁ with stamp := t' }) hs hcur.limits hd (hend ▸ hwhere)
  refine ⟨t', g, L', log, it, { h₁ with
    stamp := t', limits := limitsOf L', size := L'.length }, hopen.symm, hi,
    hit.trans hend, ⟨hcur.initialized, rfl, rfl⟩, rfl, ?_⟩
  rw [hend] at hins
  simp [addData, hrun, updateTimeStamp_run now ht', hstamp, hg, hins, opening,
    closing]
  simp [hcur.size, hi.length]

end

end Wms.Jobsubmission.FileContainer
