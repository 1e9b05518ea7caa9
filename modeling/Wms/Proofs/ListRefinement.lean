import Wms.Proofs.ListOperations

/-!
# The list over a file container and a list

The operations on a list in memory, and which of those on the file do the same.
Three do not always: an empty text is refused, a list that another handle has
changed is not cleared, and a loop that erases the last record that is left goes
on from it and ends with an exception.
-/

namespace Wms.Jobsubmission.FileList

open Wms.Lib FileContainer

/-! ## The operations of a list -/

/-- Positions are counted, and the end is the number of elements. -/
inductive ListOp where
  | pushFront (x : Text)
  | pushBack (x : Text)
  | popFront
  | popBack
  | insert (i : ℕ) (x : Text)
  | insertRange (i : ℕ) (xs : List Text)
  | erase (i : ℕ)
  | eraseRange (i j : ℕ)
  | remove (x : Text)
  | clear
  deriving DecidableEq, Repr

namespace ListOp

/-- The positions are in the list, and what is dereferenced is there. -/
def Valid (n : ℕ) : ListOp → Prop
  | .pushFront _ | .pushBack _ | .clear => True
  | .popFront | .popBack | .remove _ => 0 < n
  | .insert i _ | .insertRange i _ => i ≤ n
  | .erase i => i < n
  | .eraseRange i j => i < j ∧ j ≤ n

instance (n : ℕ) (op : ListOp) : Decidable (op.Valid n) := by
  cases op <;> unfold Valid <;> infer_instance

def onList (ds : List Text) : ListOp → List Text
  | .pushFront x => x :: ds
  | .pushBack x => ds ++ [x]
  | .popFront => ds.tail
  | .popBack => ds.dropLast
  | .insert i x => ds.take i ++ x :: ds.drop i
  | .insertRange i xs => ds.take i ++ xs ++ ds.drop i
  | .erase i => ds.take i ++ ds.drop (i + 1)
  | .eraseRange i j => ds.take i ++ ds.drop j
  | .remove x => ds.filter fun d => d ≠ x
  | .clear => []

/-- The place of the iterator that is returned, in the list afterwards. -/
def returned : ListOp → Option ℕ
  | .insert i _ | .erase i | .eraseRange i _ => some i
  | _ => none

/-- The call, with the position in the file for each place. -/
def call (now : ℕ → ℤ) (place : ℕ → ℕ) :
    ListOp → FileProg (Option BaseIterator)
  | .pushFront x => do
      FileList.pushFront (now 0) x
      pure none
  | .pushBack x => do
      FileList.pushBack (now 0) x
      pure none
  | .popFront => do
      FileList.popFront (now 0)
      pure none
  | .popBack => do
      FileList.popBack (now 0)
      pure none
  | .insert i x => do
      let it ← FileList.insert (now 0) (place i) x
      pure (some it)
  | .insertRange i xs => do
      FileList.insertRange now (place i) xs
      pure none
  | .erase i => do
      let it ← FileList.erase (now 0) (place i)
      pure (some it)
  | .eraseRange i j => do
      let it ← FileList.eraseRange now (place i) (place j)
      pure (some it)
  | .remove x => do
      FileList.remove now x
      pure none
  | .clear => do
      FileList.clear (now 0)
      pure none

/-- Where the file does the same. -/
def Works (f : File) (h : Handle) (ds : List Text) : ListOp → Prop
  | .pushFront x | .pushBack x | .insert _ x => x ≠ []
  | .insertRange _ xs => ∀ x ∈ xs, x ≠ []
  | .popFront | .popBack | .erase _ => True
  | .eraseRange i j => ¬ (i = 0 ∧ j = ds.length)
  | .remove x => ∃ d ∈ ds, d ≠ x
  | .clear => ¬ Behind f h

end ListOp

/-- A list and the file that holds it. -/
structure Listed where
  file : File
  handle : Handle
  list : List Entry
  ready : Ready file handle list

def Listed.data (s : Listed) : List Text := s.list.map Prod.snd

/-- The position of a place, which is the end of the file for the end. -/
def Listed.place (s : Listed) (i : ℕ) : ℕ :=
  headPos (s.list.drop i) s.file.getEnd

/-- The file holds the data, and the returned iterator is at its place. -/
def Holds (ds : List Text) (i : Option ℕ) (r : Option BaseIterator) (f : File)
    (h : Handle) : Prop :=
  ∃ L, Ready f h L ∧ L.map Prod.snd = ds ∧
    ∀ k ∈ i, ∃ it ∈ r, Denotes f (L.drop k) it

/-! ## Insertion -/

section
variable {f g : File} {h : Handle} {L A B X : List Entry} {e : Entry}
  {data : Text} {p : ℕ}

theorem insertBefore_place (hw : WellFormed f (A ++ B)) (x : Entry) :
    insertBefore (headPos B f.getEnd) x (A ++ B) = A ++ x :: B := by
  cases B with
  | nil =>
      rw [List.append_nil]
      refine insertBefore_of_notMem fun hmem => ?_
      rw [List.append_nil] at hw
      exact Nat.lt_irrefl _ (linked_bounds hw.linked hmem).2
  | cons e B =>
      exact insertBefore_append (c := e.2) (notMem_of_nodup_cons hw.nodup).1

theorem wp_insertData (now : ℤ) (hr : Ready f h (A ++ B)) (hd : data ≠ []) :
    Prog.wp (insertData now (headPos B f.getEnd) data)
      (fun it g h' => it.current = f.getEnd ∧
        Settled g h' (A ++ (f.getEnd, data) :: B)) f h := by
  have hadd := wp_addData now hr hd (headPos_mem_append A B f.getEnd)
  rwa [insertBefore_place hr.wellFormed] at hadd

theorem not_wp_insertData_bind {α : Type} {now : ℤ}
    {k : FileIterator → FileProg α} {Q : α → File → Handle → Prop} :
    ¬ Prog.wp (insertData now p [] >>= k) Q f h := by
  rw [insertData]
  exact Prog.not_wp_first fun _ => not_wp_addData now

theorem wp_pushFront (now : ℤ) (hr : Ready f h L) (hd : data ≠ []) :
    Prog.wp (pushFront now data)
      (fun _ g h' => Settled g h' ((f.getEnd, data) :: L)) f h := by
  refine Prog.wp_seq (wp_getBegin now hr) ?_
  rintro it g h₁ ⟨hit, hs, hset⟩
  have hins := wp_insertData (A := []) (B := L) now hset.ready hd
  rw [hit, ← hs.1]
  refine Prog.wp_seq hins ?_
  rintro it₁ g₁ h₂ ⟨-, hset₁⟩
  exact ⟨(), h₂, [], rfl, hset₁⟩

theorem wp_pushBack (now : ℤ) (hr : Ready f h L) (hd : data ≠ []) :
    Prog.wp (pushBack now data)
      (fun _ g h' => Settled g h' (L ++ [(f.getEnd, data)])) f h := by
  have hL : Ready f h (L ++ []) := by rwa [List.append_nil]
  refine Prog.wp_seq (wp_getEnd now hL) ?_
  rintro it g h₁ ⟨hit, hs, hset⟩
  have hins := wp_insertData (A := L) (B := []) now hset.ready hd
  rw [hit, ← hs.1]
  refine Prog.wp_seq hins ?_
  rintro it₁ g₁ h₂ ⟨-, hset₁⟩
  exact ⟨(), h₂, [], rfl, hset₁⟩

theorem wp_insertEachAtEnd_iff {xs : List Text} {now : ℕ → ℤ}
    {Q : Unit → File → Handle → Prop} (hr : Ready f h L)
    (hQ : ∀ g h' L', Ready g h' L' →
      L'.map Prod.snd = L.map Prod.snd ++ xs → Q () g h') :
    Prog.wp (insertEachAtEnd now xs) Q f h ↔ ∀ x ∈ xs, x ≠ [] := by
  induction xs generalizing f h L now with
  | nil =>
      refine iff_of_true ?_ (by simp)
      exact ⟨(), h, [], rfl, hQ f h L hr (by simp)⟩
  | cons x xs ih =>
      have hL : Ready f h (L ++ []) := by rwa [List.append_nil]
      rw [insertEachAtEnd, List.forall_mem_cons]
      refine Prog.wp_bind_iff (wp_getEnd (now 0) hL) ?_
      rintro it g h₁ ⟨hit, hs, hset⟩
      rw [hit, ← hs.1]
      by_cases hx : x = []
      · subst hx
        exact iff_of_false not_wp_insertData_bind fun hc => hc.1 rfl
      · rw [and_iff_right hx]
        have hins := wp_insertData (A := L) (B := []) (now 0) hset.ready hx
        refine Prog.wp_bind_iff hins ?_
        rintro it₁ g₁ h₂ ⟨-, hset₁⟩
        refine ih hset₁.ready fun g' h' L' hr' hL' => hQ g' h' L' hr' ?_
        rw [hL', List.map_append]
        simp

theorem wp_insertEach_iff {xs : List Text} {now : ℕ → ℤ}
    {Q : Unit → File → Handle → Prop} (hr : Ready f h (A ++ e :: B))
    (hQ : ∀ g h' A', Ready g h' (A' ++ e :: B) →
      A'.map Prod.snd = A.map Prod.snd ++ xs → Q () g h') :
    Prog.wp (insertEach e.1 now xs) Q f h ↔ ∀ x ∈ xs, x ≠ [] := by
  induction xs generalizing f h A now with
  | nil =>
      refine iff_of_true ?_ (by simp)
      exact ⟨(), h, [], rfl, hQ f h A hr (by simp)⟩
  | cons x xs ih =>
      rw [insertEach, List.forall_mem_cons]
      by_cases hx : x = []
      · subst hx
        exact iff_of_false not_wp_insertData_bind fun hc => hc.1 rfl
      · rw [and_iff_right hx]
        have hins := wp_insertData (B := e :: B) (now 0) hr hx
        refine Prog.wp_bind_iff hins ?_
        rintro it₁ g₁ h₂ ⟨-, hset₁⟩
        have hset₂ : Settled g₁ h₂ (A ++ [(f.getEnd, x)] ++ e :: B) := by
          rwa [List.append_assoc]
        refine ih hset₂.ready fun g' h' A' hr' hA' => hQ g' h' A' hr' ?_
        rw [hA', List.map_append]
        simp

theorem wp_insert (now : ℤ) (hr : Ready f h (A ++ B)) (hd : data ≠ []) :
    Prog.wp (insert now (headPos B f.getEnd) data)
      (fun it g h' => Denotes g ((f.getEnd, data) :: B) it ∧
        Ready g h' (A ++ (f.getEnd, data) :: B)) f h := by
  refine Prog.wp_seq (wp_insertData now hr hd) ?_
  rintro it g h₁ ⟨hit, hset⟩
  refine Prog.wp_mono ?_ (wp_readString now hset.ready hit)
  rintro it₁ g₁ h₂ ⟨hden, -, hset₁⟩
  exact ⟨hden, hset₁.ready⟩

theorem wp_insertRange_iff {xs : List Text} {now : ℕ → ℤ}
    {Q : Unit → File → Handle → Prop} (hr : Ready f h (A ++ B))
    (hQ : ∀ g h' A', Ready g h' (A' ++ B) →
      A'.map Prod.snd = A.map Prod.snd ++ xs → Q () g h') :
    Prog.wp (insertRange now (headPos B f.getEnd) xs) Q f h ↔
      ∀ x ∈ xs, x ≠ [] := by
  refine Prog.wp_bind_iff (wp_getBegin (now 0) hr) ?_
  rintro it g h₁ ⟨-, hs, hset⟩
  refine Prog.wp_bind_iff (wp_getEnd (now 0) hset.ready) ?_
  rintro last g₁ h₂ ⟨hlast, hs₁, hset₁⟩
  have hend : last.current = f.getEnd := hlast.trans hs.1
  cases B with
  | nil =>
      rw [headPos_nil, if_pos hend.symm]
      rw [List.append_nil] at hset₁
      refine wp_insertEachAtEnd_iff hset₁.ready fun g' h' L' hr' hL' => ?_
      exact hQ g' h' L' (by rwa [List.append_nil]) hL'
  | cons e B =>
      have hne : e.1 ≠ last.current := by
        rw [hend]
        exact (next_of_kept (B := [])
          (by rw [List.append_nil]; exact hr.wellFormed)).2
      rw [headPos_cons, if_neg hne]
      exact wp_insertEach_iff hset₁.ready hQ

/-! ## Removal -/

theorem wp_popFront (now : ℤ) (hr : Ready f h (e :: B)) :
    Prog.wp (popFront now) (fun _ g h' => Settled g h' B) f h := by
  refine Prog.wp_seq (wp_getBegin now hr) ?_
  rintro it g h₁ ⟨hit, hs, hset⟩
  rw [hit, headPos_cons]
  refine Prog.wp_seq (wp_erasePointer (A := []) now hset.ready) ?_
  rintro it₁ g₁ h₂ ⟨-, hset₁⟩
  exact ⟨(), h₂, [], rfl, hset₁⟩

theorem wp_popBack (now : ℤ) (hr : Ready f h (A ++ [e])) :
    Prog.wp (popBack now) (fun _ g h' => Settled g h' A) f h := by
  refine Prog.wp_seq (wp_getEnd now hr) ?_
  rintro it g h₁ ⟨hit, hs, hset⟩
  refine Prog.wp_seq (wp_decrementIterator now hset.ready (by simp)
    (hit.trans hs.1.symm)) ?_
  rintro it₁ g₁ h₂ ⟨hit₁, hs₁, hset₁⟩
  rw [hit₁, lastPos_append, lastPos_cons, lastPos_nil]
  refine Prog.wp_seq (wp_erasePointer (B := []) now hset₁.ready) ?_
  rintro it₂ g₂ h₃ ⟨-, hset₂⟩
  rw [List.append_nil] at hset₂
  exact ⟨(), h₃, [], rfl, hset₂⟩

theorem wp_erase (now : ℤ) (hr : Ready f h (A ++ e :: B)) :
    Prog.wp (erase now e.1)
      (fun it g h' => Denotes g B it ∧ Ready g h' (A ++ B)) f h := by
  refine Prog.wp_seq (wp_erasePointer now hr) ?_
  rintro it g h₁ ⟨hit, hset⟩
  refine Prog.wp_mono ?_ (wp_readString now hset.ready hit)
  rintro it₁ g₁ h₂ ⟨hden, -, hset₁⟩
  exact ⟨hden, hset₁.ready⟩

theorem length_lt_extent (hr : Ready f h L) : L.length < f.extent + 1 :=
  Nat.lt_succ_of_le
    (length_le_extent hr.wellFormed.linked hr.wellFormed.nodup)

theorem wp_eraseRange_iff {now : ℕ → ℤ} {Q : BaseIterator → File → Handle → Prop}
    (hr : Ready f h (A ++ X ++ B)) (hX : X ≠ [])
    (hQ : ∀ it g h', Denotes g B it → Ready g h' (A ++ B) → Q it g h') :
    Prog.wp (eraseRange now (headPos X f.getEnd) (headPos B f.getEnd)) Q f h ↔
      A ++ B ≠ [] := by
  have hstore : Prog.wp (Prog.store : FileProg File)
      (fun f' g h' => f = f' ∧ f = g ∧ h = h') f h :=
    ⟨f, h, [], rfl, rfl, rfl, rfl⟩
  have hfuel := length_lt_extent hr
  by_cases hne : A ++ B = []
  · refine iff_of_false ?_ (not_not_intro hne)
    obtain ⟨rfl, rfl⟩ := List.append_eq_nil_iff.mp hne
    rw [List.nil_append, List.append_nil] at hr
    intro hwp
    obtain ⟨_, _, _, ⟨rfl, rfl, rfl⟩, hrest⟩ :=
      Prog.wp_rest hstore (Prog.wp_bind.mp hwp)
    exact not_wp_eraseFrom hr hX rfl rfl hrest
  · refine iff_of_true ?_ hne
    refine Prog.wp_seq (P := fun it g h' => it.current = headPos B g.getEnd ∧
      Settled g h' (A ++ B)) (Prog.wp_seq hstore ?_) ?_
    · rintro _ _ _ ⟨rfl, rfl, rfl⟩
      refine wp_eraseFrom hr hX hne rfl rfl ?_
      simp only [List.length_append] at hfuel
      omega
    · rintro it g h₁ ⟨hit, hset⟩
      refine Prog.wp_mono ?_ (wp_readString (now 0) hset.ready hit)
      rintro it₁ g₁ h₂ ⟨hden, -, hset₁⟩
      exact hQ it₁ g₁ h₂ hden hset₁.ready

theorem others_eq_nil {value : Text} :
    others value L = [] ↔ ∀ e ∈ L, e.2 = value := by
  rw [others, List.filter_eq_nil_iff]
  simp

theorem wp_remove_iff {now : ℕ → ℤ} {value : Text}
    {Q : Unit → File → Handle → Prop} (hr : Ready f h L) (hL : L ≠ [])
    (hQ : ∀ g h', Ready g h' (others value L) → Q () g h') :
    Prog.wp (remove now value) Q f h ↔ others value L ≠ [] := by
  refine Prog.wp_bind_iff (wp_readBegin (now 0) hr) ?_
  rintro _ g h₁ ⟨rfl, hs, hset⟩
  have hplace : headPos L f.getEnd = g.getEnd ∨
      headPos L f.getEnd ∈ positions L := by
    rw [hs.1]
    exact headPos_cases L f.getEnd
  refine Prog.wp_bind_iff (wp_getIterator (now 0) hset.ready hplace) ?_
  rintro it g₁ h₂ ⟨hit, -, hs₁, hset₁⟩
  rw [← hs.1, ← hs₁.1] at hit
  have hstore : Prog.wp (Prog.store : FileProg File)
      (fun f' k h' => g₁ = f' ∧ g₁ = k ∧ h₂ = h') g₁ h₂ :=
    ⟨g₁, h₂, [], rfl, rfl, rfl, rfl⟩
  refine Prog.wp_bind_iff hstore ?_
  rintro _ _ _ ⟨rfl, rfl, rfl⟩
  by_cases hne : others value L = []
  · refine iff_of_false ?_ (not_not_intro hne)
    exact not_wp_removeFrom hset₁.ready hL (others_eq_nil.mp hne) hit
  · refine iff_of_true ?_ hne
    refine Prog.wp_mono ?_ (wp_removeFrom (A := []) hset₁.ready hL hne hit
      (Nat.le_of_lt (length_lt_extent hset₁.ready)))
    rintro _ g₂ h₃ hset₂
    exact hQ g₂ h₃ hset₂.ready

end

/-! ## Each operation -/

section
variable {f g : File} {h : Handle} {L : List Entry} {i j : ℕ} {now : ℕ → ℤ}

theorem wp_pure_iff {α β : Type} {m : FileProg α} {k : α → β}
    {Q : β → File → Handle → Prop} :
    Prog.wp (m >>= fun a => pure (k a)) Q f h ↔
      Prog.wp m (fun a g h' => Q (k a) g h') f h := by
  rw [Prog.wp_bind]
  simp only [Prog.wp_pure]

theorem drop_place (hi : i ≤ L.length) (B : List Entry) :
    (L.take i ++ B).drop i = B := by
  rw [List.drop_left']
  rw [List.length_take, Nat.min_eq_left hi]

/-- What an operation without an iterator leaves. -/
theorem holds_none {ds : List Text} (hr : Ready g h L)
    (hds : L.map Prod.snd = ds) : Holds ds none none g h :=
  ⟨L, hr, hds, by simp⟩

theorem holds_some {ds : List Text} {it : BaseIterator} (hr : Ready g h L)
    (hds : L.map Prod.snd = ds) (hit : Denotes g (L.drop i) it) :
    Holds ds (some i) (some it) g h :=
  ⟨L, hr, hds, fun _ hk => ⟨it, rfl, (Option.mem_some.mp hk) ▸ hit⟩⟩

theorem wp_pushFront_iff {x : Text} (hr : Ready f h L) :
    Prog.wp (pushFront (now 0) x)
      (fun _ g h' => Holds (x :: L.map Prod.snd) none none g h') f h ↔
      x ≠ [] := by
  by_cases hx : x = []
  · subst hx
    refine iff_of_false (Prog.not_wp_bind fun _ _ _ => ?_) (not_not_intro rfl)
    exact not_wp_insertData_bind
  · refine iff_of_true (Prog.wp_mono ?_ (wp_pushFront (now 0) hr hx)) hx
    exact fun _ _ _ hset => holds_none hset.ready rfl

theorem wp_pushBack_iff {x : Text} (hr : Ready f h L) :
    Prog.wp (pushBack (now 0) x)
      (fun _ g h' => Holds (L.map Prod.snd ++ [x]) none none g h') f h ↔
      x ≠ [] := by
  by_cases hx : x = []
  · subst hx
    refine iff_of_false (Prog.not_wp_bind fun _ _ _ => ?_) (not_not_intro rfl)
    exact not_wp_insertData_bind
  · refine iff_of_true (Prog.wp_mono ?_ (wp_pushBack (now 0) hr hx)) hx
    exact fun _ _ _ hset => holds_none hset.ready (by simp)

theorem wp_insert_iff {x : Text} (hr : Ready f h L) (hi : i ≤ L.length) :
    Prog.wp (insert (now 0) (headPos (L.drop i) f.getEnd) x)
      (fun it g h' => Holds ((L.map Prod.snd).take i ++
        x :: (L.map Prod.snd).drop i) (some i) (some it) g h') f h ↔
      x ≠ [] := by
  by_cases hx : x = []
  · subst hx
    exact iff_of_false not_wp_insertData_bind (not_not_intro rfl)
  · rw [← List.take_append_drop i L] at hr
    refine iff_of_true (Prog.wp_mono ?_ (wp_insert (now 0) hr hx)) hx
    rintro it g h' ⟨hden, hr'⟩
    refine holds_some hr' (by simp [List.map_take, List.map_drop]) ?_
    rwa [drop_place hi]

theorem wp_erase_of_valid (hr : Ready f h L) (hi : i < L.length) :
    Prog.wp (erase (now 0) (headPos (L.drop i) f.getEnd))
      (fun it g h' => Holds ((L.map Prod.snd).take i ++
        (L.map Prod.snd).drop (i + 1)) (some i) (some it) g h') f h := by
  have hdrop := List.drop_eq_getElem_cons hi
  rw [← List.take_append_drop i L, hdrop] at hr
  rw [hdrop, headPos_cons]
  refine Prog.wp_mono ?_ (wp_erase (now 0) hr)
  rintro it g h' ⟨hden, hr'⟩
  refine holds_some hr' (by simp [List.map_take, List.map_drop]) ?_
  rwa [drop_place (Nat.le_of_lt hi)]

theorem wp_eraseRange_iff' (hr : Ready f h L) (hij : i < j) (hj : j ≤ L.length) :
    Prog.wp (eraseRange now (headPos (L.drop i) f.getEnd)
        (headPos (L.drop j) f.getEnd))
      (fun it g h' => Holds ((L.map Prod.snd).take i ++
        (L.map Prod.snd).drop j) (some i) (some it) g h') f h ↔
      ¬ (i = 0 ∧ j = (L.map Prod.snd).length) := by
  have hsplit : L.drop i = (L.drop i).take (j - i) ++ L.drop j := by
    conv_lhs => rw [← List.take_append_drop (j - i) (L.drop i)]
    rw [List.drop_drop, Nat.add_sub_cancel' (Nat.le_of_lt hij)]
  have hX : (L.drop i).take (j - i) ≠ [] := by
    intro hnil
    have hlen := congrArg List.length hnil
    simp only [List.length_take, List.length_drop, List.length_nil] at hlen
    omega
  have hfirst : headPos (L.drop i) f.getEnd =
      headPos ((L.drop i).take (j - i)) f.getEnd := by
    cases hx : (L.drop i).take (j - i) with
    | nil => exact absurd hx hX
    | cons e X => rw [hsplit, hx, List.cons_append, headPos_cons, headPos_cons]
  rw [← List.take_append_drop i L, hsplit, ← List.append_assoc] at hr
  rw [hfirst, wp_eraseRange_iff hr hX, List.length_map]
  · rw [ne_eq, List.append_eq_nil_iff, List.drop_eq_nil_iff, not_iff_not]
    constructor
    · rintro ⟨hA, hB⟩
      have hlen := congrArg List.length hA
      simp only [List.length_take, List.length_nil] at hlen
      omega
    · rintro ⟨rfl, rfl⟩
      exact ⟨rfl, Nat.le_refl _⟩
  · rintro it g h' hden hr'
    refine holds_some hr' (by simp [List.map_take, List.map_drop]) ?_
    rwa [drop_place (by omega)]

theorem others_data (value : Text) (L : List Entry) :
    (others value L).map Prod.snd =
      (L.map Prod.snd).filter fun d => d ≠ value := by
  rw [others, List.filter_map]
  rfl

end

/-! ## Two lists -/

section
variable {f g : File} {h : Handle} {L A B : List Entry} {e : Entry}

theorem wp_readString_live (now : ℤ) (hr : Ready f h (A ++ e :: B)) {it : FileIterator}
    (hit : it.current = e.1) :
    Prog.wp (readString now true it)
      (fun r g h' => r.data = e.2 ∧ r.iterator.current = e.1 ∧
        r.iterator.next = headPos B f.getEnd ∧ SameRecords f g ∧
        Settled g h' (A ++ e :: B)) f h := by
  refine Prog.wp_seq (wp_readEnd now hr) ?_
  rintro _ g₁ h₁ ⟨rfl, hs₁, hset₁⟩
  rw [if_neg (by simp), hit]
  refine Prog.wp_seq (wp_readData now hset₁.ready) ?_
  rintro ⟨d, it'⟩ g₂ h₂ ⟨hd, hcur, hnext, hs₂, hset₂⟩
  exact ⟨_, h₂, [], rfl, hd, hcur, hs₁.1 ▸ hnext, hs₁.trans hs₂, hset₂⟩

theorem wp_readFrom {now : ℤ} {last fuel : ℕ} {it : FileIterator}
    (hset : Settled f h (A ++ B)) (hit : it.current = headPos B f.getEnd)
    (hlast : last = f.getEnd) (hfuel : B.length < fuel) :
    Prog.wp (readFrom now last fuel it)
      (fun ds g h' => ds = B.map Prod.snd ∧ Settled g h' (A ++ B)) f h := by
  induction B generalizing f h A fuel it with
  | nil =>
      obtain ⟨fuel, rfl⟩ : ∃ k, fuel = k + 1 := ⟨fuel - 1, by omega⟩
      have hstop : ¬ it.current ≠ last := not_not_intro (hit.trans hlast.symm)
      rw [readFrom, if_neg hstop]
      exact ⟨[], h, [], rfl, rfl, hset⟩
  | cons e B ih =>
      rw [List.length_cons] at hfuel
      obtain ⟨fuel, rfl⟩ : ∃ k, fuel = k + 1 := ⟨fuel - 1, by omega⟩
      rw [headPos_cons] at hit
      have hgo : it.current ≠ last := by
        rw [hit, hlast]
        exact (next_of_kept (B := [])
          (by rw [List.append_nil]; exact hset.wellFormed)).2
      rw [readFrom, if_pos hgo]
      refine Prog.wp_seq (wp_readString_live now hset.ready hit) ?_
      rintro r g₁ h₁ ⟨hd, hcur, hnext, hs₁, hset₁⟩
      obtain ⟨lit, hrec⟩ := linked_entry hset₁.wellFormed.linked
      have hplace : r.iterator.next = g₁.getEnd ∨
          r.iterator.next ∈ positions (A ++ e :: B) := by
        rw [hnext, hs₁.1, List.append_cons]
        exact headPos_mem_append (A ++ [e]) B _
      refine Prog.wp_seq (wp_incrementIterator now hset₁.ready
        (hcur.symm ▸ hrec) ?_ hplace) ?_
      · rw [hnext, hs₁.1]
      rintro it₂ g₂ h₂ ⟨hit₂, hs₂, hset₂⟩
      have hs := hs₁.trans hs₂
      rw [List.append_cons] at hset₂
      refine Prog.wp_seq (ih hset₂ ?_ (hlast.trans hs.1.symm) (by omega)) ?_
      · rw [hit₂, hnext, hs.1]
      rintro ds g₃ h₃ ⟨rfl, hset₃⟩
      rw [List.append_cons]
      exact ⟨_, h₃, [], rfl, by rw [hd, List.map_cons], hset₃⟩

theorem wp_readAll (now : ℤ) (hr : Ready f h L) :
    Prog.wp (readAll now)
      (fun ds g h' => ds = L.map Prod.snd ∧ Settled g h' L) f h := by
  refine Prog.wp_seq (wp_getEnd now hr) ?_
  rintro last g₁ h₁ ⟨hlast, hs₁, hset₁⟩
  refine Prog.wp_seq (wp_getBegin now hset₁.ready) ?_
  rintro first g₂ h₂ ⟨hfirst, hs₂, hset₂⟩
  have hstore : Prog.wp (Prog.store : FileProg File)
      (fun f' k h' => g₂ = f' ∧ g₂ = k ∧ h₂ = h') g₂ h₂ :=
    ⟨g₂, h₂, [], rfl, rfl, rfl, rfl⟩
  refine Prog.wp_seq hstore ?_
  rintro _ _ _ ⟨rfl, rfl, rfl⟩
  refine wp_readFrom (A := []) hset₂ ?_ ?_ (length_lt_extent hset₂.ready)
  · rw [hfirst, hs₂.1]
  · rw [hlast, ← hs₁.1, hs₂.1]

theorem not_behind (hset : Settled f h L) : ¬ Behind f h := by
  rintro ⟨-, -, t, ht, hgt⟩
  obtain ⟨t', ht', hgt'⟩ := hset.inStep
  rw [ht, Option.some.injEq] at ht'
  rw [ht', hgt'] at hgt
  cases hgt

theorem exec_of_wp {α : Type} {m : FileProg α} {P : α → File → Handle → Prop}
    (hm : Prog.wp m P f h) :
    ∃ a g h', (⟨f, h⟩ : Opened).exec m = .ok (a, ⟨g, h'⟩) ∧ P a g h' := by
  obtain ⟨a, h', ws, hrun, hP⟩ := hm
  refine ⟨a, _, h', ?_, hP⟩
  simp [Opened.exec, hrun]

/-- What is left of a list that was read and cleared. -/
theorem exec_clear (now : ℤ) (hset : Settled f h L) :
    ∃ g h', (⟨f, h⟩ : Opened).exec (clear now) = .ok ((), ⟨g, h'⟩) ∧
      Ready g h' [] := by
  obtain ⟨_, g, h', hrun, hr⟩ := exec_of_wp ((wp_truncate_iff now hset.ready
    (Q := fun _ g h' => Ready g h' []) fun _ _ hr => hr).mpr (not_behind hset))
  exact ⟨g, h', hrun, hr⟩

/-- And when the data of another list are put into it. -/
theorem exec_fill (now : ℕ → ℤ) (hr : Ready f h []) (hL : ∀ e ∈ L, e.2 ≠ []) :
    ∃ g h' L', (⟨f, h⟩ : Opened).exec
        (insertEachAtEnd now (L.map Prod.snd)) = .ok ((), ⟨g, h'⟩) ∧
      Ready g h' L' ∧ L'.map Prod.snd = L.map Prod.snd := by
  have hxs : ∀ x ∈ L.map Prod.snd, x ≠ [] := by
    intro x hx
    obtain ⟨e, he, rfl⟩ := List.mem_map.mp hx
    exact hL e he
  have hfill : Prog.wp (insertEachAtEnd now (L.map Prod.snd))
      (fun _ g h' => ∃ L', Ready g h' L' ∧
        L'.map Prod.snd = L.map Prod.snd) f h :=
    (wp_insertEachAtEnd_iff hr
      fun _ _ L' hr' hL' => ⟨L', hr', hL'⟩).mpr hxs
  obtain ⟨_, g, h', hrun, L', hr', hL'⟩ := exec_of_wp hfill
  exact ⟨g, h', L', hrun, hr', hL'⟩

end

theorem swapContainer_run (now : ℤ) (others these : ℕ → ℤ) (s t : Listed) :
    ∃ s' t' : Listed, swapContainer now others these ⟨s.file, s.handle⟩
        ⟨t.file, t.handle⟩ =
        .ok (⟨s'.file, s'.handle⟩, ⟨t'.file, t'.handle⟩) ∧
      s'.data = t.data ∧ t'.data = s.data := by
  obtain ⟨_, f₁, h₁, hs₁, rfl, hset₁⟩ := exec_of_wp (wp_readAll now s.ready)
  obtain ⟨_, g₁, k₁, ht₁, rfl, hset₁'⟩ := exec_of_wp (wp_readAll now t.ready)
  obtain ⟨f₂, h₂, hs₂, hr₂⟩ := exec_clear now hset₁
  obtain ⟨g₂, k₂, ht₂, hr₂'⟩ := exec_clear now hset₁'
  obtain ⟨g₃, k₃, M, ht₃, hr₃', hM⟩ :=
    exec_fill others hr₂' s.ready.wellFormed.filled
  obtain ⟨f₃, h₃, N, hs₃, hr₃, hN⟩ :=
    exec_fill these hr₂ t.ready.wellFormed.filled
  refine ⟨⟨f₃, h₃, N, hr₃⟩, ⟨g₃, k₃, M, hr₃'⟩, ?_, hN, hM⟩
  simp only [swapContainer, bind, Except.bind, hs₁, ht₁, hs₂, ht₂, ht₃, hs₃]
  rfl

/-- Every operation does what it does to a list, wherever it does not meet one
of the three exceptions. -/
theorem behaves_as_list (now : ℕ → ℤ) :
    (∀ (s : Listed) (op : ListOp), op.Valid s.list.length →
      (Prog.wp (op.call now s.place)
          (Holds (op.onList s.data) op.returned) s.file s.handle ↔
        op.Works s.file s.handle s.data)) ∧
    ∀ (others these : ℕ → ℤ) (s t : Listed),
      ∃ s' t' : Listed, swapContainer (now 0) others these ⟨s.file, s.handle⟩
          ⟨t.file, t.handle⟩ =
          .ok (⟨s'.file, s'.handle⟩, ⟨t'.file, t'.handle⟩) ∧
        s'.data = t.data ∧ t'.data = s.data := by
  refine ⟨fun s op hv => ?_, swapContainer_run (now 0)⟩
  obtain ⟨f, h, L, hr⟩ := s
  cases op with
  | pushFront x => exact wp_pure_iff.trans (wp_pushFront_iff hr)
  | pushBack x => exact wp_pure_iff.trans (wp_pushBack_iff hr)
  | popFront =>
      refine wp_pure_iff.trans (iff_of_true ?_ trivial)
      cases L with
      | nil => exact absurd hv (Nat.lt_irrefl 0)
      | cons e B =>
          refine Prog.wp_mono ?_ (wp_popFront (now 0) hr)
          exact fun _ _ _ hset => holds_none hset.ready rfl
  | popBack =>
      refine wp_pure_iff.trans (iff_of_true ?_ trivial)
      rcases List.eq_nil_or_concat' L with rfl | ⟨A, e, rfl⟩
      · exact absurd hv (Nat.lt_irrefl 0)
      · refine Prog.wp_mono ?_ (wp_popBack (now 0) hr)
        exact fun _ _ _ hset => holds_none hset.ready
          (by simp [ListOp.onList, Listed.data])
  | insert i x => exact wp_pure_iff.trans (wp_insert_iff hr hv)
  | insertRange i xs =>
      refine wp_pure_iff.trans ?_
      rw [← List.take_append_drop i L] at hr
      refine wp_insertRange_iff hr fun g h' A' hr' hA' => holds_none hr' ?_
      rw [List.map_append, hA']
      simp [ListOp.onList, Listed.data, List.map_take, List.map_drop]
  | erase i =>
      exact wp_pure_iff.trans (iff_of_true (wp_erase_of_valid hr hv) trivial)
  | eraseRange i j =>
      exact wp_pure_iff.trans (wp_eraseRange_iff' hr hv.1 hv.2)
  | remove x =>
      have hL : L ≠ [] := List.length_pos_iff.mp hv
      refine wp_pure_iff.trans ((wp_remove_iff hr hL fun g h' hr' =>
        holds_none hr' (others_data x L)).trans ?_)
      rw [ne_eq, others_eq_nil, not_forall]
      refine ⟨?_, ?_⟩
      · rintro ⟨e, he⟩
        rw [Classical.not_imp] at he
        exact ⟨e.2, List.mem_map_of_mem he.1, he.2⟩
      · rintro ⟨d, hd, hne⟩
        obtain ⟨e, he, rfl⟩ := List.mem_map.mp hd
        exact ⟨e, fun hall => hne (hall he)⟩
  | clear =>
      exact wp_pure_iff.trans (wp_truncate_iff (now 0) hr fun g h' hr' =>
        holds_none hr' rfl)

/-- A list of one element, which is removed. -/
theorem remove_only_throws :
    ∃ s : Listed, s.data = [['a']] ∧
      (ListOp.remove ['a']).Valid s.list.length ∧
      (((ListOp.remove ['a']).call (fun _ => 6) s.place).run s.file
        s.handle).result.isOk = false ∧
      ¬ Prog.wp ((ListOp.remove ['a']).call (fun _ => 6) s.place)
          (Holds [] none) s.file s.handle := by
  have hfacts : (run Container.next (created 5) [(5, .add ['a'] 391)]).map
      (fun c => (c.list.map Prod.snd, ((FileList.remove (fun _ => 6) ['a']).run
        c.file c.handle).result.isOk)) = some ([['a']], false) := by
    decide
  obtain ⟨c, hrun, hc⟩ := Option.map_eq_some_iff.mp hfacts
  rw [Prod.mk.injEq] at hc
  obtain ⟨hleft, -⟩ := run_invariant (fun _ _ _ hc _ hn => next_left hc hn)
    (created_left 5) (meets_true _ _ _) hrun
  have hlen : 0 < c.list.length := by
    have hlist := congrArg List.length hc.1
    rw [List.length_map] at hlist
    rw [hlist]
    decide
  have hresult : (((ListOp.remove ['a']).call (fun _ => 6)
      (Listed.mk c.file c.handle c.list hleft.ready).place).run c.file
        c.handle).result.isOk = false := by
    rcases ho : (FileList.remove (fun _ => 6) ['a']).run c.file c.handle with
      ⟨_ | a, h', log⟩
    · simp only [ListOp.call, Prog.bind_run, ho, Prog.resume_error]
      rfl
    · have hok := hc.2
      rw [ho] at hok
      cases hok
  refine ⟨⟨c.file, c.handle, c.list, hleft.ready⟩, hc.1, hlen, hresult, ?_⟩
  rintro ⟨a, h', ws, hrun', -⟩
  rw [hrun'] at hresult
  cases hresult

/-- Two elements of which one is removed. -/
theorem behaves_as_list_two :
    ∃ s : Listed, s.data = [['b'], ['a']] ∧
      Prog.wp ((ListOp.remove ['a']).call (fun _ => 6) s.place)
        (Holds [['b']] none) s.file s.handle := by
  have hfacts : (run Container.next (created 5)
      [(5, .add ['a'] 391), (5, .add ['b'] 391)]).map
      (fun c => c.list.map Prod.snd) = some [['b'], ['a']] := by
    decide
  obtain ⟨c, hrun, hc⟩ := Option.map_eq_some_iff.mp hfacts
  obtain ⟨hleft, -⟩ := run_invariant (fun _ _ _ hc _ hn => next_left hc hn)
    (created_left 5) (meets_true _ _ _) hrun
  have hlen : 0 < c.list.length := by
    have hlist := congrArg List.length hc
    rw [List.length_map] at hlist
    rw [hlist]
    decide
  refine ⟨⟨c.file, c.handle, c.list, hleft.ready⟩, hc, ?_⟩
  have hwp := ((behaves_as_list fun _ => 6).1
    ⟨c.file, c.handle, c.list, hleft.ready⟩ (.remove ['a']) hlen).mpr
    ⟨['b'], by rw [Listed.data, hc]; decide, by decide⟩
  rw [Listed.data, hc] at hwp
  exact hwp

end Wms.Jobsubmission.FileList
