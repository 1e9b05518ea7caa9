import Mathlib.Tactic.Common
import Wms.Jobsubmission.FileOperations

/-!
# The list in a file container

Which list a file holds. A list is given as the positions of its records with
their data, and `Linked` says that the records are there and point to one another
in this order. It does not say where in the file they are: the order of the file
is another one, and records that were removed stay where they were.

`Sound` is the representation of a list without its stored size, which is
written last. Everything that is proved about a change goes through
`linked_append`, which cuts a list where it is changed, and `linked_congr`, for
the part that is not touched.
-/

namespace Wms.Jobsubmission.FileContainer

open Wms.Lib

/-- A record of the list: its position and its data. -/
abbrev Entry := ℕ × Text

/-! ## The links -/

/-- Where the first of some entries is. -/
def headPos : List Entry → ℕ → ℕ
  | [], after => after
  | e :: _, _ => e.1

/-- Where the last of some entries is. -/
def lastPos : ℕ → List Entry → ℕ
  | before, [] => before
  | _, e :: L => lastPos e.1 L

/-- The records of a list, from the position before it to the one after it. -/
def Linked (rec_ : ℕ → Option Record) : ℕ → List Entry → ℕ → Prop
  | _, [], _ => True
  | before, e :: L, after =>
      (∃ lit, rec_ e.1 = some ⟨⟨before, headPos L after⟩, e.2, true, lit⟩) ∧
        Linked rec_ e.1 L after

/-- Where they all are. -/
def positions (L : List Entry) : List ℕ := L.map Prod.fst

@[simp] theorem headPos_nil (after : ℕ) : headPos [] after = after := rfl

@[simp] theorem headPos_cons (e : Entry) (L : List Entry) (after : ℕ) :
    headPos (e :: L) after = e.1 := rfl

@[simp] theorem lastPos_nil (before : ℕ) : lastPos before [] = before := rfl

@[simp] theorem lastPos_cons (before : ℕ) (e : Entry) (L : List Entry) :
    lastPos before (e :: L) = lastPos e.1 L := rfl

@[simp] theorem headPos_append (A B : List Entry) (after : ℕ) :
    headPos (A ++ B) after = headPos A (headPos B after) := by
  cases A <;> rfl

@[simp] theorem lastPos_append (before : ℕ) (A B : List Entry) :
    lastPos before (A ++ B) = lastPos (lastPos before A) B := by
  induction A generalizing before with
  | nil => rfl
  | cons e A ih => exact ih e.1

theorem lastPos_mem (before : ℕ) {L : List Entry} (h : L ≠ []) :
    lastPos before L ∈ positions L := by
  induction L generalizing before with
  | nil => exact absurd rfl h
  | cons e L ih =>
      cases L with
      | nil => exact List.mem_cons_self
      | cons e' L => exact List.mem_cons_of_mem _ (ih e.1 (List.cons_ne_nil _ _))

theorem linked_append {rec_ : ℕ → Option Record} {before after : ℕ}
    {A B : List Entry} :
    Linked rec_ before (A ++ B) after ↔
      Linked rec_ before A (headPos B after) ∧
        Linked rec_ (lastPos before A) B after := by
  induction A generalizing before with
  | nil => simp [Linked, lastPos]
  | cons e A ih =>
      simp only [List.cons_append, Linked, headPos_append, ih, lastPos,
        and_assoc]

theorem linked_entry {rec_ : ℕ → Option Record} {before after : ℕ}
    {A B : List Entry} {e : Entry}
    (hL : Linked rec_ before (A ++ e :: B) after) :
    ∃ lit, rec_ e.1 =
      some ⟨⟨lastPos before A, headPos B after⟩, e.2, true, lit⟩ :=
  (linked_append.mp hL).2.1

theorem linked_congr {rec_ rec' : ℕ → Option Record} {before after : ℕ}
    {L : List Entry} (h : ∀ e ∈ L, rec' e.1 = rec_ e.1)
    (hL : Linked rec_ before L after) : Linked rec' before L after := by
  induction L generalizing before with
  | nil => trivial
  | cons e L ih =>
      refine ⟨?_, ih (fun f hf => h f (List.mem_cons_of_mem _ hf)) hL.2⟩
      rw [h e List.mem_cons_self]
      exact hL.1

theorem linked_record {rec_ : ℕ → Option Record} {before after : ℕ}
    {L : List Entry} (hL : Linked rec_ before L after) {e : Entry}
    (he : e ∈ L) : ∃ r, rec_ e.1 = some r ∧ r.data = e.2 ∧ r.good = true := by
  induction L generalizing before with
  | nil => cases he
  | cons f L ih =>
      rcases List.mem_cons.mp he with rfl | he
      · obtain ⟨⟨lit, hlit⟩, -⟩ := hL
        exact ⟨_, hlit, rfl, rfl⟩
      · exact ih hL.2 he

/-! ## The representation -/

/-- The limits of a container that has them. -/
def limitsOf (L : List Entry) : Links :=
  ⟨headPos L headerSize, lastPos headerSize L⟩

/-- Every field of the header is there. -/
structure Complete (f : File) : Prop where
  stamp : f.stamp.isSome
  status : f.status.isSome
  iteratorBackup : ∀ what, (f.iteratorBackup what).isSome
  limitsBackup : f.limitsBackup.isSome
  removed : f.removed.isSome

/-- The records of a list are in the file, between two positions. -/
structure Chain (f : File) (before : ℕ) (L : List Entry) (after : ℕ) :
    Prop where
  complete : Complete f
  linked : Linked f.recordAt before L after
  fits : ∀ e ∈ L, e.1 + calculateDataSize e.2.length ≤ f.getEnd
  nodup : (positions L).Nodup
  filled : ∀ e ∈ L, e.2 ≠ []

/-- The file holds the list, whatever size is stored. -/
structure Sound (f : File) (L : List Entry) : Prop
    extends Chain f 0 L f.getEnd where
  limits : f.limits = some (limitsOf L)
  bare : L = [] → f.extent = 0

/-- A well-formed container with a list. -/
structure WellFormed (f : File) (L : List Entry) : Prop extends Sound f L where
  size : f.size = some L.length

/-! ## What a record is after a write -/

section
variable (f : File) (p : ℕ)

theorem headerSize_pos : 0 < headerSize := by decide

/-- A record that is changed where it is. -/
theorem recordAt_update (q : ℕ) (g : Record → Record) :
    ({ f with body := Function.update f.body q ((f.body q).map g) } :
        File).recordAt p =
      if p = q then (f.recordAt p).map g else f.recordAt p := by
  have hend : ({ f with body := Function.update f.body q ((f.body q).map g) } :
      File).getEnd = f.getEnd := rfl
  rw [File.recordAt, File.recordAt, hend]
  by_cases hp : p = q
  · subst hp
    simp only [Function.update_self, if_true]
    split <;> rfl
  · simp only [Function.update_of_ne hp, if_neg hp]

@[simp] theorem recordAt_iterator (q : ℕ) (l : Links) :
    (f.apply (.iterator q l)).recordAt p =
      if p = q then (f.recordAt p).map fun r => { r with links := l }
      else f.recordAt p :=
  recordAt_update f p q _

@[simp] theorem recordAt_dataHeader (q : ℕ) (l : Links) (good : Bool) :
    (f.apply (.dataHeader q l good)).recordAt p =
      if p = q then
        (f.recordAt p).map fun r => { r with links := l, good := good }
      else f.recordAt p :=
  recordAt_update f p q _

theorem recordAt_some {f : File} {p : ℕ} {r : Record}
    (h : f.recordAt p = some r) : headerSize ≤ p ∧ p < f.getEnd := by
  simp only [File.recordAt] at h
  split at h
  · assumption
  · cases h

theorem recordAt_getEnd : f.recordAt f.getEnd = none := by
  simp [File.recordAt]

theorem calculateDataSize_pos (size : ℕ) : 0 < calculateDataSize size := by
  simp only [calculateDataSize]
  omega

@[simp] theorem recordAt_append (r : Record) :
    (f.apply (.append r)).recordAt p =
      if p = f.getEnd then some r else f.recordAt p := by
  have hpos := calculateDataSize_pos r.data.length
  by_cases hp : p = f.getEnd
  · subst hp
    have hb : headerSize ≤ f.getEnd ∧
        f.getEnd < (f.apply (.append r)).getEnd := by
      simp only [File.getEnd, File.apply]
      omega
    rw [File.recordAt, if_pos hb, if_pos rfl]
    simp only [File.apply, Function.update_self]
  · rw [if_neg hp, File.recordAt]
    simp only [File.apply, Function.update_of_ne hp]
    split
    · rfl
    · next hb =>
        cases hr : f.recordAt p with
        | none => rfl
        | some r' =>
            have hb' := recordAt_some hr
            simp only [File.getEnd] at hb hb'
            omega

theorem getEnd_truncate {n : ℕ} (hn : headerSize ≤ n) :
    (f.apply (.truncate n)).getEnd = n := by
  have hpos := headerSize_pos
  obtain ⟨m, rfl⟩ : ∃ m, n = m + 1 := ⟨n - 1, by omega⟩
  simp only [File.getEnd, File.apply]
  omega

theorem recordAt_truncate {n : ℕ} (hn : headerSize ≤ n) :
    (f.apply (.truncate n)).recordAt p = (f.recordAt p).filter fun r =>
      decide (p + calculateDataSize r.data.length ≤ n) := by
  have hend := getEnd_truncate f hn
  have hpos := headerSize_pos
  have hbody : (f.apply (.truncate n)).body p =
      (f.recordAt p).filter fun r =>
        decide (p + calculateDataSize r.data.length ≤ n) := by
    obtain ⟨m, rfl⟩ : ∃ m, n = m + 1 := ⟨n - 1, by omega⟩
    rfl
  rw [File.recordAt, hend, hbody]
  split
  · rfl
  · next hb =>
      cases hr : f.recordAt p with
      | none => rfl
      | some r =>
          have hsize := calculateDataSize_pos r.data.length
          have hp := (recordAt_some hr).1
          rw [Option.filter_some, if_neg]
          simp only [decide_eq_true_eq]
          omega

end

@[simp] theorem store_apply (f : File) (w : Write) :
    Store.apply f w = f.apply w := rfl

/-! A write to the header leaves the records alone. -/

section
variable (f : File) (p : ℕ)

@[simp] theorem recordAt_stamp (t : TimeStamp) :
    (f.apply (.stamp t)).recordAt p = f.recordAt p := rfl

@[simp] theorem recordAt_size (n : ℕ) :
    (f.apply (.size n)).recordAt p = f.recordAt p := rfl

@[simp] theorem recordAt_status (s : FileStatus) :
    (f.apply (.status s)).recordAt p = f.recordAt p := rfl

@[simp] theorem recordAt_emptyBackup :
    (f.apply .emptyBackup).recordAt p = f.recordAt p := rfl

@[simp] theorem recordAt_iteratorBackup (i : Fin 4) (it : FileIterator) :
    (f.apply (.iteratorBackup i it)).recordAt p = f.recordAt p := rfl

@[simp] theorem recordAt_limitsBackup (l : Links) :
    (f.apply (.limitsBackup l)).recordAt p = f.recordAt p := rfl

@[simp] theorem recordAt_limits (l : Links) :
    (f.apply (.limits l)).recordAt p = f.recordAt p := rfl

@[simp] theorem recordAt_removed (l : Links) :
    (f.apply (.removed l)).recordAt p = f.recordAt p := rfl

@[simp] theorem recordAt_overwriteStart :
    (f.apply .overwriteStart).recordAt p = f.recordAt p := rfl

@[simp] theorem getEnd_stamp (t : TimeStamp) :
    (f.apply (.stamp t)).getEnd = f.getEnd := rfl

@[simp] theorem getEnd_size (n : ℕ) :
    (f.apply (.size n)).getEnd = f.getEnd := rfl

@[simp] theorem getEnd_status (s : FileStatus) :
    (f.apply (.status s)).getEnd = f.getEnd := rfl

@[simp] theorem getEnd_emptyBackup :
    (f.apply .emptyBackup).getEnd = f.getEnd := rfl

@[simp] theorem getEnd_iteratorBackup (i : Fin 4) (it : FileIterator) :
    (f.apply (.iteratorBackup i it)).getEnd = f.getEnd := rfl

@[simp] theorem getEnd_limitsBackup (l : Links) :
    (f.apply (.limitsBackup l)).getEnd = f.getEnd := rfl

@[simp] theorem getEnd_limits (l : Links) :
    (f.apply (.limits l)).getEnd = f.getEnd := rfl

@[simp] theorem getEnd_removed (l : Links) :
    (f.apply (.removed l)).getEnd = f.getEnd := rfl

@[simp] theorem getEnd_overwriteStart :
    (f.apply .overwriteStart).getEnd = f.getEnd := rfl

end

@[simp] theorem getEnd_iterator (f : File) (q : ℕ) (l : Links) :
    (f.apply (.iterator q l)).getEnd = f.getEnd := rfl

@[simp] theorem getEnd_dataHeader (f : File) (q : ℕ) (l : Links) (good : Bool) :
    (f.apply (.dataHeader q l good)).getEnd = f.getEnd := rfl

@[simp] theorem getEnd_append (f : File) (r : Record) :
    (f.apply (.append r)).getEnd =
      f.getEnd + calculateDataSize r.data.length := by
  simp only [File.getEnd, File.apply]
  omega

/-! ## The links after a write -/

section
variable {f : File} {before after : ℕ} {L A B : List Entry} {p : ℕ} {d : Text}

theorem linked_bounds (hL : Linked f.recordAt before L after) {q : ℕ}
    (hq : q ∈ positions L) : headerSize ≤ q ∧ q < f.getEnd := by
  obtain ⟨e, he, rfl⟩ := List.mem_map.mp hq
  obtain ⟨r, hr, -⟩ := linked_record hL he
  exact recordAt_some hr

end

/-! ## What keeps the representation -/

theorem complete_apply {f : File} {w : Write} (hf : Complete f)
    (hw : w ≠ .truncate 0) : Complete (f.apply w) := by
  obtain ⟨hstamp, hstatus, hiter, hlim, hrem⟩ := hf
  cases w with
  | truncate n =>
      cases n with
      | zero => exact absurd rfl hw
      | succ n => exact ⟨hstamp, hstatus, hiter, hlim, hrem⟩
  | iteratorBackup i it =>
      refine ⟨hstamp, hstatus, fun j => ?_, hlim, hrem⟩
      by_cases hj : j = i
      · subst hj
        simp [File.apply]
      · simpa [File.apply, Function.update_of_ne hj] using hiter j
  | stamp t => exact ⟨rfl, hstatus, hiter, hlim, hrem⟩
  | status s => exact ⟨hstamp, rfl, hiter, hlim, hrem⟩
  | emptyBackup => exact ⟨hstamp, hstatus, fun _ => rfl, rfl, hrem⟩
  | limitsBackup l => exact ⟨hstamp, hstatus, hiter, rfl, hrem⟩
  | removed l => exact ⟨hstamp, hstatus, hiter, hlim, rfl⟩
  | overwriteStart => exact ⟨rfl, hstatus, hiter, hlim, hrem⟩
  | _ => exact ⟨hstamp, hstatus, hiter, hlim, hrem⟩

theorem complete_applyAll {f : File} {ws : List Write} (hf : Complete f)
    (hws : .truncate 0 ∉ ws) : Complete (Store.applyAll f ws) := by
  induction ws generalizing f with
  | nil => exact hf
  | cons w ws ih =>
      rw [List.mem_cons, not_or] at hws
      exact ih (complete_apply hf (Ne.symm hws.1)) hws.2

/-- The writes to the header. -/
def Write.Header : Write → Prop
  | .iterator _ _ | .dataHeader _ _ _ | .append _ | .truncate _ => False
  | _ => True

section
variable {f : File} {before after : ℕ} {L A B : List Entry} {p : ℕ} {d : Text}

theorem chain_header (w : Write) (hw : w.Header)
    (hL : Chain f before L after) : Chain (f.apply w) before L after := by
  have hc : Complete (f.apply w) := by
    refine complete_apply hL.complete ?_
    rintro rfl
    exact hw
  have hrec : ∀ q, (f.apply w).recordAt q = f.recordAt q := by
    intro q
    cases w <;> first | exact hw.elim | rfl
  have hend : (f.apply w).getEnd = f.getEnd := by
    cases w <;> first | exact hw.elim | rfl
  refine ⟨hc, linked_congr (fun e _ => hrec e.1) hL.linked, ?_, hL.nodup,
    hL.filled⟩
  rw [hend]
  exact hL.fits

theorem chain_headers (ws : List Write) (hws : ∀ w ∈ ws, w.Header)
    (hL : Chain f before L after) :
    Chain (Store.applyAll f ws) before L after := by
  induction ws generalizing f with
  | nil => exact hL
  | cons w ws ih =>
      refine ih ?_ (chain_header w (hws w List.mem_cons_self) hL)
      exact fun v hv => hws v (List.mem_cons_of_mem _ hv)

theorem linked_iterator_of_notMem (hp : p ∉ positions L) (l : Links)
    (hL : Linked f.recordAt before L after) :
    Linked (f.apply (.iterator p l)).recordAt before L after := by
  refine linked_congr (fun e he => ?_) hL
  rw [recordAt_iterator, if_neg]
  rintro rfl
  exact hp (List.mem_map_of_mem he)

theorem chain_iterator_of_notMem (hp : p ∉ positions L) (l : Links)
    (hL : Chain f before L after) :
    Chain (f.apply (.iterator p l)) before L after where
  complete := complete_apply hL.complete (by simp)
  linked := linked_iterator_of_notMem hp l hL.linked
  fits := hL.fits
  nodup := hL.nodup
  filled := hL.filled

theorem chain_dataHeader_of_notMem (hp : p ∉ positions L) (l : Links)
    (good : Bool) (hL : Chain f before L after) :
    Chain (f.apply (.dataHeader p l good)) before L after where
  complete := complete_apply hL.complete (by simp)
  linked := by
    refine linked_congr (fun e he => ?_) hL.linked
    rw [recordAt_dataHeader, if_neg]
    rintro rfl
    exact hp (List.mem_map_of_mem he)
  fits := hL.fits
  nodup := hL.nodup
  filled := hL.filled

theorem notMem_of_nodup_append (h : (positions (A ++ [(p, d)])).Nodup) :
    p ∉ positions A := by
  simp only [positions, List.map_append, List.nodup_append] at h
  intro hp
  exact h.2.2 p hp p (by simp) rfl

/-- The last record of a list is told of another end. -/
theorem chain_setNext (after' : ℕ)
    (hL : Chain f before (A ++ [(p, d)]) after) :
    Chain (f.apply (.iterator p ⟨lastPos before A, after'⟩)) before
      (A ++ [(p, d)]) after' where
  complete := complete_apply hL.complete (by simp)
  linked := by
    have hp := notMem_of_nodup_append hL.nodup
    obtain ⟨hA, ⟨lit, hr⟩, -⟩ := linked_append.mp hL.linked
    refine linked_append.mpr ⟨linked_iterator_of_notMem hp _ hA, ⟨lit, ?_⟩,
      trivial⟩
    rw [recordAt_iterator, if_pos rfl, hr]
    rfl
  fits := hL.fits
  nodup := hL.nodup
  filled := hL.filled

/-- The first record of a list is told of another beginning. -/
theorem chain_setPrev (before' : ℕ)
    (hL : Chain f before ((p, d) :: B) after) :
    Chain (f.apply (.iterator p ⟨before', headPos B after⟩)) before'
      ((p, d) :: B) after where
  complete := complete_apply hL.complete (by simp)
  linked := by
    have hp : p ∉ positions B := (List.nodup_cons.mp hL.nodup).1
    obtain ⟨⟨lit, hr⟩, hB⟩ := hL.linked
    refine ⟨⟨lit, ?_⟩, linked_iterator_of_notMem hp _ hB⟩
    rw [recordAt_iterator, if_pos rfl, hr]
    rfl
  fits := hL.fits
  nodup := hL.nodup
  filled := hL.filled

theorem chain_appendRecord (r : Record) (hL : Chain f before L after) :
    Chain (f.apply (.append r)) before L after where
  complete := complete_apply hL.complete (by simp)
  linked := by
    refine linked_congr (fun e he => ?_) hL.linked
    rw [recordAt_append, if_neg]
    exact Nat.ne_of_lt (linked_bounds hL.linked (List.mem_map_of_mem he)).2
  fits := by
    intro e he
    rw [getEnd_append]
    exact Nat.le_trans (hL.fits e he) (Nat.le_add_right _ _)
  nodup := hL.nodup
  filled := hL.filled

/-- The file is cut behind the records. -/
theorem chain_truncate {n : ℕ} (hn : headerSize ≤ n)
    (hfits : ∀ e ∈ L, e.1 + calculateDataSize e.2.length ≤ n)
    (hL : Chain f before L after) :
    Chain (f.apply (.truncate n)) before L after where
  complete := by
    have hpos := headerSize_pos
    refine complete_apply hL.complete ?_
    rw [ne_eq, Write.truncate.injEq]
    omega
  linked := by
    refine linked_congr (fun e he => ?_) hL.linked
    obtain ⟨r, hr, hdata, -⟩ := linked_record hL.linked he
    rw [recordAt_truncate f e.1 hn, hr, Option.filter_some, if_pos]
    rw [hdata]
    exact decide_eq_true (hfits e he)
  fits := by
    rw [getEnd_truncate f hn]
    exact hfits
  nodup := hL.nodup
  filled := hL.filled

theorem chain_nil (hf : Complete f) (before after : ℕ) :
    Chain f before [] after :=
  ⟨hf, trivial, by simp, List.nodup_nil, by simp⟩

theorem chain_split (hL : Chain f before (A ++ B) after) :
    Chain f before A (headPos B after) ∧
      Chain f (lastPos before A) B after := by
  obtain ⟨hA, hB⟩ := linked_append.mp hL.linked
  have hnodup := hL.nodup
  rw [positions, List.map_append, List.nodup_append] at hnodup
  exact
    ⟨⟨hL.complete, hA, fun e he => hL.fits e (List.mem_append_left _ he),
      hnodup.1, fun e he => hL.filled e (List.mem_append_left _ he)⟩,
    ⟨hL.complete, hB, fun e he => hL.fits e (List.mem_append_right _ he),
      hnodup.2.1, fun e he => hL.filled e (List.mem_append_right _ he)⟩⟩

theorem chain_join (hA : Chain f before A (headPos B after))
    (hB : Chain f (lastPos before A) B after)
    (hnodup : (positions (A ++ B)).Nodup) : Chain f before (A ++ B) after where
  complete := hA.complete
  linked := linked_append.mpr ⟨hA.linked, hB.linked⟩
  fits := by
    intro e he
    rcases List.mem_append.mp he with he | he
    · exact hA.fits e he
    · exact hB.fits e he
  nodup := hnodup
  filled := by
    intro e he
    rcases List.mem_append.mp he with he | he
    · exact hA.filled e he
    · exact hB.filled e he

/-- A record at the end of the file and the list behind it. -/
theorem chain_cons_appended {data : Text} (before : ℕ) (lit : Links) (hd : data ≠ [])
    (hB : Chain f f.getEnd B after) :
    Chain (f.apply (.append ⟨⟨before, headPos B after⟩, data, true, lit⟩)) before
      ((f.getEnd, data) :: B) after := by
  have hB' := chain_appendRecord ⟨⟨before, headPos B after⟩, data, true, lit⟩ hB
  have hnew : f.getEnd ∉ positions B := fun hmem =>
    Nat.lt_irrefl _ (linked_bounds hB.linked hmem).2
  refine ⟨hB'.complete, ⟨⟨lit, by simp⟩, hB'.linked⟩, ?_,
    List.nodup_cons.mpr ⟨hnew, hB.nodup⟩, ?_⟩
  · intro e he
    rcases List.mem_cons.mp he with rfl | he
    · simp only [getEnd_append, Nat.le_refl]
    · exact hB'.fits e he
  · intro e he
    rcases List.mem_cons.mp he with rfl | he
    · exact hd
    · exact hB.filled e he

/-- A new record at the end of the file, between two parts of a list that have
been told of it. -/
theorem chain_insert {data : Text} (lit : Links) (hd : data ≠ [])
    (hA : Chain f before A f.getEnd) (hB : Chain f f.getEnd B after)
    (hnodup : (positions (A ++ B)).Nodup) :
    Chain (f.apply (.append ⟨⟨lastPos before A, headPos B after⟩, data, true,
      lit⟩)) before (A ++ (f.getEnd, data) :: B) after := by
  refine chain_join (chain_appendRecord _ hA) (chain_cons_appended _ lit hd hB) ?_
  have hnewA : f.getEnd ∉ positions A := fun hmem =>
    Nat.lt_irrefl _ (linked_bounds hA.linked hmem).2
  have hnewB : f.getEnd ∉ positions B := fun hmem =>
    Nat.lt_irrefl _ (linked_bounds hB.linked hmem).2
  have hperm : List.Perm (positions (A ++ (f.getEnd, data) :: B))
      (f.getEnd :: positions (A ++ B)) :=
    List.perm_middle.map Prod.fst
  rw [hperm.nodup_iff, List.nodup_cons]
  refine ⟨?_, hnodup⟩
  rw [positions, List.map_append, List.mem_append]
  rintro (hmem | hmem)
  · exact hnewA hmem
  · exact hnewB hmem

theorem limits_truncate {n : ℕ} (hn : headerSize ≤ n) :
    (f.apply (.truncate n)).limits = f.limits := by
  have hpos := headerSize_pos
  obtain ⟨m, rfl⟩ : ∃ m, n = m + 1 := ⟨n - 1, by omega⟩
  rfl

theorem size_truncate {n : ℕ} (hn : headerSize ≤ n) :
    (f.apply (.truncate n)).size = f.size := by
  have hpos := headerSize_pos
  obtain ⟨m, rfl⟩ : ∃ m, n = m + 1 := ⟨n - 1, by omega⟩
  rfl

end

/-- The writes to the header that say nothing about the list. -/
def Write.Aside : Write → Prop
  | .stamp _ | .size _ | .status _ | .emptyBackup | .iteratorBackup _ _
  | .limitsBackup _ | .removed _ => True
  | _ => False

theorem Write.Aside.header {w : Write} (hw : w.Aside) : w.Header := by
  cases w <;> first | exact hw.elim | trivial

theorem sound_aside {f : File} {L : List Entry} (w : Write) (hs : Sound f L)
    (hw : w.Aside) : Sound (f.apply w) L := by
  have hend : (f.apply w).getEnd = f.getEnd := by
    cases w <;> first | exact hw.elim | rfl
  have hlim : (f.apply w).limits = f.limits := by
    cases w <;> first | exact hw.elim | rfl
  have hext : (f.apply w).extent = f.extent := by
    cases w <;> first | exact hw.elim | rfl
  refine ⟨?_, hlim.trans hs.limits, fun hL => hext.trans (hs.bare hL)⟩
  rw [hend]
  exact chain_header w hw.header hs.toChain

theorem sound_asides {f : File} {L : List Entry} {ws : List Write}
    (hs : Sound f L) (hws : ∀ w ∈ ws, w.Aside) :
    Sound (Store.applyAll f ws) L := by
  induction ws generalizing f with
  | nil => exact hs
  | cons w ws ih =>
      refine ih (sound_aside w hs (hws w List.mem_cons_self)) ?_
      exact fun v hv => hws v (List.mem_cons_of_mem _ hv)

/-- The records are the same. -/
def SameRecords (f g : File) : Prop :=
  g.getEnd = f.getEnd ∧ ∀ p, g.recordAt p = f.recordAt p

theorem SameRecords.trans {f g k : File} (h₁ : SameRecords f g)
    (h₂ : SameRecords g k) : SameRecords f k :=
  ⟨h₂.1.trans h₁.1, fun p => (h₂.2 p).trans (h₁.2 p)⟩

theorem same_asides {f : File} {ws : List Write} (hws : ∀ w ∈ ws, w.Aside) :
    SameRecords f (Store.applyAll f ws) := by
  induction ws generalizing f with
  | nil => exact ⟨rfl, fun _ => rfl⟩
  | cons w ws ih =>
      have hw := hws w List.mem_cons_self
      have hone : SameRecords f (f.apply w) := by
        cases w <;> first | exact hw.elim | exact ⟨rfl, fun _ => rfl⟩
      exact hone.trans (ih fun v hv => hws v (List.mem_cons_of_mem _ hv))

/-! ## Reading and writing a record -/

section
variable {f : File} {p : ℕ} {r : Record} {h : Handle}

theorem recordAt_bounds (hr : (f.recordAt p).isSome) :
    headerSize ≤ p ∧ p < f.getEnd := by
  obtain ⟨r, hr⟩ := Option.isSome_iff_exists.mp hr
  exact recordAt_some hr

/-- Reading is stated with what the file has there, so that the writes before
it can be taken off by rewriting. -/
theorem readIterator_run (hr : (f.recordAt p).isSome) :
    (readIterator p false).run f h =
      (Prog.require .syntaxError (f.recordAt p) >>= fun r =>
        (pure ⟨r.links.prev, r.links.next, p⟩ : FileProg FileIterator)).run f h := by
  have hb := recordAt_bounds hr
  simp [readIterator, File.recordAt, hb]

theorem readIterator_getEnd :
    (readIterator f.getEnd false).run f h =
      ⟨.ok ⟨0, 0, f.getEnd⟩, h, []⟩ := by
  simp [readIterator]

theorem writeIterator_run (hr : (f.recordAt p).isSome) (it : FileIterator) :
    (writeIterator p it).run f h = ⟨.ok (), h, [.iterator p it.links]⟩ := by
  simp [writeIterator, (recordAt_bounds hr).1, hr]

end

end Wms.Jobsubmission.FileContainer
