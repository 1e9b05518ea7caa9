import Mathlib.Data.List.Induction
import Wms.Jobsubmission.JobWrapperOutput

/-!
# What the output of a wrapper is taken for

The parser goes over the lines once, with flags. What it answers can be read off
the lines without them: the first line with an error marker decides, and of its
markers the last in the table; without such a line, one that tells an exit status
makes the job a good one; and the exit code is that of the last line that begins
as such lines do. Other lines may make the file one that says something, and a
line that does not fit into the buffer spoils all of it.
-/

namespace Wms.Jobsubmission.LogMonitor.JobWrapperOutputParser

open Wms.Lib

/-! ## What a line says -/

/-- Whether a line has a mark that says how the job ended. -/
def isMarked (buffer : Text) (e : Text × JwopStatus) : Bool := contains buffer e.1

/-- The status of a line with an error marker. -/
def markerStatus (buffer : Text) : Option JwopStatus :=
  (jwErrors.filter (isMarked buffer)).getLast?.map Prod.snd

/-- The exit status a line begins to tell, where it has a number. -/
def exitStatus (buffer : Text) : Option (Option ℤ) :=
  (behind jobExitStatus buffer).map scanInt

/-- Whether it has the exit code of the job. -/
def tellsExit (buffer : Text) : Bool := (exitStatus buffer).join.isSome

/-- Whether it has that of the wrapper. -/
def tellsJwExit (buffer : Text) : Bool := (behind jwExitStatus buffer).isSome

/-- The line is one that the parser calls useful. -/
def isUseful (buffer : Text) : Bool :=
  (markerStatus buffer).isSome || tellsExit buffer || tellsJwExit buffer

/-! ## What is made of a line -/

/-- The line is the first with an error marker. -/
def Parsed.withError (p : Parsed) (buffer : Text) (stat : JwopStatus) : Parsed :=
  { p with
    errors := buffer
    stat := stat
    found := true
    firstErrorFound := true }

section
variable {p : Parsed} {buffer line : Text}

theorem foldl_noteError (es : List (Text × JwopStatus)) :
    es.foldl (noteError buffer) p =
      ((es.filter (isMarked buffer)).getLast?.map Prod.snd).elim p
        (p.withError buffer) := by
  induction es using List.reverseRecOn with
  | nil => rfl
  | append_singleton es e ih =>
      rw [List.foldl_append, List.foldl_cons, List.foldl_nil, ih, noteError,
        List.filter_append]
      cases he : contains buffer e.1 with
      | true =>
          have hmarked : isMarked buffer e = true := he
          rw [if_pos rfl, List.filter_cons_of_pos hmarked, List.filter_nil,
            List.getLast?_append, List.getLast?_singleton, Option.some_or]
          cases (es.filter (isMarked buffer)).getLast? <;> rfl
      | false =>
          have hmarked : ¬ isMarked buffer e = true := by
            rw [isMarked, he]
            exact Bool.false_ne_true
          rw [if_neg Bool.false_ne_true, List.filter_cons_of_neg hmarked,
            List.filter_nil, List.append_nil]

theorem noteErrors_eq :
    noteErrors buffer p =
      if p.firstErrorFound then p
      else (markerStatus buffer).elim p (p.withError buffer) := by
  rw [noteErrors, foldl_noteError]
  rfl

theorem noteExitStatus_eq :
    noteExitStatus buffer p =
      (exitStatus buffer).elim p fun status =>
        status.elim { p with retcode := -1 } fun n =>
          { p with
            retcode := n
            errors := buffer
            found := true
            stat := if p.firstErrorFound then p.stat else .good } := by
  rw [noteExitStatus, exitStatus]
  cases behind jobExitStatus buffer with
  | none => rfl
  | some s =>
      dsimp only [Option.map_some, Option.elim_some]
      cases scanInt s <;> rfl

theorem noteJwExitStatus_eq :
    noteJwExitStatus buffer p =
      if tellsJwExit buffer then { p with found := true } else p := by
  rw [noteJwExitStatus, tellsJwExit]
  cases behind jwExitStatus buffer <;> rfl

/-- The sequence code of a line, which may be an empty text. -/
def sequenceCodeOf (buffer : Text) : Option Text :=
  (behind sequenceCode buffer).map fun s => (scanWord s).getD []

theorem noteSequenceCode_eq :
    noteSequenceCode buffer p =
      (sequenceCodeOf buffer).elim p fun sc => { p with sc := sc } := by
  rw [noteSequenceCode, sequenceCodeOf]
  cases behind sequenceCode buffer <;> rfl

/-- The last stage is about the reason only. -/
theorem noteDoneReason_eq :
    ∃ waiting reason, noteDoneReason buffer p =
      { p with waitingForEndTag := waiting, doneReason := reason } := by
  unfold noteDoneReason
  split
  · split
    · exact ⟨_, _, rfl⟩
    · exact ⟨_, _, rfl⟩
  · split
    · exact ⟨_, _, rfl⟩
    · exact ⟨_, _, rfl⟩

/-! ### Field by field -/

@[simp] theorem firstErrorFound_noteErrors :
    (noteErrors buffer p).firstErrorFound =
      (p.firstErrorFound || (markerStatus buffer).isSome) := by
  rw [noteErrors_eq]
  cases hp : p.firstErrorFound with
  | true => rw [if_pos rfl, hp, Bool.true_or]
  | false =>
      rw [if_neg Bool.false_ne_true, Bool.false_or]
      cases markerStatus buffer with
      | none => exact hp
      | some stat => rfl

@[simp] theorem found_noteErrors :
    (noteErrors buffer p).found =
      (p.found || (!p.firstErrorFound && (markerStatus buffer).isSome)) := by
  rw [noteErrors_eq]
  cases p.firstErrorFound with
  | true => simp
  | false => cases markerStatus buffer <;> simp [Parsed.withError]

@[simp] theorem stat_noteErrors :
    (noteErrors buffer p).stat =
      if p.firstErrorFound then p.stat else (markerStatus buffer).getD p.stat := by
  rw [noteErrors_eq]
  split
  · rfl
  · cases markerStatus buffer <;> rfl

@[simp] theorem retcode_noteErrors : (noteErrors buffer p).retcode = p.retcode := by
  rw [noteErrors_eq]
  split
  · rfl
  · cases markerStatus buffer <;> rfl

@[simp] theorem sc_noteErrors : (noteErrors buffer p).sc = p.sc := by
  rw [noteErrors_eq]
  split
  · rfl
  · cases markerStatus buffer <;> rfl

theorem tellsExit_of_none (h : exitStatus buffer = none) :
    tellsExit buffer = false := by
  rw [tellsExit, h]
  rfl

theorem tellsExit_of_some {status : Option ℤ} (h : exitStatus buffer = some status) :
    tellsExit buffer = status.isSome := by
  rw [tellsExit, h]
  rfl

@[simp] theorem firstErrorFound_noteExitStatus :
    (noteExitStatus buffer p).firstErrorFound = p.firstErrorFound := by
  rw [noteExitStatus_eq]
  rcases exitStatus buffer with _ | _ | n <;> rfl

@[simp] theorem found_noteExitStatus :
    (noteExitStatus buffer p).found = (p.found || tellsExit buffer) := by
  rw [noteExitStatus_eq]
  rcases h : exitStatus buffer with _ | _ | n
  · rw [tellsExit_of_none h, Bool.or_false]
    rfl
  · rw [tellsExit_of_some h, Option.isSome_none, Bool.or_false]
    rfl
  · rw [tellsExit_of_some h, Option.isSome_some, Bool.or_true]
    rfl

@[simp] theorem stat_noteExitStatus :
    (noteExitStatus buffer p).stat =
      if tellsExit buffer && !p.firstErrorFound then .good else p.stat := by
  rw [noteExitStatus_eq]
  rcases h : exitStatus buffer with _ | _ | n
  · rw [tellsExit_of_none h]
    rfl
  · rw [tellsExit_of_some h]
    rfl
  · rw [tellsExit_of_some h]
    cases p.firstErrorFound <;> simp

@[simp] theorem retcode_noteExitStatus :
    (noteExitStatus buffer p).retcode =
      (exitStatus buffer).elim p.retcode fun status => status.getD (-1) := by
  rw [noteExitStatus_eq]
  rcases exitStatus buffer with _ | _ | n <;> rfl

@[simp] theorem sc_noteExitStatus : (noteExitStatus buffer p).sc = p.sc := by
  rw [noteExitStatus_eq]
  rcases exitStatus buffer with _ | _ | n <;> rfl

/-- What all stages of a line come to. -/
theorem parseLine_fields :
    (parseLine line p).firstErrorFound =
        (p.firstErrorFound || (markerStatus (bufferOf line)).isSome) ∧
      (parseLine line p).found =
        (p.found || (!p.firstErrorFound && (markerStatus (bufferOf line)).isSome) ||
          tellsExit (bufferOf line) || tellsJwExit (bufferOf line)) ∧
      (parseLine line p).stat =
        (if tellsExit (bufferOf line) &&
            !(p.firstErrorFound || (markerStatus (bufferOf line)).isSome) then .good
          else if p.firstErrorFound then p.stat
          else (markerStatus (bufferOf line)).getD p.stat) ∧
      (parseLine line p).retcode =
        ((exitStatus (bufferOf line)).elim p.retcode fun status => status.getD (-1)) ∧
      (parseLine line p).sc = (sequenceCodeOf (bufferOf line)).getD p.sc := by
  generalize hb : bufferOf line = buffer
  obtain ⟨waiting, reason, hreason⟩ := @noteDoneReason_eq
    (noteSequenceCode buffer (noteJwExitStatus buffer
      (noteExitStatus buffer (noteErrors buffer p)))) buffer
  rw [parseLine, hb, hreason, noteSequenceCode_eq, noteJwExitStatus_eq]
  cases sequenceCodeOf buffer with
  | none => cases tellsJwExit buffer <;> simp
  | some sc => cases tellsJwExit buffer <;> simp

end

/-! ## What the lines say -/

/-- The first line with an error marker decides. -/
def statOf (before : JwopStatus) (buffers : List Text) : JwopStatus :=
  (buffers.findSome? markerStatus).getD
    (if buffers.any tellsExit then .good else before)

/-- The last line that begins to tell an exit status decides. -/
def codeOf (before : ℤ) (buffers : List Text) : ℤ :=
  (buffers.filterMap exitStatus).getLast?.elim before fun status => status.getD (-1)

/-- The last sequence code of some lines. -/
def scOf (before : Text) (buffers : List Text) : Text :=
  (buffers.filterMap sequenceCodeOf).getLast?.getD before

/-- The variables are what the lines say. -/
structure Reads (before : Parsed) (buffers : List Text) (p : Parsed) : Prop where
  marked : p.firstErrorFound = buffers.any fun buffer => (markerStatus buffer).isSome
  found : p.found = buffers.any isUseful
  stat : p.stat = statOf before.stat buffers
  retcode : p.retcode = codeOf before.retcode buffers
  sc : p.sc = scOf before.sc buffers

section
variable {before p : Parsed} {buffers : List Text} {line : Text}

theorem findSome?_of_marked
    (h : (buffers.any fun buffer => (markerStatus buffer).isSome) = false) :
    buffers.findSome? markerStatus = none := by
  rw [List.findSome?_eq_none_iff]
  intro buffer hbuffer
  rw [List.any_eq_false] at h
  exact Option.not_isSome_iff_eq_none.mp (h buffer hbuffer)

theorem findSome?_isSome
    (h : (buffers.any fun buffer => (markerStatus buffer).isSome) = true) :
    ∃ stat, buffers.findSome? markerStatus = some stat := by
  rw [List.any_eq_true] at h
  obtain ⟨buffer, hmem, hsome⟩ := h
  refine Option.isSome_iff_exists.mp ?_
  exact List.findSome?_isSome_iff.mpr ⟨buffer, hmem, hsome⟩

theorem Reads.marked_found (h : Reads before buffers p)
    (hp : p.firstErrorFound = true) : p.found = true := by
  rw [h.marked, List.any_eq_true] at hp
  obtain ⟨buffer, hmem, hsome⟩ := hp
  rw [h.found, List.any_eq_true]
  exact ⟨buffer, hmem, by simp [isUseful, hsome]⟩

theorem Reads.append (h : Reads before buffers p) :
    Reads before (buffers ++ [bufferOf line]) (parseLine line p) := by
  obtain ⟨hmarked, hfound, hstat, hretcode, hsc⟩ := @parseLine_fields p line
  constructor
  · rw [hmarked, h.marked]
    simp
  · have hold := h.marked_found
    rw [hfound, h.found]
    rw [h.found] at hold
    cases hp : p.firstErrorFound with
    | true => simp [hold hp]
    | false => simp [isUseful, Bool.or_assoc]
  · rw [hstat, statOf, List.findSome?_append, List.any_append, h.stat, statOf]
    cases hp : p.firstErrorFound with
    | true =>
        obtain ⟨stat, hsome⟩ := findSome?_isSome (h.marked ▸ hp)
        simp [hsome]
    | false =>
        have hnone := findSome?_of_marked (h.marked ▸ hp)
        cases hline : markerStatus (bufferOf line) with
        | some stat => simp [hnone, hline]
        | none =>
            cases htells : tellsExit (bufferOf line) <;> simp [hnone, hline, htells]
  · rw [hretcode, h.retcode, codeOf, codeOf, List.filterMap_append,
      List.getLast?_append]
    cases hline : exitStatus (bufferOf line) <;> simp [hline]
  · rw [hsc, h.sc, scOf, scOf, List.filterMap_append, List.getLast?_append]
    cases hline : sequenceCodeOf (bufferOf line) <;> simp [hline]

/-- The lines of a file as the parser has them. -/
def buffersOf (text : Text) : List Text := (IStream.lines text).map bufferOf

theorem reads_foldl (lines : List Text) (hfirst : before.firstErrorFound = false)
    (hfound : before.found = false) :
    Reads before (lines.map bufferOf)
      (lines.foldl (fun p line => parseLine line p) before) := by
  induction lines using List.reverseRecOn with
  | nil => exact ⟨hfirst, hfound, rfl, rfl, rfl⟩
  | append_singleton lines line ih =>
      rw [List.foldl_append, List.map_append]
      exact ih.append

end

/-! ## What a file says -/

/-- A line does not fit into the buffer. -/
def isSpoilt (text : Text) : Bool := IStream.overflows bufsiz text

/-- Whether a file says anything at all. -/
def saysSomething (text : Text) : Bool :=
  isSpoilt text || (buffersOf text).any isUseful

/-- What a file says about the job. -/
def verdictOf (before : JwopStatus) (text : Text) : JwopStatus :=
  if isSpoilt text then .resubmit else statOf before (buffersOf text)

/-- The exit code that a file gives. -/
def exitCodeOf (text : Text) : ℤ :=
  if isSpoilt text then -1 else codeOf (-1) (buffersOf text)

section
variable {strerror errors text : Text} {retcode : ℤ} {stat : JwopStatus}
  {buffers : List Text}

theorem parseStream_some :
    (parseStream strerror (some text) errors retcode stat).found =
        saysSomething text ∧
      (parseStream strerror (some text) errors retcode stat).stat =
        verdictOf stat text ∧
      (parseStream strerror (some text) errors retcode stat).retcode =
        (if isSpoilt text then -1 else codeOf retcode (buffersOf text)) := by
  rw [parseStream, IStream.eachLine_ofText, saysSomething, verdictOf, isSpoilt]
  cases IStream.overflows bufsiz text with
  | true => exact ⟨rfl, rfl, rfl⟩
  | false =>
      have hreads := @reads_foldl ⟨false, false, false, errors, retcode, stat,
        "NoToken".toList, []⟩ (IStream.lines text) rfl rfl
      exact ⟨hreads.found, hreads.stat, hreads.retcode⟩

/-- Lines that say nothing leave the status alone. -/
theorem statOf_of_useless (h : buffers.any isUseful = false) :
    statOf stat buffers = stat := by
  rw [List.any_eq_false] at h
  have hmarked : buffers.findSome? markerStatus = none := by
    rw [List.findSome?_eq_none_iff]
    intro buffer hbuffer
    have := h buffer hbuffer
    rw [isUseful, Bool.or_eq_true, Bool.or_eq_true] at this
    exact Option.not_isSome_iff_eq_none.mp fun hsome => this (Or.inl (Or.inl hsome))
  have htells : buffers.any tellsExit = false := by
    rw [List.any_eq_false]
    intro buffer hbuffer htell
    have := h buffer hbuffer
    rw [isUseful, Bool.or_eq_true, Bool.or_eq_true] at this
    exact this (Or.inl (Or.inr htell))
  rw [statOf, hmarked, htells]
  rfl

/-- No exit code comes from lines that tell none. -/
theorem codeOf_of_useless (h : buffers.any isUseful = false) :
    codeOf (-1) buffers = -1 := by
  rw [List.any_eq_false] at h
  rw [codeOf]
  cases hlast : (buffers.filterMap exitStatus).getLast? with
  | none => rfl
  | some status =>
      have hmem : status ∈ buffers.filterMap exitStatus := List.mem_of_getLast? hlast
      rw [List.mem_filterMap] at hmem
      obtain ⟨buffer, hbuffer, hstatus⟩ := hmem
      have := h buffer hbuffer
      rw [isUseful, Bool.or_eq_true, Bool.or_eq_true, tellsExit_of_some hstatus] at this
      cases status with
      | none => rfl
      | some n => exact absurd (Or.inl (Or.inr rfl)) this

theorem not_useful_of_silent (h : saysSomething text = false) :
    isSpoilt text = false ∧ (buffersOf text).any isUseful = false := by
  rw [saysSomething, Bool.or_eq_false_iff] at h
  exact h

end

/-! ## The answer -/

/-- The file the parser goes by, and the status it has in mind where the file does
not tell one. -/
def deciding (useMaradonaFile : Bool) (standardOutput maradonaFile : Option Text) :
    Option (Text × JwopStatus) :=
  match standardOutput.filter saysSomething with
  | some text => some (text, .good)
  | none =>
      if useMaradonaFile then
        (maradonaFile.filter saysSomething).map fun text =>
          (text, if standardOutput.isSome then .good else .resubmit)
      else none

section
variable {strerror text : Text} {useMaradonaFile : Bool}
  {standardOutput maradonaFile : Option Text} {before : JwopStatus}

theorem deciding_of_loud (h : saysSomething text = true) :
    deciding useMaradonaFile (some text) maradonaFile = some (text, .good) := by
  rw [deciding, Option.filter_some, if_pos h]

theorem deciding_of_silent (h : ∀ text ∈ standardOutput, saysSomething text = false) :
    deciding useMaradonaFile standardOutput maradonaFile =
      if useMaradonaFile then
        (maradonaFile.filter saysSomething).map fun text =>
          (text, if standardOutput.isSome then .good else .resubmit)
      else none := by
  rw [deciding]
  cases standardOutput with
  | none => rfl
  | some text => rw [Option.filter_some, h text rfl, if_neg Bool.false_ne_true]

/-- What is in the variables when the standard output says nothing. -/
theorem parseStream_silent (h : ∀ text ∈ standardOutput, saysSomething text = false) :
    (parseStream strerror standardOutput [] (-1) .good).found = false ∧
      (parseStream strerror standardOutput [] (-1) .good).stat =
        (if standardOutput.isSome then .good else .resubmit) ∧
      (parseStream strerror standardOutput [] (-1) .good).retcode = -1 := by
  cases standardOutput with
  | none => exact ⟨rfl, rfl, rfl⟩
  | some text =>
      obtain ⟨hfound, hstat, hretcode⟩ := @parseStream_some strerror [] text (-1) .good
      obtain ⟨hspoilt, huseless⟩ := not_useful_of_silent (h text rfl)
      rw [hfound, hstat, hretcode, verdictOf, hspoilt]
      exact ⟨h text rfl, statOf_of_useless huseless, codeOf_of_useless huseless⟩

theorem parseFile_of_loud (h : saysSomething text = true) :
    (parseFile strerror useMaradonaFile (some text) maradonaFile).status =
        verdictOf .good text ∧
      (parseFile strerror useMaradonaFile (some text) maradonaFile).retcode =
        exitCodeOf text := by
  obtain ⟨hfound, hstat, hretcode⟩ := @parseStream_some strerror [] text (-1) .good
  rw [h] at hfound
  rw [parseFile, if_pos hfound]
  exact ⟨hstat, hretcode⟩

theorem parseFile_of_silent (h : ∀ text ∈ standardOutput, saysSomething text = false) :
    (parseFile strerror useMaradonaFile standardOutput maradonaFile).status =
        (deciding useMaradonaFile standardOutput maradonaFile).elim .resubmit
          (fun file => verdictOf file.2 file.1) ∧
      (parseFile strerror useMaradonaFile standardOutput maradonaFile).retcode =
        (deciding useMaradonaFile standardOutput maradonaFile).elim (-1)
          (fun file => exitCodeOf file.1) := by
  obtain ⟨hfound, hstat, hretcode⟩ := @parseStream_silent strerror _ h
  rw [deciding_of_silent h, parseFile,
    if_neg (by rw [hfound]; exact Bool.false_ne_true)]
  cases useMaradonaFile with
  | false => exact ⟨rfl, rfl⟩
  | true =>
      rw [if_pos rfl, if_pos rfl, hstat, hretcode]
      cases maradonaFile with
      | none => exact ⟨rfl, rfl⟩
      | some text =>
          obtain ⟨hfound', hstat', hretcode'⟩ := @parseStream_some strerror
            "Standard output does not contain useful data.".toList text (-1)
            (if standardOutput.isSome then .good else .resubmit)
          rw [Option.filter_some]
          cases hsays : saysSomething text with
          | true =>
              rw [if_pos (hfound'.trans hsays), if_pos rfl]
              exact ⟨hstat', hretcode'⟩
          | false =>
              rw [if_neg (by rw [hfound', hsays]; exact Bool.false_ne_true),
                if_neg Bool.false_ne_true]
              exact ⟨rfl, rfl⟩

/-- The status and the exit code are those of the deciding file. -/
theorem parseFile_eq (strerror : Text) (useMaradonaFile : Bool)
    (standardOutput maradonaFile : Option Text) :
    (parseFile strerror useMaradonaFile standardOutput maradonaFile).status =
        (deciding useMaradonaFile standardOutput maradonaFile).elim .resubmit
          (fun file => verdictOf file.2 file.1) ∧
      (parseFile strerror useMaradonaFile standardOutput maradonaFile).retcode =
        (deciding useMaradonaFile standardOutput maradonaFile).elim (-1)
          (fun file => exitCodeOf file.1) := by
  rcases Decidable.em (∀ text ∈ standardOutput, saysSomething text = false) with h | h
  · exact parseFile_of_silent h
  · cases standardOutput with
    | none => exact absurd (fun text ht => by cases ht) h
    | some text =>
        have hloud : saysSomething text = true := by
          rw [← Bool.not_eq_false]
          intro hsilent
          exact h fun _ ht => Option.some.inj ht ▸ hsilent
        rw [deciding_of_loud hloud]
        exact parseFile_of_loud hloud

/-! ## The verdict -/

theorem status_of_jwErrors : ∀ e ∈ jwErrors, e.2 = .resubmit ∨ e.2 = .abort := by
  decide

/-- No marker speaks for the job. -/
theorem markerStatus_ne_good {buffer : Text} : markerStatus buffer ≠ some .good := by
  intro h
  rw [markerStatus, Option.map_eq_some_iff] at h
  obtain ⟨e, hlast, hgood⟩ := h
  have hmem : e ∈ jwErrors := (List.mem_filter.mp (List.mem_of_getLast? hlast)).1
  rcases status_of_jwErrors e hmem with he | he
  · rw [he] at hgood
    cases hgood
  · rw [he] at hgood
    cases hgood

theorem statOf_eq_good_iff {buffers : List Text} :
    statOf before buffers = .good ↔
      (∀ buffer ∈ buffers, markerStatus buffer = none) ∧
        ((∃ buffer ∈ buffers, tellsExit buffer = true) ∨ before = .good) := by
  rw [statOf]
  cases hfirst : buffers.findSome? markerStatus with
  | some stat =>
      obtain ⟨buffer, hmem, hstat⟩ := List.exists_of_findSome?_eq_some hfirst
      rw [Option.getD_some]
      constructor
      · rintro rfl
        exact absurd hstat markerStatus_ne_good
      · intro h
        rw [h.1 buffer hmem] at hstat
        cases hstat
  | none =>
      rw [List.findSome?_eq_none_iff] at hfirst
      rw [Option.getD_none]
      cases htells : buffers.any tellsExit with
      | true =>
          exact ⟨fun _ => ⟨hfirst, Or.inl (List.any_eq_true.mp htells)⟩, fun _ => rfl⟩
      | false =>
          rw [List.any_eq_false] at htells
          constructor
          · intro hbefore
            exact ⟨hfirst, Or.inr hbefore⟩
          · rintro ⟨-, ⟨buffer, hmem, htell⟩ | hbefore⟩
            · exact absurd htell (htells buffer hmem)
            · exact hbefore

end

/-- A file speaks for the job: no line is too long, none has an error marker, and
one tells an exit status, unless the job counts as a good one without. -/
structure Vouches (text : Text) (before : JwopStatus) : Prop where
  fits : isSpoilt text = false
  unmarked : ∀ buffer ∈ buffersOf text, markerStatus buffer = none
  told : (∃ buffer ∈ buffersOf text, tellsExit buffer = true) ∨ before = .good

theorem verdictOf_eq_good_iff {text : Text} {before : JwopStatus} :
    verdictOf before text = .good ↔ Vouches text before := by
  rw [verdictOf]
  cases hspoilt : isSpoilt text with
  | true =>
      constructor
      · intro h
        cases h
      · intro h
        rw [h.fits] at hspoilt
        cases hspoilt
  | false =>
      rw [if_neg Bool.false_ne_true, statOf_eq_good_iff]
      exact ⟨fun h => ⟨hspoilt, h.1, h.2⟩, fun h => ⟨h.unmarked, h.told⟩⟩

theorem vouched_of_good {strerror : Text} {useMaradonaFile : Bool}
    {standardOutput maradonaFile : Option Text}
    (h : (parseFile strerror useMaradonaFile standardOutput maradonaFile).status =
      .good) :
    ∃ text before,
      deciding useMaradonaFile standardOutput maradonaFile = some (text, before) ∧
        Vouches text before ∧
          (parseFile strerror useMaradonaFile standardOutput maradonaFile).retcode =
            exitCodeOf text := by
  obtain ⟨hstatus, hretcode⟩ := parseFile_eq strerror useMaradonaFile standardOutput
    maradonaFile
  rw [hstatus] at h
  rw [hretcode]
  cases hdeciding : deciding useMaradonaFile standardOutput maradonaFile with
  | none =>
      rw [hdeciding] at h
      cases h
  | some file =>
      rw [hdeciding] at h
      exact ⟨file.1, file.2, rfl, verdictOf_eq_good_iff.mp h, rfl⟩

/-- A job is taken for a good one exactly if the file that decides speaks for it,
and its exit code is then the last one that this file tells. -/
theorem judged_good_iff (strerror : Text) (useMaradonaFile : Bool)
    (standardOutput maradonaFile : Option Text) (n : ℤ) :
    (parseFile strerror useMaradonaFile standardOutput maradonaFile).status = .good ∧
        (parseFile strerror useMaradonaFile standardOutput maradonaFile).retcode = n ↔
      ∃ text before,
        deciding useMaradonaFile standardOutput maradonaFile = some (text, before) ∧
          Vouches text before ∧ exitCodeOf text = n := by
  constructor
  · rintro ⟨hgood, rfl⟩
    obtain ⟨text, before, hdeciding, hvouches, hcode⟩ := vouched_of_good hgood
    exact ⟨text, before, hdeciding, hvouches, hcode.symm⟩
  · rintro ⟨text, before, hdeciding, hvouches, rfl⟩
    obtain ⟨hstatus, hretcode⟩ := parseFile_eq strerror useMaradonaFile standardOutput
      maradonaFile
    rw [hstatus, hretcode, hdeciding]
    exact ⟨verdictOf_eq_good_iff.mpr hvouches, rfl⟩

/-- The end of the wrapper alone, without that of the job, makes the job a good
one. -/
example :
    (parseFile [] false (some "jw exit status = 1\n".toList) none).status = .good := by
  decide +kernel

/-- A line without its end is not read. -/
example :
    (parseFile [] false (some "job exit status = 0".toList) none).status =
      .resubmit := by
  decide +kernel

end Wms.Jobsubmission.LogMonitor.JobWrapperOutputParser
