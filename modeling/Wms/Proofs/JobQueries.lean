import Wms.Ice.JobQueries
import Mathlib.Data.List.Infix

/-!
# What comes back of a job

A statement about a job is read by SQLite as it was meant, for the marker cannot
overlap a value and the quotes in the values are doubled. What does not come
back is a change without its flag, and a token that its getter changes.
-/

namespace Wms.Ice

open Wms.Lib

/-! ## Fields -/

theorem mem_allFields (f : Field) : f ∈ allFields := by
  cases f <;> decide

theorem nodup_names : (allFields.map Field.name).Nodup := by
  have hspelled : ∃ words,
      Spells (fun cs => (String.ofList cs).toList) (allFields.map Field.name)
        words ∧ (words.map charCode).Nodup :=
    ⟨_, by repeat constructor, by decide +kernel⟩
  obtain ⟨words, hspells, hcodes⟩ := hspelled
  refine hspells.nodup (fun cs cs' h => ?_) hcodes
  rwa [String.toList_ofList, String.toList_ofList] at h

theorem name_inj {f f' : Field} (h : f.name = f'.name) : f = f' :=
  List.inj_on_of_nodup_map nodup_names (mem_allFields f) (mem_allFields f') h

theorem columnOf_name (f : Field) : columnOf f.name = some f := by
  have hsome : (columnOf f.name).isSome := by
    rw [columnOf, List.find?_isSome]
    exact ⟨f, mem_allFields f, decide_eq_true rfl⟩
  obtain ⟨f', hf'⟩ := Option.isSome_iff_exists.mp hsome
  have hfound : allFields.find? (fun g => decide (g.name = f.name)) = some f' := hf'
  have hname := List.find?_some hfound
  rw [hf', name_inj (of_decide_eq_true hname)]

/-- The characters of the names of columns. -/
def isNameChar (c : Char) : Bool := c.isLower || c = '_'

theorem name_chars (f : Field) : f.name.all isNameChar = true := by
  cases f <;> exact all_literal (by decide)

theorem not_mem_name {c : Char} (f : Field) (h : isNameChar c = false) : c ∉ f.name := by
  intro hc
  rw [List.all_eq_true.mp (name_chars f) c hc] at h
  cases h

/-- Every number is one of its type. -/
structure JobRow.InRange (r : JobRow) : Prop where
  numLoggedStatusChanges : r.numLoggedStatusChanges < 2 ^ 16
  statusPollRetryCount : r.statusPollRetryCount < 2 ^ 16
  exitCode : r.exitCode < 2 ^ 16
  lastSeen : -2 ^ 63 ≤ r.lastSeen ∧ r.lastSeen < 2 ^ 63
  lastEmptyNotificationTime :
    -2 ^ 63 ≤ r.lastEmptyNotificationTime ∧ r.lastEmptyNotificationTime < 2 ^ 63
  isbproxyTimeEnd : -2 ^ 63 ≤ r.isbproxyTimeEnd ∧ r.isbproxyTimeEnd < 2 ^ 63
  lastPollerVisited : -2 ^ 63 ≤ r.lastPollerVisited ∧ r.lastPollerVisited < 2 ^ 63
  creamDbid : r.creamDbid < 2 ^ 64

theorem ofCode_code (st : JobStatus) :
    JobStatus.ofCode (atoi (Nat.toDigits 10 st.code)) = st := by
  have hcode : st.code < 2 ^ 31 := by cases st <;> decide
  rw [atoi_toDigits hcode]
  cases st <;> rfl

theorem strtous_toDigits {n : ℕ} (h : n < 2 ^ 16) :
    strtous (Nat.toDigits 10 n) = n := by
  unfold strtous
  rw [strtoull_toDigits (by omega), Nat.mod_eq_of_lt h]

theorem bit_eq_one (b : Bool) : decide (bit b = ['1']) = b := by
  cases b <;> rfl

/-- A row is read back as what was written. -/
theorem fetch_text {r : JobRow} (h : r.InRange) :
    fetchJobsCallback (fun i => (allFields.map r.text).getD i []) = r := by
  have hs := strtoll_signedDigits h.lastSeen.1 h.lastSeen.2
  have he := strtoll_signedDigits h.lastEmptyNotificationTime.1
    h.lastEmptyNotificationTime.2
  have hi := strtoll_signedDigits h.isbproxyTimeEnd.1 h.isbproxyTimeEnd.2
  have hp := strtoll_signedDigits h.lastPollerVisited.1 h.lastPollerVisited.2
  have hn := strtous_toDigits h.numLoggedStatusChanges
  have hc := strtous_toDigits h.statusPollRetryCount
  have hx := strtous_toDigits h.exitCode
  have hd := strtoull_toDigits h.creamDbid
  have hst := ofCode_code r.status
  have hprev := ofCode_code r.prevStatus
  have hk := bit_eq_one r.killedByice
  have hr := bit_eq_one r.proxyRenewable
  unfold fetchJobsCallback
  simp only [allFields, List.map_cons, List.map_nil, List.getD_cons_zero,
    List.getD_cons_succ, JobRow.text]
  rw [hs, he, hi, hp, hn, hc, hx, hd, hst, hprev, hk, hr]

/-! ## The marker -/

section

variable (ptr : Option ℤ) (sec usec : ℤ)

/-- What each marker begins with. -/
def markerTag : Text := "START_GLITEWMSICE_SQL_STRING_TAG_".toList

/-- What stands in the marker behind the tag. -/
def markerTail : Text :=
  (ptr.map signedDigits).getD [] ++
    '_' :: (signedDigits sec ++ '_' :: signedDigits usec)

theorem getTmpName_eq : getTmpName ptr sec usec = markerTag ++ markerTail ptr sec usec :=
  rfl

/-- The characters of the rest of a marker. -/
def isMarkerChar (c : Char) : Bool := c.isDigit || c = '-' || c = '_'

theorem signedDigits_chars (t : ℤ) (c : Char) (hc : c ∈ signedDigits t) :
    isMarkerChar c = true := by
  have hdigits : ∀ d ∈ Nat.toDigits 10 t.natAbs, isMarkerChar d = true := by
    intro d hd
    have hdigit := Nat.isDigit_of_mem_toDigits (by omega) (by omega) hd
    unfold isMarkerChar
    rw [hdigit]
    rfl
  unfold signedDigits at hc
  split at hc
  · rcases List.mem_cons.mp hc with rfl | hc
    · rfl
    · exact hdigits c hc
  · exact hdigits c hc

theorem markerTail_chars (c : Char) (hc : c ∈ markerTail ptr sec usec) :
    isMarkerChar c = true := by
  unfold markerTail at hc
  simp only [List.mem_append, List.mem_cons] at hc
  rcases hc with hc | rfl | hc | rfl | hc
  · cases ptr with
    | none => exact absurd hc List.not_mem_nil
    | some t => exact signedDigits_chars t c hc
  · rfl
  · exact signedDigits_chars sec c hc
  · rfl
  · exact signedDigits_chars usec c hc

theorem not_mem_getTmpName {c : Char} (htag : c ∉ markerTag)
    (hchar : isMarkerChar c = false) : c ∉ getTmpName ptr sec usec := by
  rw [getTmpName_eq, List.mem_append]
  rintro (h | h)
  · exact htag h
  · rw [markerTail_chars ptr sec usec c h] at hchar
    exact Bool.false_ne_true hchar.symm

theorem getTmpName_ne_nil : getTmpName ptr sec usec ≠ [] := by
  rw [getTmpName_eq]
  exact fun h => absurd (List.append_eq_nil_iff.mp h).1 (by decide)

theorem not_infix_getTmpName {s : Text} (h : 'G' ∉ s) :
    ¬ getTmpName ptr sec usec <:+: s := by
  intro hin
  have hmem : 'G' ∈ getTmpName ptr sec usec := by
    rw [getTmpName_eq]
    exact List.mem_append_left _ (by decide)
  exact h (hin.subset hmem)

/-- An end of the tag that begins like the tag is all of it. -/
theorem markerTag_ends : ∀ k ∈ List.range 33, k ≠ 0 →
    ((markerTag.drop k).take 3).isPrefixOf markerTag = false := by decide

/-- The marker cannot overlap itself. -/
theorem unbordered_getTmpName : Unbordered (getTmpName ptr sec usec) := by
  rintro b hne hproper hprefix ⟨a, ha⟩
  rw [getTmpName_eq] at ha hprefix hproper
  have hlength : markerTag.length = 33 := rfl
  have hstart : a ≠ [] := by
    rintro rfl
    exact hproper ha
  rcases List.append_eq_append_iff.mp ha with ⟨rest, htag, hb⟩ | ⟨rest, -, htail⟩
  · -- it would begin within the tag
    cases rest with
    | nil =>
        rw [List.nil_append] at hb
        obtain ⟨c, b', rfl⟩ := List.exists_cons_of_ne_nil hne
        have hchar := markerTail_chars ptr sec usec c (hb ▸ List.mem_cons_self)
        have hc : c = 'S' := by
          obtain ⟨t, ht⟩ := hprefix
          exact (List.cons.inj ht).1
        rw [hc] at hchar
        exact absurd hchar (by decide)
    | cons c rest =>
        have hk : a.length ∈ List.range 33 := by
          rw [List.mem_range, ← hlength, htag, List.length_append, List.length_cons]
          omega
        have hdrop : markerTag.drop a.length = c :: rest := by
          rw [htag, List.drop_left]
        have hfalse := markerTag_ends a.length hk fun h0 =>
          hstart (List.length_eq_zero_iff.mp h0)
        rw [hdrop] at hfalse
        have htake : (c :: rest).take 3 <+: markerTag := by
          have hlong : (c :: rest).take 3 <+: markerTag ++ markerTail ptr sec usec := by
            refine (List.take_prefix 3 _).trans (List.IsPrefix.trans ?_ hprefix)
            rw [hb]
            exact List.prefix_append _ _
          refine List.prefix_of_prefix_length_le hlong (List.prefix_append _ _) ?_
          rw [List.length_take, hlength]
          omega
        rw [List.isPrefixOf_iff_prefix.mpr htake] at hfalse
        cases hfalse
  · obtain ⟨c, b', rfl⟩ := List.exists_cons_of_ne_nil hne
    have hchar := markerTail_chars ptr sec usec c (by
      rw [htail]
      exact List.mem_append_right _ List.mem_cons_self)
    have hc : c = 'S' := by
      obtain ⟨t, ht⟩ := hprefix
      exact (List.cons.inj ht).1
    rw [hc] at hchar
    exact absurd hchar (by decide)

end

/-! ## The texts of the statements -/

/-- The commas between the pieces belong to the pieces behind them. -/
theorem flatMap_commas {α : Type} (g : α → Text) (x : α) (xs : List α) :
    (x :: xs).flatMap (fun y => g y ++ [',']) =
      g x ++ (xs.flatMap fun y => ',' :: g y) ++ [','] := by
  induction xs generalizing x with
  | nil => simp
  | cons y ys ih =>
      rw [List.flatMap_cons, ih, List.flatMap_cons]
      simp only [List.append_assoc, List.cons_append, List.nil_append]

theorem length_le_commas {α : Type} (g : α → Text) (xs : List α) :
    xs.length ≤ (xs.flatMap fun x => ',' :: g x).length := by
  induction xs with
  | nil => exact Nat.le_refl 0
  | cons x xs ih =>
      rw [List.flatMap_cons, List.length_append, List.length_cons, List.length_cons]
      omega

/-- The pieces of an update, with the values behind them. -/
def updateParts (v : Field × Text) (vs : List (Field × Text)) (gid : Text) :
    List (Text × Text) :=
  ("UPDATE jobs SET ".toList ++ v.1.name ++ ['='], v.2) ::
    (vs.map (fun w => (',' :: (w.1.name ++ ['=']), w.2)) ++
      [(" WHERE ".toList ++ Field.name .gridJobid ++ ['='], gid)])

/-- The pieces of an insertion. -/
def insertParts (r : JobRow) (f : Field) (fs : List Field) : List (Text × Text) :=
  ("INSERT OR REPLACE INTO jobs (".toList ++ getQueryFields ++ ") VALUES (".toList,
      r.text f) ::
    fs.map fun g => ([','], r.text g)

variable {marker : Text}

theorem updateDatabase_nil {j : CreamJob} (h : changedValues j = some []) :
    updateDatabase marker j = some [] := by
  unfold updateDatabase
  rw [h]
  rfl

theorem updateDatabase_cons {j : CreamJob} {v : Field × Text}
    {vs : List (Field × Text)} (h : changedValues j = some (v :: vs)) :
    updateDatabase marker j =
      some (marked marker (updateParts v vs j.gridJobid) [';']) := by
  have hsql : (v :: vs).flatMap (fun w => assignmentText marker w.1 w.2) =
      (v.1.name ++ ['='] ++ withSQLDelimiters marker v.2) ++
        (vs.flatMap fun w => ',' :: (w.1.name ++ ['='] ++
          withSQLDelimiters marker w.2)) ++ [','] :=
    flatMap_commas (fun w : Field × Text =>
      w.1.name ++ ['='] ++ withSQLDelimiters marker w.2) v vs
  unfold updateDatabase
  rw [h, Option.map_some, hsql]
  dsimp only
  rw [if_neg (by simp), if_pos List.getLast?_concat, List.dropLast_concat]
  unfold marked updateParts withSQLDelimiters
  simp only [List.flatMap_cons, List.flatMap_append, List.flatMap_map,
    List.flatMap_nil, List.append_assoc, List.cons_append, List.nil_append,
    List.append_nil]

theorem createJobSql_eq (j : CreamJob) {f : Field} {fs : List Field}
    (h : allFields = f :: fs) :
    createJobSql marker j = marked marker (insertParts j.toJobRow f fs) [')'] := by
  have hsql : getQueryValues marker j =
      withSQLDelimiters marker (j.text f) ++
        fs.flatMap fun g => ',' :: withSQLDelimiters marker (j.text g) := by
    unfold getQueryValues
    rw [h, flatMap_commas (fun g => withSQLDelimiters marker (j.text g)),
      List.dropLast_concat]
  unfold createJobSql
  rw [hsql]
  unfold marked insertParts withSQLDelimiters
  simp only [List.flatMap_cons, List.flatMap_map, List.append_assoc,
    List.cons_append, List.nil_append]

/-! ## Reading them -/

theorem dropText_append (expected s : Text) : dropText expected (expected ++ s) = some s := by
  unfold dropText
  rw [if_pos (List.isPrefixOf_iff_prefix.mpr (List.prefix_append _ _)),
    List.drop_left]

theorem readColumn_eq {name v rest : Text} (hname : '=' ∉ name)
    (hrest : rest.head? ≠ some '\'') :
    readColumn (name ++ '=' :: (quoted v ++ rest)) = some ((name, v), rest) := by
  obtain ⟨htake, hdrop⟩ := span_append (p := (· ≠ '=')) (a := name)
    (b := '=' :: (quoted v ++ rest))
    (fun c hc => decide_eq_true fun heq => hname (heq ▸ hc))
    (fun c hc => by cases hc; decide)
  unfold readColumn
  rw [hdrop, htake]
  dsimp only
  rw [readLiteral_quoted v rest hrest]
  rfl

/-- The assignments behind the first one. -/
def moreAssignments (vs : List (Field × Text)) : Text :=
  vs.flatMap fun w => ',' :: (w.1.name ++ '=' :: quoted w.2)

theorem moreAssignments_head {vs : List (Field × Text)} {rest : Text}
    (hrest : rest.head? ≠ some '\'') :
    (moreAssignments vs ++ rest).head? ≠ some '\'' := by
  cases vs with
  | nil => exact hrest
  | cons w vs =>
      intro h
      exact absurd (Option.some.inj h) (by decide)

theorem readAssignments_eq {n : ℕ} {v : Field × Text} {vs : List (Field × Text)}
    {rest : Text} (hn : vs.length < n) (hquote : rest.head? ≠ some '\'')
    (hcomma : rest.head? ≠ some ',') :
    readAssignments n (v.1.name ++ '=' :: (quoted v.2 ++ (moreAssignments vs ++ rest))) =
      some ((v :: vs).map fun w => (w.1.name, w.2), rest) := by
  induction vs generalizing n v with
  | nil =>
      cases n with
      | zero => omega
      | succ n =>
          rw [readAssignments, readColumn_eq (not_mem_name v.1 (by decide))
            (moreAssignments_head hquote)]
          have hnone : moreAssignments [] ++ rest = rest := rfl
          rw [hnone]
          cases rest with
          | nil => rfl
          | cons c rest =>
              have hc : c ≠ ',' := fun h => hcomma (by rw [h]; rfl)
              simp [hc]
  | cons w vs ih =>
      cases n with
      | zero => omega
      | succ n =>
          rw [List.length_cons] at hn
          have hmore : moreAssignments (w :: vs) ++ rest =
              ',' :: (w.1.name ++ '=' :: (quoted w.2 ++ (moreAssignments vs ++ rest))) := by
            unfold moreAssignments
            simp only [List.flatMap_cons, List.append_assoc, List.cons_append]
          rw [readAssignments, readColumn_eq (not_mem_name v.1 (by decide))
            (moreAssignments_head hquote), hmore]
          show (readAssignments n (w.1.name ++ '=' ::
            (quoted w.2 ++ (moreAssignments vs ++ rest)))).map _ = _
          rw [ih (by omega)]
          rfl

theorem readUpdate_statement (v : Field × Text) (vs : List (Field × Text))
    (gid : Text) :
    readUpdate (statement (updateParts v vs gid) [';']) =
      some ⟨(v :: vs).map fun w => (w.1.name, w.2), (Field.name .gridJobid, gid)⟩ := by
  have hsql : statement (updateParts v vs gid) [';'] =
      "UPDATE jobs SET ".toList ++ (v.1.name ++ '=' :: (quoted v.2 ++
        (moreAssignments vs ++ (" WHERE ".toList ++ (Field.name .gridJobid ++ '=' ::
          (quoted gid ++ [';'])))))) := by
    unfold statement updateParts moreAssignments
    simp only [List.flatMap_cons, List.flatMap_append, List.flatMap_map,
      List.flatMap_nil, List.append_assoc, List.cons_append, List.nil_append,
      List.append_nil]
  have hn : vs.length < (v.1.name ++ '=' :: (quoted v.2 ++ (moreAssignments vs ++
      (" WHERE ".toList ++ (Field.name .gridJobid ++ '=' ::
        (quoted gid ++ [';'])))))).length + 1 := by
    have hmore : vs.length ≤ (moreAssignments vs).length := length_le_commas _ vs
    simp only [List.length_append, List.length_cons]
    omega
  unfold readUpdate
  rw [hsql, dropText_append, Option.bind_eq_bind, Option.bind_some,
    readAssignments_eq hn (by simp) (by simp), Option.bind_eq_bind,
    Option.bind_some]
  dsimp only
  rw [dropText_append, Option.bind_eq_bind, Option.bind_some,
    readColumn_eq (not_mem_name .gridJobid (by decide)) (by decide)]
  rfl

theorem readLiterals_eq {n : ℕ} {v : Text} {vs : List Text} {rest : Text}
    (hn : vs.length < n) (hquote : rest.head? ≠ some '\'')
    (hcomma : rest.head? ≠ some ',') :
    readLiterals n (quoted v ++ ((vs.flatMap fun w => ',' :: quoted w) ++ rest)) =
      some (v :: vs, rest) := by
  induction vs generalizing n v with
  | nil =>
      cases n with
      | zero => omega
      | succ n =>
          rw [List.flatMap_nil, List.nil_append, readLiterals,
            readLiteral_quoted v rest hquote]
          cases rest with
          | nil => rfl
          | cons c rest =>
              have hc : c ≠ ',' := fun h => hcomma (by rw [h]; rfl)
              simp [hc]
  | cons w vs ih =>
      cases n with
      | zero => omega
      | succ n =>
          rw [List.length_cons] at hn
          have hmore : ((w :: vs).flatMap fun w => ',' :: quoted w) ++ rest =
              ',' :: (quoted w ++ ((vs.flatMap fun w => ',' :: quoted w) ++ rest)) := by
            simp only [List.flatMap_cons, List.append_assoc, List.cons_append]
          rw [hmore, readLiterals, readLiteral_quoted v _ (by
            intro h
            exact absurd (Option.some.inj h) (by decide))]
          show (readLiterals n (quoted w ++
            ((vs.flatMap fun w => ',' :: quoted w) ++ rest))).map _ = _
          rw [ih (by omega)]
          rfl

theorem not_mem_getQueryFields {c : Char} (h : isNameChar c = false) (hcomma : c ≠ ',') :
    c ∉ getQueryFields := by
  intro hc
  obtain ⟨f, -, hf⟩ := List.mem_flatMap.mp (List.dropLast_subset _ hc)
  rcases List.mem_append.mp hf with hf | hf
  · exact not_mem_name f h hf
  · exact hcomma (List.mem_singleton.mp hf)

/-- What is written with a comma behind every piece, but for the last comma. -/
theorem dropLast_commas {α : Type} (g : α → Text) :
    ∀ xs : List α, (xs.flatMap fun x => g x ++ [',']).dropLast =
      [','].intercalate (xs.map g)
  | [] => rfl
  | [x] => by simp
  | x :: y :: xs => by
      have ih := dropLast_commas g (y :: xs)
      have hne : ((y :: xs).flatMap fun x => g x ++ [',']) ≠ [] := by simp
      rw [List.map_cons, List.map_cons, List.intercalate_cons_cons, ← List.map_cons,
        ← ih, List.flatMap_cons, List.dropLast_append_of_ne_nil hne]

theorem splitOn_getQueryFields :
    getQueryFields.splitOn ',' = allFields.map Field.name := by
  rw [getQueryFields, dropLast_commas]
  refine List.splitOn_intercalate ',' (fun t ht => ?_) (by simp [allFields])
  obtain ⟨f, -, rfl⟩ := List.mem_map.mp ht
  exact not_mem_name f (by decide)

theorem readInsert_statement (r : JobRow) {f : Field} {fs : List Field}
    (h : allFields = f :: fs) :
    readInsert (statement (insertParts r f fs) [')']) =
      some ⟨allFields.map Field.name, allFields.map r.text⟩ := by
  have hsql : statement (insertParts r f fs) [')'] =
      "INSERT OR REPLACE INTO jobs (".toList ++ (getQueryFields ++
        (")".toList ++ " VALUES (".toList ++ (quoted (r.text f) ++
          (((fs.map r.text).flatMap fun w => ',' :: quoted w) ++ [')'])))) := by
    unfold statement insertParts
    simp only [List.flatMap_cons, List.flatMap_map, List.append_assoc,
      List.cons_append, List.nil_append]
    rfl
  obtain ⟨htake, hdrop⟩ := span_append (p := (· ≠ ')')) (a := getQueryFields)
    (b := ")".toList ++ " VALUES (".toList ++ (quoted (r.text f) ++
      (((fs.map r.text).flatMap fun w => ',' :: quoted w) ++ [')'])))
    (fun c hc => decide_eq_true fun heq =>
      not_mem_getQueryFields (by decide) (by decide) (heq ▸ hc))
    (fun c hc => by cases hc; decide)
  have hn : (fs.map r.text).length < (quoted (r.text f) ++
      (((fs.map r.text).flatMap fun w => ',' :: quoted w) ++ [')'])).length + 1 := by
    have hmore : (fs.map r.text).length ≤
        ((fs.map r.text).flatMap fun w => ',' :: quoted w).length :=
      length_le_commas quoted _
    simp only [List.length_append, List.length_cons]
    omega
  unfold readInsert
  rw [hsql, dropText_append, Option.bind_eq_bind, Option.bind_some]
  dsimp only
  rw [htake, hdrop, splitOn_getQueryFields]
  have hvalues : ")".toList ++ " VALUES (".toList = ") VALUES (".toList := rfl
  rw [hvalues, dropText_append, Option.bind_eq_bind, Option.bind_some,
    readLiterals_eq hn (by decide) (by decide), h]
  rfl

/-! ## What SQLite is given -/

/-- A text that has neither the marker in it nor what ends a C string. -/
structure Clean (marker t : Text) : Prop where
  free : ¬ marker <:+: t
  noNul : Char.ofNat 0 ∉ t

/-- What the program itself writes in a statement. -/
structure PieceOk (t : Text) : Prop where
  noQuote : '\'' ∉ t
  noG : 'G' ∉ t
  noNul : Char.ofNat 0 ∉ t

theorem pieceOk_literal {cs : Text}
    (h : cs.all (fun c => c ≠ '\'' ∧ c ≠ 'G' ∧ c ≠ Char.ofNat 0) = true) :
    PieceOk (String.ofList cs).toList := by
  have hall : ∀ c ∈ cs, c ≠ '\'' ∧ c ≠ 'G' ∧ c ≠ Char.ofNat 0 := fun c hc =>
    of_decide_eq_true (List.all_eq_true.mp h c hc)
  rw [String.toList_ofList]
  exact ⟨fun hc => (hall _ hc).1 rfl, fun hc => (hall _ hc).2.1 rfl,
    fun hc => (hall _ hc).2.2 rfl⟩

theorem pieceOk_name (f : Field) : PieceOk f.name :=
  ⟨not_mem_name f (by decide), not_mem_name f (by decide), not_mem_name f (by decide)⟩

theorem PieceOk.append {a b : Text} (ha : PieceOk a) (hb : PieceOk b) :
    PieceOk (a ++ b) where
  noQuote := fun h => (List.mem_append.mp h).elim ha.noQuote hb.noQuote
  noG := fun h => (List.mem_append.mp h).elim ha.noG hb.noG
  noNul := fun h => (List.mem_append.mp h).elim ha.noNul hb.noNul

theorem pieceOk_updateParts {v : Field × Text} {vs : List (Field × Text)} {gid : Text}
    {p : Text × Text} (hp : p ∈ updateParts v vs gid) :
    PieceOk p.1 ∧ (p.2 = gid ∨ ∃ w ∈ v :: vs, p.2 = w.2) := by
  have hequals : PieceOk ['='] := ⟨by decide, by decide, by decide⟩
  unfold updateParts at hp
  rcases List.mem_cons.mp hp with rfl | hp
  · have hset : PieceOk "UPDATE jobs SET ".toList := pieceOk_literal (by decide)
    exact ⟨(hset.append (pieceOk_name v.1)).append hequals,
      Or.inr ⟨v, List.mem_cons_self, rfl⟩⟩
  · rcases List.mem_append.mp hp with hp | hp
    · obtain ⟨w, hw, rfl⟩ := List.mem_map.mp hp
      have hcomma : PieceOk [','] := ⟨by decide, by decide, by decide⟩
      exact ⟨hcomma.append ((pieceOk_name w.1).append hequals),
        Or.inr ⟨w, List.mem_cons_of_mem v hw, rfl⟩⟩
    · rw [List.mem_singleton] at hp
      subst hp
      have hwhere : PieceOk " WHERE ".toList := pieceOk_literal (by decide)
      exact ⟨(hwhere.append (pieceOk_name .gridJobid)).append hequals, Or.inl rfl⟩

theorem pieceOk_columns :
    PieceOk ("INSERT OR REPLACE INTO jobs (".toList ++ getQueryFields ++
      ") VALUES (".toList) := by
  have hinsert : PieceOk "INSERT OR REPLACE INTO jobs (".toList :=
    pieceOk_literal (by decide)
  have hvalues : PieceOk ") VALUES (".toList := pieceOk_literal (by decide)
  have hfields : PieceOk getQueryFields :=
    ⟨not_mem_getQueryFields (by decide) (by decide),
      not_mem_getQueryFields (by decide) (by decide),
      not_mem_getQueryFields (by decide) (by decide)⟩
  exact (hinsert.append hfields).append hvalues

theorem pieceOk_insertParts {r : JobRow} {f : Field} {fs : List Field}
    {p : Text × Text} (hp : p ∈ insertParts r f fs) :
    PieceOk p.1 ∧ ∃ g, p.2 = r.text g := by
  unfold insertParts at hp
  rcases List.mem_cons.mp hp with rfl | hp
  · exact ⟨pieceOk_columns, f, rfl⟩
  · obtain ⟨g, -, rfl⟩ := List.mem_map.mp hp
    have hcomma : PieceOk [','] := ⟨by decide, by decide, by decide⟩
    exact ⟨hcomma, g, rfl⟩

theorem cString_eq {t : Text} (h : Char.ofNat 0 ∉ t) : cString t = t := by
  unfold cString
  rw [List.takeWhile_eq_self_iff]
  intro c hc
  exact decide_eq_true fun heq => h (heq ▸ hc)

theorem noNul_cString (t : Text) : Char.ofNat 0 ∉ cString t := by
  intro h
  unfold cString at h
  have hc := List.mem_takeWhile_imp h
  exact absurd rfl (of_decide_eq_true hc)

theorem mem_double {c : Char} {t : Text} (h : c ∈ double t) : c ∈ t := by
  obtain ⟨d, hd, hc⟩ := List.mem_flatMap.mp h
  split at hc
  · rename_i hquote
    rw [hquote] at hd
    rcases List.mem_cons.mp hc with rfl | hc
    · exact hd
    · rw [List.mem_singleton.mp hc]
      exact hd
  · rw [List.mem_singleton.mp hc]
    exact hd

section

variable (ptr : Option ℤ) (sec usec : ℤ)

theorem not_mem_marker_quote : '\'' ∉ getTmpName ptr sec usec :=
  not_mem_getTmpName ptr sec usec (by decide) (by decide)

theorem doQuery_marked {parts : List (Text × Text)} {tail : Text}
    (hparts : ∀ p ∈ parts, PieceOk p.1 ∧ Clean (getTmpName ptr sec usec) p.2)
    (htail : PieceOk tail) :
    doQuery (getTmpName ptr sec usec) (marked (getTmpName ptr sec usec) parts tail) =
      statement parts tail := by
  have hplain {t : Text} (ht : PieceOk t) : PlainPiece (getTmpName ptr sec usec) t :=
    ⟨ht.noQuote, not_infix_getTmpName ptr sec usec ht.noG⟩
  unfold doQuery
  rw [replaceAll_quote, replaceAll_marked (unbordered_getTmpName ptr sec usec)
    (getTmpName_ne_nil ptr sec usec) (not_mem_marker_quote ptr sec usec)
    (fun p hp => ⟨hplain (hparts p hp).1, (hparts p hp).2.free⟩) (hplain htail)]
  refine cString_eq fun h => ?_
  rcases List.mem_append.mp h with h | h
  · obtain ⟨p, hp, hmem⟩ := List.mem_flatMap.mp h
    obtain ⟨hpiece, hvalue⟩ := hparts p hp
    rcases List.mem_append.mp hmem with hmem | hmem
    · exact hpiece.noNul hmem
    · unfold quoted at hmem
      rcases List.mem_cons.mp hmem with hmem | hmem
      · exact absurd hmem (by decide)
      · rcases List.mem_append.mp hmem with hmem | hmem
        · exact hvalue.noNul (mem_double hmem)
        · exact absurd hmem (by decide)
  · exact htail.noNul h

/-- Nothing that SQLite is given has the marker in it or an end before its end. -/
theorem clean_doQuery (sql : Text) :
    Clean (getTmpName ptr sec usec) (doQuery (getTmpName ptr sec usec) sql) := by
  refine ⟨fun h => ?_, noNul_cString _⟩
  have hempty : ¬ (getTmpName ptr sec usec).isEmpty = true := by
    rw [List.isEmpty_iff]
    exact getTmpName_ne_nil ptr sec usec
  have hin := h.trans (List.takeWhile_prefix _).isInfix
  unfold replaceAll at hin
  rw [if_neg hempty] at hin
  exact not_infix_replaceFrom (getTmpName_ne_nil ptr sec usec)
    (not_mem_marker_quote ptr sec usec) hin

end

/-! ## What is read was there -/

section

variable {m : Text}

theorem infix_of_dropText {expected s rest : Text} (h : dropText expected s = some rest)
    (hm : m <:+: rest) : m <:+: s := by
  unfold dropText at h
  split at h
  · cases h
    exact hm.trans (List.drop_suffix _ s).isInfix
  · cases h

theorem infix_of_readColumn {s rest : Text} {a : Text × Text} (hquote : '\'' ∉ m)
    (hne : m ≠ []) (h : readColumn s = some (a, rest)) (hm : m <:+: a.2 ∨ m <:+: rest) :
    m <:+: s := by
  have hsuffix : s.dropWhile (· ≠ '=') <:+ s := List.dropWhile_suffix _
  unfold readColumn at h
  cases hdrop : s.dropWhile (· ≠ '=') with
  | nil =>
      rw [hdrop] at h
      cases h
  | cons c tail =>
      rw [hdrop] at h hsuffix
      obtain ⟨r, hread, hr⟩ := Option.map_eq_some_iff.mp h
      cases hr
      exact (List.infix_cons (infix_of_readLiteral hquote hne hread hm)).trans
        hsuffix.isInfix

theorem infix_of_readAssignments {n : ℕ} {s rest : Text} {as : List (Text × Text)}
    (hquote : '\'' ∉ m) (hne : m ≠ []) (h : readAssignments n s = some (as, rest))
    (hm : (∃ a ∈ as, m <:+: a.2) ∨ m <:+: rest) : m <:+: s := by
  induction n generalizing s as with
  | zero => cases h
  | succ n ih =>
      rw [readAssignments] at h
      split at h
      · cases h
      · rename_i a tail hread
        obtain ⟨r, hmore, hr⟩ := Option.map_eq_some_iff.mp h
        cases hr
        refine infix_of_readColumn hquote hne hread ?_
        rcases hm with ⟨a', ha', hin⟩ | hin
        · rcases List.mem_cons.mp ha' with rfl | ha'
          · exact Or.inl hin
          · exact Or.inr (List.infix_cons (ih hmore (Or.inl ⟨a', ha', hin⟩)))
        · exact Or.inr (List.infix_cons (ih hmore (Or.inr hin)))
      · rename_i a tail _ hread
        cases h
        refine infix_of_readColumn hquote hne hread ?_
        rcases hm with ⟨a', ha', hin⟩ | hin
        · rw [List.mem_singleton.mp ha'] at hin
          exact Or.inl hin
        · exact Or.inr hin

theorem infix_of_readLiterals {n : ℕ} {s rest : Text} {vs : List Text}
    (hquote : '\'' ∉ m) (hne : m ≠ []) (h : readLiterals n s = some (vs, rest))
    (hm : (∃ v ∈ vs, m <:+: v) ∨ m <:+: rest) : m <:+: s := by
  induction n generalizing s vs with
  | zero => cases h
  | succ n ih =>
      rw [readLiterals] at h
      split at h
      · cases h
      · rename_i v tail hread
        obtain ⟨r, hmore, hr⟩ := Option.map_eq_some_iff.mp h
        cases hr
        refine infix_of_readLiteral hquote hne hread ?_
        rcases hm with ⟨v', hv', hin⟩ | hin
        · rcases List.mem_cons.mp hv' with rfl | hv'
          · exact Or.inl hin
          · exact Or.inr (List.infix_cons (ih hmore (Or.inl ⟨v', hv', hin⟩)))
        · exact Or.inr (List.infix_cons (ih hmore (Or.inr hin)))
      · rename_i v tail _ hread
        cases h
        refine infix_of_readLiteral hquote hne hread ?_
        rcases hm with ⟨v', hv', hin⟩ | hin
        · rw [List.mem_singleton.mp hv'] at hin
          exact Or.inl hin
        · exact Or.inr hin

theorem infix_of_readUpdate {s : Text} {u : Update} (hquote : '\'' ∉ m) (hne : m ≠ [])
    (h : readUpdate s = some u) (hm : (∃ a ∈ u.assignments, m <:+: a.2) ∨ m <:+: u.key.2) :
    m <:+: s := by
  unfold readUpdate at h
  obtain ⟨s₁, hset, h⟩ := Option.bind_eq_some_iff.mp h
  obtain ⟨⟨as, s₂⟩, hassign, h⟩ := Option.bind_eq_some_iff.mp h
  obtain ⟨s₃, hwhere, h⟩ := Option.bind_eq_some_iff.mp h
  obtain ⟨⟨key, s₄⟩, hkey, h⟩ := Option.bind_eq_some_iff.mp h
  dsimp only at hwhere hkey h
  split at h
  · cases h
    refine infix_of_dropText hset (infix_of_readAssignments hquote hne hassign ?_)
    refine hm.imp_right fun hin => ?_
    exact infix_of_dropText hwhere (infix_of_readColumn hquote hne hkey (Or.inl hin))
  · cases h

theorem infix_of_readInsert {s v : Text} {i : Insert} (hquote : '\'' ∉ m) (hne : m ≠ [])
    (h : readInsert s = some i) (hv : v ∈ i.values) (hm : m <:+: v) : m <:+: s := by
  unfold readInsert at h
  obtain ⟨s₁, hinsert, h⟩ := Option.bind_eq_some_iff.mp h
  obtain ⟨s₂, hvalues, h⟩ := Option.bind_eq_some_iff.mp h
  obtain ⟨⟨vs, s₃⟩, hread, h⟩ := Option.bind_eq_some_iff.mp h
  dsimp only at h
  split at h
  · cases h
    refine infix_of_dropText hinsert ?_
    refine List.IsInfix.trans ?_ (List.dropWhile_suffix (· ≠ ')')).isInfix
    exact infix_of_dropText hvalues
      (infix_of_readLiterals hquote hne hread (Or.inl ⟨v, hv, hm⟩))
  · cases h

end

section

variable (ptr : Option ℤ) (sec usec : ℤ)

/-- What is not in the text that was read is in none of its values. -/
theorem Clean.of_read {s v : Text}
    (hread : ∀ m : Text, '\'' ∉ m → m ≠ [] → m <:+: v → m <:+: s)
    (hs : Clean (getTmpName ptr sec usec) s) : Clean (getTmpName ptr sec usec) v where
  free := fun h => hs.free (hread _ (not_mem_marker_quote ptr sec usec)
    (getTmpName_ne_nil ptr sec usec) h)
  noNul := fun h => hs.noNul ((List.singleton_infix_iff _ _).mp
    (hread [Char.ofNat 0] (by decide) (by decide) ((List.singleton_infix_iff _ _).mpr h)))

theorem clean_assignments {sql : Text} {u : Update}
    (h : readUpdate (doQuery (getTmpName ptr sec usec) sql) = some u) :
    ∀ a ∈ u.assignments, Clean (getTmpName ptr sec usec) a.2 := fun a ha =>
  Clean.of_read ptr sec usec (fun _ hquote hne hm =>
    infix_of_readUpdate hquote hne h (Or.inl ⟨a, ha, hm⟩)) (clean_doQuery ptr sec usec sql)

theorem clean_values {sql : Text} {i : Insert}
    (h : readInsert (doQuery (getTmpName ptr sec usec) sql) = some i) :
    ∀ v ∈ i.values, Clean (getTmpName ptr sec usec) v := fun _ hv =>
  Clean.of_read ptr sec usec (fun _ hquote hne hm =>
    infix_of_readInsert hquote hne h hv hm) (clean_doQuery ptr sec usec sql)

end

end Wms.Ice
