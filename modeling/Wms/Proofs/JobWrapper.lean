import Mathlib.Data.List.Count
import Wms.Core.AdapterResolve

/-!
# What the script of the job wrapper knows of the job

The text that is written for the variables is read back by the shell, one
variable after the other, so that what a variable has in the end is known from
the last time it was written, and for a list also from the times before: only
the elements that are written change. One name is written twice, once with the
output sandbox and once with the output data.
-/

namespace Wms.Core.JobWrapper

open Wms.Core Wms.Lib Shell

variable {q : Quoting} {name : String}

/-! ## Writing a variable -/

/-- The elements of a list, from an index on. -/
def setFrom (q : Quoting) (name : String) : ℕ → List Text → Vars → Vars
  | _, [], vars => vars
  | i, value :: values, vars =>
      setFrom q name (i + 1) values (vars.set name i (q.expand value))

/-- What the shell makes of the lines for a variable. -/
def stored (q : Quoting) (vars : Vars) (v : String × Value) : Vars :=
  match v.2 with
  | .text value => vars.set v.1 0 (q.expand value)
  | .number value => vars.set v.1 0 (lexicalCastInt value)
  | .array values => setFrom q v.1 0 values vars

/-- Nothing in the value ends a text between quotes. -/
def Writable : Value → Prop
  | .text value => IsQuotable value
  | .number _ => True
  | .array values => ∀ value ∈ values, IsQuotable value

theorem newline_not_in_name (hname : IsName name) : '\n' ∉ name.toList := by
  intro h
  have hchar := List.all_eq_true.mp hname '\n' h
  cases hchar

theorem quoted_no_newline {value : Text} (h : IsQuotable value) :
    '\n' ∉ quoted value := by
  unfold quoted
  intro hmem
  rcases List.mem_cons.mp hmem with heq | hmem
  · cases heq
  · rcases List.mem_append.mp hmem with hmem | hmem
    · exact (h _ hmem).2.2 rfl
    · cases List.mem_singleton.mp hmem

theorem lexicalCastInt_wordChar (n : ℤ) :
    (lexicalCastInt n).all isWordChar = true := by
  have hdigits : ∀ n : ℕ, ∀ c ∈ decimal n, isWordChar c = true := by
    intro n c hc
    have hdigit := Nat.isDigit_of_mem_toDigits (by omega) (by omega) hc
    unfold isWordChar Char.isAlphanum
    rw [hdigit, Bool.or_true, Bool.true_or]
  refine List.all_eq_true.mpr fun c hc => ?_
  cases n with
  | ofNat n => exact hdigits n c hc
  | negSucc n =>
      rcases List.mem_cons.mp hc with rfl | hc
      · rfl
      · exact hdigits _ c hc

theorem word_no_newline {word : Text} (h : word.all isWordChar = true) :
    '\n' ∉ word := by
  intro hmem
  have hchar := List.all_eq_true.mp h '\n' hmem
  cases hchar

/-- A line for a variable that is not an array. -/
theorem run_scalar (hname : IsName name) {word value : Text}
    (hword : readWord q word = some value) (hline : '\n' ∉ word) (rest : Text)
    (vars : Vars) :
    run q ((name.toList ++ '=' :: word) ++ ['\n'] ++ rest) vars =
      run q rest (vars.set name 0 value) := by
  have hno : '\n' ∉ name.toList ++ '=' :: word := by
    rw [List.mem_append, List.mem_cons, not_or, not_or]
    exact ⟨newline_not_in_name hname, by decide, hline⟩
  rw [List.append_assoc]
  exact run_line hno (readCommand_scalar hname hword) rest vars

theorem run_dumpElements (hname : IsName name) {values : List Text}
    (hvalues : ∀ value ∈ values, IsQuotable value) (i : ℕ) (rest : Text)
    (vars : Vars) :
    run q (dumpElements name i values ++ rest) vars =
      run q rest (setFrom q name i values vars) := by
  induction values generalizing i vars with
  | nil => rfl
  | cons value values ih =>
      have hvalue := hvalues value List.mem_cons_self
      have hdigits : '\n' ∉ Nat.toDigits 10 i := by
        intro h
        have hdigit := Nat.isDigit_of_mem_toDigits (by omega) (by omega) h
        cases hdigit
      have hno : '\n' ∉ name.toList ++
          '[' :: (Nat.toDigits 10 i ++ ']' :: '=' :: quoted value) := by
        simp only [List.mem_append, List.mem_cons, not_or]
        exact ⟨newline_not_in_name hname, by decide, hdigits, by decide, by decide,
          quoted_no_newline hvalue⟩
      rw [dumpElements, List.append_assoc, List.cons_append,
        run_line hno (readCommand_element hname i (readWord_quoted hvalue))]
      exact ih (fun v hv => hvalues v (List.mem_cons_of_mem _ hv)) (i + 1) _

theorem run_dump (hname : IsName name) {value : Value} (hvalue : Writable value)
    (rest : Text) (vars : Vars) :
    run q (dump name value ++ rest) vars =
      run q rest (stored q vars (name, value)) := by
  cases value with
  | text value =>
      by_cases hempty : value = []
      · subst hempty
        refine (run_scalar hname (readWord_plain rfl) List.not_mem_nil rest
          vars).trans ?_
        show run q rest (vars.set name 0 []) =
          run q rest (vars.set name 0 (q.expand []))
        rw [isPlain_nil.expand_eq]
      · have hsome : value.isEmpty = false := by
          rw [Bool.eq_false_iff, ne_eq, List.isEmpty_iff]
          exact hempty
        show run q ((name.toList ++ '=' ::
          if value.isEmpty then [] else quoted value) ++ ['\n'] ++ rest) vars = _
        rw [hsome]
        exact run_scalar hname (readWord_quoted hvalue) (quoted_no_newline hvalue)
          rest vars
  | number n =>
      have hword := lexicalCastInt_wordChar n
      exact run_scalar hname (readWord_plain hword) (word_no_newline hword) rest vars
  | array values =>
      cases values with
      | nil =>
          have hno : '\n' ∉ declareA ++ name.toList := by
            rw [List.mem_append, not_or]
            exact ⟨by decide, newline_not_in_name hname⟩
          show run q ((declareA ++ name.toList) ++ ['\n'] ++ rest) vars = _
          rw [List.append_assoc]
          exact run_line hno (readCommand_declare hname) rest vars
      | cons value values => exact run_dumpElements hname hvalue 0 rest vars

/-- The whole text, variable after variable. -/
theorem run_dumps {items : List (String × Value)}
    (hnames : ∀ v ∈ items, IsName v.1) (hvalues : ∀ v ∈ items, Writable v.2)
    (vars : Vars) :
    run q (items.flatMap fun v => dump v.1 v.2) vars =
      some (items.foldl (stored q) vars) := by
  induction items generalizing vars with
  | nil => rfl
  | cons v items ih =>
      rw [List.flatMap_cons,
        run_dump (hnames v List.mem_cons_self) (hvalues v List.mem_cons_self)]
      exact ih (fun w hw => hnames w (List.mem_cons_of_mem v hw))
        (fun w hw => hvalues w (List.mem_cons_of_mem v hw)) _

/-! ## What a variable has in the end -/

theorem setFrom_of_ne (q : Quoting) {n : String} (h : n ≠ name) (i : ℕ)
    (values : List Text) (vars : Vars) : setFrom q name i values vars n = vars n := by
  induction values generalizing i vars with
  | nil => rfl
  | cons value values ih =>
      rw [setFrom, ih, Vars.set_of_name_ne vars i _ h]

theorem setFrom_below (q : Quoting) (name : String) {i j : ℕ} (h : j < i)
    (values : List Text) (vars : Vars) :
    setFrom q name i values vars name j = vars name j := by
  induction values generalizing i vars with
  | nil => rfl
  | cons value values ih =>
      rw [setFrom, ih (by omega), Vars.set_of_index_ne vars name _ (by omega)]

theorem setFrom_same (q : Quoting) (name : String) (i : ℕ) (values : List Text)
    (vars : Vars) (j : ℕ) :
    setFrom q name i values vars name (i + j) =
      ((values[j]?).map q.expand).or (vars name (i + j)) := by
  induction values generalizing i j vars with
  | nil => rfl
  | cons value values ih =>
      rw [setFrom]
      cases j with
      | zero =>
          show setFrom q name (i + 1) values _ name i = _
          rw [setFrom_below q name (Nat.lt_succ_self i), Vars.set_same]
          rfl
      | succ j =>
          have hrest := ih (i + 1) (vars.set name i (q.expand value)) j
          rw [show i + 1 + j = i + (j + 1) by omega,
            Vars.set_of_index_ne vars name _ (by omega)] at hrest
          exact hrest

theorem stored_of_ne (q : Quoting) (vars : Vars) {v : String × Value}
    (h : name ≠ v.1) : stored q vars v name = vars name := by
  obtain ⟨n, value⟩ := v
  cases value with
  | text value => exact Vars.set_of_name_ne vars 0 _ h
  | number n => exact Vars.set_of_name_ne vars 0 _ h
  | array values => exact setFrom_of_ne q h 0 values vars

theorem foldl_of_not_mem (q : Quoting) (items : List (String × Value))
    (h : name ∉ items.map Prod.fst) (vars : Vars) :
    items.foldl (stored q) vars name = vars name := by
  induction items generalizing vars with
  | nil => rfl
  | cons v items ih =>
      rw [List.map_cons, List.mem_cons, not_or] at h
      rw [List.foldl_cons, ih h.2, stored_of_ne q vars h.1]

/-- A value in the end: the last one written, over what was there. -/
theorem foldl_split (q : Quoting) (before : List (String × Value))
    (v : String × Value) (after : List (String × Value))
    (h : v.1 ∉ after.map Prod.fst) (vars : Vars) :
    (before ++ v :: after).foldl (stored q) vars v.1 =
      stored q (before.foldl (stored q) vars) v v.1 := by
  rw [List.foldl_append, List.foldl_cons, foldl_of_not_mem q after h]

theorem stored_text (q : Quoting) (vars : Vars) (name : String) (value : Text) :
    stored q vars (name, .text value) name 0 = some (q.expand value) :=
  Vars.set_same vars name 0 _

theorem stored_number (q : Quoting) (vars : Vars) (name : String) (n : ℤ) :
    stored q vars (name, .number n) name 0 = some (lexicalCastInt n) :=
  Vars.set_same vars name 0 _

theorem stored_array (q : Quoting) (vars : Vars) (name : String)
    (values : List Text) (i : ℕ) :
    stored q vars (name, .array values) name i =
      ((values[i]?).map q.expand).or (vars name i) := by
  have hsame := setFrom_same q name 0 values vars i
  rw [Nat.zero_add] at hsame
  exact hsame

/-- A name that is there once splits the list. -/
theorem split_of_count {items : List (String × Value)} {v : String × Value}
    (hmem : v ∈ items) (hcount : (items.map Prod.fst).count v.1 = 1) :
    ∃ before after, items = before ++ v :: after ∧
      v.1 ∉ before.map Prod.fst ∧ v.1 ∉ after.map Prod.fst := by
  obtain ⟨before, after, rfl⟩ := List.append_of_mem hmem
  rw [List.map_append, List.map_cons, List.count_append, List.count_cons_self]
    at hcount
  exact ⟨before, after, rfl, List.count_eq_zero.mp (by omega),
    List.count_eq_zero.mp (by omega)⟩

theorem foldl_of_count (q : Quoting) {items : List (String × Value)}
    {v : String × Value} (hmem : v ∈ items)
    (hcount : (items.map Prod.fst).count v.1 = 1) (vars : Vars) :
    ∃ vars', vars' v.1 = vars v.1 ∧
      items.foldl (stored q) vars v.1 = stored q vars' v v.1 := by
  obtain ⟨before, after, rfl, hbefore, hafter⟩ := split_of_count hmem hcount
  exact ⟨before.foldl (stored q) vars, foldl_of_not_mem q before hbefore vars,
    foldl_split q before v after hafter vars⟩

/-- The text of a value that is no list. -/
def scalar : Value → Option Text
  | .text value => some value
  | .number value => some (lexicalCastInt value)
  | .array _ => none

/-- Nothing in the value is special to the shell. -/
def PlainValue : Value → Prop
  | .text value => IsPlain value
  | .number _ => True
  | .array values => ∀ value ∈ values, IsPlain value

theorem PlainValue.writable {value : Value} (h : PlainValue value) :
    Writable value := by
  cases value with
  | text value => exact IsPlain.isQuotable h
  | number n => exact trivial
  | array values => exact fun v hv => (h v hv).isQuotable

theorem getElem?_map_expand (q : Quoting) {values : List Text}
    (h : ∀ value ∈ values, IsPlain value) (i : ℕ) :
    (values[i]?).map q.expand = values[i]? := by
  cases hi : values[i]? with
  | none => rfl
  | some value =>
      rw [Option.map_some, (h value (List.mem_of_getElem? hi)).expand_eq]

theorem final_scalar (q : Quoting) {items : List (String × Value)} {value : Value}
    {text : Text} (hmem : (name, value) ∈ items)
    (hcount : (items.map Prod.fst).count name = 1) (hplain : PlainValue value)
    (htext : scalar value = some text) (vars : Vars) :
    items.foldl (stored q) vars name 0 = some text := by
  obtain ⟨vars', -, hfold⟩ := foldl_of_count q hmem hcount vars
  rw [hfold]
  cases value with
  | text value =>
      cases htext
      rw [stored_text, IsPlain.expand_eq hplain]
  | number n =>
      cases htext
      exact stored_number q vars' name n
  | array values => cases htext

theorem final_array (q : Quoting) {items : List (String × Value)}
    {values : List Text} (hmem : (name, Value.array values) ∈ items)
    (hcount : (items.map Prod.fst).count name = 1) {vars : Vars}
    (hvars : ∀ i, vars name i = none) (i : ℕ) :
    items.foldl (stored q) vars name i = (values[i]?).map q.expand := by
  obtain ⟨vars', hsame, hfold⟩ := foldl_of_count q hmem hcount vars
  rw [hfold, stored_array, hsame, hvars, Option.or_none]

/-! ## The names of the variables -/

/-- The names are the same for every wrapper. -/
def varNames : List String :=
  (vars { job := [], jobType := .normal, sbRetryDifferentProtocols := false,
          maxOsbSize := 0 } [] [] []).map Prod.fst

theorem vars_names (jw : JobWrapper) (files lfns ses : List Text) :
    (jw.vars files lfns ses).map Prod.fst = varNames := rfl

theorem varNames_isName : ∀ n ∈ varNames, IsName n := by
  have hspelled : ∃ words, Spells String.ofList varNames words ∧
      words.all (List.all · isNameChar) = true :=
    ⟨_, by repeat constructor, rfl⟩
  obtain ⟨words, hspells, hchars⟩ := hspelled
  exact hspells.forall fun cs hcs => all_literal (List.all_eq_true.mp hchars cs hcs)

/-- The names but for the second of the output files. -/
theorem varNames_nodup : (varNames.take 34 ++ varNames.drop 35).Nodup := by
  have hspelled : ∃ words,
      Spells String.ofList (varNames.take 34 ++ varNames.drop 35) words ∧
        (words.map charCode).Nodup :=
    ⟨_, by repeat constructor, by decide +kernel⟩
  obtain ⟨words, hspells, hcodes⟩ := hspelled
  exact hspells.nodup (fun _ _ => String.ofList_inj.mp) hcodes

/-- Only one of the variables is written twice. -/
theorem varNames_count :
    ∀ n ∈ varNames, n ≠ "__output_file" → varNames.count n = 1 := by
  have hsplit : varNames =
      varNames.take 34 ++ "__output_file" :: varNames.drop 35 := rfl
  intro n hn hne
  have hcount : varNames.count n = (varNames.take 34 ++ varNames.drop 35).count n := by
    rw [hsplit, List.count_append, List.count_cons_of_ne (Ne.symm hne),
      ← List.count_append]
    rfl
  rw [hcount]
  refine List.count_eq_one_of_mem varNames_nodup ?_
  rw [hsplit, List.mem_append, List.mem_cons] at hn
  rcases hn with hn | rfl | hn
  · exact List.mem_append_left _ hn
  · exact absurd rfl hne
  · exact List.mem_append_right _ hn

theorem not_mem_around : "__output_file" ∉ varNames.take 12 ++
    ((varNames.take 34).drop 13 ++ varNames.drop 35) := by
  have hsplit : varNames.take 34 ++ varNames.drop 35 = varNames.take 12 ++
      "__output_file" :: ((varNames.take 34).drop 13 ++ varNames.drop 35) := rfl
  have hnodup := varNames_nodup
  rw [hsplit, List.nodup_middle] at hnodup
  exact (List.nodup_cons.mp hnodup).1

/-- The list of the output data lies over the list of the output sandbox. -/
theorem final_outputFile (q : Quoting) (jw : JobWrapper)
    (files lfns ses : List Text) {vars : Vars}
    (hvars : ∀ i, vars "__output_file" i = none) (i : ℕ) :
    (jw.vars files lfns ses).foldl (stored q) vars "__output_file" i =
      ((files[i]?).map q.expand).or ((jw.outputFiles[i]?).map q.expand) := by
  have hnot := not_mem_around
  rw [List.mem_append, List.mem_append, not_or, not_or] at hnot
  obtain ⟨hfirst, hmiddle, hlast⟩ := hnot
  have hsandbox := foldl_split q ((jw.vars files lfns ses).take 12)
    ("__output_file", .array jw.outputFiles)
    (((jw.vars files lfns ses).take 34).drop 13) hmiddle vars
  have hdata := foldl_split q ((jw.vars files lfns ses).take 34)
    ("__output_file", .array files) ((jw.vars files lfns ses).drop 35) hlast vars
  have hbefore := foldl_of_not_mem q ((jw.vars files lfns ses).take 12) hfirst vars
  have hthere : (jw.vars files lfns ses).foldl (stored q) vars "__output_file" =
      stored q (((jw.vars files lfns ses).take 34).foldl (stored q) vars)
        ("__output_file", .array files) "__output_file" := hdata
  have hunder : ((jw.vars files lfns ses).take 34).foldl (stored q) vars
      "__output_file" =
      stored q (((jw.vars files lfns ses).take 12).foldl (stored q) vars)
        ("__output_file", .array jw.outputFiles) "__output_file" := hsandbox
  rw [hthere, stored_array, hunder, stored_array, hbefore, hvars, Option.or_none]

end Wms.Core.JobWrapper
