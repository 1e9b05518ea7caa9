import Wms.Lib.CString

/-!
# Assignments in a shell script

What a shell does with a script that has nothing but assignments and
declarations of arrays, one on a line. A variable that is not an array is its
element 0. What the shell makes of a text between double quotes is left open,
but for a text in which no character is special.
-/

namespace Wms.Lib.Shell

/-- The variables of a shell, plain ones being arrays with one element. -/
abbrev Vars := String → ℕ → Option (List Char)

/-- One element of one variable. -/
def Vars.set (vars : Vars) (name : String) (index : ℕ) (value : List Char) : Vars :=
  fun n i => if n = name ∧ i = index then some value else vars n i

theorem Vars.set_same (vars : Vars) (name : String) (index : ℕ)
    (value : List Char) : vars.set name index value name index = some value :=
  if_pos ⟨rfl, rfl⟩

theorem Vars.set_of_index_ne (vars : Vars) (name : String) {index i : ℕ}
    (value : List Char) (h : i ≠ index) :
    vars.set name index value name i = vars name i :=
  if_neg fun hi => h hi.2

theorem Vars.set_of_name_ne (vars : Vars) {name n : String} (index : ℕ)
    (value : List Char) (h : n ≠ name) : vars.set name index value n = vars n :=
  funext fun _ => if_neg fun hn => h hn.1

/-! ## Words -/

/-- The characters that mean something between double quotes. -/
def isSpecial (c : Char) : Bool := c = '"' || c = '\\' || c = '$' || c = '`'

/-- What becomes of a text between double quotes. -/
structure Quoting where
  expand : List Char → List Char
  expand_plain : ∀ v, (∀ c ∈ v, isSpecial c = false) → expand v = v

/-- The text up to the closing quote, which ends the line. -/
def readQuoted : List Char → Option (List Char)
  | [] => none
  | '"' :: rest => if rest.isEmpty then some [] else none
  | '\\' :: c :: rest => (readQuoted rest).map fun v => '\\' :: c :: v
  | c :: rest => (readQuoted rest).map fun v => c :: v

/-- The characters of a word without quotes. -/
def isWordChar (c : Char) : Bool := c.isAlphanum || c = '-'

/-- The characters of a name. -/
def isNameChar (c : Char) : Bool := c.isAlphanum || c = '_'

/-- A word, with or without quotes. -/
def readWord (q : Quoting) : List Char → Option (List Char)
  | '"' :: rest => (readQuoted rest).map q.expand
  | word => if word.all isWordChar then some word else none

/-! ## Commands -/

/-- The commands that are read. -/
inductive Command where
  | assign (name : String) (index : ℕ) (value : List Char)
  | declareArray (name : String)

/-- What a command does to the variables. -/
def Command.exec : Command → Vars → Vars
  | .assign name index value, vars => vars.set name index value
  | .declareArray _, vars => vars

/-- What makes an array. -/
def declareA : List Char := "declare -a ".toList

/-- What follows the name in an assignment. -/
def readValue (q : Quoting) (name : String) : List Char → Option Command
  | '=' :: word => (readWord q word).map (.assign name 0)
  | '[' :: rest =>
      match rest.dropWhile Char.isDigit with
      | ']' :: '=' :: word =>
          (readWord q word).map
            (.assign name (Nat.ofDigitChars 10 (rest.takeWhile Char.isDigit) 0))
      | _ => none
  | _ => none

/-- The command of a line. -/
def readCommand (q : Quoting) (line : List Char) : Option Command :=
  if declareA.isPrefixOf line then
    let name := line.drop declareA.length
    if name.all isNameChar then some (.declareArray (String.ofList name)) else none
  else
    readValue q (String.ofList (line.takeWhile isNameChar))
      (line.dropWhile isNameChar)

/-- The lines of a text, of which each is ended. -/
def lines : List Char → List (List Char)
  | [] => []
  | c :: text =>
      if c = '\n' then [] :: lines text
      else
        match lines text with
        | [] => [[c]]
        | line :: rest => (c :: line) :: rest

/-- The lines of a script in their order. -/
def runLines (q : Quoting) : List (List Char) → Vars → Option Vars
  | [], vars => some vars
  | line :: rest, vars =>
      (readCommand q line).bind fun command => runLines q rest (command.exec vars)

/-- A script from its text. -/
def run (q : Quoting) (text : List Char) (vars : Vars) : Option Vars :=
  runLines q (lines text) vars

/-! ## Reading what has been written -/

/-- Nothing in the text ends it or the line, between quotes. -/
def IsQuotable (v : List Char) : Prop := ∀ c ∈ v, c ≠ '"' ∧ c ≠ '\\' ∧ c ≠ '\n'

/-- Nothing in the text is special at all. -/
def IsPlain (v : List Char) : Prop := ∀ c ∈ v, isSpecial c = false ∧ c ≠ '\n'

/-- A text that is the name of a variable. -/
def IsName (name : String) : Prop := name.toList.all isNameChar = true

variable {q : Quoting} {name : String} {v rest : List Char}

theorem IsPlain.isQuotable (h : IsPlain v) : IsQuotable v := by
  intro c hc
  obtain ⟨hspecial, hline⟩ := h c hc
  refine ⟨?_, ?_, hline⟩ <;> rintro rfl <;> cases hspecial

theorem IsPlain.expand_eq (h : IsPlain v) : q.expand v = v :=
  q.expand_plain v fun c hc => (h c hc).1

theorem isPlain_nil : IsPlain [] := fun _ h => absurd h List.not_mem_nil

theorem isPlain_of_all (h : (v.all fun c => !isSpecial c && c != '\n') = true) :
    IsPlain v := by
  intro c hc
  have hchar := List.all_eq_true.mp h c hc
  rw [Bool.and_eq_true, Bool.not_eq_true', bne_iff_ne] at hchar
  exact hchar

theorem isPlain_of_wordChar (h : v.all isWordChar = true) : IsPlain v := by
  intro c hc
  have hchar := List.all_eq_true.mp h c hc
  constructor
  · rw [Bool.eq_false_iff]
    intro hspecial
    unfold isSpecial at hspecial
    simp only [Bool.or_eq_true, decide_eq_true_eq] at hspecial
    rcases hspecial with ((rfl | rfl) | rfl) | rfl <;> cases hchar
  · rintro rfl
    cases hchar

theorem IsPlain.append {w : List Char} (hv : IsPlain v) (hw : IsPlain w) :
    IsPlain (v ++ w) := by
  intro c hc
  rcases List.mem_append.mp hc with hc | hc
  · exact hv c hc
  · exact hw c hc

theorem IsPlain.subset {w : List Char} (hv : IsPlain v) (h : w ⊆ v) : IsPlain w :=
  fun c hc => hv c (h hc)

theorem lines_line (h : '\n' ∉ v) (rest : List Char) :
    lines (v ++ '\n' :: rest) = v :: lines rest := by
  induction v with
  | nil => rfl
  | cons c v ih =>
      rw [List.mem_cons, not_or] at h
      rw [List.cons_append, lines, if_neg (Ne.symm h.1), ih h.2]

/-- One line and the rest of the script. -/
theorem run_line {command : Command} (hline : '\n' ∉ v)
    (hread : readCommand q v = some command) (rest : List Char) (vars : Vars) :
    run q (v ++ '\n' :: rest) vars = run q rest (command.exec vars) := by
  unfold run
  rw [lines_line hline, runLines, hread, Option.bind_some]

theorem readQuoted_close (h : IsQuotable v) : readQuoted (v ++ ['"']) = some v := by
  induction v with
  | nil => rfl
  | cons c v ih =>
      obtain ⟨hquote, hslash, -⟩ := h c List.mem_cons_self
      have hrest := ih fun d hd => h d (List.mem_cons_of_mem c hd)
      rw [List.cons_append, readQuoted, hrest]
      · rfl
      · exact fun heq => hquote heq
      · exact fun d rest heq => absurd heq hslash

theorem readWord_quoted (h : IsQuotable v) :
    readWord q ('"' :: (v ++ ['"'])) = some (q.expand v) := by
  show (readQuoted (v ++ ['"'])).map q.expand = _
  rw [readQuoted_close h]
  rfl

theorem readWord_plain (h : v.all isWordChar = true) : readWord q v = some v := by
  unfold readWord
  split
  · cases h
  · rw [if_pos h]

/-- A line that begins with a name and goes on with `=` or a bracket. -/
theorem readCommand_name (hname : IsName name) {c : Char}
    (hc : isNameChar c = false) (hspace : c ≠ ' ') :
    readCommand q (name.toList ++ c :: rest) = readValue q name (c :: rest) := by
  obtain ⟨htake, hdrop⟩ := span_append (a := name.toList) (b := c :: rest)
    (fun d hd => List.all_eq_true.mp hname d hd)
    (fun d hd => by cases hd; exact hc)
  have hno : declareA.isPrefixOf (name.toList ++ c :: rest) = false := by
    rw [Bool.eq_false_iff]
    intro hprefix
    obtain ⟨t, ht⟩ := List.isPrefixOf_iff_prefix.mp hprefix
    have hdeclare : (declareA ++ t).dropWhile isNameChar = " -a ".toList ++ t := by
      refine (span_append (a := "declare".toList) (fun d hd => ?_) fun d hd => ?_).2
      · exact List.all_eq_true.mp
          (by decide : ("declare".toList.all isNameChar) = true) d hd
      · cases hd
        rfl
    rw [ht, hdrop] at hdeclare
    exact hspace (List.cons.inj hdeclare).1
  unfold readCommand
  rw [if_neg (ne_true_of_eq_false hno), htake, hdrop, String.ofList_toList]

theorem readCommand_scalar (hname : IsName name) {word value : List Char}
    (hword : readWord q word = some value) :
    readCommand q (name.toList ++ '=' :: word) = some (.assign name 0 value) := by
  rw [readCommand_name hname rfl (by decide), readValue, hword]
  rfl

theorem readCommand_element (hname : IsName name) (i : ℕ) {word value : List Char}
    (hword : readWord q word = some value) :
    readCommand q (name.toList ++ '[' :: (Nat.toDigits 10 i ++ ']' :: '=' :: word)) =
      some (.assign name i value) := by
  obtain ⟨htake, hdrop⟩ := span_append (a := Nat.toDigits 10 i)
    (b := ']' :: '=' :: word) (p := Char.isDigit)
    (fun c hc => Nat.isDigit_of_mem_toDigits (by omega) (by omega) hc)
    (fun c hc => by cases hc; rfl)
  rw [readCommand_name hname rfl (by decide), readValue, hdrop, htake,
    Nat.ofDigitChars_ten_toDigits]
  show (readWord q word).map (Command.assign name i) = _
  rw [hword]
  rfl

theorem readCommand_declare (hname : IsName name) :
    readCommand q (declareA ++ name.toList) = some (.declareArray name) := by
  unfold readCommand
  rw [if_pos (List.isPrefixOf_iff_prefix.mpr (List.prefix_append _ _)),
    List.drop_left]
  dsimp only
  rw [if_pos (show name.toList.all isNameChar = true from hname),
    String.ofList_toList]

end Wms.Lib.Shell
