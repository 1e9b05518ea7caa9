import Wms.Lib.InputStream

/-!
# The size file of a Condor log (`logmonitor/SizeFile.cpp`)

A header, a line of three dots, and then one field a line: each update appends
a field, and the last one is the state of the log. Between two calls the file
is closed, and the object remembers where it was.
-/

namespace Wms.Jobsubmission.LogMonitor

open Wms.Lib

abbrev Text := List Char

/-- What `ftell` answers when it does not fail. -/
abbrev Offset := { n : ℕ // n < 2 ^ 63 }

theorem zero_lt_offsets : 0 < 2 ^ 63 := by decide

/-- An `unsigned int`. -/
abbrev Count := { n : ℕ // n < 2 ^ 32 }

/-! ## Fields -/

/-- `SizeField`: how far a log has been read, how many jobs are pending, and whether
it is complete. -/
structure SizeField where
  good : Bool
  position : ℤ
  pending : ℕ
  last : Bool
  deriving DecidableEq

/-- A field that could not be read. -/
def SizeField.empty : SizeField := ⟨false, 0, 0, false⟩

/-- `reset` -/
def SizeField.of (position : ℤ) (pending : ℕ) (last : Bool) : SizeField :=
  ⟨true, position, pending, last⟩

/-- `integer_size(sizeof(long int))` -/
def sizeofLong : ℕ := 20

/-- `integer_size(sizeof(unsigned int))` -/
def sizeofUnsigned : ℕ := 10

/-- What a field takes in the file. -/
def dimension : ℕ := sizeofLong + sizeofUnsigned + 5

/-- A number as `operator<<` writes it. -/
def decimal : ℤ → Text
  | .ofNat n => Nat.toDigits 10 n
  | .negSucc n => '-' :: Nat.toDigits 10 (n + 1)

/-- `operator<<` -/
def SizeField.text (sf : SizeField) : Text :=
  zeroFill sizeofLong (decimal sf.position) ++
    ' ' :: (zeroFill sizeofUnsigned (Nat.toDigits 10 sf.pending) ++
      [' ', if sf.last then '1' else '0', ' ', '|'])

/-- A field with the end of its line. -/
def SizeField.line (sf : SizeField) : Text := sf.text ++ ['\n']

/-- The value of digits as a `long`, which must hold it. -/
def toLong (negative : Bool) (n : ℕ) : Option ℤ :=
  if negative then if n ≤ 2 ^ 63 then some (-n) else none
  else if n < 2 ^ 63 then some n else none

/-- A number with a minus sign wraps. -/
def toUnsigned (negative : Bool) (n : ℕ) : Option ℕ :=
  if n < 2 ^ 32 then some (if negative then (2 ^ 32 - n) % 2 ^ 32 else n)
  else none

/-- A `bool`, which must be 0 or 1. -/
def toBool (negative : Bool) (n : ℕ) : Option Bool :=
  if n = 0 then some false
  else if n = 1 && !negative then some true
  else none

/-- `operator>>`: the field is left as it was where it cannot be read, but for
its flag. -/
def readSizeField (s : IStream) : IStream × SizeField :=
  let (s, position) := s.number toLong 0
  let (s, pending) := s.number toUnsigned 0
  let (s, last) := s.number toBool false
  let (s, c) := s.char
  if s.good && c = some '|' then (s, .of position pending last)
  else (s, .empty)

/-! ## The header -/

/-- `SizeHeader`: the text at the head of the file. -/
structure SizeHeader where
  good : Bool
  header : Text
  deriving DecidableEq

/-- `reset`: a header that is empty is no good. -/
def SizeHeader.reset (header : Text) : SizeHeader := ⟨header ≠ [], header⟩

/-- What it takes with the dots behind it. -/
def SizeHeader.size (sh : SizeHeader) : ℕ := sh.header.length + 4

/-- The line that ends a header. -/
def dots : Text := ['.', '.', '.']

/-- `operator<<` -/
def SizeHeader.text (sh : SizeHeader) : Text := sh.header ++ '\n' :: dots

/-- The loop of `operator>>`, for as many lines as there can be. An empty
header has no last character to lose. -/
def readHeaderLines : ℕ → IStream → Text → IStream × SizeHeader
  | 0, s, _ => (s, ⟨false, []⟩)
  | n + 1, s, header =>
      let (s, buffer) := s.getline
      if buffer = dots then (s, ⟨true, header.dropLast⟩)
      else if s.good then readHeaderLines n s (header ++ buffer ++ ['\n'])
      else (s, ⟨false, []⟩)

/-- The lines up to the dots. -/
def readHeader (s : IStream) : IStream × SizeHeader :=
  readHeaderLines (s.text.length + 1) s []

/-- The header of a log without a DAG. -/
def defaultHeader : Text :=
  ("Condor log size file, DAG enabled.\n" ++
    "This header is made to contain the dagId.\n" ++
    "In this moment the DAG Id is unknown.").toList

/-! ## The file -/

/-- The object between two calls, with the content of its file. There is no
position to go back to where the stream had failed. -/
structure SizeFile where
  good : Bool
  stashPos : Option ℕ
  header : SizeHeader
  current : SizeField
  file : Text

/-- The file is written from the beginning. -/
def SizeFile.newSizeFile (sf : SizeFile) : SizeFile :=
  let header := if sf.header.good then sf.header else .reset defaultHeader
  let file := header.text ++ '\n' :: sf.current.line
  { sf with header := header, file := file, stashPos := some file.length }

/-- The same with an empty field. -/
def SizeFile.restart (sf : SizeFile) : SizeFile :=
  { sf with current := .of 0 0 false }.newSizeFile

/-- The loop that looks for the last good field, with the position behind
it. -/
def lastGood (headerSize : ℕ) : ℕ → IStream → Option (SizeField × ℕ)
  | 0, _ => none
  | n + 1, s =>
      let (s, field) :=
        readSizeField (s.seekg (headerSize + (n + 1) * (dimension + 1)))
      if field.good && s.good then some (field, s.pos)
      else lastGood headerSize n (if s.good then s else s.clear)

/-- The last field could not be read. -/
def SizeFile.recover (sf : SizeFile) (s : IStream) : SizeFile :=
  let fieldStorageSize := sf.file.length - sf.header.size
  let fieldNumber := fieldStorageSize / (dimension + 1)
  match lastGood sf.header.size fieldNumber s with
  | some (field, position) =>
      { sf with current := field, stashPos := some position }
  | none => sf.restart

/-- `junk` is what the variables hold before anything is read into them. -/
def SizeFile.checkOldFormat (sf : SizeFile) (junk : SizeField) (s : IStream) :
    Option SizeFile :=
  let (s, position) := (s.clear.seekg 0).number toLong junk.position
  let (s, pending) := s.number toUnsigned junk.pending
  let (s, last) := s.number toBool junk.last
  let (s, dagid) := if s.good then s.word else (s, [])
  if s.good || s.eof then
    some { sf with
      current := .of position pending last
      header :=
        if dagid.isEmpty then sf.header
        else .reset ("Restored from old file\nDagId = ".toList ++ dagid ++
          "\n###########".toList) }
  else none

/-- What the constructor does with a file that is there. -/
def SizeFile.openExisting (sf : SizeFile) (junk : SizeField) : SizeFile :=
  let (s, header) := readHeader (IStream.ofText sf.file)
  let sf := { sf with header := header }
  if header.good && !s.eof then
    let (s, field) := readSizeField (s.seekgEnd (dimension + 1))
    if field.good && s.good then
      { sf with current := field, stashPos := some sf.file.length }
    else sf.recover (if s.good then s else s.clear)
  else if s.eof then
    match sf.checkOldFormat junk s with
    | some sf => sf.newSizeFile
    | none => sf.restart
  else { sf with good := false, stashPos := s.tellg }

/-- `SizeFile::SizeFile` over a file that has this content. -/
def openFile (junk : SizeField) (filename : Text) (create : Bool)
    (file : Text) : SizeFile :=
  let sf : SizeFile := ⟨true, none, ⟨false, []⟩, .empty, file⟩
  if filename = [] then { sf with good := false }
  else if create then { sf with header := .reset defaultHeader }.restart
  else if file = [] then { sf with header := .reset defaultHeader }.restart
  else sf.openExisting junk

/-! ## Updates -/

/-- What is written over a part of the text. -/
def writeAt (file : Text) (pos : ℕ) (text : Text) : Text :=
  file.take pos ++ text ++ file.drop (pos + text.length)

/-- `reopenFile` -/
def SizeFile.reopenFile (sf : SizeFile) : SizeFile :=
  { sf with good := sf.stashPos.isSome }

/-- `dumpField`: the field goes where the file stands. -/
def SizeFile.dumpField (sf : SizeFile) : SizeFile :=
  match sf.stashPos with
  | none => { sf with good := false }
  | some pos =>
      { sf with
        good := true
        file := writeAt sf.file pos sf.current.line
        stashPos := some (pos + sf.current.line.length) }

/-- `update_position`, `update_pending`, `update_last` and `update`. -/
inductive Update where
  | position (newPosition : Offset)
  | pending (newPending : Count)
  | last (newLast : Bool)
  | all (newPosition : Offset) (newPending : Count) (newLast : Bool)

/-- What an update does to the field in memory. -/
def Update.apply (u : Update) (sf : SizeField) : SizeField :=
  match u with
  | .position p => { sf with position := p.1 }
  | .pending q => { sf with pending := q.1 }
  | .last b => { sf with last := b }
  | .all p q b => .of p.1 q.1 b

/-- One of the mutators: in memory, then in the file. -/
def SizeFile.update (sf : SizeFile) (u : Update) : SizeFile :=
  let sf := sf.reopenFile
  if sf.good then { sf with current := u.apply sf.current }.dumpField else sf

/-- Some of them one after another. -/
def SizeFile.updates (sf : SizeFile) (us : List Update) : SizeFile :=
  us.foldl SizeFile.update sf

/-- The new header, made longer by as much as it already is longer than the one
in the file. -/
def padHeader (space : ℕ) (newheader : Text) : Text :=
  if 1 < space then newheader ++ '\n' :: List.replicate (space - 1) '#'
  else if space = 1 then newheader ++ [' ']
  else newheader

/-- `update_header` -/
def SizeFile.updateHeader (sf : SizeFile) (newheader : Text) : SizeFile :=
  let sf := sf.reopenFile
  if sf.good then
    if sf.header.header.length ≤ newheader.length then
      let space := newheader.length - sf.header.header.length
      let header := SizeHeader.reset (padHeader space newheader)
      let file := writeAt sf.file 0 header.text
      { sf with header := header, file := file, stashPos := some file.length }
    else
      -- the file is truncated, and gets the current field only
      let header := SizeHeader.reset newheader
      let file := header.text ++ '\n' :: sf.current.line
      { sf with header := header, file := file, stashPos := some file.length }
  else sf

end Wms.Jobsubmission.LogMonitor
