import Wms.Jobsubmission.LogMonitor
import Wms.Lib.CString
import Wms.Lib.Lines

/-!
# The output of a job wrapper (`logmonitor/JobWrapperOutputParser.cpp`)

What the wrapper of a job has written tells how the job ended. It is read line by
line, from the standard output of the job first, and where that says nothing from
the file that the wrapper has sent home itself, which is called Maradona.

A file that cannot be opened is `none`. The texts for the log are left out.
-/

namespace Wms.Jobsubmission.LogMonitor.JobWrapperOutputParser

open Wms.Lib

/-- `BUFSIZ` -/
def bufsiz : ℕ := 8192

/-- `jwErrors` -/
def jwErrors : List (Text × JwopStatus) :=
  [ ("Working directory not writable".toList, .resubmit),
    ("GLOBUS_LOCATION undefined".toList, .resubmit),
    ("/etc/globus-user-env.sh".toList, .resubmit),
    ("not found or unreadable".toList, .abort),
    ("Cannot download".toList, .resubmit),
    ("Cannot upload".toList, .resubmit),
    ("Cannot take shallow resubmission token".toList, .resubmit),
    ("prologue failed".toList, .resubmit),
    ("epilogue failed".toList, .resubmit),
    ("Cannot create directory".toList, .resubmit),
    ("Job killed".toList, .abort),
    ("Job has been terminated".toList, .resubmit),
    ("No *ftp".toList, .resubmit),
    ("Cannot find edg-rm".toList, .resubmit) ]

/-- The variables of `parseStream`, of which some are those of its caller. -/
structure Parsed where
  found : Bool
  firstErrorFound : Bool
  waitingForEndTag : Bool
  errors : Text
  retcode : ℤ
  stat : JwopStatus
  sc : Text
  doneReason : Text
  deriving DecidableEq

/-- `strstr( buffer, text ) != NULL` -/
def contains (buffer text : Text) : Bool := (breakOn text buffer).isSome

/-- What stands behind the text, if the buffer begins with it. -/
def behind (text buffer : Text) : Option Text :=
  if text <+: buffer then some (buffer.drop text.length) else none

/-- What stands before the things that are looked for. -/
def jobExitStatus : Text := "job exit status = ".toList

def jwExitStatus : Text := "jw exit status = ".toList

def sequenceCode : Text := "Sequence code: ".toList

/-- `%d`, which is done if there is a digit; the value is cut as `atoi` cuts it. -/
def scanInt (s : Text) : Option ℤ :=
  let number := splitSign (s.dropWhile isSpace)
  if (number.2.takeWhile Char.isDigit).isEmpty then none else some (atoi s)

/-- `%255s` -/
def scanWord (s : Text) : Option Text :=
  let word := (s.dropWhile isSpace).takeWhile fun c => !isSpace c
  if word.isEmpty then none else some (word.take 255)

/-- An entry of the table in the line; the loop goes on to the end of the table. -/
def noteError (buffer : Text) (p : Parsed) (e : Text × JwopStatus) : Parsed :=
  if contains buffer e.1 then
    { p with
      errors := buffer
      stat := e.2
      found := true
      firstErrorFound := true }
  else p

/-- The first error message of the wrapper is the one that is kept. -/
def noteErrors (buffer : Text) (p : Parsed) : Parsed :=
  if p.firstErrorFound then p else jwErrors.foldl (noteError buffer) p

/-- The exit code of the job. -/
def noteExitStatus (buffer : Text) (p : Parsed) : Parsed :=
  match behind jobExitStatus buffer with
  | none => p
  | some s =>
      match scanInt s with
      | some n =>
          { p with
            retcode := n
            errors := buffer
            found := true
            stat := if p.firstErrorFound then p.stat else .good }
      | none => { p with retcode := -1 }

/-- That the wrapper said how it ended. -/
def noteJwExitStatus (buffer : Text) (p : Parsed) : Parsed :=
  match behind jwExitStatus buffer with
  | none => p
  | some _ => { p with found := true }

/-- The last sequence code. -/
def noteSequenceCode (buffer : Text) (p : Parsed) : Parsed :=
  match behind sequenceCode buffer with
  | none => p
  | some s => { p with sc := (scanWord s).getD [] }

/-- The lines between the two marks of a reason. -/
def noteDoneReason (buffer : Text) (p : Parsed) : Parsed :=
  if p.waitingForEndTag then
    if contains buffer "LM_log_done_end".toList then
      { p with waitingForEndTag := false }
    else { p with doneReason := p.doneReason ++ buffer ++ ['\n'] }
  else if contains buffer "LM_log_done_begin".toList then
    { p with waitingForEndTag := true }
  else p

/-- The buffer ends where the line has the character that ends a text. -/
def bufferOf (line : Text) : Text := line.takeWhile (· ≠ Char.ofNat 0)

/-- What is made of one line. -/
def parseLine (line : Text) (p : Parsed) : Parsed :=
  let buffer := bufferOf line
  noteDoneReason buffer (noteSequenceCode buffer (noteJwExitStatus buffer
    (noteExitStatus buffer (noteErrors buffer p))))

/-- What is kept when a file cannot be read. -/
def ioError (strerror : Text) (p : Parsed) : Parsed :=
  { p with
    errors := "IO error while reading file: ".toList ++ strerror
    found := true
    retcode := -1
    stat := .resubmit }

/-- `parseStream`, after the variables of the caller. -/
def parseStream (strerror : Text) (is : Option Text) (errors : Text) (retcode : ℤ)
    (stat : JwopStatus) : Parsed :=
  let p : Parsed :=
    ⟨false, false, false, errors, retcode, stat, "NoToken".toList, []⟩
  match is with
  | some text =>
      IStream.eachLine bufsiz parseLine (ioError strerror) (text.length + 1)
        (IStream.ofText text) p
  | none =>
      { p with
        errors := "File not available.".toList
        retcode := -1
        stat := .resubmit }

/-- What `parse_file` gives back. -/
def Parsed.output (p : Parsed) : JwOutput :=
  ⟨p.stat, p.retcode, p.errors, p.sc, p.doneReason⟩

/-- `parse_file` -/
def parseFile (strerror : Text) (useMaradonaFile : Bool)
    (standardOutput maradonaFile : Option Text) : JwOutput :=
  let p := parseStream strerror standardOutput [] (-1) .good
  if p.found then p.output
  else
    let errors := "Standard output does not contain useful data.".toList
    if useMaradonaFile then
      let q := parseStream strerror maradonaFile errors p.retcode p.stat
      if q.found then q.output
      else
        { q.output with
          errors := q.errors ++ ("Cannot read JobWrapper output, both from Condor " ++
            "and from Maradona. ").toList
          retcode := -1
          status := .resubmit }
    else { p.output with errors := errors, retcode := -1, status := .resubmit }

end Wms.Jobsubmission.LogMonitor.JobWrapperOutputParser
