import Mathlib.Data.List.Nodup
import Wms.Jobsubmission.Timer
import Wms.Lib.InputStream

/-!
# Which events survive a restart

An attribute that is written and read under one name comes back, and so the two
switches agree where both name it. They do not in three places. The host of an
execute event is never written, and what is read for it is the time of the
event. The resources are written as texts and read as numbers, and nothing is
read. A null text comes back as the empty one, but in a submit event.
-/

namespace Wms.Jobsubmission.Timer

open Wms.Lib
open LogMonitor (Text)

/-! ## Names -/

def allNames : List Name :=
  [.timeout, .eventNumber, .eventTime, .cluster, .proc, .subProc, .logNotes,
    .executeHost, .node, .execErrorType, .runLocalRusage, .runRemoteRusage,
    .totalLocalRusage, .totalRemoteRusage, .sentBytes, .recvdBytes, .terminate,
    .normal, .returnValue, .signalNumber, .reason, .coreFile, .totalSentBytes,
    .totalRecvdBytes, .size, .numPids, .message, .info, .rmContact, .jmContact,
    .restartableJM, .checkPointed, .daemonName, .errorStr, .criticalError,
    .reasonCode, .reasonSubCode, .userNotes, .startdAddr, .startdName, .starterAddr,
    .disconnReason, .noReconnReason, .canReconn, .resourceName, .jobId]

theorem mem_allNames (n : Name) : n ∈ allNames := by
  cases n <;> decide

/-- The names are different, and not only in the case of their letters. -/
theorem nodup_names : (allNames.map fun n => foldCase n.text).Nodup := by
  have hspelled : ∃ words,
      Spells (fun cs => foldCase (String.ofList cs).toList)
        (allNames.map fun n => foldCase n.text) words ∧
        ((words.map foldCase).map charCode).Nodup :=
    ⟨_, by repeat constructor, by decide +kernel⟩
  obtain ⟨words, hspells, hcodes⟩ := hspelled
  rw [hspells.eq]
  simp only [String.toList_ofList]
  exact hcodes.of_map charCode

theorem foldCase_text_inj {a b : Name} : foldCase a.text = foldCase b.text ↔ a = b := by
  constructor
  · exact List.inj_on_of_nodup_map nodup_names (mem_allNames a) (mem_allNames b)
  · rintro rfl
    rfl

section Attributes

variable {D : Type} (ad : ClassAd D) (a b : Name) (v : Value D)

@[simp] theorem getString_put (target : Text) :
    getString (put ad a v) b target =
      if b = a then v.text target else getString ad b target := by
  unfold getString put
  rw [ClassAd.evaluateAttrString_insertAttr]
  simp only [foldCase_text_inj]

@[simp] theorem getBool_put (target : Bool) :
    getBool (put ad a v) b target =
      if b = a then v.truth target else getBool ad b target := by
  unfold getBool put
  rw [ClassAd.evaluateAttrBool_insertAttr]
  simp only [foldCase_text_inj]

@[simp] theorem hasString_put_str (s : Text) :
    hasString (put ad a (.str s)) b = if b = a then true else hasString ad b := by
  unfold hasString put
  rw [ClassAd.lookup_insertAttr]
  simp only [foldCase_text_inj]
  by_cases h : b = a
  · rw [if_pos h, if_pos h]
  · rw [if_neg h, if_neg h]

@[simp] theorem getAd_put :
    getAd (put ad a v) b =
      if b = a then (match v with | .ad attributes => some attributes | _ => none)
      else getAd ad b := by
  unfold getAd put
  rw [ClassAd.lookup_insertAttr]
  simp only [foldCase_text_inj]
  by_cases h : b = a
  · rw [if_pos h, if_pos h]
    cases v <;> rfl
  · rw [if_neg h, if_neg h]

end Attributes

variable {N : Numbers} {L : Libraries}

@[simp] theorem getInt_put (ad : ClassAd N.Double) (a b : Name) (v : Value N.Double)
    (target : ℤ) :
    getInt (put ad a v) b target =
      if b = a then v.number id N.toInt target else getInt ad b target := by
  unfold getInt put
  rw [ClassAd.evaluateAttrNumber_insertAttr]
  simp only [foldCase_text_inj]

@[simp] theorem getDouble_put (ad : ClassAd N.Double) (a b : Name)
    (v : Value N.Double) (target : N.Double) :
    getDouble (put ad a v) b target =
      if b = a then v.number N.ofInt id target else getDouble ad b target := by
  unfold getDouble put
  rw [ClassAd.evaluateAttrNumber_insertAttr]
  simp only [foldCase_text_inj]

/-! ## Texts -/

theorem myStrdup_coe (s : CString) : myStrdup s.1 = s := by
  refine Subtype.ext ?_
  show s.1.takeWhile _ = s.1
  rw [List.takeWhile_eq_self_iff]
  intro c hc
  exact decide_eq_true fun heq => s.2 (heq ▸ hc)

/-- A text comes back, and a null pointer comes back as a text. -/
@[simp] theorem strdup_nullString (s : Option CString) :
    some (myStrdup (nullString s)) = s ↔ ¬ none = s := by
  cases s with
  | none => simp
  | some s => simp [nullString, myStrdup_coe]

@[simp] theorem strncpy_coe {n : ℕ} (s : CArray n) : strncpy n s.1 = some s := by
  have hcopy : (myStrdup s.1).1 = s.1 :=
    congrArg Subtype.val (myStrdup_coe ⟨s.1, s.2.1⟩)
  unfold strncpy
  rw [dif_pos (by rw [hcopy]; exact s.2.2)]
  exact congrArg some (Subtype.ext hcopy)

theorem mem_signedDigits {t : ℤ} {c : Char} (h : c ∈ signedDigits t) :
    c = '-' ∨ c.isDigit = true := by
  unfold signedDigits at h
  split at h
  · rcases List.mem_cons.mp h with h | h
    · exact .inl h
    · exact .inr (Nat.isDigit_of_mem_toDigits (by decide) (by decide) h)
  · exact .inr (Nat.isDigit_of_mem_toDigits (by decide) (by decide) h)

theorem nul_not_mem_signedDigits (t : ℤ) : Char.ofNat 0 ∉ signedDigits t := by
  intro h
  rcases mem_signedDigits h with h | h <;> exact absurd h (by decide)

theorem length_signedDigits (t : Time) : (signedDigits t.1).length ≤ 128 := by
  have hlength : (Nat.toDigits 10 t.1.natAbs).length ≤ 20 := by
    have hlow := t.2.1
    have hhigh := t.2.2
    exact length_toDigits_le (by omega) (by decide)
  unfold signedDigits
  split
  · rw [List.length_cons]
    omega
  · omega

theorem lexicalCastTime_signedDigits (t : Time) :
    lexicalCastTime (signedDigits t.1) = some t := by
  have hdigits : (Nat.toDigits 10 t.1.natAbs).all Char.isDigit = true :=
    List.all_eq_true.mpr fun c hc =>
      Nat.isDigit_of_mem_toDigits (by decide) (by decide) hc
  have hne : Nat.toDigits 10 t.1.natAbs ≠ [] := Nat.toDigits_ne_nil
  have hlow := t.2.1
  have hhigh := t.2.2
  unfold lexicalCastTime
  have hparts : splitSign (signedDigits t.1) =
      (decide (t.1 < 0), Nat.toDigits 10 t.1.natAbs) := by
    unfold signedDigits
    by_cases hneg : t.1 < 0
    · rw [if_pos hneg, decide_eq_true hneg]
      rfl
    · rw [if_neg hneg, decide_eq_false hneg]
      cases hd : Nat.toDigits 10 t.1.natAbs with
      | nil => exact absurd hd hne
      | cons c cs =>
          rw [hd, List.all_cons, Bool.and_eq_true] at hdigits
          exact splitSign_cons hdigits.1 cs
  have hvalue : (if decide (t.1 < 0) = true then -(t.1.natAbs : ℤ)
      else (t.1.natAbs : ℤ)) = t.1 := by
    split
    · next h =>
        have := of_decide_eq_true h
        omega
    · next h =>
        have := of_decide_eq_false (Bool.eq_false_iff.mpr h)
        omega
  simp only [hparts, digitsValue_toDigits, hvalue]
  rw [dif_pos ⟨⟨hne, hdigits⟩, t.2⟩]

/-- What is read for a host that was never written. -/
theorem strdup_time (t : Time) (host : Option CString) :
    some (myStrdup ((signedDigits t.1).take 128)) = host ↔
      ∃ s, host = some s ∧ s.1 = signedDigits t.1 := by
  rw [List.take_of_length_le (length_signedDigits t)]
  have hcopy := myStrdup_coe ⟨signedDigits t.1, nul_not_mem_signedDigits t.1⟩
  constructor
  · rintro rfl
    exact ⟨_, rfl, congrArg Subtype.val hcopy⟩
  · rintro ⟨s, rfl, hs⟩
    rw [← hs, myStrdup_coe]

/-! ## Resources -/

theorem toClassAd_texts (ru : Rusage) : (toClassAd (N := N) ru).Texts := by
  unfold toClassAd
  simp only [List.foldl_cons, List.foldl_nil]
  repeat apply ClassAd.Texts.insertAttr
  exact ClassAd.texts_nil

/-- Nothing is read: every field is what was in memory. -/
theorem maxrss_toRusage (val : N.Double) (ru : Rusage) :
    (toRusage val (toClassAd ru)).maxrss = N.toInt val := by
  unfold toRusage
  simp only [(toClassAd_texts ru).evaluateAttrNumber]

/-- No field can be relied on to be in memory. -/
theorem exists_toInt_ne (N : Numbers) (i : ℤ) : ∃ val : N.Double, N.toInt val ≠ i := by
  by_cases h : i = 0
  · refine ⟨N.ofInt 1, ?_⟩
    rw [N.toInt_ofInt 1 (by decide) (by decide), h]
    decide
  · refine ⟨N.ofInt 0, ?_⟩
    rw [N.toInt_ofInt 0 (by decide) (by decide)]
    exact fun heq => h heq.symm

/-! ## What comes back of an event -/

/-- The fields that `to_event` restores: the size of an image and whether a job
can be connected again are not among them. -/
@[simp] def Details.restored : Details N → Details N
  | .imageSize _ => .imageSize 0
  | .jobDisconnected e => .jobDisconnected { e with canReconnect := false }
  | d => d

@[simp] def Details.hasRusage : Details N → Bool
  | .checkpointed _ _ | .jobEvicted _ | .jobTerminated _ | .nodeTerminated _ _ => true
  | _ => false

/-- The host of an execute event. -/
@[simp] def Details.executionHost : Details N → Option (Option CString)
  | .execute host | .nodeExecute _ host => some host
  | _ => none

/-- The texts that are written with `NullString`. -/
@[simp] def Details.texts : Details N → List (Option CString)
  | .jobEvicted e => [e.reason, e.coreFile]
  | .jobTerminated e | .nodeTerminated _ e => [e.coreFile]
  | .jobAborted text | .jobHeld text _ _ | .jobReleased text
  | .globusSubmitFailed text | .globusResourceUp text | .globusResourceDown text
  | .gridResourceUp text | .gridResourceDown text => [text]
  | .globusSubmit rmContact jmContact _ => [rmContact, jmContact]
  | .remoteError e => [e.executeHost, e.daemonName, e.errorText]
  | .jobDisconnected e =>
      [e.startdAddr, e.startdName, e.disconnectReason, e.noReconnectReason]
  | .jobReconnected startdAddr startdName starterAddr =>
      [startdAddr, startdName, starterAddr]
  | .jobReconnectFailed startdName reason => [startdName, reason]
  | .gridSubmit resourceName jobId => [resourceName, jobId]
  | _ => []

/-- There are no resources and no null texts, and the host of an execute event
is the text of the time of the event. -/
def Details.Restorable (d : Details N) (time : Text) : Prop :=
  d.hasRusage = false ∧ none ∉ d.texts ∧
    ∀ host, d.executionHost = some host → ∃ s, host = some s ∧ s.1 = time

/-- Two events of one kind. -/
inductive SameKind : Details N → Details N → Prop
  | submit (e e') : SameKind (.submit e) (.submit e')
  | execute (h h') : SameKind (.execute h) (.execute h')
  | executableError (t t') : SameKind (.executableError t) (.executableError t')
  | checkpointed (l r l' r') : SameKind (.checkpointed l r) (.checkpointed l' r')
  | jobEvicted (e e') : SameKind (.jobEvicted e) (.jobEvicted e')
  | jobTerminated (e e') : SameKind (.jobTerminated e) (.jobTerminated e')
  | imageSize (k k') : SameKind (.imageSize k) (.imageSize k')
  | shadowException (e e') : SameKind (.shadowException e) (.shadowException e')
  | generic (i i') : SameKind (.generic i) (.generic i')
  | jobAborted (r r') : SameKind (.jobAborted r) (.jobAborted r')
  | jobSuspended (n n') : SameKind (.jobSuspended n) (.jobSuspended n')
  | jobUnsuspended : SameKind .jobUnsuspended .jobUnsuspended
  | jobHeld (r c s r' c' s') : SameKind (.jobHeld r c s) (.jobHeld r' c' s')
  | jobReleased (r r') : SameKind (.jobReleased r) (.jobReleased r')
  | nodeExecute (n h n' h') : SameKind (.nodeExecute n h) (.nodeExecute n' h')
  | nodeTerminated (n e n' e') : SameKind (.nodeTerminated n e) (.nodeTerminated n' e')
  | postScriptTerminated (n r s n' r' s') :
      SameKind (.postScriptTerminated n r s) (.postScriptTerminated n' r' s')
  | globusSubmit (r j b r' j' b') :
      SameKind (.globusSubmit r j b) (.globusSubmit r' j' b')
  | globusSubmitFailed (r r') :
      SameKind (.globusSubmitFailed r) (.globusSubmitFailed r')
  | globusResourceUp (r r') : SameKind (.globusResourceUp r) (.globusResourceUp r')
  | globusResourceDown (r r') :
      SameKind (.globusResourceDown r) (.globusResourceDown r')
  | remoteError (e e') : SameKind (.remoteError e) (.remoteError e')
  | jobDisconnected (e e') : SameKind (.jobDisconnected e) (.jobDisconnected e')
  | jobReconnected (a n s a' n' s') :
      SameKind (.jobReconnected a n s) (.jobReconnected a' n' s')
  | jobReconnectFailed (n r n' r') :
      SameKind (.jobReconnectFailed n r) (.jobReconnectFailed n' r')
  | gridSubmit (n j n' j') : SameKind (.gridSubmit n j) (.gridSubmit n' j')
  | gridResourceUp (n n') : SameKind (.gridResourceUp n) (.gridResourceUp n')
  | gridResourceDown (n n') : SameKind (.gridResourceDown n) (.gridResourceDown n')

theorem sameKind {d d' : Details N} (h : d.eventNumber = d'.eventNumber) :
    SameKind d d' := by
  cases d <;> cases d' <;> first | constructor | cases h

theorem Restorable_execute {d : Details N} {host : Option CString} {time : Text}
    (hhost : d.executionHost = some host) (hrusage : d.hasRusage = false)
    (htexts : d.texts = []) :
    d.Restorable time ↔ ∃ s, host = some s ∧ s.1 = time := by
  unfold Details.Restorable
  rw [hhost, htexts]
  constructor
  · exact fun h => h.2.2 host rfl
  · rintro h
    refine ⟨hrusage, List.not_mem_nil, fun host' heq => ?_⟩
    exact Option.some.inj heq ▸ h

theorem Restorable_texts {d : Details N} {time : Text}
    (hhost : d.executionHost = none) (hrusage : d.hasRusage = false) :
    d.Restorable time ↔ none ∉ d.texts := by
  unfold Details.Restorable
  rw [hhost]
  exact ⟨fun h => h.2.1, fun h => ⟨hrusage, h, fun _ heq => by cases heq⟩⟩

/-- Without resources in it, an event comes back when it is restorable, whatever
is in memory. -/
theorem getDetails_putDetails {ad : ClassAd N.Double}
    (hhost : ∀ s, getString ad .executeHost s = s)
    (hlog : hasString ad .logNotes = false) (huser : hasString ad .userNotes = false)
    {d fresh : Details N} (hkind : SameKind d fresh)
    (hfresh : ∀ e, fresh = .submit e →
      e.submitEventLogNotes = none ∧ e.submitEventUserNotes = none)
    (memory : Memory N) (ival : ℤ) (t : Time) (hrusage : d.hasRusage = false) :
    (∃ d', getDetails memory (putDetails ad d) ival (signedDigits t.1) fresh = some d' ∧
        d'.restored = d.restored) ↔
      d.Restorable (signedDigits t.1) := by
  cases hkind with
  | submit e e' =>
      rw [Restorable_texts rfl rfl]
      obtain ⟨hl, hu⟩ := hfresh e' rfl
      obtain ⟨log, user⟩ := e
      cases log <;> cases user <;>
        simp [getDetails, putDetails, hlog, huser, hl, hu, nullString, myStrdup_coe]
  | execute h h' =>
      rw [Restorable_execute rfl rfl rfl, ← strdup_time]
      simp [getDetails, putDetails, hhost]
  | nodeExecute n h n' h' =>
      rw [Restorable_execute rfl rfl rfl, ← strdup_time]
      simp [getDetails, putDetails, hhost]
  | checkpointed | jobEvicted | jobTerminated | nodeTerminated => cases hrusage
  | executableError | imageSize | generic | jobSuspended | jobUnsuspended =>
      rw [Restorable_texts rfl rfl]
      simp [getDetails, putDetails]
  | postScriptTerminated =>
      rw [Restorable_texts rfl rfl]
      simp [getDetails, putDetails, putExit]
  | shadowException e e' =>
      rw [Restorable_texts rfl rfl]
      simp [getDetails, putDetails, N.narrow_widen]
  | jobAborted | jobReleased | globusSubmitFailed | globusResourceUp
  | globusResourceDown | gridResourceUp | gridResourceDown | jobHeld
  | globusSubmit | jobReconnected | jobReconnectFailed | gridSubmit =>
      rw [Restorable_texts rfl rfl]
      simp [getDetails, putDetails]
  | remoteError e e' =>
      rw [Restorable_texts rfl rfl]
      obtain ⟨executeHost, daemonName, errorText, criticalError⟩ := e
      simp [getDetails, putDetails]
  | jobDisconnected e e' =>
      rw [Restorable_texts rfl rfl]
      obtain ⟨startdAddr, startdName, disconnectReason, noReconnectReason, _⟩ := e
      simp [getDetails, putDetails]

/-- The largest resident set of what the run used locally. -/
@[simp] def Details.maxrss : Details N → Option ℤ
  | .checkpointed l _ => some l.maxrss
  | .jobEvicted e => some e.runLocalRusage.maxrss
  | .jobTerminated e | .nodeTerminated _ e => some e.runLocalRusage.maxrss
  | _ => none

/-- The resources of an event are what is in memory where they are read. -/
theorem maxrss_getDetails {ad : ClassAd N.Double} {d fresh d' : Details N}
    (hkind : SameKind d fresh) (hrusage : d.hasRusage = true) {memory : Memory N}
    {ival : ℤ} {sval : Text}
    (h : getDetails memory (putDetails ad d) ival sval fresh = some d') :
    d'.maxrss = some (N.toInt (memory.val 0)) := by
  cases hkind with
  | checkpointed l r l' r' =>
      simp only [getDetails, putDetails, getAd_put, reduceCtorEq, ↓reduceIte,
        Option.pure_def, Option.bind_eq_bind, Option.bind_some, Option.some.injEq] at h
      rw [← h]
      exact congrArg some (maxrss_toRusage _ _)
  | jobEvicted e e' =>
      simp only [getDetails, putDetails, getAd_put, reduceCtorEq, ↓reduceIte,
        Option.pure_def, Option.bind_eq_bind, Option.bind_some, Option.some.injEq] at h
      rw [← h]
      exact congrArg some (maxrss_toRusage _ _)
  | jobTerminated e e' | nodeTerminated n e n' e' =>
      simp only [getDetails, putDetails, getTerminated, putTerminated, getAd_put,
        reduceCtorEq, ↓reduceIte, Option.pure_def, Option.bind_eq_bind,
        Option.bind_some, Option.some.injEq] at h
      rw [← h]
      exact congrArg some (maxrss_toRusage _ _)
  | _ => cases hrusage

theorem maxrss_restored (d : Details N) : d.restored.maxrss = d.maxrss := by
  cases d <;> rfl

theorem maxrss_of_hasRusage {d : Details N} (h : d.hasRusage = true) :
    ∃ i, d.maxrss = some i := by
  cases d with
  | checkpointed | jobEvicted | jobTerminated | nodeTerminated => exact ⟨_, rfl⟩
  | _ => cases h

/-! ## A restart -/

/-- The same event, as far as `to_event` restores it. -/
structure Same (before after : ULogEvent L.toNumbers L.Tm) : Prop where
  eventTime : after.eventTime = before.eventTime
  cluster : after.cluster = before.cluster
  proc : after.proc = before.proc
  subproc : after.subproc = before.subproc
  details : after.details.restored = before.details.restored

/-- The event of the timeout that is made from the ad is the event that the ad
was made from, and the timeout is the same. -/
def SurvivesRestart (L : Libraries) (epoch : Time)
    (event : ULogEvent L.toNumbers L.Tm) : Prop :=
  ∀ memory : Memory L.toNumbers, ∃ before ad written after read,
    (TimeoutEvent.ofEvent epoch event).toClassad = some before ∧
      before.classad = some ad ∧ before.event = some written ∧
      (TimeoutEvent.ofClassad ad).toEvent memory = some after ∧
      after.event = some read ∧ after.epoch = epoch ∧ Same written read

/-- The attributes that every event has. -/
def header (epoch : Time) (event : ULogEvent L.toNumbers L.Tm) : ClassAd L.Double :=
  let ad := put [] .timeout (.str (signedDigits epoch.1))
  let ad := put ad .eventNumber (.int (L.number event.details.eventNumber))
  let ad := put ad .eventTime (.str (signedDigits (L.mktime event.eventTime).1.1))
  let ad := put ad .cluster (.int event.cluster)
  let ad := put ad .proc (.int event.proc)
  put ad .subProc (.int event.subproc)

@[simp] def Name.isHeader : Name → Bool
  | .timeout | .eventNumber | .eventTime | .cluster | .proc | .subProc => true
  | _ => false

theorem lookup_put_of_ne {D : Type} (ad : ClassAd D) {a b : Name} (v : Value D)
    (h : b ≠ a) : (put ad a v).lookup b.text = ad.lookup b.text := by
  unfold put
  rw [ClassAd.lookup_insertAttr]
  simp only [foldCase_text_inj]
  rw [if_neg h]

/-- The switch of `to_classad` leaves the common attributes alone. -/
theorem lookup_putDetails (ad : ClassAd N.Double) (d : Details N) {n : Name}
    (hn : n.isHeader = true) : (putDetails ad d).lookup n.text = ad.lookup n.text := by
  have hne : ∀ a : Name, a.isHeader = false → n ≠ a := by
    intro a ha heq
    rw [heq, ha] at hn
    cases hn
  cases d with
  | submit e =>
      obtain ⟨log, user⟩ := e
      cases log <;> cases user <;>
        simp (disch := exact hne _ rfl) [putDetails, lookup_put_of_ne]
  | _ =>
      simp (disch := exact hne _ rfl) only [putDetails, putExit, putTerminated,
        lookup_put_of_ne]

theorem getInt_header (ad : ClassAd N.Double) (d : Details N) {n : Name}
    (hn : n.isHeader = true) (target : ℤ) :
    getInt (putDetails ad d) n target = getInt ad n target := by
  unfold getInt ClassAd.evaluateAttrNumber
  rw [lookup_putDetails ad d hn]

theorem getString_header (ad : ClassAd N.Double) (d : Details N) {n : Name}
    (hn : n.isHeader = true) (target : Text) :
    getString (putDetails ad d) n target = getString ad n target := by
  unfold getString ClassAd.evaluateAttrString
  rw [lookup_putDetails ad d hn]

theorem header_executeHost (epoch : Time) (event : ULogEvent L.toNumbers L.Tm)
    (s : Text) : getString (header epoch event) .executeHost s = s := by
  simp only [header, getString_put, reduceCtorEq, ↓reduceIte]
  rfl

theorem header_hasString (epoch : Time) (event : ULogEvent L.toNumbers L.Tm)
    {n : Name} (hn : n.isHeader = false) : hasString (header epoch event) n = false := by
  have hne : ∀ a : Name, a.isHeader = true → n ≠ a := by
    intro a ha heq
    rw [heq, ha] at hn
    cases hn
  unfold hasString header
  simp (disch := exact hne _ rfl) only [lookup_put_of_ne]
  rfl

/-- What the first lines of `to_event` find, and the switch after them. -/
theorem toEvent_ofClassad (epoch : Time) (event : ULogEvent L.toNumbers L.Tm)
    (memory : Memory L.toNumbers) {fresh : ULogEvent L.toNumbers L.Tm}
    (hfresh : L.instantiateEvent (L.number event.details.eventNumber) = some fresh) :
    (TimeoutEvent.ofClassad (putDetails (header epoch event) event.details)).toEvent
        memory =
      (getDetails memory (putDetails (header epoch event) event.details)
        (L.number event.details.eventNumber)
        (signedDigits (L.mktime event.eventTime).1.1) fresh.details).map fun details =>
          ⟨epoch, some ⟨L.localtime (L.mktime event.eventTime).1, event.cluster,
            event.proc, event.subproc, details⟩,
            some (putDetails (header epoch event) event.details)⟩ := by
  have hint := fun {n : Name} (hn : n.isHeader = true) (target : ℤ) =>
    getInt_header (header epoch event) event.details hn target
  have hstring := fun {n : Name} (hn : n.isHeader = true) (target : Text) =>
    getString_header (header epoch event) event.details hn target
  have hnumber : getInt (header epoch event) .eventNumber memory.ival =
      L.number event.details.eventNumber := by simp [header]
  have hepoch : getString (header epoch event) .timeout [] =
      signedDigits epoch.1 := by simp [header]
  have htime : getString (header epoch event) .eventTime (signedDigits epoch.1) =
      signedDigits (L.mktime event.eventTime).1.1 := by simp [header]
  have hcluster : getInt (header epoch event) .cluster fresh.cluster =
      event.cluster := by simp [header]
  have hproc : getInt (header epoch event) .proc fresh.proc = event.proc := by
    simp [header]
  have hsubproc : getInt (header epoch event) .subProc fresh.subproc =
      event.subproc := by simp [header]
  unfold TimeoutEvent.toEvent TimeoutEvent.ofClassad
  simp only [hint (n := .eventNumber) rfl, hint (n := .cluster) rfl,
    hint (n := .proc) rfl, hint (n := .subProc) rfl, hstring (n := .timeout) rfl,
    hstring (n := .eventTime) rfl, hnumber, hepoch, htime, hcluster, hproc, hsubproc,
    hfresh, lexicalCastTime_signedDigits, Option.pure_def, Option.bind_eq_bind,
    Option.bind_some, Option.map_eq_bind, Function.comp_def]

theorem toClassad_ofEvent (epoch : Time) (event : ULogEvent L.toNumbers L.Tm) :
    (TimeoutEvent.ofEvent epoch event).toClassad =
      some ⟨epoch, some { event with eventTime := (L.mktime event.eventTime).2 },
        some (putDetails (header epoch event) event.details)⟩ := rfl

/-- The rest is up to the switches. -/
theorem survivesRestart_details (epoch : Time) (event : ULogEvent L.toNumbers L.Tm)
    {fresh : ULogEvent L.toNumbers L.Tm}
    (hfresh : L.instantiateEvent (L.number event.details.eventNumber) = some fresh) :
    SurvivesRestart L epoch event ↔ ∀ memory : Memory L.toNumbers, ∃ details,
      getDetails memory (putDetails (header epoch event) event.details)
          (L.number event.details.eventNumber)
          (signedDigits (L.mktime event.eventTime).1.1) fresh.details = some details ∧
        details.restored = event.details.restored := by
  constructor
  · intro hall memory
    obtain ⟨_, _, _, after, read, hbefore, had, hwritten, hafter, hread, -, hsame⟩ :=
      hall memory
    rw [toClassad_ofEvent] at hbefore
    cases hbefore
    cases had
    cases hwritten
    rw [toEvent_ofClassad epoch event memory hfresh] at hafter
    obtain ⟨details, hdetails, rfl⟩ := Option.map_eq_some_iff.mp hafter
    cases hread
    exact ⟨details, hdetails, hsame.details⟩
  · intro hall memory
    obtain ⟨details, hdetails, hrestored⟩ := hall memory
    have hafter := toEvent_ofClassad epoch event memory hfresh
    rw [hdetails, Option.map_some] at hafter
    exact ⟨_, _, _, _, _, toClassad_ofEvent epoch event, rfl, rfl, hafter, rfl, rfl,
      ⟨L.localtime_mktime event.eventTime, rfl, rfl, rfl, hrestored⟩⟩

/-- An event comes back, whatever is in memory, exactly when it has no resources
and no null texts (the notes of a submit event may be null), and is no execute
event, or one with the text of its time for a host. -/
theorem survivesRestart_iff (L : Libraries) (epoch : Time)
    (event : ULogEvent L.toNumbers L.Tm) :
    SurvivesRestart L epoch event ↔
      event.details.Restorable (signedDigits (L.mktime event.eventTime).1.1) := by
  obtain ⟨fresh, hfresh, hnumber⟩ := L.instantiateEvent_number event.details.eventNumber
  have hkind := sameKind hnumber.symm
  rw [survivesRestart_details epoch event hfresh]
  cases hrusage : event.details.hasRusage with
  | true =>
      refine iff_of_false (fun hall => ?_) fun h =>
        Bool.false_ne_true (h.1.symm.trans hrusage)
      obtain ⟨i, hi⟩ := maxrss_of_hasRusage hrusage
      obtain ⟨val, hval⟩ := exists_toInt_ne L.toNumbers i
      obtain ⟨details, hdetails, hrestored⟩ := hall ⟨0, val, false, fun _ => val⟩
      have hback := congrArg Details.maxrss hrestored
      rw [maxrss_restored, maxrss_restored, maxrss_getDetails hkind hrusage hdetails,
        hi] at hback
      exact hval (Option.some.inj hback)
  | false =>
      have hback := fun memory => getDetails_putDetails
        (header_executeHost epoch event) (header_hasString epoch event rfl)
        (header_hasString epoch event rfl) hkind
        (fun e he => L.instantiateEvent_submit _ _ e hfresh he) memory
        (L.number event.details.eventNumber) (L.mktime event.eventTime).1 hrusage
      constructor
      · exact fun hall => (hback ⟨0, L.ofInt 0, false, fun _ => L.ofInt 0⟩).mp (hall _)
      · exact fun h memory => (hback memory).mpr h

/-! ## A job that is executed -/

/-- What Condor makes of a number, with whole numbers for all numbers. -/
def newDetails (N : Numbers) (x : N.Single) : EventNumber → Details N
  | .submit => .submit ⟨none, none⟩
  | .execute => .execute none
  | .executableError => .executableError (-1)
  | .checkpointed => .checkpointed noRusage noRusage
  | .jobEvicted =>
      .jobEvicted ⟨false, x, x, false, false, -1, -1, none, none, noRusage, noRusage⟩
  | .jobTerminated => .jobTerminated noTermination
  | .imageSize => .imageSize (-1)
  | .shadowException => .shadowException ⟨⟨[], by decide⟩, x, x⟩
  | .generic => .generic ⟨[], by decide⟩
  | .jobAborted => .jobAborted none
  | .jobSuspended => .jobSuspended (-1)
  | .jobUnsuspended => .jobUnsuspended
  | .jobHeld => .jobHeld none 0 0
  | .jobReleased => .jobReleased none
  | .nodeExecute => .nodeExecute (-1) none
  | .nodeTerminated => .nodeTerminated (-1) noTermination
  | .postScriptTerminated => .postScriptTerminated false (-1) (-1)
  | .globusSubmit => .globusSubmit none none false
  | .globusSubmitFailed => .globusSubmitFailed none
  | .globusResourceUp => .globusResourceUp none
  | .globusResourceDown => .globusResourceDown none
  | .remoteError => .remoteError ⟨none, none, none, true⟩
  | .jobDisconnected => .jobDisconnected ⟨none, none, none, none, true⟩
  | .jobReconnected => .jobReconnected none none none
  | .jobReconnectFailed => .jobReconnectFailed none none
  | .gridResourceUp => .gridResourceUp none
  | .gridResourceDown => .gridResourceDown none
  | .gridSubmit => .gridSubmit none none
where
  noRusage : Rusage := ⟨0, 0, 0, 0, 0, 0, 0, 0, 0, 0, 0, 0, 0, 0, ⟨0, 0⟩, ⟨0, 0⟩⟩
  noTermination : TerminatedEvent N :=
    ⟨false, -1, -1, x, x, x, x, none, noRusage, noRusage, noRusage, noRusage⟩

/-- Whole numbers, and a calendar that counts the seconds. -/
def plainLibraries : Libraries where
  Single := ℤ
  Double := ℤ
  widen := id
  narrow := id
  narrow_widen _ := rfl
  ofInt := id
  toInt := id
  toInt_ofInt _ _ _ := rfl
  Tm := Time
  mktime t := (t, t)
  localtime := id
  localtime_mktime _ := rfl
  number n := (n.ctorIdx : ℤ)
  instantiateEvent i :=
    if i < 28 then
      some ⟨⟨0, zero_in_range⟩, -1, -1, -1, newDetails _ (0 : ℤ) (EventNumber.ofNat i.toNat)⟩
    else none
  instantiateEvent_number n := by
    cases n <;> exact ⟨_, rfl, rfl⟩
  instantiateEvent_submit i ev e h he := by
    split at h
    · cases h
      revert he
      generalize EventNumber.ofNat i.toNat = n
      intro he
      cases n <;> cases he
      exact ⟨rfl, rfl⟩
    · cases h

/-- The host that a job was executed on does not survive. -/
theorem not_survivesRestart_execute :
    ¬ ∀ (L : Libraries) (epoch : Time) (event : ULogEvent L.toNumbers L.Tm),
      SurvivesRestart L epoch event := by
  intro hall
  let event : ULogEvent plainLibraries.toNumbers plainLibraries.Tm :=
    ⟨(⟨0, zero_in_range⟩ : Time), 1, 0, 0, .execute (some ⟨['n'], by decide⟩)⟩
  have hnew : plainLibraries.instantiateEvent
      (plainLibraries.number event.details.eventNumber) = some _ := rfl
  obtain ⟨details, hdetails, hrestored⟩ :=
    (survivesRestart_details ⟨0, zero_in_range⟩ event hnew).mp
      (hall plainLibraries ⟨0, zero_in_range⟩ event) ⟨0, (0 : ℤ), false, fun _ => (0 : ℤ)⟩
  have hrestorable := (getDetails_putDetails (header_executeHost ⟨0, zero_in_range⟩ event)
    (header_hasString _ event rfl) (header_hasString _ event rfl)
    (SameKind.execute _ none) (fun e he => by cases he) _ _ ⟨0, zero_in_range⟩ rfl).mp
    ⟨details, hdetails, hrestored⟩
  obtain ⟨s, hs, htime⟩ := hrestorable.2.2 _ rfl
  cases hs
  exact absurd htime (by decide)

end Wms.Jobsubmission.Timer
