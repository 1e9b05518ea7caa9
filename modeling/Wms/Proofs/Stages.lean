import Wms.Core.SubmitRequest

/-!
# What the stages of the processor can do

Three kinds of call, each contained in the next but one. A plain call reads,
or notes something that no other component acts upon. A calm call may also end
the processing, with an abort, a purge or a place in the event queue, but
leaves the token files and the retry counts alone and delivers nothing. A
quiet call is one that does not end the processing, whatever it does to the
tokens. For most stages it is enough to know of which kind all their calls
are, on every path. The calls made before the directory is read, and those of
the handlers, are calm ones that are called opening.
-/

namespace Wms.Core

open Wms.Lib Wms.Lib.Proc

/-- A call that at most logs what no count looks at. -/
def Call.plain : Call → Bool
  | .log (.pending _) => true
  | .log (.userTag _ _) => true
  | .log _ => false
  | .purge => false
  | .createToken _ => false
  | .rename _ _ => false
  | .unlink _ => false
  | .deliver _ _ => false
  | .deliverToWm _ => false
  | .scheduleAt _ => false
  | .schedule _ => false
  | .removeFromInput => false
  | _ => true

/-- A call that neither resubmits nor changes a token. -/
def Call.calm : Call → Bool
  | .log (.resubmission _ _ _) => false
  | .createToken _ => false
  | .rename _ _ => false
  | .unlink _ => false
  | .deliver _ _ => false
  | .deliverToWm _ => false
  | _ => true

/-- A call that ends nothing. -/
def Call.quiet : Call → Bool
  | .deliver _ _ => false
  | .log (.abort _) => false
  | .purge => false
  | .scheduleAt _ => false
  | .schedule _ => false
  | _ => true

/-- The calls made before the directory is read, and those of the handlers. -/
def Call.opening : Call → Bool
  | .proxyExpired => true
  | .now => true
  | .jobStatus => true
  | .query _ => true
  | .storeCheckpoint _ => true
  | .log (.abort _) => true
  | .log (.pending _) => true
  | .unlinkCancelToken => true
  | .scheduleAt _ => true
  | _ => false

theorem Call.calm_of_opening {c : Call} (h : c.opening = true) :
    c.calm = true := by
  cases c with
  | log e => cases e <;> first | rfl | cases h
  | _ => first | rfl | cases h

theorem Call.calm_of_plain {c : Call} (h : c.plain = true) : c.calm = true := by
  cases c with
  | log e => cases e <;> first | rfl | cases h
  | _ => first | rfl | cases h

theorem Call.quiet_of_plain {c : Call} (h : c.plain = true) :
    c.quiet = true := by
  cases c with
  | log e => cases e <;> first | rfl | cases h
  | _ => first | rfl | cases h

section
variable {α β : Type}

/-- A program of plain calls. -/
def Plain (p : WmProc α) : Prop := CallsOnly (·.plain = true) p

/-- A program of calm calls. -/
def Calm (p : WmProc α) : Prop := CallsOnly (·.calm = true) p

/-- A program of the calls that a request opens with. -/
def Opening (p : WmProc α) : Prop := CallsOnly (·.opening = true) p

/-- A program of quiet calls. -/
def Quiet (p : WmProc α) : Prop := CallsOnly (·.quiet = true) p

theorem calm_of_plain {p : WmProc α} (h : Plain p) : Calm p :=
  callsOnly_mono (fun _ => Call.calm_of_plain) h

theorem calm_of_opening {p : WmProc α} (h : Opening p) : Calm p :=
  callsOnly_mono (fun _ => Call.calm_of_opening) h

theorem quiet_of_plain {p : WmProc α} (h : Plain p) : Quiet p :=
  callsOnly_mono (fun _ => Call.quiet_of_plain) h

theorem plain_ask_bind {c : Call} {f : Answer c → WmProc β}
    (hc : c.plain = true) (hf : ∀ a, Plain (f a)) : Plain (ask c >>= f) :=
  callsOnly_bind (callsOnly_perform hc) hf

theorem opening_ask_bind {c : Call} {f : Answer c → WmProc β}
    (hc : c.opening = true) (hf : ∀ a, Opening (f a)) : Opening (ask c >>= f) :=
  callsOnly_bind (callsOnly_perform hc) hf

theorem calm_ask_bind {c : Call} {f : Answer c → WmProc β}
    (hc : c.calm = true) (hf : ∀ a, Calm (f a)) : Calm (ask c >>= f) :=
  callsOnly_bind (callsOnly_perform hc) hf

theorem quiet_ask {c : Call} (h : c.quiet = true) : Quiet (ask c) :=
  callsOnly_perform h

theorem quiet_bind {p : WmProc α} {f : α → WmProc β} (hp : Quiet p)
    (hf : ∀ a, Quiet (f a)) : Quiet (p >>= f) := callsOnly_bind hp hf

theorem quiet_ask_bind {c : Call} {f : Answer c → WmProc β}
    (hc : c.quiet = true) (hf : ∀ a, Quiet (f a)) : Quiet (ask c >>= f) :=
  quiet_bind (quiet_ask hc) hf

theorem quiet_pure (a : α) : Quiet (pure a : WmProc α) := trivial

theorem quiet_throw (e : Exn) : Quiet (.throw e : WmProc α) := trivial

theorem quiet_ofExcept (r : Except Exn α) : Quiet (Proc.ofExcept r) :=
  callsOnly_ofExcept r

end

/-! ## Stages that are plain -/

theorem plain_doQueryEvents (q : Query) (b : Bool) :
    Plain (doQueryEvents q b) :=
  plain_ask_bind rfl fun _ => callsOnly_ofExcept _

theorem plain_jobStatus : Plain jobStatus := by
  refine plain_ask_bind rfl fun r => ?_
  cases r <;> trivial

theorem plain_getOriginalJdl : Plain getOriginalJdl := by
  refine plain_ask_bind rfl fun r => ?_
  cases r <;> trivial

theorem plain_getLastMatchedCeid : Plain getLastMatchedCeid := by
  refine callsOnly_bind (plain_doQueryEvents _ _) fun events => ?_
  split <;> trivial

theorem plain_resubmitStage (cfg : Config) : Plain (resubmitStage cfg) := by
  refine callsOnly_bind ?_ fun info => ?_
  · exact callsOnly_bind (plain_doQueryEvents _ _) fun events => trivial
  · refine callsOnly_bind plain_getOriginalJdl fun text => ?_
    cases text with
    | empty => trivial
    | unparsable what => trivial
    | ad jobAd => exact plain_ask_bind rfl fun _ => trivial

theorem plain_replansStage (cfg : Config) (ad : Jdl) (last : Option Text) :
    Plain (replansStage cfg ad last) := by
  unfold replansStage
  split
  · trivial
  · split
    · trivial
    · exact plain_ask_bind rfl fun _ => trivial

theorem plain_logCeinfoHost (cfg : Config) (name : String) :
    Plain (logCeinfoHost cfg name) := by
  unfold logCeinfoHost
  split
  · exact callsOnly_perform rfl
  · trivial

theorem plain_cancelledMeanwhile : Plain cancelledMeanwhile := by
  refine plain_ask_bind rfl fun known => ?_
  split
  · exact callsOnly_perform rfl
  · trivial

theorem plain_logPending (reason : String) : Plain (logPending reason) := by
  unfold logPending
  split
  · exact callsOnly_perform rfl
  · trivial

/-! ## Stages before the directory is read -/

theorem opening_unrecoverable (msg : String) : Opening (unrecoverable msg) :=
  opening_ask_bind rfl fun _ => callsOnly_perform rfl

theorem opening_postpone (cfg : Config) (reason : String) :
    Opening (postpone cfg reason) := by
  refine callsOnly_bind ?_ fun _ =>
    opening_ask_bind rfl fun _ => callsOnly_perform rfl
  unfold logPending
  split
  · exact callsOnly_perform rfl
  · trivial

theorem opening_entryChecks (cfg : Config) (state : SubmitState) :
    Opening (entryChecks cfg state) := by
  have habort : ∀ msg, Opening (unrecoverable msg >>= fun _ => pure false) :=
    fun msg => callsOnly_bind (opening_unrecoverable msg) fun _ => trivial
  refine opening_ask_bind rfl fun proxy => ?_
  cases proxy with
  | error e => cases e <;> exact habort _
  | ok expired =>
      cases expired with
      | true => exact habort _
      | false =>
          refine opening_ask_bind rfl fun now => ?_
          split
          · exact habort _
          · trivial

theorem opening_limboStage (cfg : Config) (checkpoint : Checkpoint) :
    Opening (limboStage cfg checkpoint) := by
  have hstatus : Opening jobStatus := by
    refine opening_ask_bind rfl fun r => ?_
    cases r <;> trivial
  have hevents : Opening getRecoveryEvents :=
    opening_ask_bind rfl fun _ => callsOnly_ofExcept _
  unfold limboStage
  split
  · refine callsOnly_tryCatch ?_ fun e => ?_
    · refine callsOnly_bind hstatus fun status =>
        callsOnly_bind hevents fun events => callsOnly_bind ?_ fun _ => trivial
      unfold leaveOrWait
      split
      · exact opening_postpone _ _
      · exact callsOnly_perform rfl
    · cases e <;> trivial
  · trivial

/-! ## Stages that are calm -/

theorem calm_unrecoverable (msg : String) : Calm (unrecoverable msg) :=
  calm_of_opening (opening_unrecoverable msg)

theorem calm_purgeCancelled : Calm purgeCancelled :=
  calm_ask_bind rfl fun _ => calm_ask_bind rfl fun _ => callsOnly_perform rfl

theorem calm_entryChecks (cfg : Config) (state : SubmitState) :
    Calm (entryChecks cfg state) :=
  calm_of_opening (opening_entryChecks cfg state)

theorem calm_limboStage (cfg : Config) (checkpoint : Checkpoint) :
    Calm (limboStage cfg checkpoint) :=
  calm_of_opening (opening_limboStage cfg checkpoint)

/-- The calls of a pass are those made at a token that is not the first. -/
theorem callsOnly_scanTokensWith {P : Call → Prop} (cfg : Config)
    {another : Text → WmProc Unit} (h : ∀ leaf, CallsOnly P (another leaf)) :
    ∀ (leaves : List Text) (found : Option Text),
      CallsOnly P (scanTokensWith cfg another found leaves) := by
  intro leaves
  induction leaves with
  | nil => exact fun found => trivial
  | cons leaf rest ih =>
      intro found
      unfold scanTokensWith
      split
      · cases found with
        | none => exact ih _
        | some t => exact callsOnly_bind (h leaf) fun _ => ih _
      · exact ih _

/-- A pass keeps the first token it finds. -/
theorem within_scanTokensWith {P : Call → Prop} (cfg : Config)
    {another : Text → WmProc Unit} (h : ∀ leaf, CallsOnly P (another leaf))
    (leaves : List Text) (found : Option Text) :
    Within P
      (fun res => res = found.or (leaves.filter (isTokenFile cfg)).head?)
      (scanTokensWith cfg another found leaves) := by
  induction leaves generalizing found with
  | nil => cases found <;> rfl
  | cons leaf rest ih =>
      unfold scanTokensWith
      cases hleaf : isTokenFile cfg leaf with
      | true =>
          cases found with
          | none =>
              rw [List.filter_cons_of_pos hleaf]
              exact ih (some leaf)
          | some t =>
              exact within_bind (within_of_callsOnly (h leaf))
                fun _ _ => ih (some t)
      | false =>
          rw [List.filter_cons_of_neg (by simp [hleaf])]
          exact ih found

theorem calm_scanTokens (cfg : Config) (leaves : List Text)
    (found : Option Text) : Calm (scanTokens cfg found leaves) :=
  callsOnly_scanTokensWith cfg (fun _ => calm_unrecoverable _) leaves found

/-! ## Stages that are quiet -/

theorem quiet_createToken (leaf : Text) : Quiet (createToken leaf) := by
  refine quiet_ask_bind rfl fun created => ?_
  cases created
  · exact quiet_throw _
  · exact quiet_pure _

theorem quiet_resubmitTokenStage (cfg : Config) (ad : Jdl)
    (tokenFile : Text) (info : Option LbInfo) :
    Quiet (resubmitTokenStage cfg ad tokenFile info) := by
  unfold resubmitTokenStage
  split
  · exact quiet_pure _
  split
  · refine quiet_ask_bind rfl fun res => ?_
    split
    · exact quiet_throw _
    · refine quiet_ask_bind rfl fun found => ?_
      split
      · exact quiet_bind (quiet_ofExcept _) fun _ => quiet_ask rfl
      · exact quiet_bind (quiet_ofExcept _) fun _ =>
          quiet_ask_bind rfl fun _ => quiet_createToken _
  · exact quiet_bind (quiet_ofExcept _) fun _ => quiet_ask rfl

theorem quiet_firstTokenStage (ad : Jdl) (tokenFile : Text) :
    Quiet (firstTokenStage ad tokenFile) := by
  unfold firstTokenStage
  split
  · refine quiet_ask_bind rfl fun found => ?_
    split
    · exact quiet_createToken _
    · exact quiet_pure _
  · exact quiet_pure _

theorem quiet_renameTokenStage (ad : Jdl) (tokenFile : Text)
    (isReplan : Bool) : Quiet (renameTokenStage ad tokenFile isReplan) := by
  unfold renameTokenStage
  split
  · refine quiet_ask_bind rfl fun res => ?_
    split
    · exact quiet_throw _
    · exact quiet_pure _
  · exact quiet_pure _

/-- Every exception ends in an abort or in a postponement. -/
theorem handle_cases (cfg : Config) (e : Exn) :
    ∃ msg, handle cfg e = unrecoverable msg ∨ handle cfg e = postpone cfg msg := by
  cases e with
  | lbQueryTemporarilyFailed => exact ⟨"LB query temporarily failed", .inr rfl⟩
  | cannotRetrieveJDL => exact ⟨"cannot retrieve jdl", .inr rfl⟩
  | helperError what => exact ⟨_, .inr rfl⟩
  | cannotCreateToken =>
      exact ⟨"cannot create token for shallow resubmission", .inr rfl⟩
  | _ => exact ⟨_, .inl rfl⟩

theorem opening_handle (cfg : Config) (e : Exn) : Opening (handle cfg e) := by
  obtain ⟨msg, h | h⟩ := handle_cases cfg e
  · rw [h]
    exact opening_unrecoverable msg
  · rw [h]
    exact opening_postpone cfg msg

theorem calm_handle (cfg : Config) (e : Exn) : Calm (handle cfg e) :=
  calm_of_opening (opening_handle cfg e)

/-- The cast, on the texts that come up here: digits, and perhaps a dot. -/
def decimalCast (text : Text) : Option ℤ :=
  let digits := text.takeWhile Char.isDigit
  let rest := text.dropWhile Char.isDigit
  if !digits.isEmpty && (rest = [] || rest = ['.']) then
    some (Nat.ofDigitChars 10 digits 0)
  else none

/-- A configuration to evaluate examples in. -/
def sampleConfig : Config where
  tokenFile := ['t']
  basePath := ['/', 's']
  maxRetryCount := 3
  maxShallowRetryCount := 3
  maxReplansCount := 5
  expiryPeriod := 86400
  matchRetryPeriod := 600
  iceInput := "ice"
  jcInput := "jc"
  wmInput := "wm"
  ceInfoHost := "CEInfoHostName"
  lexicalCastFloat := decimalCast

end Wms.Core
