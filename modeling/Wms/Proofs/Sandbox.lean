import Wms.Proofs.Budget
import Wms.Proofs.Tokens

/-!
# One token, one copy

Between two requests the directory of a job holds no token, or one with its
final name, or one with its temporary name: never two. `Holding` is this
abstract state, and each stage of the processor is a transition of it: a
resubmission takes the token in hand or makes a new one, a submission creates
token 0 or finds the replanner's, and the last renaming puts the token where
the job will look for it.

Two properties are carried along. The room left for a token and the copies
that have started since the last deep resubmission add up to one at most, so
that no second copy finds a token. And a copy that is delivered names the one
token there is. Either can be switched off, because each holds under a
condition of its own on the requests.
-/

namespace Wms.Core.Sandbox

open Wms.Lib Wms.Lib.Proc Wms.Core

/-- The token files of a directory, between two requests. -/
inductive Holding where
  | none
  | ready (n : ℕ)
  | held (n : ℕ)

/-- The token files that are there. -/
def Holding.files (cfg : Config) : Holding → List Text
  | .none => []
  | .ready n => [tok cfg n]
  | .held n => [tmp cfg n]

/-- The number of the token that is there. -/
def Holding.number : Holding → ℕ
  | .none => 0
  | .ready n => n
  | .held n => n

/-- What is kept: `budget` where `A` holds, `found` where `B` does. -/
structure Tidy (cfg : Config) (jdl : Jdl) (A B : Prop) (room : ℕ) (h : Holding)
    (s : Site) : Prop where
  files : tokens cfg s.dir = h.files cfg
  small : h.number ≤ maxExact
  fits : (h.files cfg).length ≤ room
  budget : A → room + s.starts ≤ 1
  found : B → ∀ copy ∈ s.copies, Finds cfg copy
  fair : Budget.Fair jdl s.lb

/-- What is left behind, whatever the token. -/
def Settled (cfg : Config) (jdl : Jdl) (A B : Prop) (s : Site) : Prop :=
  ∃ room h, Tidy cfg jdl A B room h s

/-- A renaming of token 0 onto itself that does not fail. -/
def replaces (cfg : Config) : (c : Call) → Answer c → Prop
  | .rename old new, r => old = tmp cfg 0 → new = tok cfg 0 → r.failed = false
  | _, _ => True

/-- The site, with no such failure where `P` holds. -/
def site (cfg : Config) (localHostname : Text) (loaded : Option SubmitState)
    (P : Prop) : Contract Site Call Answer where
  world := siteWorld cfg localHostname loaded
  assume := fun _ c r => P → replaces cfg c r
  guard := fun _ _ _ => True

variable {cfg : Config} {jdl : Jdl} {localHostname : Text}
  {loaded : Option SubmitState} {P A B : Prop} {room : ℕ} {h : Holding}
  {s : Site} {α β : Type}

theorem Tidy.settled (hs : Tidy cfg jdl A B room h s) : Settled cfg jdl A B s :=
  ⟨room, h, hs⟩

theorem Holding.files_length_le (h : Holding) : (h.files cfg).length ≤ 1 := by
  cases h with
  | none => exact Nat.zero_le 1
  | ready n => exact Nat.le_refl 1
  | held n => exact Nat.le_refl 1

/-! ## Calls that leave the token alone -/

/-- No event makes less room. -/
theorem tidy_log (hs : Tidy cfg jdl A B room h s) (e : EventKind) :
    Tidy cfg jdl A B room h (effect cfg s (.log e) ()) where
  files := hs.files
  small := hs.small
  fits := hs.fits
  budget := by
    intro ha
    have hb := hs.budget ha
    show room + (if Budget.isWmDeep (logged e) then 0 else s.starts) ≤ 1
    split <;> omega
  found := hs.found
  fair := Budget.fair_logged hs.fair e

/-- A deep resubmission makes room for a new token. -/
theorem tidy_logDeep (hs : Tidy cfg jdl A B room h s) (reason : String)
    (tag : Text) :
    Tidy cfg jdl A B 1 h
      (effect cfg s (.log (.resubmission .willResub reason tag)) ()) where
  files := hs.files
  small := hs.small
  fits := h.files_length_le
  budget := fun _ => Nat.le_refl 1
  found := hs.found
  fair := Budget.fair_logged hs.fair _

/-- A call that changes no token. -/
def still : Call → Bool
  | .createToken _ => false
  | .rename _ _ => false
  | .unlink _ => false
  | .deliver _ _ => false
  | _ => true

theorem still_of_calm {c : Call} (hc : c.calm = true) : still c = true := by
  cases c <;> first | rfl | cases hc

theorem tidy_still (hs : Tidy cfg jdl A B room h s) {c : Call}
    (hc : still c = true) (r : Answer c) :
    Tidy cfg jdl A B room h (effect cfg s c r) := by
  cases c with
  | log e => exact tidy_log hs e
  | createToken leaf => cases hc
  | rename old new => cases hc
  | unlink leaf => cases hc
  | deliver dest request => cases hc
  | deliverToWm ad =>
      cases r with
      | ok u =>
          exact ⟨hs.files, hs.small, hs.fits, hs.budget, hs.found, hs.fair⟩
      | error what => exact hs
  | _ => exact hs

/-- A program that changes no token. -/
def Still (p : WmProc α) : Prop := CallsOnly (still · = true) p

theorem still_program_of_calm {p : WmProc α} (hp : Calm p) : Still p :=
  callsOnly_mono (fun _ => still_of_calm) hp

theorem still_program_of_plain {p : WmProc α} (hp : Plain p) : Still p :=
  still_program_of_calm (calm_of_plain hp)

theorem wp_still {p : WmProc α} (hp : Still p)
    (hs : Tidy cfg jdl A B room h s) :
    wp (site cfg localHostname loaded P)
      (fun s _ => Tidy cfg jdl A B room h s)
      (fun s _ => Tidy cfg jdl A B room h s) s p :=
  wp_of_callsOnly
    (fun _ _ _ hc hs _ => ⟨trivial, tidy_still hs hc _⟩) hp hs

theorem settled_still {p : WmProc α} (hp : Still p)
    (hs : Tidy cfg jdl A B room h s) :
    wp (site cfg localHostname loaded P) (fun s _ => Settled cfg jdl A B s)
      (fun s _ => Settled cfg jdl A B s) s p :=
  wp_mono (fun _ _ hs => hs.settled) (fun _ _ hs => hs.settled)
    (wp_still hp hs)

/-- A program that leaves the token alone, and what follows. -/
theorem settled_still_bind {p : WmProc α} {f : α → WmProc β} (hp : Still p)
    (hs : Tidy cfg jdl A B room h s)
    (hf : ∀ s a, Tidy cfg jdl A B room h s →
      wp (site cfg localHostname loaded P) (fun s _ => Settled cfg jdl A B s)
        (fun s _ => Settled cfg jdl A B s) s (f a)) :
    wp (site cfg localHostname loaded P) (fun s _ => Settled cfg jdl A B s)
      (fun s _ => Settled cfg jdl A B s) s (p >>= f) :=
  (wp_bind _ _ _).mpr
    (wp_mono hf (fun _ _ hs => hs.settled) (wp_still hp hs))

theorem settled_ask_bind {c : Call} {f : Answer c → WmProc β}
    (hc : still c = true) (hs : Tidy cfg jdl A B room h s)
    (hf : ∀ s a, Tidy cfg jdl A B room h s →
      wp (site cfg localHostname loaded P) (fun s _ => Settled cfg jdl A B s)
        (fun s _ => Settled cfg jdl A B s) s (f a)) :
    wp (site cfg localHostname loaded P) (fun s _ => Settled cfg jdl A B s)
      (fun s _ => Settled cfg jdl A B s) s (ask c >>= f) :=
  settled_still_bind (callsOnly_perform hc) hs hf

/-! ## Calls on the token -/

section
variable {Q : Site → β → Prop} {E : Site → Exn → Prop} {old new leaf : Text}

theorem wp_rename_missing {f : Renamed → WmProc β} (hold : old ∉ s.dir)
    (hf : wp (site cfg localHostname loaded P) Q E s (f ⟨true, .enoent⟩)) :
    wp (site cfg localHostname loaded P) Q E s (ask (.rename old new) >>= f) := by
  intro r _
  have hr : renamed s.dir old r = ⟨true, .enoent⟩ := if_pos hold
  refine ⟨trivial, ?_⟩
  show wp _ Q E (effect cfg s (.rename old new) (renamed s.dir old r))
    (f (renamed s.dir old r))
  rw [hr]
  exact hf

theorem wp_rename_present {f : Renamed → WmProc β} (hold : old ∈ s.dir)
    (hfailed : ∀ e, e ≠ .enoent →
      wp (site cfg localHostname loaded P) Q E s (f ⟨true, e⟩))
    (hdone : ∀ e, wp (site cfg localHostname loaded P) Q E
      { s with dir := place new (s.dir.erase old) } (f ⟨false, e⟩)) :
    wp (site cfg localHostname loaded P) Q E s (ask (.rename old new) >>= f) := by
  intro r _
  refine ⟨trivial, ?_⟩
  show wp _ Q E (effect cfg s (.rename old new) (renamed s.dir old r))
    (f (renamed s.dir old r))
  obtain ⟨failed, errno⟩ := r
  unfold renamed
  rw [if_neg (not_not.mpr hold)]
  split
  next hfail =>
    rw [Bool.and_eq_true, decide_eq_true_eq] at hfail
    obtain ⟨rfl, herrno⟩ := hfail
    exact hfailed errno herrno
  next => exact hdone errno

/-- Token 0 takes its own place. -/
theorem wp_rename_replace {f : Renamed → WmProc β} (hP : P)
    (hold : tmp cfg 0 ∈ s.dir)
    (hdone : ∀ e, wp (site cfg localHostname loaded P) Q E
      { s with dir := place (tok cfg 0) (s.dir.erase (tmp cfg 0)) }
      (f ⟨false, e⟩)) :
    wp (site cfg localHostname loaded P) Q E s
      (ask (.rename (tmp cfg 0) (tok cfg 0)) >>= f) := by
  intro r hr
  refine ⟨trivial, ?_⟩
  show wp _ Q E (effect cfg s (.rename _ _) (renamed s.dir (tmp cfg 0) r))
    (f (renamed s.dir (tmp cfg 0) r))
  have hfailed : r.failed = false := hr hP rfl rfl
  unfold renamed
  rw [if_neg (not_not.mpr hold), hfailed, Bool.false_and]
  exact hdone r.errno

theorem wp_exists {f : Bool → WmProc β} (hleaf : leaf ∈ s.dir)
    (hf : wp (site cfg localHostname loaded P) Q E s (f true)) :
    wp (site cfg localHostname loaded P) Q E s (ask (.existsFile leaf) >>= f) := by
  refine fun _ _ => ⟨trivial, ?_⟩
  show wp _ Q E s (f (decide (leaf ∈ s.dir)))
  rw [decide_eq_true hleaf]
  exact hf

theorem wp_exists_not {f : Bool → WmProc β} (hleaf : leaf ∉ s.dir)
    (hf : wp (site cfg localHostname loaded P) Q E s (f false)) :
    wp (site cfg localHostname loaded P) Q E s (ask (.existsFile leaf) >>= f) := by
  refine fun _ _ => ⟨trivial, ?_⟩
  show wp _ Q E s (f (decide (leaf ∈ s.dir)))
  rw [decide_eq_false hleaf]
  exact hf

theorem wp_createToken {Q : Site → Unit → Prop} (hfailed : E s .cannotCreateToken)
    (hdone : Q { s with dir := place leaf s.dir } ()) :
    wp (site cfg localHostname loaded P) Q E s (createToken leaf) := by
  intro r _
  refine ⟨trivial, ?_⟩
  cases r with
  | false => exact hfailed
  | true => exact hdone

end

/-! ## What becomes of the token -/

theorem Tidy.mem_dir (hs : Tidy cfg jdl A B room h s) {leaf : Text}
    (hleaf : isTokenFile cfg leaf = true) :
    leaf ∈ s.dir ↔ leaf ∈ h.files cfg := by
  rw [← hs.files]
  exact ⟨mem_tokens hleaf, mem_dir_of_tokens⟩

theorem Tidy.tok_mem (hs : Tidy cfg jdl A B room h s) (n : ℕ) :
    tok cfg n ∈ s.dir ↔ h = .ready n := by
  rw [hs.mem_dir (isTokenFile_tok cfg n)]
  cases h with
  | none => simp [Holding.files]
  | ready m =>
      constructor
      · intro hmem
        rw [tok_injective cfg (List.mem_singleton.mp hmem)]
      · rintro ⟨⟩
        exact List.mem_singleton_self _
  | held m =>
      constructor
      · intro hmem
        exact absurd (List.mem_singleton.mp hmem) (tok_ne_tmp cfg n m)
      · intro hh
        cases hh

theorem Tidy.tmp_mem (hs : Tidy cfg jdl A B room h s) (n : ℕ) :
    tmp cfg n ∈ s.dir ↔ h = .held n := by
  rw [hs.mem_dir (isTokenFile_tmp cfg n)]
  cases h with
  | none => simp [Holding.files]
  | ready m =>
      constructor
      · intro hmem
        exact absurd (List.mem_singleton.mp hmem).symm (tok_ne_tmp cfg m n)
      · intro hh
        cases hh
  | held m =>
      constructor
      · intro hmem
        rw [tmp_injective cfg (List.mem_singleton.mp hmem)]
      · rintro ⟨⟩
        exact List.mem_singleton_self _

/-- A renaming of the one token. -/
theorem tidy_renamed (hs : Tidy cfg jdl A B room h s) (h' : Holding)
    {old new : Text} (hold : h.files cfg = [old]) (hnew : h'.files cfg = [new])
    (hleaf : isTokenFile cfg new = true) (hsmall : h'.number ≤ maxExact) :
    Tidy cfg jdl A B room h'
      { s with dir := place new (s.dir.erase old) } where
  files := by
    rw [hnew]
    exact tokens_rename hleaf (hs.files.trans hold)
  small := hsmall
  fits := by
    have hfits := hs.fits
    rw [hold] at hfits
    rw [hnew]
    exact hfits
  budget := hs.budget
  found := hs.found
  fair := hs.fair

/-- A new token, where there is room and none yet. -/
theorem tidy_created (hs : Tidy cfg jdl A B 1 .none s) {n : ℕ}
    (hsmall : n ≤ maxExact) :
    Tidy cfg jdl A B 1 (.held n)
      { s with dir := place (tmp cfg n) s.dir } where
  files := by
    have hnone : tmp cfg n ∉ tokens cfg s.dir := by
      rw [hs.files]
      exact List.not_mem_nil
    show tokens cfg (place (tmp cfg n) s.dir) = [tmp cfg n]
    rw [tokens_place_of_not_mem (isTokenFile_tmp cfg n) hnone, hs.files]
    rfl
  small := hsmall
  fits := Nat.le_refl 1
  budget := hs.budget
  found := hs.found
  fair := hs.fair

/-- Token 0, created once more and put in its own place. -/
theorem tidy_replaced (hs : Tidy cfg jdl A B 1 (.ready 0) s) :
    Tidy cfg jdl A B 1 (.ready 0)
      { s with dir :=
          place (tok cfg 0) ((place (tmp cfg 0) s.dir).erase (tmp cfg 0)) } where
  files := by
    have hfiles : tokens cfg s.dir = [tok cfg 0] := hs.files
    have hnone : tmp cfg 0 ∉ tokens cfg s.dir := by
      rw [hfiles]
      intro hmem
      exact tok_ne_tmp cfg 0 0 (List.mem_singleton.mp hmem).symm
    refine tokens_replace ?_
    rw [tokens_place_of_not_mem (isTokenFile_tmp cfg 0) hnone, hfiles]
  small := hs.small
  fits := hs.fits
  budget := hs.budget
  found := hs.found
  fair := hs.fair

theorem underscore_not_in_maradona : '_' ∉ maradona := by decide

theorem tidy_unlink (hs : Tidy cfg jdl A B room h s) {leaf : Text}
    (hno : leaf ∉ h.files cfg) :
    Tidy cfg jdl A B room h { s with dir := s.dir.erase leaf } where
  files := by
    show tokens cfg (s.dir.erase leaf) = h.files cfg
    rw [tokens_erase, hs.files, List.erase_of_not_mem hno]
  small := hs.small
  fits := hs.fits
  budget := hs.budget
  found := hs.found
  fair := hs.fair

/-- The old output is no token. -/
theorem maradona_not_in_files (h : Holding) : maradona ∉ h.files cfg := by
  cases h with
  | none => exact List.not_mem_nil
  | ready n =>
      intro hmem
      refine underscore_not_in_maradona ?_
      rw [List.mem_singleton.mp hmem, tok_eq]
      simp
  | held n =>
      intro hmem
      refine underscore_not_in_maradona ?_
      rw [List.mem_singleton.mp hmem, tmp_eq]
      simp

/-- Where there is a token there is room for one. -/
theorem tidy_one (hs : Tidy cfg jdl A B room h s)
    (hfiles : (h.files cfg).length = 1) : Tidy cfg jdl A B 1 h s where
  files := hs.files
  small := hs.small
  fits := h.files_length_le
  budget := by
    intro ha
    have hb := hs.budget ha
    have hfits := hs.fits
    rw [hfiles] at hfits
    omega
  found := hs.found
  fair := hs.fair

/-! ## A resubmission takes the token in hand -/

theorem held_resubmitTokenStage {ad : Jdl} (info : LbInfo)
    (hen : shallowResubmissionIsEnabled ad = true)
    (hs : Tidy cfg jdl A B room h s) :
    wp (site cfg localHostname loaded P)
      (fun s _ => Tidy cfg jdl A B 1 (.held h.number) s)
      (fun s _ => Settled cfg jdl A B s) s
      (resubmitTokenStage cfg ad (tok cfg h.number) (some info)) := by
  -- the check and the event of a token that is still in hand
  have hshallow : ∀ s, Tidy cfg jdl A B room (.held h.number) s →
      wp (site cfg localHostname loaded P)
        (fun s _ => Tidy cfg jdl A B 1 (.held h.number) s)
        (fun s _ => Settled cfg jdl A B s) s
        (do
          Proc.ofExcept (checkShallowCount cfg ad info.shallowCount)
          ask (.log (.resubmission .shallow "token still exists"
            (fullPath cfg (tok cfg h.number))))) := by
    intro s hs
    cases checkShallowCount cfg ad info.shallowCount with
    | error e => exact hs.settled
    | ok u => exact fun _ _ => ⟨trivial, tidy_one (tidy_log hs _) rfl⟩
  unfold resubmitTokenStage
  dsimp only
  rw [if_pos hen]
  cases h with
  | none =>
      have htok : tok cfg 0 ∉ s.dir := fun hmem => by
        cases (hs.tok_mem 0).mp hmem
      have htmp : tmp cfg 0 ∉ s.dir := fun hmem => by
        cases (hs.tmp_mem 0).mp hmem
      refine wp_rename_missing htok (wp_exists_not htmp ?_)
      cases checkDeepCount cfg ad info.deepCount with
      | error e => exact hs.settled
      | ok u =>
          refine fun _ _ => ⟨trivial, ?_⟩
          have hdeep := tidy_logDeep hs "token was grabbed"
            (fullPath cfg (tok cfg 0))
          exact wp_createToken hdeep.settled
            (tidy_created hdeep (Nat.zero_le _))
  | ready n =>
      refine wp_rename_present ((hs.tok_mem n).mpr rfl) ?_ fun e => ?_
      · intro e he
        dsimp only
        rw [if_pos (by simpa using he)]
        exact hs.settled
      · have hheld := tidy_renamed hs (.held n) rfl rfl
          (isTokenFile_tmp cfg n) hs.small
        exact wp_exists ((hheld.tmp_mem n).mpr rfl) (hshallow _ hheld)
  | held n =>
      have htok : tok cfg n ∉ s.dir := fun hmem => by
        cases (hs.tok_mem n).mp hmem
      exact wp_rename_missing htok
        (wp_exists ((hs.tmp_mem n).mpr rfl) (hshallow s hs))

/-! ## A delivery -/

theorem planned_ok {ad : Jdl} {r : Except Exn Planned} {p : Planned}
    (hp : planned cfg localHostname ad r = .ok p) :
    resolveToken cfg localHostname ad = .ok p.reallyRunningToken := by
  unfold planned at hp
  cases r with
  | error e => cases hp
  | ok q =>
      dsimp only at hp
      split at hp
      next token htoken =>
        cases hp
        exact htoken
      next => cases hp

/-- A description whose token the directory holds. -/
def Names (cfg : Config) (localHostname : Text) (ad : Jdl) (h : Holding) :
    Prop :=
  ∃ n, h = .ready n ∧ ad.replansCount.getD 0 = (n : ℤ) ∧
    shallowResubmissionIsEnabled ad = true ∧ sandboxOf cfg localHostname ad

theorem tidy_deliver (hs : Tidy cfg jdl A B room h s) (dest : Output)
    (request : Request)
    (hfinds : B →
      Finds cfg ⟨request.jobAd.reallyRunningToken, h.files cfg, false⟩)
    (r : Except String Unit) :
    Tidy cfg jdl A B room h (effect cfg s (.deliver dest request) r) := by
  cases r with
  | error what => exact hs
  | ok u =>
      refine ⟨hs.files, hs.small, hs.fits, hs.budget, fun hb => ?_, hs.fair⟩
      intro copy hcopy
      rcases List.mem_append.mp hcopy with hcopy | hcopy
      · exact hs.found hb copy hcopy
      · rw [List.mem_singleton.mp hcopy, hs.files]
        exact hfinds hb

theorem settled_submitPlanned {p : Planned} (isReplan : Bool)
    (hs : Tidy cfg jdl A B room h s)
    (hfinds : B → Finds cfg ⟨p.reallyRunningToken, h.files cfg, false⟩) :
    wp (site cfg localHostname loaded P) (fun s _ => Settled cfg jdl A B s)
      (fun s _ => Settled cfg jdl A B s) s (submitPlanned cfg p isReplan) := by
  refine settled_ask_bind rfl hs fun s _ hs => ?_
  refine settled_still_bind (still_program_of_plain (plain_logCeinfoHost _ _))
    hs fun s _ hs => ?_
  refine settled_ask_bind rfl hs fun s _ hs =>
    settled_ask_bind rfl hs fun s sequenceCode hs => ?_
  refine settled_still_bind (still_program_of_plain plain_cancelledMeanwhile)
    hs fun s cancelled hs => ?_
  split
  · exact settled_still (still_program_of_calm calm_purgeCancelled) hs
  · intro r _
    have hdelivered := tidy_deliver hs
      (if isCreamCe p.ceId then .ice else .jc)
      (submitCommandCreate { p with lbSequenceCode := sequenceCode } isReplan)
      hfinds r
    refine ⟨trivial, ?_⟩
    cases r with
    | ok u => exact settled_still (callsOnly_perform rfl) hdelivered
    | error what =>
        exact fun _ _ => ⟨trivial, (tidy_log hdelivered _).settled⟩

theorem settled_submit {ad : Jdl} (isReplan : Bool)
    (hs : Tidy cfg jdl A B room h s)
    (hnames : B → Names cfg localHostname ad h) :
    wp (site cfg localHostname loaded P) (fun s _ => Settled cfg jdl A B s)
      (fun s _ => Settled cfg jdl A B s) s (submit cfg ad isReplan) := by
  refine settled_ask_bind rfl hs fun s sequenceCode hs => ?_
  intro r _
  refine ⟨trivial, ?_⟩
  show wp _ _ _ s (Proc.bind (Proc.ofExcept (planned cfg localHostname
    { ad with lbSequenceCode := sequenceCode } r)) _)
  cases hp : planned cfg localHostname
      { ad with lbSequenceCode := sequenceCode } r with
  | error e => exact hs.settled
  | ok p =>
      refine settled_submitPlanned isReplan hs fun hb => ?_
      obtain ⟨n, rfl, hn, hen, hisb⟩ := hnames hb
      refine ⟨tok cfg n, rfl, ?_⟩
      have hpath := resolveToken_path cfg hisb hen (planned_ok hp)
      rw [hpath]
      show fullPath cfg (getReallyrunningToken cfg (ad.replansCount.getD 0)) =
        fullPath cfg (tok cfg n)
      rw [hn]
      rfl

/-- From the renaming on. -/
theorem settled_afterRename {ad : Jdl} (isReplan : Bool)
    (hs : Tidy cfg jdl A B room h s)
    (hnames : B → Names cfg localHostname ad h) :
    wp (site cfg localHostname loaded P) (fun s _ => Settled cfg jdl A B s)
      (fun s _ => Settled cfg jdl A B s) s
      (ask (.unlink maradona) >>= fun _ => submit cfg ad isReplan) :=
  fun _ _ => ⟨trivial, settled_submit isReplan
    (tidy_unlink hs (maradona_not_in_files h)) hnames⟩

/-- A token in hand gets its final name, and the job is delivered with it. -/
theorem settled_deliverHeld {ad : Jdl} {n : ℕ}
    (hen : shallowResubmissionIsEnabled ad = true)
    (hs : Tidy cfg jdl A B room (.held n) s)
    (hnames : B → Names cfg localHostname ad (.ready n)) :
    wp (site cfg localHostname loaded P) (fun s _ => Settled cfg jdl A B s)
      (fun s _ => Settled cfg jdl A B s) s
      (deliverStage cfg ad (tok cfg n) false) := by
  unfold deliverStage renameTokenStage
  rw [hen]
  refine wp_rename_present ((hs.tmp_mem n).mpr rfl) ?_ fun e => ?_
  · exact fun _ _ => hs.settled
  · exact settled_afterRename false
      (tidy_renamed hs (.ready n) rfl rfl (isTokenFile_tok cfg n) hs.small)
      hnames

/-- A first submission: token 0 is created unless it is in hand. -/
theorem settled_first {ad : Jdl} (hen : shallowResubmissionIsEnabled ad = true)
    (hs : Tidy cfg jdl A B 1 h s) (hzero : h.number = 0)
    (hP : h = .ready 0 → P)
    (hnames : B → Names cfg localHostname ad (.ready 0)) :
    wp (site cfg localHostname loaded P) (fun s _ => Settled cfg jdl A B s)
      (fun s _ => Settled cfg jdl A B s) s
      (firstTokenStage ad (tok cfg 0) >>= fun _ =>
        deliverStage cfg ad (tok cfg 0) false) := by
  refine (wp_bind _ _ _).mpr ?_
  unfold firstTokenStage
  rw [if_pos hen]
  cases h with
  | none =>
      have htmp : tmp cfg 0 ∉ s.dir := fun hmem => by
        cases (hs.tmp_mem 0).mp hmem
      exact wp_exists_not htmp (wp_createToken hs.settled
        (settled_deliverHeld hen (tidy_created hs (Nat.zero_le _)) hnames))
  | held n =>
      have hn : n = 0 := hzero
      subst hn
      exact wp_exists ((hs.tmp_mem 0).mpr rfl)
        (settled_deliverHeld hen hs hnames)
  | ready n =>
      have hn : n = 0 := hzero
      subst hn
      have htmp : tmp cfg 0 ∉ s.dir := fun hmem => by
        cases (hs.tmp_mem 0).mp hmem
      refine wp_exists_not htmp (wp_createToken hs.settled ?_)
      have hmem : tmp cfg 0 ∈ place (tmp cfg 0) s.dir := by
        unfold place
        rw [if_neg htmp]
        exact List.mem_cons_self
      unfold deliverStage renameTokenStage
      rw [hen]
      exact wp_rename_replace (hP rfl) hmem fun e =>
        settled_afterRename false (tidy_replaced hs) hnames

/-! ## A request -/

/-- What a submission is known to carry once the directory has been read: the
number of the token there, or its own. -/
structure Carries (ad : Jdl) (h : Holding) : Prop where
  enabled : shallowResubmissionIsEnabled ad = true
  number : h ≠ .none → ad.replansCount = some (h.number : ℤ)

/-- What it needs for the delivered copy to find its token. -/
structure Deliverable (cfg : Config) (localHostname : Text) (ad : Jdl)
    (h : Holding) : Prop where
  first : h = .none → ad.replansCount.getD 0 = 0
  sandbox : sandboxOf cfg localHostname ad

theorem names_of_deliverable {ad : Jdl}
    (hc : Carries ad h)
    (hd : Deliverable cfg localHostname ad h) :
    Names cfg localHostname ad (.ready h.number) := by
  refine ⟨h.number, rfl, ?_, hc.enabled, hd.sandbox⟩
  cases h with
  | none => exact hd.first rfl
  | ready n =>
      rw [hc.number (by simp)]
      rfl
  | held n =>
      rw [hc.number (by simp)]
      rfl

theorem submitCase_zero {ad : Jdl}
    (hc : Carries ad h) (hzero : h.number = 0) :
    submitCase ad (0 : ℕ) = .first := by
  unfold submitCase
  cases h with
  | none =>
      by_cases hpos : ad.replansCount.getD 0 > 0
      · have hne : ¬ (0 : ℤ) = ad.replansCount.getD 0 := by omega
        have hgt : ¬ (0 : ℤ) > ad.replansCount.getD 0 := by omega
        simp [hne, hgt]
      · simp [hpos]
  | ready n =>
      have hn : n = 0 := hzero
      rw [hc.number (by simp)]
      subst hn
      rfl
  | held n =>
      have hn : n = 0 := hzero
      rw [hc.number (by simp)]
      subst hn
      rfl

theorem submitCase_pos {ad : Jdl}
    (hc : Carries ad h) (hpos : 0 < h.number) :
    submitCase ad h.number = .reschedule := by
  have hne : h ≠ .none := by
    rintro rfl
    exact absurd hpos (Nat.lt_irrefl 0)
  unfold submitCase
  rw [hc.number hne]
  simp [hpos]

/-- A submission. A token in hand with another number than 0 is taken for the
replanner's and left as it is. -/
theorem settled_tokenStages_submit {ad : Jdl}
    (hc : Carries ad h) (hs : Tidy cfg jdl A B 1 h s)
    (hP : h = .ready 0 → P)
    (hd : B → Deliverable cfg localHostname ad h ∧ ∀ n, h = .held n → n = 0) :
    wp (site cfg localHostname loaded P) (fun s _ => Settled cfg jdl A B s)
      (fun s _ => Settled cfg jdl A B s) s
      (tokenStages cfg .jobsubmit ad none h.number) := by
  by_cases hzero : h.number = 0
  · have hready : B → Names cfg localHostname ad (.ready 0) := by
      intro hb
      have hn := names_of_deliverable hc (hd hb).1
      rwa [hzero] at hn
    have hfirst : tokenStages cfg .jobsubmit ad none h.number =
        firstTokenStage ad (tok cfg 0) >>= fun _ =>
          deliverStage cfg ad (tok cfg 0) false := by
      rw [hzero, tokenStages, submitCase_zero hc hzero]
      rfl
    rw [hfirst]
    exact settled_first hc.enabled hs hzero hP hready
  · have hagain : tokenStages cfg .jobsubmit ad none h.number =
        deliverStage cfg ad (tok cfg h.number) true := by
      rw [tokenStages, submitCase_pos hc (Nat.pos_of_ne_zero hzero)]
      rfl
    rw [hagain]
    refine settled_afterRename true hs fun hb => ?_
    have hn := names_of_deliverable hc (hd hb).1
    cases h with
    | none => exact absurd rfl hzero
    | ready n => exact hn
    | held n => exact absurd ((hd hb).2 n rfl) hzero

/-- A resubmission. -/
theorem settled_tokenStages_resubmit {ad : Jdl} (info : LbInfo)
    (hc : Carries ad h) (hs : Tidy cfg jdl A B room h s)
    (hd : B → Deliverable cfg localHostname ad h) :
    wp (site cfg localHostname loaded P) (fun s _ => Settled cfg jdl A B s)
      (fun s _ => Settled cfg jdl A B s) s
      (tokenStages cfg .jobresubmit ad (some info) h.number) := by
  refine (wp_bind _ _ _).mpr (wp_mono ?_ (fun _ _ hs => hs)
    (held_resubmitTokenStage info hc.enabled hs))
  intro s _ hs
  exact settled_deliverHeld hc.enabled hs
    fun hb => names_of_deliverable hc (hd hb)

/-! The pass over the directory and the number of the token. -/

theorem scanTokensWith_none {another : Text → WmProc Unit} {leaves : List Text}
    (hno : tokens cfg leaves = []) (found : Option Text) :
    scanTokensWith cfg another found leaves = pure found := by
  induction leaves with
  | nil => rfl
  | cons leaf rest ih =>
      unfold tokens at hno ih
      unfold scanTokensWith
      cases hleaf : isTokenFile cfg leaf with
      | true =>
          rw [List.filter_cons_of_pos hleaf] at hno
          cases hno
      | false =>
          rw [List.filter_cons_of_neg (by simp [hleaf])] at hno
          exact ih hno

theorem scanTokensWith_one {another : Text → WmProc Unit} {leaves : List Text}
    {leaf : Text} (hone : tokens cfg leaves = [leaf]) :
    scanTokensWith cfg another none leaves = pure (some leaf) := by
  induction leaves with
  | nil => cases hone
  | cons first rest ih =>
      unfold tokens at hone ih
      unfold scanTokensWith
      cases hfirst : isTokenFile cfg first with
      | true =>
          rw [List.filter_cons_of_pos hfirst] at hone
          obtain ⟨rfl, hrest⟩ := List.cons.inj hone
          exact scanTokensWith_none hrest _
      | false =>
          rw [List.filter_cons_of_neg (by simp [hfirst])] at hone
          exact ih hone

/-- A pass that comes to its end finds the one token there is. -/
theorem scanTokensWith_listed {another : Text → WmProc Unit} {r : Listing}
    (hs : Tidy cfg jdl A B room h s) (hend : (listed s.dir r).error = none) :
    scanTokensWith cfg another none (listed s.dir r).leaves =
      pure (h.files cfg).head? := by
  have hperm := tokens_listed cfg hend
  rw [hs.files] at hperm
  cases h with
  | none => exact scanTokensWith_none (List.perm_nil.mp hperm) _
  | ready n => exact scanTokensWith_one (List.perm_singleton.mp hperm)
  | held n => exact scanTokensWith_one (List.perm_singleton.mp hperm)

theorem lexicalCast_files (hcast : CastExact cfg)
    (hs : Tidy cfg jdl A B room h s) {leaf : Text}
    (hleaf : (h.files cfg).head? = some leaf) :
    cfg.lexicalCastFloat (afterLastUnderscore leaf) = some (h.number : ℤ) := by
  have hexact := hcast h.number hs.small
  cases h with
  | none => cases hleaf
  | ready n =>
      cases hleaf
      rw [afterLastUnderscore_tok]
      exact hexact.1
  | held n =>
      cases hleaf
      rw [afterLastUnderscore_tmp]
      exact hexact.2

theorem tidy_replansStage (hcast : CastExact cfg) {ad : Jdl}
    (hen : shallowResubmissionIsEnabled ad = true)
    (hs : Tidy cfg jdl A B room h s) :
    wp (site cfg localHostname loaded P)
      (fun s r => Tidy cfg jdl A B room h s ∧ r.1 = (h.number : ℤ) ∧
        Carries r.2 h ∧
        (h = .none → r.2 = ad) ∧ r.2.inputSandboxPath = ad.inputSandboxPath)
      (fun s _ => Settled cfg jdl A B s) s
      (replansStage cfg ad (h.files cfg).head?) := by
  unfold replansStage
  cases hleaf : (h.files cfg).head? with
  | none =>
      have hnone : h = .none := by
        cases h with
        | none => rfl
        | ready n => cases hleaf
        | held n => cases hleaf
      subst hnone
      exact ⟨hs, rfl, ⟨hen, fun hne => absurd rfl hne⟩, fun _ => rfl, rfl⟩
  | some leaf =>
      dsimp only
      rw [lexicalCast_files hcast hs hleaf]
      refine fun _ _ => ⟨trivial, hs, rfl, ⟨hen, fun _ => rfl⟩, ?_, rfl⟩
      rintro rfl
      cases hleaf

theorem Deliverable.of_replansStage {ad ad' : Jdl}
    (hd : Deliverable cfg localHostname ad h) (hnone : h = .none → ad' = ad)
    (hisb : ad'.inputSandboxPath = ad.inputSandboxPath) :
    Deliverable cfg localHostname ad' h := by
  refine ⟨fun hh => ?_, fun url hurl => ?_⟩
  · rw [hnone hh]
    exact hd.first hh
  · rw [hisb] at hurl
    exact hd.sandbox url hurl

/-- From the cancel token on, if the token stages do their part. -/
theorem settled_sandboxStages (hcast : CastExact cfg) {ad : Jdl}
    {info : Option LbInfo} (command : Command)
    (hen : shallowResubmissionIsEnabled ad = true)
    (hs : Tidy cfg jdl A B room h s)
    (hd : B → Deliverable cfg localHostname ad h)
    (hstages : ∀ s ad', Tidy cfg jdl A B room h s → Carries ad' h →
      (B → Deliverable cfg localHostname ad' h) →
      wp (site cfg localHostname loaded P) (fun s _ => Settled cfg jdl A B s)
        (fun s _ => Settled cfg jdl A B s) s
        (tokenStages cfg command ad' info h.number)) :
    wp (site cfg localHostname loaded P) (fun s _ => Settled cfg jdl A B s)
      (fun s _ => Settled cfg jdl A B s) s (sandboxStages cfg command ad info) := by
  refine settled_ask_bind (c := .existsCancelToken .processor) rfl hs
    fun s cancelled hs => ?_
  split
  · refine settled_still ?_ hs
    exact still_program_of_calm (calm_ask_bind rfl fun _ =>
      calm_ask_bind rfl fun _ => callsOnly_perform rfl)
  · intro r _
    refine ⟨trivial, ?_⟩
    have hworld : ((site cfg localHostname loaded P).world s .listSandbox r).1 =
        listed s.dir r := rfl
    show wp _ _ _ s (Proc.bind (scanTokens cfg none (listed s.dir r).leaves) _)
    cases hend : (listed s.dir r).error with
    | some e =>
        refine settled_still_bind
          (still_program_of_calm (calm_scanTokens cfg _ _)) hs
          fun s last hs => ?_
        simp only [hworld, hend]
        exact hs.settled
    | none =>
        unfold scanTokens
        rw [scanTokensWith_listed hs hend]
        simp only [hworld, hend, Proc.pure_eq, Proc.ret_bind]
        refine (wp_bind _ _ _).mpr (wp_mono ?_ (fun _ _ hs => hs)
          (tidy_replansStage hcast hen hs))
        rintro s ⟨n, ad'⟩ ⟨hs, rfl, hc, hnone, hisb⟩
        exact hstages s ad' hs hc fun hb => (hd hb).of_replansStage hnone hisb

/-- What a resubmission restores is the registered description, as far as the
token goes. -/
theorem tidy_resubmitStage (hs : Tidy cfg jdl A B room h s) :
    wp (site cfg localHostname loaded P)
      (fun s r => Tidy cfg jdl A B room h s ∧
        r.2.shallowRetryCount = jdl.shallowRetryCount ∧
        r.2.replansCount = jdl.replansCount ∧
        r.2.inputSandboxPath = jdl.inputSandboxPath)
      (fun s _ => Settled cfg jdl A B s) s (resubmitStage cfg) := by
  have hinfo : Still (retrieveLbInfo cfg) :=
    still_program_of_plain (callsOnly_bind (plain_doQueryEvents _ _)
      fun _ => trivial)
  refine (wp_bind _ _ _).mpr (wp_mono ?_ (fun _ _ hs => hs.settled)
    (wp_still hinfo hs))
  intro s info hs r _
  refine ⟨trivial, ?_⟩
  cases r with
  | error e => exact hs.settled
  | ok events =>
      have hworld : ((site cfg localHostname loaded P).world s
          (.query .originalJdl) (.ok events)).1 =
          .ok (s.lb.filter Query.originalJdl.selects) := rfl
      simp only [hworld, Proc.bind_eq, Proc.ret_bind, Proc.pure_eq]
      cases htext : firstJobText (s.lb.filter Query.originalJdl.selects) with
      | empty => exact hs.settled
      | unparsable what => exact hs.settled
      | ad j =>
          have hj := Budget.firstJobText_eq hs.fair htext
          subst hj
          exact fun _ _ => ⟨trivial, hs, rfl, rfl, rfl⟩

/-- What is asked of a request, in the directory it finds. -/
structure Asked (cfg : Config) (localHostname : Text) (jdl : Jdl) (P B : Prop)
    (state : SubmitState) (h : Holding) : Prop where
  replaces : state.command = .jobsubmit → h = .ready 0 → P
  found : B →
    Deliverable cfg localHostname (description jdl state) h ∧
      (state.command = .jobsubmit → ∀ n, h = .held n → n = 0)

theorem settled_afterLimbo (hcast : CastExact cfg)
    (hjdl : shallowResubmissionIsEnabled jdl = true) {state : SubmitState}
    (hrequest : isRequest jdl state = true)
    (hasked : Asked cfg localHostname jdl P B state h)
    (hroom : state.command = .jobsubmit → room = 1)
    (hs : Tidy cfg jdl A B room h s) :
    wp (site cfg localHostname loaded P) (fun s _ => Settled cfg jdl A B s)
      (fun s _ => Settled cfg jdl A B s) s (afterLimbo cfg state) := by
  have hfound := hasked.found
  unfold isRequest at hrequest
  simp only [Bool.and_eq_true, Bool.or_eq_true, decide_eq_true_eq] at hrequest
  obtain ⟨⟨hcommand, hen⟩, -⟩ := hrequest
  unfold afterLimbo
  rcases hcommand with hcommand | hcommand
  · have hdescription : description jdl state = state.ad := if_pos hcommand
    rw [hdescription] at hfound
    rw [if_neg (by rw [hcommand]; decide), hcommand]
    refine settled_sandboxStages hcast .jobsubmit hen hs (fun hb => (hfound hb).1)
      fun s ad' hs hc hd => ?_
    rw [hroom hcommand] at hs
    exact settled_tokenStages_submit hc hs (hasked.replaces hcommand)
      fun hb => ⟨hd hb, (hfound hb).2 hcommand⟩
  · have hdescription : description jdl state = jdl :=
      if_neg (by rw [hcommand]; decide)
    rw [hdescription] at hfound
    rw [if_pos hcommand, hcommand]
    refine (wp_bind _ _ _).mpr (wp_mono ?_ (fun _ _ hs => hs)
      (tidy_resubmitStage hs))
    rintro s ⟨info, ad⟩ ⟨hs, hshallow, hreplans, hisb⟩
    have hen : shallowResubmissionIsEnabled ad = true := by
      unfold shallowResubmissionIsEnabled getJobShallowCount at hjdl ⊢
      rw [show ad.shallowRetryCount = jdl.shallowRetryCount from hshallow]
      exact hjdl
    have hd : B → Deliverable cfg localHostname ad h := by
      intro hb
      obtain ⟨hfirst, hsandbox⟩ := (hfound hb).1
      refine ⟨fun hh => ?_, fun url hurl => hsandbox url ?_⟩
      · rw [show ad.replansCount = jdl.replansCount from hreplans]
        exact hfirst hh
      · rw [← show ad.inputSandboxPath = jdl.inputSandboxPath from hisb]
        exact hurl
    exact settled_sandboxStages hcast .jobresubmit hen hs hd
      fun s ad' hs hc hd => settled_tokenStages_resubmit info hc hs hd

/-- A request, from the directory as it finds it. -/
theorem settled_submitProcessor (hcast : CastExact cfg)
    (hjdl : shallowResubmissionIsEnabled jdl = true) {state : SubmitState}
    (hrequest : isRequest jdl state = true)
    (hasked : Asked cfg localHostname jdl P B state h)
    (hroom : state.command = .jobsubmit → room = 1)
    (hs : Tidy cfg jdl A B room h s) :
    wp (site cfg localHostname (some state) P)
      (fun s _ => Settled cfg jdl A B s) (fun s _ => Settled cfg jdl A B s) s
      (submitProcessor cfg fun _ => pure ()) := by
  refine fun r _ => ⟨trivial, ?_⟩
  show wp _ _ _ s (Proc.bind (entryChecks cfg state) _)
  refine settled_still_bind
    (still_program_of_calm (calm_entryChecks cfg state)) hs fun s on hs => ?_
  split
  · refine (wp_tryCatch _ _ _).mpr (wp_mono (fun _ _ hs => hs)
      (fun s e (hs : Settled cfg jdl A B s) => ?_) ?_)
    · obtain ⟨room, h, hs⟩ := hs
      exact settled_still (still_program_of_calm (calm_handle cfg e)) hs
    · split
      · refine settled_still_bind
          (still_program_of_calm (calm_limboStage cfg _)) hs fun s on hs => ?_
        split
        · exact settled_afterLimbo hcast hjdl hrequest hasked hroom hs
        · exact hs.settled
      · exact hs.settled
  · exact hs.settled

/-! ## A replanning -/

/-- The replanner sees the token there is, with its number. -/
theorem tidy_replanToken (hcast : CastExact cfg)
    (hs : Tidy cfg jdl A B room h s) :
    wp (site cfg localHostname loaded P)
      (fun s found => Tidy cfg jdl A B room h s ∧
        ∀ leaf n, found = some (leaf, n) →
          (h.files cfg).head? = some leaf ∧ n = (h.number : ℤ))
      (fun s _ => Tidy cfg jdl A B room h s) s (replanToken cfg) := by
  intro r _
  refine ⟨trivial, ?_⟩
  have hworld : ((site cfg localHostname loaded P).world s .listSandbox r).1 =
      listed s.dir r := rfl
  show wp _ _ _ s (Proc.bind (replanScan cfg none (listed s.dir r).leaves) _)
  cases hend : (listed s.dir r).error with
  | some e =>
      refine (wp_bind _ _ _).mpr (wp_mono ?_ (fun _ _ hs => hs) (wp_still
        (still_program_of_calm (Budget.calm_replanScan cfg _ _)) hs))
      intro s' last hs'
      simp only [hworld, hend]
      exact ⟨hs', fun leaf n hfound => by cases hfound⟩
  | none =>
      unfold replanScan
      rw [scanTokensWith_listed hs hend]
      simp only [hworld, hend]
      refine ⟨hs, fun leaf n hfound => ?_⟩
      cases hleaf : (h.files cfg).head? with
      | none =>
          rw [hleaf] at hfound
          cases hfound
      | some first =>
          rw [hleaf, Option.bind_some, lexicalCast_files hcast hs hleaf,
            Option.bind_some] at hfound
          split at hfound
          · cases hfound
            exact ⟨rfl, rfl⟩
          · cases hfound

/-- The next number, for either name. -/
theorem nextToken {leaf : Text} (hleaf : (h.files cfg).head? = some leaf) :
    h.files cfg = [leaf] ∧ leaf ≠ tok cfg (h.number + 1) ∧
      uptoLastUnderscore leaf ++ lexicalCastInt ((h.number : ℤ) + 1) =
        tok cfg (h.number + 1) := by
  cases h with
  | none => cases hleaf
  | ready n =>
      cases hleaf
      refine ⟨rfl, fun heq => ?_, uptoLastUnderscore_tok cfg n (n + 1)⟩
      exact absurd (tok_injective cfg heq) (Nat.ne_of_lt (Nat.lt_succ_self n))
  | held n =>
      cases hleaf
      exact ⟨rfl, fun heq => tok_ne_tmp cfg (n + 1) n heq.symm,
        uptoLastUnderscore_tmp cfg n (n + 1)⟩

/-- The token has its number, or the next. -/
theorem settled_moveToken {leaf : Text}
    (hsmall : h ≠ .none → h.number < maxExact)
    (hleaf : (h.files cfg).head? = some leaf)
    (hs : Tidy cfg jdl A B room h s) :
    wp (site cfg localHostname loaded P)
      (fun s moved => if moved then Tidy cfg jdl A B room (.ready (h.number + 1)) s
        else Settled cfg jdl A B s)
      (fun s _ => Settled cfg jdl A B s) s (moveToken leaf h.number) := by
  obtain ⟨hfiles, -, hnext⟩ := nextToken hleaf
  have hne : h ≠ .none := by
    rintro rfl
    cases hleaf
  have hmem : leaf ∈ s.dir := by
    have htoken : leaf ∈ tokens cfg s.dir := by
      rw [hs.files, hfiles]
      exact List.mem_singleton_self leaf
    exact mem_dir_of_tokens htoken
  have hmoved := tidy_renamed hs (.ready (h.number + 1)) hfiles rfl
    (isTokenFile_tok cfg _) (hsmall hne)
  unfold moveToken
  dsimp only
  rw [hnext]
  refine wp_rename_present hmem (fun e he => ?_) fun e => ?_
  · show if (!(true && decide (e ≠ .enoent)) && decide (e ≠ .enoent)) = true
      then _ else Settled cfg jdl A B s
    rw [decide_eq_true he]
    exact hs.settled
  · show if (!(false && _) && decide (e ≠ .enoent)) = true then _ else _
    split
    · exact hmoved
    · exact hmoved.settled

theorem tidy_checkReplans {leaf : Text} (hleaf : leaf ∉ h.files cfg) (n : ℤ)
    (hs : Tidy cfg jdl A B room h s) :
    wp (site cfg localHostname loaded P)
      (fun s _ => Tidy cfg jdl A B room h s)
      (fun s _ => Tidy cfg jdl A B room h s) s (checkReplans cfg leaf n) := by
  unfold checkReplans
  split
  · exact fun _ _ => ⟨trivial, fun _ _ =>
      ⟨trivial, tidy_log (tidy_unlink hs hleaf) _⟩⟩
  · exact hs

theorem still_requestReplan (jobAd : Jdl) : Still (requestReplan cfg jobAd) := by
  refine callsOnly_bind (callsOnly_perform rfl) fun _ =>
    callsOnly_bind (callsOnly_perform rfl) fun _ =>
      callsOnly_bind (callsOnly_perform rfl) fun delivered => ?_
  cases delivered <;> exact callsOnly_perform rfl

/-- A look of the replanner renumbers the token, or does nothing to it. -/
theorem settled_replanPrepared (hcast : CastExact cfg)
    (hsmall : h ≠ .none → h.number < maxExact)
    (hs : Tidy cfg jdl A B room h s) :
    wp (site cfg localHostname loaded P) (fun s _ => Settled cfg jdl A B s)
      (fun s _ => Settled cfg jdl A B s) s (replanPrepared cfg) := by
  refine settled_still_bind
    (still_program_of_plain Budget.plain_replanCandidate) hs fun s jobAd hs => ?_
  cases jobAd with
  | none => exact hs.settled
  | some jobAd =>
      refine (wp_bind _ _ _).mpr (wp_mono ?_ (fun _ _ hs => hs.settled)
        (tidy_replanToken hcast hs))
      rintro s found ⟨hs, hfound⟩
      cases found with
      | none => exact hs.settled
      | some found =>
          obtain ⟨leaf, n⟩ := found
          obtain ⟨hleaf, rfl⟩ := hfound leaf n rfl
          obtain ⟨-, hgone, -⟩ := nextToken hleaf
          refine (wp_bind _ _ _).mpr (wp_mono ?_ (fun _ _ hs => hs)
            (settled_moveToken hsmall hleaf hs))
          intro s moved hs
          cases moved with
          | false => exact hs
          | true =>
              refine (wp_bind _ _ _).mpr (wp_mono ?_ (fun _ _ hs => hs.settled)
                (tidy_checkReplans (fun hmem => hgone (List.mem_singleton.mp hmem))
                  h.number hs))
              intro s _ hs
              refine settled_ask_bind rfl hs fun s opened hs => ?_
              cases opened <;> exact hs.settled

/-- A replanning renumbers the token, or does nothing to it. -/
theorem settled_replan (hcast : CastExact cfg)
    (hsmall : h ≠ .none → h.number < maxExact)
    (hs : Tidy cfg jdl A B room h s) :
    wp (site cfg localHostname loaded P) (fun s _ => Settled cfg jdl A B s)
      (fun s _ => Settled cfg jdl A B s) s (replan cfg) := by
  refine (wp_bind _ _ _).mpr (wp_mono ?_ (fun _ _ hs => hs)
    (settled_replanPrepared hcast hsmall hs))
  rintro s jobAd ⟨room, h, hs⟩
  cases jobAd with
  | none => exact hs.settled
  | some jobAd => exact settled_still (still_requestReplan jobAd) hs

/-! ## Whole runs -/

theorem tidy_roomOne (hs : Tidy cfg jdl A B room h s)
    (hfree : A → h = .none → s.starts = 0) : Tidy cfg jdl A B 1 h s where
  files := hs.files
  small := hs.small
  fits := h.files_length_le
  budget := by
    intro ha
    cases h with
    | none => rw [hfree ha rfl]
    | ready n => exact (tidy_one hs rfl).budget ha
    | held n => exact (tidy_one hs rfl).budget ha
  found := hs.found
  fair := hs.fair

theorem settled_init {dir : List Text} (hdir : tokens cfg dir = []) :
    Settled cfg jdl A B (init dir) :=
  ⟨1, .none, hdir, Nat.zero_le _, Nat.zero_le _, fun _ => Nat.le_refl 1,
    fun _ _ hcopy => (by cases hcopy), Budget.fair_nil jdl⟩

theorem Tidy.tokens_eq_nil (hs : Tidy cfg jdl A B room h s) :
    tokens cfg s.dir = [] ↔ h = .none := by
  rw [hs.files]
  cases h <;> simp [Holding.files]

/-- The token is gone. -/
theorem settled_erase (hs : Tidy cfg jdl A B room h s) (leaf : Text) :
    Settled cfg jdl A B { s with dir := s.dir.erase leaf } := by
  by_cases hleaf : leaf ∈ h.files cfg
  · refine ⟨room, .none, ?_, Nat.zero_le _, Nat.zero_le _, hs.budget, hs.found,
      hs.fair⟩
    have hone : h.files cfg = [leaf] := by
      cases h with
      | none => cases hleaf
      | ready n => rw [List.mem_singleton.mp hleaf]; rfl
      | held n => rw [List.mem_singleton.mp hleaf]; rfl
    show tokens cfg (s.dir.erase leaf) = []
    rw [tokens_erase, hs.files, hone, List.erase_cons_head]
  · exact (tidy_unlink hs hleaf).settled

/-- A copy that starts takes the token with it, and the room for another. -/
theorem settled_start (hs : Tidy cfg jdl A B room h s) {i : ℕ} {copy : Copy}
    (hi : s.copies[i]? = some copy) {leaf : Text}
    (hleaf : namedToken cfg s copy = some leaf) :
    Settled cfg jdl A B
      { s with
        dir := s.dir.erase leaf
        copies := s.copies.set i { copy with started := true }
        starts := s.starts + 1 } := by
  have hmem : leaf ∈ h.files cfg := by
    rw [← hs.files]
    exact List.mem_of_find?_eq_some hleaf
  have hone : h.files cfg = [leaf] := by
    cases h with
    | none => cases hmem
    | ready n => rw [List.mem_singleton.mp hmem]; rfl
    | held n => rw [List.mem_singleton.mp hmem]; rfl
  have hfits := hs.fits
  rw [hone] at hfits
  refine ⟨0, .none, ?_, Nat.zero_le _, Nat.zero_le _, fun ha => ?_,
    fun hb c hc => ?_, hs.fair⟩
  · show tokens cfg (s.dir.erase leaf) = []
    rw [tokens_erase, hs.files, hone, List.erase_cons_head]
  · have hb := hs.budget ha
    show 0 + (s.starts + 1) ≤ 1
    rw [List.length_singleton] at hfits
    omega
  · rcases List.mem_or_eq_of_mem_set hc with hc | rfl
    · exact hs.found hb c hc
    · exact hs.found hb copy (List.mem_of_getElem? hi)

theorem settled_process (hcast : CastExact cfg)
    (hjdl : shallowResubmissionIsEnabled jdl = true) {state : SubmitState}
    (hrequest : isRequest jdl state = true) {o : Oracle Call Answer}
    (hrename : renamesToken cfg s (.process state o))
    (hs : Tidy cfg jdl A B room h s)
    (hfree : A → state.command = .jobsubmit → h = .none → s.starts = 0)
    (hfound : B → Deliverable cfg localHostname (description jdl state) h ∧
      (state.command = .jobsubmit → ∀ n, h = .held n → n = 0)) :
    Settled cfg jdl A B (siteAfter cfg localHostname (some state) o s
      (submitProcessor cfg fun _ => pure ())) := by
  -- the renaming that must not fail is the one onto a token that is there
  let P : Prop := state.command = .jobsubmit ∧ tok cfg 0 ∈ s.dir
  have hkeeps : ∀ n s c,
      (site cfg localHostname (some state) P).assume s c (o n c) := by
    rintro n - c ⟨hcommand, hmem⟩
    cases c with
    | rename old new =>
        rintro rfl rfl
        exact hrename hcommand hmem n
    | _ => trivial
  have hasked : Asked cfg localHostname jdl P B state h :=
    ⟨fun hcommand hh => ⟨hcommand, (hs.tok_mem 0).mpr hh⟩, hfound⟩
  by_cases hcommand : state.command = .jobsubmit
  · have hone := tidy_roomOne hs fun ha => hfree ha hcommand
    exact wp_exec_state o (keeps_of_forall o hkeeps 0 s _)
      (settled_submitProcessor hcast hjdl hrequest hasked (fun _ => rfl) hone)
  · exact wp_exec_state o (keeps_of_forall o hkeeps 0 s _)
      (settled_submitProcessor hcast hjdl hrequest hasked
        (fun hc => absurd hc hcommand) hs)

theorem settled_replanned (hcast : CastExact cfg) {o : Oracle Call Answer}
    (hfits : numberFits cfg s (.replan o) = true)
    (hs : Tidy cfg jdl A B room h s) :
    Settled cfg jdl A B (siteAfter cfg localHostname none o s (replan cfg)) := by
  have hsmall : h ≠ .none → h.number < maxExact := by
    intro hne
    unfold numberFits at hfits
    simp only [Bool.and_eq_true, Bool.not_eq_true', decide_eq_false_iff_not]
      at hfits
    rcases Nat.lt_or_eq_of_le hs.small with hlt | heq
    · exact hlt
    · cases h with
      | none => exact absurd rfl hne
      | ready n => exact absurd ((hs.tok_mem maxExact).mpr (heq ▸ rfl)) hfits.1
      | held n => exact absurd ((hs.tmp_mem maxExact).mpr (heq ▸ rfl)) hfits.2
  have hkeeps : ∀ n s c, (site cfg localHostname none False).assume s c (o n c) :=
    fun _ _ _ hfalse => hfalse.elim
  exact wp_exec_state o (keeps_of_forall o hkeeps 0 s _)
    (settled_replan hcast hsmall hs)

theorem starts_of_comesFirst (hs : Tidy cfg jdl A B room h s)
    {state : SubmitState} {o : Oracle Call Answer}
    (hfirst : comesFirst cfg s (.process state o) = true)
    (hcommand : state.command = .jobsubmit) (hnone : h = .none) :
    s.starts = 0 := by
  have htokens := hs.tokens_eq_nil.mpr hnone
  unfold comesFirst at hfirst
  simpa [hcommand, htokens] using hfirst

theorem deliverable_of_numberedRight (hs : Tidy cfg jdl A B room h s)
    {state : SubmitState} {o : Oracle Call Answer}
    (hrequest : isRequest jdl state = true)
    (hnumber : numberedRight cfg jdl s (.process state o) = true)
    (hsandbox : sandboxOf cfg localHostname jdl) :
    Deliverable cfg localHostname (description jdl state) h ∧
      (state.command = .jobsubmit → ∀ n, h = .held n → n = 0) := by
  have hisb : (description jdl state).inputSandboxPath = jdl.inputSandboxPath := by
    unfold isRequest at hrequest
    simp only [Bool.and_eq_true, decide_eq_true_eq] at hrequest
    unfold description
    split
    · exact hrequest.2
    · rfl
  unfold numberedRight at hnumber
  simp only [Bool.and_eq_true, Bool.or_eq_true, decide_eq_true_eq] at hnumber
  refine ⟨⟨fun hnone => ?_, ?_⟩, fun hcommand n hheld => ?_⟩
  · rcases hnumber.1 with htokens | hzero
    · rw [hs.tokens_eq_nil.mpr hnone] at htokens
      cases htokens
    · exact hzero
  · unfold sandboxOf
    rw [hisb]
    exact hsandbox
  · rcases hnumber.2 with hne | hall
    · exact absurd hcommand hne
    · subst hheld
      rw [hs.files] at hall
      have htmp := List.all_eq_true.mp hall (tmp cfg n) (List.mem_singleton_self _)
      have hlast : (tmp cfg n).getLast? = some '.' := by
        rw [tmp_eq, ← List.cons_append, ← List.append_assoc]
        exact List.getLast?_concat
      simp only [hlast, ne_eq, not_true_eq_false, decide_false, Bool.false_or,
        decide_eq_true_eq] at htmp
      exact tmp_injective cfg htmp

/-- A step of the directory, given what the two properties need of a
request. -/
theorem settled_next (hcast : CastExact cfg)
    (hjdl : shallowResubmissionIsEnabled jdl = true) {l : Label} {s' : Site}
    (hs : Settled cfg jdl A B s)
    (hfits : numberFits cfg s l = true) (hrename : renamesToken cfg s l)
    (hfirst : A → comesFirst cfg s l = true)
    (hnumber : B → numberedRight cfg jdl s l = true)
    (hsandbox : B → sandboxOf cfg localHostname jdl)
    (hn : next cfg localHostname jdl s l = some s') :
    Settled cfg jdl A B s' := by
  obtain ⟨room, h, hs⟩ := hs
  cases l with
  | registered timestamp queue reason =>
      cases hn
      refine ⟨room, h, hs.files, hs.small, hs.fits, hs.budget, hs.found, ?_⟩
      refine Budget.fair_snoc hs.fair (fun hsource => by cases hsource) ?_
      rintro - queue' reason' j hkind
      cases hkind
      rfl
  | component e =>
      unfold next at hn
      dsimp only at hn
      split at hn
      next he =>
        cases hn
        exact ⟨room, h, hs.files, hs.small, hs.fits, hs.budget, hs.found,
          Budget.fair_component hs.fair he⟩
      next => cases hn
  | process state o =>
      unfold next at hn
      dsimp only at hn
      split at hn
      next hrequest =>
        cases hn
        exact settled_process hcast hjdl hrequest hrename hs
          (fun ha => starts_of_comesFirst hs (hfirst ha))
          fun hb => deliverable_of_numberedRight hs hrequest (hnumber hb)
            (hsandbox hb)
      next => cases hn
  | replan o =>
      cases hn
      exact settled_replanned hcast hfits hs
  | start i =>
      unfold next at hn
      dsimp only at hn
      split at hn
      · cases hn
      next copy hi =>
        split at hn
        · cases hn
        · obtain ⟨leaf, hleaf, rfl⟩ := Option.map_eq_some_iff.mp hn
          exact settled_start hs hi hleaf
  | removed leaf =>
      cases hn
      exact settled_erase hs leaf

/-- Between two deep resubmissions at most one copy of a job starts, in every
run of the kind. -/
theorem starts_le_one (cfg : Config) (localHostname : Text) (jdl : Jdl)
    (hcast : CastExact cfg) (hjdl : shallowResubmissionIsEnabled jdl = true)
    {dir : List Text} (hdir : tokens cfg dir = []) (ls : List Label) (s : Site)
    (hok : Meets (next cfg localHostname jdl) (startsOnce cfg) (init dir) ls)
    (hrun : run (next cfg localHostname jdl) (init dir) ls = some s) :
    s.starts ≤ 1 := by
  have hsettled : Settled cfg jdl True False s :=
    run_invariant
      (fun s l s' hs hok hn => settled_next hcast hjdl hs hok.2.1 hok.2.2
        (fun _ => hok.1) (fun hb => hb.elim) (fun hb => hb.elim) hn)
      (settled_init hdir) hok hrun
  obtain ⟨room, h, hs⟩ := hsettled
  have hb := hs.budget trivial
  omega

/-- Every copy that is delivered names the one token there is, in every run of
the kind. -/
theorem finds_of_findsToken (cfg : Config) (localHostname : Text) (jdl : Jdl)
    (hcast : CastExact cfg) (hjdl : shallowResubmissionIsEnabled jdl = true)
    (hsandbox : sandboxOf cfg localHostname jdl)
    {dir : List Text} (hdir : tokens cfg dir = []) (ls : List Label) (s : Site)
    (hok : Meets (next cfg localHostname jdl) (findsToken cfg jdl) (init dir) ls)
    (hrun : run (next cfg localHostname jdl) (init dir) ls = some s) :
    ∀ copy ∈ s.copies, Finds cfg copy := by
  have hsettled : Settled cfg jdl False True s :=
    run_invariant
      (fun s l s' hs hok hn => settled_next hcast hjdl hs hok.2.1 hok.2.2
        (fun ha => ha.elim) (fun _ => hok.1) (fun _ => hsandbox) hn)
      (settled_init hdir) hok hrun
  obtain ⟨room, h, hs⟩ := hsettled
  exact hs.found trivial

/-! ## Three runs

A job is submitted and replanned. In the runs that go wrong a resubmission
overtakes the request of the replanner. -/

theorem decimalCast_decimal (n : ℕ) {rest : Text}
    (h : rest = [] ∨ rest = ['.']) :
    decimalCast (decimal n ++ rest) = some (n : ℤ) := by
  have hdigits : ∀ c ∈ decimal n, c.isDigit = true :=
    fun c hc => Nat.isDigit_of_mem_toDigits (by omega) (by omega) hc
  have htake : (decimal n ++ rest).takeWhile Char.isDigit = decimal n := by
    rw [List.takeWhile_append_of_pos hdigits]
    rcases h with rfl | rfl
    · exact List.append_nil _
    · exact List.append_nil _
  have hdrop : (decimal n ++ rest).dropWhile Char.isDigit = rest := by
    rw [List.dropWhile_append_of_pos hdigits]
    rcases h with rfl | rfl <;> rfl
  have hsome : (decimal n).isEmpty = false := by
    rw [List.isEmpty_eq_false_iff]
    exact Nat.toDigits_ne_nil
  have hnumber : Nat.ofDigitChars 10 (decimal n) 0 = n :=
    Nat.ofDigitChars_ten_toDigits
  have hrest : (decide (rest = []) || decide (rest = ['.'])) = true := by
    rcases h with rfl | rfl <;> rfl
  unfold decimalCast
  dsimp only
  rw [htake, hdrop, hsome, hrest, hnumber]
  rfl

theorem castExact_sampleConfig : CastExact sampleConfig := by
  intro n _
  refine ⟨?_, decimalCast_decimal n (.inr rfl)⟩
  have hcast := decimalCast_decimal n (.inl rfl)
  rwa [List.append_nil] at hcast

/-- A job with a token. -/
def sampleJob : Jdl where
  shallowRetryCount := some 3
  enableWmsFeedback := true
  inputSandboxPath := "/s/input".toList

/-- The answers to its requests. -/
def sampleAnswer : (c : Call) → Answer c := Budget.creamAnswers []

/-- A request for it. -/
def request (command : Command) (ad : Jdl) : Label :=
  .process ⟨command, ad, .start, 0⟩ fun _ => sampleAnswer

/-- What the replanner delivers. -/
def replannedJob : Jdl := { sampleJob with replansCount := some 1 }

/-- The job is registered, submitted and looked at by the replanner. -/
def submitted : List Label :=
  [.registered 0 "wm" "", request .jobsubmit sampleJob,
    .replan fun _ => sampleAnswer]

/-- The resubmission is handled first, and its copy starts. -/
def overtaken : List Label :=
  submitted ++ [request .jobresubmit sampleJob, .start 1,
    request .jobsubmit replannedJob]

/-- The request of the replanner then makes token 0 anew, for the first copy to
find: a second start. -/
theorem not_starts_le_one_overtaken :
    ∃ s, run (next sampleConfig ['h'] sampleJob) (init []) (overtaken ++ [.start 0])
        = some s ∧
      s.inbox = [replannedJob] ∧ s.starts = 2 :=
  ⟨_, rfl, rfl, rfl⟩

/-- And the copy it delivers names token 1, which is not there. -/
theorem not_finds_overtaken :
    ∃ s copy, run (next sampleConfig ['h'] sampleJob) (init []) overtaken = some s ∧
      s.inbox = [replannedJob] ∧ copy ∈ s.copies ∧
      copy.files = [tok sampleConfig 0] ∧
      pathOfUrl copy.token = fullPath sampleConfig (tok sampleConfig 1) ∧
      ¬ Finds sampleConfig copy := by
  refine ⟨_, _, rfl, rfl, List.mem_of_getElem? (i := 2) rfl, rfl, rfl, ?_⟩
  rintro ⟨leaf, hfiles, hpath⟩
  cases hfiles
  exact absurd hpath (by decide)

/-- Handled in turn, the request finds token 1 in place. -/
def inTurn : List Label :=
  submitted ++ [request .jobsubmit replannedJob, .start 1]

theorem renamesToken_inTurn (s : Site) (l : Label) (hl : l ∈ inTurn) :
    renamesToken sampleConfig s l := by
  have hcases : l = .registered 0 "wm" "" ∨ l = request .jobsubmit sampleJob ∨
      l = .replan (fun _ => sampleAnswer) ∨ l = request .jobsubmit replannedJob ∨
      l = .start 1 := by
    simpa [inTurn, submitted] using hl
  rcases hcases with rfl | rfl | rfl | rfl | rfl
  · trivial
  · exact fun _ _ _ => rfl
  · trivial
  · exact fun _ _ _ => rfl
  · trivial

theorem starts_le_one_inTurn :
    ∃ s, run (next sampleConfig ['h'] sampleJob) (init []) inTurn = some s ∧
      s.starts = 1 ∧ s.starts ≤ 1 := by
  have hok : ((steps (next sampleConfig ['h'] sampleJob) (init []) inTurn).all
      fun p => comesFirst sampleConfig p.1 p.2 &&
        numberFits sampleConfig p.1 p.2) = true := by decide +kernel
  have hstarts : (run (next sampleConfig ['h'] sampleJob) (init []) inTurn).map
      (fun s => s.starts) = some 1 := rfl
  obtain ⟨s, hrun, hs⟩ := Option.map_eq_some_iff.mp hstarts
  refine ⟨s, hrun, hs, starts_le_one sampleConfig ['h'] sampleJob
    castExact_sampleConfig rfl rfl inTurn s (fun p hp => ?_) hrun⟩
  have hstep := List.all_eq_true.mp hok p hp
  rw [Bool.and_eq_true] at hstep
  exact ⟨hstep.1, hstep.2, renamesToken_inTurn p.1 p.2 (label_mem_of_steps hp)⟩

theorem finds_of_findsToken_inTurn :
    ∃ s copy, run (next sampleConfig ['h'] sampleJob) (init []) inTurn = some s ∧
      s.copies[1]? = some copy ∧ copy.files = [tok sampleConfig 1] ∧
      Finds sampleConfig copy := by
  have hok : ((steps (next sampleConfig ['h'] sampleJob) (init []) inTurn).all
      fun p => numberedRight sampleConfig sampleJob p.1 p.2 &&
        numberFits sampleConfig p.1 p.2) = true := by decide +kernel
  have hcopies : (run (next sampleConfig ['h'] sampleJob) (init []) inTurn).map
      (fun s => s.copies[1]?.map fun copy => copy.files) =
        some (some [tok sampleConfig 1]) := rfl
  have hsandbox : sandboxOf sampleConfig ['h'] sampleJob := by
    intro url hurl
    cases hurl
    rfl
  obtain ⟨s, hrun, hs⟩ := Option.map_eq_some_iff.mp hcopies
  obtain ⟨copy, hcopy, hfiles⟩ := Option.map_eq_some_iff.mp hs
  refine ⟨s, copy, hrun, hcopy, hfiles,
    finds_of_findsToken sampleConfig ['h'] sampleJob castExact_sampleConfig rfl
      hsandbox rfl inTurn s (fun p hp => ?_) hrun copy
      (List.mem_of_getElem? hcopy)⟩
  have hstep := List.all_eq_true.mp hok p hp
  rw [Bool.and_eq_true] at hstep
  exact ⟨hstep.1, hstep.2, renamesToken_inTurn p.1 p.2 (label_mem_of_steps hp)⟩

end Wms.Core.Sandbox
