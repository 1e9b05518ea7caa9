import Wms.Core.Replans
import Wms.Proofs.Sandbox

/-!
# Replanning and its limit

A look of the replanner touches one token at most: it leaves the directory as
it is, or it has tried one renaming, and then the rest follows from the number
in the old name and from the answer. As long as every look finds its token
below the limit, and no error number is left over from an earlier call, the
number grows by one with every request, so there are no more requests than the
limit says. At the limit itself the old name is removed, which is no longer
there, and the request goes out.
-/

namespace Wms.Core.Replans

open Wms.Lib Wms.Lib.Proc Wms.Core

variable (cfg : Config) (o : Oracle Call Answer) (dir : List Text)

theorem moveToken_eq (tokenFile : Text) (tokenNum : ℤ) :
    moveToken tokenFile tokenNum =
      (ask (.rename tokenFile
        (uptoLastUnderscore tokenFile ++ lexicalCastInt (tokenNum + 1)))).bind
        fun res => pure (decide (renameOutcome res = .moved)) := by
  refine congrArg (Proc.bind _) (funext fun res => congrArg Proc.ret ?_)
  obtain ⟨failed, errno⟩ := res
  unfold renameOutcome
  by_cases herrno : errno = .enoent <;> cases failed <;> simp [herrno]

/-! ## One look -/

/-- Nothing has been done to the tokens. -/
structure Idle (k : Look) : Prop where
  dir : k.dir = dir
  requests : k.requests = []
  renames : k.renames = []

def dirAfter (leaf : Text) (n : ℤ) (res : Renamed) : List Text :=
  if res.failed then dir else Sandbox.place (plusOne leaf n) (dir.erase leaf)

/-- A renaming has been tried, and nothing else. -/
structure Renames (leaf : Text) (n : ℤ) (res : Renamed) (k : Look) : Prop where
  requests : k.requests = []
  renames : k.renames = [(leaf, res)]
  answered : ∃ i,
    res = Sandbox.renamed dir leaf (o i (.rename leaf (plusOne leaf n)))
  dir : k.dir = dirAfter dir leaf n res

/-- And the limit has been looked at, if it has moved the token. -/
structure Tried (leaf : Text) (n : ℤ) (res : Renamed) (k : Look) : Prop where
  token : leaf ∈ Sandbox.tokens cfg dir
  number : numberOf cfg leaf = some n
  nonneg : 0 ≤ n
  answered : ∃ i,
    res = Sandbox.renamed dir leaf (o i (.rename leaf (plusOne leaf n)))
  renames : k.renames = [(leaf, res)]
  dir : k.dir =
    if renameOutcome res = .moved ∧ cfg.maxReplansCount ≤ n then
      (dirAfter dir leaf n res).erase leaf
    else dirAfter dir leaf n res

/-- What a look can come to. -/
def Comes (k : Look) : Prop :=
  Idle dir k ∨ ∃ leaf n res, Tried cfg o dir leaf n res k ∧
    (renameOutcome res ≠ .moved → k.requests = []) ∧ k.requests.length ≤ 1

/-- Every answer is one of those offered. -/
def contract : Contract Look Call Answer where
  world := lookWorld
  assume := fun _ c r => ∃ i, r = o i c
  guard := fun _ _ _ => True

variable {cfg o dir}

theorem idle_effect {k : Look} (hk : Idle dir k) {c : Call}
    (hc : c.calm = true) (r : Answer c) : Idle dir (effect k c r) := by
  cases c with
  | log e => cases e <;> exact ⟨hk.dir, hk.requests, hk.renames⟩
  | rename old new => cases hc
  | unlink leaf => cases hc
  | deliverToWm ad => cases hc
  | _ => exact hk

theorem idle_calm {α : Type} {p : WmProc α} (hp : Calm p) {k : Look}
    (hk : Idle dir k) :
    wp (contract o) (fun k _ => Idle dir k) (fun k _ => Idle dir k) k p :=
  wp_of_callsOnly (fun _ _ _ hc hk _ => ⟨trivial, idle_effect hk hc _⟩) hp hk

/-- The token a look goes by is there, with its number. -/
theorem idle_replanToken {k : Look} (hk : Idle dir k) :
    wp (contract o)
      (fun k found => Idle dir k ∧ ∀ leaf n, found = some (leaf, n) →
        leaf ∈ Sandbox.tokens cfg dir ∧ numberOf cfg leaf = some n ∧ 0 ≤ n)
      (fun k _ => Idle dir k) k (replanToken cfg) := by
  rintro r -
  refine ⟨trivial, ?_⟩
  change wp (contract o) _ _ k
    ((replanScan cfg none (Sandbox.listed k.dir r).leaves).bind _)
  rw [hk.dir]
  have hscan := within_scanTokensWith cfg (P := (·.calm = true))
    (fun leaf => Budget.calm_replanUnrecoverable (pathOf cfg leaf ++
      ": two shallow resubmit tokens are present at the same time!"))
    (Sandbox.listed dir r).leaves none
  refine (wp_bind _ _ _).mpr (wp_mono ?_ (fun _ _ hk => hk.1)
    (wp_of_within (I := Idle dir)
      (fun _ _ _ hc hk _ => ⟨trivial, idle_effect hk hc _⟩)
      hscan (throws_any _) hk))
  rintro k' found ⟨hk', hfound⟩
  split
  · exact ⟨hk', fun _ _ h => by cases h⟩
  · next hend =>
      refine ⟨hk', fun leaf n h => ?_⟩
      obtain ⟨tokenFile, htoken, h⟩ := Option.bind_eq_some_iff.mp h
      obtain ⟨tokenNum, hnum, h⟩ := Option.bind_eq_some_iff.mp h
      split at h
      · next hpos =>
          cases h
          have hend : (Sandbox.listed dir r).error = none := by
            rw [← hk.dir]
            exact hend
          refine ⟨?_, hnum, hpos⟩
          rw [hfound, Option.none_or] at htoken
          exact (Sandbox.tokens_listed cfg hend).subset
            (List.mem_of_head? htoken)
      · cases h

theorem renames_moveToken {k : Look} (hk : Idle dir k) {leaf : Text} {n : ℤ} :
    wp (contract o)
      (fun k moved => ∃ res, moved = decide (renameOutcome res = .moved) ∧
        Renames o dir leaf n res k)
      (fun _ _ => False) k (moveToken leaf n) := by
  obtain ⟨d, requests, aborts, renames⟩ := k
  obtain ⟨rfl, rfl, rfl⟩ := hk
  rw [moveToken_eq]
  rintro r ⟨i, rfl⟩
  exact ⟨trivial, _, rfl, rfl, rfl, ⟨i, rfl⟩, rfl⟩

variable {leaf : Text} {n : ℤ} {res : Renamed} {k : Look}

theorem tried_of_not_moved (htoken : leaf ∈ Sandbox.tokens cfg dir)
    (hnumber : numberOf cfg leaf = some n) (hpos : 0 ≤ n)
    (hk : Renames o dir leaf n res k)
    (hres : renameOutcome res ≠ .moved) : Tried cfg o dir leaf n res k := by
  refine ⟨htoken, hnumber, hpos, hk.answered, hk.renames, ?_⟩
  rw [if_neg (fun h => hres h.1)]
  exact hk.dir

/-- The limit takes the old name away. -/
theorem tried_checkReplans (htoken : leaf ∈ Sandbox.tokens cfg dir)
    (hnumber : numberOf cfg leaf = some n) (hpos : 0 ≤ n)
    (hk : Renames o dir leaf n res k)
    (hres : renameOutcome res = .moved) :
    wp (contract o)
      (fun k _ => Tried cfg o dir leaf n res k ∧ k.requests = [])
      (fun _ _ => False) k (checkReplans cfg leaf n) := by
  unfold checkReplans
  by_cases hlimit : n ≥ cfg.maxReplansCount
  · rw [if_pos hlimit]
    refine fun _ _ => ⟨trivial, fun _ _ => ⟨trivial, ?_, hk.requests⟩⟩
    refine ⟨htoken, hnumber, hpos, hk.answered, hk.renames, ?_⟩
    rw [if_pos ⟨hres, hlimit⟩, ← hk.dir]
    rfl
  · rw [if_neg hlimit]
    refine ⟨⟨htoken, hnumber, hpos, hk.answered, hk.renames, ?_⟩, hk.requests⟩
    rw [if_neg (fun h => hlimit h.2)]
    exact hk.dir

theorem comes_of_tried (hk : Tried cfg o dir leaf n res k)
    (hrequests : k.requests = []) : Comes cfg o dir k :=
  .inr ⟨leaf, n, res, hk, fun _ => hrequests, by
    rw [hrequests]
    exact Nat.zero_le 1⟩

/-- One request, or none if it cannot be delivered. -/
theorem comes_requestReplan (hk : Tried cfg o dir leaf n res k)
    (hres : renameOutcome res = .moved) (hrequests : k.requests = [])
    (jobAd : Jdl) :
    wp (contract o) (fun k _ => Comes cfg o dir k)
      (fun k _ => Comes cfg o dir k) k (requestReplan cfg jobAd) := by
  intro _ _
  refine ⟨trivial, fun _ _ => ⟨trivial, fun delivered _ => ⟨trivial, ?_⟩⟩⟩
  cases delivered with
  | error what => exact fun _ _ => ⟨trivial, comes_of_tried hk hrequests⟩
  | ok _ =>
      refine fun _ _ => ⟨trivial, .inr ⟨leaf, n, res, ?_, ?_, ?_⟩⟩
      · exact ⟨hk.token, hk.number, hk.nonneg, hk.answered, hk.renames, hk.dir⟩
      · exact fun h => absurd hres h
      · show (k.requests ++ [jobAd]).length ≤ 1
        rw [hrequests]
        exact le_refl 1

/-- What a look comes to, up to its first event. -/
theorem comes_replanPrepared (hk : Idle dir k) :
    wp (contract o)
      (fun k jobAd => Comes cfg o dir k ∧ (jobAd ≠ none →
        ∃ leaf n res, Tried cfg o dir leaf n res k ∧
          renameOutcome res = .moved ∧ k.requests = []))
      (fun k _ => Comes cfg o dir k) k (replanPrepared cfg) := by
  refine (wp_bind _ _ _).mpr (wp_mono ?_ (fun _ _ hk => .inl hk)
    (idle_calm (calm_of_plain Budget.plain_replanCandidate) hk))
  intro k jobAd hk
  cases jobAd with
  | none => exact ⟨.inl hk, fun h => absurd rfl h⟩
  | some jobAd =>
      refine (wp_bind _ _ _).mpr (wp_mono ?_ (fun _ _ hk => .inl hk)
        (idle_replanToken hk))
      rintro k found ⟨hk, hfound⟩
      cases found with
      | none => exact ⟨.inl hk, fun h => absurd rfl h⟩
      | some found =>
          obtain ⟨leaf, n⟩ := found
          obtain ⟨htoken, hnumber, hpos⟩ := hfound leaf n rfl
          refine (wp_bind _ _ _).mpr (wp_mono ?_ (fun _ _ h => h.elim)
            (renames_moveToken hk))
          rintro k moved ⟨res, rfl, hk⟩
          by_cases hres : renameOutcome res = .moved
          · rw [decide_eq_true hres]
            refine (wp_bind _ _ _).mpr (wp_mono ?_ (fun _ _ h => h.elim)
              (tried_checkReplans htoken hnumber hpos hk hres))
            rintro k _ ⟨hk, hrequests⟩ opened -
            refine ⟨trivial, ?_⟩
            cases opened with
            | error what => exact comes_of_tried hk hrequests
            | ok _ =>
                exact ⟨comes_of_tried hk hrequests,
                  fun _ => ⟨leaf, n, res, hk, hres, hrequests⟩⟩
          · rw [decide_eq_false hres]
            exact ⟨comes_of_tried
              (tried_of_not_moved htoken hnumber hpos hk hres) hk.requests,
              fun h => absurd rfl h⟩

variable (cfg o dir) in
theorem comes_look : Comes cfg o dir (look cfg o dir) := by
  refine wp_exec_state o (K := contract o)
    (keeps_of_forall o (K := contract o) (fun i _ _ => ⟨i, rfl⟩) 0 _ _) ?_
  refine (wp_bind _ _ _).mpr (wp_mono ?_ (fun _ _ hk => hk)
    (comes_replanPrepared ⟨rfl, rfl, rfl⟩))
  rintro k jobAd ⟨hk, hready⟩
  cases jobAd with
  | none => exact hk
  | some jobAd =>
      obtain ⟨leaf, n, res, htried, hres, hrequests⟩ :=
        hready (Option.some_ne_none jobAd)
      exact comes_requestReplan htried hres hrequests jobAd

/-- A job that is not to be replanned is left as it is. -/
theorem idle_look (h : isCandidate dir o = false) :
    Idle dir (look cfg o dir) := by
  have hidle : Idle dir
      (exec lookWorld o 0 ⟨dir, [], 0, []⟩ replanCandidate).state :=
    wp_exec_state o (K := contract o)
      (keeps_of_forall o (K := contract o) (fun i _ _ => ⟨i, rfl⟩) 0 _ _)
      (idle_calm (calm_of_plain Budget.plain_replanCandidate) ⟨rfl, rfl, rfl⟩)
  unfold isCandidate at h
  unfold look replan replanPrepared
  rw [bind_eq, exec_bind, bind_eq, exec_bind]
  generalize exec lookWorld o 0 ⟨dir, [], 0, []⟩ replanCandidate = d
    at h hidle ⊢
  obtain ⟨e | _ | jobAd, n, k⟩ := d
  · exact hidle
  · exact hidle
  · cases h

/-! ## Below the limit, and at it -/

variable {job job' : Job}

/-- A look in order that has come to a token has found it in order. -/
theorem comes_ordinary (h : ordinary cfg job o) :
    Idle job.dir (look cfg o job.dir) ∨
      (belowLimit cfg job.dir = true ∧ freshErrno cfg job.dir o) ∧
        ∃ leaf n res, Tried cfg o job.dir leaf n res (look cfg o job.dir) ∧
          (renameOutcome res ≠ .moved → (look cfg o job.dir).requests = []) ∧
          (look cfg o job.dir).requests.length ≤ 1 := by
  cases hcandidate : isCandidate job.dir o with
  | false => exact .inl (idle_look hcandidate)
  | true =>
      rcases comes_look cfg o job.dir with hk | htried
      · exact .inl hk
      · exact .inr ⟨h hcandidate, htried⟩

theorem failed_of_moved (h : renameOutcome res = .moved) : res.failed = false := by
  unfold renameOutcome at h
  cases hfailed : res.failed with
  | false => rfl
  | true => by_cases herrno : res.errno = .enoent <;> simp [hfailed, herrno] at h

/-- The renaming of a file that is there. -/
theorem outcome_renamed (hleaf : leaf ∈ dir) {r : Renamed}
    (herrno : r.errno ≠ .enoent) :
    (renameOutcome (Sandbox.renamed dir leaf r) = .moved) ∨
      (renameOutcome (Sandbox.renamed dir leaf r) = .skipped ∧
        (Sandbox.renamed dir leaf r).failed = true) := by
  unfold Sandbox.renamed
  rw [if_neg (not_not.mpr hleaf)]
  cases hfailed : r.failed with
  | true =>
      right
      simp [renameOutcome, hfailed, herrno]
  | false =>
      left
      simp [renameOutcome, herrno]

theorem plusOne_token (hcast : Sandbox.CastExact cfg)
    (hleaf : isTokenFile cfg leaf = true) (hpos : 0 ≤ n)
    (hsmall : n < Sandbox.maxExact) :
    isTokenFile cfg (plusOne leaf n) = true ∧
      numberOf cfg (plusOne leaf n) = some (n + 1) := by
  obtain ⟨m, rfl⟩ := Int.eq_ofNat_of_zero_le hpos
  obtain ⟨htoken, hnumber⟩ := Sandbox.renumbered hleaf (m + 1)
  refine ⟨htoken, ?_⟩
  show cfg.lexicalCastFloat
    (afterLastUnderscore (uptoLastUnderscore leaf ++ decimal (m + 1))) = _
  rw [hnumber, (hcast (m + 1) (by omega)).1]
  rfl

theorem isTokenFile_of_mem (h : leaf ∈ Sandbox.tokens cfg dir) :
    isTokenFile cfg leaf = true := (List.mem_filter.mp h).2

/-- What is said of the one token of a directory. -/
theorem of_belowLimit (h : belowLimit cfg dir = true)
    (htoken : leaf ∈ Sandbox.tokens cfg dir)
    (hnumber : numberOf cfg leaf = some n) (hpos : 0 ≤ n) :
    Sandbox.tokens cfg dir = [leaf] ∧ n < cfg.maxReplansCount ∧
      n < Sandbox.maxExact := by
  unfold belowLimit at h
  split at h
  · next hnone =>
      rw [hnone] at htoken
      cases htoken
  · next one hone =>
      rw [hone, List.mem_singleton] at htoken
      subst htoken
      rw [hnumber, Option.all_some, Bool.or_eq_true, Bool.and_eq_true,
        decide_eq_true_eq, decide_eq_true_eq, decide_eq_true_eq] at h
      refine ⟨hone, h.resolve_left (by omega)⟩
  · cases h

/-- A look in order has nothing to stop. -/
theorem stops_of_ordinary (h : ordinary cfg job o) :
    Stops cfg job.dir (look cfg o job.dir) := by
  rcases comes_ordinary h with hk | ⟨⟨hbelow, hfresh⟩, leaf, n, res, hk, -, -⟩
  · refine ⟨fun leaf res n hmem => ?_, fun _ => hk.requests, fun leaf res hmem => ?_⟩
    · rw [hk.renames] at hmem
      cases hmem
    · rw [hk.renames] at hmem
      cases hmem
  · obtain ⟨hone, hlimit, -⟩ :=
      of_belowLimit hbelow hk.token hk.number hk.nonneg
    refine ⟨fun leaf' res' n' hmem _ hn' hge => ?_, fun htwo => ?_,
      fun leaf' res' hmem hrunning => ?_⟩
    · rw [hk.renames, List.mem_singleton] at hmem
      cases hmem
      rw [hk.number, Option.some.injEq] at hn'
      omega
    · rw [hone] at htwo
      exact absurd htwo (Nat.not_succ_le_self 1)
    · rw [hk.renames, List.mem_singleton] at hmem
      cases hmem
      obtain ⟨i, rfl⟩ := hk.answered
      rcases outcome_renamed (Sandbox.mem_dir_of_tokens hk.token)
        (hfresh i leaf hk.token n hk.number) with hout | ⟨hout, -⟩
      · rw [hout] at hrunning
        cases hrunning
      · rw [hout] at hrunning
        cases hrunning

/-- There is one token, whose number is not below the number of requests. -/
def Counted (cfg : Config) (job : Job) : Prop :=
  ∃ leaf n, Sandbox.tokens cfg job.dir = [leaf] ∧ numberOf cfg leaf = some n ∧
    job.requests.length ≤ n ∧ n ≤ max 0 cfg.maxReplansCount

theorem counted_next (hcast : Sandbox.CastExact cfg) (hjob : Counted cfg job)
    (h : ordinary cfg job o) (hn : next cfg job o = some job') :
    Counted cfg job' := by
  obtain ⟨leaf, n, hone, hnumber, hcount, hmax⟩ := hjob
  cases hn
  rcases comes_ordinary h with
    hk | ⟨⟨hbelow, hfresh⟩, leaf', n', res, hk, hstill, hlength⟩
  · refine ⟨leaf, n, ?_, hnumber, ?_, hmax⟩
    · rw [hk.dir]
      exact hone
    · rw [hk.requests, List.append_nil]
      exact hcount
  · obtain ⟨-, hlimit, hsmall⟩ :=
      of_belowLimit hbelow hk.token hk.number hk.nonneg
    obtain rfl : leaf' = leaf := by
      have htoken := hk.token
      rwa [hone, List.mem_singleton] at htoken
    obtain rfl : n' = n := by
      have hsame := hk.number
      rw [hnumber, Option.some.injEq] at hsame
      exact hsame.symm
    have hdir : (look cfg o job.dir).dir = dirAfter job.dir leaf' n' res := by
      rw [hk.dir, if_neg (fun hboth => absurd hboth.2 (by omega))]
    obtain ⟨i, hres⟩ := hk.answered
    have hout := outcome_renamed (Sandbox.mem_dir_of_tokens hk.token)
      (hfresh i leaf' hk.token n' hk.number)
    rw [← hres] at hout
    unfold dirAfter at hdir
    rcases hout with hmoved | ⟨hskipped, hfailed⟩
    · obtain ⟨htoken, hnext⟩ :=
        plusOne_token hcast (isTokenFile_of_mem hk.token) hk.nonneg hsmall
      rw [failed_of_moved hmoved, if_neg Bool.false_ne_true] at hdir
      refine ⟨plusOne leaf' n', n' + 1, ?_, hnext, ?_, by omega⟩
      · rw [hdir]
        exact Sandbox.tokens_rename htoken hone
      · rw [List.length_append]
        omega
    · rw [hfailed, if_pos rfl] at hdir
      refine ⟨leaf', n', ?_, hnumber, ?_, hmax⟩
      · rw [hdir]
        exact hone
      · rw [hstill (by rw [hskipped]; decide), List.append_nil]
        exact hcount

/-- The token that is removed at the limit is not the one there is. -/
theorem token_left (hcast : Sandbox.CastExact cfg)
    (hmem : (leaf, res) ∈ (look cfg o dir).renames)
    (hmoved : renameOutcome res = .moved) (hnumber : numberOf cfg leaf = some n)
    (hlimit : cfg.maxReplansCount ≤ n) (hsmall : n < Sandbox.maxExact) :
    Sandbox.tokens cfg (look cfg o dir).dir ≠ [] := by
  rcases comes_look cfg o dir with hk | ⟨leaf', n', res', hk, -, -⟩
  · rw [hk.renames] at hmem
    cases hmem
  · rw [hk.renames, List.mem_singleton] at hmem
    cases hmem
    obtain rfl : n' = n := by
      have hsame := hk.number
      rw [hnumber, Option.some.injEq] at hsame
      exact hsame.symm
    obtain ⟨htoken, hnext⟩ :=
      plusOne_token hcast (isTokenFile_of_mem hk.token) hk.nonneg hsmall
    have hne : plusOne leaf n' ≠ leaf := by
      intro heq
      rw [heq, hnumber, Option.some.injEq] at hnext
      omega
    have hthere : plusOne leaf n' ∈ (look cfg o dir).dir := by
      rw [hk.dir, if_pos ⟨hmoved, hlimit⟩, dirAfter, failed_of_moved hmoved,
        if_neg Bool.false_ne_true]
      refine (List.mem_erase_of_ne hne).mpr ?_
      unfold Sandbox.place
      split
      · next h => exact h
      · exact List.mem_cons_self
    exact List.ne_nil_of_mem (Sandbox.mem_tokens htoken hthere)

/-- Replanning stops in every run of looks that find their token below the
limit: every one of them is as it must be, and from token 0 on there are no
more requests than the limit allows. A look that does find the limit reached
leaves a token, in whatever run. -/
theorem stops_below_limit (cfg : Config) (hcast : Sandbox.CastExact cfg)
    (dir : List Text) (os : List (Oracle Call Answer))
    (hok : Meets (next cfg) (ordinary cfg) ⟨dir, []⟩ os) :
    (∀ p ∈ steps (next cfg) ⟨dir, []⟩ os,
      Stops cfg p.1.dir (look cfg p.2 p.1.dir)) ∧
    (∀ leaf job, Sandbox.tokens cfg dir = [leaf] → numberOf cfg leaf = some 0 →
      run (next cfg) ⟨dir, []⟩ os = some job →
      (job.requests.length : ℤ) ≤ max 0 cfg.maxReplansCount) ∧
    ∀ o dir' leaf res n, (leaf, res) ∈ (look cfg o dir').renames →
      renameOutcome res = .moved → numberOf cfg leaf = some n →
      cfg.maxReplansCount ≤ n → n < Sandbox.maxExact →
      Sandbox.tokens cfg (look cfg o dir').dir ≠ [] := by
  refine ⟨fun p hp => stops_of_ordinary (hok p hp),
    fun leaf job hone hnumber hrun => ?_,
    fun _ _ _ _ _ hmem hmoved hnumber => token_left hcast hmem hmoved hnumber⟩
  have hstart : Counted cfg ⟨dir, []⟩ :=
    ⟨leaf, 0, hone, hnumber, Int.le_refl 0, by omega⟩
  have hcounted : Counted cfg job :=
    run_invariant (fun s l s' hs hok hn => counted_next hcast hs hok hn)
      hstart hok hrun
  obtain ⟨-, n, -, -, hcount, hmax⟩ := hcounted
  omega

/-! ## Looks that do not stop -/

/-- A job on a CREAM computing element; a renaming succeeds, with an error
number from before. -/
def sampleLook (errno : Errno) : Oracle Call Answer := fun _ c =>
  match c with
  | .rename _ _ => ⟨false, errno⟩
  | c =>
      sampleAnswers (sampleState .start) .scheduled
        [⟨.networkServer, 0, .enQueued .ok "wm" (.ad Sandbox.sampleJob) ""⟩,
          ⟨.workloadManager, 1, .match_ "ce/cream-q".toList⟩] [] c

/-- At the limit a request goes out all the same, and so it does from two
tokens; after an earlier ENOENT a job is taken for running though its token
was there; and from token 0 on there is one request more than allowed. -/
theorem not_stops_sampleLook :
    ¬ Stops sampleConfig [Sandbox.tok sampleConfig 5]
        (look sampleConfig (sampleLook .eagain) [Sandbox.tok sampleConfig 5]) ∧
      ¬ Stops sampleConfig [Sandbox.tok sampleConfig 0, Sandbox.tok sampleConfig 1]
        (look sampleConfig (sampleLook .eagain)
          [Sandbox.tok sampleConfig 0, Sandbox.tok sampleConfig 1]) ∧
      ¬ Stops sampleConfig [Sandbox.tok sampleConfig 0]
        (look sampleConfig (sampleLook .enoent) [Sandbox.tok sampleConfig 0]) ∧
      (run (next sampleConfig) ⟨[Sandbox.tok sampleConfig 0], []⟩
        (List.replicate 6 (sampleLook .eagain))).map
          (fun job => job.requests.length) = some 6 := by
  refine ⟨fun h => ?_, fun h => ?_, fun h => ?_, by decide +kernel⟩
  · have hlimit := h.atLimit (Sandbox.tok sampleConfig 5) ⟨false, .eagain⟩ 5
      (by decide +kernel) rfl rfl (by decide)
    exact absurd (congrArg List.length hlimit.2.1) (by decide +kernel)
  · exact absurd (congrArg List.length (h.twoTokens (by decide)))
      (by decide +kernel)
  · have hrunning := h.running (Sandbox.tok sampleConfig 0) ⟨false, .enoent⟩
      (by decide +kernel) rfl
    exact absurd hrunning.1 (by decide)

/-- Five of them are in order. -/
theorem stops_below_limit_sampleLook :
    ∃ job, run (next sampleConfig) ⟨[Sandbox.tok sampleConfig 0], []⟩
        (List.replicate 5 (sampleLook .eagain)) = some job ∧
      job.requests.length = 5 ∧
      (job.requests.length : ℤ) ≤ max 0 sampleConfig.maxReplansCount := by
  have hbelow : ((steps (next sampleConfig) ⟨[Sandbox.tok sampleConfig 0], []⟩
      (List.replicate 5 (sampleLook .eagain))).all fun p =>
        belowLimit sampleConfig p.1.dir) = true := by decide +kernel
  have hlength : (run (next sampleConfig) ⟨[Sandbox.tok sampleConfig 0], []⟩
      (List.replicate 5 (sampleLook .eagain))).map
        (fun job => job.requests.length) = some 5 := by decide +kernel
  have hok : Meets (next sampleConfig) (ordinary sampleConfig)
      ⟨[Sandbox.tok sampleConfig 0], []⟩
      (List.replicate 5 (sampleLook .eagain)) := by
    intro p hp
    refine fun _ => ⟨List.all_eq_true.mp hbelow p hp, fun i leaf _ n _ => ?_⟩
    rw [List.eq_of_mem_replicate (label_mem_of_steps hp)]
    exact Errno.noConfusion
  obtain ⟨job, hrun, hjob⟩ := Option.map_eq_some_iff.mp hlength
  exact ⟨job, hrun, hjob, (stops_below_limit sampleConfig
    Sandbox.castExact_sampleConfig [Sandbox.tok sampleConfig 0] _ hok).2.1
      (Sandbox.tok sampleConfig 0) job rfl rfl hrun⟩

end Wms.Core.Replans
