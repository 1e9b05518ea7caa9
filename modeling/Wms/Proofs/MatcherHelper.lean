import Mathlib.Data.List.Forall2
import Mathlib.Order.WithBot
import Wms.Core.MatcherHelper
import Wms.Proofs.Broker

/-!
# The matcher answers with the best ranked matches

A rank that is undefined is below all others. Without input data the entries
that cannot be ranked are erased before the table is sorted; with input data
they stay in the table, with the rank 0 that they had when they were put there.
-/

namespace Wms.Core.MatcherHelper

open Wms.Lib Wms.Core Matchmaking Broker

/-! ## The best first -/

section
variable {Ad K : Type} [LinearOrder K]

/-- By rank from the greatest down, and by id where ranks are equal. -/
def Precedes (rankOf : Text × Ad → WithBot K) (a b : Text × Ad) : Prop :=
  rankOf b < rankOf a ∨ rankOf a = rankOf b ∧ a.1 < b.1

/-- So many of what has been found, the best ranked. -/
structure BestFirst (rankOf : Text × Ad → WithBot K) (numberOfResults : Option ℕ)
    (found result : List (Text × Ad)) : Prop where
  sorted : ∃ all : List (Text × Ad), all.Perm found ∧
    all.Pairwise (Precedes rankOf) ∧ result.Sublist all
  length : result.length =
    (numberOfResults.map (min · found.length)).getD found.length
  undefined_last : result.Pairwise fun a b => rankOf a = ⊥ → rankOf b = ⊥
  head : ∀ a ∈ result.head?, ∀ b ∈ found, rankOf b ≤ rankOf a

/-- The first results of a list, for a number that is not negative. -/
theorem firstResults_cast {α : Type} (n : Option ℕ) (l : List α) :
    firstResults (n.map Nat.cast) l = (n.map l.take).getD l := by
  cases n with
  | none => rfl
  | some n =>
      show (if (n : ℤ) = -1 then l else l.take (n : ℤ).toNat) = l.take n
      rw [if_neg (by omega), Int.toNat_natCast]

variable {rankOf : Text × Ad → WithBot K} {found all : List (Text × Ad)}

theorem bestFirst_firstResults (hperm : all.Perm found)
    (hsorted : all.Pairwise (Precedes rankOf)) (n : Option ℕ) :
    BestFirst rankOf n found (firstResults (n.map Nat.cast) all) := by
  rw [firstResults_cast]
  have hsublist : ((n.map all.take).getD all).Sublist all := by
    cases n with
    | none => exact List.Sublist.refl _
    | some n => exact List.take_sublist n all
  refine ⟨⟨all, hperm, hsorted, hsublist⟩, ?_, ?_, fun a ha b hb => ?_⟩
  · rw [← hperm.length_eq]
    cases n with
    | none => rfl
    | some n => exact List.length_take
  · refine (hsorted.sublist hsublist).imp fun {a b} hab ha => ?_
    rcases hab with hlt | ⟨heq, -⟩
    · rw [ha] at hlt
      exact absurd hlt not_lt_bot
    · rw [← heq, ha]
  · -- the first of the results is the first of all
    have hhead : all.head? = some a := by
      cases n with
      | none => exact ha
      | some n =>
          have htake : (all.take n).head? = some a := ha
          rw [List.head?_take] at htake
          split at htake
          · cases htake
          · exact htake
    obtain ⟨rest, rfl⟩ := List.head?_eq_some_iff.mp hhead
    rcases List.mem_cons.mp (hperm.mem_iff.mpr hb) with rfl | hb
    · exact le_refl _
    · rcases (List.pairwise_cons.mp hsorted).1 b hb with hlt | ⟨heq, -⟩
      · exact hlt.le
      · exact heq.ge

end

/-! ## What is found, and what is said of it -/

section
variable {CeAd SeAd Jdl K B : Type} [Zero K] [LinearOrder K]
  (L : Libraries CeAd Jdl K) (S : StorageAds SeAd) (D : DataAttributes Jdl)
  (R : Requests CeAd Jdl B) (partition : Partition (Text × StorageInfo))
  (ceIsm : Ism CeAd) (seIsm : Ism SeAd) (jdl : Jdl)

/-- The rank of a computing element for a job. -/
def rankOf (x : Text × CeAd) : WithBot K := (L.rightRank x.2 jdl : Option K)

/-- What the brokers take of an entry of the match table. -/
def candidate (e : Text × MatchInfo CeAd K) : Text × CeAd := (e.1, e.2.ad)

/-- The matches of a job that has to do with data, before those with the most
files are selected. -/
def closeCEs (sm : StorageMapping) : Matchtable CeAd K :=
  checkRequirementIn L ceIsm jdl (extractComputingElementsId
    (selectCompatibleStorage sm (D.dataAccessProtocol jdl))) .empty

/-- What the table says of a computing element in the answer. -/
def Tells (x : Text × CeAd) (host : CeInfo K B) : Prop :=
  R.glueCEUniqueID x.2 = some host.ceId ∧
    ∀ r, L.rightRank x.2 jdl = some r → host.rank = r

/-- The answer has the best of what has been found. -/
def AnswersBest (n : Option ℕ) (found : List (Text × CeAd))
    (answer : Option (Answer K B)) : Prop :=
  ∃ result hosts, answer = some ⟨ok, hosts⟩ ∧
    BestFirst (rankOf L jdl) n found result ∧
    List.Forall₂ (Tells L R jdl) result hosts

/-- The answer is the same for all jobs: an error where no match can be ranked,
else the best of all matches. -/
def AnswersUniformly (n : Option ℕ) (found : List (Text × CeAd))
    (answer : Option (Answer K B)) : Prop :=
  ((∀ x ∈ found, rankOf L jdl x = ⊥) → answer = some ⟨rankingErrorWhat, []⟩) ∧
  ((∃ x ∈ found, rankOf L jdl x ≠ ⊥) → AnswersBest L R jdl n found answer)

/-- The answers that have no results. -/
def AnswersWithout (found : List (Text × CeAd)) (answer : Option (Answer K B)) :
    Prop :=
  (found = [] → answer = some ⟨noMatchingResources, []⟩) ∧
  (found ≠ [] → (∀ x ∈ found, rankOf L jdl x = ⊥) →
    answer = some ⟨rankingErrorWhat, []⟩)

end

/-! ## Ranked tables -/

section
variable {CeAd Jdl K B : Type} {L : Libraries CeAd Jdl K}
  {R : Requests CeAd Jdl B} {jdl : Jdl}

/-- Ranking changes neither ids nor ads. -/
theorem candidates_rankedTable (L : Libraries CeAd Jdl K) (jdl : Jdl)
    (t : Matchtable CeAd K) :
    (rankedTable L jdl t).entries.map candidate = t.entries.map candidate := by
  refine (List.map_map).trans (List.map_congr_left fun e _ => ?_)
  show (e.1, (((L.rightRank e.2.ad jdl).map (setRank e.2)).getD e.2).ad) = _
  cases L.rightRank e.2.ad jdl <;> rfl

/-- The selection by the number of files looks at ids only. -/
theorem keepMaxFiles_rankedTable {D : DataAttributes Jdl}
    {partition : Partition (Text × StorageInfo)}
    (storage : List (Text × StorageInfo)) (t : Matchtable CeAd K) :
    keepMaxFiles D partition jdl storage (rankedTable L jdl t) =
      rankedTable L jdl (keepMaxFiles D partition jdl storage t) := by
  have hids : (rankedTable L jdl t).entries.map Prod.fst =
      t.entries.map Prod.fst := by
    unfold rankedTable OrderedMap.mapValues
    rw [List.map_map]
    rfl
  unfold keepMaxFiles
  rw [hids]
  dsimp only
  split
  · rfl
  · refine OrderedMap.ext_mem fun e => ?_
    unfold rankedTable
    rw [OrderedMap.mem_filter, OrderedMap.mem_mapValues, OrderedMap.mem_mapValues]
    constructor
    · rintro ⟨⟨x, hx, rfl⟩, hkeep⟩
      exact ⟨x, OrderedMap.mem_filter.mpr ⟨hx, hkeep⟩, rfl⟩
    · rintro ⟨x, hx, rfl⟩
      obtain ⟨hx, hkeep⟩ := OrderedMap.mem_filter.mp hx
      exact ⟨⟨x, hx, rfl⟩, hkeep⟩

theorem mem_of_keepMaxFiles {D : DataAttributes Jdl}
    {partition : Partition (Text × StorageInfo)}
    {storage : List (Text × StorageInfo)} {t : Matchtable CeAd K}
    {e : Text × MatchInfo CeAd K} (h : e ∈ keepMaxFiles D partition jdl storage t) :
    e ∈ t := by
  unfold keepMaxFiles at h
  dsimp only at h
  split at h
  · exact h
  · exact (OrderedMap.mem_filter.mp h).1

variable [Zero K] {ism : Ism CeAd} {t : Matchtable CeAd K}

/-- The table has the ranks there are, and 0 for what has none. -/
def Ranked (L : Libraries CeAd Jdl K) (jdl : Jdl) (t : Matchtable CeAd K) : Prop :=
  ∀ e ∈ t, e.2.rank = (L.rightRank e.2.ad jdl).getD 0

theorem ranked_rankedTable (ht : FromIsm ism t) :
    Ranked L jdl (rankedTable L jdl t) := by
  intro e he
  obtain ⟨x, hx, rfl⟩ := OrderedMap.mem_mapValues.mp he
  obtain ⟨y, -, rfl⟩ := ht x hx
  dsimp only [drawn, unranked]
  cases hr : L.rightRank y.2.ad jdl with
  | none =>
      show (0 : K) = (L.rightRank y.2.ad jdl).getD 0
      rw [hr]
      rfl
  | some r =>
      show r = (L.rightRank y.2.ad jdl).getD 0
      rw [hr]
      rfl

/-- What is in a ranked table is from the ISM. -/
theorem ad_of_mem_rankedTable (ht : FromIsm ism t) {e : Text × MatchInfo CeAd K}
    (he : e ∈ rankedTable L jdl t) : ∃ x ∈ ism, candidate e = (x.1, x.2.ad) := by
  have hmem : candidate e ∈ (rankedTable L jdl t).entries.map candidate :=
    List.mem_map_of_mem he
  rw [candidates_rankedTable] at hmem
  obtain ⟨e', he', heq⟩ := List.mem_map.mp hmem
  obtain ⟨x, hx, rfl⟩ := ht e' he'
  exact ⟨x, hx, heq.symm⟩

theorem hasId_of_mem_rankedTable (hids : ∀ x ∈ ism, R.glueCEUniqueID x.2.ad ≠ none)
    (ht : FromIsm ism t) {e : Text × MatchInfo CeAd K}
    (he : e ∈ rankedTable L jdl t) : R.glueCEUniqueID e.2.ad ≠ none := by
  obtain ⟨x, hx, heq⟩ := ad_of_mem_rankedTable ht he
  have had : e.2.ad = x.2.ad := congrArg Prod.snd heq
  rw [had]
  exact hids x hx

/-- What the flag says once the table is ranked. -/
theorem isRankUndefined_ranked (ht : FromIsm ism t) {e : Text × MatchInfo CeAd K}
    (he : e ∈ rankedTable L jdl t) :
    (!isRankUndefined e.2) = true ↔ rankOf L jdl (candidate e) ≠ ⊥ := by
  obtain ⟨x, hx, rfl⟩ := OrderedMap.mem_mapValues.mp he
  obtain ⟨y, -, rfl⟩ := ht x hx
  dsimp only [drawn, unranked]
  cases hr : L.rightRank y.2.ad jdl with
  | none =>
      refine iff_of_false Bool.false_ne_true (not_not_intro ?_)
      exact hr
  | some r =>
      refine iff_of_true rfl ?_
      show rankOf L jdl (y.1, y.2.ad) ≠ ⊥
      unfold rankOf
      rw [hr]
      exact WithBot.coe_ne_bot

theorem ceinfo_tells (data : Option (FileMapping × StorageMapping))
    {e : Text × MatchInfo CeAd K} (he : e ∈ t) (ht : Ranked L jdl t)
    (hid : R.glueCEUniqueID e.2.ad ≠ none) :
    ∃ host, ceinfo R jdl data e = some host ∧ Tells L R jdl (candidate e) host := by
  obtain ⟨ceId, hid⟩ := Option.ne_none_iff_exists'.mp hid
  unfold ceinfo
  rw [hid]
  refine ⟨_, rfl, hid, fun r hr => ?_⟩
  show e.2.rank = r
  rw [ht e he, show L.rightRank e.2.ad jdl = some r from hr]
  rfl

/-- All results are written where all ads have an id. -/
theorem mapM_ceinfo (data : Option (FileMapping × StorageMapping))
    {es : List (Text × MatchInfo CeAd K)} (hes : ∀ e ∈ es, e ∈ t)
    (ht : Ranked L jdl t) (hids : ∀ e ∈ t, R.glueCEUniqueID e.2.ad ≠ none) :
    ∃ hosts, es.mapM (ceinfo R jdl data) = some hosts ∧
      List.Forall₂ (Tells L R jdl) (es.map candidate) hosts := by
  induction es with
  | nil => exact ⟨[], rfl, .nil⟩
  | cons e es ih =>
      obtain ⟨hosts, hhosts, htells⟩ :=
        ih fun e he => hes e (List.mem_cons_of_mem _ he)
      have he := hes e List.mem_cons_self
      obtain ⟨host, hhost, htell⟩ := ceinfo_tells data he ht (hids e he)
      refine ⟨host :: hosts, ?_, .cons htell htells⟩
      rw [List.mapM_cons, hhost, hhosts]
      rfl

end

/-! ## Sorted tables -/

section
variable {CeAd Jdl K : Type} [Zero K] [LinearOrder K] {L : Libraries CeAd Jdl K}
  {jdl : Jdl} {t : Matchtable CeAd K}

instance : IsTrans (Text × MatchInfo CeAd K) rankGreaterThan :=
  ⟨fun _ _ _ hab hbc => le_trans hbc hab⟩

instance : Std.Total (rankGreaterThan : Text × MatchInfo CeAd K → _ → Prop) :=
  ⟨fun a b => le_total b.2.rank a.2.rank⟩

/-- The rank 0 of what cannot be ranked comes behind all ranks. -/
def Separated (L : Libraries CeAd Jdl K) (jdl : Jdl) (found : List (Text × CeAd)) :
    Prop :=
  (∀ x ∈ found, rankOf L jdl x ≠ ⊥) ∨
    ∀ x ∈ found, ∀ r, L.rightRank x.2 jdl = some r → 0 < r

theorem precedes_of_stably (ht : Ranked L jdl t)
    (hsep : Separated L jdl (t.entries.map candidate))
    {a b : Text × MatchInfo CeAd K} (ha : a ∈ t) (hb : b ∈ t)
    (h : Stably rankGreaterThan (fun a b => a.1 < b.1) a b) :
    Precedes (rankOf L jdl) (candidate a) (candidate b) := by
  obtain ⟨hle, hties⟩ := h
  unfold rankGreaterThan at hle hties
  rw [ht a ha, ht b hb] at hle hties
  unfold Precedes rankOf candidate
  dsimp only
  cases hra : L.rightRank a.2.ad jdl with
  | none =>
      cases hrb : L.rightRank b.2.ad jdl with
      | none =>
          rw [hra, hrb] at hties
          exact .inr ⟨rfl, hties (le_refl _)⟩
      | some r =>
          rw [hra, hrb] at hle
          rcases hsep with hall | hpos
          · exact absurd hra (hall _ (List.mem_map_of_mem ha))
          · exact absurd hle (not_le.mpr (hpos _ (List.mem_map_of_mem hb) r hrb))
  | some q =>
      cases hrb : L.rightRank b.2.ad jdl with
      | none => exact .inl (WithBot.bot_lt_coe q)
      | some r =>
          rw [hra, hrb] at hle hties
          rcases lt_or_eq_of_le hle with hlt | heq
          · exact .inl (WithBot.coe_lt_coe.mpr hlt)
          · cases heq
            exact .inr ⟨rfl, hties (le_refl _)⟩

theorem bestFirst_sort (ht : Ranked L jdl t)
    (hsep : Separated L jdl (t.entries.map candidate)) (n : Option ℕ) :
    BestFirst (rankOf L jdl) n (t.entries.map candidate)
      ((firstResults (n.map Nat.cast) (t.entries.insertionSort rankGreaterThan)).map
        candidate) := by
  have hperm := List.perm_insertionSort rankGreaterThan t.entries
  have hsorted : ((t.entries.insertionSort rankGreaterThan).map candidate).Pairwise
      (Precedes (rankOf L jdl)) := by
    refine List.pairwise_map.mpr ?_
    refine (pairwise_insertionSort_stably t.sorted).imp_of_mem ?_
    intro a b ha hb h
    exact precedes_of_stably ht hsep (hperm.mem_iff.mp ha) (hperm.mem_iff.mp hb) h
  have hfirst := bestFirst_firstResults (hperm.map candidate) hsorted n
  rw [firstResults_cast] at hfirst ⊢
  cases n with
  | none => exact hfirst
  | some n =>
      rw [Option.map_some, Option.getD_some, ← List.map_take] at hfirst
      exact hfirst

variable {ism : Ism CeAd}

theorem candidates_filter (ht : FromIsm ism t) :
    ((rankedTable L jdl t).filter fun e => !isRankUndefined e.2).entries.map
        candidate =
      (t.entries.map candidate).filter fun x => rankOf L jdl x ≠ ⊥ := by
  rw [← candidates_rankedTable L jdl t, List.filter_map]
  refine congrArg (List.map candidate) (List.filter_congr fun e he => ?_)
  rw [Bool.eq_iff_iff, isRankUndefined_ranked ht he]
  exact decide_eq_true_iff.symm

end

/-! ## Answers -/

section
variable {CeAd SeAd Jdl K B : Type} [Zero K] [LinearOrder K]
  {L : Libraries CeAd Jdl K} {S : StorageAds SeAd} {D : DataAttributes Jdl}
  {R : Requests CeAd Jdl B} {partition : Partition (Text × StorageInfo)}
  {ceIsm : Ism CeAd} {seIsm : Ism SeAd} {jdl : Jdl} {t : Matchtable CeAd K}
  {data : Option (FileMapping × StorageMapping)} {n : Option ℕ}

theorem resolveDoMatch_of_empty
    (h : findSuitableCEs L S D R partition ceIsm seIsm jdl = .ok (t, data))
    (hvo : R.virtualOrganisation jdl ≠ none) (hempty : t.entries = []) :
    resolveDoMatch L S D R partition ceIsm seIsm jdl =
      some ⟨noMatchingResources, []⟩ := by
  obtain ⟨vo, hvo⟩ := Option.ne_none_iff_exists'.mp hvo
  unfold resolveDoMatch
  rw [h]
  dsimp only
  rw [hvo]
  dsimp only
  rw [if_pos (List.isEmpty_iff.mpr hempty)]

theorem resolveDoMatch_of_error
    (h : findSuitableCEs L S D R partition ceIsm seIsm jdl =
      .error (.matchMaking .rankingError)) :
    resolveDoMatch L S D R partition ceIsm seIsm jdl =
      some ⟨rankingErrorWhat, []⟩ := by
  unfold resolveDoMatch
  rw [h]

theorem answersBest_of_ok
    (h : findSuitableCEs L S D R partition ceIsm seIsm jdl = .ok (t, data))
    (hvo : R.virtualOrganisation jdl ≠ none)
    (hn : R.numberOfResults jdl = n.map Nat.cast)
    (hids : ∀ e ∈ t, R.glueCEUniqueID e.2.ad ≠ none) (hne : t.entries ≠ [])
    (ht : Ranked L jdl t) (hsep : Separated L jdl (t.entries.map candidate)) :
    AnswersBest L R jdl n (t.entries.map candidate)
      (resolveDoMatch L S D R partition ceIsm seIsm jdl) := by
  obtain ⟨vo, hvo⟩ := Option.ne_none_iff_exists'.mp hvo
  have hmem : ∀ e ∈ firstResults (n.map Nat.cast)
      (t.entries.insertionSort rankGreaterThan), e ∈ t := by
    intro e he
    refine (List.perm_insertionSort rankGreaterThan t.entries).mem_iff.mp ?_
    rw [firstResults_cast] at he
    cases n with
    | none => exact he
    | some n => exact List.mem_of_mem_take he
  obtain ⟨hosts, hhosts, htells⟩ := mapM_ceinfo data hmem ht hids
  refine ⟨_, hosts, ?_, bestFirst_sort ht hsep n, htells⟩
  unfold resolveDoMatch
  rw [h]
  dsimp only
  rw [hvo]
  dsimp only
  rw [if_neg (mt List.isEmpty_iff.mp hne), hn, hhosts]
  rfl

/-! A job without input data. -/

omit [LinearOrder K] in
variable (L S D partition ceIsm seIsm) in
theorem findSuitableCEs_simple (hdata : usesData R jdl = false) :
    findSuitableCEs L S D R partition ceIsm seIsm jdl =
      ((findSuitableCEsSimple L ceIsm jdl).mapError .matchMaking).map
        fun suitableCEs => (suitableCEs, none) := by
  unfold findSuitableCEs
  rw [if_neg (ne_true_of_eq_false hdata)]

/-- What has no rank is left out. -/
theorem answers_simple (hdata : usesData R jdl = false)
    (hvo : R.virtualOrganisation jdl ≠ none)
    (hn : R.numberOfResults jdl = n.map Nat.cast)
    (hids : ∀ x ∈ ceIsm, R.glueCEUniqueID x.2.ad ≠ none)
    (ht : t = checkRequirement L ceIsm jdl .empty) :
    AnswersWithout L jdl (t.entries.map candidate)
        (resolveDoMatch L S D R partition ceIsm seIsm jdl) ∧
      ((∃ x ∈ t.entries.map candidate, rankOf L jdl x ≠ ⊥) →
        AnswersBest L R jdl n
          ((t.entries.map candidate).filter fun x => rankOf L jdl x ≠ ⊥)
          (resolveDoMatch L S D R partition ceIsm seIsm jdl)) := by
  have hfrom : FromIsm ceIsm t := ht ▸ fromIsm_checkRequirement L ceIsm jdl
  have hfind := findSuitableCEs_simple L S D partition ceIsm seIsm hdata
  unfold findSuitableCEsSimple at hfind
  rw [← ht] at hfind
  refine ⟨⟨fun hempty => ?_, fun hne hnone => ?_⟩, ?_⟩
  · rw [List.map_eq_nil_iff] at hempty
    rw [checkRank_of_empty hempty] at hfind
    refine resolveDoMatch_of_empty hfind hvo ?_
    exact List.filter_eq_nil_iff.mpr fun e he => by rw [hempty] at he; cases he
  · rw [ne_eq, List.map_eq_nil_iff] at hne
    rw [checkRank_of_unrankable hne fun e he => hnone _ (List.mem_map_of_mem he)]
      at hfind
    exact resolveDoMatch_of_error hfind
  · rintro ⟨x, hx, hrank⟩
    obtain ⟨e, he, rfl⟩ := List.mem_map.mp hx
    rw [checkRank_of_rankable he hrank] at hfind
    have hall : ∀ e ∈ (rankedTable L jdl t).filter fun e => !isRankUndefined e.2,
        e ∈ rankedTable L jdl t ∧ rankOf L jdl (candidate e) ≠ ⊥ := by
      intro e he
      obtain ⟨he, hranked⟩ := OrderedMap.mem_filter.mp he
      exact ⟨he, (isRankUndefined_ranked hfrom he).mp hranked⟩
    have hbest := answersBest_of_ok hfind hvo hn ?_ ?_ ?_ ?_
    · rw [candidates_filter hfrom] at hbest
      exact hbest
    · exact fun e he => hasId_of_mem_rankedTable hids hfrom (hall e he).1
    · intro hempty
      have hmem : candidate e ∈
          (t.entries.map candidate).filter fun x => rankOf L jdl x ≠ ⊥ :=
        List.mem_filter.mpr ⟨hx, decide_eq_true hrank⟩
      rw [← candidates_filter hfrom, hempty] at hmem
      cases hmem
    · exact fun e he => ranked_rankedTable hfrom e (hall e he).1
    · refine .inl fun x hx => ?_
      obtain ⟨e, he, rfl⟩ := List.mem_map.mp hx
      exact (hall e he).2

/-! A job with input data. -/

omit [LinearOrder K] in
variable (L S D partition ceIsm seIsm) in
theorem findSuitableCEs_data (hdata : usesData R jdl = true) {sm : StorageMapping}
    (hsm : resolveStoragemappingInfo S seIsm (R.resolveFilemappingInfo jdl) =
      some sm) :
    findSuitableCEs L S D R partition ceIsm seIsm jdl =
      match checkRank L jdl (closeCEs L D ceIsm jdl sm) with
      | .error e => .error (.matchMaking e)
      | .ok suitableCEs => .ok
          (keepMaxFiles D partition jdl
            (selectCompatibleStorage sm (D.dataAccessProtocol jdl)) suitableCEs,
          some (R.resolveFilemappingInfo jdl, sm)) := by
  unfold findSuitableCEs
  rw [if_pos hdata]
  unfold Broker.findSuitableCEs closeCEs
  dsimp only
  rw [hsm]
  dsimp only
  cases checkRank L jdl (checkRequirementIn L ceIsm jdl (extractComputingElementsId
    (selectCompatibleStorage sm (D.dataAccessProtocol jdl))) .empty) <;> rfl

/-- What has no rank stays, with the rank 0. -/
theorem answers_data (hdata : usesData R jdl = true)
    (hvo : R.virtualOrganisation jdl ≠ none)
    (hn : R.numberOfResults jdl = n.map Nat.cast)
    (hids : ∀ x ∈ ceIsm, R.glueCEUniqueID x.2.ad ≠ none) {sm : StorageMapping}
    (hsm : resolveStoragemappingInfo S seIsm (R.resolveFilemappingInfo jdl) =
      some sm)
    (ht : t = keepMaxFiles D partition jdl
      (selectCompatibleStorage sm (D.dataAccessProtocol jdl))
      (closeCEs L D ceIsm jdl sm)) :
    AnswersWithout L jdl ((closeCEs L D ceIsm jdl sm).entries.map candidate)
        (resolveDoMatch L S D R partition ceIsm seIsm jdl) ∧
      ((∃ x ∈ t.entries.map candidate, rankOf L jdl x ≠ ⊥) →
        Separated L jdl (t.entries.map candidate) →
        AnswersBest L R jdl n (t.entries.map candidate)
          (resolveDoMatch L S D R partition ceIsm seIsm jdl)) := by
  have hfind := findSuitableCEs_data L S D partition ceIsm seIsm hdata hsm
  have hclose : FromIsm ceIsm (closeCEs L D ceIsm jdl sm) := by
    unfold closeCEs
    rw [checkRequirementIn_eq]
    exact fromIsm_drawnTable
  generalize closeCEs L D ceIsm jdl sm = close at hfind hclose ht ⊢
  refine ⟨⟨fun hempty => ?_, fun hne hnone => ?_⟩, ?_⟩
  · rw [List.map_eq_nil_iff] at hempty
    rw [checkRank_of_empty hempty] at hfind
    refine resolveDoMatch_of_empty hfind hvo (OrderedMap.eq_empty_iff.mpr ?_)
    exact fun e he => OrderedMap.eq_empty_iff.mp hempty e (mem_of_keepMaxFiles he)
  · rw [ne_eq, List.map_eq_nil_iff] at hne
    rw [checkRank_of_unrankable hne fun e he => hnone _ (List.mem_map_of_mem he)]
      at hfind
    exact resolveDoMatch_of_error hfind
  · rintro ⟨x, hx, hrank⟩ hsep
    obtain ⟨e, he, rfl⟩ := List.mem_map.mp hx
    have hmem : e ∈ close := mem_of_keepMaxFiles (ht ▸ he)
    rw [checkRank_of_rankable hmem hrank] at hfind
    dsimp only at hfind
    rw [keepMaxFiles_rankedTable, ← ht] at hfind
    have hfrom : FromIsm ceIsm t :=
      fun e he => hclose e (mem_of_keepMaxFiles (ht ▸ he))
    have hbest := answersBest_of_ok hfind hvo hn
      (fun e he => hasId_of_mem_rankedTable hids hfrom he) ?_
      (ranked_rankedTable hfrom) ?_
    · rw [candidates_rankedTable] at hbest
      exact hbest
    · intro hempty
      rw [← candidates_rankedTable L jdl, hempty] at hx
      cases hx
    · rw [candidates_rankedTable]
      exact hsep

end

/-! ## The two kinds of jobs -/

section
variable {CeAd SeAd Jdl K B : Type} [Zero K] [LinearOrder K]
  (L : Libraries CeAd Jdl K) (S : StorageAds SeAd) (D : DataAttributes Jdl)
  (R : Requests CeAd Jdl B) (partition : Partition (Text × StorageInfo))
  (ceIsm : Ism CeAd) (seIsm : Ism SeAd) (jdl : Jdl) (n : Option ℕ)

/-- Without data the best of the matches with a rank are answered. With data the
best of all matches are, if they all have ranks or all ranks there are positive.
No matches at all are no error, and matches without a single rank are one. -/
theorem resolveDoMatch_answers (hvo : R.virtualOrganisation jdl ≠ none)
    (hn : R.numberOfResults jdl = n.map Nat.cast)
    (hids : ∀ x ∈ ceIsm, R.glueCEUniqueID x.2.ad ≠ none) :
    (usesData R jdl = false →
      AnswersWithout L jdl
          ((checkRequirement L ceIsm jdl .empty).entries.map candidate)
          (resolveDoMatch L S D R partition ceIsm seIsm jdl) ∧
        ((∃ x ∈ (checkRequirement L ceIsm jdl .empty).entries.map candidate,
            rankOf L jdl x ≠ ⊥) →
          AnswersBest L R jdl n
            (((checkRequirement L ceIsm jdl .empty).entries.map candidate).filter
              fun x => rankOf L jdl x ≠ ⊥)
            (resolveDoMatch L S D R partition ceIsm seIsm jdl))) ∧
    (usesData R jdl = true → ∀ sm,
      resolveStoragemappingInfo S seIsm (R.resolveFilemappingInfo jdl) = some sm →
      ∀ found, found = ((keepMaxFiles D partition jdl
          (selectCompatibleStorage sm (D.dataAccessProtocol jdl))
          (closeCEs L D ceIsm jdl sm)).entries.map candidate) →
      AnswersWithout L jdl ((closeCEs L D ceIsm jdl sm).entries.map candidate)
          (resolveDoMatch L S D R partition ceIsm seIsm jdl) ∧
        ((∃ x ∈ found, rankOf L jdl x ≠ ⊥) → Separated L jdl found →
          AnswersBest L R jdl n found
            (resolveDoMatch L S D R partition ceIsm seIsm jdl))) := by
  refine ⟨fun hdata => answers_simple hdata hvo hn hids rfl, ?_⟩
  rintro hdata sm hsm found rfl
  exact answers_data hdata hvo hn hids hsm rfl

end

/-! ## Two matches, one of them without a rank -/

/-- An ad is its id, a job what it says of data; `b` has no rank. -/
def sampleRanks : Libraries Text Bool ℤ where
  leftMatchesRight := fun _ _ => true
  ceInfoHostName := fun _ => none
  previousMatches := fun _ => none
  rightRank := fun ad _ => if ad = ['b'] then none else some (-3)

def sampleRequests : Requests Text Bool Unit where
  inputDataExists := fun jdl => jdl
  dataRequirementsExist := fun _ => false
  virtualOrganisation := fun _ => some ['v', 'o']
  includeBrokerinfo := fun _ => none
  numberOfResults := fun _ => none
  glueCEUniqueID := some
  resolveFilemappingInfo := fun _ => .empty
  createBrokerinfo := fun _ _ _ => ()

def noData : DataAttributes Bool where
  dataAccessProtocol := fun _ => []
  fullListMatchResult := fun _ => none

def twoCEs : Ism Text where
  entries := [(['a'], ⟨300, ['a']⟩), (['b'], ⟨300, ['b']⟩)]
  sorted := by
    refine List.pairwise_cons.mpr ⟨fun y hy => ?_, List.pairwise_singleton _ _⟩
    rw [List.mem_singleton.mp hy]
    show (['a'] : Text) < ['b']
    decide

theorem resolveDoMatch_answers_two :
    (∃ x ∈ (checkRequirement sampleRanks twoCEs false .empty).entries.map candidate,
        rankOf sampleRanks false x ≠ ⊥) ∧
      AnswersBest sampleRanks sampleRequests false none
        (((checkRequirement sampleRanks twoCEs false .empty).entries.map
          candidate).filter fun x => rankOf sampleRanks false x ≠ ⊥)
        (resolveDoMatch sampleRanks sampleStorageAds noData sampleRequests
          (stablePartition _) twoCEs .empty false) := by
  have hsome : ∃ x ∈ (checkRequirement sampleRanks twoCEs false .empty).entries.map
      candidate, rankOf sampleRanks false x ≠ ⊥ :=
    ⟨(['a'], ['a']), List.mem_cons_self, WithBot.coe_ne_bot⟩
  refine ⟨hsome, ((resolveDoMatch_answers sampleRanks sampleStorageAds noData
    sampleRequests (stablePartition _) twoCEs .empty false none ?_ rfl ?_).1
    rfl).2 hsome⟩
  · exact Option.some_ne_none _
  · exact fun x _ => Option.some_ne_none _

/-- The match without a rank is not in the answer, which has one result. -/
theorem not_answersUniformly :
    ¬ AnswersUniformly sampleRanks sampleRequests false none
      ((checkRequirement sampleRanks twoCEs false .empty).entries.map candidate)
      (resolveDoMatch sampleRanks sampleStorageAds noData sampleRequests
        (stablePartition _) twoCEs .empty false) := by
  rintro ⟨-, hsome⟩
  obtain ⟨result, hosts, hanswer, hbest, htells⟩ :=
    hsome ⟨(['a'], ['a']), List.mem_cons_self, WithBot.coe_ne_bot⟩
  have htwo : result.length = 2 := hbest.length
  have hone : hosts.length = 1 := by
    have hrun : resolveDoMatch sampleRanks sampleStorageAds noData sampleRequests
        (stablePartition _) twoCEs .empty false =
        some ⟨ok, [⟨['a'], -3, none⟩]⟩ := rfl
    rw [hrun] at hanswer
    cases hanswer
    rfl
  have hlength := htells.length_eq
  omega

end Wms.Core.MatcherHelper
