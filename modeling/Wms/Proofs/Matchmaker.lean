import Mathlib.Data.List.TakeWhile
import Wms.Core.Matchmaker

/-!
# The two ways to look for matches

Both loops put entries of the ISM into the table, each as it is in the ISM, so
a table is known from the entries that have been put there. The loop over all
entries leaves out those that are void, and the previous matches are taken out
after it. The loop over the ids does neither: it leaves out the entries that
are marked as expired, which are only some of the void ones.
-/

namespace Wms.Core.Matchmaking

open Wms.Lib

variable {Ad Jdl K : Type} {L : Libraries Ad Jdl K} {ism : Ism Ad}
  {jdl : Jdl} {t : Matchtable Ad K} {x : Text × IsmEntry Ad}
  {e : Text × MatchInfo Ad K} {p q : Text × IsmEntry Ad → Bool}

/-! ## Previous matches -/

/-- The previous matches take out nothing, or would leave nothing. -/
theorem withoutPreviousMatches_eq_self :
    withoutPreviousMatches L jdl t = t ↔
      L.previousMatches jdl = none ∨ ∃ previous,
        L.previousMatches jdl = some previous ∧
        ((∀ e ∈ t, (L.ceInfoHostName e.2.ad).getD [] ∉ previous) ∨
          ∀ e ∈ t, (L.ceInfoHostName e.2.ad).getD [] ∈ previous) := by
  unfold withoutPreviousMatches
  cases hprevious : L.previousMatches jdl with
  | none => simp
  | some previous =>
      dsimp only
      split
      · next hempty =>
          refine iff_of_true rfl (.inr ⟨previous, rfl, .inr fun e he => ?_⟩)
          by_contra hno
          have hmem := OrderedMap.eq_empty_iff.mp (List.isEmpty_iff.mp hempty) e
          exact hmem (OrderedMap.mem_filter.mpr ⟨he, decide_eq_true hno⟩)
      · next hsome =>
          have hother : ¬ ∀ e ∈ t, (L.ceInfoHostName e.2.ad).getD [] ∈ previous := by
            intro hall
            refine hsome (List.isEmpty_iff.mpr (OrderedMap.eq_empty_iff.mpr ?_))
            intro e he
            obtain ⟨he, hno⟩ := OrderedMap.mem_filter.mp he
            exact absurd (hall e he) (of_decide_eq_true hno)
          constructor
          · intro heq
            refine .inr ⟨previous, rfl, .inl fun e he => ?_⟩
            rw [← heq] at he
            exact of_decide_eq_true (OrderedMap.mem_filter.mp he).2
          · rintro (h | ⟨previous', h, hall⟩)
            · cases h
            · cases h
              refine OrderedMap.ext_mem fun e => OrderedMap.mem_filter.trans ?_
              exact and_iff_left_of_imp fun he =>
                decide_eq_true (hall.resolve_right hother e he)

theorem mem_of_withoutPreviousMatches (h : e ∈ withoutPreviousMatches L jdl t) :
    e ∈ t := by
  unfold withoutPreviousMatches at h
  split at h
  · exact h
  · dsimp only at h
    split at h
    · exact h
    · exact (OrderedMap.mem_filter.mp h).1

/-! ## Ranks -/

/-- A table with the ranks that can be found. -/
def rankedTable (L : Libraries Ad Jdl K) (jdl : Jdl) (t : Matchtable Ad K) :
    Matchtable Ad K :=
  t.mapValues fun _ info =>
    ((L.rightRank info.ad jdl).map (setRank info)).getD info

theorem checkRank_of_empty (h : t.entries = []) : checkRank L jdl t = .ok t := by
  unfold checkRank
  rw [if_pos (List.isEmpty_iff.mpr h)]

theorem checkRank_of_unrankable (hne : t.entries ≠ [])
    (h : ∀ e ∈ t, L.rightRank e.2.ad jdl = none) :
    checkRank L jdl t = .error .rankingError := by
  unfold checkRank
  rw [if_neg (mt List.isEmpty_iff.mp hne), if_pos]
  exact List.all_eq_true.mpr fun e he => Option.isNone_iff_eq_none.mpr (h e he)

theorem checkRank_of_rankable (he : e ∈ t) (h : L.rightRank e.2.ad jdl ≠ none) :
    checkRank L jdl t = .ok (rankedTable L jdl t) := by
  unfold checkRank
  have hne : t.entries ≠ [] := List.ne_nil_of_mem he
  rw [if_neg (mt List.isEmpty_iff.mp hne), if_neg]
  · rfl
  · intro hall
    exact h (Option.isNone_iff_eq_none.mp (List.all_eq_true.mp hall e he))

/-! ## Tables drawn from the ISM -/

variable [Zero K]

/-- An entry of the ISM in the table. -/
def drawn (x : Text × IsmEntry Ad) : Text × MatchInfo Ad K := (x.1, unranked x.2)

variable (K) in
/-- The table of the entries of a kind. -/
def drawnTable (ism : Ism Ad) (p : Text × IsmEntry Ad → Bool) : Matchtable Ad K :=
  (ism.filter p).mapValues fun _ entry => unranked entry

/-- Nothing is in the table that is not from the ISM. -/
def FromIsm (ism : Ism Ad) (t : Matchtable Ad K) : Prop :=
  ∀ e ∈ t, ∃ x ∈ ism, e = drawn x

theorem mem_drawnTable :
    e ∈ drawnTable K ism p ↔ ∃ x ∈ ism, p x = true ∧ e = drawn x := by
  refine OrderedMap.mem_mapValues.trans (exists_congr fun x => ?_)
  rw [OrderedMap.mem_filter, and_assoc]
  rfl

theorem eq_of_drawn_eq {y : Text × IsmEntry Ad} (hx : x ∈ ism) (hy : y ∈ ism)
    (h : (drawn x : Text × MatchInfo Ad K) = drawn y) : x = y :=
  OrderedMap.eq_of_key_eq hx hy
    (congrArg (fun e : Text × MatchInfo Ad K => e.1) h)

theorem drawn_mem_drawnTable (hx : x ∈ ism) :
    drawn x ∈ drawnTable K ism p ↔ p x = true := by
  rw [mem_drawnTable]
  constructor
  · rintro ⟨y, hy, hp, heq⟩
    rwa [eq_of_drawn_eq hx hy heq]
  · exact fun hp => ⟨x, hx, hp, rfl⟩

theorem fromIsm_drawnTable : FromIsm ism (drawnTable K ism p) := by
  intro e he
  obtain ⟨x, hx, -, rfl⟩ := mem_drawnTable.mp he
  exact ⟨x, hx, rfl⟩

/-- Putting an entry there changes no other. -/
theorem mem_set_drawn (ht : FromIsm ism t) (hx : x ∈ ism) :
    e ∈ t.set x.1 (unranked x.2) ↔ e = drawn x ∨ e ∈ t := by
  rw [OrderedMap.mem_set]
  constructor
  · exact fun h => h.imp_right And.left
  · rintro (h | h)
    · exact .inl h
    · by_cases hkey : e.1 = x.1
      · obtain ⟨y, hy, rfl⟩ := ht e h
        rw [OrderedMap.eq_of_key_eq hy hx hkey]
        exact .inl rfl
      · exact .inr ⟨h, hkey⟩

theorem fromIsm_set (ht : FromIsm ism t) (hx : x ∈ ism) :
    FromIsm ism (t.set x.1 (unranked x.2)) := by
  intro e he
  rcases (mem_set_drawn ht hx).mp he with rfl | he
  · exact ⟨x, hx, rfl⟩
  · exact ht e he

/-! ## The loops -/

/-- An entry that is not expired and meets the requirements. -/
def valid (L : Libraries Ad Jdl K) (jdl : Jdl) (x : Text × IsmEntry Ad) : Bool :=
  x.2.expiryTime ≠ -1 && L.leftMatchesRight x.2.ad jdl

/-- Nor is it void. -/
def suits (L : Libraries Ad Jdl K) (jdl : Jdl) (x : Text × IsmEntry Ad) : Bool :=
  !isVoidIsmEntry x.2 && valid L jdl x

theorem addIfValid_of_valid (h : valid L jdl x = true) (t : Matchtable Ad K) :
    addIfValid L jdl x t = t.set x.1 (unranked x.2) := by
  unfold valid at h
  rw [Bool.and_eq_true, decide_eq_true_eq] at h
  unfold addIfValid
  rw [if_pos h.1, if_pos h.2]

theorem addIfValid_of_not_valid (h : valid L jdl x = false)
    (t : Matchtable Ad K) : addIfValid L jdl x t = t := by
  unfold addIfValid
  split
  · next hexpired =>
      split
      · next hmatches =>
          unfold valid at h
          rw [hmatches, Bool.and_true, decide_eq_false_iff_not] at h
          exact absurd hexpired h
      · rfl
  · rfl

variable (L jdl) in
theorem addIfValid_spec (ht : FromIsm ism t) (hx : x ∈ ism) :
    FromIsm ism (addIfValid L jdl x t) ∧
      ∀ e, e ∈ addIfValid L jdl x t ↔
        e ∈ t ∨ valid L jdl x = true ∧ e = drawn x := by
  cases hvalid : valid L jdl x with
  | true =>
      rw [addIfValid_of_valid hvalid]
      refine ⟨fromIsm_set ht hx, fun e => (mem_set_drawn ht hx).trans ?_⟩
      rw [or_comm]
      exact or_congr_right ⟨fun h => ⟨rfl, h⟩, And.right⟩
  | false =>
      rw [addIfValid_of_not_valid hvalid]
      exact ⟨ht, fun e => ⟨.inl, fun h => h.resolve_right
        fun hv => absurd hv.1 Bool.false_ne_true⟩⟩

variable (L jdl) in
theorem requirementLoop_spec {es : List (Text × IsmEntry Ad)}
    (hes : ∀ x ∈ es, x ∈ ism) (ht : FromIsm ism t) :
    FromIsm ism (requirementLoop L jdl es t) ∧
      ∀ e, e ∈ requirementLoop L jdl es t ↔
        e ∈ t ∨ ∃ x ∈ es, suits L jdl x = true ∧ e = drawn x := by
  induction es generalizing t with
  | nil => exact ⟨ht, fun e => by simp [requirementLoop]⟩
  | cons x es ih =>
      have hrest := fun y hy => hes y (List.mem_cons_of_mem x hy)
      unfold requirementLoop
      cases hvoid : isVoidIsmEntry x.2 with
      | true =>
          obtain ⟨hfrom, hmem⟩ := ih hrest ht
          refine ⟨hfrom, fun e => (hmem e).trans ?_⟩
          simp [suits, hvoid]
      | false =>
          obtain ⟨hadd, hmemAdd⟩ :=
            addIfValid_spec L jdl ht (hes x List.mem_cons_self)
          obtain ⟨hfrom, hmem⟩ := ih hrest hadd
          refine ⟨hfrom, fun e => (hmem e).trans ?_⟩
          rw [hmemAdd, or_assoc]
          simp [suits, hvoid]

variable (L jdl) in
/-- Searching on behind every hit finds all there are. -/
theorem restrictedLoop_spec (ceId : Text) {es : List (Text × IsmEntry Ad)}
    (hes : ∀ x ∈ es, x ∈ ism) (ht : FromIsm ism t) :
    FromIsm ism (restrictedLoop L jdl ceId es t) ∧
      ∀ e, e ∈ restrictedLoop L jdl ceId es t ↔
        e ∈ t ∨ ∃ x ∈ es, startsWith ceId x = true ∧ valid L jdl x = true ∧
          e = drawn x := by
  induction es, t using restrictedLoop.induct L jdl ceId with
  | case1 es t hnone =>
      rw [restrictedLoop]
      split
      · refine ⟨ht, fun e => ⟨.inl, fun h => h.resolve_right ?_⟩⟩
        rintro ⟨x, hx, hstarts, -⟩
        have hall := List.dropWhile_eq_nil_iff.mp hnone x hx
        rw [hstarts] at hall
        cases hall
      · next h =>
          rw [hnone] at h
          cases h
  | case2 es t x rest hsome ih =>
      have hsuffix := List.dropWhile_suffix (l := es) (!startsWith ceId ·)
      rw [hsome] at hsuffix
      have hx : x ∈ es := hsuffix.subset List.mem_cons_self
      have hrest : ∀ y ∈ rest, y ∈ es :=
        fun y hy => hsuffix.subset (List.mem_cons_of_mem x hy)
      have hstarts : startsWith ceId x = true := by
        have hhead := List.head?_dropWhile_not (!startsWith ceId ·) es
        rw [hsome] at hhead
        simpa using hhead
      -- what is passed over does not begin with the id
      have hsplit : ∀ y ∈ es, startsWith ceId y = true → y = x ∨ y ∈ rest := by
        intro y hy hys
        rw [← List.takeWhile_append_dropWhile (p := (!startsWith ceId ·)) (l := es),
          hsome] at hy
        rcases List.mem_append.mp hy with hy | hy
        · have hpassed := List.mem_takeWhile_imp hy
          rw [hys] at hpassed
          cases hpassed
        · exact List.mem_cons.mp hy
      obtain ⟨hadd, hmemAdd⟩ :=
        addIfValid_spec L jdl ht (hes x hx)
      obtain ⟨hfrom, hmem⟩ := ih (fun y hy => hes y (hrest y hy)) hadd
      have heq : restrictedLoop L jdl ceId es t =
          restrictedLoop L jdl ceId rest (addIfValid L jdl x t) := by
        rw [restrictedLoop]
        split
        · next h =>
            rw [hsome] at h
            cases h
        · next h =>
            rw [hsome] at h
            cases h
            rfl
      rw [heq]
      refine ⟨hfrom, fun e => (hmem e).trans ?_⟩
      rw [hmemAdd, or_assoc]
      refine or_congr_right ⟨?_, ?_⟩
      · rintro (⟨hvalid, rfl⟩ | ⟨y, hy, h⟩)
        · exact ⟨x, hx, hstarts, hvalid, rfl⟩
        · exact ⟨y, hrest y hy, h⟩
      · rintro ⟨y, hy, hys, hvalid, rfl⟩
        rcases hsplit y hy hys with rfl | hy
        · exact .inl ⟨hvalid, rfl⟩
        · exact .inr ⟨y, hy, hys, hvalid, rfl⟩

/-! ## Both ways as tables -/

/-- The id of the entry begins with one of the set. -/
def begins (ceIds : OrderedMap Text Unit) (x : Text × IsmEntry Ad) : Bool :=
  ceIds.entries.any fun ceId => startsWith ceId.1 x

theorem checkRequirement_eq (L : Libraries Ad Jdl K) (ism : Ism Ad) (jdl : Jdl) :
    checkRequirement L ism jdl .empty =
      withoutPreviousMatches L jdl (drawnTable K ism (suits L jdl)) := by
  refine congrArg (withoutPreviousMatches L jdl) (OrderedMap.ext_mem fun e => ?_)
  have hempty : FromIsm ism (.empty : Matchtable Ad K) :=
    fun e he => absurd he OrderedMap.not_mem_empty
  rw [(requirementLoop_spec L jdl (fun _ h => h) hempty).2 e, mem_drawnTable]
  exact or_iff_right OrderedMap.not_mem_empty

theorem fromIsm_checkRequirement (L : Libraries Ad Jdl K) (ism : Ism Ad)
    (jdl : Jdl) : FromIsm ism (checkRequirement L ism jdl .empty) := by
  rw [checkRequirement_eq]
  exact fun e he => fromIsm_drawnTable e (mem_of_withoutPreviousMatches he)

theorem checkRequirementIn_eq (L : Libraries Ad Jdl K) (ism : Ism Ad) (jdl : Jdl)
    (ceIds : OrderedMap Text Unit) :
    checkRequirementIn L ism jdl ceIds .empty =
      drawnTable K ism fun x => begins ceIds x && valid L jdl x := by
  have hloop : ∀ (ids : List (Text × Unit)) (t : Matchtable Ad K), FromIsm ism t →
      ∀ e, e ∈ ids.foldl (fun t ceId => restrictedLoop L jdl ceId.1 ism.entries t) t ↔
        e ∈ t ∨ ∃ x ∈ ism, (ids.any fun ceId => startsWith ceId.1 x) = true ∧
          valid L jdl x = true ∧ e = drawn x := by
    intro ids
    induction ids with
    | nil => exact fun t _ e => by simp
    | cons ceId ids ih =>
        intro t ht e
        obtain ⟨hfrom, hmem⟩ :=
          restrictedLoop_spec L jdl ceId.1 (fun _ h => h) ht
        rw [List.foldl_cons, ih _ hfrom e, hmem, or_assoc]
        refine or_congr_right ⟨?_, ?_⟩
        · rintro (⟨x, hx, hs, h⟩ | ⟨x, hx, hs, h⟩)
          · exact ⟨x, hx, by rw [List.any_cons, hs, Bool.true_or], h⟩
          · exact ⟨x, hx, by rw [List.any_cons, hs, Bool.or_true], h⟩
        · rintro ⟨x, hx, hs, h⟩
          rw [List.any_cons, Bool.or_eq_true] at hs
          exact hs.imp (fun hs => ⟨x, hx, hs, h⟩) fun hs => ⟨x, hx, hs, h⟩
  refine OrderedMap.ext_mem fun e => ?_
  unfold checkRequirementIn
  rw [hloop _ _ (fun e he => absurd he OrderedMap.not_mem_empty) e, mem_drawnTable,
    or_iff_right OrderedMap.not_mem_empty]
  refine exists_congr fun x => and_congr_right fun _ => ?_
  rw [Bool.and_eq_true, and_assoc]
  rfl

/-! ## Where they agree -/

/-- What the set of ids is to select: of the entries that are neither void nor
expired those whose id begins with one of it and that meet the requirements,
without the previous matches. -/
def selection (L : Libraries Ad Jdl K) (ism : Ism Ad) (jdl : Jdl)
    (ceIds : OrderedMap Text Unit) : Matchtable Ad K :=
  withoutPreviousMatches L jdl
    (drawnTable K ism fun x => begins ceIds x && suits L jdl x)

/-- The hosts of the entries to select are all previous matches, or none of
them is. -/
def previousApart (L : Libraries Ad Jdl K) (ism : Ism Ad) (jdl : Jdl)
    (ceIds : OrderedMap Text Unit) : Prop :=
  L.previousMatches jdl = none ∨ ∃ previous,
    L.previousMatches jdl = some previous ∧
    ((∀ x ∈ ism, begins ceIds x = true → suits L jdl x = true →
        (L.ceInfoHostName x.2.ad).getD [] ∉ previous) ∨
      ∀ x ∈ ism, begins ceIds x = true → suits L jdl x = true →
        (L.ceInfoHostName x.2.ad).getD [] ∈ previous)

/-- And none of the entries in question is void without being expired. -/
structure Undisturbed (L : Libraries Ad Jdl K) (ism : Ism Ad) (jdl : Jdl)
    (ceIds : OrderedMap Text Unit) : Prop where
  alive : ∀ x ∈ ism, begins ceIds x = true → valid L jdl x = true →
    isVoidIsmEntry x.2 = false
  apart : previousApart L ism jdl ceIds

theorem forall_mem_drawnTable {P : Ad → Prop} :
    (∀ e ∈ drawnTable K ism p, P e.2.ad) ↔ ∀ x ∈ ism, p x = true → P x.2.ad := by
  constructor
  · exact fun h x hx hp => h (drawn x) ((drawn_mem_drawnTable hx).mpr hp)
  · intro h e he
    obtain ⟨x, hx, hp, rfl⟩ := mem_drawnTable.mp he
    exact h x hx hp

theorem drawnTable_congr (h : ∀ x ∈ ism, p x = q x) :
    drawnTable K ism p = drawnTable K ism q := by
  refine OrderedMap.ext_mem fun e => mem_drawnTable.trans (Iff.trans ?_ mem_drawnTable.symm)
  exact exists_congr fun x => and_congr_right fun hx => by rw [h x hx]

theorem previousApart_iff (L : Libraries Ad Jdl K) (ism : Ism Ad) (jdl : Jdl)
    (ceIds : OrderedMap Text Unit) :
    selection L ism jdl ceIds =
        (drawnTable K ism fun x => begins ceIds x && suits L jdl x) ↔
      previousApart L ism jdl ceIds := by
  have hall : ∀ P : Ad → Prop,
      (∀ e ∈ drawnTable K ism (fun x => begins ceIds x && suits L jdl x),
        P e.2.ad) ↔
      ∀ x ∈ ism, begins ceIds x = true → suits L jdl x = true → P x.2.ad := by
    intro P
    rw [forall_mem_drawnTable]
    simp only [Bool.and_eq_true, and_imp]
  refine withoutPreviousMatches_eq_self.trans (or_congr_right ?_)
  refine exists_congr fun previous => and_congr_right fun _ => ?_
  exact or_congr (hall fun ad => (L.ceInfoHostName ad).getD [] ∉ previous)
    (hall fun ad => (L.ceInfoHostName ad).getD [] ∈ previous)

theorem selected_iff (L : Libraries Ad Jdl K) (ism : Ism Ad) (jdl : Jdl)
    (ceIds : OrderedMap Text Unit) :
    checkRequirementIn L ism jdl ceIds .empty = selection L ism jdl ceIds ↔
      Undisturbed L ism jdl ceIds := by
  have htable : (∀ x ∈ ism, begins ceIds x = true → valid L jdl x = true →
      isVoidIsmEntry x.2 = false) →
      (drawnTable K ism fun x => begins ceIds x && valid L jdl x) =
        drawnTable K ism fun x => begins ceIds x && suits L jdl x := by
    refine fun h => drawnTable_congr fun x hx => ?_
    cases hb : begins ceIds x with
    | false => rfl
    | true =>
        cases hv : valid L jdl x with
        | false => simp [suits, hv]
        | true => simp [suits, hv, h x hx hb hv]
  rw [checkRequirementIn_eq]
  constructor
  · intro heq
    have halive : ∀ x ∈ ism, begins ceIds x = true → valid L jdl x = true →
        isVoidIsmEntry x.2 = false := by
      intro x hx hb hv
      have hmem : drawn x ∈ drawnTable K ism
          fun x => begins ceIds x && valid L jdl x :=
        (drawn_mem_drawnTable hx).mpr (by rw [hb, hv]; rfl)
      rw [heq] at hmem
      have hsuits := (drawn_mem_drawnTable hx).mp
        (mem_of_withoutPreviousMatches hmem)
      rw [hb, Bool.true_and, suits, hv, Bool.and_true] at hsuits
      simpa using hsuits
    refine ⟨halive, (previousApart_iff L ism jdl ceIds).mp ?_⟩
    rw [← heq]
    exact htable halive
  · rintro ⟨halive, hapart⟩
    rw [htable halive]
    exact ((previousApart_iff L ism jdl ceIds).mpr hapart).symm

/-- The search for ids selects what it is to select, in particular all that the
search through the whole ISM selects if the empty id is among them, exactly
where no entry in question is void without being expired and the previous
matches take nothing out. -/
theorem paths_agree_iff (L : Libraries Ad Jdl K) (ism : Ism Ad) (jdl : Jdl)
    (ceIds : OrderedMap Text Unit) :
    (checkRequirementIn L ism jdl ceIds .empty = selection L ism jdl ceIds ↔
      Undisturbed L ism jdl ceIds) ∧
    (([], ()) ∈ ceIds →
      selection L ism jdl ceIds = checkRequirement L ism jdl .empty) := by
  refine ⟨selected_iff L ism jdl ceIds, fun hmem => ?_⟩
  rw [checkRequirement_eq]
  refine congrArg (withoutPreviousMatches L jdl) (drawnTable_congr fun x _ => ?_)
  have hbegins : begins ceIds x = true :=
    List.any_eq_true.mpr ⟨([], ()), hmem, rfl⟩
  rw [hbegins, Bool.true_and]

/-! ## An entry with no time to expire, and a resubmission -/

/-- An ad is a host name here, a job its previous matches; all ads match. -/
def sampleLibraries : Libraries Text (Option (List Text)) ℤ where
  leftMatchesRight := fun _ _ => true
  ceInfoHostName := some
  previousMatches := fun jdl => jdl
  rightRank := fun _ _ => some 0

/-- Two computing elements, the first with the expiry time given. -/
def sampleIsm (expiryTime : ℤ) : Ism Text where
  entries := [(['a'], ⟨expiryTime, ['g']⟩), (['b'], ⟨300, ['h']⟩)]
  sorted := by
    refine List.pairwise_cons.mpr ⟨fun y hy => ?_, List.pairwise_singleton _ _⟩
    rw [List.mem_singleton.mp hy]
    show (['a'] : Text) < ['b']
    decide

/-- The empty id, with which all ids begin. -/
def anyId : OrderedMap Text Unit := ⟨[([], ())], List.pairwise_singleton _ _⟩

/-- An entry whose expiry time is 0 is void, but not for the search for ids;
and a host of the previous matches is kept by it. -/
theorem paths_differ :
    checkRequirementIn sampleLibraries (sampleIsm 0) none anyId .empty ≠
        checkRequirement sampleLibraries (sampleIsm 0) none .empty ∧
      checkRequirementIn sampleLibraries (sampleIsm 300) (some [['g']]) anyId
          .empty ≠
        checkRequirement sampleLibraries (sampleIsm 300) (some [['g']]) .empty := by
  constructor
  · intro h
    have hlength := congrArg (fun t : Matchtable Text ℤ => t.entries.length) h
    rw [checkRequirementIn_eq] at hlength
    exact absurd hlength (by decide)
  · intro h
    have hlength := congrArg (fun t : Matchtable Text ℤ => t.entries.length) h
    rw [checkRequirementIn_eq] at hlength
    exact absurd hlength (by decide)

end Wms.Core.Matchmaking
