import Wms.Interface.OutputSandbox

/-!
# Every file of the output has its destination

The computed destinations match the files one by one, whatever comes from the
description, from its DAG or from the configuration. Putting them in one after
the other comes to the same as putting in all of them, but for the counter: with
a limit it refuses the first file too many, and without one it puts in nothing.
So each step is the check of a number, and the nodes of a DAG follow by induction
over their list.
-/

namespace Wms.Interface

open Wms.Core (Text rfind rfind_slash_none rfind_slash_some)
open Wms.Lib

/-! ## Names and URLs -/

theorem destURIOf_eq (baseuri path : Text) :
    destURIOf baseuri path = baseuri ++ '/' :: baseName path := by
  unfold destURIOf
  cases hpos : rfind ['/'] path with
  | none =>
      rw [baseName_of_not_mem (rfind_slash_none hpos), List.append_assoc]
      rfl
  | some pos =>
      obtain ⟨dir, name, rfl, hname, rfl⟩ := rfind_slash_some hpos
      have hdrop : (dir ++ '/' :: name).drop (dir.length + 1) = name := by
        rw [← List.drop_drop, List.drop_left, List.drop_one, List.tail_cons]
      rw [baseName_below dir hname]
      show baseuri ++ ['/'] ++ (dir ++ '/' :: name).drop (dir.length + 1) = _
      rw [hdrop, List.append_assoc]
      rfl

/-- A URI with a scheme. -/
def IsAbsolute (uri : Text) : Prop := [':', '/', '/'] <:+: uri

theorem givenURI_absolute {dest_uri uri : Text} (h : IsAbsolute uri) :
    givenURI dest_uri uri = uri :=
  if_pos (breakOn_isSome.mpr h)

theorem givenURI_relative {dest_uri uri : Text} (h : ¬ IsAbsolute uri) :
    givenURI dest_uri uri = outputBelow dest_uri ++ '/' :: uri := by
  unfold givenURI
  rw [if_neg fun hsome => h (breakOn_isSome.mp hsome), List.append_assoc]
  rfl

/-! ## The loop -/

@[simp]
theorem outputSandbox_delDestURI (ad : OutputAd) :
    ad.delDestURI.osbDestUri = none := rfl

theorem foldl_addDestURI (uris : List Text) (ad : OutputAd) (h : uris ≠ []) :
    (uris.foldl OutputAd.addDestURI ad).osbDestUri =
      some (ad.osbDestUri.getD [] ++ uris) := by
  induction uris generalizing ad with
  | nil => exact absurd rfl h
  | cons uri uris ih =>
      rw [List.foldl_cons]
      cases uris with
      | nil => rfl
      | cons uri' uris =>
          rw [ih _ (List.cons_ne_nil _ _)]
          show some ((ad.osbDestUri.getD [] ++ [uri]) ++ uri' :: uris) = _
          rw [List.append_assoc]
          rfl

variable {cfg : Config}

/-- As long as there is room, the destinations are put in. -/
theorem addDestURIs_eq (uris : List Text) (counter : ℕ) (ad : OutputAd)
    (h : ((counter + uris.length : ℕ) : ℤ) ≤ cfg.maxOutputSandboxFiles) :
    addDestURIs cfg counter uris ad =
      .ret (uris.foldl OutputAd.addDestURI ad) := by
  induction uris generalizing counter ad with
  | nil => rfl
  | cons uri uris ih =>
      rw [List.length_cons] at h
      rw [addDestURIs, if_pos (by omega)]
      exact ih (counter + 1) _ (by omega)

theorem within_tooManyFiles {reason : String} {α : Type} (f : Unit → WmpProc α) :
    Proc.Within (fun _ => True) (fun _ => False) (tooManyFiles reason >>= f) := by
  unfold tooManyFiles
  refine Proc.within_bind (Q := fun _ => False) ?_ fun _ h => h.elim
  exact Proc.within_bind (Q := fun _ => True) (Proc.within_any _)
    fun _ _ => trivial

/-- One too many, and the loop does not come back. -/
theorem addDestURIs_refused (hlimit : 0 < cfg.maxOutputSandboxFiles)
    (uris : List Text) (counter : ℕ) (ad : OutputAd)
    (hcounter : (counter : ℤ) ≤ cfg.maxOutputSandboxFiles)
    (h : cfg.maxOutputSandboxFiles < ((counter + uris.length : ℕ) : ℤ)) :
    Proc.Within (fun _ => True) (fun _ => False)
      (addDestURIs cfg counter uris ad) := by
  induction uris generalizing counter ad with
  | nil =>
      rw [List.length_nil] at h
      omega
  | cons uri uris ih =>
      rw [List.length_cons] at h
      rw [addDestURIs]
      by_cases hroom : ((counter + 1 : ℕ) : ℤ) ≤ cfg.maxOutputSandboxFiles
      · rw [if_pos hroom]
        exact ih (counter + 1) _ hroom (by omega)
      · rw [if_neg hroom, if_pos hlimit]
        exact within_tooManyFiles _

/-- Without a limit nothing is put in at all. -/
theorem addDestURIs_unlimited (hlimit : cfg.maxOutputSandboxFiles ≤ 0)
    (uris : List Text) (counter : ℕ) (ad : OutputAd) :
    addDestURIs cfg counter uris ad = .ret ad := by
  induction uris generalizing counter with
  | nil => rfl
  | cons uri uris ih =>
      rw [addDestURIs, if_neg (by omega), if_neg (by omega)]
      exact ih (counter + 1)

theorem tooManyFiles_bind {reason : String} {α : Type} (f : Unit → WmpProc α)
    (g : α → WmpProc Unit) :
    (tooManyFiles reason >>= f) >>= g = tooManyFiles reason := by
  show ((tooManyFiles reason).bind f).bind g = _
  rw [Proc.bind_bind]
  unfold tooManyFiles
  show ((abortAndPurge reason).bind _).bind _ = (abortAndPurge reason).bind _
  rw [Proc.bind_bind]
  rfl

/-- But for what it puts in, the loop is the check of a number. -/
theorem addDestURIs_check (uris : List Text) (ad : OutputAd) :
    (addDestURIs cfg 0 uris ad >>= fun _ => pure ()) =
      checkOutputSandbox cfg (some uris.length) := by
  have hrefused : ∀ (uris : List Text) (counter : ℕ) (ad : OutputAd),
      0 < cfg.maxOutputSandboxFiles → (counter : ℤ) ≤ cfg.maxOutputSandboxFiles →
      cfg.maxOutputSandboxFiles < ((counter + uris.length : ℕ) : ℤ) →
      (addDestURIs cfg counter uris ad >>= fun _ => pure ()) =
        tooManyFiles "The maximum number of output sandbox files is reached" := by
    intro uris
    induction uris with
    | nil =>
        intro counter ad _ hcounter h
        rw [List.length_nil] at h
        omega
    | cons uri uris ih =>
        intro counter ad hlimit hcounter h
        rw [List.length_cons] at h
        rw [addDestURIs]
        by_cases hroom : ((counter + 1 : ℕ) : ℤ) ≤ cfg.maxOutputSandboxFiles
        · rw [if_pos hroom]
          exact ih (counter + 1) _ hlimit hroom (by omega)
        · rw [if_neg hroom, if_pos hlimit]
          exact tooManyFiles_bind _ _
  unfold checkOutputSandbox
  simp only
  by_cases hlimit : 0 < cfg.maxOutputSandboxFiles
  · by_cases hmany : cfg.maxOutputSandboxFiles < (uris.length : ℤ)
    · rw [if_pos (by simp [hlimit, hmany])]
      exact hrefused uris 0 ad hlimit (by omega) (by omega)
    · rw [addDestURIs_eq uris 0 ad (by omega), if_neg (by simp [hlimit, hmany])]
      rfl
  · rw [addDestURIs_unlimited (by omega), if_neg (by simp [hlimit])]
    rfl

/-! ## The destinations -/

/-- The base of the destinations that are not given. -/
def baseInForce (dest_uri parent_dest_uri : Text) (ad : OutputAd) : Text :=
  match ad.osbBaseDestUri with
  | some base => base
  | none =>
      if parent_dest_uri = [] then outputBelow dest_uri else parent_dest_uri

/-- A description with an output sandbox and either no destinations or one for
each of its files. -/
structure Described (ad : OutputAd) (entries : List Text) : Prop where
  outputSandbox : ad.outputSandbox = some entries
  nonempty : entries ≠ []
  given : ∀ list : List Text, ad.osbDestUri = some list → list.length = entries.length

/-- Every file has its destination. -/
structure Placed (dest_uri base : Text) (ad : OutputAd) (entries uris : List Text) :
    Prop where
  length : uris.length = entries.length
  absolute : ∀ list : List Text, ad.osbDestUri = some list →
    ∀ (i : ℕ) (uri : Text), list[i]? = some uri → IsAbsolute uri →
      uris[i]? = some uri
  relative : ∀ list : List Text, ad.osbDestUri = some list →
    ∀ (i : ℕ) (uri : Text), list[i]? = some uri → ¬ IsAbsolute uri →
      uris[i]? = some (outputBelow dest_uri ++ '/' :: uri)
  made : ad.osbDestUri = none → ∀ (i : ℕ) (entry : Text),
    entries[i]? = some entry → uris[i]? = some (base ++ '/' :: baseName entry)

/-- The computed destinations, and that none is there when they are put in. -/
theorem nodeDestinations_placed (dest_uri parent_dest_uri : Text) {ad : OutputAd}
    {entries : List Text} (h : Described ad entries) :
    let r := nodeDestinations dest_uri parent_dest_uri entries ad
    Placed dest_uri (baseInForce dest_uri parent_dest_uri ad) ad entries r.1 ∧
      r.2.osbDestUri = none := by
  have hmade (base : Text) (hnone : ad.osbDestUri = none) :
      Placed dest_uri base ad entries (computeOutputSBDestURIBase entries base) := by
    refine ⟨List.length_map _, fun list hlist => ?_, fun list hlist => ?_,
      fun _ i entry hentry => ?_⟩
    · exact absurd (hnone.symm.trans hlist) (Option.some_ne_none list).symm
    · exact absurd (hnone.symm.trans hlist) (Option.some_ne_none list).symm
    · rw [computeOutputSBDestURIBase, List.getElem?_map, hentry]
      exact congrArg some (destURIOf_eq base entry)
  cases hgiven : ad.osbDestUri with
  | some given =>
      have hr : nodeDestinations dest_uri parent_dest_uri entries ad =
          (computeOutputSBDestURI given dest_uri, ad.delDestURI) := by
        rw [nodeDestinations, hgiven]
      rw [hr]
      refine ⟨⟨?_, fun list hlist i uri huri habs => ?_,
        fun list hlist i uri huri hrel => ?_, fun hnone => ?_⟩, rfl⟩
      · exact (List.length_map _).trans (h.given given hgiven)
      · cases hgiven.symm.trans hlist
        rw [computeOutputSBDestURI, List.getElem?_map, huri]
        exact congrArg some (givenURI_absolute habs)
      · cases hgiven.symm.trans hlist
        rw [computeOutputSBDestURI, List.getElem?_map, huri]
        exact congrArg some (givenURI_relative hrel)
      · exact absurd (hgiven.symm.trans hnone) (Option.some_ne_none given)
  | none =>
      unfold nodeDestinations baseInForce
      rw [hgiven]
      cases hbase : ad.osbBaseDestUri with
      | some base => exact ⟨hmade base hgiven, hgiven⟩
      | none =>
          cases parent_dest_uri with
          | nil => exact ⟨hmade _ hgiven, hgiven⟩
          | cons c parent => exact ⟨hmade _ hgiven, hgiven⟩

/-- Nothing is handed on: there is no way back but an exception. -/
def Refused {α : Type} (p : WmpProc α) : Prop :=
  Proc.Within (fun _ => True) (fun _ => False) p

/-- Too many files are refused, and otherwise every file has its destination in
the description that is handed on. -/
structure HandedOn (cfg : Config) (dest_uri base : Text) (ad : OutputAd)
    (entries : List Text) (p : WmpProc OutputAd) : Prop where
  refused : cfg.maxOutputSandboxFiles < entries.length → Refused p
  filled : entries.length ≤ cfg.maxOutputSandboxFiles →
    ∃ ad' uris, p = .ret ad' ∧ ad'.osbDestUri = some uris ∧
      Placed dest_uri base ad entries uris

theorem node_handedOn (hlimit : 0 < cfg.maxOutputSandboxFiles)
    (dest_uri parent_dest_uri : Text) {ad : OutputAd} {entries : List Text}
    (h : Described ad entries) :
    HandedOn cfg dest_uri (baseInForce dest_uri parent_dest_uri ad) ad entries
      (nodeOutputSandbox cfg dest_uri parent_dest_uri ad) := by
  obtain ⟨hplaced, hnone⟩ := nodeDestinations_placed dest_uri parent_dest_uri h
  have hrun : nodeOutputSandbox cfg dest_uri parent_dest_uri ad =
      addDestURIs cfg 0 (nodeDestinations dest_uri parent_dest_uri entries ad).1
        (nodeDestinations dest_uri parent_dest_uri entries ad).2 := by
    have hlength : (nodeDestinations dest_uri parent_dest_uri entries ad).1.length
        ≠ 0 := by
      rw [hplaced.length]
      exact fun h0 => h.nonempty (List.length_eq_zero_iff.mp h0)
    unfold nodeOutputSandbox
    rw [h.outputSandbox]
    exact if_pos hlength
  rw [hrun]
  generalize nodeDestinations dest_uri parent_dest_uri entries ad = r
    at hplaced hnone ⊢
  constructor
  · intro hmany
    refine addDestURIs_refused hlimit r.1 0 r.2 (by omega) ?_
    rw [hplaced.length]
    omega
  · intro hfew
    refine ⟨_, r.1, addDestURIs_eq r.1 0 r.2 ?_, ?_, hplaced⟩
    · rw [hplaced.length]
      omega
    · have hne : r.1 ≠ [] := fun hnil => h.nonempty (by
        rw [← List.length_eq_zero_iff, ← hplaced.length, hnil]
        rfl)
      rw [foldl_addDestURI r.1 r.2 hne, hnone]
      rfl

/-- Without wildcards a job is handled as a node whose DAG has no base. -/
theorem jobOutputSandbox_eq {hasWildCards : Text → Bool} {dest_uri : Text}
    {jad : OutputAd} {entries : List Text}
    (h : jad.outputSandbox = some entries)
    (hplain : ∀ entry ∈ entries, hasWildCards entry = false) :
    jobOutputSandbox cfg hasWildCards dest_uri jad =
      nodeOutputSandbox cfg dest_uri [] jad := by
  have hany : ¬ entries.any hasWildCards = true := by
    rw [List.any_eq_true]
    rintro ⟨entry, hmem, hwild⟩
    exact Bool.false_ne_true ((hplain entry hmem).symm.trans hwild)
  have hdest : jobDestinations dest_uri entries jad =
      nodeDestinations dest_uri [] entries jad := by
    unfold jobDestinations nodeDestinations
    split <;> rfl
  unfold jobOutputSandbox nodeOutputSandbox
  rw [h]
  simp only
  rw [if_neg hany, hdest]
  generalize nodeDestinations dest_uri [] entries jad = r
  by_cases hlength : r.1.length = 0
  · rw [if_neg (not_not.mpr hlength), List.length_eq_zero_iff.mp hlength]
    rfl
  · rw [if_pos hlength]

/-- Every node of a DAG that is handed on has kept to the limit. -/
theorem within_nodesOutputSandbox (hlimit : 0 < cfg.maxOutputSandboxFiles)
    (parent_dest_uri : Text) (nodes : List (Text × OutputAd)) :
    Proc.Within (fun _ => True)
      (List.Forall₂ (fun node ad' => ∀ entries, Described node.2 entries →
        entries.length ≤ cfg.maxOutputSandboxFiles ∧
        ∃ uris, ad'.osbDestUri = some uris ∧
          Placed node.1 (baseInForce node.1 parent_dest_uri node.2) node.2 entries
            uris) nodes)
      (nodesOutputSandbox cfg parent_dest_uri nodes) := by
  induction nodes with
  | nil => exact .nil
  | cons node nodes ih =>
      obtain ⟨dest_uri, ad⟩ := node
      refine Proc.within_bind
        (Q := fun ad' => ∀ entries, Described ad entries →
          entries.length ≤ cfg.maxOutputSandboxFiles ∧
          ∃ uris, ad'.osbDestUri = some uris ∧
            Placed dest_uri (baseInForce dest_uri parent_dest_uri ad) ad entries
              uris) ?_ fun ad' had => Proc.within_bind ih fun done hdone => .cons had hdone
      by_cases hdescribed : ∃ entries, Described ad entries
      · obtain ⟨entries, h⟩ := hdescribed
        have hnode := node_handedOn hlimit dest_uri parent_dest_uri h
        by_cases hmany : cfg.maxOutputSandboxFiles < entries.length
        · exact Proc.within_mono (fun _ hc => hc) (fun _ hfalse => hfalse.elim)
            (hnode.refused hmany)
        · obtain ⟨ad', uris, hret, huris, hplaced⟩ := hnode.filled (by omega)
          rw [hret]
          intro entries' h'
          cases h.outputSandbox.symm.trans h'.outputSandbox
          exact ⟨by omega, uris, huris, hplaced⟩
      · exact Proc.within_mono (fun _ hc => hc)
          (fun _ _ entries h => absurd ⟨entries, h⟩ hdescribed) (Proc.within_any _)

/-- With a limit, a job and every node of a DAG get one destination for each
file of the output sandbox, or the whole is refused. -/
theorem outputDestinations (cfg : Config) (hlimit : 0 < cfg.maxOutputSandboxFiles) :
    (∀ (hasWildCards : Text → Bool) (dest_uri : Text) (jad : OutputAd)
      (entries : List Text), Described jad entries →
      (∀ entry ∈ entries, hasWildCards entry = false) →
      HandedOn cfg dest_uri (baseInForce dest_uri [] jad) jad entries
        (jobOutputSandbox cfg hasWildCards dest_uri jad)) ∧
    (∀ (dest_uri parent_dest_uri : Text) (nodead : OutputAd)
      (entries : List Text), Described nodead entries →
      HandedOn cfg dest_uri (baseInForce dest_uri parent_dest_uri nodead) nodead
        entries (nodeOutputSandbox cfg dest_uri parent_dest_uri nodead)) ∧
    ∀ (dagBaseDestUri : Option Text) (nodes : List (Text × OutputAd)),
      Proc.Within (fun _ => True)
        (List.Forall₂ (fun node ad' => ∀ entries, Described node.2 entries →
          entries.length ≤ cfg.maxOutputSandboxFiles ∧
          ∃ uris, ad'.osbDestUri = some uris ∧
            Placed node.1 (baseInForce node.1 (dagBaseDestUri.getD []) node.2)
              node.2 entries uris) nodes)
        (dagOutputSandbox cfg dagBaseDestUri nodes) := by
  refine ⟨?_, ?_, ?_⟩
  · intro hasWildCards dest_uri jad entries h hplain
    rw [jobOutputSandbox_eq h.outputSandbox hplain]
    exact node_handedOn hlimit dest_uri [] h
  · intro dest_uri parent_dest_uri nodead entries h
    exact node_handedOn hlimit dest_uri parent_dest_uri h
  · intro dagBaseDestUri nodes
    exact within_nodesOutputSandbox hlimit _ nodes

/-- A configuration with a limit of ten files. -/
def tenFiles : Config := ⟨"https://lb:9000/job", false, false, 10, 10⟩

/-- Two files, with a base of their own. -/
def basedJob : OutputAd := ⟨some [['d', '/', 'o'], ['e']], none, some ['b']⟩

/-- Three files with their destinations, one of them absolute. -/
def givenJob : OutputAd :=
  ⟨some [['o'], ['d', '/', 'o'], ['e']],
    some [['s', ':', '/', '/', 'h', '/', 'o'], ['r'], ['e']], none⟩

theorem outputDestinations_based :
    HandedOn tenFiles ['w'] ['b'] basedJob [['d', '/', 'o'], ['e']]
        (jobOutputSandbox tenFiles (fun _ => false) ['w'] basedJob) ∧
      HandedOn tenFiles ['w'] ['p'] givenJob [['o'], ['d', '/', 'o'], ['e']]
        (nodeOutputSandbox tenFiles ['w'] ['p'] givenJob) := by
  have hall := outputDestinations tenFiles (by decide)
  constructor
  · exact hall.1 (fun _ => false) ['w'] basedJob [['d', '/', 'o'], ['e']]
      ⟨rfl, List.cons_ne_nil _ _, fun _ h => absurd h (Option.some_ne_none _).symm⟩
      fun _ _ => rfl
  · refine hall.2.1 ['w'] ['p'] givenJob [['o'], ['d', '/', 'o'], ['e']]
      ⟨rfl, List.cons_ne_nil _ _, fun uris huris => ?_⟩
    cases huris
    rfl

/-- The destinations are the absolute ones that are given, and else made of a
base and the name of the file. -/
structure Matching (base : Text) (ad : OutputAd) (entries uris : List Text) :
    Prop where
  length : uris.length = entries.length
  each : ∀ (i : ℕ) (entry : Text), entries[i]? = some entry →
    (∃ (list : List Text) (uri : Text), ad.osbDestUri = some list ∧
      list[i]? = some uri ∧ IsAbsolute uri ∧ uris[i]? = some uri) ∨
    uris[i]? = some (base ++ '/' :: baseName entry)

/-- One file with a relative destination. -/
def renamedJob : OutputAd := ⟨some [['o']], some [['r']], none⟩

/-- A relative destination keeps the name that is given in it. -/
theorem not_matching_renamed :
    Described renamedJob [['o']] ∧
    ¬ ∃ base ad' uris,
      jobOutputSandbox tenFiles (fun _ => false) ['w'] renamedJob = .ret ad' ∧
        ad'.osbDestUri = some uris ∧ Matching base renamedJob [['o']] uris := by
  refine ⟨⟨rfl, List.cons_ne_nil _ _, fun list hlist => by cases hlist; rfl⟩, ?_⟩
  rintro ⟨base, ad', uris, hret, huris, hmatching⟩
  cases hret
  cases huris
  rcases hmatching.each 0 ['o'] rfl with
    ⟨list, uri, hlist, huri, habs, -⟩ | hmade
  · cases hlist
    cases huri
    exact absurd habs (by unfold IsAbsolute; decide)
  · have hsuffix : ['/', 'o'] <:+ outputBelow ['w'] ++ ['/', 'r'] :=
      ⟨base, (Option.some.inj hmade).symm⟩
    exact absurd hsuffix (by decide)

end Wms.Interface
