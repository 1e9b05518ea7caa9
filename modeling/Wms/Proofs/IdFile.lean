import Wms.Proofs.IdContainer
import Wms.Proofs.ListRefinement

/-!
# The list file of the ids

The container of ids is proved about with a file of ads, each at a position of
its own. What that stands for is a list over a file container: the ads are texts
in it, in the same order, and each position is one in the file. Whatever list is
opened is such a file of ads. The calls that the container of ids makes of it do
to the texts what they do to the ads, and they leave every position that is kept
where it is, so that a pointer goes on standing for its record.

The one interesting case is the erasure, which takes a record out between two
others; the rest follows from what the list is known to do.
-/

namespace Wms.Jobsubmission.Jccommon

open Wms.Lib FileContainer
open LogMonitor (IdAd)

/-- How the class ads are written: as texts with something in them, from which
the same ads are read. -/
structure AdTexts where
  write : IdAd → Text
  read : Text → Option IdAd
  inverse : ∀ ad, read (write ad) = some ad
  filled : ∀ ad, write ad ≠ []

/-- The list holds the ads in their order, each at its place. -/
def Stores (t : AdTexts) (place : ℕ → ℕ) (ads : AdFile) (L : List FileContainer.Entry) :
    Prop :=
  L = ads.records.map fun r => (place r.1, t.write r.2)

variable {t : AdTexts} {place : ℕ → ℕ} {ads : AdFile} {f : File} {h : Handle}
  {L : List FileContainer.Entry} {r : ℕ × IdAd}

/-- A list in which ads are written is a file of these ads. -/
theorem stores_ofAds {l : List IdAd} (hL : L.map Prod.snd = l.map t.write) :
    ∃ place, Stores t place (AdFile.ofAds l) L := by
  have hlength : L.length = l.length := by
    simpa using congrArg List.length hL
  refine ⟨fun i => (L.map Prod.fst).getD i 0, ?_⟩
  refine List.ext_getElem (by simp [AdFile.ofAds, hlength]) fun i hi hi' => ?_
  have hads : i < l.length := hlength ▸ hi
  have hdata : L[i].2 = t.write l[i] := by
    have hmap : i < (L.map Prod.snd).length := by simpa using hi
    have heq := List.getElem_of_eq hL hmap
    simpa using heq
  have hplace : (L.map Prod.fst).getD i 0 = L[i].1 := by
    simp [List.getD_eq_getElem?_getD, List.getElem?_eq_getElem hi]
  simp only [AdFile.ofAds, List.getElem_map, List.getElem_zip, List.getElem_range]
  exact Prod.ext hplace.symm hdata

/-- A record has its entry between those of the records around it. -/
theorem Stores.split (hst : Stores t place ads L) (hr : r ∈ ads.records) :
    ∃ A B A' B', ads.records = A ++ r :: B ∧
      L = A' ++ (place r.1, t.write r.2) :: B' ∧
      A' = A.map (fun r => (place r.1, t.write r.2)) ∧
      B' = B.map (fun r => (place r.1, t.write r.2)) := by
  obtain ⟨A, B, hsplit⟩ := List.append_of_mem hr
  refine ⟨A, B, _, _, hsplit, ?_, rfl, rfl⟩
  rw [hst, hsplit, List.map_append, List.map_cons]

/-- The ad of a record is read at its place. -/
theorem wp_readAd (now : ℤ) (hready : Ready f h L) (hst : Stores t place ads L)
    (hr : r ∈ ads.records) :
    Prog.wp (readData now (place r.1) false)
      (fun d g h' => t.read d.1 = some r.2 ∧ Settled g h' L) f h := by
  obtain ⟨A, B, A', B', -, rfl, -, -⟩ := hst.split hr
  refine Prog.wp_mono ?_ (wp_readData now hready)
  rintro d g h' ⟨hdata, -, -, -, hset⟩
  refine ⟨?_, hset⟩
  rw [hdata]
  exact t.inverse r.2

/-- A new ad gets the end of the file for its place. -/
theorem wp_pushBackAd (now : ℤ) (hready : Ready f h L) (hst : Stores t place ads L)
    (hs : ads.Sound) (ad : IdAd) :
    Prog.wp (FileList.pushBack now (t.write ad))
      (fun _ g h' => ∃ L', Settled g h' L' ∧
        Stores t (Function.update place ads.fileEnd f.getEnd) (ads.pushBack ad) L')
      f h := by
  refine Prog.wp_mono ?_ (FileList.wp_pushBack now hready (t.filled ad))
  intro _ g h' hset
  refine ⟨_, hset, ?_⟩
  have hkept : ∀ r ∈ ads.records,
      Function.update place ads.fileEnd f.getEnd r.1 = place r.1 := fun r hr =>
    Function.update_of_ne (Nat.ne_of_lt (hs.below r hr)) _ _
  rw [Stores, AdFile.pushBack, List.map_append, hst]
  refine congrArg₂ (· ++ ·) (List.map_congr_left fun r hr => ?_) ?_
  · rw [hkept r hr]
  · rw [List.map_singleton, Function.update_self]

/-- What is left of the records when one is taken out between two others. -/
theorem filter_split {A B : List (ℕ × IdAd)} (hs : ads.Sound)
    (hsplit : ads.records = A ++ r :: B) :
    (ads.records.filter fun x => x.1 ≠ r.1) = A ++ B := by
  have hnodup := hs.nodup
  rw [hsplit, List.map_append, List.map_cons, List.nodup_middle] at hnodup
  have hothers : ∀ x ∈ A ++ B, x.1 ≠ r.1 := by
    intro x hx heq
    refine (List.nodup_cons.mp hnodup).1 ?_
    rw [← List.map_append, ← heq]
    exact List.mem_map_of_mem hx
  rw [hsplit, List.filter_append, List.filter_cons_of_neg (by simp),
    ← List.filter_append]
  exact List.filter_eq_self.mpr fun x hx => decide_eq_true (hothers x hx)

/-- Both erase the same record, and the others stay at their places. -/
theorem wp_eraseAd (now : ℤ) (hready : Ready f h L) (hst : Stores t place ads L)
    (hs : ads.Sound) (hr : r ∈ ads.records) :
    ∃ ads', ads.erase r.1 = some ads' ∧
      Prog.wp (FileList.erase now (place r.1))
        (fun _ g h' => ∃ L', Ready g h' L' ∧ Stores t place ads' L') f h := by
  obtain ⟨A, B, A', B', hsplit, rfl, hA, hB⟩ := hst.split hr
  have hleft := filter_split hs hsplit
  have hwp := FileList.wp_erase now hready
  refine ⟨{ ads with records := A ++ B }, ?_, Prog.wp_mono ?_ hwp⟩
  · rw [← hleft]
    exact AdFile.erase_of_mem hs hr
  · rintro _ g h' ⟨-, hready'⟩
    refine ⟨_, hready', ?_⟩
    rw [Stores, List.map_append, hA, hB]

/-- An ad that is written again: its record goes, and comes back at the end. -/
theorem wp_replaceAd (now : ℤ) (hready : Ready f h L) (hst : Stores t place ads L)
    (hs : ads.Sound) (hr : r ∈ ads.records) (modified : IdAd) :
    ∃ ads', ads.erase r.1 = some ads' ∧
      Prog.wp
        (do let _ ← FileList.erase now (place r.1)
            FileList.pushBack now (t.write modified))
        (fun _ g h' => ∃ place' L', Settled g h' L' ∧
          Stores t place' (ads'.pushBack modified) L' ∧
          ∀ x ∈ ads'.records, place' x.1 = place x.1) f h := by
  obtain ⟨ads', herase, hwp⟩ := wp_eraseAd now hready hst hs hr
  have hs' : ads'.Sound := by
    rw [AdFile.erase_of_mem hs hr, Option.some.injEq] at herase
    exact herase ▸ hs.filter _
  refine ⟨ads', herase, Prog.wp_seq hwp ?_⟩
  rintro _ g h' ⟨L', hready', hst'⟩
  refine Prog.wp_mono ?_ (wp_pushBackAd now hready' hst' hs' modified)
  rintro _ g' h'' ⟨L'', hset, hst''⟩
  refine ⟨_, L'', hset, hst'', fun x hx => ?_⟩
  exact Function.update_of_ne (Nat.ne_of_lt (hs'.below x hx)) _ _

/-- Nothing is left of the ads when the list is cleared. -/
theorem wp_clearAds (now : ℤ) (hset : Settled f h L) :
    Prog.wp (FileList.clear now)
      (fun _ g h' => ∃ L', Ready g h' L' ∧ Stores t place ⟨[], 0⟩ L') f h :=
  (wp_truncate_iff now hset.ready fun _ _ hready => ⟨[], hready, rfl⟩).mpr
    (FileList.not_behind hset)

end Wms.Jobsubmission.Jccommon
