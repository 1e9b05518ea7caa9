import Mathlib.Data.List.Basic
import Wms.Lib.Instances

/-!
# Ads

An ad is a list of attributes that are found by their names, whatever the case
of the letters. An attribute that is inserted takes the place of the one with
its name. The functions that evaluate an attribute leave their target as it is
when the attribute is not there or has another type, and so each of them takes
what is in the target and answers what is in it afterwards.

`D` is the type of the real numbers of the ads.
-/

namespace Wms.Lib

universe u

/-- A value of a literal. -/
inductive Value (D : Type u) where
  | int (i : ℤ)
  | real (d : D)
  | bool (b : Bool)
  | str (s : List Char)
  | ad (attributes : List (List Char × Value D))

namespace Value

variable {D : Type u}

/-- The text of a value, where it is one. -/
@[simp] def text (v : Value D) (target : List Char) : List Char :=
  match v with
  | .str s => s
  | _ => target

/-- The truth of a value, where it has one. -/
@[simp] def truth (v : Value D) (target : Bool) : Bool :=
  match v with
  | .bool b => b
  | _ => target

/-- A number of either type is put into a target of one type by `ofInt` or
`ofReal`. A text is no number, whatever it says. -/
@[simp] def number {T : Type*} (ofInt : ℤ → T) (ofReal : D → T) (v : Value D) (target : T) :
    T :=
  match v with
  | .int i => ofInt i
  | .real d => ofReal d
  | _ => target

end Value

/-- An ad of literals; names are compared without their case. -/
abbrev ClassAd (D : Type u) := List (List Char × Value D)

/-- What two names of one attribute have in common. -/
def foldCase (name : List Char) : List Char := name.map Char.toLower

namespace ClassAd

variable {D : Type u}

/-- `InsertAttr`: one of that name is replaced. -/
def insertAttr (ad : ClassAd D) (name : List Char) (v : Value D) : ClassAd D :=
  ad.filter (fun p => foldCase p.1 ≠ foldCase name) ++ [(name, v)]

/-- `Lookup` -/
def lookup (ad : ClassAd D) (name : List Char) : Option (Value D) :=
  (ad.find? fun p => foldCase p.1 = foldCase name).map Prod.snd

/-- `EvaluateAttrString`, the target being left alone where it fails. -/
def evaluateAttrString (ad : ClassAd D) (name : List Char) (target : List Char) :
    List Char :=
  (ad.lookup name).elim target fun v => v.text target

/-- `EvaluateAttrBool` -/
def evaluateAttrBool (ad : ClassAd D) (name : List Char) (target : Bool) : Bool :=
  (ad.lookup name).elim target fun v => v.truth target

/-- `EvaluateAttrNumber`, which converts. -/
def evaluateAttrNumber {T : Type*} (ofInt : ℤ → T) (ofReal : D → T) (ad : ClassAd D)
    (name : List Char) (target : T) : T :=
  (ad.lookup name).elim target fun v => v.number ofInt ofReal target

theorem lookup_insertAttr (ad : ClassAd D) (name name' : List Char) (v : Value D) :
    (ad.insertAttr name v).lookup name' =
      if foldCase name' = foldCase name then some v else ad.lookup name' := by
  unfold lookup insertAttr
  rw [List.find?_append]
  by_cases h : foldCase name' = foldCase name
  · rw [if_pos h]
    have hnone : (ad.filter fun p => foldCase p.1 ≠ foldCase name).find?
        (fun p => foldCase p.1 = foldCase name') = none := by
      rw [List.find?_eq_none]
      intro p hp
      have hne := of_decide_eq_true (List.mem_filter.mp hp).2
      simpa [h] using hne
    rw [hnone, List.find?_singleton, if_pos (decide_eq_true h.symm)]
    rfl
  · rw [if_neg h]
    have hsame : (ad.filter fun p => foldCase p.1 ≠ foldCase name).find?
        (fun p => foldCase p.1 = foldCase name') =
        ad.find? fun p => foldCase p.1 = foldCase name' := by
      rw [List.find?_filter]
      congr 1
      funext p
      by_cases hp : foldCase p.1 = foldCase name'
      · simp [hp, h]
      · simp [hp]
    rw [hsame, List.find?_singleton, if_neg (by simpa using Ne.symm h), Option.or_none]

theorem evaluateAttrString_insertAttr (ad : ClassAd D) (name name' : List Char)
    (v : Value D) (target : List Char) :
    (ad.insertAttr name v).evaluateAttrString name' target =
      if foldCase name' = foldCase name then v.text target
      else ad.evaluateAttrString name' target := by
  unfold evaluateAttrString
  rw [lookup_insertAttr]
  split <;> rfl

theorem evaluateAttrBool_insertAttr (ad : ClassAd D) (name name' : List Char)
    (v : Value D) (target : Bool) :
    (ad.insertAttr name v).evaluateAttrBool name' target =
      if foldCase name' = foldCase name then v.truth target
      else ad.evaluateAttrBool name' target := by
  unfold evaluateAttrBool
  rw [lookup_insertAttr]
  split <;> rfl

theorem evaluateAttrNumber_insertAttr {T : Type*} (ofInt : ℤ → T) (ofReal : D → T)
    (ad : ClassAd D) (name name' : List Char) (v : Value D) (target : T) :
    (ad.insertAttr name v).evaluateAttrNumber ofInt ofReal name' target =
      if foldCase name' = foldCase name then v.number ofInt ofReal target
      else ad.evaluateAttrNumber ofInt ofReal name' target := by
  unfold evaluateAttrNumber
  rw [lookup_insertAttr]
  split <;> rfl

/-- Every value of the ad is a text. -/
def Texts (ad : ClassAd D) : Prop := ∀ p ∈ ad, ∃ s, p.2 = .str s

theorem texts_nil : Texts ([] : ClassAd D) := fun p hp => by cases hp

theorem Texts.insertAttr {ad : ClassAd D} (h : ad.Texts) (name s : List Char) :
    (ad.insertAttr name (.str s)).Texts := by
  intro p hp
  rcases List.mem_append.mp hp with hp | hp
  · exact h p (List.mem_of_mem_filter hp)
  · exact ⟨s, by rw [List.mem_singleton.mp hp]⟩

/-- An ad of texts has no numbers: the target stays as it was. -/
theorem Texts.evaluateAttrNumber {ad : ClassAd D} (h : ad.Texts) {T : Type*}
    (ofInt : ℤ → T) (ofReal : D → T) (name : List Char) (target : T) :
    ad.evaluateAttrNumber ofInt ofReal name target = target := by
  unfold ClassAd.evaluateAttrNumber lookup
  cases hfind : ad.find? fun p => foldCase p.1 = foldCase name with
  | none => rfl
  | some p =>
      obtain ⟨s, hs⟩ := h p (List.mem_of_find?_eq_some hfind)
      simp only [Option.map_some, hs, Option.elim_some, Value.number]

end ClassAd

end Wms.Lib
