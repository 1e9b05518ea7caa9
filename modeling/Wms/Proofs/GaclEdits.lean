import Wms.Proofs.Gacl

/-!
# What an edit of an access list touches

An entry is looked up for an edit as it is for an authorization: the value of a
VOMS credential is matched by the credentials of the list as by patterns. Where
the lookup stops at the entry that has the credential itself, an edit changes
that entry and no other; and since the permissions of an entry are never reset,
a permission that is set is the only one where no other was there.
-/

namespace Wms.Security

variable {lib : Libraries}

/-! ## The entry with a credential -/

/-- The types of the credentials that are edited. -/
def Edited (type : CredType) : Prop := type = .person ∨ type = .voms

/-- The entry has the very credential. -/
def own (lib : Libraries) (type : CredType) (rawvalue : Text) (e : Entry) : Bool :=
  e.creds.contains (newCred lib type rawvalue)

def ownIndex (lib : Libraries) (type : CredType) (rawvalue : Text)
    (acl : List Entry) : Option ℕ :=
  acl.findIdx? (own lib type rawvalue)

/-- Up to the first entry with the credential, the loader takes an entry exactly
when it has it. -/
def Literal (lib : Libraries) (type : CredType) (rawvalue : Text)
    (acl : List Entry) : Prop :=
  ∀ pre e post, acl = pre ++ e :: post →
    (∀ x ∈ pre, own lib type rawvalue x = false) →
    scanCreds lib type rawvalue e.creds = .ok (own lib type rawvalue e)

theorem scanEntries_literal {type : CredType} {rawvalue : Text} {acl : List Entry}
    (h : Literal lib type rawvalue acl) :
    scanEntries lib type rawvalue acl =
      .ok ((ownIndex lib type rawvalue acl).bind fun n =>
        acl[n]?.map fun e => (n, e)) := by
  induction acl with
  | nil => rfl
  | cons e es ih =>
      have he := h [] e es rfl fun x hx => absurd hx List.not_mem_nil
      unfold scanEntries ownIndex
      rw [he, List.findIdx?_cons]
      cases hown : own lib type rawvalue e with
      | true => rfl
      | false =>
          have hes : Literal lib type rawvalue es := by
            intro pre x post hsplit hpre
            refine h (e :: pre) x post (by rw [hsplit]; rfl) fun y hy => ?_
            rcases List.mem_cons.mp hy with rfl | hy
            · exact hown
            · exact hpre y hy
          dsimp only
          rw [ih hes]
          unfold ownIndex
          rcases es.findIdx? (own lib type rawvalue) with _ | n
          · rfl
          · cases hn : es[n]? with
            | none => simp [hn]
            | some x => simp [hn]

theorem ownIndex_spec {type : CredType} {rawvalue : Text} {acl : List Entry} {n : ℕ}
    (h : ownIndex lib type rawvalue acl = some n) :
    ∃ e, acl[n]? = some e ∧ own lib type rawvalue e = true := by
  obtain ⟨hn, hown, -⟩ := List.findIdx?_eq_some_iff_getElem.mp h
  exact ⟨acl[n], List.getElem?_eq_getElem hn, hown⟩

/-- For a person the lookup is by the credential. -/
theorem literal_person (rawvalue : Text) (acl : List Entry) :
    Literal lib .person rawvalue acl := by
  intro pre e post _ _
  unfold own
  induction e.creds with
  | nil => rfl
  | cons auri auris ih =>
      rw [List.contains_cons]
      unfold scanCreds taken
      dsimp only
      by_cases hauri : auri = newCred lib .person rawvalue
      · simp [hauri]
      · rw [decide_eq_false hauri]
        have hne : (newCred lib .person rawvalue == auri) = false :=
          beq_false_of_ne (Ne.symm hauri)
        rw [hne, Bool.false_or]
        exact ih

/-! ## Loading -/

theorem loadCredentialOf_literal {m : Manager} {type : CredType} {rawvalue : Text}
    (htype : Edited type) (h : Literal lib type rawvalue (entries m)) :
    (loadCredentialOf lib m type rawvalue).1 =
        .ok ((ownIndex lib type rawvalue (entries m)).bind fun n =>
          (entries m)[n]?.map fun e => (n, e)) ∧
      (loadCredentialOf lib m type rawvalue).2.gaclAcl = m.gaclAcl ∧
      (loadCredentialOf lib m type rawvalue).2.credType = type ∧
      (loadCredentialOf lib m type rawvalue).2.rawvalue = rawvalue := by
  have hload : loadCredentialOf lib m type rawvalue =
      loadCredential lib { m with credType := type, rawvalue := rawvalue } := by
    rcases htype with rfl | rfl <;> rfl
  rw [hload]
  unfold loadCredential
  have hscan := scanEntries_literal h
  unfold entries at hscan ⊢
  dsimp only
  rw [hscan]
  rcases (ownIndex lib type rawvalue (m.gaclAcl.getD [])).bind fun n =>
      (m.gaclAcl.getD [])[n]?.map fun e => (n, e) with _ | ⟨n, e⟩
  · exact ⟨rfl, rfl, rfl, rfl⟩
  · exact ⟨rfl, rfl, rfl, rfl⟩

/-! ## Changing permissions -/

/-- What the shared part of the calls that change permissions does to the
list. -/
theorem changePermission_literal (change : Entry → Entry) (unsetPerm : Bool)
    {m : Manager} {type : CredType} {rawvalue : Text} (htype : Edited type)
    (h : Literal lib type rawvalue (entries m)) :
    (ownIndex lib type rawvalue (entries m) = none ∧
        (changePermission lib change m type rawvalue unsetPerm).1 = .error .gacl ∧
        entries (changePermission lib change m type rawvalue unsetPerm).2 =
          entries m) ∨
      ∃ n e, ownIndex lib type rawvalue (entries m) = some n ∧
        (entries m)[n]? = some e ∧
        (changePermission lib change m type rawvalue unsetPerm).1 = .ok () ∧
        entries (changePermission lib change m type rawvalue unsetPerm).2 =
          (entries m).set n (change e) := by
  obtain ⟨hload, hacl, -, -⟩ := loadCredentialOf_literal htype h
  unfold changePermission
  cases hown : ownIndex lib type rawvalue (entries m) with
  | none =>
      rw [hown] at hload
      refine Or.inl ⟨rfl, ?_⟩
      rcases hr : loadCredentialOf lib m type rawvalue with ⟨found, m'⟩
      rw [hr] at hload hacl
      cases hload
      exact ⟨rfl, congrArg (Option.getD · []) hacl⟩
  | some n =>
      obtain ⟨e, he, -⟩ := ownIndex_spec hown
      rw [hown, Option.bind_some, he] at hload
      refine Or.inr ⟨n, e, rfl, he, ?_⟩
      rcases hr : loadCredentialOf lib m type rawvalue with ⟨found, m'⟩
      rw [hr] at hload hacl
      cases hload
      dsimp only at hacl ⊢
      have hset : (m'.gaclAcl.map fun acl => acl.set n (change e)).getD [] =
          (entries m).set n (change e) := by
        unfold entries
        rw [hacl]
        cases m.gaclAcl with
        | none => rfl
        | some acl => rfl
      cases unsetPerm with
      | true => exact ⟨rfl, hset⟩
      | false => exact ⟨rfl, hset⟩

/-- An edit touches one entry at most, the first that has the credential, and
what it leaves in it is not both allowed and denied. -/
structure Frame (lib : Libraries) (type : CredType) (rawvalue : Text)
    (before after : List Entry) : Prop where
  length : after.length = before.length
  first : ∀ (i : ℕ) (e e' : Entry), before[i]? = some e → after[i]? = some e' →
    e ≠ e' → ownIndex lib type rawvalue before = some i
  changed : ∀ (i : ℕ) (e e' : Entry), before[i]? = some e → after[i]? = some e' →
    e ≠ e' → own lib type rawvalue e = true ∧ e'.creds = e.creds ∧
      e'.allowed &&& e'.denied = 0

theorem frame_refl {type : CredType} {rawvalue : Text} (acl : List Entry) :
    Frame lib type rawvalue acl acl :=
  ⟨rfl, fun _ _ _ he he' hne => absurd (Option.some.inj (he.symm.trans he')) hne,
    fun _ _ _ he he' hne => absurd (Option.some.inj (he.symm.trans he')) hne⟩

theorem frame_set {type : CredType} {rawvalue : Text} {acl : List Entry} {n : ℕ}
    {e e' : Entry} (hn : ownIndex lib type rawvalue acl = some n)
    (he : acl[n]? = some e) (hcreds : e'.creds = e.creds)
    (hdisjoint : e'.allowed &&& e'.denied = 0) :
    Frame lib type rawvalue acl (acl.set n e') := by
  have honly : ∀ (i : ℕ) (x x' : Entry), acl[i]? = some x →
      (acl.set n e')[i]? = some x' → x ≠ x' → n = i := by
    intro i x x' hx hx' hne
    by_contra hi
    rw [List.getElem?_set_ne hi] at hx'
    exact hne (Option.some.inj (hx.symm.trans hx'))
  refine ⟨List.length_set, fun i x x' hx hx' hne => ?_, fun i x x' hx hx' hne => ?_⟩
  · rw [← honly i x x' hx hx' hne]
    exact hn
  · obtain rfl := honly i x x' hx hx' hne
    rw [List.getElem?_set_self (List.getElem?_eq_some_iff.mp he).1] at hx'
    cases he.symm.trans hx
    cases hx'
    obtain ⟨y, hy, hown⟩ := ownIndex_spec hn
    cases he.symm.trans hy
    exact ⟨hown, hcreds, hdisjoint⟩

theorem and_allowPerm {a d p : Perm} (h : a &&& d &&& ~~~p = 0) :
    (a ||| p) &&& (d &&& ~~~p) = 0 := by
  ext i hi
  have hbit := congrArg (fun b => b.getLsbD i) h
  simp at hbit ⊢
  grind

theorem and_denyPerm {a d p : Perm} (h : a &&& d &&& ~~~p = 0) :
    (a &&& ~~~p) &&& (d ||| p) = 0 := by
  rw [BitVec.and_comm]
  refine and_allowPerm ?_
  rwa [BitVec.and_comm d a]

theorem and_eq_zero_of_left {a d p : Perm} (h : a &&& ~~~p = 0) :
    a &&& d &&& ~~~p = 0 := by
  rw [BitVec.and_assoc, BitVec.and_comm d, ← BitVec.and_assoc, h]
  exact BitVec.zero_and

theorem or_eq_of_and_not {a p : Perm} (h : a &&& ~~~p = 0) : a ||| p = p := by
  ext i hi
  have hbit := congrArg (fun b => b.getLsbD i) h
  simp at hbit ⊢
  grind

/-- Apart from the permission itself the entry has none that is allowed and
denied. -/
def Disjoint (lib : Libraries) (type : CredType) (rawvalue : Text) (p : Perm)
    (acl : List Entry) : Prop :=
  ∀ n e, ownIndex lib type rawvalue acl = some n → acl[n]? = some e →
    e.allowed &&& e.denied &&& ~~~p = 0

theorem allowPermission_frame {m : Manager} {type : CredType} {rawvalue : Text}
    {p : Perm} {unsetPerm : Bool} (htype : Edited type)
    (h : Literal lib type rawvalue (entries m))
    (hdisjoint : Disjoint lib type rawvalue p (entries m)) :
    Frame lib type rawvalue (entries m)
      (entries (allowPermission lib m type rawvalue p unsetPerm).2) := by
  unfold allowPermission
  rcases changePermission_literal (fun e => (e.allowPerm p).undenyPerm p) unsetPerm
      htype h
    with ⟨-, -, hsame⟩ | ⟨n, e, hn, he, -, hset⟩
  · rw [hsame]
    exact frame_refl _
  · rw [hset]
    exact frame_set hn he rfl (and_allowPerm (hdisjoint n e hn he))

theorem denyPermission_frame {m : Manager} {type : CredType} {rawvalue : Text}
    {p : Perm} {unsetPerm : Bool} (htype : Edited type)
    (h : Literal lib type rawvalue (entries m))
    (hdisjoint : Disjoint lib type rawvalue p (entries m)) :
    Frame lib type rawvalue (entries m)
      (entries (denyPermission lib m type rawvalue p unsetPerm).2) := by
  unfold denyPermission
  rcases changePermission_literal (fun e => (e.denyPerm p).unallowPerm p) unsetPerm
      htype h
    with ⟨-, -, hsame⟩ | ⟨n, e, hn, he, -, hset⟩
  · rw [hsame]
    exact frame_refl _
  · rw [hset]
    exact frame_set hn he rfl (and_denyPerm (hdisjoint n e hn he))

/-! ## Adding and removing -/

theorem literal_append {type : CredType} {rawvalue : Text} {acl : List Entry}
    (htaken : taken lib type rawvalue (newCred lib type rawvalue) = .ok true)
    (h : Literal lib type rawvalue acl) :
    Literal lib type rawvalue
      (acl ++ [⟨[newCred lib type rawvalue], permNone, permNone⟩]) := by
  intro pre e post hsplit hpre
  rcases List.eq_nil_or_concat post with rfl | ⟨post, x, rfl⟩
  · obtain ⟨-, hlast⟩ := List.append_inj' hsplit rfl
    cases hlast
    unfold scanCreds own
    rw [htaken]
    simp
  · have hsplit' : acl ++ [⟨[newCred lib type rawvalue], permNone, permNone⟩] =
        (pre ++ e :: post) ++ [x] := by
      rw [hsplit, List.concat_eq_append, List.append_assoc, List.cons_append]
    obtain ⟨hacl, -⟩ := List.append_inj' hsplit' rfl
    exact h pre e post hacl hpre

theorem ownIndex_append {type : CredType} {rawvalue : Text} {acl : List Entry}
    (h : ownIndex lib type rawvalue acl = none) :
    ownIndex lib type rawvalue
        (acl ++ [⟨[newCred lib type rawvalue], permNone, permNone⟩]) =
      some acl.length := by
  unfold ownIndex at h ⊢
  rw [List.findIdx?_append, h]
  simp [own]

theorem addEntry_present {m : Manager} {type : CredType} {rawvalue : Text}
    {p : Perm} {n : ℕ} (htype : Edited type)
    (h : Literal lib type rawvalue (entries m))
    (hn : ownIndex lib type rawvalue (entries m) = some n) :
    (addEntry lib m type rawvalue p).1 = .error .gacl ∧
      entries (addEntry lib m type rawvalue p).2 = entries m := by
  obtain ⟨hload, hacl, -, -⟩ := loadCredentialOf_literal htype h
  obtain ⟨e, he, -⟩ := ownIndex_spec hn
  rw [hn, Option.bind_some, he] at hload
  unfold addEntry
  rcases hr : loadCredentialOf lib m type rawvalue with ⟨found, m'⟩
  rw [hr] at hload hacl
  cases hload
  exact ⟨rfl, congrArg (Option.getD · []) hacl⟩

theorem addEntry_absent {m : Manager} {type : CredType} {rawvalue : Text}
    {p : Perm} (htype : Edited type) (h : Literal lib type rawvalue (entries m))
    (htaken : taken lib type rawvalue (newCred lib type rawvalue) = .ok true)
    (hn : ownIndex lib type rawvalue (entries m) = none) :
    (addEntry lib m type rawvalue p).1 = .ok () ∧
      entries (addEntry lib m type rawvalue p).2 =
        entries m ++ [⟨[newCred lib type rawvalue], p, permNone⟩] := by
  obtain ⟨hload, hacl, htype', hvalue⟩ := loadCredentialOf_literal htype h
  rw [hn] at hload
  unfold addEntry
  rcases hr : loadCredentialOf lib m type rawvalue with ⟨found, m'⟩
  rw [hr] at hload hacl htype' hvalue
  cases hload
  have hentries : entries (newCredential lib m') =
      entries m ++ [⟨[newCred lib type rawvalue], permNone, permNone⟩] := by
    subst htype' hvalue
    unfold newCredential entries
    rw [← hacl]
    rfl
  have hliteral : Literal lib type rawvalue (entries (newCredential lib m')) := by
    rw [hentries]
    exact literal_append htaken h
  have hindex : ownIndex lib type rawvalue
      (entries m ++ [⟨[newCred lib type rawvalue], permNone, permNone⟩]) =
      some (entries m).length := ownIndex_append hn
  show (setAllowPermission lib (newCredential lib m') type rawvalue p).1 = _ ∧
    entries (setAllowPermission lib (newCredential lib m') type rawvalue p).2 = _
  unfold setAllowPermission allowPermission
  rcases changePermission_literal (fun e => (e.allowPerm p).undenyPerm p) true htype
    hliteral with ⟨hnone, -, -⟩ | ⟨n, e, hn', he, hok, hset⟩
  · rw [hentries, hindex] at hnone
    cases hnone
  · rw [hentries, hindex] at hn'
    cases hn'
    rw [hentries, List.getElem?_concat_length] at he
    cases he
    refine ⟨hok, ?_⟩
    rw [hset, hentries, List.set_append_right _ _ (Nat.le_refl _), Nat.sub_self]
    simp [Entry.allowPerm, Entry.undenyPerm, permNone]

theorem removeEntry_eq (m : Manager) {type : CredType} (rawvalue : Text)
    (htype : Edited type) :
    (removeEntry lib m type rawvalue).1 =
        .ok (ownIndex lib type rawvalue (entries m)).isSome ∧
      entries (removeEntry lib m type rawvalue).2 =
        match ownIndex lib type rawvalue (entries m) with
        | none => entries m
        | some n => (entries m).eraseIdx n := by
  have hcall : removeEntry lib m type rawvalue =
      match ownIndex lib type rawvalue (entries m) with
      | none => (.ok false, { m with credType := type, rawvalue := rawvalue })
      | some n =>
          (.ok true, { m with
            credType := type
            rawvalue := rawvalue
            gaclAcl := if ((entries m).eraseIdx n).isEmpty then none
              else some ((entries m).eraseIdx n) }) := by
    rcases htype with rfl | rfl <;> rfl
  rw [hcall]
  cases ownIndex lib type rawvalue (entries m) with
  | none => exact ⟨rfl, rfl⟩
  | some n =>
      refine ⟨rfl, ?_⟩
      show (if ((entries m).eraseIdx n).isEmpty then none
        else some ((entries m).eraseIdx n)).getD [] = (entries m).eraseIdx n
      cases (entries m).eraseIdx n with
      | nil => rfl
      | cons e es => rfl

/-! ## Sequences of edits -/

/-- The calls that edit an entry for a person or for an FQAN. -/
def IsEdit : Call → Prop
  | .addEntry type _ _ => Edited type
  | .removeEntry type _ => Edited type
  | .allowPermission type _ _ _ => Edited type
  | .denyPermission type _ _ _ => Edited type
  | .setAllowPermission type _ _ => Edited type
  | .setDenyPermission type _ _ => Edited type
  | _ => False

/-- What a call does, in its return and in the list it leaves. -/
def Right (lib : Libraries) (m : Manager) : Call → Prop
  | .addEntry type v p =>
      let r := addEntry lib m type v p
      ((∃ t, r.1 = .error t) ∧ entries r.2 = entries m ↔
        ∃ e ∈ entries m, own lib type v e = true) ∧
      ((∀ e ∈ entries m, own lib type v e = false) →
        r.1 = .ok () ∧
          entries r.2 = entries m ++ [⟨[newCred lib type v], p, permNone⟩])
  | .removeEntry type v =>
      let r := removeEntry lib m type v
      match ownIndex lib type v (entries m) with
      | none => r.1 = .ok false ∧ entries r.2 = entries m
      | some n => r.1 = .ok true ∧ entries r.2 = (entries m).eraseIdx n
  | .allowPermission type v p unsetPerm =>
      Frame lib type v (entries m)
        (entries (allowPermission lib m type v p unsetPerm).2)
  | .denyPermission type v p unsetPerm =>
      Frame lib type v (entries m)
        (entries (denyPermission lib m type v p unsetPerm).2)
  | .setAllowPermission type v p =>
      let after := entries (setAllowPermission lib m type v p).2
      Frame lib type v (entries m) after ∧
        ∀ n e, ownIndex lib type v (entries m) = some n → after[n]? = some e →
          e.allowed = p
  | .setDenyPermission type v p =>
      let after := entries (setDenyPermission lib m type v p).2
      Frame lib type v (entries m) after ∧
        ∀ n e, ownIndex lib type v (entries m) = some n → after[n]? = some e →
          e.denied = p
  | _ => True

/-- The lookup is literal, the entry has no other permission of the kind that is
set, and none that is allowed and denied; and a new credential is found. -/
def Clear (lib : Libraries) (acl : List Entry) : Call → Prop
  | .addEntry type v _ =>
      Literal lib type v acl ∧
        (ownIndex lib type v acl = none →
          taken lib type v (newCred lib type v) = .ok true)
  | .allowPermission type v p _ =>
      Literal lib type v acl ∧ Disjoint lib type v p acl
  | .denyPermission type v p _ =>
      Literal lib type v acl ∧ Disjoint lib type v p acl
  | .setAllowPermission type v p =>
      Literal lib type v acl ∧
        ∀ n e, ownIndex lib type v acl = some n → acl[n]? = some e →
          e.allowed &&& ~~~p = 0
  | .setDenyPermission type v p =>
      Literal lib type v acl ∧
        ∀ n e, ownIndex lib type v acl = some n → acl[n]? = some e →
          e.denied &&& ~~~p = 0
  | _ => True

theorem ownIndex_eq_none {type : CredType} {rawvalue : Text} {acl : List Entry} :
    ownIndex lib type rawvalue acl = none ↔
      ∀ e ∈ acl, own lib type rawvalue e = false :=
  List.findIdx?_eq_none_iff

theorem right_addEntry {m : Manager} {type : CredType} {v : Text} {p : Perm}
    (htype : Edited type) (h : Clear lib (entries m) (.addEntry type v p)) :
    Right lib m (.addEntry type v p) := by
  obtain ⟨hliteral, htaken⟩ := h
  cases hn : ownIndex lib type v (entries m) with
  | none =>
      obtain ⟨hok, happend⟩ := addEntry_absent (p := p) htype hliteral (htaken hn) hn
      have hnone := ownIndex_eq_none.mp hn
      refine ⟨⟨fun ⟨⟨t, ht⟩, _⟩ => ?_, fun ⟨e, he, hown⟩ => ?_⟩,
        fun _ => ⟨hok, happend⟩⟩
      · cases hok.symm.trans ht
      · exact absurd (hown.symm.trans (hnone e he)) Bool.true_eq_false.mp
  | some n =>
      obtain ⟨hthrown, hsame⟩ := addEntry_present (p := p) htype hliteral hn
      obtain ⟨e, he, hown⟩ := ownIndex_spec hn
      have hmem : e ∈ entries m := List.mem_of_getElem? he
      refine ⟨⟨fun _ => ⟨e, hmem, hown⟩, fun _ => ⟨⟨_, hthrown⟩, hsame⟩⟩,
        fun hnone => ?_⟩
      exact absurd (hown.symm.trans (hnone e hmem)) Bool.true_eq_false.mp

theorem right_removeEntry {m : Manager} {type : CredType} {v : Text}
    (htype : Edited type) : Right lib m (.removeEntry type v) := by
  obtain ⟨hfound, hentries⟩ := removeEntry_eq m v htype
  unfold Right
  cases hn : ownIndex lib type v (entries m) with
  | none =>
      rw [hn] at hfound hentries
      simp only [hn]
      exact ⟨hfound, hentries⟩
  | some n =>
      rw [hn] at hfound hentries
      simp only [hn]
      exact ⟨hfound, hentries⟩

/-- A permission that is set where there is no other one. -/
theorem right_set {m : Manager} {type : CredType} {v : Text}
    {change : Entry → Entry} {unsetPerm : Bool} {field : Entry → Perm} {p : Perm}
    (htype : Edited type) (hliteral : Literal lib type v (entries m))
    (hfield : ∀ n e, ownIndex lib type v (entries m) = some n →
      (entries m)[n]? = some e → field (change e) = p) (n : ℕ) (e : Entry)
    (hn : ownIndex lib type v (entries m) = some n)
    (he : (entries (changePermission lib change m type v unsetPerm).2)[n]? = some e) :
    field e = p := by
  rcases changePermission_literal change unsetPerm htype hliteral with ⟨hnone, -, -⟩ | ⟨n', e', hn', he', -, hset⟩
  · cases hn.symm.trans hnone
  · cases hn.symm.trans hn'
    rw [hset, List.getElem?_set_self (List.getElem?_eq_some_iff.mp he').1] at he
    cases he
    exact hfield n e' hn he'

theorem right_of_clear {m : Manager} {call : Call} (hedit : IsEdit call)
    (h : Clear lib (entries m) call) : Right lib m call := by
  cases call with
  | addEntry type v p => exact right_addEntry hedit h
  | removeEntry type v => exact right_removeEntry hedit
  | allowPermission type v p unsetPerm => exact allowPermission_frame hedit h.1 h.2
  | denyPermission type v p unsetPerm => exact denyPermission_frame hedit h.1 h.2
  | setAllowPermission type v p =>
      refine ⟨allowPermission_frame hedit h.1 fun n e hn he =>
        and_eq_zero_of_left (h.2 n e hn he), ?_⟩
      exact right_set hedit h.1 fun n e hn he => or_eq_of_and_not (h.2 n e hn he)
  | setDenyPermission type v p =>
      refine ⟨denyPermission_frame hedit h.1 fun n e hn he => ?_, ?_⟩
      · rw [BitVec.and_comm e.allowed]
        exact and_eq_zero_of_left (h.2 n e hn he)
      · exact right_set hedit h.1 fun n e hn he => or_eq_of_and_not (h.2 n e hn he)
  | _ => exact hedit.elim

/-- An entry behind a call was there before, or has nothing both allowed and
denied. -/
theorem kept_of_frame {type : CredType} {rawvalue : Text} {before after : List Entry}
    (h : Frame lib type rawvalue before after) (e : Entry) (he : e ∈ after) :
    e ∈ before ∨ e.allowed &&& e.denied = 0 := by
  obtain ⟨i, hi, rfl⟩ := List.getElem_of_mem he
  have hi' : i < before.length := h.length ▸ hi
  by_cases heq : before[i] = after[i]
  · exact Or.inl (heq ▸ List.getElem_mem hi')
  · exact Or.inr (h.changed i _ _ (List.getElem?_eq_getElem hi')
      (List.getElem?_eq_getElem hi) heq).2.2

theorem kept_of_right {m : Manager} {call : Call} (hedit : IsEdit call)
    (h : Right lib m call) (e : Entry) (he : e ∈ entries (afterCall lib m call)) :
    e ∈ entries m ∨ e.allowed &&& e.denied = 0 := by
  cases call with
  | addEntry type v p =>
      obtain ⟨hrefused, hadded⟩ := h
      by_cases hpresent : ∃ x ∈ entries m, own lib type v x = true
      · rw [afterCall, (hrefused.mpr hpresent).2] at he
        exact Or.inl he
      · have hnone : ∀ x ∈ entries m, own lib type v x = false := by
          intro x hx
          by_contra hown
          exact hpresent ⟨x, hx, by simpa using hown⟩
        rw [afterCall, (hadded hnone).2] at he
        rcases List.mem_append.mp he with he | he
        · exact Or.inl he
        · rw [List.mem_singleton.mp he]
          exact Or.inr BitVec.and_zero
  | removeEntry type v =>
      unfold Right at h
      unfold afterCall at he
      cases hn : ownIndex lib type v (entries m) with
      | none =>
          simp only [hn] at h
          rw [h.2] at he
          exact Or.inl he
      | some n =>
          simp only [hn] at h
          rw [h.2] at he
          exact Or.inl (List.mem_of_mem_eraseIdx he)
  | allowPermission type v p unsetPerm => exact kept_of_frame h e he
  | denyPermission type v p unsetPerm => exact kept_of_frame h e he
  | setAllowPermission type v p => exact kept_of_frame h.1 e he
  | setDenyPermission type v p => exact kept_of_frame h.1 e he
  | _ => exact hedit.elim

/-- In a sequence of edits that are all clear where they are made, every edit
does what it is for and nothing else, and in the end an entry is one of the
beginning or has nothing both allowed and denied. -/
theorem edits_right (lib : Libraries) (m : Manager) (calls : List Call)
    (hedit : ∀ call ∈ calls, IsEdit call)
    (hclear : ∀ pre call post, calls = pre ++ call :: post →
      Clear lib (entries (afterCalls lib m pre)) call) :
    (∀ pre call post, calls = pre ++ call :: post →
      Right lib (afterCalls lib m pre) call) ∧
    ∀ e ∈ entries (afterCalls lib m calls),
      e ∈ entries m ∨ e.allowed &&& e.denied = 0 := by
  have hright : ∀ pre call post, calls = pre ++ call :: post →
      Right lib (afterCalls lib m pre) call := by
    intro pre call post hsplit
    refine right_of_clear (hedit call ?_) (hclear pre call post hsplit)
    rw [hsplit]
    exact List.mem_append_right _ List.mem_cons_self
  refine ⟨hright, ?_⟩
  clear hclear
  induction calls generalizing m with
  | nil => exact fun e he => Or.inl he
  | cons call calls ih =>
      intro e he
      have hfirst := hright [] call calls rfl
      have hrest := ih (afterCall lib m call)
        (fun c hc => hedit c (List.mem_cons_of_mem _ hc))
        (fun pre c post hsplit => hright (call :: pre) c post (by rw [hsplit]; rfl))
        e he
      rcases hrest with hmem | hdisjoint
      · exact kept_of_right (hedit call List.mem_cons_self) hfirst e hmem
      · exact Or.inr hdisjoint

/-- A person is added and may execute in the end. -/
theorem edits_right_alice :
    (∀ pre call post, [Call.addEntry .person alice permExec,
        .setAllowPermission .person alice permExec] = pre ++ call :: post →
      Right plain (afterCalls plain (newManager [nobodyMay]) pre) call) ∧
    ∀ e ∈ entries (afterCalls plain (newManager [nobodyMay])
        [.addEntry .person alice permExec, .setAllowPermission .person alice permExec]),
      e ∈ entries (newManager [nobodyMay]) ∨ e.allowed &&& e.denied = 0 := by
  refine edits_right plain (newManager [nobodyMay]) _ ?_ ?_
  · intro call hcall
    rcases List.mem_cons.mp hcall with rfl | hcall
    · exact Or.inl rfl
    · rw [List.mem_singleton.mp hcall]
      exact Or.inl rfl
  · intro pre call post hsplit
    rcases pre with _ | ⟨c, _ | ⟨c', pre⟩⟩
    · cases hsplit
      exact ⟨literal_person _ _, fun _ => by decide⟩
    · cases hsplit
      refine ⟨literal_person _ _, fun n e hn he => ?_⟩
      have hindex : n = 1 := (Option.some.inj hn).symm
      subst hindex
      cases he
      decide
    · cases pre <;> cases hsplit

/-- One person, who may read. -/
def aliceReads : Entry := ⟨[newCred plain .person alice], permRead, permNone⟩

/-- What alice is allowed is not the permission that is set. -/
theorem not_right_setAllowPermission :
    ¬ Right plain (newManager [aliceReads])
      (.setAllowPermission .person alice permExec) := by
  intro h
  have hexact := h.2 0 ⟨[newCred plain .person alice], 3, 0⟩ rfl rfl
  exact absurd hexact (by decide)

end Wms.Security
