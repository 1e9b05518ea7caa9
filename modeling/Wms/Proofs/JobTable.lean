import Wms.Proofs.JobQueries

/-!
# The table of the jobs and the jobs in memory

An update writes the fields whose flags are up, as their getters give them. The
other fields have to be those of the row. A new sequence code also replaces the
old one in both JDLs, whose flags stay as they are.
-/

namespace Wms.Ice

open Wms.Lib

/-! ## Rows -/

theorem columnsOf_names (xs : List (Field × Text)) :
    columnsOf (xs.map fun x => (x.1.name, x.2)) = some xs := by
  induction xs with
  | nil => rfl
  | cons x xs ih =>
      unfold columnsOf at ih ⊢
      rw [List.map_cons, List.mapM_cons, columnOf_name, ih]
      rfl

theorem setColumns_apply (fs : List Field) (g : Field → Text) (r : TextRow) (f : Field) :
    setColumns r (fs.map fun f => (f, g f)) f = if f ∈ fs then g f else r f := by
  induction fs generalizing r with
  | nil => rfl
  | cons f₀ fs ih =>
      show setColumns (Function.update r f₀ (g f₀)) (fs.map fun f => (f, g f)) f = _
      rw [ih]
      by_cases hmem : f ∈ fs
      · rw [if_pos hmem, if_pos (List.mem_cons_of_mem f₀ hmem)]
      · rw [if_neg hmem]
        by_cases heq : f = f₀
        · subst heq
          rw [Function.update_self, if_pos List.mem_cons_self]
        · rw [Function.update_of_ne heq, if_neg fun h =>
            (List.mem_cons.mp h).elim heq hmem]

/-- The row of a job that has just been inserted. -/
theorem run_insert (r : JobRow) (rows : List TextRow) :
    ∃ rows', Insert.run ⟨allFields.map Field.name, allFields.map r.text⟩ rows =
        some rows' ∧
      rows'.find? (fun r' => r' .gridJobid = r.gridJobid) = some r.text := by
  have hzip : (allFields.map Field.name).zip (allFields.map r.text) =
      (allFields.map fun f => (f, r.text f)).map fun x => (x.1.name, x.2) := by
    rw [List.zip_map', List.map_map]
    rfl
  have hrow : setColumns (fun _ => []) (allFields.map fun f => (f, r.text f)) = r.text := by
    funext f
    rw [setColumns_apply, if_pos (mem_allFields f)]
  refine ⟨rows.filter (fun r' => r' .gridJobid ≠ r.gridJobid) ++ [r.text], ?_, ?_⟩
  · unfold Insert.run
    rw [hzip, columnsOf_names, Option.bind_eq_bind, Option.bind_some]
    dsimp only
    rw [hrow]
    rfl
  · have hothers : (rows.filter fun r' => r' .gridJobid ≠ r.gridJobid).find?
        (fun r' => r' .gridJobid = r.gridJobid) = none := by
      rw [List.find?_eq_none]
      intro r' hr' heq
      exact of_decide_eq_true (List.mem_filter.mp hr').2 (of_decide_eq_true heq)
    rw [List.find?_append, hothers, Option.none_or, List.find?_cons_of_pos]
    exact decide_eq_true rfl

/-- The row of a job that has just been written. -/
theorem run_update {fs : List Field} {g : Field → Text} {gid : Text}
    {rows : List TextRow} {r : TextRow}
    (hr : rows.find? (fun r' => r' .gridJobid = gid) = some r)
    (hgid : .gridJobid ∈ fs → g .gridJobid = gid) :
    ∃ rows', Update.run ⟨fs.map fun f => (f.name, g f), (Field.name .gridJobid, gid)⟩ rows =
        some rows' ∧
      rows'.find? (fun r' => r' .gridJobid = gid) =
        some fun f => if f ∈ fs then g f else r f := by
  have hnames : (fs.map fun f => (f.name, g f)) =
      (fs.map fun f => (f, g f)).map fun x => (x.1.name, x.2) := by
    rw [List.map_map]
    rfl
  refine ⟨rows.map fun r' => if r' .gridJobid = gid then
    setColumns r' (fs.map fun f => (f, g f)) else r', ?_, ?_⟩
  · unfold Update.run
    dsimp only
    rw [hnames, columnsOf_names, Option.bind_eq_bind, Option.bind_some, columnOf_name]
    rfl
  · -- the rows of the job stay the rows of the job
    have hsame : (fun r' : TextRow => decide (r' .gridJobid = gid)) ∘
        (fun r' => if r' .gridJobid = gid then
          setColumns r' (fs.map fun f => (f, g f)) else r') =
        fun r' => decide (r' .gridJobid = gid) := by
      funext r'
      rw [Function.comp_apply]
      by_cases hkey : r' .gridJobid = gid
      · rw [if_pos hkey, setColumns_apply]
        by_cases hmem : Field.gridJobid ∈ fs
        · rw [if_pos hmem, hgid hmem, hkey]
        · rw [if_neg hmem]
      · rw [if_neg hkey]
    have hfound := List.find?_some hr
    have hkey : r .gridJobid = gid := of_decide_eq_true hfound
    rw [List.find?_map, hsame, hr, Option.map_some, if_pos hkey]
    refine congrArg some (funext fun f => ?_)
    rw [setColumns_apply]

/-! ## What is written -/

theorem mapM_some {α β : Type} {h : α → Option β} {g : α → β} (xs : List α)
    (hg : ∀ x ∈ xs, h x = some (g x)) : xs.mapM h = some (xs.map g) := by
  induction xs with
  | nil => rfl
  | cons x xs ih =>
      rw [List.mapM_cons, hg x List.mem_cons_self,
        ih fun y hy => hg y (List.mem_cons_of_mem x hy)]
      rfl

theorem some_of_mapM {α β : Type} {h : α → Option β} {xs : List α} {ys : List β}
    (hys : xs.mapM h = some ys) : ∀ x ∈ xs, (h x).isSome = true := by
  induction xs generalizing ys with
  | nil => exact fun x hx => absurd hx List.not_mem_nil
  | cons x xs ih =>
      rw [List.mapM_cons] at hys
      obtain ⟨y, hy, hys⟩ := Option.bind_eq_some_iff.mp hys
      obtain ⟨ys', hys', -⟩ := Option.bind_eq_some_iff.mp hys
      intro z hz
      rcases List.mem_cons.mp hz with rfl | hz
      · rw [hy]
        rfl
      · exact ih hys' z hz

/-- The fields that have changed. -/
def changedFields (j : CreamJob) : List Field := allFields.filter fun f => j.changed f

theorem mem_changedFields {j : CreamJob} {f : Field} :
    f ∈ changedFields j ↔ j.changed f = true := by
  unfold changedFields
  rw [List.mem_filter]
  exact ⟨And.right, fun h => ⟨mem_allFields f, h⟩⟩

theorem changedValues_eq {j : CreamJob} {g : Field → Text}
    (hg : ∀ f, j.changed f = true → valueOf j f = some (g f)) :
    changedValues j = some ((changedFields j).map fun f => (f, g f)) := by
  refine mapM_some _ fun f hf => ?_
  rw [hg f (mem_changedFields.mp hf)]
  rfl

theorem valueOf_isSome {j : CreamJob} {values : List (Field × Text)}
    (h : changedValues j = some values) {f : Field} (hf : j.changed f = true) :
    (valueOf j f).isSome = true := by
  have hsome := some_of_mapM h f (mem_changedFields.mpr hf)
  rw [Option.isSome_map] at hsome
  exact hsome

/-- What an update gives of a job; the identifier is the key. -/
def updateOf (j : CreamJob) (g : Field → Text) : Update :=
  ⟨(changedFields j).map fun f => (f.name, g f), (Field.name .gridJobid, j.gridJobid)⟩

section

variable (ptr : Option ℤ) (sec usec : ℤ)

/-- A statement of an update is read as what was to be written. -/
theorem readUpdate_updateDatabase {j : CreamJob} {g : Field → Text}
    (hg : ∀ f, j.changed f = true → valueOf j f = some (g f))
    (hclean : ∀ f, j.changed f = true → Clean (getTmpName ptr sec usec) (g f))
    (hgid : Clean (getTmpName ptr sec usec) j.gridJobid) :
    ∃ sql, updateDatabase (getTmpName ptr sec usec) j = some sql ∧
      (changedFields j = [] → sql = []) ∧
      (changedFields j ≠ [] → sql.isEmpty = false ∧
        readUpdate (doQuery (getTmpName ptr sec usec) sql) = some (updateOf j g)) := by
  have hvalues := changedValues_eq hg
  unfold updateOf
  cases hfields : changedFields j with
  | nil =>
      rw [hfields] at hvalues
      exact ⟨[], updateDatabase_nil hvalues, fun _ => rfl, fun h => absurd rfl h⟩
  | cons f fs =>
      rw [hfields, List.map_cons] at hvalues
      refine ⟨_, updateDatabase_cons hvalues, fun h => absurd h (List.cons_ne_nil f fs),
        fun _ => ⟨rfl, ?_⟩⟩
      have hmem : ∀ f' ∈ f :: fs, Clean (getTmpName ptr sec usec) (g f') := fun f' hf' =>
        hclean f' (mem_changedFields.mp (hfields ▸ hf'))
      rw [doQuery_marked ptr sec usec (fun p hp => ?_) ⟨by decide, by decide, by decide⟩,
        readUpdate_statement]
      · rw [List.map_cons, List.map_cons, List.map_map]
        rfl
      · obtain ⟨hpiece, hvalue⟩ := pieceOk_updateParts hp
        refine ⟨hpiece, ?_⟩
        rcases hvalue with h | ⟨w, hw, h⟩
        · rw [h]
          exact hgid
        · rw [h]
          obtain ⟨f', hf', rfl⟩ : ∃ f' ∈ f :: fs, (f', g f') = w := by
            rw [← List.map_cons (f := fun f => (f, g f))] at hw
            exact List.mem_map.mp hw
          exact hmem f' hf'

/-- A statement of an insertion is read as what was to be written. -/
theorem readInsert_createJobSql {j : CreamJob}
    (hclean : ∀ f, Clean (getTmpName ptr sec usec) (j.text f)) :
    readInsert (doQuery (getTmpName ptr sec usec)
        (createJobSql (getTmpName ptr sec usec) j)) =
      some ⟨allFields.map Field.name, allFields.map j.text⟩ := by
  have hfields : allFields = .gridJobid :: allFields.tail := rfl
  rw [createJobSql_eq j hfields, doQuery_marked ptr sec usec (fun p hp => ?_)
    ⟨by decide, by decide, by decide⟩, readInsert_statement j.toJobRow hfields]
  obtain ⟨hpiece, f, hf⟩ := pieceOk_insertParts hp
  rw [hf]
  exact ⟨hpiece, hclean f⟩

end

/-! ## The token -/

theorem prefix_of_prefix_separated {m a b : Text} {c : Char} (hc : c ∉ m)
    (h : m <+: a ++ c :: b) : m <+: a := by
  induction a generalizing m with
  | nil =>
      cases m with
      | nil => exact List.nil_prefix
      | cons d m =>
          rw [List.nil_append, List.cons_prefix_cons] at h
          exact absurd (h.1 ▸ List.mem_cons_self) hc
  | cons e a ih =>
      cases m with
      | nil => exact List.nil_prefix
      | cons d m =>
          rw [List.cons_append, List.cons_prefix_cons] at h
          rw [List.cons_prefix_cons]
          exact ⟨h.1, ih (fun hmem => hc (List.mem_cons_of_mem d hmem)) h.2⟩

theorem infix_separated {m a b : Text} {c : Char} (hc : c ∉ m) (hne : m ≠ [])
    (h : m <:+: a ++ c :: b) : m <:+: a ∨ m <:+: b := by
  induction a with
  | nil =>
      rw [List.nil_append, List.infix_cons_iff] at h
      rcases h with h | h
      · have hnil := prefix_of_prefix_separated (a := []) hc h
        exact absurd (List.prefix_nil.mp hnil) hne
      · exact Or.inr h
  | cons e a ih =>
      rw [List.cons_append, List.infix_cons_iff, ← List.cons_append] at h
      rcases h with h | h
      · exact Or.inl (prefix_of_prefix_separated hc h).isInfix
      · exact (ih h).imp_left List.infix_cons

section

variable {ptr : Option ℤ} {sec usec : ℤ}

theorem PieceOk.clean {t : Text} (h : PieceOk t) : Clean (getTmpName ptr sec usec) t :=
  ⟨not_infix_getTmpName ptr sec usec h.noG, h.noNul⟩

theorem Clean.of_infix {s t : Text} (h : Clean (getTmpName ptr sec usec) t)
    (hs : s <:+: t) : Clean (getTmpName ptr sec usec) s :=
  ⟨fun hm => h.free (hm.trans hs), fun hc => h.noNul (hs.subset hc)⟩

theorem Clean.separated {a b : Text} {c : Char} (ha : Clean (getTmpName ptr sec usec) a)
    (hb : Clean (getTmpName ptr sec usec) b) (htag : c ∉ markerTag)
    (hchar : isMarkerChar c = false) (hnul : Char.ofNat 0 ≠ c) :
    Clean (getTmpName ptr sec usec) (a ++ c :: b) where
  free := fun h => (infix_separated (not_mem_getTmpName ptr sec usec htag hchar)
    (getTmpName_ne_nil ptr sec usec) h).elim ha.free hb.free
  noNul := fun h => (List.mem_append.mp h).elim ha.noNul fun h =>
    (List.mem_cons.mp h).elim hnul hb.noNul

/-- A text in brackets is as clean as it was. -/
theorem clean_bracketed {before after url : Text} (hbefore : PieceOk before)
    (hafter : PieceOk after) (h : Clean (getTmpName ptr sec usec) url) :
    Clean (getTmpName ptr sec usec) (before ++ ['['] ++ url ++ ([']'] ++ after)) := by
  have hclosed := h.separated hafter.clean (c := ']') (by decide) (by decide) (by decide)
  have hopened := hbefore.clean.separated hclosed (c := '[') (by decide) (by decide)
    (by decide)
  simp only [List.append_assoc, List.singleton_append]
  exact hopened

theorem clean_emptyPortError {url : Text} (h : Clean (getTmpName ptr sec usec) url) :
    Clean (getTmpName ptr sec usec) (emptyPortError url) := by
  have hbefore : PieceOk "Specified an empty TCP port in the address ".toList :=
    pieceOk_literal (by decide)
  have hafter : PieceOk (". Format must be schema://hostname[:tcpport] and ".toList ++
      "tcpport must be full numeric in the range [2000-65535]".toList) :=
    (pieceOk_literal (by decide)).append (pieceOk_literal (by decide))
  have hopen : "Specified an empty TCP port in the address [".toList =
      "Specified an empty TCP port in the address ".toList ++ ['['] :=
    literal_snoc
  have hclose : "]. Format must be schema://hostname[:tcpport] and ".toList =
      [']'] ++ ". Format must be schema://hostname[:tcpport] and ".toList :=
    literal_cons
  unfold emptyPortError
  rw [hopen, hclose, List.append_assoc (_ ++ ['['] ++ url), List.append_assoc [']']]
  exact clean_bracketed hbefore hafter h

theorem clean_badPortError {url : Text} (h : Clean (getTmpName ptr sec usec) url) :
    Clean (getTmpName ptr sec usec) (badPortError url) := by
  have hbefore :
      PieceOk "Specified an zero or negative TCP port in the address ".toList :=
    pieceOk_literal (by decide)
  have hafter : PieceOk ". It must be in the range [1-65535]".toList :=
    pieceOk_literal (by decide)
  have hopen : "Specified an zero or negative TCP port in the address [".toList =
      "Specified an zero or negative TCP port in the address ".toList ++ ['['] :=
    literal_snoc
  have hclose : "]. It must be in the range [1-65535]".toList =
      [']'] ++ ". It must be in the range [1-65535]".toList := literal_cons
  unfold badPortError
  rw [hopen, hclose]
  exact clean_bracketed hbefore hafter h

theorem clean_parse {url : Text} (h : Clean (getTmpName ptr sec usec) url) :
    Clean (getTmpName ptr sec usec) (Url.parse url).path ∧
      Clean (getTmpName ptr sec usec) (Url.parse url).error := by
  have hnil : Clean (getTmpName ptr sec usec) [] := h.of_infix List.nil_infix
  unfold Url.parse
  split
  · exact ⟨h, hnil⟩
  · rename_i protocol address hprotocol
    have haddress := (breakOn_suffix hprotocol).isInfix
    dsimp only at haddress ⊢
    split
    · exact ⟨h.of_infix haddress, hnil⟩
    · have hpath : Clean (getTmpName ptr sec usec)
          ((breakOn ['/'] address).getD (address, [])).2 := by
        cases hbreak : breakOn ['/'] address with
        | none => exact hnil
        | some r => exact h.of_infix ((breakOn_suffix hbreak).isInfix.trans haddress)
      split
      · exact ⟨hpath, hnil⟩
      · split
        · exact ⟨hpath, clean_emptyPortError h⟩
        · split
          · exact ⟨hpath, clean_badPortError h⟩
          · exact ⟨hpath, hnil⟩

theorem clean_tokenFileOf {token value : Text} (h : Clean (getTmpName ptr sec usec) token)
    (hvalue : CreamJob.tokenFileOf token = some value) :
    Clean (getTmpName ptr sec usec) value := by
  obtain ⟨hpath, herror⟩ := clean_parse h
  unfold CreamJob.tokenFileOf at hvalue
  dsimp only at hvalue
  split at hvalue
  · cases hvalue
    exact herror
  · split at hvalue
    · cases hvalue
    · rename_i heq
      cases hvalue
      rw [← heq]
      exact hpath
    · cases hvalue
      have hnil : Clean (getTmpName ptr sec usec) [] := h.of_infix List.nil_infix
      exact hnil.separated hpath (by decide) (by decide) (by decide)

end

/-! ## Mutators -/

theorem text_set_of_ne {f f' : Field} (h : f ≠ f') (r : JobRow) (v : f'.Value) :
    (r.set f' v).text f = r.text f := by
  cases f' <;> cases f <;> first | rfl | exact absurd rfl h

def Field.isJdl : Field → Bool
  | .jdl => true
  | .modifiedJdl => true
  | _ => false

variable (cfg : Config)

theorem changed_apply (m : Mutator) (j : CreamJob) (f : Field) :
    (m.apply cfg j).changed f = true ↔ f ∈ m.targets ∨ j.changed f = true := by
  cases m <;>
    simp [Mutator.apply, Mutator.targets, CreamJob.setStatus, CreamJob.setCreamJobid,
      CreamJob.setSequenceCode, CreamJob.setFailureReason, CreamJob.touch, or_assoc,
      or_comm, or_left_comm]

/-- The texts behind the flags that stay as they are. -/
theorem text_apply {m : Mutator} {f : Field} (h : f ∉ m.targets) (j : CreamJob) :
    (m.apply cfg j).text f =
      if f.isJdl then
        m.newCode.elim (j.text f) fun seq => replaceAll j.sequenceCode seq (j.text f)
      else j.text f := by
  cases m with
  | setStatus st => cases f <;> first | rfl | exact absurd (by simp [Mutator.targets]) h
  | setCreamJobid cid => cases f <;> first | rfl | exact absurd (by simp [Mutator.targets]) h
  | setSequenceCode seq => cases f <;> first | rfl | exact absurd (by simp [Mutator.targets]) h
  | setFailureReason reason => cases f <;> first | rfl | exact absurd (by simp [Mutator.targets]) h
  | set f' v hplain =>
      have hne : f ≠ f' := fun heq => h (List.mem_singleton.mpr heq)
      show (j.toJobRow.set f' v).text f = _
      rw [text_set_of_ne hne]
      exact (ite_self _).symm

theorem sequenceCode_apply (m : Mutator) (j : CreamJob) :
    (m.apply cfg j).sequenceCode = m.newCode.getD j.sequenceCode := by
  cases m with
  | set f v hplain =>
      have hne : Field.sequenceCode ≠ f := by
        rintro rfl
        exact absurd hplain Bool.false_ne_true
      exact text_set_of_ne hne j.toJobRow v
  | _ => rfl

/-- The identifier and the JDL have no mutator of their own. -/
theorem not_mem_targets (m : Mutator) : .gridJobid ∉ m.targets ∧ .jdl ∉ m.targets := by
  cases m with
  | set f v hplain =>
      constructor
      · intro h
        rw [← List.mem_singleton.mp h] at hplain
        exact absurd hplain Bool.false_ne_true
      · intro h
        rw [← List.mem_singleton.mp h] at hplain
        exact absurd hplain Bool.false_ne_true
  | setStatus st => exact ⟨by simp [Mutator.targets], by simp [Mutator.targets]⟩
  | setCreamJobid cid => exact ⟨by simp [Mutator.targets], by simp [Mutator.targets]⟩
  | setSequenceCode seq => exact ⟨by simp [Mutator.targets], by simp [Mutator.targets]⟩
  | setFailureReason reason => exact ⟨by simp [Mutator.targets], by simp [Mutator.targets]⟩

/-- A flag is up in the end. -/
def Flagged (j : CreamJob) (ms : List Mutator) (f : Field) : Prop :=
  j.changed f = true ∨ ∃ m ∈ ms, f ∈ m.targets

theorem changed_applyAll (ms : List Mutator) (j : CreamJob) (f : Field) :
    (applyAll cfg ms j).changed f = true ↔ Flagged j ms f := by
  unfold Flagged
  induction ms generalizing j with
  | nil => exact ⟨Or.inl, fun h => h.elim id fun ⟨_, hm, _⟩ => absurd hm List.not_mem_nil⟩
  | cons m ms ih =>
      show (applyAll cfg ms (m.apply cfg j)).changed f = true ↔ _
      rw [ih, changed_apply, List.exists_mem_cons_iff]
      exact ⟨fun h => by tauto, fun h => by tauto⟩

theorem text_applyAll {ms : List Mutator} {f : Field} (h : ∀ m ∈ ms, f ∉ m.targets)
    (j : CreamJob) :
    (applyAll cfg ms j).text f =
      if f.isJdl then
        substituted j.sequenceCode (ms.filterMap Mutator.newCode) (j.text f)
      else j.text f := by
  induction ms generalizing j with
  | nil => exact (ite_self _).symm
  | cons m ms ih =>
      show (applyAll cfg ms (m.apply cfg j)).text f = _
      rw [ih fun m' hm' => h m' (List.mem_cons_of_mem m hm'),
        text_apply cfg (h m List.mem_cons_self), sequenceCode_apply, List.filterMap_cons]
      by_cases hjdl : f.isJdl = true
      · rw [if_pos hjdl, if_pos hjdl, if_pos hjdl]
        cases m.newCode <;> rfl
      · rw [if_neg hjdl, if_neg hjdl, if_neg hjdl]

theorem gridJobid_applyAll (ms : List Mutator) (j : CreamJob) :
    (applyAll cfg ms j).gridJobid = j.gridJobid :=
  text_applyAll cfg (f := .gridJobid) (fun m _ => (not_mem_targets m).1) j

/-! ## A job that is written and read again -/

/-- Both statements are read as what is in the job, and the job that is read
again is the one in memory. -/
structure Follows (marker : Text) (j₀ j : CreamJob) : Prop where
  inserted : readInsert (doQuery marker (createJobSql marker j₀)) =
    some ⟨allFields.map Field.name, allFields.map j₀.text⟩
  stored : ∀ rows, ∃ rows', Sql.createJob marker j₀ rows = some rows' ∧
    rows'.find? (fun r => r .gridJobid = j₀.gridJobid) = some j₀.text
  updated : ∃ sql, updateDatabase marker j = some sql ∧
    (changedFields j = [] → sql = []) ∧
    (changedFields j ≠ [] → readUpdate (doQuery marker sql) = some (updateOf j j.text))
  reloaded : ∀ rows, rows.find? (fun r => r .gridJobid = j₀.gridJobid) = some j₀.text →
    ∃ rows', Sql.updateJob marker j rows = some rows' ∧
      Sql.getJobByGid rows' j.gridJobid = some j.toJobRow

/-- Nothing is lost: no text ends early, the token is one that its getter
leaves alone, and a JDL without its flag has not had the old sequence codes. -/
structure Kept (marker : Text) (j₀ : CreamJob) (ms : List Mutator) : Prop where
  inserted : ∀ f, Clean marker (j₀.text f)
  updated : ∀ f, Flagged j₀ ms f → Clean marker ((applyAll cfg ms j₀).text f)
  token : Flagged j₀ ms .tokenFile →
    CreamJob.tokenFileOf (applyAll cfg ms j₀).tokenFile =
      some (applyAll cfg ms j₀).tokenFile
  jdls : ∀ f, f.isJdl = true → Flagged j₀ ms f ∨
    substituted j₀.sequenceCode (ms.filterMap Mutator.newCode) (j₀.text f) = j₀.text f

section

variable {ptr : Option ℤ} {sec usec : ℤ} {cfg : Config} {j₀ : CreamJob}
  {ms : List Mutator}

/-- What the table holds of a job after it has been written. -/
theorem updateJob_eq {j : CreamJob} {g : Field → Text} {rows : List TextRow} {r : TextRow}
    (hg : ∀ f, j.changed f = true → valueOf j f = some (g f))
    (hclean : ∀ f, j.changed f = true → Clean (getTmpName ptr sec usec) (g f))
    (hgid : Clean (getTmpName ptr sec usec) j.gridJobid)
    (hr : rows.find? (fun r => r .gridJobid = j.gridJobid) = some r) :
    ∃ rows', Sql.updateJob (getTmpName ptr sec usec) j rows = some rows' ∧
      Sql.getJobByGid rows' j.gridJobid = some (fetchJobsCallback fun i =>
        (allFields.map fun f => if f ∈ changedFields j then g f else r f).getD i []) := by
  obtain ⟨sql, hsql, hnil, hread⟩ := readUpdate_updateDatabase ptr sec usec hg hclean hgid
  unfold Sql.updateJob Sql.getJobByGid
  rw [hsql, Option.bind_some]
  by_cases hfields : changedFields j = []
  · rw [hnil hfields, hfields]
    refine ⟨rows, rfl, ?_⟩
    rw [hr]
    simp only [Option.map_some, List.not_mem_nil, if_false]
  · obtain ⟨hsome, hread⟩ := hread hfields
    have hkey : Field.gridJobid ∈ changedFields j → g .gridJobid = j.gridJobid := fun h =>
      (Option.some.inj (hg .gridJobid (mem_changedFields.mp h))).symm
    obtain ⟨rows', hrun, hfind⟩ := run_update hr hkey
    refine ⟨rows', ?_, ?_⟩
    · rw [hsome, if_neg Bool.false_ne_true, hread]
      exact hrun
    · rw [hfind]
      rfl

theorem valueOf_of_ne {f : Field} (h : f ≠ .tokenFile) (j : CreamJob) :
    valueOf j f = some (j.text f) := by
  cases f <;> first | rfl | exact absurd rfl h

/-- What the getters give when no text is lost is what is in the fields. -/
theorem Kept.valueOf (h : Kept cfg (getTmpName ptr sec usec) j₀ ms) (f : Field)
    (hf : (applyAll cfg ms j₀).changed f = true) :
    Ice.valueOf (applyAll cfg ms j₀) f = some ((applyAll cfg ms j₀).text f) := by
  by_cases htoken : f = .tokenFile
  · subst htoken
    exact h.token ((changed_applyAll cfg ms j₀ .tokenFile).mp hf)
  · exact valueOf_of_ne htoken _

theorem Kept.row (h : Kept cfg (getTmpName ptr sec usec) j₀ ms) (f : Field) :
    (if f ∈ changedFields (applyAll cfg ms j₀) then (applyAll cfg ms j₀).text f
      else j₀.text f) = (applyAll cfg ms j₀).text f := by
  by_cases hmem : f ∈ changedFields (applyAll cfg ms j₀)
  · rw [if_pos hmem]
  · have hflag : ¬ Flagged j₀ ms f := fun hf =>
      hmem (mem_changedFields.mpr ((changed_applyAll cfg ms j₀ f).mpr hf))
    rw [if_neg hmem, text_applyAll cfg (fun m hm hf => hflag (Or.inr ⟨m, hm, hf⟩))]
    by_cases hjdl : f.isJdl = true
    · rw [if_pos hjdl, (h.jdls f hjdl).resolve_left hflag]
    · rw [if_neg hjdl]

theorem Kept.follows (h : Kept cfg (getTmpName ptr sec usec) j₀ ms)
    (hrange : (applyAll cfg ms j₀).InRange) :
    Follows (getTmpName ptr sec usec) j₀ (applyAll cfg ms j₀) := by
  have hinsert := readInsert_createJobSql ptr sec usec h.inserted
  have hgid : Clean (getTmpName ptr sec usec) (applyAll cfg ms j₀).gridJobid := by
    rw [gridJobid_applyAll]
    exact h.inserted .gridJobid
  have hclean : ∀ f, (applyAll cfg ms j₀).changed f = true →
      Clean (getTmpName ptr sec usec) ((applyAll cfg ms j₀).text f) := fun f hf =>
    h.updated f ((changed_applyAll cfg ms j₀ f).mp hf)
  refine ⟨hinsert, fun rows => ?_, ?_, fun rows hr => ?_⟩
  · unfold Sql.createJob
    rw [hinsert, Option.bind_some]
    exact run_insert j₀.toJobRow rows
  · obtain ⟨sql, hsql, hnil, hread⟩ :=
      readUpdate_updateDatabase ptr sec usec h.valueOf hclean hgid
    exact ⟨sql, hsql, hnil, fun hfields => (hread hfields).2⟩
  · rw [← gridJobid_applyAll cfg ms j₀] at hr
    obtain ⟨rows', hrun, hget⟩ := updateJob_eq h.valueOf hclean hgid hr
    refine ⟨rows', hrun, ?_⟩
    have hrow : (fun f => if f ∈ changedFields (applyAll cfg ms j₀) then
        (applyAll cfg ms j₀).text f else j₀.text f) = (applyAll cfg ms j₀).text :=
      funext h.row
    rw [hget, hrow, fetch_text hrange]

theorem clean_of_inserted (h : readInsert (doQuery (getTmpName ptr sec usec)
      (createJobSql (getTmpName ptr sec usec) j₀)) =
      some ⟨allFields.map Field.name, allFields.map j₀.text⟩) (f : Field) :
    Clean (getTmpName ptr sec usec) (j₀.text f) :=
  clean_values ptr sec usec h _ (List.mem_map.mpr ⟨f, mem_allFields f, rfl⟩)

/-- A statement that is read as what is in the job was made of it. -/
theorem getters_of_updated {j : CreamJob} {sql : Text}
    (hgid : Clean (getTmpName ptr sec usec) j.gridJobid)
    (hsql : updateDatabase (getTmpName ptr sec usec) j = some sql)
    (hread : changedFields j ≠ [] →
      readUpdate (doQuery (getTmpName ptr sec usec) sql) = some (updateOf j j.text)) :
    (∀ f, j.changed f = true → Clean (getTmpName ptr sec usec) (j.text f)) ∧
      ∀ f, j.changed f = true → valueOf j f = some (j.text f) := by
  have hfields {f : Field} (hf : j.changed f = true) : changedFields j ≠ [] :=
    List.ne_nil_of_mem (mem_changedFields.mpr hf)
  have hclean : ∀ f, j.changed f = true → Clean (getTmpName ptr sec usec) (j.text f) :=
    fun f hf => clean_assignments ptr sec usec (hread (hfields hf)) (f.name, j.text f)
      (List.mem_map.mpr ⟨f, mem_changedFields.mpr hf, rfl⟩)
  refine ⟨hclean, fun f hf => ?_⟩
  -- what the getters gave, of which only the token can differ
  let g : Field → Text := fun f => (valueOf j f).getD []
  have hsome : ∀ f, j.changed f = true → valueOf j f = some (g f) := by
    intro f hf
    obtain ⟨values, hvalues, -⟩ := Option.map_eq_some_iff.mp hsql
    obtain ⟨v, hv⟩ := Option.isSome_iff_exists.mp (valueOf_isSome hvalues hf)
    show _ = some ((valueOf j f).getD [])
    rw [hv, Option.getD_some]
  have hcleanG : ∀ f, j.changed f = true → Clean (getTmpName ptr sec usec) (g f) := by
    intro f hf
    by_cases htoken : f = .tokenFile
    · subst htoken
      exact clean_tokenFileOf (hclean .tokenFile hf) (hsome .tokenFile hf)
    · have heq := hsome f hf
      rw [valueOf_of_ne htoken] at heq
      rw [← Option.some.inj heq]
      exact hclean f hf
  obtain ⟨sql', hsql', -, hread'⟩ :=
    readUpdate_updateDatabase ptr sec usec hsome hcleanG hgid
  cases hsql.symm.trans hsql'
  have hsame := (hread' (hfields hf)).2.symm.trans (hread (hfields hf))
  have hmap := congrArg Update.assignments (Option.some.inj hsame)
  have hpair := List.map_inj_left.mp hmap f (mem_changedFields.mpr hf)
  rw [hsome f hf, (Prod.mk.inj hpair).2]

theorem Follows.kept
    (h : Follows (getTmpName ptr sec usec) j₀ (applyAll cfg ms j₀)) :
    Kept cfg (getTmpName ptr sec usec) j₀ ms := by
  have hinserted := clean_of_inserted h.inserted
  have hgid : Clean (getTmpName ptr sec usec) (applyAll cfg ms j₀).gridJobid := by
    rw [gridJobid_applyAll]
    exact hinserted .gridJobid
  obtain ⟨sql, hsql, -, hread⟩ := h.updated
  obtain ⟨hclean, hvalue⟩ := getters_of_updated hgid hsql hread
  refine ⟨hinserted, fun f hf => hclean f ((changed_applyAll cfg ms j₀ f).mpr hf),
    fun hf => hvalue .tokenFile ((changed_applyAll cfg ms j₀ .tokenFile).mpr hf),
    fun f hjdl => ?_⟩
  by_cases hflag : Flagged j₀ ms f
  · exact Or.inl hflag
  refine Or.inr ?_
  have hrows : [j₀.text].find? (fun r => r .gridJobid = j₀.gridJobid) = some j₀.text :=
    List.find?_cons_of_pos (decide_eq_true rfl)
  obtain ⟨rows', hrun, hget⟩ := h.reloaded _ hrows
  rw [← gridJobid_applyAll cfg ms j₀] at hrows
  obtain ⟨rows'', hrun', hget'⟩ := updateJob_eq hvalue hclean hgid hrows
  cases hrun.symm.trans hrun'
  have hjob := Option.some.inj (hget'.symm.trans hget)
  have hmem : f ∉ changedFields (applyAll cfg ms j₀) := fun hf =>
    hflag ((changed_applyAll cfg ms j₀ f).mp (mem_changedFields.mp hf))
  have htext : j₀.text f = (applyAll cfg ms j₀).text f := by
    rw [← hjob]
    cases f with
    | jdl => exact (if_neg hmem).symm
    | modifiedJdl => exact (if_neg hmem).symm
    | _ => exact absurd hjdl Bool.false_ne_true
  have hfinal := text_applyAll cfg (fun m hm hf => hflag (Or.inr ⟨m, hm, hf⟩)) j₀
  rw [if_pos hjdl] at hfinal
  exact hfinal.symm.trans htext.symm

/-- The table follows a job exactly when nothing is lost. -/
theorem follows_iff (hrange : (applyAll cfg ms j₀).InRange) :
    Follows (getTmpName ptr sec usec) j₀ (applyAll cfg ms j₀) ↔
      Kept cfg (getTmpName ptr sec usec) j₀ ms :=
  ⟨Follows.kept, fun h => h.follows hrange⟩

end

/-- A job that has just been read, with its sequence code in both JDLs. -/
def loadedJob : CreamJob where
  gridJobid := "https://lb/1".toList
  sequenceCode := "UI=1".toList
  jdl := "[LB_sequence_code=\"UI=1\"]".toList
  modifiedJdl := "[LB_sequence_code=\"UI=1\"]".toList
  failureReason := "can't".toList
  tokenFile := "/nofile".toList
  changed := fun _ => false

def noConfig : Config := ⟨[], [], [], [], 0, 0, [], []⟩

/-- A job whose status, reason and token have been set comes back. -/
theorem follows_loaded :
    Follows (getTmpName none 0 0) loadedJob (applyAll noConfig
      [.setStatus .doneFailed, .setFailureReason "won't".toList,
        .set .tokenFile "/token".toList rfl] loadedJob) := by
  have hclean (r : JobRow) (h : ∀ f ∈ allFields, 'G' ∉ r.text f ∧
      Char.ofNat 0 ∉ r.text f) (f : Field) : Clean (getTmpName none 0 0) (r.text f) :=
    ⟨not_infix_getTmpName none 0 0 (h f (mem_allFields f)).1,
      (h f (mem_allFields f)).2⟩
  exact (follows_iff (by constructor <;> decide)).mpr
    ⟨hclean _ (by decide +kernel), fun f _ => hclean _ (by decide +kernel) f,
      fun _ => by decide +kernel, fun _ _ => Or.inr rfl⟩

/-- A job that has been given a new sequence code does not. -/
theorem not_follows_setSequenceCode :
    ¬ Follows (getTmpName none 0 0) loadedJob (applyAll noConfig
      [.setSequenceCode "UI=2".toList] loadedJob) := by
  intro h
  rcases h.kept.jdls .jdl rfl with (hflag | ⟨m, hm, hflag⟩) | hsame
  · exact absurd hflag Bool.false_ne_true
  · exact (not_mem_targets m).2 hflag
  · exact absurd hsame (by decide +kernel)

end Wms.Ice
