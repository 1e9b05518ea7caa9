import Mathlib.Data.Nat.Notation
import Mathlib.Data.List.Nodup
import Wms.Lib.Instances

/-!
# A table with a unique index

The rows of a table of a database, no two of them with the same key. The
operations are those an SQL statement with a condition on the key makes, and
one whose condition is any predicate. What can be said of a table afterwards is
said in two ways, one for each operation: which rows there are, and which row a
key finds.
-/

namespace Wms.Lib

universe u v

/-- The rows of a table, no two of one key. -/
structure Table {κ : Type u} {ρ : Type v} (key : ρ → κ) where
  rows : List ρ
  unique : (rows.map key).Nodup

namespace Table

variable {κ : Type u} {ρ : Type v} [DecidableEq κ] {key : ρ → κ}

/-- No rows. -/
def empty : Table key := ⟨[], List.nodup_nil⟩

/-- `SELECT … WHERE key = k`. -/
def find? (t : Table key) (k : κ) : Option ρ :=
  t.rows.find? fun r => key r = k

/-- `DELETE … WHERE p`. -/
def deleteIf (t : Table key) (p : ρ → Bool) : Table key where
  rows := t.rows.filter fun r => !p r
  unique := (List.filter_sublist.map key).nodup t.unique

/-- `DELETE … WHERE key = k`. -/
def delete (t : Table key) (k : κ) : Table key :=
  t.deleteIf fun r => key r = k

/-- `INSERT OR REPLACE`. -/
def put (t : Table key) (r : ρ) : Table key where
  rows := (t.delete (key r)).rows ++ [r]
  unique := by
    rw [List.map_append, List.nodup_append]
    refine ⟨(t.delete (key r)).unique, List.nodup_singleton _, ?_⟩
    intro a ha b hb hab
    obtain ⟨r', hr', rfl⟩ := List.mem_map.mp ha
    have hkey : key r' ≠ key r := by
      simpa [delete, deleteIf] using (List.mem_filter.mp hr').2
    have hb' : b = key r := by simpa using hb
    exact hkey (hab.trans hb')

/-- `UPDATE … WHERE p`, by an update that leaves the key. -/
def modifyIf (t : Table key) (p : ρ → Bool) (f : ρ → ρ)
    (hf : ∀ r, p r → key (f r) = key r) : Table key where
  rows := t.rows.map fun r => if p r then f r else r
  unique := by
    rw [List.map_map]
    have hsame : (key ∘ fun r => if p r then f r else r) = key := by
      funext r
      by_cases hp : p r
      · simp only [Function.comp_apply, if_pos hp]
        exact hf r hp
      · simp only [Function.comp_apply, if_neg hp]
    rw [hsame]
    exact t.unique

/-- `UPDATE … WHERE key = k`. -/
def modify (t : Table key) (k : κ) (f : ρ → ρ)
    (hf : ∀ r, key r = k → key (f r) = k) : Table key :=
  t.modifyIf (fun r => key r = k) f fun r hr =>
    (hf r (of_decide_eq_true hr)).trans (of_decide_eq_true hr).symm

/-! ## Which rows there are -/

omit [DecidableEq κ] in
theorem mem_deleteIf {t : Table key} {p : ρ → Bool} {r : ρ} :
    r ∈ (t.deleteIf p).rows ↔ r ∈ t.rows ∧ p r = false := by
  simp [deleteIf]

theorem mem_delete {t : Table key} {k : κ} {r : ρ} :
    r ∈ (t.delete k).rows ↔ r ∈ t.rows ∧ key r ≠ k := by
  simp [delete, mem_deleteIf]

theorem mem_put {t : Table key} {r r' : ρ} :
    r' ∈ (t.put r).rows ↔ r' ∈ t.rows ∧ key r' ≠ key r ∨ r' = r := by
  simp [put, mem_delete]

omit [DecidableEq κ] in
theorem mem_modifyIf {t : Table key} {p : ρ → Bool} {f : ρ → ρ}
    {hf : ∀ r, p r → key (f r) = key r} {r' : ρ} :
    r' ∈ (t.modifyIf p f hf).rows ↔
      r' ∈ t.rows ∧ p r' = false ∨ ∃ r ∈ t.rows, p r = true ∧ f r = r' := by
  simp only [modifyIf, List.mem_map]
  constructor
  · rintro ⟨r, hr, rfl⟩
    cases hp : p r with
    | true => exact Or.inr ⟨r, hr, hp, by simp⟩
    | false => exact Or.inl ⟨by simpa [hp] using hr, by simp [hp]⟩
  · rintro (⟨hr, hp⟩ | ⟨r, hr, hp, rfl⟩)
    · exact ⟨r', hr, by simp [hp]⟩
    · exact ⟨r, hr, by simp [hp]⟩

theorem mem_modify {t : Table key} {k : κ} {f : ρ → ρ}
    {hf : ∀ r, key r = k → key (f r) = k} {r' : ρ} :
    r' ∈ (t.modify k f hf).rows ↔
      r' ∈ t.rows ∧ key r' ≠ k ∨ ∃ r ∈ t.rows, key r = k ∧ f r = r' := by
  simp [modify, mem_modifyIf]

omit [DecidableEq κ] in
theorem eq_of_mem {t : Table key} {r r' : ρ} (hr : r ∈ t.rows)
    (hr' : r' ∈ t.rows) (hkey : key r = key r') : r = r' :=
  List.inj_on_of_nodup_map t.unique hr hr' hkey

omit [DecidableEq κ] in
theorem eq_of_rows {t t' : Table key} (h : t.rows = t'.rows) : t = t' := by
  cases t
  cases t'
  congr

/-! ## Which row a key finds -/

theorem find?_eq_some_iff {t : Table key} {k : κ} {r : ρ} :
    t.find? k = some r ↔ r ∈ t.rows ∧ key r = k := by
  constructor
  · intro h
    exact ⟨List.mem_of_find?_eq_some h, by simpa using List.find?_some h⟩
  · rintro ⟨hr, hk⟩
    cases hfind : t.find? k with
    | none =>
        have hnone := List.find?_eq_none.mp hfind r hr
        exact absurd hk (by simpa using hnone)
    | some r' =>
        have hr' : r' ∈ t.rows := List.mem_of_find?_eq_some hfind
        have hk' : key r' = k := by simpa using List.find?_some hfind
        rw [eq_of_mem hr' hr (hk'.trans hk.symm)]

theorem find?_eq_none_iff {t : Table key} {k : κ} :
    t.find? k = none ↔ ∀ r ∈ t.rows, key r ≠ k := by
  simp [find?, List.find?_eq_none]

theorem find?_delete_self (t : Table key) (k : κ) :
    (t.delete k).find? k = none :=
  find?_eq_none_iff.mpr fun _ hr => (mem_delete.mp hr).2

theorem find?_delete_ne (t : Table key) {k k' : κ} (h : k' ≠ k) :
    (t.delete k).find? k' = t.find? k' := by
  ext r
  rw [find?_eq_some_iff, find?_eq_some_iff, mem_delete]
  constructor
  · rintro ⟨⟨hr, -⟩, hk⟩
    exact ⟨hr, hk⟩
  · rintro ⟨hr, hk⟩
    exact ⟨⟨hr, fun hk' => h (hk.symm.trans hk')⟩, hk⟩

theorem find?_put_self (t : Table key) (r : ρ) :
    (t.put r).find? (key r) = some r :=
  find?_eq_some_iff.mpr ⟨mem_put.mpr (Or.inr rfl), rfl⟩

theorem find?_put_ne (t : Table key) {r : ρ} {k : κ} (h : k ≠ key r) :
    (t.put r).find? k = t.find? k := by
  ext r'
  rw [find?_eq_some_iff, find?_eq_some_iff, mem_put]
  constructor
  · rintro ⟨⟨hr, -⟩ | rfl, hk⟩
    · exact ⟨hr, hk⟩
    · exact absurd hk.symm h
  · rintro ⟨hr, hk⟩
    exact ⟨Or.inl ⟨hr, fun hk' => h (hk.symm.trans hk')⟩, hk⟩

theorem find?_modify_self (t : Table key) (k : κ) (f : ρ → ρ)
    (hf : ∀ r, key r = k → key (f r) = k) :
    (t.modify k f hf).find? k = (t.find? k).map f := by
  cases hfind : t.find? k with
  | none =>
      refine find?_eq_none_iff.mpr fun r hr hk => ?_
      rcases mem_modify.mp hr with ⟨-, hne⟩ | ⟨r', hr', hk', -⟩
      · exact hne hk
      · exact find?_eq_none_iff.mp hfind r' hr' hk'
  | some r =>
      obtain ⟨hr, hk⟩ := find?_eq_some_iff.mp hfind
      exact find?_eq_some_iff.mpr
        ⟨mem_modify.mpr (Or.inr ⟨r, hr, hk, rfl⟩), hf r hk⟩

theorem find?_modify_ne (t : Table key) {k k' : κ} (f : ρ → ρ)
    (hf : ∀ r, key r = k → key (f r) = k) (h : k' ≠ k) :
    (t.modify k f hf).find? k' = t.find? k' := by
  ext r
  rw [find?_eq_some_iff, find?_eq_some_iff, mem_modify]
  constructor
  · rintro ⟨⟨hr, -⟩ | ⟨r', -, hk', rfl⟩, hk⟩
    · exact ⟨hr, hk⟩
    · exact absurd (hk.symm.trans (hf r' hk')) h
  · rintro ⟨hr, hk⟩
    exact ⟨Or.inl ⟨hr, fun hk' => h (hk.symm.trans hk')⟩, hk⟩

theorem modify_of_find?_eq_none {t : Table key} {k : κ} {f : ρ → ρ}
    {hf : ∀ r, key r = k → key (f r) = k} (h : t.find? k = none) :
    t.modify k f hf = t := by
  refine eq_of_rows ((List.map_congr_left fun r hr => ?_).trans (List.map_id _))
  simp [find?_eq_none_iff.mp h r hr]

end Table

end Wms.Lib
