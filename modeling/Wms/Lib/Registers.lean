import Mathlib.Data.List.Induction
import Mathlib.Data.List.Perm.Basic
import Wms.Lib.Instances

/-!
# Writes to registers

A state of many registers, and writes to some of them one after the other. Most
registers hold the last value written to them, some the first. Writes may be
made in any order exactly when no two of them have different values for one
register.
-/

namespace Wms.Lib.Registers

universe u v

variable {K : Type u} {V : Type v}

/-- Registers without a value. -/
def blank : K → Option V := fun _ => none

/-- Two writes have the same value where both have one. -/
def Agree (w w' : K → Option V) : Prop :=
  ∀ k x y, w k = some x → w' k = some y → x = y

/-- No two of some writes say different things. -/
def AgreeAll (ws : List (K → Option V)) : Prop := ∀ w ∈ ws, ∀ w' ∈ ws, Agree w w'

variable (keeps : K → Bool)

/-- One write, where some registers keep what they have. -/
def write (w s : K → Option V) : K → Option V :=
  fun k => if keeps k then (s k).or (w k) else (w k).or (s k)

/-- Some writes one after another. -/
def writeAll (ws : List (K → Option V)) (s : K → Option V) : K → Option V :=
  ws.foldl (fun s w => write keeps w s) s

/-- Several writes as one. -/
def block (ws : List (K → Option V)) : K → Option V :=
  fun k => ws.findSome? fun w => w k

variable {keeps} {k : K} {x : V} {w s : K → Option V} {ws ws' : List (K → Option V)}

theorem writeAll_append (ws ws' : List (K → Option V)) (s : K → Option V) :
    writeAll keeps (ws ++ ws') s = writeAll keeps ws' (writeAll keeps ws s) :=
  List.foldl_append

theorem writeAll_snoc (ws : List (K → Option V)) (w s : K → Option V) :
    writeAll keeps (ws ++ [w]) s = write keeps w (writeAll keeps ws s) :=
  writeAll_append ws [w] s

theorem AgreeAll.subset (h : AgreeAll ws) (hsub : ws' ⊆ ws) : AgreeAll ws' :=
  fun w hw w' hw' => h w (hsub hw) w' (hsub hw')

theorem write_eq_some_iff (h : ∀ y, s k = some y → w k = some x → y = x)
    (h' : ∀ y, w k = some y → s k = some x → y = x) :
    write keeps w s k = some x ↔ s k = some x ∨ w k = some x := by
  unfold write
  cases hs : s k with
  | none => cases keeps k <;> simp
  | some y =>
      cases hw : w k with
      | none => cases keeps k <;> simp
      | some z =>
          have hleft := h y hs
          have hright := h' z hw
          rw [hw] at hleft
          rw [hs] at hright
          cases keeps k <;> simp only [Option.or_some, if_true, if_false,
            Option.some.injEq, Bool.false_eq_true] at hleft hright ⊢
          · exact ⟨.inr, fun hx => hx.elim hright id⟩
          · exact ⟨.inl, fun hx => hx.elim id hleft⟩

/-- Where the writes agree, a register has what one of them has for it. -/
theorem writeAll_eq_some_iff (h : AgreeAll ws) :
    writeAll keeps ws blank k = some x ↔ ∃ w ∈ ws, w k = some x := by
  induction ws using List.reverseRecOn generalizing x with
  | nil => simp [writeAll, blank]
  | append_singleton ws w ih =>
      have hws := h.subset (List.subset_append_left ws [w])
      have hw : w ∈ ws ++ [w] := List.mem_append_right ws List.mem_cons_self
      rw [writeAll_snoc, write_eq_some_iff, ih hws]
      · simp only [List.mem_append, List.mem_singleton, or_and_right, exists_or,
          exists_eq_left]
      · intro y hy hx
        obtain ⟨w', hw', hy⟩ := (ih hws).mp hy
        exact h w' (List.mem_append_left _ hw') w hw k y x hy hx
      · intro y hy hx
        obtain ⟨w', hw', hx⟩ := (ih hws).mp hx
        exact h w hw w' (List.mem_append_left _ hw') k y x hy hx

theorem writeAll_perm (h : AgreeAll ws) (hperm : ws'.Perm ws) :
    writeAll keeps ws' blank = writeAll keeps ws blank := by
  funext k
  refine Option.ext fun x => ?_
  show writeAll keeps ws' blank k = some x ↔ writeAll keeps ws blank k = some x
  rw [writeAll_eq_some_iff (h.subset hperm.subset), writeAll_eq_some_iff h]
  exact exists_congr fun w => and_congr_left fun _ => hperm.mem_iff

theorem writeAll_kept (hk : keeps k = true) (hs : s k = some x)
    (ws : List (K → Option V)) : writeAll keeps ws s k = some x := by
  induction ws generalizing s with
  | nil => exact hs
  | cons w ws ih =>
      refine ih (s := write keeps w s) ?_
      unfold write
      rw [if_pos hk, hs, Option.some_or]

theorem write_isSome :
    (write keeps w s k).isSome ↔ (s k).isSome ∨ (w k).isSome := by
  unfold write
  split <;> simp [or_comm]

/-- A register has a value when one of the writes has one for it. -/
theorem writeAll_isSome (ws : List (K → Option V)) (s : K → Option V) :
    (writeAll keeps ws s k).isSome ↔ (s k).isSome ∨ ∃ w ∈ ws, (w k).isSome := by
  induction ws generalizing s with
  | nil => simp [writeAll]
  | cons w ws ih =>
      rw [show writeAll keeps (w :: ws) s = writeAll keeps ws (write keeps w s) from rfl,
        ih, write_isSome]
      simp only [List.mem_cons, or_and_right, exists_or, exists_eq_left, or_assoc]

section

variable {ι : Type v} {f : ι → K → Option V} {l : List ι}

/-- The value of a write is there when it comes last, or first where a register
keeps its value. -/
theorem exists_perm_value (keeps : K → Bool) {i : ι} (hi : i ∈ l)
    (hx : f i k = some x) :
    ∃ l' : List ι, l'.Perm l ∧ writeAll keeps (l'.map f) blank k = some x := by
  obtain ⟨before, after, rfl⟩ := List.append_of_mem hi
  cases hk : keeps k with
  | true =>
      refine ⟨i :: (before ++ after), List.perm_middle.symm, ?_⟩
      refine writeAll_kept (s := write keeps (f i) blank) hk ?_ _
      unfold write
      rw [if_pos hk, hx]
      rfl
  | false =>
      refine ⟨(before ++ after) ++ [i], ?_, ?_⟩
      · exact (List.perm_append_singleton i _).trans List.perm_middle.symm
      · rw [List.map_append, List.map_singleton, writeAll_snoc]
        unfold write
        rw [hk, if_neg Bool.false_ne_true, hx, Option.some_or]

theorem agreeAll_iff :
    AgreeAll (l.map f) ↔
      ∀ l' : List ι, l'.Perm l →
        writeAll keeps (l'.map f) blank = writeAll keeps (l.map f) blank := by
  refine ⟨fun h l' hperm => writeAll_perm h (hperm.map f), fun h => ?_⟩
  intro w hw w' hw' k x y hx hy
  obtain ⟨i, hi, rfl⟩ := List.mem_map.mp hw
  obtain ⟨j, hj, rfl⟩ := List.mem_map.mp hw'
  obtain ⟨l₁, hperm₁, h₁⟩ := exists_perm_value keeps hi hx
  obtain ⟨l₂, hperm₂, h₂⟩ := exists_perm_value keeps hj hy
  rw [h l₁ hperm₁] at h₁
  rw [h l₂ hperm₂, h₁] at h₂
  exact Option.some.inj h₂

end

theorem block_cons (w : K → Option V) (ws : List (K → Option V)) (k : K) :
    block (w :: ws) k = (w k).or (block ws k) := by
  unfold block
  rw [List.findSome?_cons]
  cases w k <;> rfl

theorem block_isSome (ws : List (K → Option V)) :
    (block ws k).isSome ↔ ∃ w ∈ ws, (w k).isSome := by
  unfold block
  rw [List.findSome?_isSome_iff]

theorem block_eq_some (h : block ws k = some x) : ∃ w ∈ ws, w k = some x :=
  List.exists_of_findSome?_eq_some h

theorem block_of_mem (h : AgreeAll ws) (hw : w ∈ ws) (hx : w k = some x) :
    block ws k = some x := by
  have hsome : (block ws k).isSome :=
    (block_isSome ws).mpr ⟨w, hw, Option.isSome_iff_exists.mpr ⟨x, hx⟩⟩
  obtain ⟨y, hy⟩ := Option.isSome_iff_exists.mp hsome
  obtain ⟨w', hw', hy'⟩ := block_eq_some hy
  rw [hy, h w' hw' w hw k y x hy' hx]

/-- Writes that agree are one write. -/
theorem writeAll_block (h : AgreeAll ws) (s : K → Option V) :
    writeAll keeps ws s = write keeps (block ws) s := by
  induction ws generalizing s with
  | nil =>
      funext k
      unfold write
      cases keeps k
      · rfl
      · exact (Option.or_none).symm
  | cons w ws ih =>
      have hrest := h.subset (List.subset_cons_self w ws)
      refine (ih hrest (write keeps w s)).trans (funext fun k => ?_)
      unfold write
      rw [block_cons]
      cases keeps k with
      | true => exact Option.or_assoc
      | false =>
          simp only [if_neg Bool.false_ne_true]
          rw [← Option.or_assoc]
          congr 1
          cases hw : w k with
          | none => exact Option.or_none
          | some x =>
              cases hb : block ws k with
              | none => rfl
              | some y =>
                  obtain ⟨w', hw', hy⟩ := block_eq_some hb
                  rw [h w' (List.mem_cons_of_mem w hw') w List.mem_cons_self k y x
                    hy hw]

end Wms.Lib.Registers
