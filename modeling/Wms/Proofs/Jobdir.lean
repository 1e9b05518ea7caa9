import Wms.Common.Jobdir
import Wms.Lib.Fresh

/-!
# What a job directory keeps

As long as no two calls of `deliver` have the clock, the thread and the tag in
common, a name is given once, and so every file has one writer and is never
replaced. That is what the invariant rests on; the steps of the reader are
renamings of what it then finds.

The order in which a reading takes its entries needs none of this. A name begins
with columns of digits, so names sort by the clock.
-/

namespace Wms.Common.Utilities.JobDir

open Wms.Lib

/-! ## Names -/

/-- The clock as it stands in a name. -/
def stamp (t : Ptime) : Text :=
  column 4 t.year ++ (column 2 t.month ++ (column 2 t.day ++
    'T' :: (column 2 t.hours ++ (column 2 t.minutes ++ (column 2 t.seconds ++
      '.' :: column numFractionalDigits t.fractionalSeconds)))))

/-- What follows the thread in a name. -/
def suffix (tag : Tag) : Text :=
  if tag.text.isEmpty then [] else '_' :: tag.text

section
variable {t t' : Ptime} {thread thread' : ℕ} {tag tag' : Tag} {x y : Text}

theorem toDigits_year : Nat.toDigits 10 t.year = column 4 t.year := by
  have hle : (Nat.toDigits 10 t.year).length ≤ 4 :=
    length_toDigits_le t.year_valid.2 (by decide)
  have hge : ¬ (Nat.toDigits 10 t.year).length ≤ 3 := by
    rw [Nat.length_toDigits_le_iff (by decide) (by decide)]
    have hyear := t.year_valid.1
    omega
  have hzero : 4 - (Nat.toDigits 10 t.year).length = 0 := by omega
  rw [column, zeroFill, hzero, List.replicate_zero, List.nil_append]

theorem lt_hundred {n m : ℕ} (h : n < m) (hm : m ≤ 100) : n < 10 ^ 2 :=
  Nat.lt_of_lt_of_le h hm

theorem length_stamp : (stamp t).length = 22 := by
  have hy := length_column t.year_valid.2 (show 0 < 4 by decide)
  have hmo := length_column (lt_hundred t.date_valid.1 (by decide)) Nat.two_pos
  have hd := length_column (lt_hundred t.date_valid.2 (by decide)) Nat.two_pos
  have hh := length_column (lt_hundred t.time_valid.1 (by decide)) Nat.two_pos
  have hmi := length_column (lt_hundred t.time_valid.2.1 (by decide)) Nat.two_pos
  have hs := length_column (lt_hundred t.time_valid.2.2 (by decide)) Nat.two_pos
  have hf := @length_column 6 t.fractionalSeconds t.fraction_valid (by decide)
  rw [stamp, numFractionalDigits]
  simp only [List.length_append, List.length_cons, hy, hmo, hd, hh, hmi, hs, hf]

/-- The parts before the fraction are fifteen characters. -/
theorem toIsoString_eq : ∃ w : Text, w.length = 15 ∧
    stamp t = w ++ '.' :: column numFractionalDigits t.fractionalSeconds ∧
    toIsoString t = if t.fractionalSeconds = 0 then w
      else w ++ '.' :: column numFractionalDigits t.fractionalSeconds := by
  refine ⟨column 4 t.year ++ (column 2 t.month ++ (column 2 t.day ++
    'T' :: (column 2 t.hours ++ (column 2 t.minutes ++ column 2 t.seconds)))),
    ?_, ?_, ?_⟩
  · have hlen := @length_stamp t
    have hf := @length_column 6 t.fractionalSeconds t.fraction_valid (by decide)
    rw [stamp, numFractionalDigits] at hlen
    simp only [List.length_append, List.length_cons, hf] at hlen ⊢
    omega
  · rw [stamp]
    simp only [List.append_assoc, List.cons_append]
  · rw [toIsoString, toDigits_year]
    split
    · simp only [List.append_assoc, List.append_nil]
    · simp only [List.append_assoc, List.cons_append]

theorem fileName_eq : fileName t (idStr thread) tag =
    stamp t ++ '_' :: (idStr thread ++ suffix tag) := by
  obtain ⟨w, hw, hstamp, hiso⟩ := @toIsoString_eq t
  have hfull : (if (toIsoString t).length = 15 then
      toIsoString t ++ '.' :: List.replicate numFractionalDigits '0'
      else toIsoString t) = stamp t := by
    rw [hiso, hstamp]
    by_cases hzero : t.fractionalSeconds = 0
    · rw [if_pos hzero, if_pos hw, hzero]
      rfl
    · rw [if_neg hzero, if_neg (by rw [List.length_append, hw]; simp)]
  rw [fileName, hfull, suffix]
  split
  · rw [List.append_nil]
  · simp only [List.append_assoc, List.cons_append]

theorem column_append_lt {w m n : ℕ} (hm : m < 10 ^ w) (hn : n < 10 ^ w)
    (hw : 0 < w) :
    column w m ++ x < column w n ++ y ↔ m < n ∨ m = n ∧ x < y := by
  rw [append_lt_append_iff ((length_column hm hw).trans (length_column hn hw).symm),
    column_lt_iff hm hn hw]
  have heq : column w m = column w n ↔ m = n :=
    ⟨column_inj, fun h => by rw [h]⟩
  rw [heq]

/-- Stamps are in the order of the clock. -/
theorem stamp_lt_iff : stamp t < stamp t' ↔ t.parts < t'.parts := by
  have hmo := lt_hundred t.date_valid.1 (by decide)
  have hmo' := lt_hundred t'.date_valid.1 (by decide)
  have hd := lt_hundred t.date_valid.2 (by decide)
  have hd' := lt_hundred t'.date_valid.2 (by decide)
  have hh := lt_hundred t.time_valid.1 (by decide)
  have hh' := lt_hundred t'.time_valid.1 (by decide)
  have hmi := lt_hundred t.time_valid.2.1 (by decide)
  have hmi' := lt_hundred t'.time_valid.2.1 (by decide)
  have hs := lt_hundred t.time_valid.2.2 (by decide)
  have hs' := lt_hundred t'.time_valid.2.2 (by decide)
  rw [stamp, stamp, column_append_lt t.year_valid.2 t'.year_valid.2 (by decide),
    column_append_lt hmo hmo' Nat.two_pos, column_append_lt hd hd' Nat.two_pos,
    List.cons_lt_cons_self, column_append_lt hh hh' Nat.two_pos,
    column_append_lt hmi hmi' Nat.two_pos, column_append_lt hs hs' Nat.two_pos,
    List.cons_lt_cons_self,
    column_lt_iff t.fraction_valid t'.fraction_valid (by decide), Ptime.parts,
    Ptime.parts]
  simp only [List.cons_lt_cons_iff, List.not_lt_nil, and_false, or_false]

theorem eq_of_parts (h : t.parts = t'.parts) : t = t' := by
  cases t
  cases t'
  simp only [Ptime.parts, List.cons.injEq, and_true] at h
  obtain ⟨rfl, rfl, rfl, rfl, rfl, rfl, rfl⟩ := h
  rfl

theorem stamp_inj (h : stamp t = stamp t') : t = t' := by
  refine eq_of_parts ?_
  rcases lt_trichotomy t.parts t'.parts with hlt | heq | hgt
  · exact absurd h (stamp_lt_iff.mpr hlt).ne
  · exact heq
  · exact absurd h.symm (stamp_lt_iff.mpr hgt).ne

/-- A later clock makes a greater name. -/
theorem fileName_lt (h : t.parts < t'.parts) :
    fileName t (idStr thread) tag < fileName t' (idStr thread') tag' := by
  rw [fileName_eq, fileName_eq,
    append_lt_append_iff (length_stamp.trans length_stamp.symm)]
  exact .inl (stamp_lt_iff.mpr h)

theorem takeWhile_idStr :
    (idStr thread ++ suffix tag).takeWhile Char.isDigit = idStr thread := by
  have hdigits : ∀ c ∈ idStr thread, c.isDigit = true := fun _ hc =>
    Nat.isDigit_of_mem_toDigits (by decide) (by decide) hc
  have hsuffix : (suffix tag).takeWhile Char.isDigit = [] := by
    rw [suffix]
    split <;> rfl
  rw [List.takeWhile_append_of_pos hdigits, hsuffix, List.append_nil]

theorem idStr_inj (h : idStr thread = idStr thread') : thread = thread' := by
  have hvalue := congrArg (Nat.ofDigitChars 10 · 0) h
  simpa only [idStr, Nat.ofDigitChars_ten_toDigits] using hvalue

theorem suffix_inj (h : suffix tag = suffix tag') : tag = tag' := by
  have htext : tag.text = tag'.text := by
    rw [suffix, suffix] at h
    split at h
    next hnil =>
        split at h
        next hnil' =>
            rw [List.isEmpty_iff.mp hnil, List.isEmpty_iff.mp hnil']
        next => cases h
    next =>
        split at h
        next => cases h
        next => exact (List.cons.inj h).2
  cases tag
  cases tag'
  cases htext
  rfl

/-- A name tells the clock, the thread and the tag. -/
theorem fileName_inj
    (h : fileName t (idStr thread) tag = fileName t' (idStr thread') tag') :
    t = t' ∧ thread = thread' ∧ tag = tag' := by
  rw [fileName_eq, fileName_eq] at h
  obtain ⟨hstamp, hrest⟩ :=
    List.append_inj h (length_stamp.trans length_stamp.symm)
  have htail := (List.cons.inj hrest).2
  have hthread : thread = thread' := by
    have htake := congrArg (List.takeWhile Char.isDigit) htail
    rw [takeWhile_idStr, takeWhile_idStr] at htake
    exact idStr_inj htake
  subst hthread
  exact ⟨stamp_inj hstamp, rfl, suffix_inj (List.append_cancel_left htail)⟩

end

/-! ## What an entry holds -/

/-- Every entry of a directory is a delivery that has returned, and complete. -/
def Holds (s : State) (dir : Directory) : Prop :=
  ∀ entry ∈ dir.rows, ∃ contents,
    (entry.1, contents) ∈ s.returned ∧ s.files[entry.2]? = some contents

section
variable {s s' : State} {dir dir' : Directory} {name : Text} {entry : Text × ℕ}

theorem mem_leaves : name ∈ leaves dir ↔ ∃ entry ∈ dir.rows, entry.1 = name :=
  List.mem_map

theorem find?_of_mem_leaves (h : name ∈ leaves dir) :
    ∃ file, dir.find? name = some (name, file) := by
  obtain ⟨e, hmem, rfl⟩ := mem_leaves.mp h
  exact ⟨e.2, Table.find?_eq_some_iff.mpr ⟨hmem, rfl⟩⟩

theorem leaves_delete (h : dir.find? name = some entry) :
    (leaves dir).Perm (name :: leaves (dir.delete name)) := by
  obtain ⟨hmem, hname⟩ := Table.find?_eq_some_iff.mp h
  refine (List.perm_ext_iff_of_nodup dir.unique (List.nodup_cons.mpr
    ⟨fun hin => ?_, (dir.delete name).unique⟩)).mpr fun n => ?_
  · obtain ⟨e, he, heq⟩ := mem_leaves.mp hin
    exact (Table.mem_delete.mp he).2 heq
  · show n ∈ leaves dir ↔ n ∈ name :: leaves (dir.delete name)
    rw [List.mem_cons, mem_leaves, mem_leaves]
    constructor
    · rintro ⟨e, he, rfl⟩
      by_cases hn : e.1 = name
      · exact .inl hn
      · exact .inr ⟨e, Table.mem_delete.mpr ⟨he, hn⟩, rfl⟩
    · rintro (rfl | ⟨e, he, rfl⟩)
      · exact ⟨entry, hmem, hname⟩
      · exact ⟨e, (Table.mem_delete.mp he).1, rfl⟩

theorem leaves_put (h : entry.1 ∉ leaves dir) :
    (leaves (dir.put entry)).Perm (entry.1 :: leaves dir) := by
  refine (List.perm_ext_iff_of_nodup (dir.put entry).unique
    (List.nodup_cons.mpr ⟨h, dir.unique⟩)).mpr fun n => ?_
  show n ∈ leaves (dir.put entry) ↔ n ∈ entry.1 :: leaves dir
  rw [List.mem_cons, mem_leaves, mem_leaves]
  constructor
  · rintro ⟨e, he, rfl⟩
    rcases Table.mem_put.mp he with ⟨he, -⟩ | rfl
    · exact .inr ⟨e, he, rfl⟩
    · exact .inl rfl
  · rintro (rfl | ⟨e, he, rfl⟩)
    · exact ⟨entry, Table.mem_put.mpr (.inr rfl), rfl⟩
    · exact ⟨e, Table.mem_put.mpr (.inl ⟨he, fun heq =>
        h (mem_leaves.mpr ⟨e, he, heq⟩)⟩), rfl⟩

theorem Holds.mono (h : Holds s dir)
    (hrows : ∀ e ∈ dir'.rows, e ∈ dir.rows ∧ s'.files[e.2]? = s.files[e.2]?)
    (hreturned : s.returned ⊆ s'.returned) : Holds s' dir' := by
  intro e he
  obtain ⟨hmem, hfile⟩ := hrows e he
  obtain ⟨contents, hret, hcontents⟩ := h e hmem
  exact ⟨contents, hreturned hret, hfile.trans hcontents⟩

theorem Holds.contents (h : Holds s dir) (hunique : (s.returned.map (·.1)).Nodup)
    {contents : Text} (hreturned : (name, contents) ∈ s.returned)
    (hname : name ∈ leaves dir) : contentsOf s dir name = some contents := by
  obtain ⟨file, hfind⟩ := find?_of_mem_leaves hname
  obtain ⟨contents', hret, hfile⟩ := h _ (Table.find?_eq_some_iff.mp hfind).1
  have heq : contents' = contents :=
    congrArg Prod.snd (List.inj_on_of_nodup_map hunique hret hreturned rfl)
  rw [contentsOf, hfind, Option.bind_some, hfile, heq]

end

/-! ## The invariant -/

/-- Every delivery in progress has a name and a file to itself. -/
structure Inv (s : State) : Prop where
  unique : (s.returned.map (·.1)).Nodup
  once : (s.returned.map (·.1)).Perm (leaves s.new ++ moved s)
  new : Holds s s.new
  old : Holds s s.old
  values : ∀ name value, (name, value) ∈ s.values →
    ∃ contents, (name, contents) ∈ s.returned ∧ value = valueOf contents
  kept : ∀ name ∈ leaves s.old, name ∈ moved s
  listed : ∀ r, s.reading = some r →
    r.entries.Nodup ∧ ∀ name ∈ r.entries, name ∈ leaves s.new
  counted : ∀ d ∈ s.deliveries.rows, d.call < s.calls
  opened : ∀ d ∈ s.deliveries.rows, s.tmp.find? d.name = some (d.name, d.file) ∧
    d.written ≤ d.contents.length ∧
    s.files[d.file]? = some (d.contents.take d.written)
  apart : ∀ d ∈ s.deliveries.rows, ∀ e ∈ s.deliveries.rows, d.call ≠ e.call →
    d.name ≠ e.name ∧ d.file ≠ e.file
  fresh : ∀ d ∈ s.deliveries.rows, d.name ∉ s.returned.map (·.1)
  alone : ∀ d ∈ s.deliveries.rows, ∀ entry ∈ s.new.rows ++ s.old.rows,
    entry.2 ≠ d.file

theorem Inv.keeps {s : State} (h : Inv s) : Keeps s where
  unique := h.unique
  once := h.once
  waits _ _ := h.new.contents h.unique
  whole _ _ := h.old.contents h.unique
  values := h.values

/-- The names that a state has. -/
def Known (s : State) (name : Text) : Prop :=
  name ∈ leaves s.tmp ∨ (∃ d ∈ s.deliveries.rows, d.name = name) ∨
    name ∈ s.returned.map (·.1)

theorem inv_init : Inv init where
  unique := List.nodup_nil
  once := List.Perm.nil
  new := fun _ h => absurd h List.not_mem_nil
  old := fun _ h => absurd h List.not_mem_nil
  values := fun _ _ h => absurd h List.not_mem_nil
  kept := fun _ h => absurd h List.not_mem_nil
  listed := fun _ h => absurd h (by simp [init])
  counted := fun _ h => absurd h List.not_mem_nil
  opened := fun _ h => absurd h List.not_mem_nil
  apart := fun _ h => absurd h List.not_mem_nil
  fresh := fun _ h => absurd h List.not_mem_nil
  alone := fun _ h => absurd h List.not_mem_nil

section
variable {s : State} {d : Delivery} {name contents : Text} {n : ℕ}

theorem Inv.file_lt (h : Inv s) {entry : Text × ℕ}
    (he : entry ∈ s.new.rows ++ s.old.rows) : entry.2 < s.files.length := by
  rcases List.mem_append.mp he with he | he
  · obtain ⟨contents, -, hfile⟩ := h.new entry he
    exact (List.getElem?_eq_some_iff.mp hfile).1
  · obtain ⟨contents, -, hfile⟩ := h.old entry he
    exact (List.getElem?_eq_some_iff.mp hfile).1

theorem Inv.delivery_file_lt (h : Inv s) (hd : d ∈ s.deliveries.rows) :
    d.file < s.files.length :=
  (List.getElem?_eq_some_iff.mp (h.opened d hd).2.2).1

/-- A new file for a new name. -/
theorem Inv.openTmp (h : Inv s) (hname : ¬ Known s name) :
    Inv (openTmp s name contents) := by
  have htmp : s.tmp.find? name = none := by
    refine Table.find?_eq_none_iff.mpr fun e he heq => ?_
    exact hname (.inl (mem_leaves.mpr ⟨e, he, heq⟩))
  have hold : ∀ d' ∈ s.deliveries.rows, d'.name ≠ name := fun d' hd' heq =>
    hname (.inr (.inl ⟨d', hd', heq⟩))
  have hfiles : ∀ i < s.files.length,
      (s.files ++ [[]])[i]? = s.files[i]? := fun i hi =>
    List.getElem?_append_left hi
  have hmem : ∀ d', d' ∈ (s.deliveries.put
      ⟨s.calls, name, contents, s.files.length, 0⟩).rows →
        d' ∈ s.deliveries.rows ∨
          d' = ⟨s.calls, name, contents, s.files.length, 0⟩ := fun d' hd' =>
    (Table.mem_put.mp hd').imp And.left id
  rw [JobDir.openTmp, htmp]
  refine ⟨h.unique, h.once, h.new.mono (fun e he => ⟨he, hfiles _ (h.file_lt
    (List.mem_append_left _ he))⟩) (fun _ => id), h.old.mono (fun e he =>
    ⟨he, hfiles _ (h.file_lt (List.mem_append_right _ he))⟩) (fun _ => id),
    h.values, h.kept, h.listed, ?_, ?_, ?_, ?_, ?_⟩
  · intro d' hd'
    rcases hmem d' hd' with hd' | rfl
    · exact Nat.lt_succ_of_lt (h.counted d' hd')
    · exact Nat.lt_succ_self _
  · intro d' hd'
    rcases hmem d' hd' with hd' | rfl
    · obtain ⟨hfind, hwritten, hfile⟩ := h.opened d' hd'
      refine ⟨?_, hwritten, (hfiles _ (h.delivery_file_lt hd')).trans hfile⟩
      rw [Table.find?_put_ne _ (hold d' hd')]
      exact hfind
    · refine ⟨Table.find?_put_self _ _, Nat.zero_le _, ?_⟩
      rw [List.getElem?_append_right (Nat.le_refl _), Nat.sub_self]
      rfl
  · intro d' hd' e he hne
    rcases hmem d' hd' with hd' | rfl
    · rcases hmem e he with he | rfl
      · exact h.apart d' hd' e he hne
      · exact ⟨hold d' hd', (h.delivery_file_lt hd').ne⟩
    · rcases hmem e he with he | rfl
      · exact ⟨(hold e he).symm, (h.delivery_file_lt he).ne'⟩
      · exact absurd rfl hne
  · intro d' hd'
    rcases hmem d' hd' with hd' | rfl
    · exact h.fresh d' hd'
    · exact fun hin => hname (.inr (.inr hin))
  · intro d' hd' e he
    rcases hmem d' hd' with hd' | rfl
    · exact h.alone d' hd' e he
    · exact (h.file_lt he).ne

/-- What is written goes on where the last write has ended. -/
theorem writeAt_take {buf : Text} (hd : d.written ≤ d.contents.length)
    (hbuf : buf = (d.contents.drop d.written).take n) :
    writeAt d.written buf (d.contents.take d.written) =
      d.contents.take (d.written + buf.length) := by
  have hlen : (d.contents.take d.written).length = d.written := by
    rw [List.length_take, Nat.min_eq_left hd]
  have htail : (d.contents.drop d.written).take buf.length = buf := by
    rw [hbuf, List.length_take, ← List.take_take, List.take_length]
  rw [writeAt, hlen, Nat.sub_self, List.replicate_zero, List.append_nil,
    List.take_take, Nat.min_self, List.drop_eq_nil_of_le (by omega),
    List.append_nil, List.take_add, htail]

theorem Inv.writeSome (h : Inv s) (hd : d ∈ s.deliveries.rows) :
    Inv (writeSome s d n) := by
  obtain ⟨hfind, hwritten, hfile⟩ := h.opened d hd
  obtain ⟨buf, hbuf⟩ : ∃ buf, buf = (d.contents.drop d.written).take n := ⟨_, rfl⟩
  have hlen : d.written + buf.length ≤ d.contents.length := by
    rw [hbuf, List.length_take, List.length_drop]
    omega
  have hfiles : ∀ i, i ≠ d.file →
      (s.files.modify d.file (writeAt d.written buf))[i]? = s.files[i]? := by
    intro i hi
    exact List.getElem?_modify_ne _ _ hi.symm
  have hmem : ∀ d', d' ∈ (s.deliveries.put
      { d with written := d.written + buf.length }).rows →
        d' ∈ s.deliveries.rows ∧ d'.call ≠ d.call ∨
          d' = { d with written := d.written + buf.length } := fun d' hd' =>
    Table.mem_put.mp hd'
  rw [JobDir.writeSome, ← hbuf]
  refine ⟨h.unique, h.once, h.new.mono (fun e he => ⟨he, hfiles _ (h.alone d hd e
    (List.mem_append_left _ he))⟩) (fun _ => id), h.old.mono (fun e he =>
    ⟨he, hfiles _ (h.alone d hd e (List.mem_append_right _ he))⟩) (fun _ => id),
    h.values, h.kept, h.listed, ?_, ?_, ?_, ?_, ?_⟩
  · intro d' hd'
    rcases hmem d' hd' with ⟨hd', -⟩ | rfl
    · exact h.counted d' hd'
    · exact h.counted d hd
  · intro d' hd'
    rcases hmem d' hd' with ⟨hd', hne⟩ | rfl
    · obtain ⟨hfind', hwritten', hfile'⟩ := h.opened d' hd'
      exact ⟨hfind', hwritten',
        (hfiles _ (h.apart d' hd' d hd hne).2).trans hfile'⟩
    · refine ⟨hfind, hlen, ?_⟩
      show (s.files.modify d.file (writeAt d.written buf))[d.file]? =
        some (d.contents.take (d.written + buf.length))
      rw [List.getElem?_modify_eq, hfile]
      exact congrArg some (writeAt_take hwritten hbuf)
  · intro d' hd' e he hne
    rcases hmem d' hd' with ⟨hd', hcall⟩ | rfl
    · rcases hmem e he with ⟨he, -⟩ | rfl
      · exact h.apart d' hd' e he hne
      · exact h.apart d' hd' d hd hcall
    · rcases hmem e he with ⟨he, hcall⟩ | rfl
      · exact h.apart d hd e he hcall.symm
      · exact absurd rfl hne
  · intro d' hd'
    rcases hmem d' hd' with ⟨hd', -⟩ | rfl
    · exact h.fresh d' hd'
    · exact h.fresh d hd
  · intro d' hd' e he
    rcases hmem d' hd' with ⟨hd', -⟩ | rfl
    · exact h.alone d' hd' e he
    · exact h.alone d hd e he

/-- Where the delivery is over, its name and its file are left to nobody. -/
theorem Inv.deliveries (h : Inv s) (hd : d ∈ s.deliveries.rows) :
    ∀ e ∈ (s.deliveries.delete d.call).rows, e ∈ s.deliveries.rows ∧
      e.name ≠ d.name ∧ e.file ≠ d.file := by
  intro e he
  obtain ⟨he, hne⟩ := Table.mem_delete.mp he
  exact ⟨he, h.apart e he d hd hne⟩

theorem Inv.not_mem_new (h : Inv s) (hd : d ∈ s.deliveries.rows) :
    d.name ∉ leaves s.new := fun hin =>
  h.fresh d hd (h.once.mem_iff.mpr (List.mem_append_left _ hin))

theorem Inv.renameToNew (h : Inv s) (hd : d ∈ s.deliveries.rows)
    (hall : d.written = d.contents.length) : Inv (renameToNew s d) := by
  obtain ⟨hfind, -, hfile⟩ := h.opened d hd
  rw [hall, List.take_length] at hfile
  have hrest := h.deliveries hd
  have hsub : s.returned ⊆ s.returned ++ [(d.name, d.contents)] :=
    List.subset_append_left _ _
  have hnew : (leaves (s.new.put (d.name, d.file))).Perm (d.name :: leaves s.new) :=
    leaves_put (h.not_mem_new hd)
  rw [JobDir.renameToNew, hfind]
  refine ⟨?_, ?_, ?_, h.old.mono (fun e he => ⟨he, rfl⟩) hsub, ?_, h.kept, ?_, ?_,
    ?_, ?_, ?_, ?_⟩
  · rw [List.map_append, List.nodup_append]
    refine ⟨h.unique, List.nodup_singleton _, fun a ha b hb hab => ?_⟩
    rw [hab, List.mem_singleton.mp hb] at ha
    exact h.fresh d hd ha
  · rw [List.map_append]
    refine (List.perm_append_comm.trans ?_).trans (hnew.append_right _).symm
    exact h.once.cons d.name
  · intro e he
    rcases Table.mem_put.mp he with ⟨he, -⟩ | rfl
    · obtain ⟨contents, hret, hcontents⟩ := h.new e he
      exact ⟨contents, hsub hret, hcontents⟩
    · exact ⟨d.contents, List.mem_append_right _ (List.mem_singleton.mpr rfl), hfile⟩
  · intro name value hvalue
    obtain ⟨contents, hret, heq⟩ := h.values name value hvalue
    exact ⟨contents, hsub hret, heq⟩
  · intro r hr
    obtain ⟨hnodup, hentries⟩ := h.listed r hr
    exact ⟨hnodup, fun name hname => hnew.mem_iff.mpr
      (List.mem_cons_of_mem _ (hentries name hname))⟩
  · exact fun e he => h.counted e (hrest e he).1
  · intro e he
    obtain ⟨he, hname, -⟩ := hrest e he
    obtain ⟨hfind', hopened⟩ := h.opened e he
    refine ⟨?_, hopened⟩
    rw [Table.find?_delete_ne _ hname]
    exact hfind'
  · exact fun e he e' he' => h.apart e (hrest e he).1 e' (hrest e' he').1
  · intro e he hin
    obtain ⟨he, hname, -⟩ := hrest e he
    rw [List.map_append, List.mem_append] at hin
    rcases hin with hin | hin
    · exact h.fresh e he hin
    · exact hname (List.mem_singleton.mp hin)
  · intro e he entry hentry
    obtain ⟨he, -, hfile'⟩ := hrest e he
    rcases List.mem_append.mp hentry with hentry | hentry
    · rcases Table.mem_put.mp hentry with ⟨hentry, -⟩ | rfl
      · exact h.alone e he entry (List.mem_append_left _ hentry)
      · exact hfile'.symm
    · exact h.alone e he entry (List.mem_append_right _ hentry)

theorem Inv.fail (h : Inv s) (hd : d ∈ s.deliveries.rows) :
    Inv { s with deliveries := s.deliveries.delete d.call } := by
  have hrest := h.deliveries hd
  exact ⟨h.unique, h.once, h.new, h.old, h.values, h.kept, h.listed,
    fun e he => h.counted e (hrest e he).1,
    fun e he => h.opened e (hrest e he).1,
    fun e he e' he' => h.apart e (hrest e he).1 e' (hrest e' he').1,
    fun e he => h.fresh e (hrest e he).1,
    fun e he => h.alone e (hrest e he).1⟩

/-! ### The reader -/

theorem Inv.newEntries (h : Inv s) (hreading : s.reading = none) :
    Inv { s with reading := some ⟨newEntries s, []⟩ } := by
  have hmoved : moved { s with reading := some ⟨JobDir.newEntries s, []⟩ } =
      moved s := by
    rw [moved, moved, hreading]
    rfl
  refine ⟨h.unique, ?_, h.new, h.old, h.values, ?_, ?_, h.counted, h.opened,
    h.apart, h.fresh, h.alone⟩
  · rw [hmoved]
    exact h.once
  · rw [hmoved]
    exact h.kept
  · rintro r ⟨⟩
    have hperm := List.perm_insertionSort (· ≤ ·) (leaves s.new)
    exact ⟨hperm.nodup_iff.mpr s.new.unique, fun name hname => hperm.mem_iff.mp hname⟩

/-- Neither the reader's list of what it has moved nor the place of an item in
it matters to the invariant. -/
theorem Inv.moving (h : Inv s) {reading : Option Reading} {handed stranded : List Text}
    (hperm : (moved { s with
      reading := reading, handed := handed, stranded := stranded }).Perm (moved s))
    (hlisted : ∀ r, reading = some r →
      r.entries.Nodup ∧ ∀ name ∈ r.entries, name ∈ leaves s.new) :
    Inv { s with
      reading := reading, handed := handed, stranded := stranded } :=
  ⟨h.unique, h.once.trans (hperm.symm.append_left _), h.new, h.old, h.values,
    fun name hname => hperm.mem_iff.mpr (h.kept name hname), hlisted, h.counted,
    h.opened, h.apart, h.fresh, h.alone⟩

theorem Inv.setOld (h : Inv s) {rest result : List Text}
    (hreading : s.reading = some ⟨name :: rest, result⟩) :
    Inv (setOld s name rest result) := by
  obtain ⟨hnodup, hentries⟩ := h.listed _ hreading
  obtain ⟨hname, hrest⟩ := List.nodup_cons.mp hnodup
  obtain ⟨file, hfind⟩ := find?_of_mem_leaves (hentries name List.mem_cons_self)
  have hnew := leaves_delete hfind
  have hrow := (Table.find?_eq_some_iff.mp hfind).1
  have hmoved : moved s = result ++ s.handed ++ s.stranded := by
    rw [moved, hreading]
    rfl
  rw [JobDir.setOld, hfind]
  refine ⟨h.unique, ?_, h.new.mono (fun e he => ⟨(Table.mem_delete.mp he).1, rfl⟩)
    (fun _ => id), ?_, h.values, ?_, ?_, h.counted, h.opened, h.apart, h.fresh, ?_⟩
  · have hperm : (name :: leaves (s.new.delete name) ++
        (result ++ s.handed ++ s.stranded)).Perm (leaves (s.new.delete name) ++
          (result ++ [name] ++ s.handed ++ s.stranded)) := by
      simp only [List.append_assoc, List.cons_append, List.nil_append]
      refine List.perm_middle.symm.trans (List.Perm.append_left _ ?_)
      exact List.perm_middle.symm
    exact (h.once.trans (hmoved ▸ hnew.append_right _)).trans hperm
  · intro e he
    rcases Table.mem_put.mp he with ⟨he, -⟩ | rfl
    · exact h.old e he
    · exact h.new _ hrow
  · intro n hn
    obtain ⟨e, he, rfl⟩ := mem_leaves.mp hn
    have hmem : ∀ n ∈ moved s, n ∈ result ++ [name] ++ s.handed ++ s.stranded := by
      intro n hn
      rw [hmoved] at hn
      simp only [List.mem_append] at hn ⊢
      tauto
    rcases Table.mem_put.mp he with ⟨he, -⟩ | rfl
    · exact hmem _ (h.kept _ (mem_leaves.mpr ⟨e, he, rfl⟩))
    · show name ∈ result ++ [name] ++ s.handed ++ s.stranded
      simp
  · rintro r ⟨⟩
    refine ⟨hrest, fun n hn => ?_⟩
    have hin := hnew.mem_iff.mp (hentries n (List.mem_cons_of_mem _ hn))
    exact (List.mem_cons.mp hin).resolve_left fun heq => hname (heq ▸ hn)
  · intro e he entry hentry
    rcases List.mem_append.mp hentry with hentry | hentry
    · exact h.alone e he entry
        (List.mem_append_left _ (Table.mem_delete.mp hentry).1)
    · rcases Table.mem_put.mp hentry with ⟨hentry, -⟩ | rfl
      · exact h.alone e he entry (List.mem_append_right _ hentry)
      · exact h.alone e he _ (List.mem_append_left _ hrow)

theorem Inv.value (h : Inv s) (hold : contentsOf s s.old name = some contents) :
    Inv { s with values := s.values ++ [(name, valueOf contents)] } := by
  refine ⟨h.unique, h.once, h.new, h.old, ?_, h.kept, h.listed, h.counted, h.opened,
    h.apart, h.fresh, h.alone⟩
  intro n value hvalue
  rcases List.mem_append.mp hvalue with hvalue | hvalue
  · exact h.values n value hvalue
  · obtain ⟨rfl, rfl⟩ := Prod.mk.inj (List.mem_singleton.mp hvalue)
    rw [contentsOf] at hold
    obtain ⟨entry, hfind, hfile⟩ := Option.bind_eq_some_iff.mp hold
    obtain ⟨hmem, rfl⟩ := Table.find?_eq_some_iff.mp hfind
    obtain ⟨contents', hret, hfile'⟩ := h.old entry hmem
    exact ⟨contents', hret, by rw [Option.some.inj (hfile.symm.trans hfile')]⟩

theorem Inv.removeFromInput (h : Inv s) :
    Inv { s with old := s.old.delete name } := by
  have hrows : ∀ e ∈ (s.old.delete name).rows, e ∈ s.old.rows := fun e he =>
    (Table.mem_delete.mp he).1
  refine ⟨h.unique, h.once, h.new, fun e he => h.old e (hrows e he), h.values, ?_,
    h.listed, h.counted, h.opened, h.apart, h.fresh, ?_⟩
  · intro n hn
    obtain ⟨e, he, rfl⟩ := mem_leaves.mp hn
    exact h.kept _ (mem_leaves.mpr ⟨e, hrows e he, rfl⟩)
  · intro e he entry hentry
    refine h.alone e he entry ?_
    rcases List.mem_append.mp hentry with hentry | hentry
    · exact List.mem_append_left _ hentry
    · exact List.mem_append_right _ (hrows entry hentry)

end

/-! ## Runs -/

def nameOf (key : Ptime × ℕ × Tag) : Text := fileName key.1 (idStr key.2.1) key.2.2

/-- The name that a step brings. -/
def Label.name (l : Label) : Option Text := l.key.map nameOf

theorem nameOf_injective : Function.Injective nameOf := by
  rintro ⟨t, thread, tag⟩ ⟨t', thread', tag'⟩ h
  obtain ⟨rfl, rfl, rfl⟩ := fileName_inj h
  rfl

section
variable {s s' : State} {l : Label}

theorem known_openTmp {name contents n : Text}
    (h : Known (openTmp s name contents) n) : Known s n ∨ name = n := by
  rw [openTmp] at h
  split at h
  · rcases h with htmp | ⟨d, hd, rfl⟩ | hreturned
    · exact .inl (.inl htmp)
    · rcases Table.mem_put.mp hd with ⟨hd, -⟩ | rfl
      · exact .inl (.inr (.inl ⟨d, hd, rfl⟩))
      · exact .inr rfl
    · exact .inl (.inr (.inr hreturned))
  · rcases h with htmp | ⟨d, hd, rfl⟩ | hreturned
    · obtain ⟨e, he, rfl⟩ := mem_leaves.mp htmp
      rcases Table.mem_put.mp he with ⟨he, -⟩ | rfl
      · exact .inl (.inl (mem_leaves.mpr ⟨e, he, rfl⟩))
      · exact .inr rfl
    · rcases Table.mem_put.mp hd with ⟨hd, -⟩ | rfl
      · exact .inl (.inr (.inl ⟨d, hd, rfl⟩))
      · exact .inr rfl
    · exact .inl (.inr (.inr hreturned))

theorem known_writeSome {d : Delivery} {k : ℕ} {n : Text}
    (hd : d ∈ s.deliveries.rows) (h : Known (writeSome s d k) n) : Known s n := by
  rcases h with htmp | ⟨e, he, rfl⟩ | hreturned
  · exact .inl htmp
  · rcases Table.mem_put.mp he with ⟨he, -⟩ | rfl
    · exact .inr (.inl ⟨e, he, rfl⟩)
    · exact .inr (.inl ⟨d, hd, rfl⟩)
  · exact .inr (.inr hreturned)

theorem known_renameToNew {d : Delivery} {n : Text} (hd : d ∈ s.deliveries.rows)
    (h : Known (renameToNew s d) n) : Known s n := by
  have hleft : ∀ e ∈ (s.deliveries.delete d.call).rows, e ∈ s.deliveries.rows :=
    fun e he => (Table.mem_delete.mp he).1
  rw [renameToNew] at h
  split at h
  · rcases h with htmp | ⟨e, he, rfl⟩ | hreturned
    · obtain ⟨e, he, rfl⟩ := mem_leaves.mp htmp
      exact .inl (mem_leaves.mpr ⟨e, (Table.mem_delete.mp he).1, rfl⟩)
    · exact .inr (.inl ⟨e, hleft e he, rfl⟩)
    · rw [List.map_append, List.mem_append] at hreturned
      rcases hreturned with hreturned | hreturned
      · exact .inr (.inr hreturned)
      · exact .inr (.inl ⟨d, hd, (List.mem_singleton.mp hreturned).symm⟩)
  · rcases h with htmp | ⟨e, he, rfl⟩ | hreturned
    · exact .inl htmp
    · exact .inr (.inl ⟨e, hleft e he, rfl⟩)
    · exact .inr (.inr hreturned)

theorem known_delete {call : ℕ} {n : Text}
    (h : Known { s with deliveries := s.deliveries.delete call } n) : Known s n := by
  rcases h with htmp | ⟨e, he, rfl⟩ | hreturned
  · exact .inl htmp
  · exact .inr (.inl ⟨e, (Table.mem_delete.mp he).1, rfl⟩)
  · exact .inr (.inr hreturned)

theorem known_setOld {name n : Text} {rest result : List Text}
    (h : Known (setOld s name rest result) n) : Known s n := by
  rw [setOld] at h
  split at h <;> exact h

/-- What a step can do, by the delivery or the reading it is a call of. -/
inductive Goes (s : State) : Label → State → Prop where
  | create {t : Ptime} {thread : ℕ} {tag : Tag} {contents : Text} :
      Goes s (.create t thread tag contents)
        (openTmp s (fileName t (idStr thread) tag) contents)
  | write {call n : ℕ} {d : Delivery} (hd : d ∈ s.deliveries.rows) :
      Goes s (.write call n) (writeSome s d n)
  | rename {call : ℕ} {d : Delivery} (hd : d ∈ s.deliveries.rows)
      (hall : d.written = d.contents.length) :
      Goes s (.rename call) (renameToNew s d)
  | fail {call : ℕ} {d : Delivery} (hd : d ∈ s.deliveries.rows) :
      Goes s (.fail call) { s with deliveries := s.deliveries.delete d.call }
  | newEntries (hreading : s.reading = none) :
      Goes s .newEntries { s with reading := some ⟨newEntries s, []⟩ }
  | setOld {name : Text} {rest result : List Text}
      (hreading : s.reading = some ⟨name :: rest, result⟩) :
      Goes s .setOld (setOld s name rest result)
  | setOldFails {name : Text} {rest result : List Text}
      (hreading : s.reading = some ⟨name :: rest, result⟩) :
      Goes s .setOldFails
        { s with reading := none, stranded := s.stranded ++ result }
  | endRead {result : List Text} (hreading : s.reading = some ⟨[], result⟩) :
      Goes s .endRead { s with reading := none, handed := s.handed ++ result }
  | value {name contents : Text} (hname : name ∈ s.handed)
      (hcontents : contentsOf s s.old name = some contents) :
      Goes s (.value name)
        { s with values := s.values ++ [(name, valueOf contents)] }
  | removeFromInput {name : Text} (hname : name ∈ s.handed) :
      Goes s (.removeFromInput name) { s with old := s.old.delete name }

theorem goes_of_next (hn : next s l = some s') : Goes s l s' := by
  cases l with
  | create t thread tag contents =>
      obtain rfl := Option.some.inj hn
      exact .create
  | write call k =>
      obtain ⟨d, hd, rfl⟩ := Option.map_eq_some_iff.mp hn
      exact .write (Table.find?_eq_some_iff.mp hd).1
  | rename call =>
      rw [next] at hn
      split at hn
      next d hd =>
          split at hn
          next hall =>
              obtain rfl := Option.some.inj hn
              exact .rename (Table.find?_eq_some_iff.mp hd).1 hall
          next => cases hn
      next => cases hn
  | fail call =>
      obtain ⟨d, hd, rfl⟩ := Option.map_eq_some_iff.mp hn
      exact .fail (Table.find?_eq_some_iff.mp hd).1
  | newEntries =>
      rw [next] at hn
      split at hn
      next hreading =>
          obtain rfl := Option.some.inj hn
          exact .newEntries hreading
      next => cases hn
  | setOld =>
      rw [next] at hn
      split at hn
      next hreading =>
          obtain rfl := Option.some.inj hn
          exact .setOld hreading
      next => cases hn
  | setOldFails =>
      rw [next] at hn
      split at hn
      next hreading =>
          obtain rfl := Option.some.inj hn
          exact .setOldFails hreading
      next => cases hn
  | endRead =>
      rw [next] at hn
      split at hn
      next hreading =>
          obtain rfl := Option.some.inj hn
          exact .endRead hreading
      next => cases hn
  | value name =>
      rw [next] at hn
      split at hn
      next hname =>
          obtain ⟨contents, hcontents, rfl⟩ := Option.map_eq_some_iff.mp hn
          exact .value hname hcontents
      next => cases hn
  | removeFromInput name =>
      rw [next] at hn
      split at hn
      next hname =>
          obtain rfl := Option.some.inj hn
          exact .removeFromInput hname
      next => cases hn

/-- What a step does to the invariant and to the names. -/
theorem inv_next (h : Inv s) (hnew : ∀ n, l.name = some n → ¬ Known s n)
    (hn : next s l = some s') :
    Inv s' ∧ ∀ n, Known s' n → Known s n ∨ l.name = some n := by
  cases goes_of_next hn with
  | create =>
      exact ⟨h.openTmp (hnew _ rfl), fun n hk =>
        (known_openTmp hk).imp_right (congrArg some)⟩
  | write hd => exact ⟨h.writeSome hd, fun n hk => .inl (known_writeSome hd hk)⟩
  | rename hd hall =>
      exact ⟨h.renameToNew hd hall, fun n hk => .inl (known_renameToNew hd hk)⟩
  | fail hd => exact ⟨h.fail hd, fun n hk => .inl (known_delete hk)⟩
  | newEntries hreading => exact ⟨h.newEntries hreading, fun n hk => .inl hk⟩
  | setOld hreading => exact ⟨h.setOld hreading, fun n hk => .inl (known_setOld hk)⟩
  | setOldFails hreading =>
      refine ⟨h.moving ?_ (fun r hr => absurd hr (by simp)), fun n hk => .inl hk⟩
      rw [moved, moved, hreading]
      simp only [Option.map_none, Option.map_some, Option.getD_none,
        Option.getD_some, List.nil_append]
      rw [← List.append_assoc, List.append_assoc _ s.handed]
      exact List.perm_append_comm
  | endRead hreading =>
      refine ⟨h.moving ?_ (fun r hr => absurd hr (by simp)), fun n hk => .inl hk⟩
      rw [moved, moved, hreading]
      simp only [Option.map_none, Option.map_some, Option.getD_none,
        Option.getD_some, List.nil_append]
      exact List.perm_append_comm.append_right _
  | value _ hcontents => exact ⟨h.value hcontents, fun n hk => .inl hk⟩
  | removeFromInput _ => exact ⟨h.removeFromInput, fun n hk => .inl hk⟩

end

/-- Whoever delivers and however the calls interleave, what has been delivered
is kept once and complete, and is read as it was delivered. -/
theorem delivered_once {ls : List Label} {s : State}
    (hkeys : (ls.filterMap Label.key).Nodup) (hrun : run next init ls = some s) :
    Keeps s := by
  have hnames : ls.filterMap Label.name = (ls.filterMap Label.key).map nameOf :=
    List.map_filterMap.symm
  refine Inv.keeps (run_invariant_of_fresh Known Label.name
    (fun s l s' => inv_next) inv_init ?_ (fun n _ hk => ?_) hrun)
  · rw [hnames]
    exact hkeys.map nameOf_injective
  · rcases hk with htmp | ⟨d, hd, -⟩ | hreturned
    · exact List.not_mem_nil htmp
    · exact List.not_mem_nil hd
    · exact List.not_mem_nil hreturned

/-- Some clock. -/
def morning : Ptime where
  year := 2011
  month := 3
  day := 4
  hours := 8
  minutes := 30
  seconds := 0
  fractionalSeconds := 0
  year_valid := by decide
  date_valid := by decide
  time_valid := by decide
  fraction_valid := by decide

/-- A later one. -/
def evening : Ptime := { morning with hours := 20, time_valid := by decide }

def untagged : Tag := ⟨[], by decide⟩

/-- Two threads deliver at once, the one with the later clock first. Both deliveries
are found by one reading. -/
def twoFound : List Label :=
  [.create evening 7 untagged ['a'], .create morning 12 untagged ['b'], .write 0 1,
    .newEntries, .endRead, .rename 0, .write 1 1, .rename 1, .newEntries, .setOld]

/-- The reading goes on, and the deliveries are read. -/
def twoDeliveries : List Label :=
  twoFound ++ [.setOld, .endRead, .value (fileName morning (idStr 12) untagged),
    .value (fileName evening (idStr 7) untagged)]

theorem delivered_once_read :
    ∃ s, run next init twoDeliveries = some s ∧ s.values.length = 2 ∧ Keeps s :=
  ⟨_, rfl, rfl, @delivered_once twoDeliveries _ (by decide) rfl⟩

/-- Two calls with one name, and one of what they deliver is gone. -/
example : ∃ s, run next init
    [.create morning 7 untagged ['a'], .write 0 1, .rename 0,
      .create morning 7 untagged ['b'], .write 1 1, .rename 1] = some s ∧
      s.returned.length = 2 ∧ (leaves s.new ++ moved s).length = 1 :=
  ⟨_, rfl, rfl, by decide +kernel⟩

/-! ## The order of a reading -/

/-- The entries of a reading, those it has taken among them, are sorted. -/
def Sorted (s : State) : Prop :=
  ∀ r, s.reading = some r → (r.result ++ r.entries).Pairwise (· < ·)

theorem sorted_newEntries (s : State) : (newEntries s).Pairwise (· < ·) := by
  have hperm := List.perm_insertionSort (· ≤ ·) (leaves s.new)
  have hnodup : (newEntries s).Nodup := hperm.nodup_iff.mpr s.new.unique
  have hle : (newEntries s).Pairwise (· ≤ ·) := List.pairwise_insertionSort _ _
  exact (hle.and hnodup).imp fun h => lt_of_le_of_ne h.1 h.2

theorem sorted_next {s s' : State} {l : Label} (h : Sorted s)
    (hn : next s l = some s') : Sorted s' := by
  have hsame : s'.reading = s.reading → Sorted s' := fun heq r hr =>
    h r (heq ▸ hr)
  have hnone : s'.reading = none → Sorted s' := fun heq r hr =>
    absurd (heq ▸ hr) (by simp)
  cases goes_of_next hn with
  | create =>
      refine hsame ?_
      rw [openTmp]
      split <;> rfl
  | write _ => exact hsame rfl
  | rename _ _ =>
      refine hsame ?_
      rw [renameToNew]
      split <;> rfl
  | fail _ => exact hsame rfl
  | newEntries _ =>
      rintro r ⟨⟩
      exact sorted_newEntries s
  | setOld hreading =>
      rw [setOld]
      split
      · rintro r ⟨⟩
        have hsorted := h _ hreading
        rw [List.append_assoc]
        exact hsorted
      · rintro r ⟨⟩
  | setOldFails _ => exact hnone rfl
  | endRead _ => exact hnone rfl
  | value _ _ => exact hsame rfl
  | removeFromInput _ => exact hsame rfl

/-- One reading takes deliveries in the order of their clocks, whatever their
names have in common. -/
theorem read_in_clock_order {ls : List Label} {s : State} {r : Reading}
    (hrun : run next init ls = some s) (hreading : s.reading = some r) :
    (r.result ++ r.entries).Pairwise fun earlier later =>
      ∀ t thread tag t' thread' tag',
        earlier = fileName t (idStr thread) tag →
        later = fileName t' (idStr thread') tag' → ¬ t'.parts < t.parts := by
  have hsorted : Sorted s := run_invariant (fun s l s' h _ hn => sorted_next h hn)
    (fun r hr => absurd hr (by simp [init])) (meets_true next init ls) hrun
  refine (hsorted r hreading).imp fun hlt t thread tag t' thread' tag' he hl hback => ?_
  rw [he, hl] at hlt
  exact lt_asymm hlt (fileName_lt hback)

theorem read_in_clock_order_two : ∃ s r, run next init twoFound = some s ∧
    s.reading = some r ∧ (r.result ++ r.entries).length = 2 ∧
    (r.result ++ r.entries).Pairwise fun earlier later =>
      ∀ t thread tag t' thread' tag',
        earlier = fileName t (idStr thread) tag →
        later = fileName t' (idStr thread') tag' → ¬ t'.parts < t.parts :=
  ⟨_, _, rfl, rfl, rfl, @read_in_clock_order twoFound _ _ rfl rfl⟩

end Wms.Common.Utilities.JobDir
