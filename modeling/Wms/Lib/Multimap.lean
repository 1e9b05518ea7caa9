import Mathlib.Data.List.Basic
import Mathlib.Data.List.TakeWhile
import Wms.Lib.Instances

/-!
# A multimap under a comparator that need not be strict

The standard container asks for a strict weak order. What it does with the
comparator it is given is descend a search tree: an insertion goes left of
every node its key compares true against, a lower bound goes right of every
node that compares true against the key. Both outcomes are fixed by the
in-order sequence alone as soon as the comparator never changes its mind
twice along that sequence, and this is much weaker than being strict: `≤`
qualifies as well as `<`.

`Orders comp le` says what the comparator has to do with the order the
sequence is kept in. Under it the list operations keep the sequence in
order, a lower bound cuts it exactly at the comparator, and every search
tree that holds the sequence answers as the list does, whatever its shape.
-/

namespace Wms.Lib

universe u v

/-- The entries of a multimap in the order an iteration visits them. -/
abbrev Entries (κ : Type u) (ν : Type v) := List (κ × ν)

variable {κ : Type u} {ν : Type v}

/-- A comparator that orders by `le`, strictly or not: its answers are
decided by `le` except on the pairs that are `le` both ways, and it treats
those alike. -/
class Orders (comp : κ → κ → Bool) (le : outParam (κ → κ → Prop)) : Prop where
  le_of_comp : ∀ {a b}, comp a b = true → le a b
  le_of_not_comp : ∀ {a b}, comp a b = false → le b a
  comp_of_comp_le : ∀ {a b c}, comp a b = true → le b c → comp a c = true
  comp_of_le_comp : ∀ {a b c}, le a b → comp b c = true → comp a c = true

namespace Entries

/-- Insertion passes every entry the new key does not compare true against. -/
def insert (comp : κ → κ → Bool) (kv : κ × ν) (m : Entries κ ν) :
    Entries κ ν :=
  m.takeWhile (fun x => !comp kv.1 x.1) ++
    kv :: m.dropWhile (fun x => !comp kv.1 x.1)

/-- The insertion of a range, one entry after the other. -/
def insertRange (comp : κ → κ → Bool) (kvs : List (κ × ν))
    (m : Entries κ ν) : Entries κ ν :=
  kvs.foldl (fun m kv => insert comp kv m) m

/-- What lies before the lower bound of a key, and what lies from it on. -/
def lowerBound (comp : κ → κ → Bool) (k : κ) (m : Entries κ ν) :
    Entries κ ν × Entries κ ν :=
  (m.takeWhile (fun x => comp x.1 k), m.dropWhile (fun x => comp x.1 k))

/-- The order a sequence of entries is kept in. -/
def Sorted (le : κ → κ → Prop) (m : Entries κ ν) : Prop :=
  m.Pairwise fun x y => le x.1 y.1

variable {comp : κ → κ → Bool} {le : κ → κ → Prop} [ho : Orders comp le]

theorem insert_perm (kv : κ × ν) (m : Entries κ ν) :
    List.Perm (insert comp kv m) (kv :: m) := by
  have hsplit := List.takeWhile_append_dropWhile
    (p := fun x : κ × ν => !comp kv.1 x.1) (l := m)
  calc
    List.Perm (insert comp kv m)
        (kv :: (m.takeWhile (fun x => !comp kv.1 x.1) ++
          m.dropWhile (fun x => !comp kv.1 x.1))) := List.perm_middle
    _ = kv :: m := by rw [hsplit]

theorem insertRange_perm (kvs : List (κ × ν)) (m : Entries κ ν) :
    List.Perm (insertRange comp kvs m) (kvs ++ m) := by
  induction kvs generalizing m with
  | nil => exact List.Perm.refl m
  | cons kv kvs ih =>
      calc
        List.Perm (insertRange comp (kv :: kvs) m)
            (kvs ++ insert comp kv m) := ih (insert comp kv m)
        List.Perm _ (kvs ++ kv :: m) :=
            List.Perm.append_left kvs (insert_perm kv m)
        List.Perm _ (kv :: kvs ++ m) := List.perm_middle

theorem mem_insert {kv x : κ × ν} {m : Entries κ ν} :
    x ∈ insert comp kv m ↔ x = kv ∨ x ∈ m := by
  rw [(insert_perm kv m).mem_iff, List.mem_cons]

/-! ## The two cuts

An insertion cuts the sequence where the new key starts to compare true, a
lower bound where an entry stops to. In an ordered sequence each is a single
place. -/

theorem comp_of_mem_dropWhile {k : κ} :
    ∀ {m : Entries κ ν}, Sorted le m →
      ∀ x ∈ m.dropWhile (fun x => !comp k x.1), comp k x.1 = true := by
  intro m
  induction m with
  | nil => intro _ x hx; cases hx
  | cons y m ih =>
      intro hs x hx
      obtain ⟨hy, hm⟩ := List.pairwise_cons.mp hs
      cases hc : comp k y.1 with
      | false =>
          rw [List.dropWhile_cons_of_pos (by simp [hc])] at hx
          exact ih hm x hx
      | true =>
          rw [List.dropWhile_cons_of_neg (by simp [hc])] at hx
          rcases List.mem_cons.mp hx with rfl | hmem
          · exact hc
          · exact ho.comp_of_comp_le hc (hy x hmem)

theorem insert_sorted {kv : κ × ν} {m : Entries κ ν}
    (hs : Sorted le m) : Sorted le (insert comp kv m) := by
  have hsplit := List.takeWhile_append_dropWhile
    (p := fun x : κ × ν => !comp kv.1 x.1) (l := m)
  have hs' : Sorted le (m.takeWhile (fun x => !comp kv.1 x.1) ++
      m.dropWhile (fun x => !comp kv.1 x.1)) := by rw [hsplit]; exact hs
  obtain ⟨hb, ha, hba⟩ := List.pairwise_append.mp hs'
  have hbefore : ∀ x ∈ m.takeWhile (fun x => !comp kv.1 x.1), le x.1 kv.1 := by
    intro x hx
    have hp := List.mem_takeWhile_imp hx
    exact ho.le_of_not_comp (by simpa using hp)
  have hafter : ∀ x ∈ m.dropWhile (fun x => !comp kv.1 x.1), le kv.1 x.1 :=
    fun x hx => ho.le_of_comp (comp_of_mem_dropWhile hs x hx)
  refine List.pairwise_append.mpr ⟨hb, List.pairwise_cons.mpr ⟨hafter, ha⟩, ?_⟩
  intro x hx y hy
  rcases List.mem_cons.mp hy with rfl | hmem
  · exact hbefore x hx
  · exact hba x hx y hmem

theorem insertRange_sorted {kvs : List (κ × ν)}
    {m : Entries κ ν} (hs : Sorted le m) :
    Sorted le (insertRange comp kvs m) := by
  induction kvs generalizing m with
  | nil => exact hs
  | cons kv kvs ih => exact ih (insert_sorted hs)

/-- In an ordered sequence the lower bound of a key separates the entries
that compare true against it from those that do not. -/
theorem lowerBound_eq_filter {k : κ} :
    ∀ {m : Entries κ ν}, Sorted le m →
      lowerBound comp k m =
        (m.filter (fun x => comp x.1 k), m.filter (fun x => !comp x.1 k)) := by
  intro m
  induction m with
  | nil => intro _; rfl
  | cons y m ih =>
      intro hs
      obtain ⟨hy, hm⟩ := List.pairwise_cons.mp hs
      have ih' := Prod.mk.inj (ih hm)
      cases hc : comp y.1 k with
      | true => simp [lowerBound, hc, ih'.1, ih'.2]
      | false =>
          have hall : ∀ x ∈ m, comp x.1 k = false := by
            intro x hx
            cases hx' : comp x.1 k with
            | false => rfl
            | true => rw [ho.comp_of_le_comp (hy x hx) hx'] at hc; cases hc
          have hnone : m.filter (fun x => comp x.1 k) = [] := by
            rw [List.filter_eq_nil_iff]
            intro x hx
            simp [hall x hx]
          have hevery : m.filter (fun x => !comp x.1 k) = m := by
            rw [List.filter_eq_self]
            intro x hx
            simp [hall x hx]
          simp [lowerBound, hc, hnone, hevery]

theorem lowerBound_append (k : κ) (m : Entries κ ν) :
    (lowerBound comp k m).1 ++ (lowerBound comp k m).2 = m :=
  List.takeWhile_append_dropWhile

end Entries

/-! ## The container

A multimap is a sequence with the proof that it is in order, so that no
operation has to be told. -/

/-- A multimap under `comp`, kept in the order `le`. -/
structure Multimap (comp : κ → κ → Bool) (le : κ → κ → Prop)
    (ν : Type v) where
  entries : Entries κ ν
  sorted : Entries.Sorted le entries

namespace Multimap

variable {comp : κ → κ → Bool} {le : κ → κ → Prop}

/-- No entries. -/
def empty : Multimap comp le ν := ⟨[], List.Pairwise.nil⟩

/-- `insert`: behind the entries of the same key. -/
def insert [Orders comp le] (kv : κ × ν) (m : Multimap comp le ν) :
    Multimap comp le ν :=
  ⟨m.entries.insert comp kv, Entries.insert_sorted m.sorted⟩

/-- `insert` of a range, one entry after another. -/
def insertRange [Orders comp le] (kvs : List (κ × ν))
    (m : Multimap comp le ν) : Multimap comp le ν :=
  ⟨m.entries.insertRange comp kvs, Entries.insertRange_sorted m.sorted⟩

/-- The entries before the lower bound of a key. -/
def before (k : κ) (m : Multimap comp le ν) : Entries κ ν :=
  (m.entries.lowerBound comp k).1

/-- What is left once the entries before the lower bound are erased. -/
def eraseBefore (k : κ) (m : Multimap comp le ν) : Multimap comp le ν :=
  ⟨(m.entries.lowerBound comp k).2,
    List.Pairwise.sublist (List.dropWhile_sublist _) m.sorted⟩

/-- What is left once the first entry is erased. -/
def eraseFirst (m : Multimap comp le ν) : Multimap comp le ν :=
  ⟨m.entries.tail, List.Pairwise.sublist (List.tail_sublist _) m.sorted⟩

@[simp] theorem empty_entries :
    (empty : Multimap comp le ν).entries = [] := rfl

@[simp] theorem eraseFirst_entries (m : Multimap comp le ν) :
    m.eraseFirst.entries = m.entries.tail := rfl

theorem entries_insert_perm [Orders comp le] (kv : κ × ν)
    (m : Multimap comp le ν) :
    List.Perm (m.insert kv).entries (kv :: m.entries) :=
  Entries.insert_perm kv m.entries

theorem entries_insertRange_perm [Orders comp le] (kvs : List (κ × ν))
    (m : Multimap comp le ν) :
    List.Perm (m.insertRange kvs).entries (kvs ++ m.entries) :=
  Entries.insertRange_perm kvs m.entries

theorem mem_insert [Orders comp le] {kv x : κ × ν} {m : Multimap comp le ν} :
    x ∈ (m.insert kv).entries ↔ x = kv ∨ x ∈ m.entries := Entries.mem_insert

theorem before_append_eraseBefore (k : κ) (m : Multimap comp le ν) :
    m.before k ++ (m.eraseBefore k).entries = m.entries :=
  Entries.lowerBound_append k m.entries

theorem before_eq_filter [Orders comp le] (k : κ) (m : Multimap comp le ν) :
    m.before k = m.entries.filter (fun x => comp x.1 k) :=
  congrArg Prod.fst (Entries.lowerBound_eq_filter m.sorted)

theorem eraseBefore_eq_filter [Orders comp le] (k : κ)
    (m : Multimap comp le ν) :
    (m.eraseBefore k).entries = m.entries.filter (fun x => !comp x.1 k) :=
  congrArg Prod.snd (Entries.lowerBound_eq_filter m.sorted)

/-- The first entry is least. -/
theorem le_of_first {x : κ × ν} {rest : Entries κ ν}
    {m : Multimap comp le ν} (h : m.entries = x :: rest) :
    ∀ y ∈ rest, le x.1 y.1 := by
  have hs := m.sorted
  rw [h] at hs
  exact (List.pairwise_cons.mp hs).1

end Multimap

/-! ## Any search tree answers as the list does -/

/-- A search tree with its entries at the nodes. -/
inductive SearchTree (α : Type u) where
  | leaf
  | node (left : SearchTree α) (entry : α) (right : SearchTree α)

namespace SearchTree

variable {α : Type u}

/-- The in-order sequence. -/
def toList : SearchTree α → List α
  | leaf => []
  | node l x r => l.toList ++ x :: r.toList

/-- Insertion by descent: left of a node the new entry precedes, right of
any other. -/
def insert (precedes : α → Bool) (v : α) : SearchTree α → SearchTree α
  | leaf => node leaf v leaf
  | node l x r =>
      if precedes x then node (l.insert precedes v) x r
      else node l x (r.insert precedes v)

/-- The entries before a lower bound found by descent: right of a node that
is still below, left of any other. -/
def prefixBelow (isBelow : α → Bool) : SearchTree α → List α
  | leaf => []
  | node l x r =>
      if isBelow x then l.toList ++ x :: r.prefixBelow isBelow else l.prefixBelow isBelow

/-- Whatever the shape of the tree, an insertion by descent lands where the
in-order sequence changes its answer. A rebalancing keeps that sequence, so
it changes nothing here. -/
theorem toList_insert {precedes : α → Bool} {v : α} :
    ∀ {t : SearchTree α}, t.toList.Pairwise (fun x y => precedes x → precedes y) →
      (t.insert precedes v).toList =
        t.toList.takeWhile (fun x => !precedes x) ++
          v :: t.toList.dropWhile (fun x => !precedes x) := by
  intro t
  induction t with
  | leaf => intro _; rfl
  | node l x r ihl ihr =>
      intro hp
      obtain ⟨hl, hxr, hlx⟩ := List.pairwise_append.mp hp
      obtain ⟨-, hr⟩ := List.pairwise_cons.mp hxr
      cases hx : precedes x with
      | true =>
          simp only [insert, hx, if_true, toList, ihl hl, List.takeWhile_append,
            List.dropWhile_append]
          by_cases hall : ∀ y ∈ l.toList, precedes y = false
          · have ht : l.toList.takeWhile (fun y => !precedes y) = l.toList := by
              rw [List.takeWhile_eq_self_iff]; intro y hy; simp [hall y hy]
            have hd : l.toList.dropWhile (fun y => !precedes y) = [] := by
              rw [List.dropWhile_eq_nil_iff]; intro y hy; simp [hall y hy]
            simp [ht, hd, hx]
          · have ht : (l.toList.takeWhile (fun y => !precedes y)).length ≠
                l.toList.length := by
              intro hlen
              apply hall
              intro y hy
              have hself := (List.takeWhile_prefix
                (p := fun y => !precedes y) (l := l.toList)).eq_of_length hlen
              have := List.takeWhile_eq_self_iff.mp hself y hy
              simpa using this
            have hd : (l.toList.dropWhile (fun y => !precedes y)).isEmpty =
                false := by
              rw [List.isEmpty_eq_false_iff]
              intro hnil
              apply hall
              intro y hy
              simpa using List.dropWhile_eq_nil_iff.mp hnil y hy
            simp [ht, hd]
      | false =>
          have hall : ∀ y ∈ l.toList, (!precedes y) = true := by
            intro y hy
            cases hy' : precedes y with
            | false => rfl
            | true =>
                rw [hlx y hy x List.mem_cons_self hy'] at hx
                cases hx
          simp only [insert, hx, Bool.false_eq_true, if_false, toList, ihr hr]
          rw [List.takeWhile_append_of_pos hall, List.dropWhile_append_of_pos hall,
            List.takeWhile_cons_of_pos (by simp [hx]),
            List.dropWhile_cons_of_pos (by simp [hx])]
          simp

/-- Likewise for the lower bound. -/
theorem prefixBelow_eq_takeWhile {isBelow : α → Bool} :
    ∀ {t : SearchTree α}, t.toList.Pairwise (fun x y => isBelow y → isBelow x) →
      t.prefixBelow isBelow = t.toList.takeWhile isBelow := by
  intro t
  induction t with
  | leaf => intro _; rfl
  | node l x r ihl ihr =>
      intro hp
      obtain ⟨hl, hxr, hlx⟩ := List.pairwise_append.mp hp
      obtain ⟨-, hr⟩ := List.pairwise_cons.mp hxr
      cases hx : isBelow x with
      | true =>
          have hall : ∀ y ∈ l.toList, isBelow y = true :=
            fun y hy => hlx y hy x List.mem_cons_self hx
          simp only [prefixBelow, hx, if_true, toList, ihr hr]
          rw [List.takeWhile_append_of_pos hall, List.takeWhile_cons_of_pos hx]
      | false =>
          simp only [prefixBelow, hx, Bool.false_eq_true, if_false, toList, ihl hl,
            List.takeWhile_append, List.takeWhile_cons_of_neg, not_false_iff,
            List.append_nil]
          split
          · next hlen =>
              exact (List.takeWhile_prefix
                (p := isBelow) (l := l.toList)).eq_of_length hlen
          · rfl

/-- A search tree that holds a multimap inserts as the multimap does. -/
theorem toList_insert_eq {κ : Type u} {ν : Type v} {comp : κ → κ → Bool}
    {le : κ → κ → Prop} [ho : Orders comp le] {m : Multimap comp le ν}
    {t : SearchTree (κ × ν)} (h : t.toList = m.entries) (kv : κ × ν) :
    (t.insert (fun x => comp kv.1 x.1) kv).toList = (m.insert kv).entries := by
  have hmono : t.toList.Pairwise fun x y =>
      comp kv.1 x.1 = true → comp kv.1 y.1 = true := by
    rw [h]
    exact m.sorted.imp fun hxy hc => ho.comp_of_comp_le hc hxy
  rw [toList_insert hmono, h]
  rfl

/-- And it finds the same lower bound. -/
theorem prefixBelow_eq_before {κ : Type u} {ν : Type v}
    {comp : κ → κ → Bool} {le : κ → κ → Prop} [ho : Orders comp le]
    {m : Multimap comp le ν} {t : SearchTree (κ × ν)} (h : t.toList = m.entries)
    (k : κ) : t.prefixBelow (fun x => comp x.1 k) = m.before k := by
  have hmono : t.toList.Pairwise fun x y =>
      comp y.1 k = true → comp x.1 k = true := by
    rw [h]
    exact m.sorted.imp fun hxy hc => ho.comp_of_le_comp hxy hc
  rw [prefixBelow_eq_takeWhile hmono, h]
  rfl

end SearchTree

end Wms.Lib
