import Mathlib.Data.List.Basic
import Mathlib.Data.Nat.Notation
import Wms.Lib.Instances

/-!
# A file system with symbolic links

Inodes are kept in a list, by their numbers; the first one is the root. A path
is looked up the way a kernel does it: component by component from the root or
from the working directory, with the text of a symbolic link put in front of
the components that are left, and with an error when too many links have been
followed. What the walk arrives at is a *place*, the entries it has gone down
from the root. Its names are the real path of the object, whatever links the
path went through.

A directory is created in the place its parent is found at. Walks that
succeeded before succeed afterwards and arrive at the same place, and the path
it was created by leads there; this is all that later operations need.
-/

namespace Wms.Lib

/-- A path as it is written. -/
abbrev PathText := List Char

/-- The type of an inode and what it holds. -/
inductive FileKind where
  | directory (entries : List (PathText × ℕ))
  | regular
  | symlink (target : PathText)
  | fifo
  | socket
  | characterDevice
  | blockDevice
  deriving DecidableEq

/-- A file, a directory or a link, with its owner and its mode. -/
structure Inode where
  kind : FileKind
  uid : ℕ
  gid : ℕ
  mode : ℕ
  deriving DecidableEq

/-- The root is inode 0. -/
structure FileSystem where
  inodes : List Inode

/-- The errors of the calls. -/
inductive Errno where
  | noEntry
  | notDirectory
  | tooManyLinks
  | fileExists
  | other
  deriving DecidableEq, Repr

/-- The entries a walk has gone down, the last one first. -/
abbrev Place := List (PathText × ℕ)

namespace Place

/-- The number of what is there. -/
def inode (here : Place) : ℕ := (here.head?.map Prod.snd).getD 0

/-- The real path, by its components. -/
def names (here : Place) : List PathText := (here.map Prod.fst).reverse

@[simp] theorem inode_nil : inode [] = 0 := rfl

@[simp] theorem inode_cons (e : PathText × ℕ) (here : Place) :
    inode (e :: here) = e.2 := rfl

@[simp] theorem names_cons (e : PathText × ℕ) (here : Place) :
    names (e :: here) = names here ++ [e.1] := by
  unfold names
  rw [List.map_cons, List.reverse_cons]

end Place

/-- The components between the slashes. -/
def splitPath : PathText → List PathText
  | [] => [[]]
  | c :: cs =>
      if c = '/' then [] :: splitPath cs
      else
        match splitPath cs with
        | [] => [[c]]
        | name :: names => (c :: name) :: names

/-- The text of a real path. -/
def renderPath (names : List PathText) : PathText :=
  if names = [] then ['/'] else names.flatMap fun name => '/' :: name

/-- A path begins at the root or where the process is. -/
def startOf (path : PathText) (cwd : Place) : Place :=
  if path.head? = some '/' then [] else cwd

/-- A name that leads nowhere else. -/
def isHere (name : PathText) : Bool := name = [] || name = ['.']

/-- The name of the directory above. -/
def isParent (name : PathText) : Bool := name = ['.', '.']

namespace FileSystem

variable (fs : FileSystem)

/-- What stands in a directory. -/
def entries (i : ℕ) : Option (List (PathText × ℕ)) :=
  match fs.inodes[i]? with
  | some ⟨.directory es, _, _, _⟩ => some es
  | _ => none

/-- The walk over the components, with what becomes of a link. -/
def walkWith (follow : Bool)
    (expand : Place → List PathText → Except Errno Place) :
    Place → List PathText → Except Errno Place
  | here, [] => .ok here
  | here, name :: names =>
      match fs.entries here.inode with
      | none => .error .notDirectory
      | some es =>
          if isHere name then walkWith follow expand here names
          else if isParent name then walkWith follow expand here.tail names
          else
            match es.lookup name with
            | none => .error .noEntry
            | some i =>
                match fs.inodes[i]? with
                | none => .error .noEntry
                | some ⟨.symlink target, _, _, _⟩ =>
                    if names = [] && !follow then .ok ((name, i) :: here)
                    else expand (startOf target here) (splitPath target ++ names)
                | some _ => walkWith follow expand ((name, i) :: here) names

/-- A walk that follows so many links at most. -/
def walk (follow : Bool) : ℕ → Place → List PathText → Except Errno Place
  | 0 => fs.walkWith follow fun _ _ => .error .tooManyLinks
  | n + 1 => fs.walkWith follow (walk follow n)

/-- How many links a walk may follow. -/
def maxLinks : ℕ := 40

variable (cwd : Place)

/-- What a path leads to. -/
def resolve (follow : Bool) (path : PathText) : Except Errno Place :=
  if path = [] then .error .noEntry
  else fs.walk follow maxLinks (startOf path cwd) (splitPath path)

/-- The last component of a path and those before it, trailing slashes
apart. -/
def lastComponent (path : PathText) : Option (List PathText × PathText) :=
  match ((splitPath path).reverse.dropWhile fun name => name = []) with
  | [] => none
  | name :: rest => some (rest.reverse, name)

/-- The place in which a path would be created, and its directory. -/
def creatable (path : PathText) : Except Errno (Place × PathText) :=
  match lastComponent path with
  | none => .error .noEntry
  | some (parents, name) => do
      let here ← fs.walk true maxLinks (startOf path cwd) parents
      match fs.entries here.inode with
      | none => .error .notDirectory
      | some es =>
          if isParent name || isHere name then .error .fileExists
          else if (es.lookup name).isSome then .error .fileExists
          else .ok (here, name)

/-- One inode is changed. -/
def modify (i : ℕ) (f : Inode → Inode) : FileSystem :=
  ⟨fs.inodes.modify i f⟩

/-- One more entry. -/
def addEntry (name : PathText) (i : ℕ) (node : Inode) : Inode :=
  match node.kind with
  | .directory es => { node with kind := .directory (es ++ [(name, i)]) }
  | _ => node

/-- A new inode under a new name. -/
def create (here : Place) (name : PathText) (node : Inode) : FileSystem :=
  ⟨(fs.inodes.modify here.inode (addEntry name fs.inodes.length)) ++ [node]⟩

/-- A name is taken out of a directory. -/
def dropEntry (name : PathText) (node : Inode) : Inode :=
  match node.kind with
  | .directory es =>
      { node with kind := .directory (es.filter fun e => e.1 ≠ name) }
  | _ => node

/-- The entry that leads to a place goes away. -/
def remove (here : Place) : FileSystem :=
  match here with
  | [] => fs
  | (name, _) :: parents => fs.modify (Place.inode parents) (dropEntry name)

/-! ## Growing -/

end FileSystem

/-- A directory keeps its entries and may get more; nothing else changes. -/
def FileKind.Extends : FileKind → FileKind → Prop
  | .directory es, .directory es' =>
      ∀ name i, es.lookup name = some i → es'.lookup name = some i
  | kind, kind' => kind = kind'

theorem FileKind.Extends.refl (kind : FileKind) : kind.Extends kind := by
  cases kind with
  | directory es => exact fun _ _ h => h
  | _ => exact rfl

theorem FileKind.Extends.trans {k₁ k₂ k₃ : FileKind} (h : k₁.Extends k₂)
    (h' : k₂.Extends k₃) : k₁.Extends k₃ := by
  cases k₁ with
  | directory es =>
      cases k₂ with
      | directory es₂ =>
          cases k₃ with
          | directory es₃ => exact fun name i hi => h' name i (h name i hi)
          | _ => cases h'
      | _ => cases h
  | _ =>
      cases h
      exact h'

/-- A directory stays one, and so does a link. -/
theorem FileKind.Extends.directory {es : List (PathText × ℕ)} {kind : FileKind}
    (h : (FileKind.directory es).Extends kind) :
    ∃ es', kind = .directory es' ∧
      ∀ name i, es.lookup name = some i → es'.lookup name = some i := by
  cases kind with
  | directory es' => exact ⟨es', rfl, h⟩
  | _ => cases h

theorem FileKind.Extends.eq_of_not_directory {kind kind' : FileKind}
    (h : kind.Extends kind') (hk : ∀ es, kind ≠ .directory es) :
    kind' = kind := by
  cases kind with
  | directory es => exact absurd rfl (hk es)
  | _ => exact h.symm

namespace FileSystem

/-- Every inode is kept. -/
def Extends (fs fs' : FileSystem) : Prop :=
  ∀ (i : ℕ) (node : Inode), fs.inodes[i]? = some node →
    ∃ node' : Inode, fs'.inodes[i]? = some node' ∧
      node.kind.Extends node'.kind

theorem Extends.refl (fs : FileSystem) : Extends fs fs :=
  fun _ node h => ⟨node, h, .refl _⟩

theorem Extends.trans {fs₁ fs₂ fs₃ : FileSystem} (h : Extends fs₁ fs₂)
    (h' : Extends fs₂ fs₃) : Extends fs₁ fs₃ := by
  intro i node hi
  obtain ⟨node₂, hi₂, hk⟩ := h i node hi
  obtain ⟨node₃, hi₃, hk'⟩ := h' i node₂ hi₂
  exact ⟨node₃, hi₃, hk.trans hk'⟩

theorem getElem?_modify_self {fs : FileSystem} {i : ℕ} {node : Inode}
    (h : fs.inodes[i]? = some node) (f : Inode → Inode) :
    (fs.modify i f).inodes[i]? = some (f node) := by
  show (fs.inodes.modify i f)[i]? = some (f node)
  rw [List.getElem?_modify_eq, h]
  rfl

theorem getElem?_modify_of_ne {fs : FileSystem} {i j : ℕ} (h : j ≠ i)
    (f : Inode → Inode) : (fs.modify i f).inodes[j]? = fs.inodes[j]? :=
  List.getElem?_modify_ne f fs.inodes (Ne.symm h)

/-- A change of owner or mode. -/
theorem extends_modify (fs : FileSystem) (i : ℕ) {f : Inode → Inode}
    (hf : ∀ node, (f node).kind = node.kind) : Extends fs (fs.modify i f) := by
  intro j node hj
  by_cases hji : j = i
  · subst hji
    refine ⟨f node, getElem?_modify_self hj f, ?_⟩
    rw [hf]
    exact .refl _
  · refine ⟨node, ?_, .refl _⟩
    rw [getElem?_modify_of_ne hji]
    exact hj

theorem entries_eq {fs : FileSystem} {i : ℕ} {es : List (PathText × ℕ)}
    (h : fs.entries i = some es) :
    ∃ uid gid mode, fs.inodes[i]? = some ⟨.directory es, uid, gid, mode⟩ := by
  unfold entries at h
  split at h
  · next heq =>
    cases h
    exact ⟨_, _, _, heq⟩
  · cases h

theorem lookup_append_of_some {es es' : List (PathText × ℕ)} {name : PathText} {i : ℕ}
    (h : es.lookup name = some i) : (es ++ es').lookup name = some i := by
  rw [List.lookup_append, h]
  rfl

theorem getElem?_create {fs : FileSystem} {here : Place} {name : PathText}
    {node : Inode} {i : ℕ} (h : i < fs.inodes.length) :
    (fs.create here name node).inodes[i]? =
      (fs.modify here.inode (addEntry name fs.inodes.length)).inodes[i]? := by
  unfold create modify
  rw [List.getElem?_append_left]
  rw [List.length_modify]
  exact h

theorem getElem?_create_new (fs : FileSystem) (here : Place) (name : PathText)
    (node : Inode) :
    (fs.create here name node).inodes[fs.inodes.length]? = some node := by
  unfold create
  have hlen : (fs.inodes.modify here.inode
      (addEntry name fs.inodes.length)).length = fs.inodes.length :=
    List.length_modify _ _ _
  rw [List.getElem?_append_right (Nat.le_of_eq hlen), hlen, Nat.sub_self]
  rfl

theorem lt_of_getElem? {fs : FileSystem} {i : ℕ} {node : Inode}
    (h : fs.inodes[i]? = some node) : i < fs.inodes.length :=
  (List.getElem?_eq_some_iff.mp h).1

/-- A new entry hides no other one. -/
theorem extends_create {fs : FileSystem} {here : Place} (name : PathText)
    (node : Inode) : Extends fs (fs.create here name node) := by
  intro i old hi
  rw [getElem?_create (lt_of_getElem? hi)]
  by_cases hih : i = here.inode
  · subst hih
    refine ⟨_, getElem?_modify_self hi _, ?_⟩
    obtain ⟨kind, uid, gid, mode⟩ := old
    cases kind with
    | directory es => exact fun _ _ h => lookup_append_of_some h
    | _ => exact rfl
  · refine ⟨old, ?_, .refl _⟩
    rw [getElem?_modify_of_ne hih]
    exact hi

/-! ## Walks -/

theorem walkWith_extends {fs fs' : FileSystem} (h : Extends fs fs')
    {follow : Bool} {expand expand' : Place → List PathText → Except Errno Place}
    (he : ∀ here names there, expand here names = .ok there →
      expand' here names = .ok there) {here there : Place} {names : List PathText}
    (hw : fs.walkWith follow expand here names = .ok there) :
    fs'.walkWith follow expand' here names = .ok there := by
  induction names generalizing here with
  | nil => exact hw
  | cons name names ih =>
      unfold walkWith at hw ⊢
      cases hes : fs.entries here.inode with
      | none =>
          rw [hes] at hw
          cases hw
      | some es =>
          rw [hes] at hw
          obtain ⟨uid, gid, mode, hi⟩ := entries_eq hes
          obtain ⟨⟨kind, uid', gid', mode'⟩, hi', hk⟩ := h _ _ hi
          obtain ⟨es', hkind, hlookup⟩ := hk.directory
          dsimp only at hkind
          subst hkind
          have hes' : fs'.entries here.inode = some es' := by
            unfold entries
            rw [hi']
          rw [hes']
          dsimp only at hw ⊢
          split
          · next hhere =>
            rw [if_pos hhere] at hw
            exact ih hw
          · next hhere =>
            rw [if_neg hhere] at hw
            split
            · next hparent =>
              rw [if_pos hparent] at hw
              exact ih hw
            · next hparent =>
              rw [if_neg hparent] at hw
              cases hl : es.lookup name with
              | none =>
                  rw [hl] at hw
                  cases hw
              | some i =>
                  rw [hl] at hw
                  rw [hlookup name i hl]
                  dsimp only at hw ⊢
                  cases hn : fs.inodes[i]? with
                  | none =>
                      rw [hn] at hw
                      cases hw
                  | some node =>
                      rw [hn] at hw
                      obtain ⟨node', hn', hk'⟩ := h i node hn
                      rw [hn']
                      obtain ⟨kind, u, g, m⟩ := node
                      obtain ⟨kind', u', g', m'⟩ := node'
                      cases kind with
                      | symlink target =>
                          have hsame := hk'.eq_of_not_directory
                            fun _ hd => by cases hd
                          dsimp only at hsame
                          subst hsame
                          dsimp only at hw ⊢
                          split
                          · next hlast =>
                            rw [if_pos hlast] at hw
                            exact hw
                          · next hlast =>
                            rw [if_neg hlast] at hw
                            exact he _ _ _ hw
                      | directory es =>
                          obtain ⟨es'', hd, _⟩ := hk'.directory
                          dsimp only at hd
                          subst hd
                          exact ih hw
                      | _ =>
                          have hsame := hk'.eq_of_not_directory
                            fun _ hd => by cases hd
                          dsimp only at hsame
                          subst hsame
                          exact ih hw

theorem walk_extends {fs fs' : FileSystem} (h : Extends fs fs') {follow : Bool}
    {n : ℕ} {here there : Place} {names : List PathText}
    (hw : fs.walk follow n here names = .ok there) :
    fs'.walk follow n here names = .ok there := by
  induction n generalizing here there names with
  | zero => exact walkWith_extends h (fun _ _ _ hx => by cases hx) hw
  | succ n ih => exact walkWith_extends h (fun _ _ _ hx => ih hx) hw

/-- A path that leads somewhere keeps leading there. -/
theorem resolve_extends {fs fs' : FileSystem} (h : Extends fs fs')
    {cwd there : Place} {follow : Bool} {path : PathText}
    (hr : fs.resolve cwd follow path = .ok there) :
    fs'.resolve cwd follow path = .ok there := by
  unfold resolve at hr ⊢
  split
  · next hnil =>
    rw [if_pos hnil] at hr
    cases hr
  · next hnil =>
    rw [if_neg hnil] at hr
    exact walk_extends h hr

/-! A path that does not end in a link is looked up alike either way. -/

theorem walkWith_follow {fs : FileSystem}
    {expand expand' : Place → List PathText → Except Errno Place} {there : Place}
    (hend : ∀ node target, fs.inodes[there.inode]? = some node →
      node.kind ≠ .symlink target)
    (he : ∀ here names, expand here names = .ok there →
      expand' here names = .ok there) {here : Place} {names : List PathText}
    (hw : fs.walkWith false expand here names = .ok there) :
    fs.walkWith true expand' here names = .ok there := by
  induction names generalizing here with
  | nil => exact hw
  | cons name names ih =>
      unfold walkWith at hw ⊢
      cases hes : fs.entries here.inode with
      | none =>
          rw [hes] at hw
          cases hw
      | some es =>
          rw [hes] at hw
          dsimp only at hw ⊢
          split
          · next hhere =>
            rw [if_pos hhere] at hw
            exact ih hw
          · next hhere =>
            rw [if_neg hhere] at hw
            split
            · next hparent =>
              rw [if_pos hparent] at hw
              exact ih hw
            · next hparent =>
              rw [if_neg hparent] at hw
              cases hl : es.lookup name with
              | none =>
                  rw [hl] at hw
                  cases hw
              | some i =>
                  rw [hl] at hw
                  dsimp only at hw ⊢
                  cases hn : fs.inodes[i]? with
                  | none =>
                      rw [hn] at hw
                      cases hw
                  | some node =>
                      rw [hn] at hw
                      obtain ⟨kind, u, g, m⟩ := node
                      cases kind with
                      | symlink target =>
                          dsimp only at hw ⊢
                          rw [Bool.not_true, Bool.and_false,
                            if_neg Bool.false_ne_true]
                          split at hw
                          · cases hw
                            exact absurd rfl (hend _ target hn)
                          · exact he _ _ hw
                      | _ => exact ih hw

theorem walk_follow {fs : FileSystem} {there : Place}
    (hend : ∀ node target, fs.inodes[there.inode]? = some node →
      node.kind ≠ .symlink target) {n : ℕ} {here : Place} {names : List PathText}
    (hw : fs.walk false n here names = .ok there) :
    fs.walk true n here names = .ok there := by
  induction n generalizing here names with
  | zero => exact walkWith_follow hend (fun _ _ hx => by cases hx) hw
  | succ n ih => exact walkWith_follow hend (fun _ _ hx => ih hx) hw

theorem resolve_follow {fs : FileSystem} {cwd there : Place} {path : PathText}
    (hend : ∀ node target, fs.inodes[there.inode]? = some node →
      node.kind ≠ .symlink target)
    (hr : fs.resolve cwd false path = .ok there) :
    fs.resolve cwd true path = .ok there := by
  unfold resolve at hr ⊢
  split
  · next hnil =>
    rw [if_pos hnil] at hr
    cases hr
  · next hnil =>
    rw [if_neg hnil] at hr
    exact walk_follow hend hr

/-! ## What has been created -/

/-- A step of a walk that meets no link, and one that meets one. -/
theorem walkWith_cons_of_lookup {fs : FileSystem} {follow : Bool}
    {expand : Place → List PathText → Except Errno Place} {here : Place}
    {name : PathText} {names : List PathText} {es : List (PathText × ℕ)} {i : ℕ}
    {node : Inode} (hes : fs.entries here.inode = some es)
    (hhere : isHere name = false) (hparent : isParent name = false)
    (hl : es.lookup name = some i) (hn : fs.inodes[i]? = some node)
    (hk : ∀ target, node.kind ≠ .symlink target) :
    fs.walkWith follow expand here (name :: names) =
      fs.walkWith follow expand ((name, i) :: here) names := by
  conv => lhs; unfold walkWith
  rw [hes]
  dsimp only
  rw [if_neg (by rw [hhere]; exact Bool.false_ne_true),
    if_neg (by rw [hparent]; exact Bool.false_ne_true), hl]
  dsimp only
  rw [hn]
  obtain ⟨kind, uid, gid, mode⟩ := node
  cases kind with
  | symlink target => exact absurd rfl (hk target)
  | _ => rfl

/-- A walk that succeeds goes on with what follows. -/
theorem walkWith_append {fs : FileSystem} {follow : Bool}
    {expand expand' : Place → List PathText → Except Errno Place}
    {here there : Place} {names rest : List PathText} {goal : Except Errno Place}
    (hrest : rest ≠ [])
    (hstop : fs.walkWith follow expand' there rest = goal)
    (he : ∀ here names, expand here names = .ok there →
      expand' here (names ++ rest) = goal)
    (hw : fs.walkWith true expand here names = .ok there) :
    fs.walkWith follow expand' here (names ++ rest) = goal := by
  induction names generalizing here with
  | nil =>
      cases hw
      exact hstop
  | cons name names ih =>
      rw [List.cons_append]
      unfold walkWith at hw ⊢
      cases hes : fs.entries here.inode with
      | none =>
          rw [hes] at hw
          cases hw
      | some es =>
          rw [hes] at hw
          dsimp only at hw ⊢
          split
          · next hhere =>
            rw [if_pos hhere] at hw
            exact ih hw
          · next hhere =>
            rw [if_neg hhere] at hw
            split
            · next hparent =>
              rw [if_pos hparent] at hw
              exact ih hw
            · next hparent =>
              rw [if_neg hparent] at hw
              cases hl : es.lookup name with
              | none =>
                  rw [hl] at hw
                  cases hw
              | some i =>
                  rw [hl] at hw
                  dsimp only at hw ⊢
                  cases hn : fs.inodes[i]? with
                  | none =>
                      rw [hn] at hw
                      cases hw
                  | some node =>
                      rw [hn] at hw
                      obtain ⟨kind, u, g, m⟩ := node
                      cases kind with
                      | symlink target =>
                          dsimp only at hw ⊢
                          rw [Bool.not_true, Bool.and_false,
                            if_neg Bool.false_ne_true] at hw
                          have hne : names ++ rest ≠ [] :=
                            List.append_ne_nil_of_right_ne_nil _ hrest
                          rw [if_neg (by simp [hne]), ← List.append_assoc]
                          exact he _ _ hw
                      | _ => exact ih hw

theorem walk_append {fs : FileSystem} {follow : Bool} {n : ℕ}
    {here there : Place} {names rest : List PathText} {goal : Except Errno Place}
    (hrest : rest ≠ []) (hstop : ∀ m, fs.walk follow m there rest = goal)
    (hw : fs.walk true n here names = .ok there) :
    fs.walk follow n here (names ++ rest) = goal := by
  induction n generalizing here names with
  | zero =>
      exact walkWith_append hrest (hstop 0) (fun _ _ hx => by cases hx) hw
  | succ n ih =>
      exact walkWith_append hrest (hstop (n + 1)) (fun _ _ hx => ih hx) hw

theorem walkWith_replicate {fs : FileSystem} {follow : Bool}
    {expand : Place → List PathText → Except Errno Place} {here : Place}
    {es : List (PathText × ℕ)} (hes : fs.entries here.inode = some es) (k : ℕ) :
    fs.walkWith follow expand here (List.replicate k []) = .ok here := by
  induction k with
  | zero => rfl
  | succ k ih =>
      rw [List.replicate_succ]
      unfold walkWith
      rw [hes]
      exact ih

theorem dropWhile_nil_eq (names : List PathText) :
    ∃ k, names = List.replicate k [] ++ names.dropWhile fun name => name = [] := by
  induction names with
  | nil => exact ⟨0, rfl⟩
  | cons name names ih =>
      by_cases h : name = []
      · obtain ⟨k, hk⟩ := ih
        refine ⟨k + 1, ?_⟩
        rw [List.dropWhile_cons_of_pos (by simp [h]), List.replicate_succ,
          List.cons_append, ← hk, h]
      · refine ⟨0, ?_⟩
        rw [List.dropWhile_cons_of_neg (by simp [h])]
        rfl

/-- The last component has nothing but slashes behind it. -/
theorem splitPath_of_lastComponent {path : PathText} {parents : List PathText}
    {name : PathText} (h : lastComponent path = some (parents, name)) :
    ∃ k, splitPath path = parents ++ name :: List.replicate k [] := by
  obtain ⟨k, hk⟩ := dropWhile_nil_eq (splitPath path).reverse
  unfold lastComponent at h
  split at h
  · cases h
  · next rest hdrop =>
    cases h
    rw [hdrop] at hk
    refine ⟨k, ?_⟩
    rw [← List.reverse_reverse (splitPath path), hk]
    simp

/-- What `creatable` has found out. -/
theorem creatable_eq {fs : FileSystem} {cwd here : Place} {path name : PathText}
    (h : fs.creatable cwd path = .ok (here, name)) :
    ∃ parents es, lastComponent path = some (parents, name) ∧
      fs.walk true maxLinks (startOf path cwd) parents = .ok here ∧
      fs.entries here.inode = some es ∧ es.lookup name = none ∧
      isParent name = false ∧ isHere name = false := by
  unfold creatable at h
  split at h
  · cases h
  · next parents name' hlast =>
    cases hw : fs.walk true maxLinks (startOf path cwd) parents with
    | error e =>
        rw [hw] at h
        cases h
    | ok at' =>
        rw [hw] at h
        have h' : (match fs.entries at'.inode with
          | none => .error .notDirectory
          | some es =>
              if isParent name' || isHere name' then .error .fileExists
              else if (es.lookup name').isSome then .error .fileExists
              else .ok (at', name') : Except Errno (Place × PathText)) =
            .ok (here, name) := h
        cases hes : fs.entries at'.inode with
        | none =>
            rw [hes] at h'
            cases h'
        | some es =>
            rw [hes] at h'
            dsimp only at h'
            split at h'
            · cases h'
            · next hspecial =>
              split at h'
              · cases h'
              · next hlookup =>
                cases h'
                rw [Bool.or_eq_true, not_or] at hspecial
                refine ⟨parents, es, hlast, hw, hes, ?_, ?_, ?_⟩
                · exact Option.not_isSome_iff_eq_none.mp hlookup
                · exact Bool.eq_false_iff.mpr hspecial.1
                · exact Bool.eq_false_iff.mpr hspecial.2

theorem entries_create {fs : FileSystem} {here : Place} {name : PathText}
    {node : Inode} {es : List (PathText × ℕ)}
    (hes : fs.entries here.inode = some es) :
    (fs.create here name node).entries here.inode =
      some (es ++ [(name, fs.inodes.length)]) := by
  obtain ⟨uid, gid, mode, hi⟩ := entries_eq hes
  unfold entries
  rw [getElem?_create (lt_of_getElem? hi), getElem?_modify_self hi]
  rfl

/-- The path a directory was created by leads to it. -/
theorem resolve_create {fs : FileSystem} {cwd here : Place} {path name : PathText}
    {node : Inode} (h : fs.creatable cwd path = .ok (here, name))
    (hk : ∃ es, node.kind = .directory es) (follow : Bool) :
    (fs.create here name node).resolve cwd follow path =
      .ok ((name, fs.inodes.length) :: here) := by
  obtain ⟨parents, es, hlast, hw, hes, hlookup, hparent, hhere⟩ :=
    creatable_eq h
  obtain ⟨k, hsplit⟩ := splitPath_of_lastComponent hlast
  obtain ⟨es', hkind⟩ := hk
  have hnew := getElem?_create_new fs here name node
  have hne : path ≠ [] := by
    rintro rfl
    have hnone : lastComponent [] = none := rfl
    rw [hnone] at hlast
    cases hlast
  have hentry : (es ++ [(name, fs.inodes.length)]).lookup name =
      some fs.inodes.length := by
    rw [List.lookup_append, hlookup]
    simp
  have hdir : (fs.create here name node).entries
      (Place.inode ((name, fs.inodes.length) :: here)) = some es' := by
    obtain ⟨kind, uid, gid, mode⟩ := node
    dsimp only at hkind
    subst hkind
    rw [Place.inode_cons]
    unfold entries
    rw [hnew]
  have hnolink : ∀ target, node.kind ≠ .symlink target := by
    intro target heq
    rw [hkind] at heq
    cases heq
  unfold resolve
  rw [if_neg hne, hsplit]
  refine walk_append (List.cons_ne_nil _ _) ?_
    (walk_extends (extends_create name node) hw)
  intro m
  cases m with
  | zero =>
      unfold walk
      rw [walkWith_cons_of_lookup (entries_create hes) hhere hparent hentry hnew
        hnolink]
      exact walkWith_replicate hdir k
  | succ m =>
      unfold walk
      rw [walkWith_cons_of_lookup (entries_create hes) hhere hparent hentry hnew
        hnolink]
      exact walkWith_replicate hdir k

end FileSystem

end Wms.Lib
