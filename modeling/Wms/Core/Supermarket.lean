import Wms.Lib.Lts
import Mathlib.Data.Nat.Notation
import Mathlib.Data.Int.Notation
import Mathlib.Logic.Function.Basic

/-!
# The information supermarket (`src/org.glite.wms.core/src/ism`)

Two sides, of which one is matched against while a purchaser fills the other
one, and then they change over. A thread that matches gets the number of the
active side together with a guard, a copy of the shared pointer that stands
for the side. The purchaser does not begin with the dark side before the
pointer that stands for it has no other copy.

The matches go on call by call, each with the guard it has been given, and the
purchaser goes through its cycles in between. A fetch takes as long as it
likes and may fail, as anything behind it may.
-/

namespace Wms.Core.Ism

open Wms.Lib

/-! ## Shared pointers (`boost::shared_ptr<void>`) -/

/-- The address, if it is not null, and the control block, if there is one.
A pointer that was reset to a null address has a block all the same. -/
structure SharedPtr where
  address : Option ℕ
  block : Option ℕ
  deriving DecidableEq

/-- A pointer to nothing, without a control block. -/
def SharedPtr.empty : SharedPtr := ⟨none, none⟩

/-- The control blocks with their use counts. -/
structure Blocks where
  count : ℕ → ℕ
  next : ℕ

namespace Blocks

/-- `use_count`, zero without a control block. -/
def useCount (b : Blocks) (p : SharedPtr) : ℕ :=
  match p.block with
  | none => 0
  | some i => b.count i

/-- One pointer more that shares the block. -/
def copy (b : Blocks) (p : SharedPtr) : Blocks :=
  match p.block with
  | none => b
  | some i => { b with count := Function.update b.count i (b.count i + 1) }

/-- One pointer less. -/
def drop (b : Blocks) (p : SharedPtr) : Blocks :=
  match p.block with
  | none => b
  | some i => { b with count := Function.update b.count i (b.count i - 1) }

/-- `reset` gives up the old block and makes a new one. -/
def reset (b : Blocks) (p : SharedPtr) (address : Option ℕ) :
    Blocks × SharedPtr :=
  let b := b.drop p
  ({ count := Function.update b.count b.next 1, next := b.next + 1 },
    ⟨address, some b.next⟩)

end Blocks

/-! ## The two sides -/

/-- The two sides of the market. -/
abbrev Side := Fin 2

/-- The two slices of a side: computing and storage elements. -/
inductive Kind where
  | ce
  | se
  deriving DecidableEq, Repr

section
variable {ι : Type}

/-- The information on one kind of resource, by its identifier. -/
abbrev Slice (ι : Type) := List (String × ι)

/-- An entry that is there already is updated. -/
def insertEntry (merge : ι → ι → ι) (slice : Slice ι) (e : String × ι) :
    Slice ι :=
  if slice.any fun x => x.1 = e.1 then
    slice.map fun x => if x.1 = e.1 then (x.1, merge x.2 e.2) else x
  else slice ++ [e]

/-- All that a purchase brings. -/
def stock (merge : ι → ι → ι) (entries : Slice ι) : Slice ι :=
  entries.foldl (insertEntry merge) []

/-- A match: the thread, its copy of the pointer and the side it was given. -/
structure Guard where
  thread : ℕ
  ptr : SharedPtr
  side : Side
  deriving DecidableEq

/-- Where the purchaser is. `fetching` has so many sources left, `inserting`
has these entries left of the present one. -/
inductive Phase (ι : Type) where
  | testing
  | clearing (kinds : List Kind)
  | fetching (sources : ℕ)
  | inserting (entries : List (Kind × String × ι)) (sources : ℕ)
  | switching
  | resting

/-- The market, its counters, the matchers and the purchaser. -/
structure State (ι : Type) where
  activeSide : Option Side
  matching : Side → SharedPtr
  blocks : Blocks
  ism : Kind → Side → Slice ι
  guards : List Guard
  phase : Phase ι
  /-- What the present cycle has fetched of each kind. -/
  fetched : Kind → Slice ι
  /-- What the last complete purchase of a side has fetched, until the side is
  cleared. -/
  purchase : Side → Option (Kind → Slice ι)

/-- Before the first purchase: no side is active and nobody matches. -/
def init : State ι where
  activeSide := none
  matching := fun _ => .empty
  blocks := ⟨fun _ => 0, 0⟩
  ism := fun _ _ => []
  guards := []
  phase := .testing
  fetched := fun _ => []
  purchase := fun _ => none

/-- `dark_side`: the one that is not active. -/
def darkSide (s : State ι) : Side :=
  match s.activeSide with
  | none => 0
  | some side => side + 1

/-- `switch_active_side` -/
def switchActiveSide (s : State ι) : State ι :=
  match s.activeSide with
  | none => { s with activeSide := some 0 }
  | some side => { s with activeSide := some (side + 1) }

/-- `matching_threads`: the market has a pointer itself. -/
def matchingThreads (s : State ι) (side : Side) : ℤ :=
  (s.blocks.useCount (s.matching side) : ℤ) - 1

/-- `match_on_active_side`: a pointer that is null is reset, to null. -/
def matchOnSide (s : State ι) (side : Side) : State ι × SharedPtr :=
  let s :=
    if (s.matching side).address.isSome then s
    else
      let r := s.blocks.reset (s.matching side) none
      { s with
        blocks := r.1
        matching := Function.update s.matching side r.2 }
  ({ s with blocks := s.blocks.copy (s.matching side) }, s.matching side)

/-! ## Steps -/

/-- How the purchaser is set up. -/
structure Config (ι : Type) where
  /-- GLUE 1.3, GLUE 2.0, or both. -/
  sources : ℕ
  merge : ι → ι → ι

/-- A match begins, looks at an entry and ends. The purchaser tests the dark
side, clears a map, gets what it has asked for, inserts an entry, switches the
sides, fails, and begins again. -/
inductive Label (ι : Type) where
  | take (thread : ℕ)
  | look (thread : ℕ)
  | release (thread : ℕ)
  | test
  | clear
  | fetch (ces ses : Slice ι)
  | insert
  | switch
  | fail
  | wake

/-- The guard that a thread holds. -/
def guardOf (s : State ι) (thread : ℕ) : Option Guard :=
  s.guards.find? fun g => g.thread = thread

/-- One slice of a side is replaced. -/
def setSlice (s : State ι) (kind : Kind) (side : Side) (slice : Slice ι) :
    State ι :=
  { s with
    ism := Function.update s.ism kind
      (Function.update (s.ism kind) side slice) }

/-- The answer of a source, without the entries that are skipped. -/
def answerOf (ces ses : Slice ι) : Kind → Slice ι
  | .ce => ces
  | .se => ses

/-- What an answer of a source leaves. -/
def afterFetch (s : State ι) (sources : ℕ) (ces ses : Slice ι) : State ι :=
  { s with
    fetched := fun kind => s.fetched kind ++ answerOf ces ses kind
    phase := .inserting
      (ces.map (fun e => (Kind.ce, e)) ++ ses.map fun e => (Kind.se, e))
      sources }

/-- The next source is asked, or there is none. -/
def nextSource (sources : ℕ) : Phase ι :=
  if sources = 0 then .switching else .fetching sources

/-- What comes once a slice is cleared. -/
def afterClear (cfg : Config ι) : List Kind → Phase ι
  | [] => nextSource cfg.sources
  | kinds => .clearing kinds

/-- What runs in the `try` block. -/
def mayFail : Phase ι → Bool
  | .fetching _ => true
  | .inserting _ _ => true
  | .switching => true
  | _ => false

/-- One step of a matcher or of the purchaser, with its answer. -/
def next (cfg : Config ι) (s : State ι) : Label ι → Option (State ι)
  | .take thread =>
      match s.activeSide, guardOf s thread with
      | some side, none =>
          let r := matchOnSide s side
          some { r.1 with guards := r.1.guards ++ [⟨thread, r.2, side⟩] }
      | _, _ => none
  | .look thread =>
      match guardOf s thread with
      | some _ => some s
      | none => none
  | .release thread =>
      match guardOf s thread with
      | some g =>
          some { s with
            blocks := s.blocks.drop g.ptr
            guards := s.guards.filter fun g => g.thread ≠ thread }
      | none => none
  | .test =>
      match s.phase with
      | .testing =>
          if matchingThreads s (darkSide s) > 0 then some s
          else some { s with phase := .clearing [.ce, .se] }
      | _ => none
  | .clear =>
      match s.phase with
      | .clearing (kind :: kinds) =>
          some { setSlice s kind (darkSide s) [] with
            fetched := fun _ => []
            purchase := Function.update s.purchase (darkSide s) none
            phase := afterClear cfg kinds }
      | _ => none
  | .fetch ces ses =>
      match s.phase with
      | .fetching (sources + 1) => some (afterFetch s sources ces ses)
      | _ => none
  | .insert =>
      match s.phase with
      | .inserting ((kind, e) :: entries) sources =>
          some { setSlice s kind (darkSide s)
              (insertEntry cfg.merge (s.ism kind (darkSide s)) e) with
            phase := .inserting entries sources }
      | .inserting [] sources =>
          some { s with phase := nextSource sources }
      | _ => none
  | .switch =>
      match s.phase with
      | .switching =>
          some { switchActiveSide s with
            purchase := Function.update s.purchase (darkSide s) (some s.fetched)
            phase := .resting }
      | _ => none
  | .fail => if mayFail s.phase then some { s with phase := .resting } else none
  | .wake =>
      match s.phase with
      | .resting => some { s with phase := .testing }
      | _ => none

/-! ## What a match relies on -/

/-- The map a step clears or inserts into. -/
def touches (s : State ι) : Label ι → Option (Kind × Side)
  | .clear =>
      match s.phase with
      | .clearing (kind :: _) => some (kind, darkSide s)
      | _ => none
  | .insert =>
      match s.phase with
      | .inserting ((kind, _) :: _) _ => some (kind, darkSide s)
      | _ => none
  | _ => none

/-- A step that touches no map of a side that is being matched against. -/
def Undisturbed (s : State ι) (l : Label ι) : Prop :=
  ∀ g ∈ s.guards, ∀ kind, touches s l ≠ some (kind, g.side)

/-- Both maps of a side hold all that a purchase has brought, and no more. -/
def Complete (cfg : Config ι) (s : State ι) (side : Side) : Prop :=
  ∃ fetched, s.purchase side = some fetched ∧
    ∀ kind, s.ism kind side = stock cfg.merge (fetched kind)

/-- The newest guard of a side: the pointer of the side is the same. -/
def isNewest (s : State ι) (g : Guard) : Bool :=
  g.ptr.block = (s.matching g.side).block

/-- Where matches on the dark side are going on when the purchaser tests it,
the one that began last is among them. -/
def newestHeld (s : State ι) : Label ι → Bool
  | .test =>
      s.guards.all (fun g => g.side ≠ darkSide s) ||
        s.guards.any fun g => g.side = darkSide s && isNewest s g
  | _ => true

end

end Wms.Core.Ism
