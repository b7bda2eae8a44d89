/-!
Something that stands on the left side of a comparison, on the right side, or on both.
-/
namespace MovieDiff

inductive Sides (α : Type) where
  | left (a : α)
  | right (b : α)
  | both (a b : α)
  deriving DecidableEq, Repr

namespace Sides

variable {α : Type}

/-- Nothing when both sides are missing. -/
def ofOptions? : Option α → Option α → Option (Sides α)
  | some a, some b => some (both a b)
  | some a, none => some (left a)
  | none, some b => some (right b)
  | none, none => none

def left? : Sides α → Option α
  | left a => some a
  | right _ => none
  | both a _ => some a

def right? : Sides α → Option α
  | left _ => none
  | right b => some b
  | both _ b => some b

@[simp] theorem ofOptions?_left?_right? (s : Sides α) :
    ofOptions? s.left? s.right? = some s := by
  cases s <;> rfl

def isPaired : Sides α → Bool
  | both _ _ => true
  | _ => false

/-- On both sides, and not the same. -/
def isRenamed [DecidableEq α] : Sides α → Bool
  | both a b => a ≠ b
  | _ => false

/-- The left side, or the right one where there is no left. -/
def first : Sides α → α
  | left a => a
  | right b => b
  | both a _ => a

/-- What each side becomes by a rule of its own. -/
def mapSides {β : Type} (f g : α → β) : Sides α → Sides β
  | left a => left (f a)
  | right b => right (g b)
  | both a b => both (f a) (g b)

/-- The text of each side, empty where a side is missing. -/
def key (text : α → String) (s : Sides α) : String × String :=
  ((s.left?.map text).getD "", (s.right?.map text).getD "")

end Sides

def keyLe (x y : String × String) : Bool :=
  x.1 < y.1 || x.1 == y.1 && x.2 ≤ y.2

end MovieDiff
