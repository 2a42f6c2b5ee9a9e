/-!
Stacks as lists with the top first. Contexts, scopes and the names in force while
printing are stacks: de Bruijn index `i` is the element `i` below the top.
-/
namespace LambdaTyping

abbrev Stack (α : Type) := List α

namespace Stack

variable {α β : Type}

def push (x : α) (s : Stack α) : Stack α := x :: s

/-- The top and the stack without it. -/
def pop? (s : Stack α) : Option (α × Stack α) :=
  match s with
  | [] => none
  | x :: s => some (x, s)

/-- Remove the top; an empty stack stays empty. -/
def drop1 (s : Stack α) : Stack α := s.tail

/-- Run `f` on the stack with one more element. Afterwards whatever `f` left on top is removed. -/
def pushed (x : α) (f : Stack α → β × Stack α) (s : Stack α) : β × Stack α :=
  let (y, s) := f (s.push x)
  (y, s.drop1)

def ofBottomUp (xs : List α) : Stack α := xs.reverse

def bottomUp (s : Stack α) : List α := s.reverse

@[simp] theorem pop?_push (x : α) (s : Stack α) : (s.push x).pop? = some (x, s) := rfl
@[simp] theorem bottomUp_ofBottomUp (xs : List α) : (ofBottomUp xs).bottomUp = xs := by
  simp [bottomUp, ofBottomUp]
@[simp] theorem ofBottomUp_bottomUp (s : Stack α) : ofBottomUp s.bottomUp = s := by
  simp [bottomUp, ofBottomUp]

end Stack

end LambdaTyping
