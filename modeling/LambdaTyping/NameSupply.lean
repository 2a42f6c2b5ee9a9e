import LambdaTyping.Name
import LambdaTyping.TypeError.Basic

/-!
New names. A supply knows the names in use and the next letter to try; a name it
hands out is in use from then on. Computations that need new names run in
`Supplied`: when one of them fails, the names it took stay taken.
-/
namespace LambdaTyping

structure NameSupply where
  used : NameSet
  next : Nat

namespace NameSupply

/-- A supply that stays clear of some names. -/
def avoiding (names : List String) : NameSupply := ⟨.ofNames names, 0⟩

def avoid (names : List String) (σ : NameSupply) : NameSupply :=
  { σ with used := σ.used.insertMany names }

/-- The next unused name of `A`, `B`, and so on. -/
def letter (σ : NameSupply) : String × NameSupply :=
  let i := Name.firstUnused σ.used Name.lettered σ.next
  (Name.lettered i, ⟨σ.used.insert (Name.lettered i), i + 1⟩)

/-- A name like the given one. -/
def like (hint : String) (σ : NameSupply) : String × NameSupply :=
  let x := Name.unusedLike σ.used hint
  (x, { σ with used := σ.used.insert x })

/-- Replace all outermost quantified variables by new names. The names are given from the outside
in. -/
def openAll (ty : Ty) (σ : NameSupply) : (List String × Ty) × NameSupply :=
  match ty with
  | .all x a =>
    let (x, σ) := σ.like x
    let ((xs, b), σ) := openAll (a.openWith x) σ
    ((x :: xs, b), σ)
  | ty => (([], ty), σ)
termination_by ty.size
decreasing_by simp [Ty.size]

end NameSupply

/-- Computations that take new names and may fail with a type error. -/
abbrev Supplied := EStateM TypeError NameSupply

namespace Supplied

variable {α : Type}

/-- Take a name or names from the supply. -/
def take (f : NameSupply → α × NameSupply) : Supplied α := fun σ =>
  let (a, σ) := f σ
  .ok a σ

def ofExcept (r : Except TypeError α) : Supplied α := fun σ =>
  match r with
  | .ok a => .ok a σ
  | .error e => .error e σ

def fail (e : TypeError) : Supplied α := fun σ => .error e σ

/-- The answer, without the supply. -/
def answer (m : Supplied α) (σ : NameSupply) : Except TypeError α :=
  match m σ with
  | .ok a _ => .ok a
  | .error e _ => .error e

/-- The type with new names for all its outermost quantified variables. -/
def instantiate (ty : Ty) : Supplied Ty := do
  let (_, ty) ← take (NameSupply.openAll ty)
  return ty

end Supplied

end LambdaTyping
