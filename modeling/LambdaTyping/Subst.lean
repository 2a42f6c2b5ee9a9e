import LambdaTyping.Ty.Basic

/-!
Substitutions of free names by types: a list of bindings, the most recent first.
The bindings take effect one after the other from the last to the first, so
`s ++ r` does `r` and then `s`.
-/
namespace LambdaTyping

abbrev Subst := List (String × Ty)

namespace Subst

def single (x : String) (t : Ty) : Subst := [(x, t)]

def apply (s : Subst) (t : Ty) : Ty := s.foldr (fun b t => t.substName b.1 b.2) t

@[simp] theorem apply_nil (t : Ty) : apply [] t = t := rfl
@[simp] theorem apply_cons (b : String × Ty) (s : Subst) (t : Ty) :
    apply (b :: s) t = (s.apply t).substName b.1 b.2 := rfl
theorem apply_append (s r : Subst) (t : Ty) : apply (s ++ r) t = s.apply (r.apply t) := by
  simp [apply]

def domain (s : Subst) : List String := s.map (·.1)

def shift (d : Int) (s : Subst) : Subst := s.map fun b => (b.1, b.2.shift d)

/-- The images of the bound names that are not in `names`. -/
def without (names : List String) (s : Subst) : Subst :=
  (s.domain.filter fun x => !names.contains x).map fun x => (x, s.apply (.name x))

def hasVar (i : Nat) (s : Subst) : Bool := s.any fun b => b.2.hasVar i

/-- The free names of the types, and the names bound. -/
def freeNames (s : Subst) : List String := s.flatMap fun b => b.2.freeNames ++ [b.1]

/-- Drop the `d` most recent binders of all types, unless one refers to them. -/
def unshift? (d : Nat) : Subst → Option Subst
  | [] => some []
  | (x, t) :: s => do
    let t ← t.unshift? d
    let s ← unshift? d s
    return (x, t) :: s

end Subst

end LambdaTyping
