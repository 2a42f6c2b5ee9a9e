import LambdaTyping.Subst
import LambdaTyping.NameSupply

/-!
Unification of types. The domains of two arrows are unified first and their
codomains under what that gives, so the bindings of the answer are ordered with
the most recent first.

There are two unifiers. The rigid one treats a quantifier as a constructor: two
quantified types are unified below their quantifiers, and no name may be bound
to a type that refers to a quantified variable. The opening one replaces a
quantified variable by a new name as soon as it meets its quantifier.

Both go down the first type, and start a new round when a codomain has changed
under a substitution or a quantifier has been opened. A substitution that
changes anything removes a name, so for rigid unification, and for types without
quantifiers, no more rounds are needed than there are names. Opening quantifiers
may go on forever: a name can be bound to a quantified type, which is then
copied and opened again. So nested rounds are counted, and `TypeError.unresolved`
says that the count ran out.
-/
namespace LambdaTyping

/-- Bind a name to a type in which it does not occur. -/
def Subst.bind (x : String) (ty : Ty) : Except TypeError Subst :=
  if ty.mentions x then .error (.occurs x ty) else .ok (.single x ty)

namespace Unify

/-- One round of rigid unification; `next` starts another one. -/
def rigidRound (next : Ty → Ty → Except TypeError Subst) : Ty → Ty → Except TypeError Subst
  | .name x, b => if b = .name x then .ok [] else Subst.bind x b
  | a, .name y => Subst.bind y a
  | .bool, .bool => .ok []
  | .arr a₁ b₁, .arr a₂ b₂ => do
    let s₁ ← rigidRound next a₁ a₂
    if s₁.isEmpty then rigidRound next b₁ b₂
    else
      let s₂ ← next (s₁.apply b₁) (s₁.apply b₂)
      return s₂ ++ s₁
  | .all x a, .all _ b => do
    let s ← rigidRound next a b
    if s.hasVar 0 then .error (.escape x) else return s.shift (-1)
  | .var i n, .var j m =>
    if level i n = level j m then .ok [] else .error (.incompatible (.var i n) (.var j m))
  | a, b => .error (.incompatible a b)

/-- Rigid unification in at most `rounds` further rounds. -/
def rigidWithin : Nat → Ty → Ty → Except TypeError Subst
  | 0 => rigidRound fun a b => .error (.unresolved a b)
  | rounds + 1 => rigidRound (rigidWithin rounds)

/-- One round of opening unification; `next` starts another one. -/
def openingRound (next : Ty → Ty → Supplied Subst) : Ty → Ty → Supplied Subst
  | .name x, b => if b = .name x then return [] else .ofExcept (Subst.bind x b)
  | a, .name y => .ofExcept (Subst.bind y a)
  | .bool, .bool => return []
  | .arr a₁ b₁, .arr a₂ b₂ => do
    let s₁ ← openingRound next a₁ a₂
    if s₁.isEmpty then openingRound next b₁ b₂
    else
      let s₂ ← next (s₁.apply b₁) (s₁.apply b₂)
      return s₂ ++ s₁
  | .all x a, b => do
    let x ← .take (·.like x)
    next (a.openWith x) b
  | a, .all y b => do
    let y ← .take (·.like y)
    next a (b.openWith y)
  | .var i n, .var j m =>
    if level i n = level j m then return [] else .fail (.incompatible (.var i n) (.var j m))
  | a, b => .fail (.incompatible a b)

/-- Opening unification in at most `rounds` further rounds. -/
def openingWithin : Nat → Ty → Ty → Supplied Subst
  | 0 => openingRound fun a b => .fail (.unresolved a b)
  | rounds + 1 => openingRound (openingWithin rounds)

/-- Every round that changes a type removes a name for good. -/
def namesOf (a b : Ty) : Nat := a.nameCount + b.nameCount

/-- How many rounds may be nested beyond those that the names and quantifiers of both types need, for
quantifiers that are copied and opened again. No machine nests so many, so this is a limit on paper
only. -/
def openings : Nat := 1000000000000

/-- How many rounds of opening unification may be nested. Opening a quantifier takes a round and
brings in a name. -/
def openingRounds (a b : Ty) : Nat :=
  namesOf a b + 2 * (a.quantifiers + b.quantifiers) + openings

end Unify

/-- The most general unifier of two types, with quantifiers as they are. -/
def unifyRigid (a b : Ty) : Except TypeError Subst := Unify.rigidWithin (Unify.namesOf a b) a b

/-- A unifier of two types whose quantifiers are opened with names from the supply. -/
def unifyOpening (a b : Ty) : Supplied Subst :=
  Unify.openingWithin (Unify.openingRounds a b) a b

/-- Unify with new names that occur in neither type. -/
def unify (a b : Ty) : Except TypeError Subst :=
  (unifyOpening a b).answer (.avoiding (a.freeNames ++ b.freeNames))

end LambdaTyping
