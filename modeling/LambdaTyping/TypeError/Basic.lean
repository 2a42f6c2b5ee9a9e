import LambdaTyping.Ty.Basic

/-!
Why types do not fit together.
-/
namespace LambdaTyping

inductive TypeError where
  /-- A name would stand for a type in which it occurs. -/
  | occurs (x : String) (ty : Ty)
  | incompatible (a b : Ty)
  /-- The variable with this index has no type. -/
  | unbound (i : Nat)
  | forallExpected (ty : Ty)
  /-- A type variable would be known outside its binder. -/
  | escape (x : String)
  /-- The type of `y` would refer to `x`, which is bound later. -/
  | scope (x y : String)
  /-- The rounds ran out while quantifiers were opened. This is not an answer of unification, but
  says that it has none. -/
  | unresolved (a b : Ty)
  deriving DecidableEq

end LambdaTyping
