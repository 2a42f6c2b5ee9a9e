import LambdaTyping.Printer
import LambdaTyping.TypeError.Basic

namespace LambdaTyping

/-- The text of a type error; its types are printed in the context `Γ`. -/
def TypeError.message (Γ : Context) : TypeError → String
  | occurs x ty => "occurs check failed: " ++ x ++ " occurs in " ++ ty.showIn Γ
  | incompatible a b => "cannot unify " ++ a.showIn Γ ++ " with " ++ b.showIn Γ
  | unbound i =>
    match Γ[i]? with
    | some e => "variable " ++ e.name ++ " has no type"
    | none => "unbound variable with index " ++ i.repr
  | forallExpected ty => "expected universal type, found " ++ ty.showIn Γ
  | escape x => "type variable " ++ x ++ " escapes its scope"
  | scope x y => "type variable " ++ x ++ " is not in scope of " ++ y
  | unresolved a b => "no end to unifying " ++ a.showIn Γ ++ " with " ++ b.showIn Γ

end LambdaTyping
