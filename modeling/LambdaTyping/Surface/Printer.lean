import LambdaTyping.Surface.Basic

/-!
Written forms of surface syntax. Types take the fewest parentheses; compound
terms are always in parentheses.
-/
namespace LambdaTyping.Surface

/-- Types that need parentheses to the left of an arrow. -/
def Ty.isCompound : Ty → Bool
  | .arr .. | .all .. => true
  | _ => false

def Ty.text : Ty → String
  | .var x => x
  | .bool => "Bool"
  | .arr a b =>
    (if a.isCompound then "(" ++ a.text ++ ")" else a.text) ++ " → " ++ b.text
  | .all x a => "∀" ++ x ++ ". " ++ a.text

def Term.text : Term → String
  | .var _ x => x
  | .const _ b => if b then "true" else "false"
  | .abs _ x (some ty) t => "(λ" ++ x ++ ": " ++ ty.text ++ ". " ++ t.text ++ ")"
  | .abs _ x none t => "(λ" ++ x ++ ". " ++ t.text ++ ")"
  | .app _ t u => "(" ++ t.text ++ " " ++ u.text ++ ")"
  | .ite _ c t e => "(if " ++ c.text ++ " then " ++ t.text ++ " else " ++ e.text ++ ")"
  | .tyAbs _ x t => "(Λ" ++ x ++ ". " ++ t.text ++ ")"
  | .tyApp _ t ty => "(" ++ t.text ++ " [" ++ ty.text ++ "])"
  | .letIn _ x e t => "(let " ++ x ++ " = " ++ e.text ++ " in " ++ t.text ++ ")"

/-- What follows the name of a binding. -/
def Binding.text : Binding → String
  | .var (some ty) => ": " ++ ty.text
  | .var none | .tyVar => ""

end LambdaTyping.Surface
