import LambdaTyping.Term.Basic

/-!
The typing rules by name.
-/
namespace LambdaTyping

inductive Rule where
  | none | var | abs | app | ite | tyAbs | tyApp | letIn | constTrue | constFalse
  deriving DecidableEq, Inhabited

namespace Rule

def key : Rule → String
  | none => "none"
  | var => "var"
  | abs => "abs"
  | app => "app"
  | ite => "if"
  | tyAbs => "tyabs"
  | tyApp => "tyapp"
  | letIn => "let"
  | constTrue => "true"
  | constFalse => "false"

def ofKey? : String → Option Rule
  | "none" => some none
  | "var" => some var
  | "abs" => some abs
  | "app" => some app
  | "if" => some ite
  | "tyabs" => some tyAbs
  | "tyapp" => some tyApp
  | "let" => some letIn
  | "true" => some constTrue
  | "false" => some constFalse
  | _ => Option.none

/-- The number of premises. -/
def arity : Rule → Nat
  | none | var | constTrue | constFalse => 0
  | abs | tyAbs | tyApp => 1
  | app | letIn => 2
  | ite => 3

/-- Does the rule derive types for terms of this shape? -/
def fits : Rule → Term → Bool
  | var, .var .. => true
  | abs, .abs .. => true
  | app, .app .. => true
  | ite, .ite .. => true
  | tyAbs, .tyAbs .. => true
  | tyApp, .tyApp .. => true
  | letIn, .letIn .. => true
  | constTrue, .const _ b => b
  | constFalse, .const _ b => !b
  | _, _ => false

theorem ofKey?_key (r : Rule) : ofKey? r.key = some r := by cases r <;> rfl

end Rule

end LambdaTyping
