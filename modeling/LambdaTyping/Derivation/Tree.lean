import LambdaTyping.Scoping
import LambdaTyping.Derivation.Rule

/-!
Derivations as they are written down: a tree of judgments in text form, each with
the rule that is to derive it from the judgments of its children.
-/
namespace LambdaTyping

structure RuleTree where
  context : String
  term : String
  type : String
  rule : Rule
  children : List RuleTree

/-- A typing judgment. -/
structure Judgment where
  context : Context
  term : Term
  ty : Ty

def Judgment.freeNames (j : Judgment) : List String :=
  j.context.freeNames ++ j.term.typeNames ++ j.ty.freeNames

/-- Why a field of a node has no value. -/
inductive FieldError where
  | text (e : TextError)
  /-- Something this field depends on has no value. -/
  | prerequisite
  deriving DecidableEq

def TextError.message : TextError → String
  | .syntactic e => "syntax error: " ++ e.message
  | .unbound e => e.message

def FieldError.message : FieldError → String
  | .text e => e.message
  | .prerequisite => "prerequisite failed"

/-- The values of the three fields of a node. -/
structure Fields where
  context : Except FieldError Context
  term : Except FieldError Term
  ty : Except FieldError Ty

namespace Fields

/-- The fields of a node below one without a judgment. -/
def blocked : Fields := ⟨.error .prerequisite, .error .prerequisite, .error .prerequisite⟩

/-- Term and type are parsed in the context, if there is one. -/
def parse (context term type : String) : Fields :=
  match Context.parse context with
  | .error e => ⟨.error (.text e), .error .prerequisite, .error .prerequisite⟩
  | .ok Γ => ⟨.ok Γ, (Term.parse Γ term).mapError .text, (Ty.parse Γ type).mapError .text⟩

/-- The judgment, or the error of the first field without a value. -/
def judgment (f : Fields) : Except FieldError Judgment := do
  let Γ ← f.context
  let t ← f.term
  let ty ← f.ty
  return ⟨Γ, t, ty⟩

def judgment? (f : Fields) : Option Judgment := f.judgment.toOption

end Fields

end LambdaTyping
