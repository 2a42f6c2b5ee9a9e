import LambdaTyping.Calculus
import LambdaTyping.Scoping
import LambdaTyping.Inference
import LambdaTyping.TypeError.Message
import LambdaTyping.Derivation.Tree

/-!
Inference from text to text.
-/
namespace LambdaTyping

/-- Why no type is inferred. -/
inductive InferError where
  | text (e : TextError)
  | notAdmitted (e : NotAdmitted)
  | type (e : TypeError)
  deriving DecidableEq

/-- The text of an error; types are printed without a context. -/
def InferError.message : InferError → String
  | text e => e.message
  | notAdmitted e => e.message
  | type e => e.message []

/-- The type of a term in a context, printed in that context. -/
def inferText (k : Calculus) (context term : String) : Except InferError String := do
  let Γ ← (Context.parse context).mapError .text
  let t ← (Term.parse Γ term).mapError .text
  (k.admitsContext Γ).mapError .notAdmitted
  (k.admitsTerm t).mapError .notAdmitted
  let ty ← (inferType Γ t).mapError .type
  return ty.showIn Γ

end LambdaTyping
