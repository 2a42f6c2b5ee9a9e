import LambdaTyping.Term.Basic
import LambdaTyping.Context.Basic

/-!
The three calculi, and which terms, types and contexts each of them admits.
-/
namespace LambdaTyping

inductive Calculus where
  | simplyTyped | hindleyMilner | systemF
  deriving DecidableEq, Inhabited

namespace Calculus

/-- Small and capital letters are alike. -/
def ofName? (s : String) : Option Calculus :=
  match s.map Char.toLower with
  | "stlc" | "simply-typed" => some simplyTyped
  | "hm" | "hindley-milner" => some hindleyMilner
  | "systemf" | "system-f" => some systemF
  | _ => none

/-- The text for a name that chooses no calculus. -/
def unknownMessage (s : String) : String := "unknown type system: " ++ s

def title : Calculus → String
  | simplyTyped => "simply typed lambda calculus"
  | hindleyMilner => "Hindley-Milner"
  | systemF => "System F"

/-- The canonical one of the names by which a calculus is chosen. -/
def key : Calculus → String
  | simplyTyped => "simply-typed"
  | hindleyMilner => "hindley-milner"
  | systemF => "system-f"

end Calculus

/-- What a calculus does not have. -/
inductive Violation where
  | unannotated | typeAbstraction | typeApplication | quantifier | nestedQuantifier | typeVariable
  deriving DecidableEq

def Violation.text : Violation → String
  | unannotated => "abstraction without type annotation"
  | typeAbstraction => "type abstraction"
  | typeApplication => "type application"
  | quantifier => "universal quantification"
  | nestedQuantifier => "nested universal quantification"
  | typeVariable => "type variable in context"

structure NotAdmitted where
  calculus : Calculus
  violation : Violation
  deriving DecidableEq

def NotAdmitted.message (e : NotAdmitted) : String :=
  "not in selected type system (" ++ e.calculus.title ++ "): " ++ e.violation.text

namespace Calculus

/-- Refuse unless a condition holds. -/
def need (k : Calculus) (v : Violation) (ok : Bool) : Except NotAdmitted Unit :=
  if ok then .ok () else .error ⟨k, v⟩

def admitsType (k : Calculus) (ty : Ty) : Except NotAdmitted Unit :=
  match k with
  | simplyTyped => k.need .quantifier ty.isMono
  | hindleyMilner => k.need .nestedQuantifier ty.isPrenex
  | systemF => .ok ()

/-- Parameters of abstractions are never quantified in Hindley-Milner. -/
def admitsAnnot (k : Calculus) (ty : Ty) : Except NotAdmitted Unit :=
  match k with
  | hindleyMilner => k.need .quantifier ty.isMono
  | _ => k.admitsType ty

def admitsTerm (k : Calculus) : Term → Except NotAdmitted Unit
  | .var .. | .const .. => .ok ()
  | .abs _ _ none t => do
    k.need .unannotated (k = hindleyMilner)
    k.admitsTerm t
  | .abs _ _ (some ty) t => do
    k.admitsAnnot ty
    k.admitsTerm t
  | .app _ t u => do
    k.admitsTerm t
    k.admitsTerm u
  | .ite _ c t e => do
    k.admitsTerm c
    k.admitsTerm t
    k.admitsTerm e
  | .letIn _ _ e t => do
    k.admitsTerm e
    k.admitsTerm t
  | .tyAbs _ _ t => do
    k.need .typeAbstraction (k = systemF)
    k.admitsTerm t
  | .tyApp _ t ty => do
    k.need .typeApplication (k = systemF)
    k.admitsType ty
    k.admitsTerm t

def admitsBinding (k : Calculus) : Binding → Except NotAdmitted Unit
  | .name => .ok ()
  | .var ty => k.admitsType ty
  | .tyVar => k.need .typeVariable (k = systemF)

/-- The most recent binding is looked at first. -/
def admitsContext (k : Calculus) : Context → Except NotAdmitted Unit
  | [] => .ok ()
  | e :: Γ => do
    k.admitsBinding e.binding
    k.admitsContext Γ

end Calculus

end LambdaTyping
