import LambdaTyping.Text.Position

/-!
Terms, types and contexts as they are written, with names for all variables.
-/
namespace LambdaTyping.Surface

open Text (Position)

inductive Ty where
  | var (x : String)
  | bool
  | arr (a b : Ty)
  | all (x : String) (a : Ty)
  deriving DecidableEq, Inhabited

inductive Term where
  | var (pos : Position) (x : String)
  | abs (pos : Position) (x : String) (ty : Option Ty) (t : Term)
  | app (pos : Position) (t u : Term)
  | ite (pos : Position) (c t e : Term)
  | tyAbs (pos : Position) (x : String) (t : Term)
  | tyApp (pos : Position) (t : Term) (ty : Ty)
  | letIn (pos : Position) (x : String) (e t : Term)
  | const (pos : Position) (b : Bool)
  deriving DecidableEq, Inhabited

inductive Binding where
  /-- A term variable, possibly with its type. -/
  | var (ty : Option Ty)
  /-- A type variable. -/
  | tyVar
  deriving DecidableEq, Inhabited

/-- Bindings in the order of the text: the last one is the most recent. -/
abbrev Context := List (String × Binding)

/-- Quantify over several variables, the first of them outermost. -/
def Ty.allOf (xs : List String) (a : Ty) : Ty := xs.foldr .all a

end LambdaTyping.Surface
