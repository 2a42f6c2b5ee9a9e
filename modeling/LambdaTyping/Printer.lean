import LambdaTyping.Name
import LambdaTyping.Term.Basic
import LambdaTyping.Context.Basic

/-!
Printing in a context. A variable is printed with the name of its binder. A
binder inside the printed thing gets a number when its name is that of a binder
in force or of a free name, so that nothing is captured. A variable that points
outside the context is printed with its index.
-/
namespace LambdaTyping

/-- The names of the binders in force, the nearest first, and all names to stay clear of: these and
the free ones. -/
structure Naming where
  bound : Stack String
  avoid : NameSet

namespace Naming

/-- The names of a context and some free names. -/
def ofContext (Γ : Context) (free : List String) : Naming :=
  let bound := Γ.map (·.name)
  ⟨bound, .ofNames (bound ++ free ++ Γ.freeNames)⟩

def var (ν : Naming) (i : Nat) : String :=
  match ν.bound[i]? with
  | some x => x
  | none => "β\x7b" ++ i.repr ++ "\x7d"

/-- The name under which a new binder is printed. -/
def fresh (ν : Naming) (x : String) : String := Name.unusedLike ν.avoid x

def bind (ν : Naming) (x : String) : Naming := ⟨ν.bound.push x, ν.avoid.insert x⟩

end Naming

def parens (s : String) : String := "(" ++ s ++ ")"

namespace Ty

/-- Types that need parentheses to the left of an arrow. -/
def isCompound : Ty → Bool
  | arr .. | all .. => true
  | _ => false

def print (ν : Naming) : Ty → String
  | name x => x
  | var i _ => ν.var i
  | bool => "Bool"
  | arr a b => (if a.isCompound then parens (a.print ν) else a.print ν) ++ " → " ++ b.print ν
  | all x a =>
    let x := ν.fresh x
    "∀" ++ x ++ ". " ++ a.print (ν.bind x)

def showIn (Γ : Context) (t : Ty) : String := t.print (.ofContext Γ t.freeNames)

end Ty

namespace Term

/-- Terms that can be applied without parentheses. -/
def isHead : Term → Bool
  | var .. | const .. | app .. | tyApp .. => true
  | _ => false

/-- Terms that can be arguments without parentheses. -/
def isAtom : Term → Bool
  | var .. | const .. => true
  | _ => false

/-- A binder is not yet in force in its own annotation or definition. -/
def print (ν : Naming) : Term → String
  | var _ i _ => ν.var i
  | const _ b => if b then "true" else "false"
  | abs _ x ty t =>
    let x := ν.fresh x
    let annot := match ty with
      | some ty => ": " ++ ty.print ν
      | none => ""
    "λ" ++ x ++ annot ++ ". " ++ t.print (ν.bind x)
  | app _ t u =>
    (if t.isHead then t.print ν else parens (t.print ν)) ++ " " ++
      (if u.isAtom then u.print ν else parens (u.print ν))
  | ite _ c t e => "if " ++ c.print ν ++ " then " ++ t.print ν ++ " else " ++ e.print ν
  | tyAbs _ x t =>
    let x := ν.fresh x
    "Λ" ++ x ++ ". " ++ t.print (ν.bind x)
  | tyApp _ t ty =>
    (if t.isHead then t.print ν else parens (t.print ν)) ++ " [" ++ ty.print ν ++ "]"
  | letIn _ x e t =>
    let x := ν.fresh x
    "let " ++ x ++ " = " ++ e.print ν ++ " in " ++ t.print (ν.bind x)

def showIn (Γ : Context) (t : Term) : String := t.print (.ofContext Γ t.typeNames)

end Term

namespace Subst

def showIn (Γ : Context) (s : Subst) : String :=
  let ν := Naming.ofContext Γ s.freeNames
  "\x7b" ++ ", ".intercalate (s.map fun b => b.1 ++ " ↦ " ++ b.2.print ν) ++ "\x7d"

end Subst

namespace Context

/-- The printed forms of bindings, given from the root on. Their names are kept as they are. -/
def printEntries (ν : Naming) : List Entry → List String
  | [] => []
  | e :: es =>
    let printed := match e.binding with
      | .var ty => e.name ++ ": " ++ ty.print ν
      | _ => e.name
    printed :: printEntries (ν.bind e.name) es

def text (Γ : Context) : String :=
  ", ".intercalate (printEntries ⟨[], .ofNames Γ.freeNames⟩ Γ.bottomUp)

end Context

end LambdaTyping
