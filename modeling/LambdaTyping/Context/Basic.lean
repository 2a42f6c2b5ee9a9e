import LambdaTyping.Stack
import LambdaTyping.Subst
import LambdaTyping.TypeError.Basic

/-!
Typing contexts: stacks of bindings, the most recent on top. The type of a term
variable lives in the context below its binding, so it is shifted when it is
looked up. A substitution of names lives in the whole context; applying it to a
context can fail, when a type would then refer to a binding above its own.
-/
namespace LambdaTyping

inductive Binding where
  /-- A term variable without a type. -/
  | name
  /-- A term variable with its type. -/
  | var (ty : Ty)
  /-- A type variable. -/
  | tyVar
  deriving DecidableEq, Inhabited

structure Entry where
  name : String
  binding : Binding
  deriving DecidableEq, Inhabited

abbrev Context := Stack Entry

def Binding.freeNames : Binding → List String
  | .var ty => ty.freeNames
  | _ => []

namespace Context

/-- The type of variable `i`, as a type of the whole context. -/
def getType? (Γ : Context) (i : Nat) : Option Ty :=
  match Γ[i]? with
  | some ⟨_, .var ty⟩ => some (ty.shift ((i : Int) + 1))
  | _ => none

/-- The free names of all types, the most recent binding first, with repetitions. -/
def freeNames (Γ : Context) : List String := Γ.flatMap fun e => e.binding.freeNames

/-- Apply a substitution of the whole context `Γ` to a binding that is, with itself, the `d`th
from the top. -/
def applyBinding (Γ : Context) (s : Subst) (d : Nat) (e : Entry) : Except TypeError Entry :=
  match e.binding with
  | .var ty =>
    let ty := s.apply (ty.shift d)
    match ty.unshift? d with
    | some ty => .ok ⟨e.name, .var ty⟩
    | none =>
      let x := match Γ[ty.minFreeVar?.getD 0]? with
        | some y => y.name
        | none => ""
      .error (.scope x e.name)
  | _ => .ok e

/-- Apply a substitution below the `d` topmost bindings of `Γ`, the root first. -/
def applyBelow (Γ : Context) (s : Subst) (d : Nat) : Context → Except TypeError Context
  | [] => .ok []
  | e :: Δ => do
    let Δ ← applyBelow Γ s (d + 1) Δ
    let e ← applyBinding Γ s (d + 1) e
    return e :: Δ

/-- Apply a substitution; the first binding from the root that fails gives the error. -/
def apply (Γ : Context) (s : Subst) : Except TypeError Context := applyBelow Γ s 0 Γ

end Context

end LambdaTyping
