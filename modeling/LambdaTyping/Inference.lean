import LambdaTyping.Term.Basic
import LambdaTyping.Generalization

/-!
Type inference. Inference of a term in a context gives a substitution of the
names of the context and the type of the term under it. Variables are
instantiated where they stand, `let` generalises, and a type abstraction is
inferred with a new name for its variable, which must stay what it is.
-/
namespace LambdaTyping

/-- Make the name `n`, which stands for the type variable `x`, its own image under a substitution
and check that the context does not know it. -/
def keepRigid (Γ : Context) (s : Subst) (n x : String) : Except TypeError Subst := do
  let s ← match s.apply (.name n) with
    | .name m => if m = n then .ok s else .ok (Subst.single m (.name n) ++ s)
    | _ => .error (.escape x)
  let Δ ← Γ.apply s
  if n ∈ Δ.freeNames then .error (.escape x) else return s

namespace Infer

/-- The type of a variable, not instantiated. -/
def lookup (Γ : Context) (i : Nat) : Supplied Ty :=
  match Γ.getType? i with
  | some ty => return ty
  | none => .fail (.unbound i)

/-- A type, or a new name. -/
def orNew : Option Ty → Supplied Ty
  | some ty => return ty
  | none => do
    let x ← .take NameSupply.letter
    return .name x

/-- A substitution, and the type of the term under it. -/
def run (Γ : Context) (t : Term) : Supplied (Subst × Ty) :=
  match t with
  | .var _ i _ => do
    let ty ← lookup Γ i
    let ty ← .instantiate ty
    return ([], ty)
  | .const .. => return ([], .bool)
  | .abs _ x ty t => do
    let a ← orNew ty
    let (s, b) ← run (⟨x, .var a⟩ :: Γ) t
    -- types refer to type variables only, so never to `x`
    let s := s.shift (-1)
    return (s, .arr (s.apply a) (b.shift (-1)))
  | .app _ t u => do
    let (s₁, a) ← run Γ t
    let Γ₁ ← .ofExcept (Γ.apply s₁)
    let (s₂, b) ← run Γ₁ u
    let r ← .take NameSupply.letter
    let s₃ ← unifyOpening (s₂.apply a) (.arr b (.name r))
    return (s₃ ++ s₂ ++ s₁, s₃.apply (.name r))
  | .ite _ c t e => do
    let (s₁, a) ← run Γ c
    let s ← unifyOpening a .bool
    let s₁ := s ++ s₁
    let Γ₁ ← .ofExcept (Γ.apply s₁)
    let (s₂, b) ← run Γ₁ t
    let s₂ := s₂ ++ s₁
    let Γ₂ ← .ofExcept (Γ.apply s₂)
    let (s₃, d) ← run Γ₂ e
    let s₄ ← unifyOpening (s₃.apply b) d
    return (s₄ ++ s₃ ++ s₂, s₄.apply d)
  | .letIn _ x e t => do
    let (s₁, a) ← run Γ e
    let Γ₁ ← .ofExcept (Γ.apply s₁)
    let (s₂, b) ← run (⟨x, .var (Γ₁.generalize a [])⟩ :: Γ₁) t
    return (s₂.shift (-1) ++ s₁, b.shift (-1))
  | .tyAbs _ x t => do
    let n ← .take (·.like x)
    let (s, b) ← run Γ (t.substTyTop (.name n))
    let s ← .ofExcept (keepRigid Γ s n x)
    return (s, .all x (((s.apply b).shift 1).bindName n Γ.length))
  | .tyApp _ t ty => do
    -- a variable in front of a type argument is not instantiated
    let (s, a) : Subst × Ty ← match t with
      | .var _ i _ => do
        let a ← lookup Γ i
        pure ([], a)
      | t => run Γ t
    match a with
    | .all _ b => return (s, b.substTop (s.apply ty))
    | a => .fail (.forallExpected a)
termination_by t.size
decreasing_by all_goals (simp only [Term.size, Term.size_substTyTop]; omega)

end Infer

/-- A supply that stays clear of the names of a context and a term. -/
def NameSupply.forTerm (Γ : Context) (t : Term) : NameSupply :=
  .avoiding (Γ.freeNames ++ t.typeNames)

/-- The type of a term, generalised over the names that the context does not know. -/
def inferType (Γ : Context) (t : Term) : Except TypeError Ty := do
  let (s, ty) ← (Infer.run Γ t).answer (.forTerm Γ t)
  let Δ ← Γ.apply s
  return Δ.generalize ty []

end LambdaTyping
