import Mathlib
import LambdaTyping.Proofs.Matching
import LambdaTyping.Proofs.SystemFTrees

/-!
# The rules of Hindley-Milner

The rules with schemes in the context, in two forms: for judgments that are written out,
and as equations under a map of names. Both forms can be decided for given judgments.
-/
namespace LambdaTyping

/-- The rules of Hindley-Milner: from the premises a term of type `ty` follows in the context `Γ`.
A variable has an instance of its scheme, and a definition the scheme of its type, with its
quantifiers in any order. Contexts, terms and types are given up to the names of binders. -/
def Rule.DerivesPolymorphic (Γ : Context) (ty : Ty) : Rule → Term → List Judgment → Prop
  | .var, .var _ i _, [] => ∃ ς, Γ.getType? i = some ς ∧ ς.Instance ty
  | .abs, .abs _ _ annot t, [⟨⟨_, .var a⟩ :: Δ, t', b⟩] =>
    Judgment.IsFor Γ t ⟨Δ, t', b⟩ ∧ (∀ a' ∈ annot, a'.alphaEq a = true) ∧
      ty.alphaEq (.arr a (b.shift (-1))) = true
  | .app, .app _ t u, [p, q] => p.IsFor Γ t ∧ q.IsFor Γ u ∧ p.ty.alphaEq (.arr q.ty ty) = true
  | .ite, .ite _ i t e, [p, q, r] =>
    p.IsFor Γ i ∧ q.IsFor Γ t ∧ r.IsFor Γ e ∧ p.ty.alphaEq .bool = true ∧ q.ty.alphaEq ty = true ∧
      r.ty.alphaEq ty = true
  | .letIn, .letIn _ _ e t, [p, ⟨⟨_, .var ς⟩ :: Δ, t', b⟩] =>
    p.IsFor Γ e ∧ Judgment.IsFor Γ t ⟨Δ, t', b⟩ ∧
      (∃ xs, xs.Perm (Γ.generic p.ty []) ∧ ς.alphaEq (p.ty.generalize Γ.length xs) = true) ∧
      ty.alphaEq (b.shift (-1)) = true
  | .constTrue, .const _ true, [] | .constFalse, .const _ false, [] => ty.alphaEq .bool = true
  | _, _, _ => False

/-- The equations of a rule in Hindley-Milner, under a map of names: a variable has an instance of its
scheme, and the other rules are those for types without quantifiers. -/
def Rule.PolymorphicEquations (θ : String → Ty) (Γ : Context) (ty : Ty) :
    Rule → Term → List Judgment → Prop
  | .var, .var _ i _, [] => ∀ ς, Γ.getType? i = some ς → (ς.mapNames θ).Instance (ty.mapNames θ)
  | r, t, js => r.Equations θ Γ ty t js

instance (Γ : Context) (r : Rule) (t : Term) (js : List Judgment) : Decidable (r.Shape Γ t js) := by
  unfold Rule.Shape
  split
  case h_1 i n => exact decidable_of_iff (Γ.getType? i).isSome Option.isSome_iff_exists
  all_goals infer_instance

instance (θ : String → Ty) (Γ : Context) (ty : Ty) (r : Rule) (t : Term) (js : List Judgment) :
    Decidable (r.Equations θ Γ ty t js) := by
  unfold Rule.Equations
  split <;> infer_instance

instance (Γ Δ : Context) : Decidable (Γ.AlphaEq Δ) := inferInstanceAs (Decidable (List.Forall₂ _ Γ Δ))

instance (Γ : Context) (t : Term) (j : Judgment) : Decidable (j.IsFor Γ t) :=
  inferInstanceAs (Decidable (_ ∧ _))

instance (Γ : Context) (ty ς : Ty) : Decidable
    (∃ xs : List String, xs.Perm (Γ.generic ty []) ∧ ς.alphaEq (ty.generalize Γ.length xs) = true) :=
  decidable_of_iff (∃ xs ∈ (Γ.generic ty []).permutations', ς.alphaEq (ty.generalize Γ.length xs) = true)
    (by simp only [List.mem_permutations'])

instance (Γ : Context) (ty : Ty) (r : Rule) (t : Term) (js : List Judgment) :
    Decidable (r.DerivesPolymorphic Γ ty t js) := by
  unfold Rule.DerivesPolymorphic
  split <;> infer_instance

instance (θ : String → Ty) (Γ : Context) (ty : Ty) (r : Rule) (t : Term) (js : List Judgment) :
    Decidable (r.PolymorphicEquations θ Γ ty t js) := by
  unfold Rule.PolymorphicEquations
  split
  case h_1 i n =>
    exact inferInstanceAs (Decidable (∀ ς ∈ Γ.getType? i, (ς.mapNames θ).Instance (ty.mapNames θ)))
  case h_2 => infer_instance

/-- A rule derives types for terms that it fits, from as many premises as it has. -/
theorem Rule.fits_of_derivesPolymorphic {Γ : Context} {ty : Ty} {r : Rule} {t : Term}
    {js : List Judgment} (h : r.DerivesPolymorphic Γ ty t js) :
    r.fits t = true ∧ js.length = r.arity := by
  unfold DerivesPolymorphic at h
  split at h
  all_goals first | exact ⟨rfl, rfl⟩ | exact h.elim

theorem Rule.PolymorphicEquations.congr {η θ : String → Ty} {r : Rule} {j : Judgment}
    {js : List Judgment} (h : r.PolymorphicEquations θ j.context j.ty j.term js)
    (hj : ∀ x ∈ j.freeNames, η x = θ x) (hjs : ∀ i ∈ js, ∀ x ∈ i.freeNames, η x = θ x) :
    r.PolymorphicEquations η j.context j.ty j.term js := by
  obtain ⟨Γ, t, ty⟩ := j
  dsimp only at h ⊢
  unfold PolymorphicEquations at h ⊢
  split
  case h_1 i =>
    intro ς hς
    rw [Ty.mapNames_congr fun x hx => hj x ?_, Ty.mapNames_congr fun x hx => hj x ?_]
    · exact h ς hς
    · simp [Judgment.freeNames, hx]
    · simp [Judgment.freeNames, Context.mem_freeNames_of_getType? hς hx]
  case h_2 hvar =>
    split at h
    · exact (hvar _ _ _ rfl rfl rfl).elim
    · exact Rule.Equations.congr h hj hjs

end LambdaTyping
