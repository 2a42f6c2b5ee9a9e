import Mathlib
import LambdaTyping.Inference.FromText
import LambdaTyping.Proofs.InferenceFormation

/-!
# Printed answers

The text that inference answers is always the text of a type of the context. It
is the inferred type itself unless a type variable of the context gets in the way:
a free name of the type, which may have been chosen by inference, is the name of a
type variable, or a type variable of the type is hidden by a later one with the
same name. So in contexts without type variables the answer can be relied on.
-/
namespace LambdaTyping

/-- A printed type can be read back. It is read as itself if and only if no free name is bound by
the context and all its variables can be seen. -/
theorem Ty.exists_parse_showIn_iff {Γ : Context} (hΓ : Γ.Written) {a : Ty}
    (ha : a.FormedIn Γ.kinds) (hnamed : a.Named) :
    ∃ b, Ty.parse Γ (a.showIn Γ) = .ok b ∧
      (b.alphaEq a = true ↔ (∀ x ∈ a.freeNames, (x, Kind.type) ∉ Scope.ofContext Γ) ∧
        ∀ i, a.hasVar i → (Scope.ofContext Γ).Sees i) := by
  have hformed : a.FormedIn ((Scope.ofContext Γ).map Prod.snd) := by
    rwa [Scope.ofContext, List.map_map]
  have hcovers := Context.covers_ofContext Γ a.freeNames
  have hnames := named_named hcovers hΓ.isName hformed hnamed
  refine ⟨(a.named (.ofContext Γ a.freeNames)).resolve (.ofContext Γ), ?_, ?_⟩
  · rw [Ty.parse, showIn, Surface.Ty.parse_of_writes (writes_print hnames)]
  · have hscoped := hformed.wellScoped
    rw [List.length_map] at hscoped
    rw [Ty.alphaEq_iff_erase (Ty.wellScoped_resolve _ _) hscoped]
    exact erase_resolve_named_iff hcovers hformed

namespace Context

theorem notMem_ofContext_of_not_tyVar {Γ : Context} (h : ∀ e ∈ Γ, e.binding ≠ .tyVar) (x : String) :
    (x, Kind.type) ∉ Scope.ofContext Γ := by
  intro hx
  obtain ⟨⟨y, b⟩, he, heq⟩ := List.mem_map.mp hx
  cases b with
  | tyVar => exact h _ he rfl
  | _ => simp [Binding.kind] at heq

theorem not_tyVar_of_admitsContext {k : Calculus} (hk : k ≠ .systemF) {Γ : Context}
    (h : k.admitsContext Γ = .ok ()) : ∀ e ∈ Γ, e.binding ≠ .tyVar := by
  intro e he hb
  obtain ⟨i, hi⟩ := List.mem_iff_getElem?.mp he
  refine absurd (typesBelow_ofContext hk h i e.name ?_) (Nat.not_lt_zero i)
  rw [Scope.ofContext, List.getElem?_map, hi, Option.map_some, hb]
  rfl

/-- Without type variables nothing gets in the way of a printed type. -/
theorem sees_of_not_tyVar {Γ : Context} (h : ∀ e ∈ Γ, e.binding ≠ .tyVar) {a : Ty}
    (ha : a.FormedIn Γ.kinds) :
    (∀ x ∈ a.freeNames, (x, Kind.type) ∉ Scope.ofContext Γ) ∧
      ∀ i, a.hasVar i → (Scope.ofContext Γ).Sees i := by
  refine ⟨fun x _ => notMem_ofContext_of_not_tyVar h x, fun i hi => ?_⟩
  have hkind := ha.getElem?_of_hasVar hi
  rw [kinds, List.getElem?_map, Option.map_eq_some_iff] at hkind
  obtain ⟨⟨x, b⟩, he, hb⟩ := hkind
  cases b with
  | tyVar => exact absurd rfl (h _ (List.mem_of_getElem? he))
  | _ => simp [Binding.kind] at hb

end Context

theorem inferText_eq_ok_iff {k : Calculus} {contextText termText text : String} :
    inferText k contextText termText = .ok text ↔
      ∃ Γ t a, Context.parse contextText = .ok Γ ∧ Term.parse Γ termText = .ok t ∧
        k.admitsContext Γ = .ok () ∧ k.admitsTerm t = .ok () ∧ inferType Γ t = .ok a ∧
        text = a.showIn Γ := by
  simp only [inferText, bind_eq_ok_iff, mapError_eq_ok_iff, pure, Except.pure, Except.ok.injEq]
  grind

/-- An answer is the text of a type, for every calculus. That type is the inferred one if and only
if no free name of the inferred type is bound by the context and none of its variables is hidden,
and so it is where the context has no type variables. -/
theorem exists_parse_of_inferText {k : Calculus} {contextText termText text : String}
    (h : inferText k contextText termText = .ok text) :
    ∃ Γ t a b, Context.parse contextText = .ok Γ ∧ Term.parse Γ termText = .ok t ∧
      inferType Γ t = .ok a ∧ Ty.parse Γ text = .ok b ∧
      (b.alphaEq a = true ↔ (∀ x ∈ a.freeNames, (x, Kind.type) ∉ Scope.ofContext Γ) ∧
        ∀ i, a.hasVar i → (Scope.ofContext Γ).Sees i) ∧
      (k ≠ .systemF ∨ (∀ e ∈ Γ, e.binding ≠ .tyVar) → b.alphaEq a = true) := by
  obtain ⟨Γ, t, a, hΓ, ht, hcontext, -, ha, rfl⟩ := inferText_eq_ok_iff.mp h
  obtain ⟨σ, hknown⟩ := knownIn_of_inferType hΓ ht ha
  obtain ⟨b, hb, hiff⟩ :=
    Ty.exists_parse_showIn_iff (Context.written_of_parse hΓ) hknown.formed hknown.named
  refine ⟨Γ, t, a, b, hΓ, ht, ha, hb, hiff, fun hk => hiff.mpr ?_⟩
  refine Context.sees_of_not_tyVar ?_ hknown.formed
  exact hk.elim (fun hk => Context.not_tyVar_of_admitsContext hk hcontext) id

/-- A free name of the context is printed beside a bound variable of the same name. -/
theorem exists_parse_of_inferText_tyAbs :
    inferText .systemF "Y, f: Y -> Z" "Lambda Y. \\y: Y. f" = .ok "∀Y1. Y1 → Y → Z" ∧
    ∃ Γ t a b, Context.parse "Y, f: Y -> Z" = .ok Γ ∧
      Term.parse Γ "Lambda Y. \\y: Y. f" = .ok t ∧ inferType Γ t = .ok a ∧
      Ty.parse Γ "∀Y1. Y1 → Y → Z" = .ok b ∧
      (b.alphaEq a = true ↔ (∀ x ∈ a.freeNames, (x, Kind.type) ∉ Scope.ofContext Γ) ∧
        ∀ i, a.hasVar i → (Scope.ofContext Γ).Sees i) := by
  have h : inferText .systemF "Y, f: Y -> Z" "Lambda Y. \\y: Y. f" = .ok "∀Y1. Y1 → Y → Z" := by
    decide +kernel
  obtain ⟨Γ, t, a, b, hΓ, ht, ha, hb, hiff, -⟩ := exists_parse_of_inferText h
  exact ⟨h, Γ, t, a, b, hΓ, ht, ha, hb, hiff⟩

/-- The result of `f` gets a new name, which is the name of a type variable of the context. -/
theorem inferText_captured_by_context :
    ∃ Γ t a b, Context.parse "A, f: B" = .ok Γ ∧ Term.parse Γ "f true" = .ok t ∧
      inferType Γ t = .ok a ∧ inferText .systemF "A, f: B" "f true" = .ok "A" ∧
      Ty.parse Γ "A" = .ok b ∧ b.alphaEq a = false := by
  let Γ : Context := [⟨"f", .var (.name "B")⟩, ⟨"A", .tyVar⟩]
  let t : Term := .app ⟨1, 1⟩ (.var ⟨1, 1⟩ 0 2) (.const ⟨1, 3⟩ true)
  refine ⟨Γ, t, .name "A", .var 1 2, ?_, ?_, ?_, ?_, ?_, ?_⟩ <;> decide +kernel

end LambdaTyping
