import Mathlib
import LambdaTyping.Calculus
import LambdaTyping.Scoping
import LambdaTyping.Proofs.HindleyMilner

/-!
# Admitted terms and contexts

What it means for terms and contexts that they were read from a text and are
admitted by the simply typed calculus or by Hindley-Milner. Neither has type
variables in contexts, so annotations are simple types and the types in contexts
are schemes without variables from outside.
-/
namespace LambdaTyping

namespace Ty

theorem varsBelow_of_isSimple (c : Nat) {t : Ty} (h : t.isSimple) : t.VarsBelow c := by
  induction t with
  | arr a b iha ihb =>
    rw [isSimple_arr] at h
    exact ⟨iha h.1, ihb h.2⟩
  | var i n => simp at h
  | all x a ih => simp at h
  | _ => trivial

theorem VarsBelow.fillAt {s : Ty} (hs : s.isSimple) {c : Nat} {t : Ty} (h : t.VarsBelow (c + 1)) :
    (t.fillAt s c).VarsBelow c := by
  induction t generalizing c with
  | var i n =>
    have hi : i < c + 1 := h
    simp only [Ty.fillAt]
    split
    · rw [shift_of_isSimple c hs]
      exact varsBelow_of_isSimple c hs
    · have hlt : i < c := by omega
      simpa [VarsBelow, Nat.not_lt.mpr hlt.le] using hlt
  | arr a b iha ihb => exact ⟨iha h.1, ihb h.2⟩
  | all x a ih => exact ih h
  | _ => trivial

theorem size_fillAt_bool (c : Nat) (t : Ty) : (t.fillAt bool c).size = t.size := by
  induction t generalizing c with
  | var i n =>
    simp only [Ty.fillAt]
    split <;> rfl
  | arr a b iha ihb => simp [Ty.fillAt, size, iha, ihb]
  | all x a ih => simp [Ty.fillAt, size, ih]
  | _ => rfl

/-- A type whose quantifiers are all outermost is a scheme with instances. -/
theorem exists_instance {t : Ty} (hprenex : t.isPrenex) (h : t.VarsBelow 0) :
    ∃ τ, t.Instance τ := by
  induction hn : t.size using Nat.strong_induction_on generalizing t with
  | _ n ih =>
    subst hn
    cases t with
    | all x a =>
      have hfill : (a.fillAt bool 0).isPrenex := isPrenex_fillAt rfl hprenex
      obtain ⟨τ, hτ⟩ := ih (a.fillAt bool 0).size (by simp [size_fillAt_bool, size]) hfill
        (VarsBelow.fillAt rfl h) rfl
      exact ⟨τ, instance_all_iff.mpr ⟨bool, rfl, hτ⟩⟩
    | var i n => exact absurd h (Nat.not_lt_zero i)
    | _ => exact ⟨_, .simple (isSimple_of_isMono hprenex h)⟩

end Ty

/-- Only the `d` nearest binders can be type binders. -/
def Scope.TypesBelow (d : Nat) (sc : Scope) : Prop := ∀ i x, sc[i]? = some (x, .type) → i < d

namespace Scope.TypesBelow

variable {sc : Scope} {d : Nat}

theorem index?_lt (h : sc.TypesBelow d) {x : String} {i : Nat} (hi : sc.index? x .type = some i) :
    i < d := by
  obtain ⟨hlt, hx, -⟩ := List.findIdx?_eq_some_iff_getElem.mp hi
  refine h i x ?_
  rw [List.getElem?_eq_getElem hlt, eq_of_beq hx]

theorem push_type (h : sc.TypesBelow d) (x : String) : TypesBelow (d + 1) (sc.push (x, .type)) := by
  intro i y hi
  cases i with
  | zero => omega
  | succ i => exact Nat.succ_lt_succ (h i y hi)

theorem push_term (h : sc.TypesBelow 0) (x : String) : TypesBelow 0 (sc.push (x, .term)) := by
  intro i y hi
  cases i with
  | zero => simp [Stack.push] at hi
  | succ i => exact absurd (h i y hi) (Nat.not_lt_zero i)

theorem varsBelow_resolve (h : sc.TypesBelow d) (u : Surface.Ty) : (u.resolve sc).VarsBelow d := by
  induction u generalizing sc d with
  | var x =>
    simp only [Surface.Ty.resolve]
    split
    · rename_i i hi
      exact h.index?_lt hi
    · trivial
  | bool => trivial
  | arr a b iha ihb => exact ⟨iha h, ihb h⟩
  | all x a ih => exact ih (h.push_type x)

end Scope.TypesBelow

/-- No types are abstracted over or passed as arguments, and all annotations are simple. -/
def Term.IsPlain : Term → Prop
  | var .. | const .. => True
  | abs _ _ ty t => (∀ a ∈ ty, a.isSimple) ∧ t.IsPlain
  | app _ t u => t.IsPlain ∧ u.IsPlain
  | ite _ c t e => c.IsPlain ∧ t.IsPlain ∧ e.IsPlain
  | letIn _ _ e t => e.IsPlain ∧ t.IsPlain
  | tyAbs .. | tyApp .. => False

theorem Term.IsPlain.mapNames {θ : String → Ty} (hθ : IsSimpleMap θ) {t : Term} (h : t.IsPlain) :
    (t.mapNames θ).IsPlain := by
  induction t with
  | abs p x ty t ih =>
    rw [mapNames_abs hθ]
    refine ⟨fun a ha => ?_, ih h.2⟩
    obtain ⟨a', ha', rfl⟩ := Option.map_eq_some_iff.mp ha
    exact Ty.isSimple_mapNames hθ (h.1 a' ha')
  | app p t u iht ihu => exact ⟨iht h.1, ihu h.2⟩
  | ite p c t e ihc iht ihe => exact ⟨ihc h.1, iht h.2.1, ihe h.2.2⟩
  | letIn p x e t ihe iht =>
    rw [mapNames_letIn hθ]
    exact ⟨ihe h.1, iht h.2⟩
  | tyAbs p x t ih => exact h.elim
  | tyApp p t ty ih => exact h.elim
  | _ => trivial

theorem Calculus.need_eq_ok {k : Calculus} {v : Violation} {ok : Bool} :
    k.need v ok = .ok () ↔ ok = true := by
  cases ok <;> simp [Calculus.need]

theorem Calculus.isMono_of_admitsAnnot {k : Calculus} (hk : k ≠ .systemF) {ty : Ty}
    (h : k.admitsAnnot ty = .ok ()) : ty.isMono := by
  cases k with
  | simplyTyped => exact need_eq_ok.mp h
  | hindleyMilner => exact need_eq_ok.mp h
  | systemF => exact absurd rfl hk

/-- An admitted term whose names were resolved among term binders is plain. -/
theorem Term.isPlain_of_resolve {k : Calculus} (hk : k ≠ .systemF) {sc : Scope}
    (hsc : sc.TypesBelow 0) {u : Surface.Term} {t : Term} (h : u.resolve sc = .ok t)
    (hadm : k.admitsTerm t = .ok ()) : t.IsPlain := by
  induction u generalizing sc t with
  | var p x =>
    simp only [Surface.Term.resolve] at h
    split at h
    · cases h; trivial
    · cases h
  | const p b => cases h; trivial
  | abs p x ty u ih =>
    obtain ⟨t, ht, h⟩ := bind_eq_ok_iff.mp h
    cases h
    cases ty with
    | none =>
      obtain ⟨_, -, hadm⟩ := bind_eq_ok_iff.mp hadm
      exact ⟨by simp, ih (hsc.push_term x) ht hadm⟩
    | some a =>
      obtain ⟨_, hannot, hadm⟩ := bind_eq_ok_iff.mp hadm
      refine ⟨fun a' ha' => ?_, ih (hsc.push_term x) ht hadm⟩
      obtain rfl : a.resolve sc = a' := by simpa using ha'
      exact Ty.isSimple_of_isMono (Calculus.isMono_of_admitsAnnot hk hannot)
        (hsc.varsBelow_resolve a)
  | app p u v ihu ihv =>
    obtain ⟨t₁, h₁, h⟩ := bind_eq_ok_iff.mp h
    obtain ⟨t₂, h₂, h⟩ := bind_eq_ok_iff.mp h
    cases h
    obtain ⟨_, hadm₁, hadm₂⟩ := bind_eq_ok_iff.mp hadm
    exact ⟨ihu hsc h₁ hadm₁, ihv hsc h₂ hadm₂⟩
  | ite p c u v ihc ihu ihv =>
    obtain ⟨t₁, h₁, h⟩ := bind_eq_ok_iff.mp h
    obtain ⟨t₂, h₂, h⟩ := bind_eq_ok_iff.mp h
    obtain ⟨t₃, h₃, h⟩ := bind_eq_ok_iff.mp h
    cases h
    obtain ⟨_, hadm₁, hadm⟩ := bind_eq_ok_iff.mp hadm
    obtain ⟨_, hadm₂, hadm₃⟩ := bind_eq_ok_iff.mp hadm
    exact ⟨ihc hsc h₁ hadm₁, ihu hsc h₂ hadm₂, ihv hsc h₃ hadm₃⟩
  | tyAbs p x u ih =>
    obtain ⟨t, ht, h⟩ := bind_eq_ok_iff.mp h
    cases h
    obtain ⟨_, hneed, -⟩ := bind_eq_ok_iff.mp hadm
    exact absurd (by simpa using Calculus.need_eq_ok.mp hneed) hk
  | tyApp p u ty ih =>
    obtain ⟨t, ht, h⟩ := bind_eq_ok_iff.mp h
    cases h
    obtain ⟨_, hneed, -⟩ := bind_eq_ok_iff.mp hadm
    exact absurd (by simpa using Calculus.need_eq_ok.mp hneed) hk
  | letIn p x u v ihu ihv =>
    obtain ⟨t₁, h₁, h⟩ := bind_eq_ok_iff.mp h
    obtain ⟨t₂, h₂, h⟩ := bind_eq_ok_iff.mp h
    cases h
    obtain ⟨_, hadm₁, hadm₂⟩ := bind_eq_ok_iff.mp hadm
    exact ⟨ihu hsc h₁ hadm₁, ihv (hsc.push_term x) h₂ hadm₂⟩

namespace Context

/-- Every type was resolved in the context below it. -/
def IsResolved : Context → Prop
  | [] => True
  | e :: Γ => (∀ ty, e.binding = .var ty → ∃ u : Surface.Ty, u.resolve (.ofContext Γ) = ty) ∧
      IsResolved Γ

theorem isResolved_resolveOnto {Γ : Context} (h : Γ.IsResolved) (bs : Surface.Context) :
    IsResolved (Surface.Context.resolveOnto (.ofContext Γ) Γ bs) := by
  induction bs generalizing Γ with
  | nil => exact h
  | cons b bs ih =>
    obtain ⟨x, b⟩ := b
    refine ih (Γ := Γ.push ⟨x, b.resolve (.ofContext Γ)⟩) ⟨fun ty hty => ?_, h⟩
    cases b with
    | var ty? =>
      cases ty? with
      | none => simp [Surface.Binding.resolve] at hty
      | some u => exact ⟨u, by simpa [Surface.Binding.resolve] using hty⟩
    | tyVar => simp [Surface.Binding.resolve] at hty

theorem isResolved_of_parse {text : String} {Γ : Context} (h : Context.parse text = .ok Γ) :
    Γ.IsResolved := by
  unfold Context.parse at h
  split at h
  · cases h
    exact isResolved_resolveOnto (Γ := []) trivial _
  · cases h

theorem typesBelow_ofContext {k : Calculus} (hk : k ≠ .systemF) {Γ : Context}
    (h : k.admitsContext Γ = .ok ()) : Scope.TypesBelow 0 (.ofContext Γ) := by
  induction Γ with
  | nil => intro i x hi; simp [Scope.ofContext] at hi
  | cons e Γ ih =>
    obtain ⟨_, hbinding, hrest⟩ := bind_eq_ok_iff.mp h
    have hkind : e.binding.kind = .term := by
      obtain ⟨x, b⟩ := e
      cases b with
      | tyVar => exact absurd (by simpa using Calculus.need_eq_ok.mp hbinding) hk
      | _ => rfl
    have hpush := (ih hrest).push_term e.name
    rwa [← hkind] at hpush

/-- All types are schemes with instances. -/
def IsPolymorphic (Γ : Context) : Prop := ∀ i ty, Γ.getType? i = some ty → ∃ τ, ty.Instance τ

theorem isPolymorphic_nil : IsPolymorphic [] := fun i ty h => by simp [getType?] at h

theorem getType?_cons_zero_eq_some {x : String} {b : Binding} {Γ : Context} {ty : Ty}
    (h : getType? (⟨x, b⟩ :: Γ) 0 = some ty) : ∃ a, b = .var a ∧ ty = a.shift 1 := by
  cases b with
  | var a => exact ⟨a, rfl, by simpa [eq_comm] using h⟩
  | _ => simp [getType?] at h

theorem IsPolymorphic.cons {Γ : Context} (h : Γ.IsPolymorphic) (x : String) {b : Binding}
    (hb : ∀ a, b = .var a → ∃ τ, a.Instance τ) : IsPolymorphic (⟨x, b⟩ :: Γ) := by
  intro i ty hi
  cases i with
  | zero =>
    obtain ⟨a, ha, rfl⟩ := getType?_cons_zero_eq_some hi
    obtain ⟨τ, hτ⟩ := hb a ha
    exact ⟨τ, Ty.instance_shift_iff (d := 1) |>.mpr hτ⟩
  | succ i =>
    rw [getType?_cons_succ, Option.map_eq_some_iff] at hi
    obtain ⟨a, ha, rfl⟩ := hi
    obtain ⟨τ, hτ⟩ := h i a ha
    exact ⟨τ, Ty.instance_shift_iff (d := 1) |>.mpr hτ⟩

theorem IsPolymorphic.cons_simple {Γ : Context} (h : Γ.IsPolymorphic) (x : String) {a : Ty}
    (ha : a.isSimple) : IsPolymorphic (⟨x, .var a⟩ :: Γ) := by
  refine h.cons x fun b hb => ?_
  obtain rfl : a = b := by simpa using hb
  exact ⟨a, .simple ha⟩

theorem IsPolymorphic.mapNames {θ : String → Ty} (hθ : IsSimpleMap θ) {Γ : Context}
    (h : Γ.IsPolymorphic) : (Γ.mapNames θ).IsPolymorphic := by
  intro i ty hi
  rw [getType?_mapNames hθ, Option.map_eq_some_iff] at hi
  obtain ⟨a, ha, rfl⟩ := hi
  obtain ⟨τ, hτ⟩ := h i a ha
  exact ⟨τ.mapNames θ, hτ.mapNames hθ⟩

theorem isPolymorphic_of_admitsContext {Γ : Context} (hΓ : Γ.IsResolved)
    (h : Calculus.hindleyMilner.admitsContext Γ = .ok ()) : Γ.IsPolymorphic := by
  induction Γ with
  | nil => exact isPolymorphic_nil
  | cons e Γ ih =>
    obtain ⟨x, b⟩ := e
    obtain ⟨_, hbinding, hrest⟩ := bind_eq_ok_iff.mp h
    refine (ih hΓ.2 hrest).cons x fun a ha => ?_
    subst ha
    obtain ⟨u, rfl⟩ := hΓ.1 a rfl
    exact Ty.exists_instance (Calculus.need_eq_ok.mp hbinding)
      ((typesBelow_ofContext (by simp) hrest).varsBelow_resolve u)

end Context

theorem Ty.varsBelow_of_parse {k : Calculus} (hk : k ≠ .systemF) {Γ : Context} {text : String}
    {ty : Ty} (hΓ : k.admitsContext Γ = .ok ()) (h : Ty.parse Γ text = .ok ty) :
    ty.VarsBelow 0 := by
  unfold Ty.parse at h
  split at h
  · cases h
    exact (Context.typesBelow_ofContext hk hΓ).varsBelow_resolve _
  · cases h

theorem Term.isPlain_of_parse {k : Calculus} (hk : k ≠ .systemF) {Γ : Context} {text : String}
    {t : Term} (hΓ : k.admitsContext Γ = .ok ()) (h : Term.parse Γ text = .ok t)
    (hadm : k.admitsTerm t = .ok ()) : t.IsPlain := by
  unfold Term.parse at h
  split at h
  · split at h
    · rename_i t' ht'
      cases h
      exact isPlain_of_resolve hk (Context.typesBelow_ofContext hk hΓ) ht' hadm
    · cases h
  · cases h

end LambdaTyping
