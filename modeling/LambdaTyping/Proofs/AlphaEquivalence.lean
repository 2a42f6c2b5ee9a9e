import Mathlib
import LambdaTyping.Proofs.Admission

/-!
# Alpha-equivalence

Terms that were read in contexts of one length are alpha-equivalent if and only
if they are equal once positions and the names of binders are forgotten.
-/
namespace LambdaTyping

namespace Term

/-- Every variable records the length of its place and has an index below it. -/
def WellScoped (n : Nat) : Term → Prop
  | var _ i m => m = n ∧ i < n
  | const .. => True
  | abs _ _ ty t => (∀ a ∈ ty, a.WellScoped n) ∧ t.WellScoped (n + 1)
  | app _ t u => t.WellScoped n ∧ u.WellScoped n
  | ite _ c t e => c.WellScoped n ∧ t.WellScoped n ∧ e.WellScoped n
  | tyAbs _ _ t => t.WellScoped (n + 1)
  | tyApp _ t ty => t.WellScoped n ∧ ty.WellScoped n
  | letIn _ _ e t => e.WellScoped n ∧ t.WellScoped (n + 1)

/-- The term without positions and the names of binders. -/
def erase : Term → Term
  | var _ i n => var default i n
  | const _ b => const default b
  | abs _ _ ty t => abs default "" (ty.map Ty.erase) t.erase
  | app _ t u => app default t.erase u.erase
  | ite _ c t e => ite default c.erase t.erase e.erase
  | tyAbs _ _ t => tyAbs default "" t.erase
  | tyApp _ t ty => tyApp default t.erase ty.erase
  | letIn _ _ e t => letIn default "" e.erase t.erase

@[simp] theorem typeNames_erase (t : Term) : t.erase.typeNames = t.typeNames := by
  induction t with
  | abs p x ty t ih => cases ty <;> simp [erase, typeNames, ih]
  | app p t u iht ihu => simp [erase, typeNames, iht, ihu]
  | ite p c t e ihc iht ihe => simp [erase, typeNames, ihc, iht, ihe]
  | tyAbs p x t ih => simpa [erase, typeNames] using ih
  | tyApp p t ty ih => simp [erase, typeNames, ih]
  | letIn p x e t ihe iht => simp [erase, typeNames, ihe, iht]
  | _ => rfl

theorem typeNames_eq_of_erase_eq {t u : Term} (h : t.erase = u.erase) :
    t.typeNames = u.typeNames := by
  rw [← typeNames_erase, h, typeNames_erase]

theorem erase_mapNamesAt (θ : String → Ty) (c : Nat) (t : Term) :
    (t.mapNamesAt θ c).erase = t.erase.mapNamesAt (fun x => (θ x).erase) c := by
  induction t generalizing c with
  | abs p x ty t ih => cases ty <;> simp [erase, mapNamesAt, ih, Ty.erase_mapNamesAt]
  | app p t u iht ihu => simp [erase, mapNamesAt, iht, ihu]
  | ite p i t e ihi iht ihe => simp [erase, mapNamesAt, ihi, iht, ihe]
  | tyAbs p x t ih => simp [erase, mapNamesAt, ih]
  | tyApp p t ty ih => simp [erase, mapNamesAt, ih, Ty.erase_mapNamesAt]
  | letIn p x e t ihe iht => simp [erase, mapNamesAt, ihe, iht]
  | _ => rfl

theorem erase_mapNames_eq {t u : Term} (h : t.erase = u.erase) (θ : String → Ty) :
    (t.mapNames θ).erase = (u.mapNames θ).erase := by
  rw [mapNames, mapNames, erase_mapNamesAt, erase_mapNamesAt, h]

theorem sameAnnot_iff_erase {n c : Nat} {a b : Option Ty} (ha : ∀ ty ∈ a, ty.WellScoped (n + c))
    (hb : ∀ ty ∈ b, ty.WellScoped (n + c)) :
    sameAnnot c a b = true ↔ a.map Ty.erase = b.map Ty.erase := by
  cases a with
  | none => cases b <;> simp [sameAnnot]
  | some a =>
    cases b with
    | none => simp [sameAnnot]
    | some b => simpa [sameAnnot] using Ty.alphaEqAt_iff_erase (ha a rfl) (hb b rfl)

theorem alphaEqAt_iff_erase {n c : Nat} {t u : Term} (ht : t.WellScoped (n + c))
    (hu : u.WellScoped (n + c)) : t.alphaEqAt c u = true ↔ t.erase = u.erase := by
  induction t generalizing u c with
  | var p i m =>
    cases u with
    | var q j k =>
      have h := Ty.alphaEqAt_iff_erase (a := .var i m) (b := .var j k) ht hu
      simpa [alphaEqAt, Ty.alphaEqAt, erase, Ty.erase] using h
    | _ => simp [alphaEqAt, erase]
  | const p b => cases u <;> simp [alphaEqAt, erase]
  | abs p x ty t ih =>
    cases u with
    | abs q y ty' u =>
      simp [alphaEqAt, erase, sameAnnot_iff_erase ht.1 hu.1, ih (c := c + 1) ht.2 hu.2]
    | _ => simp [alphaEqAt, erase]
  | app p t₁ t₂ ih₁ ih₂ =>
    cases u with
    | app q u₁ u₂ => simp [alphaEqAt, erase, ih₁ ht.1 hu.1, ih₂ ht.2 hu.2]
    | _ => simp [alphaEqAt, erase]
  | ite p t₁ t₂ t₃ ih₁ ih₂ ih₃ =>
    cases u with
    | ite q u₁ u₂ u₃ =>
      simp [alphaEqAt, erase, ih₁ ht.1 hu.1, ih₂ ht.2.1 hu.2.1, ih₃ ht.2.2 hu.2.2, and_assoc]
    | _ => simp [alphaEqAt, erase]
  | tyAbs p x t ih =>
    cases u with
    | tyAbs q y u => simp [alphaEqAt, erase, ih (c := c + 1) ht hu]
    | _ => simp [alphaEqAt, erase]
  | tyApp p t ty ih =>
    cases u with
    | tyApp q u ty' =>
      simp [alphaEqAt, erase, ih ht.1 hu.1, Ty.alphaEqAt_iff_erase ht.2 hu.2]
    | _ => simp [alphaEqAt, erase]
  | letIn p x t₁ t₂ ih₁ ih₂ =>
    cases u with
    | letIn q y u₁ u₂ => simp [alphaEqAt, erase, ih₁ ht.1 hu.1, ih₂ (c := c + 1) ht.2 hu.2]
    | _ => simp [alphaEqAt, erase]

theorem alphaEq_iff_erase {n : Nat} {t u : Term} (ht : t.WellScoped n) (hu : u.WellScoped n) :
    t.alphaEq u = true ↔ t.erase = u.erase := alphaEqAt_iff_erase (c := 0) ht hu

end Term

theorem Ty.alphaEq_iff_erase {n : Nat} {a b : Ty} (ha : a.WellScoped n) (hb : b.WellScoped n) :
    a.alphaEq b = true ↔ a.erase = b.erase := Ty.alphaEqAt_iff_erase (c := 0) ha hb

theorem Scope.index?_lt_length {sc : Scope} {x : String} {k : Kind} {i : Nat}
    (h : sc.index? x k = some i) : i < sc.length :=
  (List.findIdx?_eq_some_iff_getElem.mp h).1

theorem Ty.wellScoped_resolve (sc : Scope) (u : Surface.Ty) :
    (u.resolve sc).WellScoped sc.length := by
  induction u generalizing sc with
  | var x =>
    simp only [Surface.Ty.resolve]
    split
    · rename_i i hi
      exact ⟨rfl, Scope.index?_lt_length hi⟩
    · trivial
  | bool => trivial
  | arr a b iha ihb => exact ⟨iha sc, ihb sc⟩
  | all x a ih => exact ih (sc.push (x, .type))

theorem Term.wellScoped_resolve {sc : Scope} {u : Surface.Term} {t : Term}
    (h : u.resolve sc = .ok t) : t.WellScoped sc.length := by
  induction u generalizing sc t with
  | var p x =>
    simp only [Surface.Term.resolve] at h
    split at h
    · rename_i i hi
      cases h
      exact ⟨rfl, Scope.index?_lt_length hi⟩
    · cases h
  | const p b => cases h; trivial
  | abs p x ty u ih =>
    obtain ⟨t, ht, h⟩ := bind_eq_ok_iff.mp h
    cases h
    refine ⟨fun a ha => ?_, ih ht⟩
    obtain ⟨a, -, rfl⟩ := Option.map_eq_some_iff.mp ha
    exact Ty.wellScoped_resolve sc a
  | app p u v ihu ihv =>
    obtain ⟨t₁, h₁, h⟩ := bind_eq_ok_iff.mp h
    obtain ⟨t₂, h₂, h⟩ := bind_eq_ok_iff.mp h
    cases h
    exact ⟨ihu h₁, ihv h₂⟩
  | ite p c u v ihc ihu ihv =>
    obtain ⟨t₁, h₁, h⟩ := bind_eq_ok_iff.mp h
    obtain ⟨t₂, h₂, h⟩ := bind_eq_ok_iff.mp h
    obtain ⟨t₃, h₃, h⟩ := bind_eq_ok_iff.mp h
    cases h
    exact ⟨ihc h₁, ihu h₂, ihv h₃⟩
  | tyAbs p x u ih =>
    obtain ⟨t, ht, h⟩ := bind_eq_ok_iff.mp h
    cases h
    exact @ih (sc.push (x, .type)) _ ht
  | tyApp p u ty ih =>
    obtain ⟨t, ht, h⟩ := bind_eq_ok_iff.mp h
    cases h
    exact ⟨ih ht, Ty.wellScoped_resolve sc ty⟩
  | letIn p x u v ihu ihv =>
    obtain ⟨t₁, h₁, h⟩ := bind_eq_ok_iff.mp h
    obtain ⟨t₂, h₂, h⟩ := bind_eq_ok_iff.mp h
    cases h
    exact ⟨ihu h₁, ihv h₂⟩

theorem Context.IsResolved.wellScoped_head {x : String} {a : Ty} {Γ : Context}
    (h : Context.IsResolved (⟨x, .var a⟩ :: Γ)) : a.WellScoped Γ.length := by
  obtain ⟨u, rfl⟩ := h.1 a rfl
  have hscope := Ty.wellScoped_resolve (.ofContext Γ) u
  rwa [Scope.ofContext, List.length_map] at hscope

theorem Term.wellScoped_of_parse {Γ : Context} {text : String} {t : Term}
    (h : Term.parse Γ text = .ok t) : t.WellScoped Γ.length := by
  unfold Term.parse at h
  split at h
  · split at h
    · rename_i t' ht'
      cases h
      have hscope := wellScoped_resolve ht'
      rwa [Scope.ofContext, List.length_map] at hscope
    · cases h
  · cases h

/-- The bindings are of one kind, and types are equal up to the names of binders. -/
def Binding.alphaEq : Binding → Binding → Bool
  | .name, .name | .tyVar, .tyVar => true
  | .var a, .var b => a.alphaEq b
  | _, _ => false

end LambdaTyping
