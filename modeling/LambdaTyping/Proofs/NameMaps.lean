import Mathlib
import LambdaTyping.Subst
import LambdaTyping.Context.Basic
import LambdaTyping.Term.Basic
import LambdaTyping.Proofs.Shifting

/-!
# Maps of names to types

A substitution is a list of bindings that take effect one after the other. What
it does to a type is said at once by a map `θ` from names to types, applied to
all free names simultaneously. Below quantifiers the images are shifted, so no
variable is captured.
-/
namespace LambdaTyping

namespace Ty

/-- Replace all free names at once, below `c` quantifiers. -/
def mapNamesAt (θ : String → Ty) (c : Nat) : Ty → Ty
  | name x => (θ x).shift c
  | var i n => var i n
  | arr a b => arr (a.mapNamesAt θ c) (b.mapNamesAt θ c)
  | all x a => all x (a.mapNamesAt θ (c + 1))
  | bool => bool

/-- Replace all free names at once. -/
def mapNames (θ : String → Ty) (t : Ty) : Ty := t.mapNamesAt θ 0

@[simp] theorem mapNames_name (θ : String → Ty) (x : String) : (name x).mapNames θ = θ x := by
  simp [mapNames, mapNamesAt]
@[simp] theorem mapNames_arr (θ : String → Ty) (a b : Ty) :
    (arr a b).mapNames θ = arr (a.mapNames θ) (b.mapNames θ) := rfl
@[simp] theorem mapNames_bool (θ : String → Ty) : bool.mapNames θ = bool := rfl
@[simp] theorem mapNames_var (θ : String → Ty) (i n : Nat) : (var i n).mapNames θ = var i n := rfl

theorem mapNamesAt_congr {θ η : String → Ty} {t : Ty} (h : ∀ x ∈ t.freeNames, θ x = η x)
    (c : Nat) : t.mapNamesAt θ c = t.mapNamesAt η c := by
  induction t generalizing c with
  | name x => simp only [mapNamesAt, h x (by simp [freeNames])]
  | arr a b iha ihb =>
    simp only [freeNames, List.mem_append] at h
    simp only [mapNamesAt, iha (fun x hx => h x (.inl hx)), ihb (fun x hx => h x (.inr hx))]
  | all x a ih => simp only [mapNamesAt, ih h]
  | _ => rfl

theorem mapNames_congr {θ η : String → Ty} {t : Ty} (h : ∀ x ∈ t.freeNames, θ x = η x) :
    t.mapNames θ = t.mapNames η := mapNamesAt_congr h 0

theorem mapNamesAt_id (c : Nat) (t : Ty) : t.mapNamesAt name c = t := by
  induction t generalizing c with
  | arr a b iha ihb => simp only [mapNamesAt, iha, ihb]
  | all x a ih => simp only [mapNamesAt, ih]
  | _ => rfl

@[simp] theorem mapNames_id (t : Ty) : t.mapNames name = t := mapNamesAt_id 0 t

/-- A map that fixes the names of a type fixes the type. -/
theorem mapNames_eq_self {θ : String → Ty} {t : Ty} (h : ∀ x ∈ t.freeNames, θ x = name x) :
    t.mapNames θ = t := by
  rw [mapNames_congr h, mapNames_id]

theorem eq_of_mapNames_eq_self {θ : String → Ty} {t : Ty} (h : t.mapNames θ = t) {x : String}
    (hx : x ∈ t.freeNames) : θ x = name x := by
  suffices ∀ c, t.mapNamesAt θ c = t → (θ x).shift c = name x by simpa using this 0 h
  intro c
  clear h
  induction t generalizing c with
  | name y =>
    obtain rfl : x = y := by simpa [freeNames] using hx
    exact id
  | arr a b iha ihb =>
    intro h
    simp only [mapNamesAt, arr.injEq] at h
    rcases List.mem_append.mp hx with hx | hx
    · exact iha hx c h.1
    · exact ihb hx c h.2
  | all y a ih =>
    intro h
    simp only [mapNamesAt, all.injEq, true_and] at h
    have hs := ih hx (c + 1) h
    cases hθ : θ x <;> simp_all [shift, shiftAbove]
  | _ => simp [freeNames] at hx

theorem mapNamesAt_shiftAbove (θ : String → Ty) (c d : Nat) (t : Ty) :
    (t.shiftAbove d c).mapNamesAt θ (c + d) = (t.mapNamesAt θ c).shiftAbove d c := by
  induction t generalizing c with
  | name x =>
    simp only [shiftAbove, mapNamesAt]
    exact (shift_shiftAbove c d c (Nat.le_refl c) (θ x)).symm
  | arr a b iha ihb => simp only [shiftAbove, mapNamesAt, iha, ihb]
  | all x a ih =>
    have h := ih (c + 1)
    rw [Nat.add_right_comm] at h
    simp only [shiftAbove, mapNamesAt, h]
  | _ => rfl

theorem mapNamesAt_shift (θ : String → Ty) (d : Nat) (t : Ty) :
    (t.shift d).mapNamesAt θ d = (t.mapNames θ).shift d := by
  have h := mapNamesAt_shiftAbove θ 0 d t
  rwa [Nat.zero_add] at h

theorem mapNamesAt_mapNamesAt (θ η : String → Ty) (c : Nat) (t : Ty) :
    (t.mapNamesAt θ c).mapNamesAt η c = t.mapNamesAt (fun x => (θ x).mapNames η) c := by
  induction t generalizing c with
  | name x => exact mapNamesAt_shift η c (θ x)
  | arr a b iha ihb => simp only [mapNamesAt, iha, ihb]
  | all x a ih => simp only [mapNamesAt, ih]
  | _ => rfl

theorem mapNames_mapNames (θ η : String → Ty) (t : Ty) :
    (t.mapNames θ).mapNames η = t.mapNames fun x => (θ x).mapNames η :=
  mapNamesAt_mapNamesAt θ η 0 t

theorem mem_freeNames_mapNamesAt {θ : String → Ty} {c : Nat} {t : Ty} {y : String} :
    y ∈ (t.mapNamesAt θ c).freeNames ↔ ∃ x ∈ t.freeNames, y ∈ (θ x).freeNames := by
  induction t generalizing c with
  | name x => simp [mapNamesAt, freeNames]
  | arr a b iha ihb =>
    simp only [mapNamesAt, freeNames, List.mem_append, iha, ihb, or_and_right, exists_or]
  | all x a ih => simpa [mapNamesAt, freeNames] using ih
  | _ => simp [mapNamesAt, freeNames]

theorem mem_freeNames_mapNames {θ : String → Ty} {t : Ty} {y : String} :
    y ∈ (t.mapNames θ).freeNames ↔ ∃ x ∈ t.freeNames, y ∈ (θ x).freeNames :=
  mem_freeNames_mapNamesAt

theorem WellScoped.mapNamesAt {θ : String → Ty} {n c : Nat} {t : Ty}
    (hθ : ∀ x ∈ t.freeNames, (θ x).WellScoped n) (h : t.WellScoped (n + c)) :
    (t.mapNamesAt θ c).WellScoped (n + c) := by
  induction t generalizing c with
  | name x => exact (hθ x (by simp [freeNames])).shiftAbove c 0
  | arr a b iha ihb =>
    simp only [freeNames, List.mem_append] at hθ
    exact ⟨iha (fun x hx => hθ x (.inl hx)) h.1, ihb (fun x hx => hθ x (.inr hx)) h.2⟩
  | all x a ih => exact ih (c := c + 1) hθ h
  | _ => exact h

theorem erase_mapNamesAt (θ : String → Ty) (c : Nat) (t : Ty) :
    (t.mapNamesAt θ c).erase = t.erase.mapNamesAt (fun x => (θ x).erase) c := by
  induction t generalizing c with
  | name x => exact erase_shiftAbove c 0 (θ x)
  | arr a b iha ihb => simp only [mapNamesAt, erase, iha, ihb]
  | all x a ih => simp only [mapNamesAt, erase, ih]
  | _ => rfl

/-- Maps that agree up to the names of binders do so on all types. -/
theorem erase_mapNames_congr {θ η : String → Ty} {t : Ty}
    (h : ∀ x ∈ t.freeNames, (θ x).erase = (η x).erase) :
    (t.mapNames θ).erase = (t.mapNames η).erase := by
  simp only [mapNames, erase_mapNamesAt]
  exact mapNamesAt_congr (by simpa using h) 0

theorem isMono_mapNames {θ : String → Ty} (hθ : ∀ x, (θ x).isMono) {t : Ty} (h : t.isMono) :
    (t.mapNames θ).isMono := by
  induction t with
  | name x => simpa using hθ x
  | arr a b iha ihb =>
    simp only [isMono, Bool.and_eq_true] at h
    simp [isMono, iha h.1, ihb h.2]
  | all x a ih => simp [isMono] at h
  | _ => rfl

theorem hasVar_mapNamesAt_of_hasVar (θ : String → Ty) {i c : Nat} {t : Ty}
    (h : t.hasVar i = true) : (t.mapNamesAt θ c).hasVar i = true := by
  induction t generalizing i c with
  | arr a b iha ihb =>
    simp only [mapNamesAt, hasVar, Bool.or_eq_true] at h ⊢
    exact h.imp iha ihb
  | all x a ih => exact ih (i := i + 1) h
  | name x => simp [hasVar] at h
  | _ => exact h

theorem mapNamesAt_fillAt (θ : String → Ty) (s : Ty) (c : Nat) (t : Ty) :
    (t.fillAt s c).mapNamesAt θ c = (t.mapNamesAt θ (c + 1)).fillAt (s.mapNames θ) c := by
  induction t generalizing c with
  | name x => exact (fillAt_shift_succ _ c (θ x)).symm
  | var i n =>
    simp only [fillAt, mapNamesAt]
    split
    · exact mapNamesAt_shift θ c s
    · rfl
  | arr a b iha ihb => simp only [fillAt, mapNamesAt, iha, ihb]
  | all x a ih => simp only [fillAt, mapNamesAt, ih]
  | bool => rfl

/-- Binding a name and filling its variable replaces the name. -/
theorem fillAt_mapNamesAt_bindNameAt (θ : String → Ty) (x : String) (len : Nat) (s : Ty) (c : Nat)
    (t : Ty) :
    (((t.shiftAbove 1 c).bindNameAt x len c).mapNamesAt θ (c + 1)).fillAt s c =
      t.mapNamesAt (Function.update θ x s) c := by
  induction t generalizing c with
  | name y =>
    by_cases h : y = x
    · subst h
      simp [shiftAbove, bindNameAt, mapNamesAt, fillAt]
    · simp only [shiftAbove, bindNameAt, h, ↓reduceIte, mapNamesAt, Function.update_of_ne h]
      exact fillAt_shift_succ s c (θ y)
  | var i n => exact fillAt_shiftAbove_one s c (var i n)
  | arr a b iha ihb => simp only [shiftAbove, bindNameAt, mapNamesAt, fillAt, iha, ihb]
  | all y a ih => simp only [shiftAbove, bindNameAt, mapNamesAt, fillAt, ih]
  | bool => rfl

theorem mem_freeNames_bindNameAt {x y : String} {len c : Nat} {t : Ty} :
    y ∈ (t.bindNameAt x len c).freeNames ↔ y ∈ t.freeNames ∧ y ≠ x := by
  induction t generalizing c with
  | name z =>
    by_cases h : z = x
    · simp only [bindNameAt, h, ↓reduceIte, freeNames, List.not_mem_nil, List.mem_singleton, false_iff]
      rintro ⟨rfl, hne⟩
      exact hne rfl
    · simp only [bindNameAt, h, ↓reduceIte, freeNames, List.mem_singleton]
      exact ⟨fun hy => ⟨hy, hy ▸ h⟩, fun hy => hy.1⟩
  | arr a b iha ihb => simp only [bindNameAt, freeNames, List.mem_append, iha, ihb, or_and_right]
  | all z a ih => simpa [bindNameAt, freeNames] using ih
  | _ => simp [bindNameAt, freeNames]

end Ty

/-- All images are simple, so they are the same in every context. -/
def IsSimpleMap (θ : String → Ty) : Prop := ∀ x, (θ x).isSimple

theorem isSimpleMap_name : IsSimpleMap Ty.name := fun _ => rfl

theorem IsSimpleMap.update {θ : String → Ty} (hθ : IsSimpleMap θ) (x : String) {s : Ty}
    (hs : s.isSimple) : IsSimpleMap (Function.update θ x s) := by
  intro y
  by_cases h : y = x
  · subst h; simpa using hs
  · simpa [h] using hθ y

namespace Ty

theorem isSimple_mapNames {θ : String → Ty} (hθ : IsSimpleMap θ) {t : Ty} (h : t.isSimple) :
    (t.mapNames θ).isSimple := by
  induction t with
  | name x => simpa using hθ x
  | arr a b iha ihb =>
    rw [isSimple_arr] at h
    simp [iha h.1, ihb h.2]
  | _ => simp_all

theorem isSimple_of_isSimple_mapNames {θ : String → Ty} {t : Ty} (h : (t.mapNames θ).isSimple) :
    t.isSimple := by
  induction t with
  | arr a b iha ihb =>
    simp only [mapNames_arr, isSimple_arr] at h ⊢
    exact ⟨iha h.1, ihb h.2⟩
  | all x a ih => simp [mapNames, mapNamesAt] at h
  | _ => simp_all

theorem mapNamesAt_eq_mapNames {θ : String → Ty} (hθ : IsSimpleMap θ) (c : Nat) (t : Ty) :
    t.mapNamesAt θ c = t.mapNames θ := by
  suffices ∀ c d, t.mapNamesAt θ c = t.mapNamesAt θ d from this c 0
  induction t with
  | name x => intro c d; simp only [mapNamesAt, shift_of_isSimple _ (hθ x)]
  | arr a b iha ihb => intro c d; simp only [mapNamesAt, iha c d, ihb c d]
  | all x a ih => intro c d; simp only [mapNamesAt, ih (c + 1) (d + 1)]
  | _ => intro c d; rfl

theorem mapNames_shift {θ : String → Ty} (hθ : IsSimpleMap θ) (d : Nat) (t : Ty) :
    (t.shift d).mapNames θ = (t.mapNames θ).shift d := by
  rw [← mapNamesAt_shift, mapNamesAt_eq_mapNames hθ]

@[simp] theorem mapNames_all {θ : String → Ty} (hθ : IsSimpleMap θ) (x : String) (a : Ty) :
    (all x a).mapNames θ = all x (a.mapNames θ) := by
  simp only [mapNames, mapNamesAt, all.injEq, true_and]
  exact mapNamesAt_eq_mapNames hθ 1 a

theorem mapNames_fillAt {θ : String → Ty} (hθ : IsSimpleMap θ) (t s : Ty) :
    (t.fillAt s 0).mapNames θ = (t.mapNames θ).fillAt (s.mapNames θ) 0 := by
  have h := mapNamesAt_fillAt θ s 0 t
  rwa [mapNamesAt_eq_mapNames hθ (0 + 1)] at h

end Ty

namespace Subst

/-- What a substitution makes of a name. -/
def image (s : Subst) (x : String) : Ty := s.apply (.name x)

theorem substNameAt_eq_mapNamesAt (t : Ty) (x : String) (s : Ty) (c : Nat) :
    t.substNameAt x s c = t.mapNamesAt (Function.update Ty.name x s) c := by
  induction t generalizing c with
  | name y =>
    by_cases h : y = x
    · subst h; simp [Ty.substNameAt, Ty.mapNamesAt]
    · simp [Ty.substNameAt, Ty.mapNamesAt, h]
  | arr a b iha ihb => simp only [Ty.substNameAt, Ty.mapNamesAt, iha, ihb]
  | all y a ih => simp only [Ty.substNameAt, Ty.mapNamesAt, ih]
  | _ => rfl

theorem substName_eq_mapNames (t : Ty) (x : String) (s : Ty) :
    t.substName x s = t.mapNames (Function.update Ty.name x s) :=
  substNameAt_eq_mapNamesAt t x s 0

theorem apply_eq_mapNames (s : Subst) (t : Ty) : s.apply t = t.mapNames s.image := by
  induction s generalizing t with
  | nil => exact (Ty.mapNames_id t).symm
  | cons b s ih =>
    have himage : image (b :: s) = fun x => (image s x).mapNames (Function.update Ty.name b.1 b.2) := by
      funext x
      simp only [image, apply_cons, substName_eq_mapNames]
    rw [apply_cons, ih, substName_eq_mapNames, Ty.mapNames_mapNames, himage]

@[simp] theorem image_nil : image [] = Ty.name := rfl

theorem image_append (s r : Subst) : (s ++ r).image = fun x => (r.image x).mapNames s.image := by
  funext x
  rw [image, apply_append, apply_eq_mapNames]
  rfl

theorem image_append_apply (s r : Subst) (x : String) : (s ++ r).image x = s.apply (r.image x) :=
  apply_append s r (.name x)

@[simp] theorem apply_bool (s : Subst) : s.apply .bool = .bool := by
  rw [apply_eq_mapNames]; rfl

@[simp] theorem apply_arr (s : Subst) (a b : Ty) :
    s.apply (.arr a b) = .arr (s.apply a) (s.apply b) := by
  simp [apply_eq_mapNames]

/-- All types of the bindings are simple. -/
def IsSimple (s : Subst) : Prop := ∀ b ∈ s, b.2.isSimple

theorem IsSimple.image {s : Subst} (h : s.IsSimple) : IsSimpleMap s.image := by
  induction s with
  | nil => exact isSimpleMap_name
  | cons b s ih =>
    intro x
    rw [Subst.image, apply_cons, substName_eq_mapNames]
    exact Ty.isSimple_mapNames (isSimpleMap_name.update b.1 (h b (by simp)))
      (ih (fun c hc => h c (by simp [hc])) x)

theorem IsSimple.apply {s : Subst} (h : s.IsSimple) {t : Ty} (ht : t.isSimple) :
    (s.apply t).isSimple := by
  rw [apply_eq_mapNames]
  exact Ty.isSimple_mapNames h.image ht

theorem IsSimple.append {s r : Subst} (hs : s.IsSimple) (hr : r.IsSimple) : (s ++ r).IsSimple := by
  intro b hb
  exact (List.mem_append.mp hb).elim (hs b) (hr b)

theorem IsSimple.shift_eq {s : Subst} (h : s.IsSimple) (d : Int) : s.shift d = s := by
  have hb : ∀ b ∈ s, (b.1, b.2.shift d) = b := fun b hb => by
    rw [Ty.shift_of_isSimple d (h b hb)]
  exact (List.map_congr_left hb).trans (List.map_id' s)

@[simp] theorem mem_freeNames_cons {b : String × Ty} {s : Subst} {y : String} :
    y ∈ freeNames (b :: s) ↔ y ∈ b.2.freeNames ∨ y = b.1 ∨ y ∈ s.freeNames := by
  simp [freeNames]

theorem mem_freeNames_append {s r : Subst} {y : String} :
    y ∈ freeNames (s ++ r) ↔ y ∈ s.freeNames ∨ y ∈ r.freeNames := by
  simp [freeNames]

theorem mem_freeNames_image {s : Subst} {x y : String} (h : y ∈ (s.image x).freeNames) :
    y = x ∨ y ∈ s.freeNames := by
  induction s generalizing y with
  | nil => exact .inl (by simpa [Ty.freeNames] using h)
  | cons b s ih =>
    rw [image, apply_cons, substName_eq_mapNames, Ty.mem_freeNames_mapNames] at h
    obtain ⟨z, hz, hy⟩ := h
    by_cases hzb : z = b.1
    · subst hzb
      rw [Function.update_self] at hy
      exact .inr (mem_freeNames_cons.mpr (.inl hy))
    · rw [Function.update_of_ne hzb] at hy
      obtain rfl : y = z := by simpa [Ty.freeNames] using hy
      exact (ih hz).imp_right fun h => mem_freeNames_cons.mpr (.inr (.inr h))

theorem mem_freeNames_apply {s : Subst} {t : Ty} {y : String} (h : y ∈ (s.apply t).freeNames) :
    y ∈ t.freeNames ∨ y ∈ s.freeNames := by
  rw [apply_eq_mapNames, Ty.mem_freeNames_mapNames] at h
  obtain ⟨x, hx, hy⟩ := h
  exact (mem_freeNames_image hy).imp_left fun h => by rwa [h]

/-- A map makes all bindings of a substitution hold. -/
def Models (θ : String → Ty) (s : Subst) : Prop := ∀ b ∈ s, θ b.1 = b.2.mapNames θ

theorem models_append {θ : String → Ty} {s r : Subst} :
    Models θ (s ++ r) ↔ Models θ s ∧ Models θ r := by
  simp [Models, or_imp, forall_and]

/-- Where the bindings hold already, the substitution changes nothing. -/
theorem Models.congr {η θ : String → Ty} {s : Subst} (h : s.Models θ)
    (heq : ∀ x ∈ s.freeNames, η x = θ x) : s.Models η := fun b hb => by
  have hmem : ∀ x, x ∈ b.2.freeNames ∨ x = b.1 → x ∈ s.freeNames := fun x hx => by
    rw [freeNames, List.mem_flatMap]
    exact ⟨b, hb, by simpa using hx⟩
  rw [heq b.1 (hmem b.1 (.inr rfl)), h b hb]
  exact (Ty.mapNames_congr fun x hx => heq x (hmem x (.inl hx))).symm

theorem Models.image_mapNames {θ : String → Ty} {s : Subst} (h : Models θ s) (x : String) :
    (s.image x).mapNames θ = θ x := by
  induction s with
  | nil => simp
  | cons b s ih =>
    have hs : Models θ s := fun c hc => h c (by simp [hc])
    rw [image, apply_cons, substName_eq_mapNames, Ty.mapNames_mapNames, ← ih hs]
    refine Ty.mapNames_congr fun y _ => ?_
    by_cases hy : y = b.1
    · subst hy
      rw [Function.update_self, h b (by simp)]
    · rw [Function.update_of_ne hy, Ty.mapNames_name]

theorem Models.apply_mapNames {θ : String → Ty} {s : Subst} (h : Models θ s) (t : Ty) :
    (s.apply t).mapNames θ = t.mapNames θ := by
  rw [apply_eq_mapNames, Ty.mapNames_mapNames]
  exact Ty.mapNames_congr fun x _ => h.image_mapNames x

end Subst

/-- Replace all names of the type of a binding by simple types. -/
def Binding.mapNames (θ : String → Ty) : Binding → Binding
  | .var ty => .var (ty.mapNames θ)
  | .name => .name
  | .tyVar => .tyVar

namespace Context

/-- Replace all names by simple types, which are the same at all bindings. -/
def mapNames (θ : String → Ty) (Γ : Context) : Context :=
  Γ.map fun e => ⟨e.name, e.binding.mapNames θ⟩

@[simp] theorem mapNames_cons_var (θ : String → Ty) (x : String) (ty : Ty) (Γ : Context) :
    mapNames θ (⟨x, .var ty⟩ :: Γ) = ⟨x, .var (ty.mapNames θ)⟩ :: mapNames θ Γ := rfl

@[simp] theorem length_mapNames (θ : String → Ty) (Γ : Context) :
    (mapNames θ Γ).length = Γ.length := by simp [mapNames]

theorem mapNames_congr {θ η : String → Ty} {Γ : Context} (h : ∀ x ∈ Γ.freeNames, θ x = η x) :
    mapNames θ Γ = mapNames η Γ := by
  refine List.map_congr_left fun e he => ?_
  have hb : ∀ x ∈ e.binding.freeNames, θ x = η x := fun x hx =>
    h x (List.mem_flatMap.mpr ⟨e, he, hx⟩)
  obtain ⟨x, b⟩ := e
  cases b with
  | var ty => simp only [Binding.mapNames, Ty.mapNames_congr hb]
  | _ => rfl

theorem mapNames_mapNames (θ η : String → Ty) (Γ : Context) :
    mapNames η (mapNames θ Γ) = mapNames (fun x => (θ x).mapNames η) Γ := by
  simp only [mapNames, List.map_map]
  refine List.map_congr_left fun e _ => ?_
  obtain ⟨x, b⟩ := e
  cases b with
  | var ty => simp only [Function.comp, Binding.mapNames, Ty.mapNames_mapNames]
  | _ => rfl

@[simp] theorem mapNames_id (Γ : Context) : mapNames Ty.name Γ = Γ := by
  refine (List.map_congr_left fun e _ => ?_).trans (List.map_id' Γ)
  obtain ⟨x, b⟩ := e
  cases b with
  | var ty => simp only [Binding.mapNames, Ty.mapNames_id]
  | _ => rfl

theorem mapNames_image_append (s r : Subst) (Γ : Context) :
    mapNames (s ++ r).image Γ = mapNames s.image (mapNames r.image Γ) := by
  rw [Subst.image_append, mapNames_mapNames]

theorem mem_freeNames_mapNames {θ : String → Ty} {Γ : Context} {y : String} :
    y ∈ (mapNames θ Γ).freeNames ↔ ∃ x ∈ Γ.freeNames, y ∈ (θ x).freeNames := by
  have hb : ∀ b : Binding, y ∈ (b.mapNames θ).freeNames ↔ ∃ x ∈ b.freeNames, y ∈ (θ x).freeNames := by
    intro b
    cases b with
    | var ty => exact Ty.mem_freeNames_mapNames
    | _ => simp [Binding.mapNames, Binding.freeNames]
  simp only [freeNames, mapNames, List.mem_flatMap, List.mem_map, exists_exists_and_eq_and, hb]
  constructor
  · rintro ⟨e, he, x, hx, hy⟩
    exact ⟨x, ⟨e, he, hx⟩, hy⟩
  · rintro ⟨x, ⟨e, he, hx⟩, hy⟩
    exact ⟨e, he, x, hx, hy⟩

theorem getType?_mapNames {θ : String → Ty} (hθ : IsSimpleMap θ) (Γ : Context) (i : Nat) :
    (mapNames θ Γ).getType? i = (Γ.getType? i).map (Ty.mapNames θ) := by
  simp only [getType?, mapNames, List.getElem?_map]
  cases Γ[i]? with
  | none => rfl
  | some e =>
    obtain ⟨x, b⟩ := e
    cases b with
    | var ty =>
      have h := Ty.mapNames_shift hθ (i + 1) ty
      simp only [Nat.cast_add, Nat.cast_one] at h
      simp [Binding.mapNames, h]
    | _ => rfl

theorem applyBelow_eq_ok (Γ : Context) {s : Subst} (hs : s.IsSimple) (d : Nat) (Δ : Context) :
    applyBelow Γ s d Δ = .ok (mapNames s.image Δ) := by
  induction Δ generalizing d with
  | nil => rfl
  | cons e Δ ih =>
    have he : applyBinding Γ s (d + 1) e = .ok ⟨e.name, e.binding.mapNames s.image⟩ := by
      obtain ⟨x, b⟩ := e
      cases b with
      | var ty =>
        simp only [applyBinding, Subst.apply_eq_mapNames, Ty.mapNames_shift hs.image,
          Ty.unshift?_shift, Binding.mapNames]
      | _ => rfl
    simp only [applyBelow, ih, he]
    rfl

/-- Simple types never get out of scope. -/
theorem apply_eq_ok (Γ : Context) {s : Subst} (hs : s.IsSimple) :
    Γ.apply s = .ok (mapNames s.image Γ) := applyBelow_eq_ok Γ hs 0 Γ

end Context

namespace Term

/-- Replace all names in the types of a term, below `c` binders. -/
def mapNamesAt (θ : String → Ty) (c : Nat) : Term → Term
  | var p i n => var p i n
  | abs p x ty t => abs p x (ty.map (Ty.mapNamesAt θ c)) (t.mapNamesAt θ (c + 1))
  | app p t u => app p (t.mapNamesAt θ c) (u.mapNamesAt θ c)
  | ite p i t e => ite p (i.mapNamesAt θ c) (t.mapNamesAt θ c) (e.mapNamesAt θ c)
  | tyAbs p x t => tyAbs p x (t.mapNamesAt θ (c + 1))
  | tyApp p t ty => tyApp p (t.mapNamesAt θ c) (ty.mapNamesAt θ c)
  | letIn p x e t => letIn p x (e.mapNamesAt θ c) (t.mapNamesAt θ (c + 1))
  | const p b => const p b

/-- Replace all names in the types of a term. -/
def mapNames (θ : String → Ty) (t : Term) : Term := t.mapNamesAt θ 0

theorem mapNamesAt_congr {θ η : String → Ty} {t : Term} (h : ∀ x ∈ t.typeNames, θ x = η x)
    (c : Nat) : t.mapNamesAt θ c = t.mapNamesAt η c := by
  induction t generalizing c with
  | abs p x ty t ih =>
    simp only [typeNames, List.mem_append] at h
    have hty : ty.map (Ty.mapNamesAt θ c) = ty.map (Ty.mapNamesAt η c) := by
      cases ty with
      | none => rfl
      | some a => simp [Ty.mapNamesAt_congr (fun x hx => h x (.inl hx)) c]
    simp only [mapNamesAt, hty, ih (fun x hx => h x (.inr hx))]
  | app p t u iht ihu =>
    simp only [typeNames, List.mem_append] at h
    simp only [mapNamesAt, iht (fun x hx => h x (.inl hx)), ihu (fun x hx => h x (.inr hx))]
  | ite p i t e ihi iht ihe =>
    simp only [typeNames, List.mem_append] at h
    simp only [mapNamesAt, ihi (fun x hx => h x (.inl (.inl hx))),
      iht (fun x hx => h x (.inl (.inr hx))), ihe (fun x hx => h x (.inr hx))]
  | tyAbs p x t ih => simp only [mapNamesAt, ih h]
  | tyApp p t ty ih =>
    simp only [typeNames, List.mem_append] at h
    simp only [mapNamesAt, ih (fun x hx => h x (.inl hx)),
      Ty.mapNamesAt_congr (fun x hx => h x (.inr hx)) c]
  | letIn p x e t ihe iht =>
    simp only [typeNames, List.mem_append] at h
    simp only [mapNamesAt, ihe (fun x hx => h x (.inl hx)), iht (fun x hx => h x (.inr hx))]
  | _ => rfl

theorem mapNames_congr {θ η : String → Ty} {t : Term} (h : ∀ x ∈ t.typeNames, θ x = η x) :
    t.mapNames θ = t.mapNames η := mapNamesAt_congr h 0

theorem mapNamesAt_id (c : Nat) (t : Term) : t.mapNamesAt Ty.name c = t := by
  have hid : Ty.mapNamesAt Ty.name = fun _ => id := by
    funext c ty
    exact Ty.mapNamesAt_id c ty
  induction t generalizing c with
  | abs p x ty t ih => simp [mapNamesAt, ih, hid]
  | app p t u iht ihu => simp [mapNamesAt, iht, ihu]
  | ite p i t e ihi iht ihe => simp [mapNamesAt, ihi, iht, ihe]
  | tyAbs p x t ih => simp [mapNamesAt, ih]
  | tyApp p t ty ih => simp [mapNamesAt, ih, hid]
  | letIn p x e t ihe iht => simp [mapNamesAt, ihe, iht]
  | _ => rfl

@[simp] theorem mapNames_id (t : Term) : t.mapNames Ty.name = t := mapNamesAt_id 0 t

/-- Without names in its types a term stays what it is. -/
theorem mapNames_of_typeNames_eq_nil (θ : String → Ty) {t : Term} (h : t.typeNames = []) :
    t.mapNames θ = t := by
  rw [mapNames_congr (η := Ty.name) (by simp [h]), mapNames_id]

theorem mapNamesAt_eq_mapNames {θ : String → Ty} (hθ : IsSimpleMap θ) (c : Nat) (t : Term) :
    t.mapNamesAt θ c = t.mapNames θ := by
  have hty : Ty.mapNamesAt θ = fun _ => Ty.mapNames θ := by
    funext c ty
    exact Ty.mapNamesAt_eq_mapNames hθ c ty
  suffices ∀ c d, t.mapNamesAt θ c = t.mapNamesAt θ d from this c 0
  induction t with
  | abs p x ty t ih => exact fun c d => by simp only [mapNamesAt, hty, ih (c + 1) (d + 1)]
  | app p t u iht ihu => exact fun c d => by simp only [mapNamesAt, iht c d, ihu c d]
  | ite p i t e ihi iht ihe => exact fun c d => by simp only [mapNamesAt, ihi c d, iht c d, ihe c d]
  | tyAbs p x t ih => exact fun c d => by simp only [mapNamesAt, ih (c + 1) (d + 1)]
  | tyApp p t ty ih => exact fun c d => by simp only [mapNamesAt, ih c d, hty]
  | letIn p x e t ihe iht =>
    exact fun c d => by simp only [mapNamesAt, ihe c d, iht (c + 1) (d + 1)]
  | _ => exact fun _ _ => rfl

theorem mapNames_abs {θ : String → Ty} (hθ : IsSimpleMap θ) (p : Text.Position) (x : String)
    (ty : Option Ty) (t : Term) :
    (abs p x ty t).mapNames θ = abs p x (ty.map (Ty.mapNames θ)) (t.mapNames θ) := by
  rw [← mapNamesAt_eq_mapNames hθ 1 t]
  rfl

theorem mapNames_letIn {θ : String → Ty} (hθ : IsSimpleMap θ) (p : Text.Position) (x : String)
    (e t : Term) : (letIn p x e t).mapNames θ = letIn p x (e.mapNames θ) (t.mapNames θ) := by
  rw [← mapNamesAt_eq_mapNames hθ 1 t]
  rfl

end Term

end LambdaTyping
