import Mathlib
import LambdaTyping.Generalization
import LambdaTyping.Proofs.FreshNames

/-!
# Instances of type schemes

A scheme is instantiated by filling its outermost quantified variables with
simple types. Both ways in which the library gets from schemes to types and back
are described by maps of names. Opening a scheme with new names gives a type
whose images under all maps of those names are the instances of the scheme.
Generalizing a simple type over some names gives a scheme whose instances are
the images of the type under all maps of those names.
-/
namespace LambdaTyping

namespace Ty

/-- The simple types that come from filling all outermost quantified variables. -/
inductive Instance : Ty → Ty → Prop
  | simple {τ : Ty} : τ.isSimple → Instance τ τ
  | all {x : String} {a s τ : Ty} : s.isSimple → Instance (a.substTop s) τ → Instance (.all x a) τ

theorem Instance.isSimple {σ τ : Ty} (h : σ.Instance τ) : τ.isSimple := by
  induction h with
  | simple h => exact h
  | all _ _ ih => exact ih

theorem instance_iff_of_isSimple {σ τ : Ty} (hσ : σ.isSimple) : σ.Instance τ ↔ τ = σ := by
  constructor
  · intro h
    cases h with
    | simple => rfl
    | all => simp at hσ
  · rintro rfl
    exact .simple hσ

theorem instance_all_iff {x : String} {a τ : Ty} :
    (all x a).Instance τ ↔ ∃ s, s.isSimple ∧ (a.fillAt s 0).Instance τ := by
  simp only [← substTop_eq_fillAt]
  constructor
  · intro h
    cases h with
    | simple h => simp at h
    | all hs h => exact ⟨_, hs, h⟩
  · rintro ⟨s, hs, h⟩
    exact .all hs h

theorem Instance.mapNames {θ : String → Ty} (hθ : IsSimpleMap θ) {σ τ : Ty} (h : σ.Instance τ) :
    (σ.mapNames θ).Instance (τ.mapNames θ) := by
  induction h with
  | simple h => exact .simple (isSimple_mapNames hθ h)
  | @all x a s τ hs _ ih =>
    rw [substTop_eq_fillAt, mapNames_fillAt hθ] at ih
    rw [mapNames_all hθ]
    exact instance_all_iff.mpr ⟨_, isSimple_mapNames hθ hs, ih⟩

theorem Instance.mem_freeNames {σ τ : Ty} (h : σ.Instance τ) {x : String} (hx : x ∈ σ.freeNames) :
    x ∈ τ.freeNames := by
  induction h with
  | simple => exact hx
  | @all y a s τ _ _ ih =>
    rw [substTop_eq_fillAt] at ih
    exact ih (mem_freeNames_fillAt s 0 a hx)

theorem mapNames_openWith {θ : String → Ty} (hθ : IsSimpleMap θ) (x : String) (a : Ty) :
    (a.openWith x).mapNames θ = (a.mapNames θ).fillAt (θ x) 0 := by
  rw [openWith_eq_fillAt, mapNames_fillAt hθ, mapNames_name]

/-- A name that is not in the type stands for whatever it is mapped to. -/
theorem mapNames_update_openWith {θ : String → Ty} (hθ : IsSimpleMap θ) {x : String} {a s : Ty}
    (hx : x ∉ a.freeNames) (hs : s.isSimple) :
    (a.openWith x).mapNames (Function.update θ x s) = (a.mapNames θ).fillAt s 0 := by
  rw [mapNames_openWith (hθ.update x hs), Function.update_self]
  congr 1
  refine mapNames_congr fun y hy => Function.update_of_ne ?_ _ _
  rintro rfl
  exact hx hy

/-- A type below `c` quantifiers without the names of binders, the recorded lengths and the indices
of variables that are not quantified: no instance depends on them. -/
def shapeAt (c : Nat) : Ty → Ty
  | name x => name x
  | var i _ => var (if i < c then i else c) 0
  | arr a b => arr (a.shapeAt c) (b.shapeAt c)
  | all _ a => all "" (a.shapeAt (c + 1))
  | bool => bool

theorem shapeAt_shiftAbove (d c : Nat) (t : Ty) : (t.shiftAbove d c).shapeAt c = t.shapeAt c := by
  induction t generalizing c with
  | var i n =>
    simp only [shiftAbove, shapeAt, offsetAbove, offset_natCast]
    by_cases h : c ≤ i
    · simp [h, show ¬ i < c by omega, show ¬ i + d < c by omega]
    · simp [h]
  | arr a b iha ihb => simp only [shiftAbove, shapeAt, iha, ihb]
  | all x a ih => simp only [shiftAbove, shapeAt, ih]
  | _ => rfl

theorem shapeAt_erase (c : Nat) (t : Ty) : t.erase.shapeAt c = t.shapeAt c := by
  induction t generalizing c with
  | arr a b iha ihb => simp only [erase, shapeAt, iha, ihb]
  | all x a ih => simp only [erase, shapeAt, ih]
  | _ => rfl

theorem shapeAt_of_isSimple (c : Nat) {t : Ty} (h : t.isSimple) : t.shapeAt c = t := by
  induction t with
  | arr a b iha ihb =>
    rw [isSimple_arr] at h
    simp only [shapeAt, iha h.1, ihb h.2]
  | var i n => simp at h
  | all x a ih => simp at h
  | _ => rfl

theorem eq_of_shapeAt_eq {c : Nat} {t u : Ty} (ht : t.isSimple) (h : u.shapeAt c = t) : u = t := by
  subst h
  induction u with
  | arr a b iha ihb =>
    simp only [shapeAt, isSimple_arr] at ht ⊢
    rw [← iha ht.1, ← ihb ht.2]
  | var i n => simp [shapeAt] at ht
  | all x a ih => simp [shapeAt] at ht
  | _ => rfl

theorem shapeAt_fillAt {s : Ty} (hs : s.isSimple) {c : Nat} {t u : Ty}
    (h : t.shapeAt (c + 1) = u.shapeAt (c + 1)) :
    (t.fillAt s c).shapeAt c = (u.fillAt s c).shapeAt c := by
  induction t generalizing u c with
  | var i n =>
    cases u with
    | var j m =>
      simp only [shapeAt, var.injEq, and_true] at h
      simp only [fillAt, shift_of_isSimple _ hs]
      by_cases hi : i = c
      · obtain rfl : j = c := by
          subst hi
          simp only [Nat.lt_succ_self, ↓reduceIte] at h
          split at h <;> omega
        simp [hi]
      · have hj : j ≠ c := by
          rintro rfl
          simp only [Nat.lt_succ_self, ↓reduceIte] at h
          split at h <;> omega
        simp only [hi, hj, ↓reduceIte, shapeAt, var.injEq, and_true]
        split at h <;> split at h <;> split <;> split <;> split <;> split <;> omega
    | _ => simp [shapeAt] at h
  | arr a b iha ihb =>
    cases u with
    | arr a' b' =>
      simp only [shapeAt, arr.injEq] at h
      simp only [fillAt, shapeAt, iha h.1, ihb h.2]
    | _ => simp [shapeAt] at h
  | all x a ih =>
    cases u with
    | all y b =>
      simp only [shapeAt, all.injEq, true_and] at h
      simp only [fillAt, shapeAt, ih h]
    | _ => simp [shapeAt] at h
  | name x => cases u <;> simp_all [shapeAt, fillAt]
  | bool => cases u <;> simp_all [shapeAt, fillAt]

theorem Instance.of_shapeAt_eq {σ σ' τ : Ty} (h : σ.Instance τ)
    (hσ : σ.shapeAt 0 = σ'.shapeAt 0) : σ'.Instance τ := by
  induction h generalizing σ' with
  | simple h =>
    rw [shapeAt_of_isSimple 0 h] at hσ
    rw [eq_of_shapeAt_eq h hσ.symm]
    exact .simple h
  | all hs _ ih =>
    cases σ' with
    | all y b =>
      simp only [shapeAt, all.injEq, true_and] at hσ
      refine .all hs (ih ?_)
      rw [substTop_eq_fillAt, substTop_eq_fillAt]
      exact shapeAt_fillAt hs hσ
    | _ => simp [shapeAt] at hσ

theorem instance_shift_iff {d : Nat} {σ τ : Ty} : (σ.shift d).Instance τ ↔ σ.Instance τ :=
  ⟨fun h => h.of_shapeAt_eq (shapeAt_shiftAbove d 0 σ),
    fun h => h.of_shapeAt_eq (shapeAt_shiftAbove d 0 σ).symm⟩

theorem Instance.of_erase_eq {σ σ' τ : Ty} (h : σ.Instance τ) (hσ : σ.erase = σ'.erase) :
    σ'.Instance τ :=
  h.of_shapeAt_eq (by rw [← shapeAt_erase, hσ, shapeAt_erase])

end Ty

namespace NameSupply

theorem openAll_all (x : String) (a : Ty) (σ : NameSupply) :
    σ.openAll (.all x a) =
      (((σ.like x).1 :: ((σ.like x).2.openAll (a.openWith (σ.like x).1)).1.1,
        ((σ.like x).2.openAll (a.openWith (σ.like x).1)).1.2),
        ((σ.like x).2.openAll (a.openWith (σ.like x).1)).2) := by
  rw [openAll]

theorem openAll_of_not_all {ty : Ty} (h : ∀ x a, ty ≠ .all x a) (σ : NameSupply) :
    σ.openAll ty = (([], ty), σ) := by
  cases ty with
  | all x a => exact absurd rfl (h x a)
  | _ => rw [openAll]; simp

theorem mem_used_of_mem_freeNames_openWith {a : Ty} {σ : NameSupply} {hint y : String}
    (ha : ∀ x ∈ a.freeNames, x ∈ σ.used) (hy : y ∈ (a.openWith (σ.like hint).1).freeNames) :
    y ∈ (σ.like hint).2.used := by
  rw [Ty.openWith_eq_fillAt] at hy
  rw [mem_used_like]
  rcases Ty.freeNames_fillAt_subset _ 0 a hy with hy | hy
  · exact .inl (by simpa [Ty.freeNames, eq_comm] using hy)
  · exact .inr (ha y hy)

/-- Opening follows the outermost quantifiers. -/
theorem openAll_induction {motive : Ty → NameSupply → Prop}
    (all : ∀ x a σ, motive (a.openWith (σ.like x).1) (σ.like x).2 → motive (.all x a) σ)
    (other : ∀ ty σ, (∀ x a, ty ≠ .all x a) → motive ty σ) (ty : Ty) (σ : NameSupply) :
    motive ty σ := by
  induction hn : ty.size using Nat.strong_induction_on generalizing ty σ with
  | _ n ih =>
    cases ty with
    | all x a => exact all x a σ (ih _ (by simp [← hn, Ty.size]) _ _ rfl)
    | _ => exact other _ σ (by simp)

theorem mem_used_openAll {ty : Ty} {σ : NameSupply} {x : String} :
    x ∈ (σ.openAll ty).2.used ↔ x ∈ (σ.openAll ty).1.1 ∨ x ∈ σ.used := by
  induction ty, σ using openAll_induction with
  | all y a σ ih =>
    rw [openAll_all]
    simp only [ih, mem_used_like, List.mem_cons]
    rw [@eq_comm _ x]
    tauto
  | other ty σ h => simp [openAll_of_not_all h]

theorem openAll_notMem {ty : Ty} {σ : NameSupply} {x : String} (hx : x ∈ (σ.openAll ty).1.1) :
    x ∉ σ.used := by
  induction ty, σ using openAll_induction with
  | all y a σ ih =>
    rw [openAll_all] at hx
    rcases List.mem_cons.mp hx with rfl | hx
    · exact like_notMem y σ
    · exact fun h => ih hx (mem_used_like.mpr (.inr h))
  | other ty σ h => simp [openAll_of_not_all h] at hx

theorem mem_freeNames_openAll {ty : Ty} {σ : NameSupply} {x : String}
    (hx : x ∈ (σ.openAll ty).1.2.freeNames) : x ∈ (σ.openAll ty).1.1 ∨ x ∈ ty.freeNames := by
  induction ty, σ using openAll_induction with
  | all y a σ ih =>
    rw [openAll_all] at hx ⊢
    rcases ih hx with h | h
    · exact .inl (List.mem_cons_of_mem _ h)
    · rw [Ty.openWith_eq_fillAt] at h
      rcases Ty.freeNames_fillAt_subset _ 0 a h with h | h
      · exact .inl (by simp only [Ty.freeNames, List.mem_singleton] at h; simp [h])
      · exact .inr h
  | other ty σ h =>
    rw [openAll_of_not_all h] at hx ⊢
    exact .inr hx

/-- The images of an opened scheme are instances. -/
theorem instance_openAll {η : String → Ty} (hη : IsSimpleMap η) {ty : Ty} {σ : NameSupply}
    (h : ((σ.openAll ty).1.2.mapNames η).isSimple) :
    (ty.mapNames η).Instance ((σ.openAll ty).1.2.mapNames η) := by
  induction ty, σ using openAll_induction with
  | all x a σ ih =>
    rw [openAll_all] at h ⊢
    have hi := ih h
    rw [Ty.mapNames_openWith hη] at hi
    rw [Ty.mapNames_all hη]
    exact Ty.instance_all_iff.mpr ⟨_, hη _, hi⟩
  | other ty σ hne =>
    rw [openAll_of_not_all hne] at h ⊢
    exact .simple h

/-- All instances are images of the opened scheme. -/
theorem exists_of_instance_openAll {θ : String → Ty} (hθ : IsSimpleMap θ) {ty τ : Ty}
    {σ : NameSupply} (hty : ∀ x ∈ ty.freeNames, x ∈ σ.used) (h : (ty.mapNames θ).Instance τ) :
    ∃ η, IsSimpleMap η ∧ (∀ x ∉ (σ.openAll ty).1.1, η x = θ x) ∧
      (σ.openAll ty).1.2.mapNames η = τ := by
  induction ty, σ using openAll_induction generalizing θ with
  | all x a σ ih =>
    rw [Ty.mapNames_all hθ, Ty.instance_all_iff] at h
    obtain ⟨s, hs, h⟩ := h
    -- the new name is not in the scheme, so it can be mapped to what fills the variable
    have hnew : (σ.like x).1 ∉ a.freeNames := fun hx => like_notMem x σ (hty _ hx)
    have hfill := Ty.mapNames_update_openWith hθ hnew hs
    obtain ⟨η, hη, hoff, hbody⟩ :=
      ih (hθ.update _ hs) (fun y => mem_used_of_mem_freeNames_openWith hty) (hfill ▸ h)
    rw [openAll_all]
    refine ⟨η, hη, fun y hy => ?_, hbody⟩
    rw [List.mem_cons, not_or] at hy
    rw [hoff y hy.2, Function.update_of_ne hy.1]
  | other ty σ hne =>
    rw [openAll_of_not_all hne]
    refine ⟨θ, hθ, fun _ _ => rfl, ?_⟩
    have hne' : ∀ x a, ty.mapNames θ ≠ .all x a := by
      intro x a heq
      cases ty with
      | name y =>
        have hy := hθ y
        rw [Ty.mapNames_name] at heq
        simp [heq] at hy
      | all y b => exact hne y b rfl
      | _ => simp at heq
    generalize ty.mapNames θ = ty' at h hne'
    cases h with
    | simple => rfl
    | all => exact absurd rfl (hne' _ _)

theorem isSimple_openAll {θ : String → Ty} (hθ : IsSimpleMap θ) {ty τ : Ty} {σ : NameSupply}
    (hty : ∀ x ∈ ty.freeNames, x ∈ σ.used) (h : (ty.mapNames θ).Instance τ) :
    (σ.openAll ty).1.2.isSimple := by
  obtain ⟨η, -, -, hη⟩ := exists_of_instance_openAll hθ hty h
  exact Ty.isSimple_of_isSimple_mapNames (hη ▸ h.isSimple)

theorem instance_openAll_self {ty : Ty} {σ : NameSupply} (h : (σ.openAll ty).1.2.isSimple) :
    ty.Instance (σ.openAll ty).1.2 := by
  have hinst := @instance_openAll Ty.name isSimpleMap_name ty σ
  simp only [Ty.mapNames_id] at hinst
  exact hinst h

end NameSupply

namespace Ty

theorem generalize_cons (len : Nat) (x : String) (xs : List String) (t : Ty) :
    t.generalize len (x :: xs) = (t.generalize len xs).generalizeTop len x := rfl

theorem mem_freeNames_generalize {len : Nat} {xs : List String} {t : Ty} {y : String} :
    y ∈ (t.generalize len xs).freeNames ↔ y ∈ t.freeNames ∧ y ∉ xs := by
  induction xs with
  | nil => simp [generalize]
  | cons x xs ih =>
    rw [generalize_cons]
    simp only [generalizeTop, freeNames, bindName, mem_freeNames_bindNameAt, freeNames_shift, ih,
      List.mem_cons, not_or]
    tauto

/-- The instances of a generalized type are its images under the maps of the generalized names. -/
theorem instance_generalize_iff {θ : String → Ty} (hθ : IsSimpleMap θ) {len : Nat}
    {xs : List String} {t τ : Ty} (ht : t.isSimple) :
    ((t.generalize len xs).mapNames θ).Instance τ ↔
      ∃ η, IsSimpleMap η ∧ (∀ x ∉ xs, η x = θ x) ∧ t.mapNames η = τ := by
  induction xs generalizing θ with
  | nil =>
    rw [show t.generalize len [] = t from rfl, instance_iff_of_isSimple (isSimple_mapNames hθ ht)]
    constructor
    · rintro rfl
      exact ⟨θ, hθ, fun _ _ => rfl, rfl⟩
    · rintro ⟨η, _, hη, rfl⟩
      rw [show η = θ from funext fun x => hη x (by simp)]
  | cons x xs ih =>
    have hfill : ∀ s, (((((t.generalize len xs).shift 1).bindName x len).mapNamesAt θ 1).fillAt s 0) =
        (t.generalize len xs).mapNames (Function.update θ x s) := fun s =>
      fillAt_mapNamesAt_bindNameAt θ x len s 0 _
    rw [generalize_cons, generalizeTop, mapNames, mapNamesAt, instance_all_iff]
    simp only [hfill]
    constructor
    · rintro ⟨s, hs, h⟩
      obtain ⟨η, hη, hoff, rfl⟩ := (ih (hθ.update x hs)).mp h
      refine ⟨η, hη, fun y hy => ?_, rfl⟩
      rw [List.mem_cons, not_or] at hy
      rw [hoff y hy.2, Function.update_of_ne hy.1]
    · rintro ⟨η, hη, hoff, rfl⟩
      refine ⟨η x, hη x, (ih (hθ.update x (hη x))).mpr ⟨η, hη, fun y hy => ?_, rfl⟩⟩
      by_cases hyx : y = x
      · rw [hyx, Function.update_self]
      · rw [Function.update_of_ne hyx]
        exact hoff y (by simp [hyx, hy])

end Ty

namespace Context

theorem mem_generic {Γ : Context} {ty : Ty} {avoid : List String} {x : String} :
    x ∈ Γ.generic ty avoid ↔ x ∈ ty.freeNames ∧ x ∉ Γ.freeNames ∧ x ∉ avoid := by
  simp [generic, not_or]

theorem mem_freeNames_generalize {Γ : Context} {ty : Ty} {avoid : List String} {x : String} :
    x ∈ (Γ.generalize ty avoid).freeNames ↔ x ∈ ty.freeNames ∧ (x ∈ Γ.freeNames ∨ x ∈ avoid) := by
  rw [generalize, Ty.mem_freeNames_generalize, mem_generic]
  tauto

end Context

end LambdaTyping
