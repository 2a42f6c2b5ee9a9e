import Mathlib
import LambdaTyping.Proofs.AppliedContexts

/-!
# Generalisation undone

To quantify over a name and to open the quantifier with that name gives back the
type, whatever quantifiers it has of its own. To open a quantifier with a name that
is not in the type and to quantify over that name again only changes the name of
the binder. One name after the other, the names that a context does not know are
quantified from the last to the first and opened from the first to the last. On
the way the type refers to the same variables of its context as before.
-/
namespace LambdaTyping

namespace Ty

/-- Opening with the name that was quantified over undoes the quantification. -/
theorem degeneralizeTop?_generalizeTop (len : Nat) (x : String) (t : Ty) :
    (t.generalizeTop len x).degeneralizeTop? x = some t := by
  have h := fillAt_mapNamesAt_bindNameAt name x len (name x) 0 t
  rw [mapNamesAt_id, Function.update_eq_self, mapNamesAt_id] at h
  rw [generalizeTop, degeneralizeTop?, openWith_eq_fillAt]
  exact congrArg some h

theorem WellScoped.bindNameAt {n c : Nat} {t : Ty} (h : t.WellScoped (n + 1 + c)) (x : String) :
    (t.bindNameAt x n c).WellScoped (n + 1 + c) := by
  induction t generalizing c with
  | name y =>
    simp only [Ty.bindNameAt]
    split
    · exact ⟨rfl, by omega⟩
    · trivial
  | arr a b iha ihb => exact ⟨iha h.1, ihb h.2⟩
  | all y a ih => exact ih (c := c + 1) h
  | _ => exact h

theorem wellScoped_generalizeTop_iff {n : Nat} {x : String} {t : Ty} :
    (t.generalizeTop n x).WellScoped n ↔ t.WellScoped n := by
  constructor
  · intro h
    have hopen := (show (name x).WellScoped n from trivial).fillAt (c := 0) h
    have hback := degeneralizeTop?_generalizeTop n x t
    rw [generalizeTop, degeneralizeTop?, openWith_eq_fillAt, Option.some.injEq] at hback
    rwa [hback] at hopen
  · intro h
    exact WellScoped.bindNameAt (c := 0) (h.shiftAbove 1 0) x

/-- The variable that a new name has replaced is put back for it. The other variables keep their
indices, and all get their recorded lengths back. -/
theorem bindNameAt_shiftAbove_fillAt {n c : Nat} {x : String} {a : Ty}
    (ha : a.WellScoped (n + 1 + c)) (hx : x ∉ a.freeNames) :
    ((a.fillAt (name x) c).shiftAbove 1 c).bindNameAt x n c = a := by
  induction a generalizing c with
  | name y =>
    have hy : y ≠ x := by
      rintro rfl
      simp [freeNames] at hx
    simp [fillAt, bindNameAt, hy]
  | var i m =>
    obtain ⟨rfl, hi⟩ := ha
    by_cases hc : i = c
    · simp [fillAt, bindNameAt, hc]
    · simp only [fillAt, hc, ↓reduceIte, shiftAbove, bindNameAt, var.injEq, offsetAbove, offset]
      refine ⟨?_, by omega⟩
      split <;> split <;> omega
  | arr a b iha ihb =>
    simp only [freeNames, List.mem_append, not_or] at hx
    simp only [fillAt, shiftAbove, bindNameAt, iha ha.1 hx.1, ihb ha.2 hx.2]
  | all y a ih => simp only [fillAt, shiftAbove, bindNameAt, ih (c := c + 1) ha hx]
  | bool => rfl

/-- Quantifying over the new name with which a quantifier was opened puts it back. -/
theorem generalizeTop_openWith {n : Nat} {x : String} {a : Ty} (ha : a.WellScoped (n + 1))
    (hx : x ∉ a.freeNames) : (a.openWith x).generalizeTop n x = all x a := by
  rw [generalizeTop, openWith_eq_fillAt]
  exact congrArg (all x) (bindNameAt_shiftAbove_fillAt (c := 0) ha hx)

theorem notMem_freeNames_generalizeTop (len : Nat) (x : String) (t : Ty) :
    x ∉ (t.generalizeTop len x).freeNames := fun hx => (mem_freeNames_bindNameAt.mp hx).2 rfl

/-- Quantifying over a name and opening a quantifier with it are inverse to each other. The one
leads from the types of a context to those quantified types of it in which the name is not free, and
the other one back; the quantifier gets the name that it was opened with. -/
theorem generalizeTop_inverse_degeneralizeTop? (n : Nat) (x : String) :
    (∀ t : Ty, t.WellScoped n → (t.generalizeTop n x).WellScoped n ∧
      x ∉ (t.generalizeTop n x).freeNames ∧ (t.generalizeTop n x).degeneralizeTop? x = some t) ∧
    ∀ (y : String) (a : Ty), (all y a).WellScoped n → x ∉ (all y a).freeNames →
      ∃ b, (all y a).degeneralizeTop? x = some b ∧ b.WellScoped n ∧
        b.generalizeTop n x = all x a := by
  refine ⟨fun t ht => ?_, fun y a ha hx => ?_⟩
  · exact ⟨wellScoped_generalizeTop_iff.mpr ht, notMem_freeNames_generalizeTop n x t,
      degeneralizeTop?_generalizeTop n x t⟩
  · have hback := generalizeTop_openWith ha hx
    refine ⟨a.openWith x, rfl, ?_, hback⟩
    rw [← wellScoped_generalizeTop_iff (x := x), hback]
    exact ha

/-- An inner quantifier has the same name, and a variable of the context is in its scope. -/
theorem generalizeTop_inverse_degeneralizeTop?_sameName :
    let t : Ty := .all "X" (.arr (.var 0 2) (.arr (.name "X") (.var 1 2)))
    let a : Ty := .all "X" (.arr (.var 0 3) (.arr (.var 1 3) (.var 2 3)))
    (t.WellScoped 1 ∧ (all "X" a).degeneralizeTop? "X" = some t) ∧
    (all "Y" a).WellScoped 1 ∧ "X" ∉ (all "Y" a).freeNames ∧
    ∃ b, (all "Y" a).degeneralizeTop? "X" = some b ∧ b.WellScoped 1 ∧
      b.generalizeTop 1 "X" = all "X" a := by
  intro t a
  have ht : t.WellScoped 1 := by simp [t, WellScoped]
  have ha : (all "Y" a).WellScoped 1 := by simp [a, WellScoped]
  have hx : "X" ∉ (all "Y" a).freeNames := by simp [a, freeNames]
  obtain ⟨hopen, hclose⟩ := generalizeTop_inverse_degeneralizeTop? 1 "X"
  exact ⟨⟨ht, (hopen t ht).2.2⟩, ha, hx, hclose "Y" a ha hx⟩

theorem hasVar_shiftAbove_one_succ {c i : Nat} (hi : c ≤ i) (t : Ty) :
    (t.shiftAbove 1 c).hasVar (i + 1) = t.hasVar i := by
  induction t generalizing c i with
  | var j n =>
    simp only [shiftAbove, hasVar, offsetAbove, offset]
    rw [Bool.eq_iff_iff, beq_iff_eq, beq_iff_eq]
    split <;> omega
  | arr a b iha ihb => simp only [shiftAbove, hasVar, iha hi, ihb hi]
  | all x a ih => exact ih (Nat.succ_le_succ hi)
  | _ => rfl

/-- Only the variable that stands for the name is new. -/
theorem hasVar_bindNameAt_of_ne {c i : Nat} (hi : i ≠ c) (x : String) (len : Nat) (t : Ty) :
    (t.bindNameAt x len c).hasVar i = t.hasVar i := by
  induction t generalizing c i with
  | name y =>
    simp only [bindNameAt]
    split
    · simpa [hasVar] using hi.symm
    · rfl
  | arr a b iha ihb => simp only [bindNameAt, hasVar, iha hi, ihb hi]
  | all y a ih => exact ih (fun h => hi (Nat.succ.inj h))
  | _ => rfl

theorem hasVar_generalizeTop (len : Nat) (x : String) (i : Nat) (t : Ty) :
    (t.generalizeTop len x).hasVar i = t.hasVar i := by
  rw [generalizeTop, hasVar, bindName, hasVar_bindNameAt_of_ne (Nat.succ_ne_zero i)]
  exact hasVar_shiftAbove_one_succ (Nat.zero_le i) t

/-- The names are opened from the outside in, in the order in which they were given. -/
theorem foldlM_degeneralizeTop?_generalize (len : Nat) (xs : List String) (t : Ty) :
    xs.foldlM (fun a x => a.degeneralizeTop? x) (t.generalize len xs) = some t := by
  induction xs with
  | nil => rfl
  | cons x xs ih =>
    rw [List.foldlM_cons, generalize_cons, degeneralizeTop?_generalizeTop]
    exact ih

theorem wellScoped_generalize_iff {n : Nat} {xs : List String} {t : Ty} :
    (t.generalize n xs).WellScoped n ↔ t.WellScoped n := by
  induction xs with
  | nil => exact Iff.rfl
  | cons x xs ih => rw [generalize_cons, wellScoped_generalizeTop_iff, ih]

theorem hasVar_generalize (len : Nat) (xs : List String) (i : Nat) (t : Ty) :
    (t.generalize len xs).hasVar i = t.hasVar i := by
  induction xs with
  | nil => rfl
  | cons x xs ih => rw [generalize_cons, hasVar_generalizeTop, ih]

end Ty

namespace Context

theorem pairwise_generic (Γ : Context) (τ : Ty) (avoid : List String) :
    (Γ.generic τ avoid).Pairwise (· < ·) :=
  ((NameSet.pairwise_sorted _).filter _).imp compare_lt_iff_lt.mp

/-- Generalisation is undone by opening. It quantifies over the names of the type that are neither
in the context nor to be avoided, in ascending order, and leaves the other names. The result is well
scoped as the type is and refers to the same variables of the context; opened with the names, one
after the other, it is the type again. -/
theorem exists_openings_of_generalize (Γ : Context) (τ : Ty) (avoid : List String) :
    ∃ xs : List String, xs.Pairwise (· < ·) ∧
      (∀ x, x ∈ xs ↔ x ∈ τ.freeNames ∧ x ∉ Γ.freeNames ∧ x ∉ avoid) ∧
      (∀ x, x ∈ (Γ.generalize τ avoid).freeNames ↔
        x ∈ τ.freeNames ∧ (x ∈ Γ.freeNames ∨ x ∈ avoid)) ∧
      ((Γ.generalize τ avoid).WellScoped Γ.length ↔ τ.WellScoped Γ.length) ∧
      (∀ i, (Γ.generalize τ avoid).hasVar i = τ.hasVar i) ∧
      xs.foldlM (fun a x => a.degeneralizeTop? x) (Γ.generalize τ avoid) = some τ :=
  ⟨Γ.generic τ avoid, pairwise_generic Γ τ avoid, fun _ => mem_generic,
    fun _ => mem_freeNames_generalize, Ty.wellScoped_generalize_iff,
    fun i => Ty.hasVar_generalize _ _ i τ, Ty.foldlM_degeneralizeTop?_generalize _ _ τ⟩

example : generalize [⟨"x", .var (.name "C")⟩]
    (.all "Y" (.arr (.name "B") (.arr (.name "A") (.arr (.name "C") (.var 0 2))))) [] =
    .all "A" (.all "B" (.all "Y"
      (.arr (.var 1 4) (.arr (.var 2 4) (.arr (.name "C") (.var 0 4)))))) := rfl

end Context

end LambdaTyping
