import Mathlib
import LambdaTyping.Proofs.LargerContexts

/-!
# Laws of shifts and substitution

Shifts of types and terms compose if the second one starts inside the gap that the
first one leaves, and so a shift upwards is undone by a shift downwards. A type
can leave the scope of binders exactly if it has been shifted into it, and that is
if it refers to none of them.

Types are substituted for variables and for names. Two variables can be replaced
in either order, in types and in the types of terms, if the type of the nearer one
is adjusted. A substitution of names goes below the replacement of a variable and
below a shift: this is shown for one binding, and carries over to a list of
bindings, which are applied one after the other.
-/
namespace LambdaTyping

namespace Term

theorem shiftAbove_zero (c : Nat) (t : Term) : t.shiftAbove 0 c = t := by
  induction t generalizing c with
  | var p i n => simp [shiftAbove, offsetAbove]
  | abs p x ty t ih => cases ty <;> simp [shiftAbove, ih]
  | app p t u iht ihu => simp [shiftAbove, iht, ihu]
  | ite p i t e ihi iht ihe => simp [shiftAbove, ihi, iht, ihe]
  | tyAbs p x t ih => simp [shiftAbove, ih]
  | tyApp p t ty ih => simp [shiftAbove, ih]
  | letIn p x e t ihe iht => simp [shiftAbove, ihe, iht]
  | const p b => rfl

/-- Binders of terms and of types leave the same gap, and all types of the term have it too. -/
theorem shiftAbove_shiftAbove {d c k : Nat} (hc : c ≤ k) (hk : k ≤ c + d) (e : Int) (t : Term) :
    (t.shiftAbove d c).shiftAbove e k = t.shiftAbove (d + e) c := by
  have hk' : k + 1 ≤ c + 1 + d := by omega
  induction t generalizing c k with
  | var p i n => simp only [shiftAbove, offsetAbove_offsetAbove hc hk, offset_offset]
  | abs p x ty t ih =>
    have hty : (ty.map (Ty.shiftAbove d c)).map (Ty.shiftAbove e k) =
        ty.map (Ty.shiftAbove (d + e) c) := by
      rw [Option.map_map]
      exact Option.map_congr fun a _ => Ty.shiftAbove_shiftAbove hc hk e a
    simp only [shiftAbove, hty, ih (Nat.succ_le_succ hc) hk' (by omega)]
  | app p t u iht ihu => simp only [shiftAbove, iht hc hk hk', ihu hc hk hk']
  | ite p i t u ihi iht ihu => simp only [shiftAbove, ihi hc hk hk', iht hc hk hk', ihu hc hk hk']
  | tyAbs p x t ih => simp only [shiftAbove, ih (Nat.succ_le_succ hc) hk' (by omega)]
  | tyApp p t ty ih => simp only [shiftAbove, ih hc hk hk', Ty.shiftAbove_shiftAbove hc hk]
  | letIn p x u t ihu iht =>
    simp only [shiftAbove, ihu hc hk hk', iht (Nat.succ_le_succ hc) hk' (by omega)]
  | const p b => rfl

end Term

namespace Ty

/-- Dropping binders is the inverse of adding them. -/
theorem WellScoped.unshift?_eq_some_iff {n d : Nat} {t u : Ty} (h : t.WellScoped n) (hd : d ≤ n) :
    t.unshift? d = some u ↔ u.WellScoped (n - d) ∧ u.shift d = t := by
  constructor
  · intro hu
    have hshift := h.shift_of_unshift? hd hu
    have hscoped : (u.shift d).WellScoped (n - d + d) := by rwa [hshift, Nat.sub_add_cancel hd]
    exact ⟨hscoped.of_shiftAbove (Nat.zero_le _), hshift⟩
  · rintro ⟨-, rfl⟩
    exact unshift?_shift d u

theorem unshift?_eq_none_iff {d : Nat} {t : Ty} :
    t.unshift? d = none ↔ ∃ i < d, t.hasVar i = true := by
  rw [Option.eq_none_iff_forall_ne_some]
  simp only [ne_eq, Ty.unshift?_eq_some_iff, not_and]
  constructor
  · intro h
    by_contra hfree
    refine h _ (fun i hi => ?_) rfl
    rw [← Bool.not_eq_true]
    exact fun hi' => hfree ⟨i, hi, hi'⟩
  · rintro ⟨i, hi, hvar⟩ u hfree
    rw [hfree i hi] at hvar
    cases hvar

end Ty

/-- Shifts compose and cancel. A second shift from inside the gap on adds to the first one, in types
and in terms, and to shift by nothing is to do nothing. The binders that are dropped from a type are
those to which it does not refer, and the type left is the one from which a shift makes it. -/
theorem shiftAbove_compose_and_cancel :
    (∀ (d c k : Nat) (e : Int), c ≤ k → k ≤ c + d →
      (∀ t : Ty, (t.shiftAbove d c).shiftAbove e k = t.shiftAbove (d + e) c) ∧
      ∀ t : Term, (t.shiftAbove d c).shiftAbove e k = t.shiftAbove (d + e) c) ∧
    (∀ c, (∀ t : Ty, t.shiftAbove 0 c = t) ∧ ∀ t : Term, t.shiftAbove 0 c = t) ∧
    ∀ (n d : Nat) (t : Ty), t.WellScoped n → d ≤ n →
      (∀ u, t.unshift? d = some u ↔ u.WellScoped (n - d) ∧ u.shift d = t) ∧
      (t.unshift? d = none ↔ ∃ i < d, t.hasVar i = true) :=
  ⟨fun _ _ _ e hc hk => ⟨Ty.shiftAbove_shiftAbove hc hk e, Term.shiftAbove_shiftAbove hc hk e⟩,
    fun c => ⟨Ty.shiftAbove_zero c, Term.shiftAbove_zero c⟩,
    fun _ _ _ ht hd => ⟨fun _ => ht.unshift?_eq_some_iff hd, Ty.unshift?_eq_none_iff⟩⟩

/-- Below a `let` and a quantifier, a gap of two binders is left between the two variables of the
context and closed again but for one. A type that refers to the outer variable only can leave the
scope of the inner one. -/
theorem shiftAbove_compose_and_cancel_belowBinders :
    let t : Term := .letIn ⟨1, 1⟩ "f" (.var ⟨1, 9⟩ 0 2) (.tyApp ⟨1, 14⟩ (.var ⟨1, 14⟩ 0 3)
      (.all "Z" (.arr (.var 0 4) (.arr (.var 2 4) (.var 3 4)))))
    let a : Ty := .all "Z" (.arr (.var 0 3) (.var 2 3))
    (1 ≤ 2 ∧ 2 ≤ 1 + 2 ∧ (t.shiftAbove (2 : Nat) 1).shiftAbove (-1) 2 =
      .letIn ⟨1, 1⟩ "f" (.var ⟨1, 9⟩ 0 3) (.tyApp ⟨1, 14⟩ (.var ⟨1, 14⟩ 0 4)
        (.all "Z" (.arr (.var 0 5) (.arr (.var 2 5) (.var 4 5)))))) ∧
    a.WellScoped 2 ∧ a.unshift? 1 = some (.all "Z" (.arr (.var 0 2) (.var 1 2))) ∧
    a.unshift? 2 = none := by
  intro t a
  have ha : a.WellScoped 2 := by simp [a, Ty.WellScoped]
  obtain ⟨hcompose, -, hdrop⟩ := shiftAbove_compose_and_cancel
  refine ⟨⟨by decide, by decide, ?_⟩, ha, ?_, ?_⟩
  · exact ((hcompose 2 1 2 (-1) (by decide) (by decide)).2 t).trans rfl
  · exact ((hdrop 2 1 a ha (by decide)).1 _).mpr ⟨by simp [Ty.WellScoped], rfl⟩
  · exact (hdrop 2 2 a ha le_rfl).2.mpr ⟨1, by decide, rfl⟩

namespace Ty

/-- A variable bound outside a gap is filled before or after the gap is opened. -/
theorem fillAt_shiftAbove (d : Nat) (u : Ty) {n k : Nat} {s : Ty} (hs : s.WellScoped (n + k + 1)) :
    (s.shiftAbove d k).fillAt u (k + d) = (s.fillAt u k).shiftAbove d k := by
  induction s generalizing k with
  | var i m =>
    obtain ⟨rfl, -⟩ := hs
    by_cases hik : i = k
    · subst hik
      simp only [shiftAbove, fillAt, offsetAbove, offset_natCast, le_refl, ↓reduceIte]
      exact (shift_shiftAbove i d i le_rfl u).symm
    · have hne : ¬ (if k ≤ i then i + d else i) = k + d := by split_ifs <;> omega
      simp only [shiftAbove, fillAt, offsetAbove, offset_natCast, if_neg hik, if_neg hne, var.injEq]
      exact ⟨by split_ifs <;> omega, by omega⟩
  | arr a b iha ihb => simp only [shiftAbove, fillAt, iha hs.1, ihb hs.2]
  | all x a ih =>
    have h := ih (k := k + 1) hs
    simp only [shiftAbove, fillAt, all.injEq, true_and]
    rwa [Nat.add_right_comm] at h
  | _ => rfl

theorem fillAt_shift (d : Nat) (u : Ty) {n : Nat} {s : Ty} (hs : s.WellScoped (n + 1)) :
    (s.shift d).fillAt u d = (s.fillAt u 0).shift d := by
  have h := fillAt_shiftAbove d u (k := 0) hs
  rwa [Nat.zero_add] at h

/-- The variables of two neighbouring binders: the inner one is filled first, or the outer one is,
also in the type for the inner one. -/
theorem fillAt_fillAt {n : Nat} {s : Ty} (hs : s.WellScoped (n + 1)) (u : Ty) (c : Nat) (t : Ty) :
    (t.fillAt s c).fillAt u c = (t.fillAt u (c + 1)).fillAt (s.fillAt u 0) c := by
  induction t generalizing c with
  | var i m =>
    by_cases hc : i = c
    · subst hc
      simp only [fillAt, ↓reduceIte, Nat.left_eq_add, one_ne_zero,
        if_neg (show ¬ i + 1 < i by omega)]
      exact fillAt_shift i u hs
    · by_cases hc' : i = c + 1
      · subst hc'
        simp only [fillAt, ↓reduceIte, Nat.add_eq_left, one_ne_zero, Nat.lt_add_one,
          Nat.add_sub_cancel]
        exact (fillAt_shift_succ _ c u).symm
      · -- neither of the two: both binders are dropped from the index
        have hleft : (if c < i then i - 1 else i) ≠ c := by split_ifs <;> omega
        have hright : (if c + 1 < i then i - 1 else i) ≠ c := by split_ifs <;> omega
        simp only [fillAt, if_neg hc, if_neg hc', if_neg hleft, if_neg hright, var.injEq, and_true]
        split_ifs <;> omega
  | arr a b iha ihb => simp only [fillAt, iha, ihb]
  | all x a ih => simp only [fillAt, ih]
  | _ => rfl

end Ty

namespace Term

/-- Filling drops binders from the indices of term variables in either order. -/
theorem fillAt_fillAt {n : Nat} {s : Ty} (hs : s.WellScoped (n + 1)) (u : Ty) (c : Nat) (t : Term) :
    (t.fillAt s c).fillAt u c = (t.fillAt u (c + 1)).fillAt (s.fillAt u 0) c := by
  induction t generalizing c with
  | var p i m =>
    simp only [fillAt, offsetAbove, offset_neg_one, var.injEq, and_true, true_and]
    split_ifs <;> omega
  | const p b => rfl
  | abs p x ty t ih => cases ty <;> simp [fillAt, ih, Ty.fillAt_fillAt hs]
  | app p t u iht ihu => simp only [fillAt, iht, ihu]
  | ite p i t e ihi iht ihe => simp only [fillAt, ihi, iht, ihe]
  | tyAbs p x t ih => simp only [fillAt, ih]
  | tyApp p t ty ih => simp only [fillAt, ih, Ty.fillAt_fillAt hs]
  | letIn p x e t ihe iht => simp only [fillAt, ihe, iht]

end Term

/-- The substitution lemma. Of two variables the nearer one is replaced by `s` and then the other
one by `u`; or `u` is put for the other one first, in `s` as well. -/
theorem substTop_substTop {n : Nat} {s : Ty} (hs : s.WellScoped (n + 1)) (u : Ty) :
    (∀ t : Ty, (t.substTop s).substTop u =
      ((t.subst 1 (u.shift 1)).shiftAbove (-1) 1).substTop (s.substTop u)) ∧
    ∀ t : Term, (t.substTyTop s).substTyTop u =
      ((t.substTy 1 (u.shift 1)).shiftAbove (-1) 1).substTyTop (s.substTop u) := by
  constructor
  · intro t
    simp only [Ty.shiftAbove_subst, Ty.substTop_eq_fillAt]
    exact Ty.fillAt_fillAt hs u 0 t
  · intro t
    simp only [Term.shiftAbove_substTy, Term.substTyTop_eq_fillAt, Ty.substTop_eq_fillAt]
    exact Term.fillAt_fillAt hs u 0 t

/-- Below a quantifier and below a term binder, in a context with one variable `X`: the outer
variable stands for `X → Bool`, the inner one for a quantified type with both in it. -/
theorem substTop_substTop_quantified :
    (Ty.all "W" (.arr (.var 1 3) (.arr (.var 0 3) (.var 2 3)))).WellScoped 2 ∧
    (((Ty.all "V" (.arr (.var 1 4) (.arr (.var 2 4) (.var 3 4)))).subst 1
        ((Ty.arr (.var 0 1) .bool).shift 1)).shiftAbove (-1) 1).substTop
      ((Ty.all "W" (.arr (.var 1 3) (.arr (.var 0 3) (.var 2 3)))).substTop
        (.arr (.var 0 1) .bool)) =
      .all "V" (.arr
        (.all "W" (.arr (.arr (.var 2 3) .bool) (.arr (.var 0 3) (.var 2 3))))
        (.arr (.arr (.var 1 2) .bool) (.var 1 2))) ∧
    (((Term.abs ⟨1, 1⟩ "f" (some (.arr (.var 0 3) (.var 1 3)))
        (.tyApp ⟨1, 9⟩ (.var ⟨1, 9⟩ 0 4) (.var 1 4))).substTy 1
        ((Ty.arr (.var 0 1) .bool).shift 1)).shiftAbove (-1) 1).substTyTop
      ((Ty.all "W" (.arr (.var 1 3) (.arr (.var 0 3) (.var 2 3)))).substTop
        (.arr (.var 0 1) .bool)) =
      .abs ⟨1, 1⟩ "f"
        (some (.arr (.all "W" (.arr (.arr (.var 1 2) .bool) (.arr (.var 0 2) (.var 1 2))))
          (.arr (.var 0 1) .bool)))
        (.tyApp ⟨1, 9⟩ (.var ⟨1, 9⟩ 0 2)
          (.all "W" (.arr (.arr (.var 2 3) .bool) (.arr (.var 0 3) (.var 2 3))))) := by
  have hs : (Ty.all "W" (.arr (.var 1 3) (.arr (.var 0 3) (.var 2 3)))).WellScoped 2 := by
    simp [Ty.WellScoped]
  have h := substTop_substTop hs (.arr (.var 0 1) .bool)
  exact ⟨hs, (h.1 _).symm.trans (by decide), (h.2 _).symm.trans (by decide)⟩

namespace Ty

theorem substName_shift (x : String) (u : Ty) (d : Nat) (t : Ty) :
    (t.shift d).substName x (u.shift d) = (t.substName x u).shift d := by
  rw [Subst.substName_eq_mapNames, Subst.substName_eq_mapNames, shift, shift, shift,
    shiftAbove_mapNames, shiftAbove_update_name]

/-- A name is replaced before or after a variable is. -/
theorem substName_substTop (x : String) (u s t : Ty) :
    (t.substTop s).substName x u = (t.substName x (u.shift 1)).substTop (s.substName x u) := by
  have hlift : liftMap (Function.update name x u) = Function.update name x (u.shift 1) :=
    shiftAbove_update_name 1 0 x u
  simp only [Subst.substName_eq_mapNames, substTop_eq_fillAt, ← hlift, ← mapNamesAt_one_eq]
  exact mapNamesAt_fillAt _ s 0 t

end Ty

namespace Subst

theorem shift_cons (d : Int) (b : String × Ty) (s : Subst) :
    shift d (b :: s) = (b.1, b.2.shift d) :: s.shift d := rfl

theorem apply_shift (s : Subst) (d : Nat) (t : Ty) :
    (s.shift d).apply (t.shift d) = (s.apply t).shift d := by
  induction s with
  | nil => rfl
  | cons b s ih => rw [shift_cons, apply_cons, apply_cons, ih, Ty.substName_shift]

theorem apply_substTop (s : Subst) (t u : Ty) :
    s.apply (t.substTop u) = ((s.shift 1).apply t).substTop (s.apply u) := by
  induction s with
  | nil => rfl
  | cons b s ih => rw [shift_cons, apply_cons, apply_cons, apply_cons, ih, Ty.substName_substTop]

/-- A substitution of names commutes with the replacement of a variable and with shifts. Inside the
binder of the variable, and after the shift, its own types are shifted. -/
theorem apply_substTop_and_shift (s : Subst) (u : Ty) :
    (∀ t, s.apply (t.substTop u) = ((s.shift 1).apply t).substTop (s.apply u)) ∧
      ∀ d : Nat, (s.shift d).apply (u.shift d) = (s.apply u).shift d :=
  ⟨fun t => s.apply_substTop t u, fun d => s.apply_shift d u⟩

end Subst

end LambdaTyping
