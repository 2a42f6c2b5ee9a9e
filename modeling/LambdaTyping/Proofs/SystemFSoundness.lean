import Mathlib
import LambdaTyping.Proofs.SystemFRules

/-!
# Soundness for System F

A judgment that a rule accepts is derivable under the substitution of the node,
if the premises are derivable under theirs: whatever the substitution of the node
makes of a premise is also an instance of what the premise proves.

At a type abstraction the bound variable becomes a new name, and the premise is
carried over with the bound variable back in the place of that name. This needs
the name to be gone from the judgment of the conclusion. Only the types of the
context are looked at for it.
-/
namespace LambdaTyping

/-- The judgment is derivable when the substitution is applied to all its parts. -/
def Judgment.DerivableUnder (j : Judgment) (s : Subst) : Prop :=
  ∃ Δ, j.context.apply s = .ok Δ ∧ SystemF Δ (j.term.mapNames s.image) (s.apply j.ty)

/-- The premise is derivable under its substitution. -/
structure Premise.Sound (p : Premise) : Prop extends p.Formed where
  derivable : p.judgment.DerivableUnder p.subst

theorem Subst.Holds.erase_apply {θ : String → Ty} {s : Subst} (h : s.Holds θ) (t : Ty) :
    ((s.apply t).mapNames θ).erase = (t.mapNames θ).erase := by
  rw [Subst.apply_eq_mapNames, Ty.mapNames_mapNames]
  exact Ty.erase_mapNames_congr fun x _ => h.erase_image x

/-- A map that satisfies the bindings of a substitution does not see whether it was applied. -/
theorem Context.Maps.of_apply {Γ Γ₁ Δ : Context} {s : Subst} {θ : String → Ty} (h : Γ.Maps θ Δ)
    (hs : s.FormedIn Γ.kinds) (hΓ : Γ.Formed) (hΓ₁ : Γ.apply s = .ok Γ₁) (hθ : s.Holds θ) :
    Γ₁.Maps θ Δ := by
  obtain ⟨hkinds, hget⟩ := Context.apply_spec hs hΓ hΓ₁
  refine ⟨h.kinds.trans hkinds.symm, fun i a ha => ?_⟩
  rw [hget, Option.map_eq_some_iff] at ha
  obtain ⟨a, ha, rfl⟩ := ha
  obtain ⟨b, hb, hab⟩ := h.types i a ha
  exact ⟨b, hb, (hθ.erase_apply a).trans hab⟩

/-- The premise under any map for which its substitution holds. -/
theorem Premise.Sound.systemF {p : Premise} (hp : p.Sound) {θ : String → Ty} {Δ : Context} {u : Term}
    (hθ : ∀ x, (θ x).FormedIn p.judgment.context.kinds) (hΔ : p.judgment.context.Maps θ Δ)
    (hholds : p.subst.Holds θ) (hu : (p.judgment.term.mapNames θ).erase = u.erase) :
    SystemF Δ u (p.judgment.ty.mapNames θ) := by
  obtain ⟨Γ, hΓ, hderiv⟩ := hp.derivable
  have hkinds := (Context.apply_spec hp.subst hp.judgment.context hΓ).1
  have hmaps := hΔ.of_apply hp.subst hp.judgment.context hΓ hholds
  refine .alpha (hholds.erase_apply p.judgment.ty) (hderiv.map (hkinds ▸ hθ) hmaps ?_)
  rw [Term.mapNames_mapNames, ← hu]
  exact Term.erase_mapNames_congr (fun x => hholds.erase_image x) _

theorem Context.apply_nil (Γ : Context) : Γ.apply [] = .ok Γ := by
  rw [Context.apply_eq_ok Γ (s := []) fun b hb => by simp at hb, Subst.image_nil, Context.mapNames_id]

theorem Context.maps_of_equalUnder {Γ Γ' Δ : Context} {s : Subst} (hs : s.FormedIn Γ.kinds)
    (hΓ : Γ.Formed) (hΔ : Γ.apply s = .ok Δ) (hkinds : Γ'.SameKinds Γ)
    (heq : Γ'.EqualUnder s.image Γ) : Γ'.Maps s.image Δ := by
  obtain ⟨hΔkinds, hget⟩ := Context.apply_spec hs hΓ hΔ
  refine ⟨hΔkinds.trans hkinds.kinds_eq.symm, fun i a ha => ?_⟩
  obtain ⟨b, hb⟩ := hkinds.exists_getType? ha
  refine ⟨s.apply b, by rw [hget, hb]; rfl, ?_⟩
  rw [Subst.apply_eq_mapNames]
  exact heq i a b ha hb

/-- A bound variable that is opened with a name comes back under a map that has the variable for
that name. -/
theorem Ty.mapNamesAt_openWith_shift {θ : String → Ty} {n : String} {len : Nat}
    (hn : θ n = .var 0 (len + 1)) (c : Nat) {t : Ty} (ht : t.WellScoped (len + 1 + c)) :
    ((t.fillAt (.name n) c).shiftAbove 1 c).mapNamesAt θ c = t.mapNamesAt θ c := by
  induction t generalizing c with
  | var i m =>
    obtain ⟨rfl, hi⟩ := ht
    simp only [fillAt]
    split
    · rename_i hic
      simp only [shiftAbove_name, mapNamesAt, hn, shift, shiftAbove, var.injEq]
      exact ⟨by simp [offsetAbove, offset, hic], by simp [offset]; omega⟩
    · simp only [shiftAbove, mapNamesAt, var.injEq, offsetAbove, offset]
      split <;> split <;> omega
  | arr a b iha ihb => simp only [fillAt, shiftAbove, mapNamesAt, iha c ht.1, ihb c ht.2]
  | all x a ih => simp only [fillAt, shiftAbove, mapNamesAt, ih (c + 1) ht]
  | _ => rfl

theorem Ty.mapNames_openWith_shift {θ : String → Ty} {n : String} {len : Nat}
    (hn : θ n = .var 0 (len + 1)) {t : Ty} (ht : t.WellScoped (len + 1)) :
    ((t.openWith n).shift 1).mapNames θ = t.mapNames θ := by
  rw [openWith_eq_fillAt]
  exact mapNamesAt_openWith_shift hn 0 ht

/-- The map one binder further in, with the variable of that binder for the name `n`. -/
def bindMap (θ : String → Ty) (n : String) (len : Nat) (y : String) : Ty :=
  (liftMap θ y).mapNames (Function.update Ty.name n (.var 0 (len + 1)))

section BindMap

variable {θ : String → Ty} {n : String} {len : Nat}

theorem bindMap_self (hn : θ n = .name n) : bindMap θ n len n = .var 0 (len + 1) := by
  simp [bindMap, liftMap, hn]

theorem update_name_of_ne {x : String} {t : Ty} (h : x ≠ n) :
    Function.update Ty.name n t x = .name x := Function.update_of_ne h t Ty.name

theorem Ty.mapNames_bindMap (len : Nat) {t : Ty} (h : n ∉ (t.mapNames (liftMap θ)).freeNames) :
    t.mapNames (bindMap θ n len) = t.mapNames (liftMap θ) := by
  refine (Ty.mapNames_mapNames (liftMap θ) _ t).symm.trans (Ty.mapNames_eq_self fun x hx => ?_)
  exact update_name_of_ne fun hxn => h (hxn ▸ hx)

theorem Ty.mapNames_bindMap_shift (t : Ty) : (t.shift 1).mapNames (bindMap θ n len) =
    ((t.mapNames θ).shift 1).mapNames (Function.update Ty.name n (.var 0 (len + 1))) := by
  rw [← mapNames_liftMap_shift, mapNames_mapNames]
  rfl

theorem Term.mapNames_bindMap {t : Term} (h : n ∉ (t.mapNames (liftMap θ)).typeNames) :
    t.mapNames (bindMap θ n len) = t.mapNames (liftMap θ) := by
  refine (Term.mapNames_mapNames (liftMap θ) _ t).symm.trans ?_
  refine (Term.mapNames_congr fun x hx => ?_).trans (Term.mapNames_id _)
  exact update_name_of_ne fun hxn => h (hxn ▸ hx)

theorem formedIn_bindMap {ks : List Kind} (hθ : ∀ x, (θ x).FormedIn ks) (x : String) :
    (bindMap θ n ks.length x).FormedIn (.type :: ks) := by
  refine Ty.FormedIn.mapNames (fun y => ?_) (formedIn_liftMap hθ .type x)
  by_cases hy : y = n
  · subst hy
    rw [Function.update_self]
    exact ⟨rfl, rfl⟩
  · rw [update_name_of_ne hy]
    trivial

/-- What the map makes equal stays equal with the bound variable for the name. -/
theorem Unifies.bindMap {a b : Ty} (h : Unifies θ a b) (n : String) (len : Nat) :
    Unifies (bindMap θ n len) (a.shift 1) (b.shift 1) := by
  rw [Unifies, Ty.mapNames_bindMap_shift, Ty.mapNames_bindMap_shift]
  refine Ty.erase_mapNames_eq ?_ _
  rw [Ty.erase_shift, Ty.erase_shift, h]

/-- A name that does not occur in the types of a context is free for the binder that comes next. -/
theorem Context.Maps.cons_bindMap {Γ Δ : Context} (h : Γ.Maps θ Δ) (hn : n ∉ Δ.freeNames)
    (len : Nat) (x y : String) : Context.Maps (bindMap θ n len) (⟨x, .tyVar⟩ :: Γ) (⟨y, .tyVar⟩ :: Δ) where
  kinds := by simp [h.kinds]
  types i a ha := by
    obtain ⟨b, hb, hab⟩ := (h.cons_tyVar x y).types i a ha
    have hnb : n ∉ b.freeNames := fun hnb => hn (Context.mem_freeNames_of_getType? hb hnb)
    rw [← Ty.freeNames_erase, ← hab, Ty.freeNames_erase] at hnb
    exact ⟨b, hb, by rw [Ty.mapNames_bindMap len hnb, hab]⟩

end BindMap

namespace Conclusion

section Rules

variable {Γ Δ : Context} {s : Subst} {pos : Text.Position} {x : String} {ty : Ty}
variable (hs : s.FormedIn Γ.kinds) (hΓ : Γ.Formed) (hΔ : Γ.apply s = .ok Δ)

include hs hΓ hΔ

/-- A premise in the context of the conclusion. -/
theorem systemF_of_match {p : Premise} {t : Term} (hp : p.Sound) (ht : t.FormedIn Γ.kinds)
    (hmatch : (p.judgment.context.SameKinds Γ ∧ p.judgment.term.alphaEq t = true) ∧
      p.judgment.context.EqualUnder s.image Γ) (hholds : p.subst.Holds s.image) :
    SystemF Δ (t.mapNames s.image) (p.judgment.ty.mapNames s.image) := by
  obtain ⟨⟨hkinds, hterm⟩, hequal⟩ := hmatch
  have hterm' : p.judgment.term.FormedIn Γ.kinds := hkinds.kinds_eq ▸ hp.judgment.term
  have herase := (Term.alphaEq_iff_erase hterm'.wellScoped ht.wellScoped).mp hterm
  refine hp.systemF (fun x => ?_) (Context.maps_of_equalUnder hs hΓ hΔ hkinds hequal) hholds
    (Term.erase_mapNames_eq herase _)
  rw [hkinds.kinds_eq]
  exact hs.image x

/-- A premise with one more variable, whose type stays in the scope of the conclusion. -/
theorem systemF_of_extended {p : Premise} {t : Term} {y : String} {a a' : Ty} {Γ' : Context}
    (hp : p.Sound) (heq : p.judgment.context = ⟨y, .var a⟩ :: Γ') (ht : t.FormedIn (.term :: Γ.kinds))
    (hmatch : Context.SameKinds Γ' Γ ∧ Context.EqualUnder s.image Γ' Γ)
    (hterm : p.judgment.term.alphaEq t = true) (hholds : p.subst.Holds (liftMap s.image))
    (ha : (a.mapNames s.image).erase = a'.erase) :
    SystemF (⟨x, .var a'⟩ :: Δ) (t.mapNames (liftMap s.image))
      (((p.judgment.ty.shift (-1)).mapNames s.image).shift 1) := by
  obtain ⟨hkinds, hequal⟩ := hmatch
  have hcontext : p.judgment.context.kinds = .term :: Γ.kinds := by
    rw [heq, Context.kinds_cons, hkinds.kinds_eq]
    rfl
  have hmaps := (Context.maps_of_equalUnder hs hΓ hΔ hkinds hequal).cons_var y x ha
  have hterm' : p.judgment.term.FormedIn (.term :: Γ.kinds) := hcontext ▸ hp.judgment.term
  have herase := (Term.alphaEq_iff_erase hterm'.wellScoped ht.wellScoped).mp hterm
  have hty : p.judgment.ty.FormedIn (.term :: Γ.kinds) := hcontext ▸ hp.judgment.ty
  have hbody := hp.systemF (hcontext ▸ formedIn_liftMap hs.image _) (heq ▸ hmaps) hholds
    (Term.erase_mapNames_eq herase _)
  rwa [← Ty.mapNames_liftMap_shift, hty.shift_neg_one.2]

/-- A premise with one more type variable, for which the name `n` stands in the conclusion. -/
theorem systemF_of_opened {p : Premise} {t : Term} {y n : String} {Γ' : Context} (hp : p.Sound)
    (heq : p.judgment.context = ⟨y, .tyVar⟩ :: Γ') (ht : t.FormedIn (.type :: Γ.kinds))
    (hmatch : Context.SameKinds Γ' Γ ∧ Context.EqualUnder s.image Γ' Γ)
    (hterm : p.judgment.term.alphaEq t = true) (hn : s.image n = .name n) (hnΔ : n ∉ Δ.freeNames)
    (hholds : ∀ b ∈ p.subst, Unifies s.image (.name b.1) (b.2.openWith n))
    (hnt : n ∉ (t.mapNames (liftMap s.image)).typeNames) :
    SystemF (⟨x, .tyVar⟩ :: Δ) (t.mapNames (liftMap s.image))
      (p.judgment.ty.mapNames (bindMap s.image n Γ.length)) := by
  obtain ⟨hkinds, hequal⟩ := hmatch
  have hcontext : p.judgment.context.kinds = .type :: Γ.kinds := by
    rw [heq, Context.kinds_cons, hkinds.kinds_eq]
    rfl
  have hmaps := (Context.maps_of_equalUnder hs hΓ hΔ hkinds hequal).cons_bindMap hnΔ
    Γ.length y x
  have hterm' : p.judgment.term.FormedIn (.type :: Γ.kinds) := hcontext ▸ hp.judgment.term
  have herase := (Term.alphaEq_iff_erase hterm'.wellScoped ht.wellScoped).mp hterm
  have hformed := formedIn_bindMap (n := n) hs.image
  rw [Context.length_kinds] at hformed
  refine hp.systemF (hcontext ▸ hformed) (heq ▸ hmaps) (fun b hb => ?_) ?_
  · have hb' : b.2.FormedIn (.type :: Γ.kinds) := hcontext ▸ hp.subst b hb
    have hopen := (hholds b hb).bindMap n Γ.length
    rw [Unifies, Ty.mapNames_openWith_shift (bindMap_self hn) (by simpa using hb'.wellScoped)] at hopen
    exact hopen
  · rw [Term.erase_mapNames_eq herase, Term.mapNames_bindMap hnt]

theorem systemF_tyAbs {p : Premise} {t : Term} {y z n : String} {Γ' : Context} {a : Ty}
    (hp : p.Sound) (heq : p.judgment.context = ⟨y, .tyVar⟩ :: Γ') (ht : t.FormedIn (.type :: Γ.kinds))
    (hmatch : Context.SameKinds Γ' Γ ∧ Context.EqualUnder s.image Γ' Γ)
    (hterm : p.judgment.term.alphaEq t = true) (hn : s.image n = .name n) (hnΔ : n ∉ Δ.freeNames)
    (hholds : ∀ b ∈ p.subst, Unifies s.image (.name b.1) (b.2.openWith n))
    (ha : a.FormedIn (.type :: Γ.kinds)) (hall : Unifies s.image ty (.all z a))
    (hbody : Unifies s.image (a.openWith n) (p.judgment.ty.openWith n))
    (hnt : n ∉ ((Term.tyAbs pos x t).mapNames s.image).typeNames)
    (hnty : n ∉ (ty.mapNames s.image).freeNames) :
    SystemF Δ ((Term.tyAbs pos x t).mapNames s.image) (ty.mapNames s.image) := by
  have hlift : (Term.tyAbs pos x t).mapNames s.image = .tyAbs pos x (t.mapNames (liftMap s.image)) := by
    rw [← Term.mapNamesAt_one_eq]
    rfl
  rw [hlift] at hnt ⊢
  have hpremise := systemF_of_opened hs hΓ hΔ hp heq ht hmatch hterm hn hnΔ hholds hnt (x := x)
  refine .alpha ?_ (.tyAbs hpremise)
  have hb : p.judgment.ty.FormedIn (.type :: Γ.kinds) := by
    have hformed := hp.judgment.ty
    rwa [heq, Context.kinds_cons, hmatch.1.kinds_eq] at hformed
  have hbodies := hbody.bindMap n Γ.length
  rw [Unifies, Ty.mapNames_openWith_shift (bindMap_self hn) (by simpa using ha.wellScoped),
    Ty.mapNames_openWith_shift (bindMap_self hn) (by simpa using hb.wellScoped)] at hbodies
  -- the new name is not in the type of the conclusion, so it is not in its body
  have hna : n ∉ (a.mapNames (liftMap s.image)).freeNames := by
    rwa [← Ty.freeNames_erase, hall, Ty.freeNames_erase, Ty.mapNames_all_eq] at hnty
  rw [hall, Ty.mapNames_all_eq, ← Ty.mapNames_bindMap Γ.length hna, Ty.erase, Ty.erase,
    hbodies]

theorem systemF_abs {p : Premise} {a' a : Ty} {t : Term} {y : String} {Γ' : Context} (hp : p.Sound)
    (heq : p.judgment.context = ⟨y, .var a⟩ :: Γ')
    (ht : (Term.abs pos x (some a') t).FormedIn Γ.kinds)
    (hmatch : Context.SameKinds Γ' Γ ∧ Context.EqualUnder s.image Γ' Γ)
    (hterm : p.judgment.term.alphaEq t = true) (hholds : p.subst.Holds (liftMap s.image))
    (ha : Unifies s.image a' a) (hty : Unifies s.image ty (.arr a (p.judgment.ty.shift (-1)))) :
    SystemF Δ ((Term.abs pos x (some a') t).mapNames s.image) (ty.mapNames s.image) := by
  have hlift : (Term.abs pos x (some a') t).mapNames s.image =
      .abs pos x (some (a'.mapNames s.image)) (t.mapNames (liftMap s.image)) := by
    rw [← Term.mapNamesAt_one_eq]
    rfl
  have hkinds := (Context.apply_spec hs hΓ hΔ).1
  have hbody := systemF_of_extended hs hΓ hΔ hp heq ht.2 hmatch hterm hholds ha.symm (x := x)
  rw [hlift]
  refine .alpha ?_ (.abs ?_ hbody)
  · rw [hty, Ty.mapNames_arr, Ty.erase, Ty.erase, ha]
  · rw [hkinds]
    exact (ht.1 a' rfl).mapNames hs.image

theorem systemF_letIn {p q : Premise} {e t : Term} {a : Ty} {y : String} {Γ' : Context}
    (hp : p.Sound) (hq : q.Sound) (heq : q.judgment.context = ⟨y, .var a⟩ :: Γ')
    (ht : (Term.letIn pos x e t).FormedIn Γ.kinds)
    (hmatchp : PremisesMatch s.image Γ [p] [e]) (hholdsp : p.subst.Holds s.image)
    (hmatch : Context.SameKinds Γ' Γ ∧ Context.EqualUnder s.image Γ' Γ)
    (hterm : q.judgment.term.alphaEq t = true) (hholds : q.subst.Holds (liftMap s.image))
    (ha : Unifies s.image a p.judgment.ty) (hty : Unifies s.image ty (q.judgment.ty.shift (-1))) :
    SystemF Δ ((Term.letIn pos x e t).mapNames s.image) (ty.mapNames s.image) := by
  have hlift : (Term.letIn pos x e t).mapNames s.image =
      .letIn pos x (e.mapNames s.image) (t.mapNames (liftMap s.image)) := by
    rw [← Term.mapNamesAt_one_eq]
    rfl
  have hdef := systemF_of_match hs hΓ hΔ hp ht.1 hmatchp.1 hholdsp
  have hbody := systemF_of_extended hs hΓ hΔ hq heq ht.2 hmatch hterm hholds ha (x := x)
  rw [hlift]
  exact .alpha hty.symm (.letIn hdef hbody)

theorem systemF_app {p q : Premise} {t u : Term} (hps : ∀ r ∈ [p, q], r.Sound)
    (ht : (Term.app pos t u).FormedIn Γ.kinds) (hmatch : PremisesMatch s.image Γ [p, q] [t, u])
    (hholds : ∀ r ∈ [p, q], r.subst.Holds s.image)
    (hty : Unifies s.image p.judgment.ty (.arr q.judgment.ty ty)) :
    SystemF Δ ((Term.app pos t u).mapNames s.image) (ty.mapNames s.image) := by
  have hfun := systemF_of_match hs hΓ hΔ (hps p (by simp)) ht.1 hmatch.1 (hholds p (by simp))
  have harg := systemF_of_match hs hΓ hΔ (hps q (by simp)) ht.2 hmatch.2.1 (hholds q (by simp))
  exact .app (.alpha hty hfun) harg

theorem systemF_ite {p q r : Premise} {i t e : Term} (hps : ∀ u ∈ [p, q, r], u.Sound)
    (ht : (Term.ite pos i t e).FormedIn Γ.kinds)
    (hmatch : PremisesMatch s.image Γ [p, q, r] [i, t, e])
    (hholds : ∀ u ∈ [p, q, r], u.subst.Holds s.image) (hcond : Unifies s.image p.judgment.ty .bool)
    (hthen : Unifies s.image q.judgment.ty ty) (helse : Unifies s.image r.judgment.ty ty) :
    SystemF Δ ((Term.ite pos i t e).mapNames s.image) (ty.mapNames s.image) := by
  have hi := systemF_of_match hs hΓ hΔ (hps p (by simp)) ht.1 hmatch.1 (hholds p (by simp))
  have ht' := systemF_of_match hs hΓ hΔ (hps q (by simp)) ht.2.1 hmatch.2.1 (hholds q (by simp))
  have he := systemF_of_match hs hΓ hΔ (hps r (by simp)) ht.2.2 hmatch.2.2.1 (hholds r (by simp))
  exact .ite (.alpha hcond hi) (.alpha hthen ht') (.alpha helse he)

theorem systemF_tyApp {p : Premise} {t : Term} {arg a : Ty} {y : String} (hp : p.Sound)
    (ht : (Term.tyApp pos t arg).FormedIn Γ.kinds) (hmatch : PremisesMatch s.image Γ [p] [t])
    (hholds : p.subst.Holds s.image) (hall : Unifies s.image p.judgment.ty (.all y a))
    (hty : Unifies s.image (a.substTop arg) ty) :
    SystemF Δ ((Term.tyApp pos t arg).mapNames s.image) (ty.mapNames s.image) := by
  have hkinds := (Context.apply_spec hs hΓ hΔ).1
  have hpoly := systemF_of_match hs hΓ hΔ hp ht.1 hmatch.1 hholds
  have harg : (arg.mapNames s.image).FormedIn Δ.kinds := hkinds ▸ ht.2.mapNames hs.image
  refine .alpha ?_ (.tyApp harg (.alpha hall hpoly))
  rw [← hty, Ty.substTop_eq_fillAt, Ty.substTop_eq_fillAt, Ty.mapNames, Ty.mapNamesAt_fillAt]
  rfl

end Rules

theorem admissible_nil (c : Conclusion) (σ : NameSupply) : c.Admissible ⟨σ, []⟩ where
  formed := fun b hb => by simp at hb
  solved := trivial
  applies := ⟨_, c.context.apply_nil⟩

theorem Reaches.derivableUnder {P : (String → Ty) → Prop} {Γ : Context} {k k' : Solution} {t : Term}
    {ty : Ty} (h : Reaches ⟨.systemF, Γ⟩ k P k')
    (hderiv : ∀ Δ, k'.subst.FormedIn Γ.kinds → Γ.apply k'.subst = .ok Δ → P k'.subst.image →
      SystemF Δ (t.mapNames k'.subst.image) (ty.mapNames k'.subst.image)) :
    k'.subst.FormedIn Γ.kinds ∧ Judgment.DerivableUnder ⟨Γ, t, ty⟩ k'.subst := by
  obtain ⟨Δ, hΔ⟩ := h.admissible.applies
  have hsystemF := hderiv Δ h.admissible.formed hΔ h.holds
  rw [← Subst.apply_eq_mapNames] at hsystemF
  exact ⟨h.admissible.formed, Δ, hΔ, hsystemF⟩

section Nodes

variable {Γ : Context} {σ : NameSupply} {k : Solution} {pos : Text.Position} {x : String} {ty : Ty}

theorem derivableUnder_checkVar {i n : Nat} (hj : Judgment.Formed ⟨Γ, .var pos i n, ty⟩)
    (h : checkVar ⟨.systemF, Γ⟩ i ty ⟨σ, []⟩ = .ok k) :
    k.subst.FormedIn Γ.kinds ∧ Judgment.DerivableUnder ⟨Γ, .var pos i n, ty⟩ k.subst := by
  have hreach := yields_checkVar rfl (admissible_nil _ σ) hj.context hj.ty k h
  refine hreach.derivableUnder fun Δ hs hΔ ⟨a, ha, hunifies⟩ => ?_
  have hget := (Context.apply_spec hs hj.context hΔ).2 i
  rw [ha, Option.map_some, Subst.apply_eq_mapNames] at hget
  exact .alpha hunifies (.var hget)

theorem derivableUnder_checkConst {b : Bool} (hj : Judgment.Formed ⟨Γ, .const pos b, ty⟩)
    (h : unify ⟨.systemF, Γ⟩ ty .bool ⟨σ, []⟩ = .ok k) :
    k.subst.FormedIn Γ.kinds ∧ Judgment.DerivableUnder ⟨Γ, .const pos b, ty⟩ k.subst := by
  have hreach := yields_unify rfl (admissible_nil _ σ) (b := .bool) hj.ty trivial k h
  exact hreach.derivableUnder fun Δ hs hΔ hunifies => .alpha hunifies.symm .const

theorem derivableUnder_checkAbs {a' : Ty} {t : Term} {p : Premise}
    (hj : Judgment.Formed ⟨Γ, .abs pos x (some a') t, ty⟩) (hp : p.Sound)
    (h : checkAbs ⟨.systemF, Γ⟩ (some a') t ty p ⟨σ, []⟩ = .ok k) :
    k.subst.FormedIn Γ.kinds ∧ Judgment.DerivableUnder ⟨Γ, .abs pos x (some a') t, ty⟩ k.subst := by
  obtain ⟨y, a, Γ', heq⟩ : ∃ y a Γ', p.judgment.context = ⟨y, .var a⟩ :: Γ' := by
    by_contra hnone
    obtain ⟨e, he⟩ := checkAbs_eq_error (c := ⟨.systemF, Γ⟩) (k := ⟨σ, []⟩) (some a') t ty
      fun y a Γ' heq => hnone ⟨y, a, Γ', heq⟩
    rw [he] at h
    cases h
  have hreach := yields_checkAbs rfl (admissible_nil _ σ) hj.context heq hp.toFormed
    (hj.term.1 a' rfl) hj.ty k h
  refine hreach.derivableUnder fun Δ hs hΔ ⟨hmatch, hbody, hsubst, ha, hunifies⟩ => ?_
  exact systemF_abs hs hj.context hΔ hp heq hj.term hmatch hbody hsubst ha hunifies

theorem derivableUnder_checkLet {e t : Term} {p q : Premise}
    (hj : Judgment.Formed ⟨Γ, .letIn pos x e t, ty⟩) (hp : p.Sound) (hq : q.Sound)
    (h : checkLet ⟨.systemF, Γ⟩ e t ty p q ⟨σ, []⟩ = .ok k) :
    k.subst.FormedIn Γ.kinds ∧ Judgment.DerivableUnder ⟨Γ, .letIn pos x e t, ty⟩ k.subst := by
  obtain ⟨y, a, Γ', heq⟩ : ∃ y a Γ', q.judgment.context = ⟨y, .var a⟩ :: Γ' := by
    by_contra hnone
    obtain ⟨err, he⟩ := checkLet_eq_error (c := ⟨.systemF, Γ⟩) (k := ⟨σ, []⟩) e t ty p
      fun y a Γ' heq => hnone ⟨y, a, Γ', heq⟩
    rw [he] at h
    cases h
  have hreach := yields_checkLet rfl (admissible_nil _ σ) hj.context heq hp.toFormed hq.toFormed
    hj.ty k h
  refine hreach.derivableUnder
    fun Δ hs hΔ ⟨hmatchp, hmatch, hbody, hsubstp, hsubst, ha, hunifies⟩ => ?_
  exact systemF_letIn hs hj.context hΔ hp hq heq hj.term hmatchp hsubstp hmatch hbody hsubst ha
    hunifies

/-- The new name has to be in neither the term nor the type of the conclusion. -/
theorem derivableUnder_checkTyAbs {t : Term} {p : Premise}
    (hj : Judgment.Formed ⟨Γ, .tyAbs pos x t, ty⟩) (hp : p.Sound)
    (h : checkTyAbs ⟨.systemF, Γ⟩ x t ty p ⟨σ, []⟩ = .ok k)
    (hnew : ∀ n ∉ σ.used, n ∉ ((Term.tyAbs pos x t).mapNames k.subst.image).typeNames ∧
      n ∉ (k.subst.apply ty).freeNames) :
    k.subst.FormedIn Γ.kinds ∧ Judgment.DerivableUnder ⟨Γ, .tyAbs pos x t, ty⟩ k.subst := by
  obtain ⟨y, Γ', heq⟩ : ∃ y Γ', p.judgment.context = ⟨y, .tyVar⟩ :: Γ' := by
    by_contra hnone
    obtain ⟨e, he⟩ := checkTyAbs_eq_error (c := ⟨.systemF, Γ⟩) (k := ⟨σ, []⟩) x t ty
      fun y Γ' heq => hnone ⟨y, Γ', heq⟩
    rw [he] at h
    cases h
  obtain ⟨n, hn, hs, hrigid, ⟨Δ, hΔ, hnΔ⟩, hmatch, ⟨hbody, hsubst⟩, z, a, ha, hall, hbodies⟩ :=
    reachesRigid_checkTyAbs rfl (admissible_nil _ σ) hj.context heq hp.toFormed hj.ty h
  obtain ⟨hnt, hnty⟩ := hnew n hn
  refine ⟨hs, Δ, hΔ, ?_⟩
  rw [Subst.apply_eq_mapNames] at hnty ⊢
  exact systemF_tyAbs hs hj.context hΔ hp heq hj.term hmatch hbody hrigid hnΔ hsubst ha hall hbodies
    hnt hnty

/-- One node: if the premises are derivable under their substitutions, so is the conclusion. -/
theorem derivableUnder_of_check {t : Term} {r : Rule} {ps : List Premise}
    (hj : Judgment.Formed ⟨Γ, t, ty⟩) (hterm : Calculus.systemF.admitsTerm t = .ok ())
    (hps : ∀ p ∈ ps, p.Sound) (hcheck : check ⟨.systemF, Γ⟩ r t ty ps ⟨σ, []⟩ = .ok k)
    (hnew : r = .tyAbs → ∀ n ∉ σ.used,
      n ∉ (t.mapNames k.subst.image).typeNames ∧ n ∉ (k.subst.apply ty).freeNames) :
    k.subst.FormedIn Γ.kinds ∧ Judgment.DerivableUnder ⟨Γ, t, ty⟩ k.subst := by
  have hformed : ∀ p ∈ ps, p.Formed := fun p hp => (hps p hp).toFormed
  have hk := admissible_nil ⟨.systemF, Γ⟩ σ
  unfold check at hcheck
  split at hcheck
  · exact derivableUnder_checkVar hj hcheck
  · rename_i annot body p
    cases annot with
    | none => cases hterm
    | some a => exact derivableUnder_checkAbs hj (hps p (by simp)) hcheck
  · refine (yields_checkApp rfl hk hj.context hformed hj.ty k hcheck).derivableUnder
      fun Δ hs hΔ ⟨hmatch, hsubsts, hunifies⟩ => ?_
    exact systemF_app hs hj.context hΔ hps hj.term hmatch hsubsts hunifies
  · refine (yields_checkIte rfl hk hj.context hformed hj.ty k hcheck).derivableUnder
      fun Δ hs hΔ ⟨hmatch, hsubsts, hcond, hthen, helse⟩ => ?_
    exact systemF_ite hs hj.context hΔ hps hj.term hmatch hsubsts hcond hthen helse
  · rename_i p
    exact derivableUnder_checkTyAbs hj (hps p (by simp)) hcheck (hnew rfl)
  · rename_i p
    refine (yields_checkTyApp rfl hk hj.context (hformed p (by simp)) hj.term.2 hj.ty k
      hcheck).derivableUnder fun Δ hs hΔ ⟨hmatch, hsubsts, y, a, hall, hunifies⟩ => ?_
    exact systemF_tyApp hs hj.context hΔ (hps p (by simp)) hj.term hmatch (hsubsts p (by simp)) hall
      hunifies
  · rename_i p q
    exact derivableUnder_checkLet hj (hps p (by simp)) (hps q (by simp)) hcheck
  · exact derivableUnder_checkConst hj hcheck
  · exact derivableUnder_checkConst hj hcheck
  · cases hcheck

end Nodes

end Conclusion

namespace RuleTree

/-- Under its substitution the judgment of the root has no names but those that its judgment, the
premises and their substitutions had before, if the root is a type abstraction. So the new name for
the type variable is gone. -/
def KeepsTypeVariable (n : RuleTree) : Prop :=
  ∀ j ps s, n.rule = .tyAbs → n.judgment? = some j →
    (n.children.map fun c => (c.check .systemF).asPremise) =
      ps.map (fun p => (some p.judgment, p.subst)) →
    (n.check .systemF).outcome = .ok s →
    ∀ x ∈ (j.term.mapNames s.image).typeNames ++ (s.apply j.ty).freeNames, x ∈ namesInUse j ps

theorem sound_of_isValid {t : RuleTree} {p : Premise} (hj : t.judgment? = some p.judgment)
    (hvalid : (t.check .systemF).isValid = true) (hs : (t.check .systemF).outcome = .ok p.subst)
    (hkeeps : ∀ n, t.HasNode n → n.KeepsTypeVariable) : p.Sound := by
  induction t using RuleTree.induction generalizing p with
  | node t ih =>
    obtain ⟨hroot, hbelow⟩ := forall_hasNode_iff.mp hkeeps
    obtain ⟨j, hj', hadmitted, hrule, hchildren⟩ := isValid_check_iff.mp ⟨hvalid, hs⟩
    obtain rfl : p.judgment = j := Option.some.inj (hj.symm.trans hj')
    obtain ⟨-, -, ps, hps, σ, hcheck⟩ := checkRule_eq_ok_iff.mp hrule
    have hpremises : ∀ q ∈ ps, q.Sound := by
      intro q hq
      obtain ⟨c, hc, hjc, hsc⟩ := exists_child_of_mem hchildren hps hq
      exact ih c hc hjc (hchildren c hc) hsc (hbelow c hc)
    have hformed := formed_of_judgment? hj
    have hnew : t.rule = .tyAbs → ∀ n ∉ (NameSupply.avoiding (namesInUse p.judgment ps)).used,
        n ∉ (p.judgment.term.mapNames p.subst.image).typeNames ∧
          n ∉ (p.subst.apply p.judgment.ty).freeNames := by
      intro hr n hn
      rw [NameSupply.mem_used_avoiding] at hn
      have hnames := hroot p.judgment ps p.subst hr hj hps hs n
      rw [List.mem_append] at hnames
      exact not_or.mp fun h => hn (hnames h)
    obtain ⟨hsubst, hderivable⟩ := Conclusion.derivableUnder_of_check hformed hadmitted.term
      hpremises hcheck hnew
    exact ⟨⟨hformed, hsubst⟩, hderivable⟩

/-- Soundness: the judgment of the root of a valid tree is derivable under the substitution of the
root, if the type variables of type abstractions are kept. -/
theorem derivableUnder_of_isValid {t : RuleTree} (hvalid : (t.check .systemF).isValid = true)
    (hkeeps : ∀ n, t.HasNode n → n.KeepsTypeVariable) :
    ∃ j s, t.judgment? = some j ∧ (t.check .systemF).outcome = .ok s ∧ j.DerivableUnder s := by
  obtain ⟨p, hj, hs, -⟩ := exists_asPremise hvalid
  exact ⟨p.judgment, p.subst, hj, hs, (sound_of_isValid hj hvalid hs hkeeps).derivable⟩

theorem keepsTypeVariable_of_rule_ne {n : RuleTree} (h : n.rule ≠ .tyAbs) : n.KeepsTypeVariable :=
  fun _ _ _ hr => absurd hr h

/-- A node that binds no name keeps its type variable. -/
theorem keepsTypeVariable_of_outcome_eq_nil {n : RuleTree}
    (h : (n.check .systemF).outcome = .ok []) : n.KeepsTypeVariable := by
  intro j ps s _ _ _ hs x hx
  obtain rfl : [] = s := Except.ok.inj (h.symm.trans hs)
  rw [Subst.image_nil, Term.mapNames_id] at hx
  refine List.mem_append_right _ ?_
  simp only [Judgment.freeNames, List.mem_append] at hx ⊢
  exact hx.elim (fun ht => .inl (.inr ht)) .inr

/-- The polymorphic identity at `Bool`, with a name for the type of the application. -/
def polymorphicIdentity : RuleTree :=
  ⟨"", "(ΛX. λx: X. x) [Bool]", "M", .tyApp,
    [⟨"", "ΛX. λx: X. x", "∀X. X → X", .tyAbs,
      [⟨"X", "λx: X. x", "X → X", .abs, [⟨"X, x: X", "x", "X", .var, []⟩]⟩]⟩]⟩

theorem derivableUnder_of_isValid_polymorphicIdentity :
    (polymorphicIdentity.check .systemF).isValid = true ∧
      (∀ n, polymorphicIdentity.HasNode n → n.KeepsTypeVariable) ∧
      ∃ j s, polymorphicIdentity.judgment? = some j ∧
        (polymorphicIdentity.check .systemF).outcome = .ok s ∧ j.DerivableUnder s := by
  have hvalid : (polymorphicIdentity.check .systemF).isValid = true := by decide +kernel
  have hkeeps : ∀ n, polymorphicIdentity.HasNode n → n.KeepsTypeVariable := by
    refine forall_hasNode_iff.mpr ⟨keepsTypeVariable_of_rule_ne (by decide), ?_⟩
    refine List.forall_mem_singleton.mpr (forall_hasNode_iff.mpr ⟨?_, ?_⟩)
    · exact keepsTypeVariable_of_outcome_eq_nil (by decide +kernel)
    refine List.forall_mem_singleton.mpr
      (forall_hasNode_iff.mpr ⟨keepsTypeVariable_of_rule_ne (by decide), ?_⟩)
    exact List.forall_mem_singleton.mpr
      (forall_hasNode_iff.mpr ⟨keepsTypeVariable_of_rule_ne (by decide), by simp⟩)
  exact ⟨hvalid, hkeeps, derivableUnder_of_isValid hvalid hkeeps⟩

/-- A name for the result type of the identity, which only the premise knows to be the bound
variable. -/
def escapingVariable : RuleTree :=
  ⟨"", "(ΛX. λx: X. x) [Bool]", "Bool → Bool → Bool", .tyApp,
    [⟨"", "ΛX. λx: X. x", "∀X. X → M", .tyAbs,
      [⟨"X", "λx: X. x", "X → M", .abs, [⟨"X, x: X", "x", "M", .var, []⟩]⟩]⟩]⟩

/-- The term of `escapingVariable`, without positions. -/
def identityAtBool : Term :=
  .tyApp default (.tyAbs default "X" (.abs default "x" (some (.var 0 1)) (.var default 0 2))) .bool

theorem systemF_identityAtBool : SystemF [] identityAtBool (.arr .bool .bool) := by
  have hbody : SystemF [⟨"X", .tyVar⟩] (.abs default "x" (some (.var 0 1)) (.var default 0 2))
      (.arr (.var 0 1) (.var 0 1)) := .abs ⟨rfl, rfl⟩ (.var rfl)
  exact .tyApp (s := .bool) trivial (.tyAbs hbody)

/-- A valid tree whose judgment is not derivable: the name that stands for the bound variable
escapes through the type of the abstraction. -/
theorem not_derivableUnder_escapingVariable :
    (escapingVariable.check .systemF).isValid = true ∧
      ∃ j s, escapingVariable.judgment? = some j ∧
        (escapingVariable.check .systemF).outcome = .ok s ∧ ¬ j.DerivableUnder s := by
  have hvalid : (escapingVariable.check .systemF).isValid = true := by decide +kernel
  have hread : (escapingVariable.judgment?.map fun j => (j.context, j.term.erase, j.ty)) =
      some ([], identityAtBool.erase, .arr .bool (.arr .bool .bool)) := by decide +kernel
  obtain ⟨⟨⟨Γ, t, ty⟩, s⟩, hj, hs, -⟩ := exists_asPremise hvalid
  refine ⟨hvalid, _, s, hj, hs, ?_⟩
  obtain ⟨rfl, ht, rfl⟩ : Γ = [] ∧ t.erase = identityAtBool.erase ∧
      ty = .arr .bool (.arr .bool .bool) := by simpa [hj] using hread
  rintro ⟨Δ, hΔ, hderiv⟩
  obtain rfl : [] = Δ := Except.ok.inj hΔ
  have hterm : (t.mapNames s.image).erase = identityAtBool.erase := Term.erase_mapNames_eq ht s.image
  have hsame := hderiv.map (θ := Ty.name) (fun _ => trivial) (.refl []) (u := identityAtBool)
    (by rw [Term.mapNames_id, hterm])
  have hunique := hsame.unique systemF_identityAtBool
  simp [Ty.erase] at hunique

end RuleTree

end LambdaTyping
