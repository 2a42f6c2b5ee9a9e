import Mathlib
import LambdaTyping.Proofs.ImplicitSystemF
import LambdaTyping.Proofs.SolvedRuns

/-!
# Soundness of inference for System F

Under every map that satisfies the bindings of a run, the term has the type of the
run. Unification opens quantifiers wherever they meet another type, so this is a
matter of the transparent policy, for which types agree if quantified variables are
replaced by types as needed.

Where names are abstracted over, the map is arbitrary on these names. That the term is
still the same term then, and that the type is still its type, is what settled
abstractions are for.
-/
namespace LambdaTyping

open Text (Position)

theorem Ty.mapNames_substTop (θ : String → Ty) (a s : Ty) :
    (a.substTop s).mapNames θ = (a.mapNames (liftMap θ)).substTop (s.mapNames θ) := by
  rw [substTop_eq_fillAt, substTop_eq_fillAt, mapNames, mapNamesAt_fillAt, Nat.zero_add,
    mapNamesAt_one_eq]

theorem Ty.mapNames_openWith_eq (θ : String → Ty) (x : String) (a : Ty) :
    (a.openWith x).mapNames θ = (a.mapNames (liftMap θ)).substTop (θ x) := by
  rw [openWith, mapNames_substTop, mapNames_name]

namespace Unify.Answers

variable {ks : List Kind} {a b c : Ty} {σ σ' : NameSupply} {s : Subst} {θ : String → Ty}
  (hθ : ∀ x, (θ x).FormedIn ks)

include hθ

/-- Under a map that satisfies the bindings of the answer, the types agree. -/
theorem agrees (h : Answers a b σ s σ') (ha : a.KnownIn ks σ) (hb : b.KnownIn ks σ)
    (hs : s.Holds θ) : (a.mapNames θ).Agrees ks (b.mapNames θ) := by
  have hlike : ∀ {x : String} {σ : NameSupply}, ∀ y ∈ σ.used, y ∈ (σ.like x).2.used :=
    fun y hy => NameSupply.mem_used_like.mpr (.inr hy)
  induction h with
  | name | bool => exact .same rfl
  | @var i n j m σ hlevel =>
    obtain ⟨rfl, hi⟩ := ha.formed.wellScoped
    obtain ⟨rfl, hj⟩ := hb.formed.wellScoped
    obtain rfl : i = j := by simp only [level] at hlevel; omega
    exact .same rfl
  | bindLeft => exact .same (hs _ List.mem_cons_self)
  | bindRight => exact .same (hs _ List.mem_cons_self).symm
  | arr h₁ _ ih₁ ih₂ =>
    obtain ⟨ha₁, hb₁⟩ := Ty.KnownIn.arr_iff.mp ha
    obtain ⟨ha₂, hb₂⟩ := Ty.KnownIn.arr_iff.mp hb
    obtain ⟨hs₂, hs₁⟩ := Subst.holds_append.mp hs
    have hknown := h₁.knownIn ha₁ ha₂
    have hcodomain := ih₂ (hknown.apply (hb₁.mono h₁.used)) (hknown.apply (hb₂.mono h₁.used)) hs₂
    exact .arr (ih₁ ha₁ ha₂ hs₁)
      (hcodomain.of_erase_eq (hs₁.erase_apply _) (hs₁.erase_apply _))
  | @openLeft x a b σ σ' s _ _ ih =>
    have hopened := ih ha.openLike (hb.mono hlike) hs
    rw [Ty.mapNames_openWith_eq] at hopened
    rw [Ty.mapNames_all_eq]
    exact .left (hθ _) hopened
  | @openRight x a b σ σ' s _ _ ih =>
    have hopened := ih (ha.mono hlike) hb.openLike hs
    rw [Ty.mapNames_openWith_eq] at hopened
    rw [Ty.mapNames_all_eq]
    exact .right (hθ _) hopened

theorem opens_bool (h : Answers c .bool σ s σ') (hs : s.Holds θ) :
    (c.mapNames θ).Instantiates ks .bool := by
  generalize hb : Ty.bool = b at h
  induction h with
  | bool => exact .refl
  | @bindLeft x b σ hx =>
    subst hb
    have hbool := hs _ List.mem_cons_self
    rw [Unifies, Ty.mapNames_name] at hbool
    rw [Ty.mapNames_name]
    cases hx : θ x with
    | bool => exact .refl
    | _ => simp [hx, Ty.erase] at hbool
  | @openLeft x a b σ σ' s _ _ ih =>
    subst hb
    have hopened := ih hs rfl
    rw [Ty.mapNames_openWith_eq] at hopened
    rw [Ty.mapNames_all_eq]
    exact .all (hθ _) hopened
  | _ => cases hb

omit hθ in
theorem unifies_name_right {r : String} (h : Answers a (.name r) σ s σ') (hs : s.Holds θ) :
    Unifies θ a (.name r) := by
  generalize hb : Ty.name r = b at h
  cases h with
  | name => rfl
  | bindLeft => exact hs _ List.mem_cons_self
  | @bindRight a y σ hy => exact (hs _ List.mem_cons_self).symm
  | openLeft hb' => exact absurd hb.symm (hb' r)
  | _ => cases hb

/-- What is unified with an arrow to a new name is an instance of an arrow; only the domains are
opened further. -/
theorem opens_arr {r : String} (h : Answers c (.arr b (.name r)) σ s σ') (hc : c.KnownIn ks σ)
    (hb : b.KnownIn ks σ) (hr : r ∈ σ.used) (hrc : r ∉ c.freeNames) (hrb : r ∉ b.freeNames)
    (hs : s.Holds θ) : ∃ a' b', (c.mapNames θ).Instantiates ks (.arr a' b') ∧
      a'.Agrees ks (b.mapNames θ) ∧ b'.erase = (θ r).erase := by
  generalize hd : Ty.arr b (.name r) = d at h
  induction h with
  | @bindLeft x d σ hx =>
    subst hd
    have hbind := hs _ List.mem_cons_self
    rw [Unifies, Ty.mapNames_name, Ty.mapNames_arr, Ty.mapNames_name] at hbind
    obtain ⟨a', b', heq, ha', hb'⟩ := Ty.exists_of_erase_eq_arr hbind.symm
    rw [Ty.mapNames_name]
    exact ⟨a', b', heq ▸ .refl, .same ha'.symm, hb'.symm⟩
  | @arr a₁ b₁ a₂ b₂ σ σ₁ σ₂ s₁ s₂ h₁ h₂ =>
    cases hd
    simp only [Ty.freeNames, List.mem_append, not_or] at hrc
    obtain ⟨ha₁, -⟩ := Ty.KnownIn.arr_iff.mp hc
    obtain ⟨hs₂, hs₁⟩ := Subst.holds_append.mp hs
    -- the unifier of the domains does not touch the new name
    have hname : s₁.apply (.name r) = .name r := by
      refine Subst.image_of_notMem_domain fun hmem => ?_
      exact h₁.notMem_freeNames hr hrc.1 hrb (Subst.mem_freeNames_of_mem_domain hmem)
    rw [hname] at h₂
    have hcodomain := (hs₁.erase_apply b₁).symm.trans (h₂.unifies_name_right hs₂)
    rw [Ty.mapNames_name] at hcodomain
    exact ⟨a₁.mapNames θ, b₁.mapNames θ, .refl, h₁.agrees hθ ha₁ hb hs₁, hcodomain⟩
  | @openLeft x a d σ σ' s _ _ ih =>
    subst hd
    have hlike : ∀ y ∈ σ.used, y ∈ (σ.like x).2.used := fun y hy =>
      NameSupply.mem_used_like.mpr (.inr hy)
    obtain ⟨a', b', hinst, ha', hb'⟩ := ih hc.openLike (hb.mono hlike) (hlike r hr)
      (NameSupply.notMem_openLike hr hrc) hs rfl
    rw [Ty.mapNames_openWith_eq] at hinst
    rw [Ty.mapNames_all_eq]
    exact ⟨a', b', .all (hθ _) hinst, ha', hb'⟩
  | _ => cases hd

end Unify.Answers

/-- The map takes names to types that are formed in the context, and `Δ` is a formed context with
the types of `Γ` under it. -/
structure Context.Image (θ : String → Ty) (Γ Δ : Context) : Prop extends Context.Maps θ Γ Δ where
  names : ∀ x, (θ x).FormedIn Γ.kinds
  formed : Δ.Formed

namespace Context.Image

variable {θ η : String → Ty} {Γ Γ₁ Δ : Context} {s : Subst}

theorem congr (h : Γ.Image θ Δ) (hη : ∀ x, (η x).FormedIn Γ.kinds)
    (heq : ∀ x ∈ Γ.freeNames, η x = θ x) : Γ.Image η Δ := by
  refine ⟨⟨h.kinds, fun i a ha => ?_⟩, hη, h.formed⟩
  rw [Ty.mapNames_congr fun x hx => heq x (mem_freeNames_of_getType? ha hx)]
  exact h.types i a ha

theorem cons_var (h : Γ.Image θ Δ) (x y : String) {a b : Ty} (ha : a.FormedIn Γ.kinds)
    (hab : (a.mapNames θ).erase = b.erase) :
    Context.Image (liftMap θ) (⟨x, .var a⟩ :: Γ) (⟨y, .var b⟩ :: Δ) :=
  ⟨h.toMaps.cons_var x y hab, formedIn_liftMap h.names .term,
    h.formed.cons_var y (h.kinds ▸ (ha.mapNames h.names).of_erase_eq hab)⟩

section Apply

variable (hΓ : Γ.Formed) (hs : s.FormedIn Γ.kinds) (hΓ₁ : Γ.apply s = .ok Γ₁)

include hΓ hs hΓ₁

theorem of_apply (h : Γ.Image θ Δ) (hθ : s.Holds θ) : Γ₁.Image θ Δ := by
  have hkinds := (Context.apply_spec hs hΓ hΓ₁).1
  exact ⟨h.toMaps.of_apply hs hΓ hΓ₁ hθ, hkinds ▸ h.names, h.formed⟩

/-- The substitution and then the map. -/
theorem comp_image (h : Γ₁.Image η Δ) : Γ.Image (fun x => (s.image x).mapNames η) Δ := by
  obtain ⟨hkinds, hget⟩ := Context.apply_spec hs hΓ hΓ₁
  refine ⟨⟨h.kinds.trans hkinds, fun i a ha => ?_⟩,
    fun x => (hs.image x).mapNames (hkinds ▸ h.names), h.formed⟩
  obtain ⟨b, hb, hab⟩ := h.types i (s.apply a) (by rw [hget, ha]; rfl)
  refine ⟨b, hb, ?_⟩
  rwa [← Ty.mapNames_mapNames, ← Subst.apply_eq_mapNames]

end Apply

end Context.Image

theorem Subst.FormedIn.shift_neg_one {ks : List Kind} {s : Subst} (h : s.FormedIn (.term :: ks)) :
    (s.shift (-1)).shift 1 = s := by
  unfold Subst.shift
  rw [List.map_map]
  refine (List.map_congr_left (g := id) fun b hb => ?_).trans (List.map_id s)
  exact Prod.ext rfl (h b hb).shift_neg_one.2

theorem NameSupply.instantiates_openAll {ks : List Kind} {θ : String → Ty}
    (hθ : ∀ x, (θ x).FormedIn ks) (a : Ty) (σ : NameSupply) :
    (a.mapNames θ).Instantiates ks ((σ.openAll a).1.2.mapNames θ) := by
  induction a, σ using openAll_induction with
  | all x a σ ih =>
    rw [openAll_all, Ty.mapNames_all_eq]
    rw [Ty.mapNames_openWith_eq] at ih
    exact .all (hθ _) ih
  | other a σ h =>
    rw [openAll_of_not_all h]
    exact .refl

namespace Infer

/-- Under every map that satisfies the bindings of the substitution the term has the type. -/
def Justified (Γ : Context) (t : Term) (s : Subst) (a : Ty) : Prop :=
  ∀ (θ : String → Ty) (Δ : Context) (u : Term), Γ.Image θ Δ → s.Holds θ →
    (t.mapNames θ).erase = u.erase → ImplicitF .transparent Δ u (a.mapNames θ)

section Rules

variable {Γ Γ₁ : Context} {p : Position} {x : String} {t u : Term} {s s₁ s₂ s₃ : Subst} {a b : Ty}
  {σ σ' : NameSupply}

/-- The judgment under its own substitution, if the substitution satisfies its bindings. -/
theorem Justified.applied (h : Justified Γ t s a) (hΓ : Γ.Formed) (hs : s.FormedIn Γ.kinds)
    (hΓ₁ : Γ.apply s = .ok Γ₁) (hsolved : s.Holds s.image) {η : String → Ty} {Δ : Context}
    {u : Term} (hΔ : Γ₁.Image η Δ) (hu : ((t.mapNames s.image).mapNames η).erase = u.erase) :
    ImplicitF .transparent Δ u ((s.apply a).mapNames η) := by
  rw [Subst.apply_eq_mapNames, Ty.mapNames_mapNames]
  rw [Term.mapNames_mapNames] at hu
  exact h _ Δ u (hΔ.comp_image hΓ hs hΓ₁) (stable_holds s _ η hsolved) hu

theorem Justified.append (h : Justified Γ t s a) (r : Subst) : Justified Γ t (r ++ s) a :=
  fun θ Δ u hΔ hs hu => h θ Δ u hΔ (Subst.holds_append.mp hs).2 hu

theorem justified_var {i n : Nat} (ha : Γ.getType? i = some a)
    (hb : ∀ θ : String → Ty, (∀ x, (θ x).FormedIn Γ.kinds) →
      (a.mapNames θ).Instantiates Γ.kinds (b.mapNames θ)) : Justified Γ (.var p i n) [] b := by
  intro θ Δ u hΔ _ hu
  cases u with
  | var q j m =>
    obtain ⟨rfl, -⟩ : i = j ∧ n = m := by
      simpa [Term.mapNames, Term.mapNamesAt, Term.erase] using hu
    obtain ⟨a', ha', haa'⟩ := hΔ.types i a ha
    obtain ⟨b', hb', hbb'⟩ := (hb θ hΔ.names).of_erase_eq haa'
    exact .alpha hbb'.symm (.var ha' (hΔ.kinds ▸ hb'))
  | _ => simp [Term.mapNames, Term.mapNamesAt, Term.erase] at hu

theorem justified_const {b : Bool} : Justified Γ (.const p b) [] .bool := by
  intro θ Δ u _ _ hu
  cases u with
  | const q b => exact .const
  | _ => simp [Term.mapNames, Term.mapNamesAt, Term.erase] at hu

/-- A judgment with one more variable, whose type stays in the scope of the context. -/
theorem Justified.body {y : String} {a' : Ty} (h : Justified (⟨x, .var a⟩ :: Γ) t s b)
    (ha : a.FormedIn Γ.kinds) (hs : s.FormedIn (.term :: Γ.kinds))
    (hb : b.FormedIn (.term :: Γ.kinds)) {θ : String → Ty} {Δ : Context} (hΔ : Γ.Image θ Δ)
    (hholds : (s.shift (-1)).Holds θ) (haa' : (a.mapNames θ).erase = a'.erase)
    (hu : (t.mapNames (liftMap θ)).erase = u.erase) :
    ImplicitF .transparent (⟨y, .var a'⟩ :: Δ) u (((b.shift (-1)).mapNames θ).shift 1) := by
  have hlift : s.Holds (liftMap θ) := by
    rw [← hs.shift_neg_one]
    exact Subst.holds_shift_iff.mpr hholds
  have hbody := h (liftMap θ) _ u (hΔ.cons_var x y ha haa') hlift hu
  rwa [← Ty.mapNames_liftMap_shift, hb.shift_neg_one.2]

theorem justified_abs (h : Justified (⟨x, .var a⟩ :: Γ) t s b) (ha : a.FormedIn Γ.kinds)
    (hs : s.FormedIn (.term :: Γ.kinds)) (hb : b.FormedIn (.term :: Γ.kinds)) :
    Justified Γ (.abs p x (some a) t) (s.shift (-1))
      (.arr ((s.shift (-1)).apply a) (b.shift (-1))) := by
  intro θ Δ u hΔ hholds hu
  cases u with
  | abs q y ty u =>
    cases ty with
    | none => simp [Term.mapNames, Term.mapNamesAt, Term.erase] at hu
    | some a' =>
      simp only [Term.mapNames_abs_eq, Term.erase, Option.map_some, Term.abs.injEq, true_and,
        Option.some.injEq] at hu
      obtain ⟨ha', ht⟩ := hu
      have hbody := h.body (y := y) ha hs hb hΔ hholds ha' ht
      refine .alpha ?_ (.abs (hΔ.kinds ▸ (ha.mapNames hΔ.names).of_erase_eq ha') hbody)
      rw [Ty.mapNames_arr, Ty.erase, Ty.erase, hholds.erase_apply, ← ha']
  | _ => simp [Term.mapNames, Term.mapNamesAt, Term.erase] at hu

theorem justified_app {r : String} (ht : Justified Γ t s₁ a) (hu : Justified Γ₁ u s₂ b)
    (hΓ : Γ.Formed) (hs₁ : s₁.FormedIn Γ.kinds) (hΓ₁ : Γ.apply s₁ = .ok Γ₁)
    (ha : (s₂.apply a).KnownIn Γ.kinds σ) (hb : b.KnownIn Γ.kinds σ) (hr : r ∈ σ.used)
    (hra : r ∉ (s₂.apply a).freeNames) (hrb : r ∉ b.freeNames)
    (h : Unify.Answers (s₂.apply a) (.arr b (.name r)) σ s₃ σ') :
    Justified Γ (.app p t u) (s₃ ++ s₂ ++ s₁) (s₃.apply (.name r)) := by
  intro θ Δ v hΔ hholds hv
  obtain ⟨hholds, hs₁θ⟩ := Subst.holds_append.mp hholds
  obtain ⟨hs₃θ, hs₂θ⟩ := Subst.holds_append.mp hholds
  cases v with
  | app q v₁ v₂ =>
    simp only [Term.mapNames, Term.mapNamesAt, Term.erase, Term.app.injEq, true_and] at hv
    have hfun := ht θ Δ v₁ hΔ hs₁θ hv.1
    have harg := hu θ Δ v₂ (hΔ.of_apply hΓ hs₁ hΓ₁ hs₁θ) hs₂θ hv.2
    obtain ⟨a', b', hinst, hagree, hb'⟩ := h.opens_arr hΔ.names ha hb hr hra hrb hs₃θ
    have hfun' := ImplicitF.alpha (hs₂θ.erase_apply a).symm hfun
    refine .alpha ?_ (.app (P := .transparent) hfun' harg (hΔ.kinds ▸ hinst) (hΔ.kinds ▸ hagree))
    rw [hs₃θ.erase_apply, Ty.mapNames_name, hb']
  | _ => simp [Term.mapNames, Term.mapNamesAt, Term.erase] at hv

theorem justified_ite {Γ₂ : Context} {c e : Term} {s₄ s₅ : Subst} {d : Ty} {σ₁ σ₂ : NameSupply}
    (hc : Justified Γ c s₁ a) (ht : Justified Γ₁ t s₃ b) (he : Justified Γ₂ e s₄ d)
    (hΓ : Γ.Formed) (hs₁ : Subst.FormedIn Γ.kinds (s₂ ++ s₁))
    (hs₃ : Subst.FormedIn Γ.kinds (s₃ ++ (s₂ ++ s₁)))
    (hΓ₁ : Γ.apply (s₂ ++ s₁) = .ok Γ₁) (hΓ₂ : Γ.apply (s₃ ++ (s₂ ++ s₁)) = .ok Γ₂)
    (hbool : Unify.Answers a .bool σ s₂ σ₁) (hb : (s₄.apply b).KnownIn Γ.kinds σ₂)
    (hd : d.KnownIn Γ.kinds σ₂) (h : Unify.Answers (s₄.apply b) d σ₂ s₅ σ') :
    Justified Γ (.ite p c t e) (s₅ ++ s₄ ++ (s₃ ++ (s₂ ++ s₁))) (s₅.apply d) := by
  intro θ Δ v hΔ hholds hv
  obtain ⟨hlast, hthenθ⟩ := Subst.holds_append.mp hholds
  obtain ⟨hs₅θ, hs₄θ⟩ := Subst.holds_append.mp hlast
  obtain ⟨hs₃θ, hcondθ⟩ := Subst.holds_append.mp hthenθ
  obtain ⟨hs₂θ, hs₁θ⟩ := Subst.holds_append.mp hcondθ
  cases v with
  | ite q v₁ v₂ v₃ =>
    simp only [Term.mapNames, Term.mapNamesAt, Term.erase, Term.ite.injEq, true_and] at hv
    have hcond := hc θ Δ v₁ hΔ hs₁θ hv.1
    have hthen := ht θ Δ v₂ (hΔ.of_apply hΓ hs₁ hΓ₁ hcondθ) hs₃θ hv.2.1
    have helse := he θ Δ v₃ (hΔ.of_apply hΓ hs₃ hΓ₂ hthenθ) hs₄θ hv.2.2
    have hthen' := ImplicitF.alpha (hs₄θ.erase_apply b).symm hthen
    refine .alpha (hs₅θ.erase_apply d).symm (.ite (P := .transparent) hcond hthen' helse ?_ ?_)
    · exact hΔ.kinds ▸ hbool.opens_bool hΔ.names hs₂θ
    · exact hΔ.kinds ▸ h.agrees hΔ.names hb hd hs₅θ
  | _ => simp [Term.mapNames, Term.mapNamesAt, Term.erase] at hv

theorem justified_tyApp {y : String} {ty : Ty} (h : Justified Γ t s (.all y b))
    (hty : ty.FormedIn Γ.kinds) : Justified Γ (.tyApp p t ty) s (b.substTop (s.apply ty)) := by
  intro θ Δ v hΔ hholds hv
  cases v with
  | tyApp q v ty' =>
    simp only [Term.mapNames, Term.mapNamesAt, Term.erase, Term.tyApp.injEq, true_and] at hv
    obtain ⟨ht, hty'⟩ := hv
    have hall := h θ Δ v hΔ hholds ht
    rw [Ty.mapNames_all_eq] at hall
    refine .alpha ?_ (.tyApp (hΔ.kinds ▸ (hty.mapNames hΔ.names).of_erase_eq hty') hall)
    rw [Ty.mapNames_substTop, Ty.substTop_eq_fillAt, Ty.substTop_eq_fillAt, Ty.erase_fillAt,
      Ty.erase_fillAt, hholds.erase_apply, ← hty']
    rfl
  | _ => simp [Term.mapNames, Term.mapNamesAt, Term.erase] at hv

/-- The definition is derivable whatever the generalised names stand for. -/
theorem justified_letIn {e : Term} (he : Justified Γ e s₁ a)
    (ht : Justified (⟨x, .var (Γ₁.generalize a [])⟩ :: Γ₁) t s₂ b) (hΓ : Γ.Formed)
    (hs₁ : s₁.FormedIn Γ.kinds) (hΓ₁ : Γ.apply s₁ = .ok Γ₁) (ha : a.FormedIn Γ₁.kinds)
    (hs₂ : s₂.FormedIn (.term :: Γ₁.kinds)) (hb : b.FormedIn (.term :: Γ₁.kinds))
    (hsettled : Abstraction.Settled ⟨Γ₁.generic a [], s₁, a, e⟩) :
    Justified Γ (.letIn p x e t) (s₂.shift (-1) ++ s₁) (b.shift (-1)) := by
  intro θ Δ v hΔ hholds hv
  obtain ⟨hs₂θ, hs₁θ⟩ := Subst.holds_append.mp hholds
  have hΔ₁ := hΔ.of_apply hΓ hs₁ hΓ₁ hs₁θ
  have hlength : Γ₁.length + 0 = Δ.length := by
    rw [← Context.length_kinds, ← Context.length_kinds, hΔ₁.kinds, Nat.add_zero]
  cases v with
  | letIn q y v₁ v₂ =>
    simp only [Term.mapNames_letIn_eq, Term.erase, Term.letIn.injEq, true_and] at hv
    have hdef : ∀ η : String → Ty, (∀ z, (η z).FormedIn Δ.kinds) →
        (∀ z ∉ Γ₁.generic a [], η z = θ z) → ImplicitF .transparent Δ v₁ (a.moved 0 0 η) := by
      intro η hη heq
      have himage : Γ₁.Image η Δ := hΔ₁.congr (hΔ₁.kinds ▸ hη) fun z hz =>
        heq z fun hmem => (Context.mem_generic.mp hmem).2.1 hz
      have hterm : ((e.mapNames s₁.image).mapNames η).erase = v₁.erase := by
        rw [Term.mapNames_congr fun z hz => heq z fun hmem => hsettled.notMem z hmem hz,
          Term.mapNames_mapNames]
        exact (Term.erase_mapNames_congr hs₁θ.erase_image e).trans hv.1
      rw [Ty.moved_zero]
      exact .alpha (Ty.erase_mapNames_eq hsettled.applied η)
        (he.applied hΓ hs₁ hΓ₁ hsettled.solved himage hterm)
    refine ImplicitF.letIn_renamed (hΔ₁.kinds ▸ hΔ₁.names) hlength hdef fun a' ha' => ?_
    rw [Ty.moved_zero] at ha'
    have hgen := ha.generalize (Γ₁.generic a [])
    rw [Context.length_kinds] at hgen
    exact ht.body hgen hs₂ hb hΔ₁ hs₂θ ha' hv.2
  | _ => simp [Term.mapNames, Term.mapNamesAt, Term.erase] at hv

/-- The type variable is replaced by the name `n`, that one by the name `m` on the way, and `m` by
the type variable again. -/
theorem erase_rebound {ks : List Kind} {n m : String} {θ : String → Ty}
    (ht : t.KnownIn σ (.type :: ks)) (hn : s.image n = .name n) (hholds : s.Holds θ)
    (hnt : n ∉ (t.mapNames (liftMap s.image)).typeNames)
    (hmt : m ∉ (t.mapNames (liftMap θ)).typeNames) :
    (((((t.substTyTop (.name n)).mapNames s.image).mapNames
      (Function.update θ n (.name m))).shift 1).mapNames
        (Function.update Ty.name m (.var 0 (ks.length + 1)))).erase =
      (t.mapNames (liftMap θ)).erase := by
  set η := Function.update θ n (.name m) with hη
  have hself : bindMap (fun z => (s.image z).mapNames η) m ks.length n =
      .var 0 (ks.length + 1) := by
    simp [bindMap, liftMap, hn, hη]
  have hback := Term.mapNamesAt_fillAt_shift (l := []) hself ht
  rw [Term.mapNames_mapNames, ← Term.mapNames_liftMap_shift, Term.mapNames_mapNames,
    Term.substTyTop_eq_fillAt]
  refine (congrArg Term.erase hback).trans (Term.erase_mapNames_eq_of_typeNames fun z hz => ?_)
  have hnz : n ∉ (s.image z).freeNames := fun hmem =>
    hnt (Term.mem_typeNames_mapNames.mpr ⟨z, hz, by rwa [liftMap, Ty.freeNames_shift]⟩)
  have hmz : ∀ y ∈ (liftMap θ z).freeNames, y ≠ m := fun y hy hym =>
    hmt (Term.mem_typeNames_mapNames.mpr ⟨z, hz, hym ▸ hy⟩)
  have hz' : ((s.image z).mapNames η).erase = (θ z).erase := by
    rw [Ty.mapNames_congr fun y hy => Function.update_of_ne (by rintro rfl; exact hnz hy) _ θ]
    exact hholds.erase_image z
  calc (bindMap (fun z => (s.image z).mapNames η) m ks.length z).erase
      = ((liftMap θ z).mapNames (Function.update Ty.name m (.var 0 (ks.length + 1)))).erase := by
        refine Ty.erase_mapNames_eq ?_ _
        rw [liftMap, liftMap, Ty.erase_shift, Ty.erase_shift, hz']
    _ = (liftMap θ z).erase := by rw [Ty.mapNames_eq_self fun y hy => update_name_of_ne (hmz y hy)]

theorem justified_tyAbs {n : String} (h : Justified Γ (t.substTyTop (.name n)) s b)
    (hΓ : Γ.Formed) (hs : s.FormedIn Γ.kinds) (ht : t.KnownIn σ (.type :: Γ.kinds))
    (hΓ₁ : Γ.apply s = .ok Γ₁) (hn : s.image n = .name n) (hnΓ₁ : n ∉ Γ₁.freeNames)
    (hsettled : Abstraction.Settled ⟨[n], s, s.apply b, .tyAbs p x t⟩) :
    Justified Γ (.tyAbs p x t) s (.all x (((s.apply b).shift 1).bindName n Γ.length)) := by
  intro θ Δ v hΔ hholds hv
  cases v with
  | tyAbs q y v =>
    simp only [Term.mapNames_tyAbs_eq, Term.erase, Term.tyAbs.injEq, true_and] at hv
    obtain ⟨ρ, -, hfresh⟩ := Name.exists_renaming
      (Δ.freeNames ++ v.typeNames ++ (s.apply b).freeNames.flatMap fun z => (θ z).freeNames)
    simp only [List.mem_append, List.mem_flatMap, not_or, not_exists, not_and] at hfresh
    obtain ⟨⟨hmΔ, hmv⟩, hmb⟩ := hfresh n
    have hnt : n ∉ (t.mapNames (liftMap s.image)).typeNames := by
      have hmem := hsettled.notMem n (List.mem_singleton_self n)
      rwa [Term.mapNames_tyAbs_eq, Term.typeNames] at hmem
    have hlength : Γ.length = Δ.length := by
      rw [← Context.length_kinds, ← Context.length_kinds, hΔ.kinds]
    have hΔ₁ := hΔ.of_apply hΓ hs hΓ₁ hholds
    have himage : Γ₁.Image (Function.update θ n (.name (ρ n))) Δ := by
      refine hΔ₁.congr (fun z => ?_) fun z hz =>
        Function.update_of_ne (by rintro rfl; exact hnΓ₁ hz) _ θ
      rcases eq_or_ne z n with rfl | hzn
      · rw [Function.update_self]
        trivial
      · rw [Function.update_of_ne hzn]
        exact hΔ₁.names z
    have hopened := h.applied hΓ hs hΓ₁ hsettled.solved himage rfl
    have hbound := hopened.bindName (x := y) (u := v) hΔ.formed hmΔ (by
      rw [← hlength, ← Context.length_kinds, ← hv]
      refine erase_rebound ht hn hholds hnt ?_
      rwa [Term.typeNames_eq_of_erase_eq hv])
    have hgen := Ty.erase_moved_generalizeTop (d := 0) (c := 0) (θ := θ) (x := n) (y := ρ n)
      (a := s.apply b) Γ.length fun z hz _ => hmb z hz
    rw [Ty.moved_zero, Ty.moved_zero, Nat.add_zero, hlength] at hgen
    refine .alpha ?_ (.tyAbs hbound)
    rw [hlength]
    exact hgen.symm
  | _ => simp [Term.mapNames, Term.mapNamesAt, Term.erase] at hv

end Rules

end Infer

theorem Calculus.admitsTerm_fillAt (s : Ty) (c : Nat) (t : Term) :
    systemF.admitsTerm (t.fillAt s c) = systemF.admitsTerm t := by
  induction t generalizing c with
  | abs p x ty t ih => cases ty <;> simp [Term.fillAt, admitsTerm, admitsAnnot, admitsType, ih]
  | _ => simp_all [Term.fillAt, admitsTerm, admitsType]

namespace Infer

/-- A run whose abstractions are settled is justified by the rules. -/
theorem justified_of_run {t : Term} {Γ : Context} {σ σ' : NameSupply} {s : Subst} {a : Ty}
    (hΓ : Γ.Known σ) (ht : t.KnownIn σ Γ.kinds) (hadm : Calculus.systemF.admitsTerm t = .ok ())
    (hsettled : ∀ r ∈ abstractions Γ t σ, r.Settled) (h : run Γ t σ = .ok (s, a) σ') :
    Justified Γ t s a := by
  induction t using Term.filled_induction generalizing Γ σ σ' s a with
  | var p i n =>
    obtain ⟨ty, hi, hr, rfl⟩ := run_var_eq_ok_iff.mp h
    cases hr
    exact justified_var hi fun θ hθ => σ.instantiates_openAll hθ ty
  | const p b =>
    obtain ⟨hr, rfl⟩ := run_const_eq_ok_iff.mp h
    cases hr
    exact justified_const
  | abs p x ty t ih =>
    obtain ⟨a₁, σ₁, s₁, b, hnew, hrun, hr⟩ := run_abs_eq_ok_iff.mp h
    cases hr
    rw [abstractions_abs hnew] at hsettled
    obtain ⟨hused, ha⟩ := known_of_orNew ht.1 hnew
    have hΓ₁ := (hΓ.mono hused).cons_var x ha
    have hknown := known_of_run hΓ₁ (ht.2.mono hused) hrun
    cases ty with
    | none =>
      obtain ⟨_, hneed, -⟩ := bind_eq_ok_iff.mp hadm
      simp [Calculus.need] at hneed
    | some a' =>
      obtain ⟨rfl, -⟩ : a' = a₁ ∧ σ₁ = σ := by simpa using orNew_eq_ok_iff.mp hnew
      obtain ⟨_, -, hadm⟩ := bind_eq_ok_iff.mp hadm
      exact justified_abs (ih hΓ₁ (ht.2.mono hused) hadm hsettled hrun) ha.formed
        hknown.subst.formedIn hknown.ty.formed
  | app p t u iht ihu =>
    obtain ⟨s₁, a₁, σ₁, Γ₁, s₂, b, σ₂, s₃, hrun₁, hΓ₁, hrun₂, hunify, hr⟩ := run_app_eq_ok_iff.mp h
    cases hr
    obtain ⟨_, hadm₁, hadm₂⟩ := bind_eq_ok_iff.mp hadm
    rw [abstractions_app hrun₁ hΓ₁, List.forall_mem_append] at hsettled
    have h₁ := known_of_run hΓ ht.1 hrun₁
    obtain ⟨hkinds, hknown⟩ := h₁.context hΓ hΓ₁
    have htu : u.KnownIn σ₁ Γ₁.kinds := hkinds ▸ ht.2.mono h₁.used
    obtain ⟨hb, ha⟩ := h₁.trans hkinds (known_of_run hknown htu hrun₂)
    have hfresh : ∀ {c : Ty}, c.KnownIn Γ.kinds σ₂ → σ₂.letter.1 ∉ c.freeNames := fun hc hmem =>
      NameSupply.letter_notMem σ₂ (hc.known _ hmem)
    exact justified_app (iht hΓ ht.1 hadm₁ hsettled.1 hrun₁)
      (ihu hknown htu hadm₂ hsettled.2 hrun₂) hΓ.formed h₁.subst.formedIn hΓ₁ ha.letter.ty
      hb.letter.ty (NameSupply.mem_used_letter.mpr (.inl rfl)) (hfresh ha.ty) (hfresh hb.ty)
      (Unify.answers_of_unifyOpening hunify)
  | ite p c t e ihc iht ihe =>
    obtain ⟨s₁, a₁, σ₁, s₂, σ₂, Γ₁, s₃, b, σ₃, Γ₂, s₄, d, σ₄, s₅, hrun₁, hbool, hΓ₁, hrun₂, hΓ₂,
      hrun₃, hunify, hr⟩ := run_ite_eq_ok_iff.mp h
    cases hr
    obtain ⟨_, hadm₁, hadm⟩ := bind_eq_ok_iff.mp hadm
    obtain ⟨_, hadm₂, hadm₃⟩ := bind_eq_ok_iff.mp hadm
    rw [abstractions_ite hrun₁ hbool hΓ₁ hrun₂ hΓ₂, List.forall_mem_append,
      List.forall_mem_append] at hsettled
    have h₁ := known_of_run hΓ ht.1 hrun₁
    have hc := h₁.unify h₁.ty .bool hbool h₁.ty
    obtain ⟨hkinds₁, hknown₁⟩ := hc.context hΓ hΓ₁
    have htt : t.KnownIn σ₂ Γ₁.kinds := hkinds₁ ▸ ht.2.1.mono hc.used
    obtain ⟨hthen, -⟩ := hc.trans hkinds₁ (known_of_run hknown₁ htt hrun₂)
    obtain ⟨hkinds₂, hknown₂⟩ := hthen.context hΓ hΓ₂
    have hte : e.KnownIn σ₃ Γ₂.kinds := hkinds₂ ▸ ht.2.2.mono hthen.used
    obtain ⟨helse, hb⟩ := hthen.trans hkinds₂ (known_of_run hknown₂ hte hrun₃)
    exact justified_ite (ihc hΓ ht.1 hadm₁ hsettled.1 hrun₁)
      (iht hknown₁ htt hadm₂ hsettled.2.1 hrun₂) (ihe hknown₂ hte hadm₃ hsettled.2.2 hrun₃)
      hΓ.formed hc.subst.formedIn hthen.subst.formedIn hΓ₁ hΓ₂
      (Unify.answers_of_unifyOpening hbool) hb.ty helse.ty (Unify.answers_of_unifyOpening hunify)
  | letIn p x e t ihe iht =>
    obtain ⟨s₁, a₁, σ₁, Γ₁, s₂, b, hrun₁, hΓ₁, hrun₂, hr⟩ := run_letIn_eq_ok_iff.mp h
    cases hr
    obtain ⟨_, hadm₁, hadm₂⟩ := bind_eq_ok_iff.mp hadm
    rw [abstractions_letIn hrun₁ hΓ₁, List.forall_mem_append, List.forall_mem_cons] at hsettled
    have h₁ := known_of_run hΓ ht.1 hrun₁
    obtain ⟨hkinds, hknown⟩ := h₁.context hΓ hΓ₁
    have ha₁ : a₁.KnownIn Γ₁.kinds σ₁ := hkinds ▸ h₁.ty
    have hbody : t.KnownIn σ₁ (.term :: Γ₁.kinds) := hkinds ▸ ht.2.mono h₁.used
    have hcons := hknown.cons_var x (Context.knownIn_generalize ha₁ [])
    have h₂ := known_of_run hcons hbody hrun₂
    exact justified_letIn (ihe hΓ ht.1 hadm₁ hsettled.1 hrun₁)
      (iht hcons hbody hadm₂ hsettled.2.2 hrun₂) hΓ.formed h₁.subst.formedIn hΓ₁ ha₁.formed
      h₂.subst.formedIn h₂.ty.formed hsettled.2.1
  | tyAbs p x t ih =>
    obtain ⟨s₁, b, s₂, hrun, hrigid, hr⟩ := run_tyAbs_eq_ok_iff.mp h
    cases hr
    obtain ⟨_, -, hadm⟩ := bind_eq_ok_iff.mp hadm
    rw [abstractions_tyAbs hrun hrigid, List.forall_mem_append,
      List.forall_mem_singleton] at hsettled
    have hlike : ∀ y ∈ σ.used, y ∈ (σ.like x).2.used := fun y hy =>
      NameSupply.mem_used_like.mpr (.inr hy)
    have h₁ := known_of_run (hΓ.mono hlike) ht.openLike hrun
    have hs := knownIn_of_keepRigid h₁.subst (isName_unusedLike ht.1 σ.used)
      (h₁.used _ (NameSupply.mem_used_like.mpr (.inl rfl))) hrigid
    rw [← Calculus.admitsTerm_fillAt (.name (σ.like x).1) 0, ← Term.substTyTop_eq_fillAt] at hadm
    have hopened := ih (.name (σ.like x).1) (hΓ.mono hlike) ht.openLike hadm hsettled.1 hrun
    obtain ⟨-, Γ₁, hΓ₁, hnΓ₁⟩ := Conclusion.keepRigid_eq_ok_iff.mp hrigid
    obtain ⟨hn, r, -, rfl⟩ := Conclusion.image_of_keepRigid hrigid
    exact justified_tyAbs (hopened.append r) hΓ.formed hs.formedIn ht.2 hΓ₁ hn hnΓ₁ hsettled.2
  | tyApp p t ty ih =>
    obtain ⟨s₁, y, b, hhead, hr⟩ := run_tyApp_eq_ok_iff.mp h
    cases hr
    obtain ⟨_, -, hadm⟩ := bind_eq_ok_iff.mp hadm
    obtain ⟨_, -, hadm⟩ := bind_eq_ok_iff.mp hadm
    rw [abstractions] at hsettled
    refine justified_tyApp (y := y) ?_ ht.2.formed
    rcases hhead with ⟨q, i, n, rfl, hi, rfl, rfl⟩ | ⟨-, hrun⟩
    · exact justified_var hi fun _ _ => .refl
    · exact ih hΓ ht.1 hadm hsettled hrun

end Infer

/-- The type is that of a derivation, generalised over names that neither the context nor the
annotations of the term know. -/
def HasScheme (P : Policy) (Γ : Context) (t : Term) (b : Ty) : Prop :=
  ∃ a xs, ImplicitF P Γ t a ∧ (∀ y ∈ xs, y ∉ Γ.freeNames ∧ y ∉ t.typeNames) ∧
    b.erase = (a.generalize Γ.length xs).erase

/-- The names over which inference abstracts, and in the end those over which the answer is
generalised. -/
def inferAbstractions (Γ : Context) (t : Term) : List Infer.Abstraction :=
  Infer.abstractions Γ t (.forTerm Γ t) ++
    Infer.follow (Infer.run Γ t (.forTerm Γ t)) fun (s, a) σ =>
      Infer.follow (Supplied.ofExcept (Γ.apply s) σ) fun Γ₁ _ => [⟨Γ₁.generic a [], s, a, t⟩]

theorem inferAbstractions_eq {Γ Γ₁ : Context} {t : Term} {s : Subst} {a : Ty} {σ : NameSupply}
    (hrun : Infer.run Γ t (.forTerm Γ t) = .ok (s, a) σ) (hΓ₁ : Γ.apply s = .ok Γ₁) :
    inferAbstractions Γ t =
      Infer.abstractions Γ t (.forTerm Γ t) ++ [⟨Γ₁.generic a [], s, a, t⟩] := by
  rw [inferAbstractions, Infer.follow_of_eq_ok hrun]
  exact congrArg _ (Infer.follow_of_eq_ok (Infer.ofExcept_of_eq_ok hΓ₁ σ) _)

theorem Context.Image.refl_of_apply {Γ Γ₁ : Context} {s : Subst} (hΓ : Γ.Formed)
    (hs : s.FormedIn Γ.kinds) (hnames : Γ.freeNames = []) (hΓ₁ : Γ.apply s = .ok Γ₁) :
    Γ₁.Image Ty.name Γ := by
  obtain ⟨hkinds, hget⟩ := Context.apply_spec hs hΓ hΓ₁
  refine ⟨⟨hkinds.symm, fun i a ha => ?_⟩, fun _ => trivial, hΓ⟩
  rw [hget, Option.map_eq_some_iff] at ha
  obtain ⟨a, ha, rfl⟩ := ha
  have hself : s.apply a = a := by
    rw [Subst.apply_eq_mapNames]
    refine Ty.mapNames_eq_self fun x hx => ?_
    have hmem := mem_freeNames_of_getType? ha hx
    simp [hnames] at hmem
  exact ⟨a, ha, by rw [hself, Ty.mapNames_id]⟩

/-- Soundness: the inferred type of a term without free names is a scheme of the term, where
quantified variables may be replaced by types as needed. If there are type abstractions, everything
that was abstracted over has to be settled. -/
theorem hasScheme_of_inferType {contextText termText : String} {Γ : Context} {t : Term} {b : Ty}
    (hΓ : Context.parse contextText = .ok Γ) (ht : Term.parse Γ termText = .ok t)
    (hterm : Calculus.systemF.admitsTerm t = .ok ()) (hΓnames : Γ.freeNames = [])
    (hnames : t.typeNames = []) (h : inferType Γ t = .ok b)
    (hsettled : t.hasTyAbs = true → ∀ r ∈ inferAbstractions Γ t, r.Settled) :
    HasScheme .transparent Γ t b := by
  obtain ⟨⟨s, a⟩, hrun, h⟩ := bind_eq_ok_iff.mp h
  obtain ⟨Γ₁, hΓ₁, h⟩ := bind_eq_ok_iff.mp h
  cases h
  obtain ⟨σ, hrun⟩ := Supplied.answer_eq_ok_iff.mp hrun
  have hcontext : Γ.Known (.forTerm Γ t) := (Context.written_of_parse hΓ).known fun x hx => by
    simp [NameSupply.forTerm, hx]
  have hknownt : t.KnownIn (.forTerm Γ t) Γ.kinds := Term.knownIn_of_parse ht fun x hx => by
    simp [NameSupply.forTerm, hx]
  obtain ⟨hinner, hlast⟩ : (∀ r ∈ Infer.abstractions Γ t (.forTerm Γ t), r.Settled) ∧
      Infer.Abstraction.Settled ⟨Γ₁.generic a [], s, a, t⟩ := by
    cases habs : t.hasTyAbs with
    | true =>
      have hall := hsettled habs
      rwa [inferAbstractions_eq hrun hΓ₁, List.forall_mem_append,
        List.forall_mem_singleton] at hall
    | false =>
      obtain ⟨hsep, hinner⟩ := Infer.settled_of_run hcontext hknownt hnames habs hrun
      exact ⟨hinner, hsep.settled hnames _⟩
  have hknown := Infer.known_of_run hcontext hknownt hrun
  have hs := hknown.subst.formedIn
  have hjustified := Infer.justified_of_run hcontext hknownt hterm hinner hrun
  have himage := Context.Image.refl_of_apply hcontext.formed hs hΓnames hΓ₁
  have hderiv := hjustified.applied hcontext.formed hs hΓ₁ hlast.solved himage (u := t)
    (by rw [Term.mapNames_of_typeNames_eq_nil _ hnames, Term.mapNames_id])
  rw [Ty.mapNames_id] at hderiv
  have hlength : Γ₁.length = Γ.length := by
    rw [← Context.length_kinds, ← Context.length_kinds, himage.kinds]
  refine ⟨a, Γ₁.generic a [], .alpha hlast.applied hderiv, fun y _ => by simp [hΓnames, hnames], ?_⟩
  rw [Context.generalize, hlength]

namespace ImplicitF

variable {P : Policy} {Γ : Context} {p : Position} {x : String} {a b : Ty} {t u : Term}

theorem erase_const {c : Bool} (h : ImplicitF P Γ (.const p c) b) : b.erase = .bool := by
  generalize ht : Term.const p c = t at h
  induction h with
  | const => rfl
  | alpha hab _ ih => exact hab ▸ ih ht
  | _ => cases ht

theorem erase_abs (h : ImplicitF P Γ (.abs p x (some a) t) b) :
    ∃ b', b.erase = .arr a.erase b' := by
  generalize ht : Term.abs p x (some a) t = u at h
  induction h with
  | @abs Γ p x a b t ha =>
    cases ht
    exact ⟨b.erase, rfl⟩
  | alpha hab _ ih => exact hab ▸ ih ht
  | _ => cases ht

theorem exists_of_app (h : ImplicitF .rigid Γ (.app p t u) b) :
    ∃ a b', ImplicitF .rigid Γ t (.arr a b') ∧ ImplicitF .rigid Γ u a := by
  generalize ht : Term.app p t u = v at h
  generalize hP : Policy.rigid = P at h
  induction h with
  | @app Γ p a a' b c t u hfun harg hc ha =>
    cases ht
    subst hP
    obtain rfl : c = .arr a' b := hc
    obtain rfl : a' = a := ha
    exact ⟨a', b, hfun, harg⟩
  | alpha _ _ ih => exact ih ht
  | _ => cases ht

end ImplicitF

/-- A definition with a type abstraction, and a use at a type variable of the context that is found
by unification. -/
theorem hasScheme_of_inferType_twice : ∃ Γ t,
    Context.parse "Y, y: Y" = .ok Γ ∧
    Term.parse Γ "let twice = ΛX. λf: X -> X. λx: X. f (f x) in twice (λz: Y. z) y" = .ok t ∧
    inferType Γ t = .ok (.var 1 2) ∧ (∀ r ∈ inferAbstractions Γ t, r.Settled) ∧
    HasScheme .transparent Γ t (.var 1 2) := by
  let Γ : Context := [⟨"y", .var (.var 0 1)⟩, ⟨"Y", .tyVar⟩]
  let t : Term :=
    .letIn ⟨1, 1⟩ "twice"
      (.tyAbs ⟨1, 13⟩ "X" (.abs ⟨1, 17⟩ "f" (some (.arr (.var 0 3) (.var 0 3)))
        (.abs ⟨1, 28⟩ "x" (some (.var 1 4)) (.app ⟨1, 35⟩ (.var ⟨1, 35⟩ 1 5)
          (.app ⟨1, 38⟩ (.var ⟨1, 38⟩ 1 5) (.var ⟨1, 40⟩ 0 5))))))
      (.app ⟨1, 46⟩ (.app ⟨1, 46⟩ (.var ⟨1, 46⟩ 0 3)
        (.abs ⟨1, 53⟩ "z" (some (.var 2 3)) (.var ⟨1, 60⟩ 0 4))) (.var ⟨1, 63⟩ 1 3))
  have hΓ : Context.parse "Y, y: Y" = .ok Γ := by decide +kernel
  have ht : Term.parse Γ
      "let twice = ΛX. λf: X -> X. λx: X. f (f x) in twice (λz: Y. z) y" = .ok t := by
    decide +kernel
  have hinfer : inferType Γ t = .ok (.var 1 2) := by decide +kernel
  have hsettled : ∀ r ∈ inferAbstractions Γ t, r.Settled := by decide +kernel
  exact ⟨Γ, t, hΓ, ht, hinfer, hsettled, hasScheme_of_inferType hΓ ht (by decide) (by decide)
    (by decide) hinfer fun _ => hsettled⟩

/-- The argument of a function on values of all types is a boolean. -/
theorem not_hasScheme_of_inferType : ∃ Γ t b,
    Context.parse "" = .ok Γ ∧ Term.parse Γ "(λf: ∀X. X. f) true" = .ok t ∧ Γ.freeNames = [] ∧
    t.typeNames = [] ∧ Calculus.systemF.admitsContext Γ = .ok () ∧
    Calculus.systemF.admitsTerm t = .ok () ∧ inferType Γ t = .ok b ∧ ¬ HasScheme .rigid Γ t b := by
  let t : Term :=
    .app ⟨1, 1⟩ (.abs ⟨1, 2⟩ "f" (some (.all "X" (.var 0 1))) (.var ⟨1, 13⟩ 0 1))
      (.const ⟨1, 16⟩ true)
  refine ⟨[], t, .all "A" (.var 0 1), by decide +kernel, by decide +kernel, rfl, rfl, rfl, rfl,
    by decide +kernel, ?_⟩
  rintro ⟨c, xs, hderiv, -⟩
  obtain ⟨a, b, hfun, harg⟩ := hderiv.exists_of_app
  obtain ⟨b', hb'⟩ := hfun.erase_abs
  rw [Ty.erase, harg.erase_const] at hb'
  cases hb'

end LambdaTyping
