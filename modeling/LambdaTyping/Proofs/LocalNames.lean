import Mathlib
import LambdaTyping.Proofs.SchemeUnifiers
import LambdaTyping.Proofs.PolymorphicRules
import LambdaTyping.Proofs.SimplyTypedTrees
import LambdaTyping.Proofs.HindleyMilnerTrees

/-!
# Names that are local to a node

A variable node invents names for the quantified variables of its scheme, and so does
a node that compares the schemes of two contexts. Such a name avoids the names that
the node knows, but it can stay in the substitution of the node, and there it may be
the same as a name that another node has invented or that is written elsewhere.

Where this does not happen the check is complete: a tree without definitions is valid
if some map of its names makes every node an instance of its rule. The map is carried
along from the leaves on. Below every node it is changed at local names only, and as
these are different for different premises, the maps for all premises fit together.
-/
namespace LambdaTyping

/-- The substitution holds under a map that agrees with `θ` on the names `N`, which the supply
avoids. -/
structure Solution.Realizes (N : List String) (θ : String → Ty) (k : Solution) : Prop where
  isSimple : k.subst.IsSimple
  names : ∀ x ∈ k.subst.freeNames, x ∈ k.supply.used
  inUse : ∀ x ∈ N, x ∈ k.supply.used
  models : ∃ η, IsSimpleMap η ∧ (∀ x ∈ N, η x = θ x) ∧ k.subst.Models η

/-- A step has a result, under which the map can be kept. -/
def Succeeds {ε : Type} (N : List String) (θ : String → Ty) (r : Except ε Solution) : Prop :=
  ∃ k, r = .ok k ∧ k.Realizes N θ

variable {N : List String} {θ : String → Ty}

namespace Succeeds

variable {ε ε' : Type} {r : Except ε Solution}

theorem mapError (h : Succeeds N θ r) (f : ε → ε') : Succeeds N θ (r.mapError f) := by
  obtain ⟨k, rfl, hk⟩ := h
  exact ⟨k, rfl, hk⟩

theorem bind {f : Solution → Except ε Solution} (h : Succeeds N θ r)
    (hf : ∀ k, k.Realizes N θ → Succeeds N θ (f k)) : Succeeds N θ (r >>= f) := by
  obtain ⟨k, rfl, hk⟩ := h
  exact hf k hk

end Succeeds

namespace Conclusion

variable {c : Conclusion} {k : Solution} {a b : Ty}

/-- Types that the map makes equal are equated. -/
theorem succeeds_equate (hc : c.calculus ≠ .systemF) (hθ : IsSimpleMap θ) (hk : k.Realizes N θ)
    (ha : a.freeNames ⊆ N) (hb : b.freeNames ⊆ N) (hinstance : ∃ τ, a.Instance τ)
    (huses : a.UsesQuantifiers) (h : Unifies θ a b) : Succeeds N θ (c.equate a b k) := by
  obtain ⟨η, hη, hN, hmodels⟩ := hk.models
  cases halpha : (k.subst.apply a).alphaEq (k.subst.apply b) with
  | true => exact ⟨k, equate_of_alphaEq halpha, hk⟩
  | false =>
    have hnames : ∀ {t : Ty}, t.freeNames ⊆ N → ∀ x ∈ (k.subst.apply t).freeNames,
        x ∈ k.supply.used := fun ht x hx =>
      (Subst.mem_freeNames_apply hx).elim (fun hx => hk.inUse x (ht hx)) (hk.names x)
    have hmap : ∀ {t : Ty}, t.freeNames ⊆ N → (k.subst.apply t).mapNames η = t.mapNames θ :=
      fun ht => by rw [hmodels.apply_mapNames, Ty.mapNames_congr fun x hx => hN x (ht hx)]
    have hinstance' : ∃ τ, ((k.subst.apply a).mapNames η).Instance τ := by
      rw [hmap ha]
      exact hinstance.imp' (Ty.mapNames θ) fun τ hτ => hτ.mapNames hθ
    have huses' : (k.subst.apply a).UsesQuantifiers := by
      rw [Subst.apply_eq_mapNames]
      exact huses.mapNamesAt hk.isSimple.image 0
    have hunifies : Unifies η (k.subst.apply a) (k.subst.apply b) := by
      rw [Unifies, hmap ha, hmap hb]
      exact h
    obtain ⟨s, σ', hrun, hs⟩ := exists_unifyOpening_of_unifies hη (hnames ha) (hnames hb) hinstance'
      huses' hunifies halpha
    obtain ⟨η', hη', hused, hmodels'⟩ := hs.models
    have hsimple := hs.isSimple.append hk.isSimple
    refine ⟨_, equate_of_unifyOpening_ok hc halpha hsimple hrun, hsimple, fun x hx => ?_,
      fun x hx => hs.grows x (hk.inUse x hx), η', hη', fun x hx => ?_, ?_⟩
    · exact (Subst.mem_freeNames_append.mp hx).elim (hs.names x) fun hx => hs.grows x (hk.names x hx)
    · rw [hused x (hk.inUse x hx), hN x hx]
    · exact Subst.models_append.mpr
        ⟨hmodels', hmodels.congr fun x hx => hused x (hk.names x hx)⟩

theorem succeeds_unify (hc : c.calculus ≠ .systemF) (hθ : IsSimpleMap θ) (hk : k.Realizes N θ)
    (ha : a.freeNames ⊆ N) (hb : b.freeNames ⊆ N) (hsimple : a.isSimple)
    (h : a.mapNames θ = b.mapNames θ) : Succeeds N θ (c.unify a b k) := by
  refine Succeeds.mapError (succeeds_equate hc hθ hk ha hb ⟨a, .simple hsimple⟩ ?_ ?_) _
  · exact Ty.usesQuantifiers_of_isSimple hsimple
  · rw [Unifies, h]

theorem succeeds_adopt (hc : c.calculus ≠ .systemF) (hθ : IsSimpleMap θ) (hk : k.Realizes N θ)
    (i : Nat) {s : Subst} (hs : s.freeNames ⊆ N) (hmodels : s.Models θ) :
    Succeeds N θ (c.adopt i s k) := by
  induction s with
  | nil => exact ⟨k, rfl, hk⟩
  | cons p s ih =>
    obtain ⟨x, ty⟩ := p
    have hnames : ∀ y, y ∈ ty.freeNames ∨ y = x → y ∈ N := fun y hy =>
      hs (Subst.mem_freeNames_cons.mpr (by tauto))
    have htail : Subst.freeNames s ⊆ N := fun y hy => hs (Subst.mem_freeNames_cons.mpr (by tauto))
    refine (ih htail fun b hb => hmodels b (List.mem_cons_of_mem _ hb)).bind fun k hk => ?_
    refine Succeeds.mapError (succeeds_equate hc hθ hk ?_ (fun y hy => hnames y (.inl hy))
      ⟨.name x, .simple rfl⟩ trivial ?_) _
    · simpa [Ty.freeNames] using hnames x (.inr rfl)
    · have hx := hmodels (x, ty) List.mem_cons_self
      rw [Unifies, Ty.mapNames_name]
      exact congrArg Ty.erase hx

theorem succeeds_adoptAll (hc : c.calculus ≠ .systemF) (hθ : IsSimpleMap θ) (hk : k.Realizes N θ)
    (i : Nat) {ps : List Premise} (hps : ∀ p ∈ ps, p.subst.freeNames ⊆ N)
    (hmodels : ∀ p ∈ ps, p.subst.Models θ) : Succeeds N θ (c.adoptAll i ps k) := by
  induction ps generalizing i k with
  | nil => exact ⟨k, rfl, hk⟩
  | cons p ps ih =>
    rw [List.forall_mem_cons] at hps hmodels
    exact (succeeds_adopt hc hθ hk i hps.1 hmodels.1).bind fun k hk => ih hk (i + 1) hps.2 hmodels.2

end Conclusion

/-- The types of the context are schemes whose quantified variables all occur. -/
structure Context.HasUsedSchemes (Γ : Context) : Prop where
  polymorphic : Γ.IsPolymorphic
  uses : ∀ i a, Γ.getType? i = some a → a.UsesQuantifiers

theorem Context.HasUsedSchemes.tail {e : Entry} {Γ : Context}
    (h : Context.HasUsedSchemes (e :: Γ)) : Γ.HasUsedSchemes := by
  refine ⟨h.polymorphic.of_cons.2, fun i a ha => ?_⟩
  have hshift := h.uses (i + 1) (a.shift 1) (by rw [Context.getType?_cons_succ, ha]; rfl)
  exact hshift.of_shapeAt_eq (c := 0) (Ty.shapeAt_shiftAbove 1 0 a)

/-- A premise as the rule of its conclusion finds it: its names are in use, and the map satisfies its
substitution. -/
structure Premise.Fits (N : List String) (θ : String → Ty) (p : Premise) : Prop where
  schemes : p.judgment.context.HasUsedSchemes
  ty : p.judgment.ty.isSimple
  isSimple : p.subst.IsSimple
  contextNames : p.judgment.context.freeNames ⊆ N
  tyNames : p.judgment.ty.freeNames ⊆ N
  substNames : p.subst.freeNames ⊆ N
  models : p.subst.Models θ

namespace Conclusion

variable {c : Conclusion} {k : Solution} {a b : Ty}

/-- What is left of two contexts below the `d` most recent bindings. -/
theorem exists_equateBelow_eq_some (hc : c.calculus ≠ .systemF) (hθ : IsSimpleMap θ)
    (hk : k.Realizes N θ) {Γ₀ Δ₀ : Context} (hΓ₀ : Γ₀.freeNames ⊆ N) (hΔ₀ : Δ₀.freeNames ⊆ N)
    (hschemes : Γ₀.HasUsedSchemes) (hequal : Γ₀.EqualUnder θ Δ₀) {d : Nat} {Γ Δ : Context}
    (hΓ : Γ₀.drop d = Γ) (hΔ : Δ₀.drop d = Δ) (hkinds : Γ.SameKinds Δ) :
    ∃ k', c.equateBelow Γ₀ Δ₀ d Γ Δ k = some k' ∧ k'.Realizes N θ := by
  induction Γ generalizing Δ d k with
  | nil =>
    cases hkinds
    exact ⟨k, rfl, hk⟩
  | cons e Γ ih =>
    cases Δ with
    | nil => cases hkinds
    | cons f Δ =>
      obtain ⟨x, b₁⟩ := e
      obtain ⟨y, b₂⟩ := f
      obtain ⟨hkind, htail⟩ := sameKinds_cons_iff.mp hkinds
      obtain ⟨hΓ', hget₁⟩ := getType?_of_drop hΓ
      obtain ⟨hΔ', hget₂⟩ := getType?_of_drop hΔ
      rcases hget₁ with ⟨a₁, rfl, hA⟩ | ⟨hb₁, -⟩
      · rcases hget₂ with ⟨a₂, rfl, hB⟩ | ⟨hb₂, -⟩
        · obtain ⟨k', hrun, hk'⟩ := succeeds_equate hc hθ hk
            (fun z hz => hΓ₀ (Context.mem_freeNames_of_getType? hA hz))
            (fun z hz => hΔ₀ (Context.mem_freeNames_of_getType? hB hz))
            (hschemes.polymorphic d _ hA) (hschemes.uses d _ hA) (hequal d _ _ hA hB)
          rw [equateBelow_of_typed hA hB, hrun]
          exact ih hk' hΓ' hΔ' htail
        · cases b₂ with
          | var a₂ => exact absurd rfl (hb₂ a₂)
          | _ => simp [Binding.sameKind] at hkind
      · rw [equateBelow_of_untyped hkind hb₁]
        exact ih hk hΓ' hΔ' htail

theorem succeeds_sameContext (hc : c.calculus ≠ .systemF) (hθ : IsSimpleMap θ) (hk : k.Realizes N θ)
    (i : Nat) {Γ : Context} (hΓ : Γ.freeNames ⊆ N) (hcontext : c.context.freeNames ⊆ N)
    (hschemes : Γ.HasUsedSchemes) (hkinds : Γ.SameKinds c.context)
    (hequal : Γ.EqualUnder θ c.context) : Succeeds N θ (c.sameContext i Γ k) := by
  obtain ⟨k', hrun, hk'⟩ : ∃ k', c.equateBelow Γ c.context 0 Γ c.context k = some k' ∧
      k'.Realizes N θ :=
    exists_equateBelow_eq_some hc hθ hk hΓ hcontext hschemes hequal rfl rfl hkinds
  refine ⟨k', ?_, hk'⟩
  rw [sameContext, if_neg (not_not.mpr hkinds.length_eq), hrun]

theorem succeeds_samePremises (hc : c.calculus ≠ .systemF) (hθ : IsSimpleMap θ)
    (hk : k.Realizes N θ) (i : Nat) {ps : List Premise} {ts : List Term}
    (hcontext : c.context.freeNames ⊆ N) (hps : ∀ p ∈ ps, p.Fits N θ)
    (hmatch : PremisesMatch θ c.context ps ts) : Succeeds N θ (c.samePremises i ps ts k) := by
  induction ps generalizing ts i k with
  | nil => exact ⟨k, rfl, hk⟩
  | cons p ps ih =>
    cases ts with
    | nil => exact ⟨k, rfl, hk⟩
    | cons t ts =>
      rw [List.forall_mem_cons] at hps
      obtain ⟨⟨⟨hkinds, hterm⟩, hequal⟩, hrest⟩ := hmatch
      refine (succeeds_sameContext hc hθ hk i hps.1.contextNames hcontext hps.1.schemes hkinds
        hequal).bind fun k hk => ?_
      rw [sameTerm, if_pos hterm]
      exact ih hk (i + 1) hps.2 hrest

section Rules

variable {Γ : Context} {ty : Ty} {σ : NameSupply}

/-- The names of the instantiated variables are mapped as the instance demands. -/
theorem succeeds_checkVar {i : Nat} {ς : Ty} (hθ : IsSimpleMap θ)
    (hk : Solution.Realizes N θ ⟨σ, []⟩) (hΓ : Γ.freeNames ⊆ N) (hty : ty.freeNames ⊆ N)
    (hi : Γ.getType? i = some ς) (hinstance : (ς.mapNames θ).Instance (ty.mapNames θ)) :
    Succeeds N θ (checkVar ⟨.hindleyMilner, Γ⟩ i ty ⟨σ, []⟩) := by
  have hς : ∀ x ∈ ς.freeNames, x ∈ N := fun x hx => hΓ (Context.mem_freeNames_of_getType? hi hx)
  have hused : ∀ x ∈ N, x ∉ (σ.openAll ς).1.1 := fun x hx hnew =>
    NameSupply.openAll_notMem hnew (hk.inUse x hx)
  obtain ⟨η, hη, hoff, heq⟩ := NameSupply.exists_of_instance_openAll hθ
    (fun x hx => hk.inUse x (hς x hx)) hinstance
  have hsimple := NameSupply.isSimple_openAll hθ (fun x hx => hk.inUse x (hς x hx)) hinstance
  have hagree : ∀ x ∈ N, η x = θ x := fun x hx => hoff x (hused x hx)
  have hrealizes : Solution.Realizes ((σ.openAll ς).1.1 ++ N) η ⟨(σ.openAll ς).2, []⟩ := by
    refine ⟨by simp [Subst.IsSimple], by simp [Subst.freeNames], fun x hx => ?_, η, hη, fun _ _ => rfl,
      by simp [Subst.Models]⟩
    exact NameSupply.mem_used_openAll.mpr ((List.mem_append.mp hx).imp_right (hk.inUse x))
  have hnames : (σ.openAll ς).1.2.freeNames ⊆ (σ.openAll ς).1.1 ++ N := fun x hx =>
    List.mem_append.mpr ((NameSupply.mem_freeNames_openAll hx).imp_right (hς x))
  obtain ⟨k, hrun, hk'⟩ := succeeds_unify (c := ⟨.hindleyMilner, Γ⟩) (by simp) hη hrealizes hnames
    (fun x hx => List.mem_append_right _ (hty hx)) hsimple (by
      rw [heq]
      exact (Ty.mapNames_congr fun x hx => hagree x (hty hx)).symm)
  obtain ⟨η', hη', hagree', hmodels⟩ := hk'.models
  refine ⟨⟨k.supply, k.subst.without (σ.openAll ς).1.1⟩, ?_, hk'.isSimple.without _, fun x hx => ?_,
    fun x hx => hk'.inUse x (List.mem_append_right _ hx), η', hη', fun x hx => ?_, ?_⟩
  · rw [checkVar_eq hi, hrun]
    rfl
  · exact hk'.names x (Subst.mem_freeNames_of_without hx)
  · rw [hagree' x (List.mem_append_right _ hx), hagree x hx]
  · exact hmodels.without _

theorem succeeds_checkApp {t u : Term} {p q : Premise} (hθ : IsSimpleMap θ)
    (hk : Solution.Realizes N θ ⟨σ, []⟩) (hΓ : Γ.freeNames ⊆ N) (hty : ty.freeNames ⊆ N)
    (hps : ∀ r ∈ [p, q], r.Fits N θ) (hmatch : PremisesMatch θ Γ [p, q] [t, u])
    (heq : p.judgment.ty.mapNames θ = (Ty.arr q.judgment.ty ty).mapNames θ) :
    Succeeds N θ (checkApp ⟨.hindleyMilner, Γ⟩ t u ty p q ⟨σ, []⟩) := by
  have hp := hps p (by simp)
  have hq := hps q (by simp)
  refine (succeeds_samePremises (by simp) hθ hk 0 hΓ hps hmatch).bind fun k hk => ?_
  refine (succeeds_adoptAll (by simp) hθ hk 0 (fun r hr => (hps r hr).substNames)
    fun r hr => (hps r hr).models).bind fun k hk => ?_
  exact succeeds_unify (by simp) hθ hk hp.tyNames (List.append_subset.mpr ⟨hq.tyNames, hty⟩) hp.ty heq

theorem succeeds_checkIte {i t e : Term} {p q r : Premise} (hθ : IsSimpleMap θ)
    (hk : Solution.Realizes N θ ⟨σ, []⟩) (hΓ : Γ.freeNames ⊆ N) (hty : ty.freeNames ⊆ N)
    (hps : ∀ s ∈ [p, q, r], s.Fits N θ) (hmatch : PremisesMatch θ Γ [p, q, r] [i, t, e])
    (hpty : p.judgment.ty.mapNames θ = Ty.bool.mapNames θ)
    (hqty : q.judgment.ty.mapNames θ = ty.mapNames θ)
    (hrty : r.judgment.ty.mapNames θ = ty.mapNames θ) :
    Succeeds N θ (checkIte ⟨.hindleyMilner, Γ⟩ i t e ty p q r ⟨σ, []⟩) := by
  have hp := hps p (by simp)
  have hq := hps q (by simp)
  have hr := hps r (by simp)
  refine (succeeds_samePremises (by simp) hθ hk 0 hΓ hps hmatch).bind fun k hk => ?_
  refine (succeeds_adoptAll (by simp) hθ hk 0 (fun s hs => (hps s hs).substNames)
    fun s hs => (hps s hs).models).bind fun k hk => ?_
  refine (succeeds_unify (by simp) hθ hk hp.tyNames (by simp [Ty.freeNames]) hp.ty hpty).bind
    fun k hk => ?_
  refine (succeeds_unify (by simp) hθ hk hq.tyNames hty hq.ty hqty).bind fun k hk => ?_
  exact succeeds_unify (by simp) hθ hk hr.tyNames hty hr.ty hrty

theorem succeeds_checkAbs {annot : Option Ty} {t : Term} {p : Premise} {x : String} {a : Ty}
    {Δ : Context} (hθ : IsSimpleMap θ) (hk : Solution.Realizes N θ ⟨σ, []⟩) (hΓ : Γ.freeNames ⊆ N)
    (hty : ty.freeNames ⊆ N) (hsimple : ty.isSimple) (hannot : ∀ a' ∈ annot, a'.isSimple)
    (hannotNames : ∀ a' ∈ annot, a'.freeNames ⊆ N) (hp : p.Fits N θ)
    (hcontext : p.judgment.context = ⟨x, .var a⟩ :: Δ)
    (hmatch : (Context.SameKinds Δ Γ ∧ p.judgment.term.alphaEq t) ∧ Context.EqualUnder θ Δ Γ)
    (ha : ∀ a' ∈ annot, a'.mapNames θ = a.mapNames θ)
    (heq : ty.mapNames θ = (Ty.arr a (p.judgment.ty.shift (-1))).mapNames θ) :
    Succeeds N θ (checkAbs ⟨.hindleyMilner, Γ⟩ annot t ty p ⟨σ, []⟩) := by
  obtain ⟨⟨hkinds, hterm⟩, hequal⟩ := hmatch
  have hnames := hp.contextNames
  have hschemes := hp.schemes
  rw [hcontext] at hnames hschemes
  have haNames : a.freeNames ⊆ N := fun y hy => hnames (List.mem_append_left _ hy)
  have hΔNames : Context.freeNames Δ ⊆ N := fun y hy => hnames (List.mem_append_right _ hy)
  rw [checkAbs_eq annot t ty hcontext]
  refine Succeeds.bind ?_ fun k hk => succeeds_unify (by simp) hθ hk hty ?_ hsimple heq
  · refine (succeeds_sameContext (by simp) hθ hk 0 hΔNames hΓ hschemes.tail hkinds hequal).bind
      fun k hk => ?_
    rw [sameTerm, if_pos hterm, unbind_of_isSimple 0 hp.isSimple]
    refine (succeeds_adopt (by simp) hθ hk 0 hp.substNames hp.models).bind fun k hk => ?_
    cases annot with
    | none => exact ⟨k, rfl, hk⟩
    | some a' =>
      exact succeeds_unify (by simp) hθ hk (hannotNames a' rfl) haNames (hannot a' rfl) (ha a' rfl)
  · refine List.append_subset.mpr ⟨haNames, ?_⟩
    rw [Ty.freeNames_shift]
    exact hp.tyNames

end Rules

end Conclusion

/-- A node without a definition, whose equations the map satisfies. -/
theorem Conclusion.succeeds_check {j : Judgment} (hj : j.IsMonotyped) (hθ : IsSimpleMap θ) {r : Rule}
    (hr : r ≠ .letIn) {ps : List Premise} {σ : NameSupply} (hk : Solution.Realizes N θ ⟨σ, []⟩)
    (hnames : j.freeNames ⊆ N) (hps : ∀ p ∈ ps, p.Fits N θ)
    (hshape : r.Shape j.context j.term (ps.map (·.judgment)))
    (hequations : r.PolymorphicEquations θ j.context j.ty j.term (ps.map (·.judgment))) :
    Succeeds N θ (check ⟨.hindleyMilner, j.context⟩ r j.term j.ty ps ⟨σ, []⟩) := by
  obtain ⟨Γ, t, ty⟩ := j
  have hΓ : Γ.freeNames ⊆ N := fun x hx => hnames (by simp [Judgment.freeNames, hx])
  have hty : ty.freeNames ⊆ N := fun x hx => hnames (by simp [Judgment.freeNames, hx])
  dsimp only at hshape hequations ⊢
  generalize hjs : ps.map (·.judgment) = js at hshape hequations
  unfold Rule.Shape at hshape
  split at hshape
  case h_1 =>
    obtain rfl := List.map_eq_nil_iff.mp hjs
    obtain ⟨ς, hi⟩ := hshape
    exact succeeds_checkVar hθ hk hΓ hty hi (hequations ς hi)
  case h_2 pos x annot t y a Δ t' b =>
    obtain ⟨p, ps, rfl, hp, hnil⟩ := List.map_eq_cons_iff.mp hjs
    obtain rfl := List.map_eq_nil_iff.mp hnil
    obtain ⟨hequal, ha, heq⟩ := hequations
    have hcontext : p.judgment.context = ⟨y, .var a⟩ :: Δ := by rw [hp]
    have hannot : ∀ a' ∈ annot, a'.freeNames ⊆ N := fun a' ha' z hz => hnames (by
      obtain rfl : annot = some a' := ha'
      simp [Judgment.freeNames, Term.typeNames, hz])
    refine succeeds_checkAbs hθ hk hΓ hty hj.ty hj.term.1 hannot (hps p (by simp)) hcontext
      ⟨?_, hequal⟩ ha ?_
    · rwa [hp]
    · rwa [hp]
  case h_3 pos t u p q =>
    obtain ⟨p, ps, rfl, rfl, hqs⟩ := List.map_eq_cons_iff.mp hjs
    obtain ⟨q, ps, rfl, rfl, hnil⟩ := List.map_eq_cons_iff.mp hqs
    obtain rfl := List.map_eq_nil_iff.mp hnil
    obtain ⟨⟨hp, hq⟩, heq⟩ := hequations
    exact succeeds_checkApp hθ hk hΓ hty hps ⟨⟨hshape.1, hp⟩, ⟨hshape.2, hq⟩, trivial⟩ heq
  case h_4 pos i t e p q r =>
    obtain ⟨p, ps, rfl, rfl, hqs⟩ := List.map_eq_cons_iff.mp hjs
    obtain ⟨q, ps, rfl, rfl, hrs⟩ := List.map_eq_cons_iff.mp hqs
    obtain ⟨r, ps, rfl, rfl, hnil⟩ := List.map_eq_cons_iff.mp hrs
    obtain rfl := List.map_eq_nil_iff.mp hnil
    obtain ⟨⟨hp, hq, hr⟩, hpty, hqty, hrty⟩ := hequations
    exact succeeds_checkIte hθ hk hΓ hty hps
      ⟨⟨hshape.1, hp⟩, ⟨hshape.2.1, hq⟩, ⟨hshape.2.2, hr⟩, trivial⟩ hpty hqty hrty
  case h_5 => exact absurd rfl hr
  case h_6 =>
    obtain rfl := List.map_eq_nil_iff.mp hjs
    exact succeeds_unify (by simp) hθ hk hty (by simp [Ty.freeNames]) hj.ty hequations
  case h_7 =>
    obtain rfl := List.map_eq_nil_iff.mp hjs
    exact succeeds_unify (by simp) hθ hk hty (by simp [Ty.freeNames]) hj.ty hequations
  case h_8 => exact hshape.elim

namespace RuleTree

/-- The names of the substitution under which the tree holds. -/
def reported (t : RuleTree) : List String :=
  match (t.check .hindleyMilner).outcome with
  | .ok s => s.freeNames
  | .error _ => []

def judgmentNames (t : RuleTree) : List String := (t.judgment?.map Judgment.freeNames).getD []

/-- The names that a rule finds in a premise. -/
def visible (t : RuleTree) : List String := t.judgmentNames ++ t.reported

mutual

/-- The names of the substitution that are not those of the judgments of the node or its premises,
or are local to a premise. -/
def locals : RuleTree → List String
  | ⟨context, term, type, rule, children⟩ =>
    let t : RuleTree := ⟨context, term, type, rule, children⟩
    t.reported.filter fun x =>
      x ∉ t.judgmentNames ++ children.flatMap visible ∨ x ∈ localsIn children

def localsIn : List RuleTree → List String
  | [] => []
  | t :: ts => t.locals ++ localsIn ts

end

theorem mem_localsIn {ts : List RuleTree} {x : String} :
    x ∈ localsIn ts ↔ ∃ t ∈ ts, x ∈ t.locals := by
  induction ts with
  | nil => simp [localsIn]
  | cons t ts ih => simp [localsIn, ih]

theorem mem_locals {t : RuleTree} {x : String} :
    x ∈ t.locals ↔ x ∈ t.reported ∧ (x ∉ t.judgmentNames ++ t.children.flatMap visible ∨
      ∃ c ∈ t.children, x ∈ c.locals) := by
  cases t
  rw [locals, List.mem_filter, decide_eq_true_iff, mem_localsIn]

/-- Names that are local to a premise are neither in the conclusion nor visible in another premise. -/
def KeepsLocalsApart (n : RuleTree) : Prop :=
  ∀ c ∈ n.children, (∀ x ∈ c.locals, x ∉ n.judgmentNames) ∧
    ∀ d ∈ n.children, c ≠ d → ∀ x ∈ c.locals, x ∉ d.visible

theorem KeepsLocalsApart.notMem_locals {t : RuleTree} (h : t.KeepsLocalsApart) {x : String}
    (hx : x ∈ t.judgmentNames) : x ∉ t.locals := fun hlocal => by
  rcases (mem_locals.mp hlocal).2 with hnew | ⟨c, hc, hlocal⟩
  · exact hnew (List.mem_append_left _ hx)
  · exact (h c hc).1 x hlocal hx

/-- Maps for the premises fit together. -/
theorem exists_joint_map {cs : List RuleTree} (hθ : IsSimpleMap θ) {η : RuleTree → String → Ty}
    (hη : ∀ c ∈ cs, IsSimpleMap (η c))
    (hapart : ∀ c ∈ cs, ∀ d ∈ cs, c ≠ d → ∀ x ∈ c.locals, x ∉ d.visible) :
    ∃ ζ, IsSimpleMap ζ ∧ (∀ c ∈ cs, ∀ x ∈ c.locals, ζ x = η c x) ∧
      ∀ x, (∀ c ∈ cs, x ∉ c.locals) → ζ x = θ x := by
  classical
  refine ⟨fun x => if h : ∃ c ∈ cs, x ∈ c.locals then η h.choose x else θ x, fun x => ?_,
    fun c hc x hx => ?_, fun x hx => dif_neg fun ⟨c, hc, hlocal⟩ => hx c hc hlocal⟩
  · dsimp only
    split
    · rename_i h
      exact hη _ h.choose_spec.1 x
    · exact hθ x
  · have h : ∃ c ∈ cs, x ∈ c.locals := ⟨c, hc, hx⟩
    obtain ⟨hmem, hlocal⟩ := h.choose_spec
    refine (dif_pos h).trans ?_
    by_cases hne : h.choose = c
    · rw [hne]
    · refine absurd ?_ (hapart _ hmem c hc hne x hlocal)
      exact List.mem_append_right _ (mem_locals.mp hx).1

/-- The tree is valid, and its substitution holds under a map that differs from `θ` at local names
only. -/
structure IsCarried (θ : String → Ty) (c : RuleTree) (p : Premise) (η : String → Ty) : Prop where
  isValid : (c.check .hindleyMilner).isValid = true
  judgment? : c.judgment? = some p.judgment
  outcome : (c.check .hindleyMilner).outcome = .ok p.subst
  isSimple : p.subst.IsSimple
  isSimpleMap : IsSimpleMap η
  models : p.subst.Models η
  agrees : ∀ x ∈ c.visible, x ∉ c.locals → η x = θ x

theorem IsCarried.judgmentNames_eq {c : RuleTree} {p : Premise} {η : String → Ty}
    (h : IsCarried θ c p η) : c.judgmentNames = p.judgment.freeNames := by
  rw [judgmentNames, h.judgment?]
  rfl

theorem IsCarried.reported_eq {c : RuleTree} {p : Premise} {η : String → Ty}
    (h : IsCarried θ c p η) : c.reported = p.subst.freeNames := by
  rw [reported, h.outcome]

/-- The map makes the root an instance of a rule of Hindley-Milner, which is not that of a definition.
All that is not changed by a map is as the rule demands, and the type has no quantifiers. -/
def IsInstantiatedBy (θ : String → Ty) (n : RuleTree) : Prop :=
  ∃ j ∈ n.judgment?, (j.Admitted .hindleyMilner ∧ j.ty.isMono = true) ∧
    (n.rule ≠ .letIn ∧ n.rule.fits j.term = true ∧ n.rule.arity = n.children.length) ∧
    n.rule.Shape j.context j.term (n.children.filterMap judgment?) ∧
    n.rule.PolymorphicEquations θ j.context j.ty j.term (n.children.filterMap judgment?)

/-- Every quantified variable of the context of the root occurs in its scheme. -/
def UsesQuantifiers (n : RuleTree) : Prop :=
  ∀ j ∈ n.judgment?, ∀ i a, j.context.getType? i = some a → a.UsesQuantifiers

instance (θ : String → Ty) (n : RuleTree) : Decidable (n.IsInstantiatedBy θ) :=
  inferInstanceAs (Decidable (∃ j ∈ n.judgment?, _))

instance (Γ : Context) : Decidable (∀ i a, Γ.getType? i = some a → a.UsesQuantifiers) :=
  decidable_of_iff _ (Context.forall_getType?_iff (p := fun _ a => a.UsesQuantifiers))

instance (n : RuleTree) : Decidable n.UsesQuantifiers :=
  inferInstanceAs (Decidable (∀ j ∈ n.judgment?, _))

section Nodes

variable {t : RuleTree} {j : Judgment} {p : RuleTree → Premise} {η : RuleTree → String → Ty}

theorem map_asPremise_of_isCarried (h : ∀ c ∈ t.children, IsCarried θ c (p c) (η c)) :
    t.children.map (fun c => (c.check .hindleyMilner).asPremise) =
      (t.children.map p).map fun q => (some q.judgment, q.subst) := by
  rw [List.map_map]
  refine List.map_congr_left fun c hc => ?_
  have hfields : (c.check .hindleyMilner).fields.judgment? = some (p c).judgment := by
    rw [fields_check]
    exact (h c hc).judgment?
  simp [Checked.asPremise, hfields, (h c hc).outcome]

theorem mem_namesInUse_iff (hj : t.judgment? = some j)
    (h : ∀ c ∈ t.children, IsCarried θ c (p c) (η c)) {x : String} :
    x ∈ namesInUse j (t.children.map p) ↔ x ∈ t.judgmentNames ++ t.children.flatMap visible := by
  have hvisible : ∀ c ∈ t.children, c.visible = (p c).judgment.freeNames ++ (p c).subst.freeNames :=
    fun c hc => by rw [visible, (h c hc).judgmentNames_eq, (h c hc).reported_eq]
  have hroot : t.judgmentNames = j.freeNames := by
    rw [judgmentNames, hj]
    rfl
  rw [namesInUse, List.flatMap_map, ← List.flatMap_congr hvisible, List.mem_append, hroot,
    List.mem_append, or_comm]

/-- One node, once the maps for its premises have been put together. -/
theorem exists_isCarried_of_joint_map (hj : t.judgment? = some j)
    (hadmitted : j.Admitted .hindleyMilner) (hmonotyped : j.IsMonotyped)
    (hcarried : ∀ c ∈ t.children, IsCarried θ c (p c) (η c)) {ζ : String → Ty}
    (hζ : IsSimpleMap ζ) (hps : ∀ c ∈ t.children, (p c).Fits (namesInUse j (t.children.map p)) ζ)
    (hnew : ∀ x, (∀ c ∈ t.children, x ∉ c.locals) → ζ x = θ x)
    (hapart : t.KeepsLocalsApart) (hlet : t.rule ≠ .letIn)
    (hfits : t.rule.fits j.term = true) (harity : t.rule.arity = t.children.length)
    (hshape : t.rule.Shape j.context j.term ((t.children.map p).map (·.judgment)))
    (hequations : t.rule.PolymorphicEquations ζ j.context j.ty j.term
      ((t.children.map p).map (·.judgment))) : ∃ q ξ, IsCarried θ t q ξ := by
  have hk : Solution.Realizes (namesInUse j (t.children.map p)) ζ
      ⟨.avoiding (namesInUse j (t.children.map p)), []⟩ :=
    ⟨by simp [Subst.IsSimple], by simp [Subst.freeNames], fun x hx => by simpa using hx,
      ζ, hζ, fun _ _ => rfl, by simp [Subst.Models]⟩
  obtain ⟨⟨σ, s⟩, hcheck, hs⟩ := Conclusion.succeeds_check hmonotyped hζ hlet hk
    (fun x hx => List.mem_append_right _ hx) (List.forall_mem_map.mpr hps) hshape hequations
  obtain ⟨ξ, hξ, hagree, hmodels⟩ := hs.models
  have hrule := checkRule_eq_ok_iff.mpr
    ⟨hfits, by simpa using harity, _, map_asPremise_of_isCarried hcarried, σ, hcheck⟩
  obtain ⟨hvalid, houtcome⟩ := isValid_check_iff.mpr
    ⟨j, hj, hadmitted, hrule, fun c hc => (hcarried c hc).isValid⟩
  refine ⟨⟨j, s⟩, ξ, hvalid, hj, houtcome, hs.isSimple, hξ, hmodels, fun x hx hlocal => ?_⟩
  have hinUse : x ∈ t.judgmentNames ++ t.children.flatMap visible ∧ ∀ c ∈ t.children, x ∉ c.locals := by
    rw [mem_locals] at hlocal
    push Not at hlocal
    rcases List.mem_append.mp hx with hx | hx
    · exact ⟨List.mem_append_left _ hx, fun c hc hlocal => (hapart c hc).1 x hlocal hx⟩
    · exact hlocal hx
  rw [hagree x ((mem_namesInUse_iff hj hcarried).mpr hinUse.1), hnew x hinUse.2]

end Nodes

theorem exists_isCarried (hθ : IsSimpleMap θ) {t : RuleTree}
    (hnodes : ∀ n, t.HasNode n → n.IsInstantiatedBy θ)
    (huses : ∀ n, t.HasNode n → n.UsesQuantifiers)
    (hapart : ∀ n, t.HasNode n → n.KeepsLocalsApart) : ∃ p η, IsCarried θ t p η := by
  induction t using RuleTree.induction with
  | node t ih =>
    obtain ⟨⟨j, hj, ⟨hadmitted, hmono⟩, ⟨hlet, hfits, harity⟩, hshape, hequations⟩, hbelow⟩ :=
      forall_hasNode_iff.mp hnodes
    obtain ⟨-, husesBelow⟩ := forall_hasNode_iff.mp huses
    obtain ⟨hroot, hapartBelow⟩ := forall_hasNode_iff.mp hapart
    have : Nonempty Premise := ⟨⟨j, []⟩⟩
    have hcarried := fun c hc => ih c hc (hbelow c hc) (husesBelow c hc) (hapartBelow c hc)
    choose! p η hcarried using hcarried
    have hmonotyped := isMonotyped_of_admitted hj hadmitted hmono
    obtain ⟨ζ, hζ, hlocals, hnew⟩ := exists_joint_map hθ (fun c hc => (hcarried c hc).isSimpleMap)
      fun c hc d hd hne => (hroot c hc).2 d hd hne
    -- what is visible in a premise and not local to it, is not local to another one
    have hglobal : ∀ c ∈ t.children, ∀ x ∈ c.visible, x ∉ c.locals → ζ x = θ x :=
      fun c hc x hx hlocal => hnew x fun d hd hlocal' => by
        by_cases hne : d = c
        · exact hlocal (hne ▸ hlocal')
        · exact (hroot d hd).2 c hc hne x hlocal' hx
    have hagree : ∀ c ∈ t.children, ∀ x ∈ c.visible, ζ x = η c x := fun c hc x hx => by
      by_cases hlocal : x ∈ c.locals
      · exact hlocals c hc x hlocal
      · rw [hglobal c hc x hx hlocal, (hcarried c hc).agrees x hx hlocal]
    have hjudgments : ∀ c ∈ t.children, ∀ x ∈ (p c).judgment.freeNames, ζ x = θ x :=
      fun c hc x hx => by
        rw [← (hcarried c hc).judgmentNames_eq] at hx
        exact hglobal c hc x (List.mem_append_left _ hx)
          ((hapartBelow c hc c (.root c)).notMem_locals hx)
    have hconclusion : ∀ x ∈ j.freeNames, ζ x = θ x := fun x hx => hnew x fun c hc hlocal =>
      (hroot c hc).1 x hlocal (by rw [judgmentNames, hj]; exact hx)
    rw [filterMap_judgment?_eq (map_asPremise_of_isCarried hcarried)] at hshape hequations
    refine exists_isCarried_of_joint_map hj hadmitted hmonotyped hcarried hζ (fun c hc => ?_) hnew
      hroot hlet hfits harity hshape (hequations.congr hconclusion ?_)
    · obtain ⟨j', hj', ⟨hadmitted', hmono'⟩, -⟩ := hbelow c hc c (.root c)
      obtain rfl : j' = (p c).judgment := Option.some.inj (hj'.symm.trans (hcarried c hc).judgment?)
      have hmonotyped' := isMonotyped_of_admitted hj' hadmitted' hmono'
      have hinUse : ∀ x, x ∈ (p c).judgment.freeNames ++ (p c).subst.freeNames →
          x ∈ namesInUse j (t.children.map p) := fun x hx =>
        List.mem_append_left _ (List.mem_flatMap.mpr ⟨p c, List.mem_map_of_mem hc, hx⟩)
      refine ⟨⟨hmonotyped'.context, husesBelow c hc c (.root c) _ hj'⟩, hmonotyped'.ty,
        (hcarried c hc).isSimple, fun x hx => hinUse x ?_, fun x hx => hinUse x ?_,
        fun x hx => hinUse x (List.mem_append_right _ hx), ?_⟩
      · simp [Judgment.freeNames, hx]
      · simp [Judgment.freeNames, hx]
      · refine (hcarried c hc).models.congr fun x hx => hagree c hc x (List.mem_append_right _ ?_)
        rwa [(hcarried c hc).reported_eq]
    · simpa using hjudgments

/-- Completeness: a tree without definitions is valid if some map makes all its nodes instances of
their rules, and names that are local to a premise occur nowhere else that its conclusion can see.
The substitution of the root holds under a map that extends the given one. -/
theorem isValid_of_keepsLocalsApart (hθ : IsSimpleMap θ) {t : RuleTree}
    (hnodes : ∀ n, t.HasNode n → n.IsInstantiatedBy θ)
    (huses : ∀ n, t.HasNode n → n.UsesQuantifiers)
    (hapart : ∀ n, t.HasNode n → n.KeepsLocalsApart) :
    (t.check .hindleyMilner).isValid = true ∧
      ∃ s η, (t.check .hindleyMilner).outcome = .ok s ∧ IsSimpleMap η ∧ s.Models η ∧
        ∀ x ∈ t.judgmentNames, η x = θ x := by
  obtain ⟨p, η, h⟩ := exists_isCarried hθ hnodes huses hapart
  refine ⟨h.isValid, p.subst, η, h.outcome, h.isSimpleMap, h.models, fun x hx => ?_⟩
  exact h.agrees x (List.mem_append_left _ hx) ((hapart t (.root t)).notMem_locals hx)

/-- An application of one identity to another one. Their quantified variables have different names. -/
def twoIdentities : RuleTree :=
  let Γ := "f: ∀X. X → X, g: ∀Y. Y → Y"
  ⟨Γ, "f g", "Bool → Bool", .app, [⟨Γ, "f", "M", .var, []⟩, ⟨Γ, "g", "N", .var, []⟩]⟩

/-- What the names have to be for the identity of functions on `Bool` to be applied. -/
def identityTypes (x : String) : Ty :=
  if x = "M" then .arr (.arr .bool .bool) (.arr .bool .bool) else .arr .bool .bool

theorem isSimpleMap_identityTypes : IsSimpleMap identityTypes := fun x => by
  unfold identityTypes
  split <;> rfl

theorem isValid_of_keepsLocalsApart_twoIdentities :
    (∀ n, twoIdentities.HasNode n → n.IsInstantiatedBy identityTypes) ∧
      (∀ n, twoIdentities.HasNode n → n.UsesQuantifiers) ∧
      (∀ n, twoIdentities.HasNode n → n.KeepsLocalsApart) ∧
      (twoIdentities.check .hindleyMilner).isValid = true := by
  have hnodes : ∀ n, twoIdentities.HasNode n → n.IsInstantiatedBy identityTypes :=
    forall_of_allNodes (by decide +kernel)
  have huses : ∀ n, twoIdentities.HasNode n → n.UsesQuantifiers :=
    forall_of_allNodes (by decide +kernel)
  have hapart : ∀ n, twoIdentities.HasNode n → n.KeepsLocalsApart := by
    have hpair : ∀ {p : RuleTree → Prop} {c d : RuleTree}, p c → p d → ∀ n ∈ [c, d], p n :=
      fun hc hd => by simpa using ⟨hc, hd⟩
    refine forall_hasNode_iff.mpr ⟨hpair ⟨by decide +kernel, ?_⟩ ⟨by decide +kernel, ?_⟩, hpair ?_ ?_⟩
    · exact hpair (fun h => absurd rfl h) fun _ => by decide +kernel
    · exact hpair (fun _ => by decide +kernel) fun h => absurd rfl h
    · exact forall_hasNode_iff.mpr ⟨by simp [KeepsLocalsApart], by simp⟩
    · exact forall_hasNode_iff.mpr ⟨by simp [KeepsLocalsApart], by simp⟩
  exact ⟨hnodes, huses, hapart,
    (isValid_of_keepsLocalsApart isSimpleMap_identityTypes hnodes huses hapart).1⟩

/-- An application of the identity to itself, at two types. -/
def oneIdentity : RuleTree :=
  let Γ := "f: ∀X. X → X"
  ⟨Γ, "f f", "Bool → Bool", .app, [⟨Γ, "f", "M", .var, []⟩, ⟨Γ, "f", "N", .var, []⟩]⟩

/-- A premise with other names, one of them below an idle quantifier. -/
def idleQuantifier : RuleTree :=
  ⟨"x: N, f: ∀X. N", "λy: Bool. true", "Bool → Bool", .abs,
    [⟨"x: M, f: ∀X. M, y: Bool", "true", "Bool", .constTrue, []⟩]⟩

/-- The tree is not valid, though some map makes all its nodes instances of their rules. -/
def IsMissed (t : RuleTree) : Prop :=
  (t.check .hindleyMilner).isValid = false ∧
    ∃ θ, IsSimpleMap θ ∧ ∀ n, t.HasNode n → n.IsInstantiatedBy θ

/-- Two premises that call a local name the same, and a scheme that is opened to a name. -/
theorem isMissed_oneIdentity_and_idleQuantifier : oneIdentity.IsMissed ∧ idleQuantifier.IsMissed :=
  ⟨⟨by decide +kernel, identityTypes, isSimpleMap_identityTypes,
      forall_of_allNodes (by decide +kernel)⟩,
    by decide +kernel, fun _ => .bool, fun _ => rfl, forall_of_allNodes (by decide +kernel)⟩

end RuleTree

end LambdaTyping
