import Mathlib
import LambdaTyping.Proofs.MostGeneralUnifiers
import LambdaTyping.Proofs.AlphaEquivalence

/-!
# The laws of unification

What the unifiers answer, in terms of alpha-equivalence. An answer is a most
general unifier in solved form, and an error means that no unifier exists. A
unifier may put any well scoped type in the place of a name, and this includes
the substitutions themselves, whose bindings take effect one after the other.
-/
namespace LambdaTyping

theorem Ty.alphaEqAt_of_erase_eq {a b : Ty} (c : Nat) (h : a.erase = b.erase) :
    a.alphaEqAt c b = true := by
  induction a generalizing b c with
  | arr a₁ a₂ ih₁ ih₂ =>
    cases b with
    | arr b₁ b₂ =>
      obtain ⟨h₁, h₂⟩ : a₁.erase = b₁.erase ∧ a₂.erase = b₂.erase := by simpa [erase] using h
      simp [alphaEqAt, ih₁ c h₁, ih₂ c h₂]
    | _ => simp [erase] at h
  | all x a ih =>
    cases b with
    | all y b =>
      have hab : a.erase = b.erase := by simpa [erase] using h
      simp [alphaEqAt, ih (c + 1) hab]
    | _ => simp [erase] at h
  | _ => cases b <;> simp_all [erase, alphaEqAt, sameVar]

theorem unifies_iff_alphaEq {n : Nat} {θ : String → Ty} (hθ : IsScopedMap n θ) {a b : Ty}
    (ha : a.WellScoped n) (hb : b.WellScoped n) :
    Unifies θ a b ↔ (a.mapNames θ).alphaEq (b.mapNames θ) = true :=
  (Ty.alphaEq_iff_erase (Ty.WellScoped.mapNamesAt (c := 0) (fun x _ => hθ x) ha)
    (Ty.WellScoped.mapNamesAt (c := 0) (fun x _ => hθ x) hb)).symm

namespace Subst

theorem Solved.nodup_domain {s : Subst} (h : s.Solved) : s.domain.Nodup := by
  induction s with
  | nil => exact List.nodup_nil
  | cons b s ih =>
    obtain ⟨x, t⟩ := b
    exact List.nodup_cons.mpr ⟨h.2.1, ih h.2.2.2⟩

theorem Solved.apply_apply {s : Subst} (h : s.Solved) (t : Ty) :
    s.apply (s.apply t) = s.apply t :=
  apply_of_disjoint fun _ hx hd => h.notMem_freeNames_apply hd t hx

theorem Solved.holds {s : Subst} (h : s.Solved) : Holds s.image s := fun b hb => by
  rw [Unifies, Ty.mapNames_name, h.models b hb]

theorem Holds.alphaEq_apply {θ : String → Ty} {s : Subst} (h : Holds θ s) (t : Ty) :
    ((s.apply t).mapNames θ).alphaEq (t.mapNames θ) = true := by
  refine Ty.alphaEqAt_of_erase_eq 0 ?_
  rw [apply_eq_mapNames, Ty.mapNames_mapNames]
  exact Ty.erase_mapNames_congr fun x _ => h.erase_image x

section Without

variable {s : Subst} {names : List String} {θ : String → Ty}

/-- The bindings of a solved substitution hold of what comes after it. -/
theorem Solved.models_mapNames (h : s.Solved) (θ : String → Ty) :
    s.Models fun x => (s.image x).mapNames θ := by
  intro b hb
  change (s.image b.1).mapNames θ = b.2.mapNames fun x => (s.image x).mapNames θ
  rw [h.models b hb, Ty.mapNames_mapNames]

theorem IsSimple.without (h : s.IsSimple) (names : List String) : (s.without names).IsSimple := by
  intro b hb
  obtain ⟨x, -, rfl⟩ := List.mem_map.mp hb
  exact h.image x

theorem Solved.without (h : s.Solved) (names : List String) : (s.without names).Solved := by
  suffices ∀ xs : List String, xs.Nodup → (∀ x ∈ xs, x ∈ s.domain) →
      Solved (xs.map fun x => (x, s.apply (.name x))) from
    this _ (h.nodup_domain.filter _) fun x hx => (List.mem_filter.mp hx).1
  intro xs hnodup hdomain
  induction xs with
  | nil => trivial
  | cons x xs ih =>
    obtain ⟨hx, hxs⟩ := List.nodup_cons.mp hnodup
    rw [List.forall_mem_cons] at hdomain
    have hrest : domain (xs.map fun x => (x, s.apply (.name x))) = xs := by
      simp [domain, Function.comp_def]
    refine ⟨h.notMem_freeNames_apply hdomain.1 _, ?_, fun y hy => ?_, ih hxs hdomain.2⟩
    · rwa [hrest]
    · rw [hrest] at hy
      exact h.notMem_freeNames_apply (hdomain.2 y hy) _

theorem mem_domain_without {x : String} :
    x ∈ (s.without names).domain ↔ x ∈ s.domain ∧ x ∉ names := by
  simp [Subst.without, domain, Function.comp_def]

/-- The names left have the images that they had. These are final: nothing in them is bound, so
that applying the new bindings one after the other changes no image again. -/
theorem Solved.image_without (h : s.Solved) (names : List String) (x : String) :
    (s.without names).image x = if x ∈ names then .name x else s.image x := by
  by_cases hx : x ∈ (s.without names).domain
  · obtain ⟨hdomain, hnames⟩ := mem_domain_without.mp hx
    have hmem : (x, s.image x) ∈ s.without names :=
      List.mem_map.mpr ⟨x, by simp [hdomain, hnames], rfl⟩
    rw [if_neg hnames, (h.without names).models _ hmem]
    refine Ty.mapNames_eq_self fun y hy => image_of_notMem_domain fun hbound => ?_
    exact h.notMem_freeNames_apply (mem_domain_without.mp hbound).1 _ hy
  · rw [image_of_notMem_domain hx]
    rw [mem_domain_without, not_and_not_right] at hx
    split_ifs with hnames
    · rfl
    · exact (image_of_notMem_domain fun hdomain => hnames (hx hdomain)).symm

/-- For the other names the bindings of the whole substitution still hold. -/
theorem Models.of_without (h : (s.without names).Models θ) {x : String} (hx : x ∉ names) :
    (s.image x).mapNames θ = θ x := by
  by_cases hdomain : x ∈ s.domain
  · exact (h (x, s.image x) (List.mem_map.mpr ⟨x, by simp [hdomain, hx], rfl⟩)).symm
  · rw [image_of_notMem_domain hdomain, Ty.mapNames_name]

theorem Models.without (h : s.Models θ) (names : List String) :
    (s.without names).Models θ := fun b hb => by
  obtain ⟨x, -, rfl⟩ := List.mem_map.mp hb
  exact (h.image_mapNames x).symm

theorem mem_freeNames_of_without {y : String} (h : y ∈ (s.without names).freeNames) :
    y ∈ s.freeNames := by
  obtain ⟨b, hb, hy⟩ := List.mem_flatMap.mp h
  obtain ⟨x, hx, rfl⟩ := List.mem_map.mp hb
  have hx' := mem_freeNames_of_mem_domain (List.mem_filter.mp hx).1
  rcases List.mem_append.mp hy with hy | hy
  · exact (mem_freeNames_image hy).elim (fun h => h ▸ hx') id
  · rwa [List.mem_singleton.mp hy]

end Without

end Subst

/-- A most general unifier in solved form, for types of a context of length `n`. -/
structure IsPrincipalUnifier (n : Nat) (a b : Ty) (s : Subst) : Prop where
  unifies : (s.apply a).alphaEq (s.apply b) = true
  names : ∀ x ∈ s.freeNames, x ∈ a.freeNames ∨ x ∈ b.freeNames
  nodup : s.domain.Nodup
  idempotent : ∀ t, s.apply (s.apply t) = s.apply t
  factors : ∀ θ, IsScopedMap n θ → (a.mapNames θ).alphaEq (b.mapNames θ) = true →
    ∀ t, ((s.apply t).mapNames θ).alphaEq (t.mapNames θ) = true

/-- An answer is a most general unifier, and an error means that there is no unifier. -/
def IsPrincipalAnswer (n : Nat) (a b : Ty) : Except TypeError Subst → Prop
  | .ok s => IsPrincipalUnifier n a b s
  | .error _ => ¬ ∃ θ, IsScopedMap n θ ∧ (a.mapNames θ).alphaEq (b.mapNames θ) = true

theorem IsMgu.isPrincipalUnifier {n : Nat} {a b : Ty} {s : Subst} (h : IsMgu n a b s)
    (ha : a.WellScoped n) (hb : b.WellScoped n) : IsPrincipalUnifier n a b s where
  unifies := by
    have himage : IsScopedMap n s.image := fun x => h.wellScoped_apply (t := .name x) trivial
    have hs := (h.unifies_iff s.image himage).mpr h.solved.holds
    rw [Subst.apply_eq_mapNames, Subst.apply_eq_mapNames]
    exact (unifies_iff_alphaEq himage ha hb).mp hs
  names := h.names
  nodup := h.solved.nodup_domain
  idempotent := h.solved.apply_apply
  factors θ hθ hu t :=
    ((h.unifies_iff θ hθ).mp ((unifies_iff_alphaEq hθ ha hb).mpr hu)).alphaEq_apply t

theorem IsUnification.isPrincipalAnswer {n : Nat} {a b : Ty} {r : Except TypeError Subst}
    (h : IsUnification n a b r) (ha : a.WellScoped n) (hb : b.WellScoped n) :
    IsPrincipalAnswer n a b r := by
  cases r with
  | ok s => exact IsMgu.isPrincipalUnifier h ha hb
  | error e =>
    rintro ⟨θ, hθ, hu⟩
    exact h θ hθ ((unifies_iff_alphaEq hθ ha hb).mpr hu)

theorem isUnification_unifyRigid {n : Nat} {a b : Ty} (ha : a.WellScoped n) (hb : b.WellScoped n) :
    IsUnification n a b (unifyRigid a b) :=
  Unify.isUnification_rigidWithin ha hb (Unify.card_nameSet_le a b)

theorem isMgu_of_unifyRigid {n : Nat} {a b : Ty} {s : Subst} (ha : a.WellScoped n)
    (hb : b.WellScoped n) (h : unifyRigid a b = .ok s) : IsMgu n a b s := by
  have hmgu := isUnification_unifyRigid ha hb
  rwa [h] at hmgu

theorem isUnification_unify {n : Nat} {a b : Ty} (ha : a.WellScoped n) (hb : b.WellScoped n)
    (hma : a.isMono) (hmb : b.isMono) : IsUnification n a b (unify a b) := by
  have hrigid : unify a b = Unify.rigidWithin (Unify.openingRounds a b) a b := by
    rw [unify, unifyOpening, Unify.openingWithin_eq_ofExcept _ hma hmb]
    cases Unify.rigidWithin (Unify.openingRounds a b) a b <;> rfl
  rw [hrigid]
  exact Unify.isUnification_rigidWithin ha hb (Unify.card_nameSet_le_openingRounds a b)

/-- Rigid unification is right on all well scoped types, and unification on those without
quantifiers. -/
theorem isPrincipalAnswer_unifiers {n : Nat} {a b : Ty} (ha : a.WellScoped n) (hb : b.WellScoped n) :
    IsPrincipalAnswer n a b (unifyRigid a b) ∧
      (a.isMono = true → b.isMono = true → IsPrincipalAnswer n a b (unify a b)) :=
  ⟨(isUnification_unifyRigid ha hb).isPrincipalAnswer ha hb,
    fun hma hmb => (isUnification_unify ha hb hma hmb).isPrincipalAnswer ha hb⟩

/-- The codomains meet only after the domains have bound `B` to the variable of the context. -/
theorem isPrincipalAnswer_unifiers_nested :
    let v : Ty := .var 0 1
    let a : Ty := .arr (.all "X" (.arr (.var 0 2) (.name "B"))) (.name "A")
    let b : Ty := .arr (.all "Y" (.arr (.var 0 2) (.var 1 2))) (.arr (.name "B") v)
    (a.WellScoped 1 ∧ b.WellScoped 1) ∧
      unifyRigid a b = .ok [("A", .arr v v), ("B", v)] ∧ IsPrincipalAnswer 1 a b (unifyRigid a b) ∧
      IsPrincipalAnswer 1 (.arr (.name "A") (.name "A")) (.arr v (.name "B"))
        (unify (.arr (.name "A") (.name "A")) (.arr v (.name "B"))) := by
  intro v a b
  have ha : a.WellScoped 1 := by simp [a, Ty.WellScoped]
  have hb : b.WellScoped 1 := by simp [b, v, Ty.WellScoped]
  refine ⟨⟨ha, hb⟩, by decide, (isPrincipalAnswer_unifiers ha hb).1, ?_⟩
  exact (isPrincipalAnswer_unifiers (by simp [Ty.WellScoped]) (by simp [v, Ty.WellScoped])).2 rfl rfl

end LambdaTyping
