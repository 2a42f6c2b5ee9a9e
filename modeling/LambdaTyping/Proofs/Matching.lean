import Mathlib
import LambdaTyping.Proofs.PrincipalUnifiers

/-!
# Matching and the comparison of schemes

Unification of a type with one that it is mapped to. If the names that are mapped
do not occur in the target, the unifier binds only these, and to what they are
mapped to: a name on the left is bound before a name on the right. Types may refer
to variables of the context, but have no quantifiers.

So a scheme is recognised as an instance of another one exactly if the opened
general scheme can be mapped to the opened special one, and schemes that use all
their quantifiers and differ in the names and the order of these are recognised as
equivalent.
-/
namespace LambdaTyping

/-- All images are types without quantifiers, in a context of length `n`. -/
def IsMonoMap (n : Nat) (θ : String → Ty) : Prop := ∀ x, (θ x).IsMonoIn n

theorem IsMonoMap.isScopedMap {n : Nat} {θ : String → Ty} (h : IsMonoMap n θ) : IsScopedMap n θ :=
  fun x => (h x).wellScoped

theorem IsMonoMap.mapNames {n : Nat} {θ : String → Ty} (h : IsMonoMap n θ) {t : Ty}
    (ht : t.IsMonoIn n) : (t.mapNames θ).IsMonoIn n where
  isMono := Ty.isMono_mapNames (fun x => (h x).isMono) ht.isMono
  wellScoped := Ty.WellScoped.mapNamesAt (c := 0) (fun x _ => (h x).wellScoped) ht.wellScoped

/-- The map takes the first type to the second one. It changes no names but those of `V`, which do
not occur in the second type. -/
structure Matches (n : Nat) (V : String → Prop) (θ : String → Ty) (a b : Ty) : Prop where
  isMonoMap : IsMonoMap n θ
  eq : a.mapNames θ = b
  off : ∀ x, ¬ V x → θ x = .name x
  fresh : ∀ x ∈ b.freeNames, ¬ V x

namespace Matches

variable {n : Nat} {V : String → Prop} {θ : String → Ty} {a a₁ a₂ b : Ty} {s : Subst}

theorem arr (h : Matches n V θ (.arr a₁ a₂) b) :
    ∃ b₁ b₂, b = .arr b₁ b₂ ∧ Matches n V θ a₁ b₁ ∧ Matches n V θ a₂ b₂ := by
  obtain ⟨hθ, rfl, hoff, hfresh⟩ := h
  refine ⟨_, _, Ty.mapNames_arr θ a₁ a₂, ⟨hθ, rfl, hoff, fun x hx => ?_⟩,
    ⟨hθ, rfl, hoff, fun x hx => ?_⟩⟩
  · exact hfresh x (by rw [Ty.mapNames_arr]; exact List.mem_append_left _ hx)
  · exact hfresh x (by rw [Ty.mapNames_arr]; exact List.mem_append_right _ hx)

/-- Bindings as the map has them. -/
def Follows (V : String → Prop) (θ : String → Ty) (s : Subst) : Prop :=
  ∀ p ∈ s, V p.1 ∧ p.2 = θ p.1 ∧ ∀ x ∈ p.2.freeNames, ¬ V x

theorem Follows.models (h : Matches n V θ a b) (hs : Follows V θ s) : s.Models θ := fun p hp => by
  obtain ⟨-, heq, hfresh⟩ := hs p hp
  rw [Ty.mapNames_eq_self fun x hx => h.off x (hfresh x hx), heq]

theorem Follows.apply (h : Matches n V θ a b) (hs : Follows V θ s) :
    Matches n V θ (s.apply a) (s.apply b) := by
  have hb : s.apply b = b := Subst.apply_of_disjoint fun x hx hd => by
    obtain ⟨p, hp, rfl⟩ := List.mem_map.mp hd
    exact h.fresh p.1 hx (hs p hp).1
  rw [hb]
  exact ⟨h.isMonoMap, by rw [(hs.models h).apply_mapNames, h.eq], h.off, h.fresh⟩

theorem follows_rigidRound {next : Ty → Ty → Except TypeError Subst}
    (hnext : ∀ a b s, a.isMono → Matches n V θ a b → next a b = .ok s → Follows V θ s)
    (ha : a.isMono) (h : Matches n V θ a b) (hs : Unify.rigidRound next a b = .ok s) :
    Follows V θ s := by
  induction a generalizing b s with
  | name x =>
    obtain rfl : θ x = b := by simpa using h.eq
    rw [Unify.rigidRound] at hs
    split at hs
    case isTrue => cases hs; simp [Follows]
    case isFalse hne =>
      obtain ⟨-, rfl⟩ := Subst.bind_eq_ok_iff.mp hs
      have hV : V x := by
        by_contra hV
        exact hne (h.off x hV)
      simpa [Follows] using ⟨hV, h.fresh⟩
  | var i m =>
    obtain rfl : Ty.var i m = b := h.eq
    rw [Unify.rigidRound, if_pos rfl] at hs
    cases hs
    simp [Follows]
  | arr a₁ a₂ ih₁ ih₂ =>
    obtain ⟨b₁, b₂, rfl, h₁, h₂⟩ := h.arr
    rw [Ty.isMono, Bool.and_eq_true] at ha
    rw [Unify.rigidRound, bind_eq_ok_iff] at hs
    obtain ⟨s₁, hs₁, hs⟩ := hs
    have hfollows₁ := ih₁ ha.1 h₁ hs₁
    split at hs
    · exact ih₂ ha.2 h₂ hs
    · obtain ⟨s₂, hs₂, hs⟩ := bind_eq_ok_iff.mp hs
      cases hs
      have hmono : (s₁.apply a₂).isMono :=
        Unify.apply_of_hereditary Ty.hereditary_isMono (i := ())
          (fun p hp => (hfollows₁ p hp).2.1 ▸ (h.isMonoMap p.1).isMono) ha.2
      have hfollows₂ := hnext _ _ s₂ hmono (hfollows₁.apply h₂) hs₂
      exact fun p hp => (List.mem_append.mp hp).elim (hfollows₂ p) (hfollows₁ p)
  | bool =>
    obtain rfl : Ty.bool = b := h.eq
    cases hs
    simp [Follows]
  | all x a ih => simp [Ty.isMono] at ha

theorem follows_rigidWithin (rounds : Nat) (ha : a.isMono) (h : Matches n V θ a b)
    (hs : Unify.rigidWithin rounds a b = .ok s) : Follows V θ s := by
  induction rounds generalizing a b s with
  | zero => exact follows_rigidRound (fun _ _ _ _ _ h => by cases h) ha h hs
  | succ rounds ih => exact follows_rigidRound (fun _ _ _ ha h hs => ih ha h hs) ha h hs

/-- The unifier of a type and what it is mapped to binds only names that are mapped. -/
theorem exists_unifyOpening (h : Matches n V θ a b) (ha : a.IsMonoIn n) (σ : NameSupply) :
    ∃ s, unifyOpening a b σ = .ok s σ ∧ IsMonoMgu n a b s ∧ Follows V θ s := by
  have hb : b.IsMonoIn n := h.eq ▸ h.isMonoMap.mapNames ha
  have hunifies : Unifies θ a b := by
    rw [Unifies, h.eq, Ty.mapNames_eq_self fun x hx => h.off x (h.fresh x hx)]
  rcases unifyOpening_mono_cases ha hb with ⟨s, hmgu, hrun⟩ | ⟨-, hnone⟩
  · have hrigid := hrun σ
    rw [unifyOpening, Unify.openingWithin_eq_ofExcept _ ha.isMono hb.isMono,
      Supplied.ofExcept_eq_ok_iff] at hrigid
    exact ⟨s, hrun σ, hmgu, follows_rigidWithin _ ha.isMono h hrigid.1⟩
  · exact absurd hunifies (hnone θ h.isMonoMap.isScopedMap)

theorem mem_of_mem_domain (h : Matches n V θ a b) (hmgu : IsMonoMgu n a b s) (hs : Follows V θ s)
    {x : String} (hx : x ∈ s.domain) : x ∈ a.freeNames ∧ V x := by
  obtain ⟨p, hp, rfl⟩ := List.mem_map.mp hx
  have hV := (hs p hp).1
  exact ⟨(hmgu.names p.1 (Subst.mem_freeNames_of_mem_domain hx)).resolve_right fun hx' =>
    h.fresh p.1 hx' hV, hV⟩

theorem Follows.image_of_not (hs : Follows V θ s) {x : String} (hx : ¬ V x) :
    s.image x = .name x :=
  Subst.image_of_notMem_domain fun hd => by
    obtain ⟨p, hp, rfl⟩ := List.mem_map.mp hd
    exact hx (hs p hp).1

theorem apply_right (h : Matches n V θ a b) (hs : Follows V θ s) : s.apply b = b := by
  rw [Subst.apply_eq_mapNames, Ty.mapNames_eq_self fun y hy => hs.image_of_not (h.fresh y hy)]

/-- The unifier maps the names of the first type as the map does. -/
theorem image_eq (h : Matches n V θ a b) (heq : s.apply a = s.apply b) (hs : Follows V θ s)
    {x : String} (hx : x ∈ a.freeNames) : s.image x = θ x := by
  have hnames : ∀ y ∈ (s.image x).freeNames, ¬ V y := fun y hy => h.fresh y <| by
    rw [← h.apply_right hs, ← heq, Subst.apply_eq_mapNames, Ty.mem_freeNames_mapNames]
    exact ⟨x, hx, hy⟩
  rw [← (hs.models h).image_mapNames, Ty.mapNames_eq_self fun y hy => h.off y (hnames y hy)]

/-- Types that are mapped to each other: each name that is mapped goes to one that is mapped back
to it. -/
theorem exists_name {V' : String → Prop} {θ' : String → Ty} (h : Matches n V θ a b)
    (h' : Matches n V' θ' b a) {x : String} (hx : x ∈ a.freeNames) (hV : V x) :
    ∃ y, V' y ∧ θ x = .name y ∧ θ' y = .name x := by
  have hback : (θ x).mapNames θ' = .name x := by
    refine Ty.eq_of_mapNames_eq_self (θ := fun y => (θ y).mapNames θ') (t := a) ?_ hx
    rw [← Ty.mapNames_mapNames, h.eq, h'.eq]
  have hnames : ∀ y ∈ (θ x).freeNames, ¬ V y := fun y hy => h.fresh y <| by
    rw [← h.eq, Ty.mem_freeNames_mapNames]
    exact ⟨x, hx, hy⟩
  generalize θ x = u at hback hnames
  cases u with
  | name y =>
    have hy : θ' y = .name x := by simpa using hback
    refine ⟨y, ?_, rfl, hy⟩
    by_contra hy'
    rw [h'.off y hy', Ty.name.injEq] at hy
    exact hnames y (by simp [Ty.freeNames]) (hy ▸ hV)
  | _ => cases hback

/-- Types that are mapped to each other with all the names that are mapped in use: the map renames
these, one by one. -/
theorem exists_renaming {n : Nat} {va vb : List String} {a b : Ty} {θ θ' : String → Ty}
    (h : Matches n (· ∈ va) θ a b) (h' : Matches n (· ∈ vb) θ' b a)
    (hva : ∀ x ∈ va, x ∈ a.freeNames) (hvb : ∀ x ∈ vb, x ∈ b.freeNames) (hnodupa : va.Nodup)
    (hnodupb : vb.Nodup) :
    ∃ f : String → String, (∀ x ∈ va, θ x = .name (f x)) ∧ (va.map f).Perm vb := by
  have hthere : ∀ x ∈ va, ∃ y ∈ vb, θ x = .name y ∧ θ' y = .name x := fun x hx =>
    h.exists_name h' (hva x hx) hx
  choose! f hf using hthere
  have hnodup : (va.map f).Nodup := hnodupa.map_on fun x hx x' hx' heq => by
    have hback := (hf x hx).2.2
    rw [heq, (hf x' hx').2.2, Ty.name.injEq] at hback
    exact hback.symm
  refine ⟨f, fun x hx => (hf x hx).2.1, (List.perm_ext_iff_of_nodup hnodup hnodupb).mpr fun y => ?_⟩
  rw [List.mem_map]
  refine ⟨fun ⟨x, hx, hxy⟩ => hxy ▸ (hf x hx).1, fun hy => ?_⟩
  obtain ⟨x, hx, -, hxy⟩ := h'.exists_name h (hvb y hy) hy
  rw [(hf x hx).2.1, Ty.name.injEq] at hxy
  exact ⟨x, hx, hxy⟩

end Matches

namespace NameSupply

theorem nodup_openAll (ty : Ty) (σ : NameSupply) : (σ.openAll ty).1.1.Nodup := by
  induction ty, σ using openAll_induction with
  | all x a σ ih =>
    rw [openAll_all]
    refine List.nodup_cons.mpr ⟨fun hx => openAll_notMem hx ?_, ih⟩
    simp
  | other ty σ h => simp [openAll_of_not_all h]

/-- The map by which an instance is found, and the names it changes. -/
theorem exists_matches_of_instance {ty τ : Ty} {σ : NameSupply}
    (hty : ∀ x ∈ ty.freeNames, x ∈ σ.used) (h : ty.Instance τ)
    (hτ : ∀ x ∈ τ.freeNames, x ∉ (σ.openAll ty).1.1) :
    ∃ η, Matches 0 (· ∈ (σ.openAll ty).1.1) η (σ.openAll ty).1.2 τ ∧
      (σ.openAll ty).1.2.isSimple := by
  rw [← Ty.mapNames_id ty] at h
  obtain ⟨η, hη, hoff, heq⟩ := exists_of_instance_openAll isSimpleMap_name hty h
  have hmap : IsMonoMap 0 η := fun x => Ty.isMonoIn_of_isSimple 0 (hη x)
  exact ⟨η, ⟨hmap, heq, hoff, hτ⟩, isSimple_openAll isSimpleMap_name hty h⟩

theorem isSimple_openAll_of_instance {ty : Ty} {σ : NameSupply}
    (hty : ∀ x ∈ ty.freeNames, x ∈ σ.used) (h : ∃ τ, ty.Instance τ) :
    (σ.openAll ty).1.2.isSimple := by
  obtain ⟨τ, hτ⟩ := h
  rw [← Ty.mapNames_id ty] at hτ
  exact isSimple_openAll isSimpleMap_name hty hτ

section TwoTypes

variable {a b : Ty} {σ : NameSupply} {x : String}

/-- The names that the first of two types is opened with are not in the second one. -/
theorem notMem_left_of_mem_freeNames (hb : ∀ x ∈ b.freeNames, x ∈ σ.used)
    (hx : x ∈ ((σ.openAll a).2.openAll b).1.2.freeNames) : x ∉ (σ.openAll a).1.1 := fun hopened => by
  rcases mem_freeNames_openAll hx with hnew | hx
  · exact openAll_notMem hnew (mem_used_openAll.mpr (.inl hopened))
  · exact openAll_notMem hopened (hb x hx)

/-- The names that the second of two types is opened with are not in the first one. -/
theorem notMem_right_of_mem_freeNames (ha : ∀ x ∈ a.freeNames, x ∈ σ.used)
    (hx : x ∈ (σ.openAll a).1.2.freeNames) : x ∉ ((σ.openAll a).2.openAll b).1.1 := fun hnew => by
  refine openAll_notMem hnew (mem_used_openAll.mpr ?_)
  exact (mem_freeNames_openAll hx).imp_right (ha x)

end TwoTypes

end NameSupply

namespace Context

variable {Γ : Context} {a b gen spec : Ty}

theorem mem_used_supplyFor {tys : List Ty} {ty : Ty} (hty : ty ∈ tys) {x : String}
    (hx : x ∈ ty.freeNames) : x ∈ (Γ.supplyFor tys).used := by
  rw [supplyFor, NameSupply.mem_used_avoiding]
  exact List.mem_append_right _ (List.mem_flatMap.mpr ⟨ty, hty, hx⟩)

theorem bindsOnly_eq_true_iff {free vars : NameSet} {answer : Except TypeError Subst} :
    bindsOnly free vars answer = true ↔
      ∃ s, answer = .ok s ∧ ∀ x ∈ s.domain, x ∈ free ∧ x ∈ vars := by
  cases answer with
  | error e => simp [bindsOnly]
  | ok s => simp [bindsOnly]

theorem isInstance_eq {σ : NameSupply} (hσ : Γ.supplyFor [gen, spec] = σ) :
    Γ.isInstance gen spec = bindsOnly (.ofNames (σ.openAll gen).1.2.freeNames)
      (.ofNames (σ.openAll gen).1.1) ((unifyOpening (σ.openAll gen).1.2
        ((σ.openAll gen).2.openAll spec).1.2).answer ((σ.openAll gen).2.openAll spec).2) := by
  rw [isInstance, hσ]

/-- The comparison finds a map that takes the opened general scheme to the opened special one, if
there is one. -/
theorem isInstance_iff_exists_matches {n : Nat} {σ : NameSupply}
    (hσ : Γ.supplyFor [gen, spec] = σ) (hgen : (σ.openAll gen).1.2.IsMonoIn n)
    (hspec : ((σ.openAll gen).2.openAll spec).1.2.IsMonoIn n) :
    Γ.isInstance gen spec = true ↔ ∃ η, Matches n (· ∈ (σ.openAll gen).1.1) η
      (σ.openAll gen).1.2 ((σ.openAll gen).2.openAll spec).1.2 := by
  have hfresh : ∀ x ∈ ((σ.openAll gen).2.openAll spec).1.2.freeNames, x ∉ (σ.openAll gen).1.1 :=
    fun x => NameSupply.notMem_left_of_mem_freeNames fun x hx => hσ ▸ mem_used_supplyFor (by simp) hx
  rw [isInstance_eq hσ, bindsOnly_eq_true_iff]
  simp only [NameSet.mem_ofNames]
  constructor
  · rintro ⟨s, hanswer, hdomain⟩
    obtain ⟨σ', hunify⟩ := Supplied.answer_eq_ok_iff.mp hanswer
    rcases unifyOpening_mono_cases hgen hspec with ⟨r, hmgu, hrun⟩ | ⟨⟨e, hrun⟩, -⟩
    · rw [hrun] at hunify
      cases hunify
      have heq := hmgu.apply_eq hgen.isMono hspec.isMono
      rw [Subst.apply_of_disjoint fun x hx hd => hfresh x hx (hdomain x hd).2,
        Subst.apply_eq_mapNames] at heq
      refine ⟨s.image, hmgu.isMonoIn_image, heq, fun x hx => ?_, hfresh⟩
      exact Subst.image_of_notMem_domain fun hd => hx (hdomain x hd).2
    · rw [hrun] at hunify
      cases hunify
  · rintro ⟨η, hmatches⟩
    obtain ⟨s, hrun, hmgu, hfollows⟩ := hmatches.exists_unifyOpening hgen _
    exact ⟨s, Supplied.answer_eq_ok_iff.mpr ⟨_, hrun⟩,
      fun x => hmatches.mem_of_mem_domain hmgu hfollows⟩

/-- The opened schemes are simple where there are instances. -/
theorem isSimple_of_instances {σ : NameSupply} (hσ : Γ.supplyFor [gen, spec] = σ)
    (hgen : ∃ τ, gen.Instance τ) (hspec : ∃ τ, spec.Instance τ) :
    (σ.openAll gen).1.2.isSimple ∧ ((σ.openAll gen).2.openAll spec).1.2.isSimple := by
  refine ⟨NameSupply.isSimple_openAll_of_instance (fun x hx => ?_) hgen,
    NameSupply.isSimple_openAll_of_instance (fun x hx => ?_) hspec⟩
  · exact hσ ▸ mem_used_supplyFor (by simp) hx
  · exact NameSupply.mem_used_openAll.mpr (.inr (hσ ▸ mem_used_supplyFor (by simp) hx))

/-- A scheme that another one is an instance of has no other names, and all instances of it. -/
theorem instance_of_isInstance (hgen : ∃ τ, gen.Instance τ) (hspec : ∃ τ, spec.Instance τ)
    (h : Γ.isInstance gen spec = true) :
    (∀ x ∈ gen.freeNames, x ∈ spec.freeNames) ∧ ∀ θ, IsSimpleMap θ → ∀ τ,
      (spec.mapNames θ).Instance τ → (gen.mapNames θ).Instance τ := by
  generalize hσ : Γ.supplyFor [gen, spec] = σ
  obtain ⟨hg, hs⟩ := isSimple_of_instances hσ hgen hspec
  obtain ⟨η, hη, hopen, hoff, -⟩ := (isInstance_iff_exists_matches hσ
    (Ty.isMonoIn_of_isSimple 0 hg) (Ty.isMonoIn_of_isSimple 0 hs)).mp h
  have hgen' : ∀ x ∈ gen.freeNames, x ∈ σ.used := fun x hx => hσ ▸ mem_used_supplyFor (by simp) hx
  have hspec' : ∀ x ∈ spec.freeNames, x ∈ (σ.openAll gen).2.used := fun x hx =>
    NameSupply.mem_used_openAll.mpr (.inr (hσ ▸ mem_used_supplyFor (by simp) hx))
  have hkept : ∀ x ∈ gen.freeNames, η x = .name x := fun x hx =>
    hoff x fun hopened => NameSupply.openAll_notMem hopened (hgen' x hx)
  have hnew : ∀ x ∈ gen.freeNames, x ∉ ((σ.openAll gen).2.openAll spec).1.1 := fun x hx hmem =>
    NameSupply.openAll_notMem hmem (NameSupply.mem_used_openAll.mpr (.inr (hgen' x hx)))
  constructor
  · intro x hx
    have hinst := @NameSupply.instance_openAll _ (fun x => (hη x).isSimple) gen σ (by rwa [hopen])
    rw [Ty.mapNames_eq_self hkept, hopen] at hinst
    exact (NameSupply.mem_freeNames_openAll (hinst.mem_freeNames hx)).resolve_left (hnew x hx)
  · intro θ hθ τ hτ
    obtain ⟨ζ, hζ, hsame, rfl⟩ := NameSupply.exists_of_instance_openAll hθ hspec' hτ
    have hcomp : IsSimpleMap fun x => (η x).mapNames ζ := fun x =>
      Ty.isSimple_mapNames hζ (hη x).isSimple
    have hinst := @NameSupply.instance_openAll _ hcomp gen σ
    rw [← Ty.mapNames_mapNames, ← Ty.mapNames_mapNames, hopen] at hinst
    have hgenθ : (gen.mapNames η).mapNames ζ = gen.mapNames θ := by
      rw [Ty.mapNames_eq_self hkept]
      exact Ty.mapNames_congr fun x hx => hsame x (hnew x hx)
    rw [← hgenθ]
    exact hinst (Ty.isSimple_mapNames hζ hs)

/-- Two schemes opened one after the other, as they are to be compared. -/
theorem exists_matches_of_forall_instance {σ : NameSupply} (hgen : ∀ x ∈ gen.freeNames, x ∈ σ.used)
    (hspec : ∀ x ∈ spec.freeNames, x ∈ σ.used) (hτ : ∃ τ, spec.Instance τ)
    (h : ∀ τ, spec.Instance τ → gen.Instance τ) :
    ∃ η, Matches 0 (· ∈ (σ.openAll gen).1.1) η (σ.openAll gen).1.2
        ((σ.openAll gen).2.openAll spec).1.2 ∧ (σ.openAll gen).1.2.isSimple := by
  have hsimple := NameSupply.isSimple_openAll_of_instance (σ := (σ.openAll gen).2)
    (fun x hx => NameSupply.mem_used_openAll.mpr (.inr (hspec x hx))) hτ
  exact NameSupply.exists_matches_of_instance hgen
    (h _ (NameSupply.instance_openAll_self hsimple)) fun x =>
      NameSupply.notMem_left_of_mem_freeNames hspec

theorem isInstance_of_forall_instance (hτ : ∃ τ, spec.Instance τ)
    (h : ∀ τ, spec.Instance τ → gen.Instance τ) : Γ.isInstance gen spec = true := by
  obtain ⟨hg, hs⟩ := isSimple_of_instances (Γ := Γ) rfl (hτ.imp h) hτ
  obtain ⟨η, hmatches, -⟩ := exists_matches_of_forall_instance (σ := Γ.supplyFor [gen, spec])
    (fun x hx => mem_used_supplyFor (by simp) hx) (fun x hx => mem_used_supplyFor (by simp) hx) hτ h
  exact (isInstance_iff_exists_matches rfl (Ty.isMonoIn_of_isSimple 0 hg)
    (Ty.isMonoIn_of_isSimple 0 hs)).mpr ⟨η, hmatches⟩

/-- The comparison of types is exact for instances of a scheme, whatever the context. -/
theorem instance_iff_isInstance {ς τ : Ty} :
    ς.Instance τ ↔ τ.isSimple ∧ ((Γ.supplyFor [ς]).openAll ς).1.2.isSimple ∧
      Γ.isInstance ς τ = true := by
  refine ⟨fun h => ⟨h.isSimple, ?_, ?_⟩, fun ⟨hτ, hς, h⟩ => ?_⟩
  · exact NameSupply.isSimple_openAll_of_instance (fun x hx => mem_used_supplyFor (by simp) hx) ⟨τ, h⟩
  · refine isInstance_of_forall_instance ⟨τ, .simple h.isSimple⟩ fun τ' hτ' => ?_
    rwa [(Ty.instance_iff_of_isSimple h.isSimple).mp hτ']
  · have hinstance := (instance_of_isInstance ⟨_, NameSupply.instance_openAll_self hς⟩
      ⟨τ, .simple hτ⟩ h).2 .name isSimpleMap_name τ
    rw [Ty.mapNames_id, Ty.mapNames_id] at hinstance
    exact hinstance (.simple hτ)

instance (ς τ : Ty) : Decidable (ς.Instance τ) :=
  decidable_of_iff _ (instance_iff_isInstance (Γ := [])).symm

end Context

namespace Ty

/-- Every outermost quantified variable occurs below its quantifier. -/
def UsesQuantifiers : Ty → Prop
  | all _ a => a.hasVar 0 ∧ a.UsesQuantifiers
  | _ => True

instance decidableUsesQuantifiers : (t : Ty) → Decidable t.UsesQuantifiers
  | .all _ a =>
    have := decidableUsesQuantifiers a
    inferInstanceAs (Decidable (_ ∧ _))
  | .name _ | .var .. | .arr .. | .bool => isTrue trivial

theorem hasVar_shapeAt {i c : Nat} (h : i < c) (t : Ty) : (t.shapeAt c).hasVar i = t.hasVar i := by
  induction t generalizing i c with
  | var j n =>
    simp only [shapeAt, hasVar]
    split
    · rfl
    · rw [beq_eq_false_iff_ne.mpr (by omega), beq_eq_false_iff_ne.mpr (by omega)]
  | arr a b iha ihb => simp only [shapeAt, hasVar, iha h, ihb h]
  | all x a ih => simp only [shapeAt, hasVar, ih (Nat.succ_lt_succ h)]
  | _ => rfl

theorem usesQuantifiers_shapeAt (c : Nat) (t : Ty) :
    (t.shapeAt c).UsesQuantifiers ↔ t.UsesQuantifiers := by
  induction t generalizing c with
  | all x a ih => simp only [shapeAt, UsesQuantifiers, ih, hasVar_shapeAt (Nat.succ_pos c)]
  | _ => simp only [shapeAt, UsesQuantifiers]

theorem UsesQuantifiers.of_shapeAt_eq {c : Nat} {t u : Ty} (ht : t.UsesQuantifiers)
    (h : t.shapeAt c = u.shapeAt c) : u.UsesQuantifiers := by
  rwa [← usesQuantifiers_shapeAt c, ← h, usesQuantifiers_shapeAt]

theorem hasVar_fillAt_name {x : String} {i c : Nat} (hi : i < c) (t : Ty) :
    (t.fillAt (name x) c).hasVar i = t.hasVar i := by
  induction t generalizing i c with
  | var j n =>
    rw [fillAt]
    split
    · simp [hasVar]
      omega
    · simp only [hasVar]
      grind
  | arr a b iha ihb => simp only [fillAt, hasVar, iha hi, ihb hi]
  | all y a ih => exact ih (Nat.succ_lt_succ hi)
  | _ => rfl

theorem mem_freeNames_fillAt_name {x : String} {t : Ty} {c : Nat} :
    x ∈ (t.fillAt (name x) c).freeNames ↔ t.hasVar c ∨ x ∈ t.freeNames := by
  induction t generalizing c with
  | var j n =>
    rw [fillAt]
    split <;> simp_all [hasVar, freeNames]
  | arr a b iha ihb =>
    simp only [fillAt, freeNames, hasVar, List.mem_append, Bool.or_eq_true, iha, ihb]
    tauto
  | all y a ih => exact ih (c := c + 1)
  | _ => simp [fillAt, hasVar, freeNames]

theorem usesQuantifiers_fillAt_name {x : String} (c : Nat) (t : Ty) :
    (t.fillAt (name x) c).UsesQuantifiers ↔ t.UsesQuantifiers := by
  induction t generalizing c with
  | var i n =>
    rw [fillAt]
    split <;> exact Iff.rfl
  | all y a ih => simp only [fillAt, UsesQuantifiers, hasVar_fillAt_name (Nat.succ_pos c), ih]
  | _ => exact Iff.rfl

theorem hasVar_bindNameAt {x : String} {len c i : Nat} {t : Ty} (h : t.hasVar i) :
    (t.bindNameAt x len c).hasVar i := by
  induction t generalizing c i with
  | arr a b iha ihb =>
    rw [hasVar, Bool.or_eq_true] at h
    rw [bindNameAt, hasVar, Bool.or_eq_true]
    exact h.imp iha ihb
  | all y a ih => exact ih (i := i + 1) h
  | var j n => exact h
  | _ => simp [hasVar] at h

theorem hasVar_bindNameAt_of_mem {x : String} {len c : Nat} {t : Ty} (h : x ∈ t.freeNames) :
    (t.bindNameAt x len c).hasVar c := by
  induction t generalizing c with
  | name y =>
    obtain rfl : x = y := by simpa [freeNames] using h
    simp [bindNameAt, hasVar]
  | arr a b iha ihb =>
    rw [bindNameAt, hasVar, Bool.or_eq_true]
    exact (List.mem_append.mp h).imp iha ihb
  | all y a ih => exact ih (c := c + 1) h
  | _ => simp [freeNames] at h

theorem UsesQuantifiers.bindNameAt {x : String} {len : Nat} {t : Ty} (c : Nat)
    (h : t.UsesQuantifiers) : (t.bindNameAt x len c).UsesQuantifiers := by
  induction t generalizing c with
  | name y =>
    rw [Ty.bindNameAt]
    split <;> trivial
  | all y a ih => exact ⟨hasVar_bindNameAt h.1, ih (c + 1) h.2⟩
  | _ => trivial

theorem usesQuantifiers_of_isSimple {t : Ty} (h : t.isSimple) : t.UsesQuantifiers := by
  cases t with
  | all x a => simp at h
  | _ => trivial

/-- Generalizing over different names of a simple type uses all quantifiers. -/
theorem usesQuantifiers_generalize {len : Nat} {xs : List String} {t : Ty} (ht : t.isSimple)
    (hnodup : xs.Nodup) (hxs : ∀ x ∈ xs, x ∈ t.freeNames) :
    (t.generalize len xs).UsesQuantifiers := by
  induction xs with
  | nil => exact usesQuantifiers_of_isSimple ht
  | cons x xs ih =>
    obtain ⟨hx, hnodup⟩ := List.nodup_cons.mp hnodup
    have huses := ih hnodup fun y hy => hxs y (List.mem_cons_of_mem x hy)
    have hmem : x ∈ ((t.generalize len xs).shift 1).freeNames := by
      rw [freeNames_shift, mem_freeNames_generalize]
      exact ⟨hxs x List.mem_cons_self, hx⟩
    rw [generalize_cons]
    refine ⟨hasVar_bindNameAt_of_mem hmem, UsesQuantifiers.bindNameAt 0 ?_⟩
    exact huses.of_shapeAt_eq (shapeAt_shiftAbove 1 0 _).symm

theorem UsesQuantifiers.mapNamesAt {θ : String → Ty} {t : Ty} (h : t.UsesQuantifiers) (hθ : IsSimpleMap θ)
    (c : Nat) : (t.mapNamesAt θ c).UsesQuantifiers := by
  induction t generalizing c with
  | name x =>
    have hx := hθ x
    rw [Ty.mapNamesAt, shift_of_isSimple _ hx]
    generalize θ x = u at hx
    cases u with
    | all y a => simp at hx
    | _ => trivial
  | all x a ih => exact ⟨hasVar_mapNamesAt_of_hasVar θ h.1, ih h.2 (c + 1)⟩
  | _ => trivial

theorem shapeAt_eq_of_alphaEqAt {c : Nat} {t u : Ty} (h : t.alphaEqAt c u) :
    t.shapeAt c = u.shapeAt c := by
  induction t generalizing c u with
  | var i n =>
    cases u with
    | var j m =>
      simp only [alphaEqAt, sameVar] at h
      simp only [shapeAt, var.injEq, and_true]
      split at h
      case isTrue hlt =>
        obtain rfl : i = j := by simpa using h
        rfl
      case isFalse hge => rw [if_neg (by omega), if_neg (by omega)]
    | _ => simp [alphaEqAt] at h
  | arr a b iha ihb =>
    cases u with
    | arr a' b' =>
      rw [alphaEqAt, Bool.and_eq_true] at h
      simp only [shapeAt, iha h.1, ihb h.2]
    | _ => simp [alphaEqAt] at h
  | all x a ih =>
    cases u with
    | all y b =>
      simp only [shapeAt, ih h]
    | _ => simp [alphaEqAt] at h
  | name x =>
    cases u with
    | name y =>
      obtain rfl : x = y := by simpa [alphaEqAt] using h
      rfl
    | _ => simp [alphaEqAt] at h
  | bool => cases u <;> simp_all [alphaEqAt, shapeAt]

end Ty

namespace NameSupply

theorem mem_freeNames_openAll_of_mem {ty : Ty} {σ : NameSupply} {x : String}
    (hx : x ∈ ty.freeNames) : x ∈ (σ.openAll ty).1.2.freeNames := by
  induction ty, σ using openAll_induction with
  | all y a σ ih =>
    rw [openAll_all]
    refine ih ?_
    rw [Ty.openWith_eq_fillAt]
    exact Ty.mem_freeNames_fillAt _ 0 a hx
  | other ty σ hne => rwa [openAll_of_not_all hne]

/-- A type whose quantifiers are used has all the names it is opened with. -/
theorem mem_freeNames_of_mem_openAll {ty : Ty} {σ : NameSupply}
    (h : ty.UsesQuantifiers) {x : String} (hx : x ∈ (σ.openAll ty).1.1) :
    x ∈ (σ.openAll ty).1.2.freeNames := by
  induction ty, σ using openAll_induction with
  | all y a σ ih =>
    rw [openAll_all] at hx ⊢
    rcases List.mem_cons.mp hx with rfl | hx
    · refine mem_freeNames_openAll_of_mem ?_
      rw [Ty.openWith_eq_fillAt]
      exact Ty.mem_freeNames_fillAt_name.mpr (.inl h.1)
    · refine ih ?_ hx
      rw [Ty.openWith_eq_fillAt]
      exact (Ty.usesQuantifiers_fillAt_name 0 a).mpr h.2
  | other ty σ hne => simp [openAll_of_not_all hne] at hx

/-- A quantifier whose new name occurs is used. -/
theorem usesQuantifiers_of_openAll {ty : Ty} {σ : NameSupply}
    (hty : ∀ x ∈ ty.freeNames, x ∈ σ.used)
    (h : ∀ x ∈ (σ.openAll ty).1.1, x ∈ (σ.openAll ty).1.2.freeNames) : ty.UsesQuantifiers := by
  induction ty, σ using openAll_induction with
  | all y a σ ih =>
    rw [openAll_all, List.forall_mem_cons] at h
    have hbody := ih (fun x => mem_used_of_mem_freeNames_openWith hty) h.2
    have hopen : (σ.like y).1 ∈ (a.openWith (σ.like y).1).freeNames :=
      (mem_freeNames_openAll h.1).resolve_left fun hlater =>
        openAll_notMem hlater (mem_used_like.mpr (.inl rfl))
    rw [Ty.openWith_eq_fillAt] at hbody hopen
    refine ⟨(Ty.mem_freeNames_fillAt_name.mp hopen).resolve_right fun hy => ?_,
      (Ty.usesQuantifiers_fillAt_name 0 a).mp hbody⟩
    exact like_notMem y σ (hty _ hy)
  | other ty σ hne =>
    cases ty with
    | all x a => exact absurd rfl (hne x a)
    | _ => trivial

end NameSupply

namespace NameSet

theorem sorted_congr {xs ys : List String} (h : ∀ x, x ∈ xs ↔ x ∈ ys) : sorted xs = sorted ys := by
  refine Std.TreeSet.Equiv.toList_eq (Std.TreeSet.Equiv.of_forall_mem_iff fun x => ?_)
  rw [mem_ofNames, mem_ofNames, h]

theorem nodup_sorted (xs : List String) : (sorted xs).Nodup := by
  have h := (ofNames xs).distinct_toList
  simp only [Std.LawfulEqCmp.compare_eq_iff_eq] at h
  exact h

theorem length_sorted {xs : List String} (h : xs.Nodup) : (sorted xs).length = xs.length :=
  ((List.perm_ext_iff_of_nodup (nodup_sorted xs) h).mpr fun _ => mem_sorted).length_eq

end NameSet

namespace Context

variable {Γ : Context} {a b gen spec : Ty}

theorem mapM_eq_some_iff {g : String → Option String} {xs ys : List String} :
    xs.mapM g = some ys ↔ ∃ f : String → String, (∀ x ∈ xs, g x = some (f x)) ∧ ys = xs.map f := by
  constructor
  · intro h
    refine ⟨fun x => (g x).getD "", ?_⟩
    induction xs generalizing ys with
    | nil =>
      obtain rfl : [] = ys := by simpa using h
      simp
    | cons x xs ih =>
      simp only [List.mapM_cons, Option.bind_eq_bind, Option.bind_eq_some_iff, Option.pure_def,
        Option.some.injEq] at h
      obtain ⟨y, hy, ys, hys, rfl⟩ := h
      obtain ⟨hxs, rfl⟩ := ih hys
      exact ⟨List.forall_mem_cons.mpr ⟨by simp [hy], hxs⟩, by simp [hy]⟩
  · rintro ⟨f, hf, rfl⟩
    induction xs with
    | nil => rfl
    | cons x xs ih =>
      rw [List.forall_mem_cons] at hf
      simp [List.mapM_cons, hf.1, ih hf.2]

/-- The images of names that the substitution takes to as many different names. -/
theorem images?_eq_some_iff {s : Subst} {among : NameSet} {xs is : List String} :
    images? s among xs = some is ↔ ∃ f : String → String,
      (∀ x ∈ xs, s.image x = .name (f x) ∧ f x ∈ among) ∧
        (NameSet.sorted (xs.map f)).length = xs.length ∧ NameSet.sorted (xs.map f) = is := by
  simp only [images?, Option.bind_eq_bind, Option.bind_eq_some_iff, mapM_eq_some_iff,
    Option.ite_none_right_eq_some, Option.some.injEq]
  constructor
  · rintro ⟨ys, ⟨f, hf, rfl⟩, hlen, his⟩
    refine ⟨f, fun x hx => ?_, hlen, his⟩
    have himage := hf x hx
    split at himage
    case h_1 y heq =>
      rw [Option.ite_none_right_eq_some, Option.some.injEq] at himage
      exact ⟨himage.2 ▸ heq, himage.2 ▸ himage.1⟩
    case h_2 => cases himage
  · rintro ⟨f, hf, hlen, his⟩
    refine ⟨_, ⟨f, fun x hx => ?_, rfl⟩, hlen, his⟩
    have himage : s.apply (.name x) = .name (f x) := (hf x hx).1
    simp [himage, (hf x hx).2]

theorem sameImages_ok_iff {s : Subst} {xs ys : List String} :
    sameImages xs ys (.ok s) = true ↔ ∃ is, images? s (.ofNames (xs ++ ys)) xs = some is ∧
      images? s (.ofNames (xs ++ ys)) ys = some is := by
  simp only [sameImages]
  cases images? s (.ofNames (xs ++ ys)) xs with
  | none => simp
  | some is =>
    cases images? s (.ofNames (xs ++ ys)) ys with
    | none => simp
    | some js => simpa using eq_comm

/-- Types that are mapped to each other with different new names: the names of one are mapped to
those of the other, one by one. -/
theorem sameImages_of_matches {n : Nat} {va vb : List String} {ga gb : Ty} {η η' : String → Ty}
    {s : Subst} (hab : Matches n (· ∈ va) η ga gb) (hba : Matches n (· ∈ vb) η' gb ga)
    (hva : ∀ x ∈ va, x ∈ ga.freeNames) (hvb : ∀ x ∈ vb, x ∈ gb.freeNames) (hnodupa : va.Nodup)
    (hnodupb : vb.Nodup) (heq : s.apply ga = s.apply gb)
    (hfollows : Matches.Follows (· ∈ va) η s) : sameImages va vb (.ok s) = true := by
  obtain ⟨f, hf, hperm⟩ := hab.exists_renaming hba hva hvb hnodupa hnodupb
  have hmem : ∀ x, x ∈ va.map f ↔ x ∈ vb.map id := fun x => by rw [List.map_id, hperm.mem_iff]
  refine sameImages_ok_iff.mpr ⟨NameSet.sorted (vb.map id), images?_eq_some_iff.mpr
    ⟨f, fun x hx => ⟨?_, ?_⟩, ?_, NameSet.sorted_congr hmem⟩, images?_eq_some_iff.mpr
    ⟨id, fun y hy => ⟨?_, ?_⟩, ?_, rfl⟩⟩
  · rw [hab.image_eq heq hfollows (hva x hx), hf x hx]
  · rw [NameSet.mem_ofNames]
    exact List.mem_append_right _ (hperm.mem_iff.mp (List.mem_map_of_mem hx))
  · rw [NameSet.length_sorted (hperm.nodup_iff.mpr hnodupb), List.length_map]
  · exact hfollows.image_of_not (hab.fresh y (hvb y hy))
  · rw [NameSet.mem_ofNames]
    exact List.mem_append_right _ hy
  · rw [List.map_id, NameSet.length_sorted hnodupb]

/-- The names of both lists occur if the substitution takes them to the same ones: a name that does
not occur is its own image and no other's. -/
theorem mem_freeNames_of_sameImages {va vb : List String} {ga : Ty} {s : Subst}
    (h : sameImages va vb (.ok s) = true) (hdisjoint : ∀ x ∈ va, x ∉ vb)
    (hdomain : ∀ x ∈ s.domain, x ∈ va ∧ x ∈ ga.freeNames) :
    (∀ x ∈ va, x ∈ ga.freeNames) ∧ ∀ y ∈ vb, y ∈ (s.apply ga).freeNames := by
  obtain ⟨is, hleft, hright⟩ := sameImages_ok_iff.mp h
  obtain ⟨f, hf, -, rfl⟩ := images?_eq_some_iff.mp hleft
  obtain ⟨g, hg, -, hsame⟩ := images?_eq_some_iff.mp hright
  have hkept : ∀ x, x ∉ va ∨ x ∉ ga.freeNames → s.image x = .name x := fun x hx =>
    Subst.image_of_notMem_domain fun hd => hx.elim (· (hdomain x hd).1) (· (hdomain x hd).2)
  have hg' : ∀ y ∈ vb, g y = y := fun y hy => by
    have himage := (hg y hy).1
    rw [hkept y (.inl fun hya => hdisjoint y hya hy), Ty.name.injEq] at himage
    exact himage.symm
  have hmem : ∀ y, y ∈ vb ↔ ∃ x ∈ va, f x = y := fun y => by
    have hsorted : y ∈ NameSet.sorted (va.map f) ↔ y ∈ va.map f := NameSet.mem_sorted
    rw [← List.mem_map, ← hsorted, ← hsame, NameSet.mem_sorted, List.map_congr_left hg',
      List.map_id']
  have hva : ∀ x ∈ va, x ∈ ga.freeNames := fun x hx => by
    by_contra hunused
    have himage := (hf x hx).1
    rw [hkept x (.inr hunused), Ty.name.injEq] at himage
    exact hdisjoint x hx ((hmem x).mpr ⟨x, hx, himage.symm⟩)
  refine ⟨hva, fun y hy => ?_⟩
  obtain ⟨x, hx, rfl⟩ := (hmem y).mp hy
  rw [Subst.apply_eq_mapNames, Ty.mem_freeNames_mapNames]
  exact ⟨x, hva x hx, by rw [(hf x hx).1]; exact List.mem_singleton_self _⟩

theorem isInstance_of_areEquivalent (h : Γ.areEquivalent gen spec = true) :
    Γ.isInstance gen spec = true := by
  rw [areEquivalent, Bool.and_eq_true, Bool.and_eq_true] at h
  exact h.1.1

/-- The comparison of types that are instances of each other, with all their quantifiers in use. -/
theorem areEquivalent_of_matches {n : Nat} {σ : NameSupply} {η η' : String → Ty}
    (hσ : Γ.supplyFor [a, b] = σ) (hab : Γ.isInstance a b = true) (hba : Γ.isInstance b a = true)
    (hη : Matches n (· ∈ (σ.openAll a).1.1) η (σ.openAll a).1.2 ((σ.openAll a).2.openAll b).1.2)
    (hη' : Matches n (· ∈ ((σ.openAll a).2.openAll b).1.1) η' ((σ.openAll a).2.openAll b).1.2
      (σ.openAll a).1.2)
    (ha : (σ.openAll a).1.2.IsMonoIn n)
    (husesa : ∀ x ∈ (σ.openAll a).1.1, x ∈ (σ.openAll a).1.2.freeNames)
    (husesb : ∀ x ∈ ((σ.openAll a).2.openAll b).1.1,
      x ∈ ((σ.openAll a).2.openAll b).1.2.freeNames) : Γ.areEquivalent a b = true := by
  obtain ⟨s, hrun, hmgu, hfollows⟩ := hη.exists_unifyOpening ha ((σ.openAll a).2.openAll b).2
  have hanswer := Supplied.answer_eq_ok_iff.mpr ⟨_, hrun⟩
  have hb : ((σ.openAll a).2.openAll b).1.2.isMono := hη.eq ▸ (hη.isMonoMap.mapNames ha).isMono
  rw [areEquivalent, Bool.and_eq_true, Bool.and_eq_true, hσ, hanswer]
  exact ⟨⟨hab, hba⟩, sameImages_of_matches hη hη' husesa husesb (NameSupply.nodup_openAll a σ)
    (NameSupply.nodup_openAll b _) (hmgu.apply_eq ha.isMono hb) hfollows⟩

theorem areEquivalent_of_forall_instance_iff (hτ : ∃ τ, a.Instance τ)
    (h : ∀ τ, a.Instance τ ↔ b.Instance τ) (ha : a.UsesQuantifiers) (hb : b.UsesQuantifiers) :
    Γ.areEquivalent a b = true := by
  have hτ' : ∃ τ, b.Instance τ := hτ.imp fun τ => (h τ).mp
  generalize hσ : Γ.supplyFor [a, b] = σ
  have husesa : ∀ x ∈ a.freeNames, x ∈ σ.used := fun x hx => hσ ▸ mem_used_supplyFor (by simp) hx
  have husesb : ∀ x ∈ b.freeNames, x ∈ σ.used := fun x hx => hσ ▸ mem_used_supplyFor (by simp) hx
  obtain ⟨η, hη, hsimple⟩ := exists_matches_of_forall_instance husesa husesb hτ' fun τ => (h τ).mpr
  obtain ⟨η', hη', -⟩ := NameSupply.exists_matches_of_instance
    (fun x hx => NameSupply.mem_used_openAll.mpr (.inr (husesb x hx)))
    ((h _).mp (NameSupply.instance_openAll_self hsimple)) fun x =>
      NameSupply.notMem_right_of_mem_freeNames (b := b) husesa
  exact areEquivalent_of_matches hσ (isInstance_of_forall_instance hτ' fun τ => (h τ).mpr)
    (isInstance_of_forall_instance hτ fun τ => (h τ).mp) hη hη' (Ty.isMonoIn_of_isSimple 0 hsimple)
    (fun x => NameSupply.mem_freeNames_of_mem_openAll ha)
    (fun x => NameSupply.mem_freeNames_of_mem_openAll hb)

theorem nodup_generic (Γ : Context) (ty : Ty) (avoid : List String) : (Γ.generic ty avoid).Nodup :=
  (NameSet.nodup_sorted _).filter _

/-- Generalizing over the same names in another order, and renaming the quantified variables, gives
an equivalent scheme. -/
theorem areEquivalent_generalize {τ ς : Ty} {len : Nat} {ys : List String} (hτ : τ.isSimple)
    (hys : ys.Perm (Γ.generic τ [])) (hς : ς.alphaEq (τ.generalize len ys)) :
    Γ.areEquivalent (Γ.generalize τ []) ς = true := by
  have hshape : (τ.generalize len ys).shapeAt 0 = ς.shapeAt 0 :=
    (Ty.shapeAt_eq_of_alphaEqAt hς).symm
  have hnames : ∀ x ∈ Γ.generic τ [], x ∈ τ.freeNames := fun x hx => (mem_generic.mp hx).1
  have hinstance : ∀ n xs τ', (τ.generalize n xs).Instance τ' ↔
      ∃ η, IsSimpleMap η ∧ (∀ x ∉ xs, η x = .name x) ∧ τ.mapNames η = τ' := fun n xs τ' => by
    have hiff := @Ty.instance_generalize_iff .name isSimpleMap_name n xs τ τ' hτ
    rwa [Ty.mapNames_id] at hiff
  have hsame : ∀ τ', (Γ.generalize τ []).Instance τ' ↔ (τ.generalize len ys).Instance τ' :=
    fun τ' => by
      rw [generalize, hinstance, hinstance]
      simp only [hys.mem_iff]
  refine areEquivalent_of_forall_instance_iff ⟨τ, ?_⟩ (fun τ' => ?_) ?_ ?_
  · exact (hinstance _ _ _).mpr ⟨.name, isSimpleMap_name, fun _ _ => rfl, Ty.mapNames_id τ⟩
  · exact (hsame τ').trans ⟨(·.of_shapeAt_eq hshape), (·.of_shapeAt_eq hshape.symm)⟩
  · exact Ty.usesQuantifiers_generalize hτ (nodup_generic Γ τ []) hnames
  · refine Ty.UsesQuantifiers.of_shapeAt_eq ?_ hshape
    exact Ty.usesQuantifiers_generalize hτ (hys.nodup_iff.mpr (nodup_generic Γ τ [])) fun x hx =>
      hnames x (hys.mem_iff.mp hx)

end Context

end LambdaTyping
