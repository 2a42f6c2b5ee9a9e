import Mathlib
import LambdaTyping.Unification
import LambdaTyping.Proofs.FreshNames

/-!
# Most general unifiers

The rigid unifier is correct on well scoped types: what it returns is a most
general unifier, and when it fails there is none. The count of rounds is no
restriction, since every new round starts with fewer names than the one before.

Types are compared without the names of their binders. On types without
quantifiers the opening unifier does the same as the rigid one, so the result
carries over to it.
-/
namespace LambdaTyping

namespace Ty

theorem mapNamesAt_add (θ : String → Ty) (c d : Nat) (t : Ty) :
    t.mapNamesAt θ (d + c) = t.mapNamesAt (fun x => (θ x).shift d) c := by
  induction t generalizing c with
  | name x => exact (shift_shift d c (θ x)).symm
  | arr a b iha ihb => simp only [mapNamesAt, iha, ihb]
  | all x a ih => simp only [mapNamesAt, Nat.add_assoc, ih]
  | _ => rfl

theorem mapNamesAt_one (θ : String → Ty) (t : Ty) :
    t.mapNamesAt θ 1 = t.mapNames fun x => (θ x).shift 1 := mapNamesAt_add θ 0 1 t

theorem shift_one_injective : Function.Injective (shift 1) := by
  intro a b h
  have hf := congrArg (fun t => t.fillAt bool 0) h
  simpa [shift, fillAt_shiftAbove_one] using hf

theorem size_le_size_mapNamesAt (θ : String → Ty) (c : Nat) {t : Ty} {x : String}
    (h : x ∈ t.freeNames) : (θ x).size ≤ (t.mapNamesAt θ c).size := by
  induction t generalizing c with
  | name y =>
    obtain rfl : x = y := by simpa [freeNames] using h
    simp [mapNamesAt]
  | arr a b iha ihb =>
    simp only [mapNamesAt, size]
    rcases List.mem_append.mp h with h | h
    · have := iha c h; omega
    · have := ihb c h; omega
  | all y a ih =>
    have := ih (c + 1) h
    simp only [mapNamesAt, size]
    omega
  | _ => simp [freeNames] at h

/-- A name can never stand for a larger type in which it occurs. -/
theorem size_lt_size_mapNames (θ : String → Ty) {t : Ty} {x : String} (h : x ∈ t.freeNames)
    (hne : t ≠ name x) : (θ x).size < (t.mapNames θ).size := by
  cases t with
  | name y =>
    obtain rfl : x = y := by simpa [freeNames] using h
    exact absurd rfl hne
  | arr a b =>
    simp only [mapNames, mapNamesAt, size]
    rcases List.mem_append.mp h with h | h
    · have := size_le_size_mapNamesAt θ 0 h; omega
    · have := size_le_size_mapNamesAt θ 0 h; omega
  | all y a =>
    have := size_le_size_mapNamesAt θ (0 + 1) (t := a) h
    simp only [mapNames, mapNamesAt, size]
    omega
  | _ => simp [freeNames] at h

end Ty

namespace Subst

/-- No name is bound twice, and none occurs in a type that takes effect with it or later. -/
def Solved : Subst → Prop
  | [] => True
  | (x, t) :: s => x ∉ t.freeNames ∧ x ∉ domain s ∧ (∀ y ∈ domain s, y ∉ t.freeNames) ∧ Solved s

theorem mem_domain_of_mem {s : Subst} {b : String × Ty} (h : b ∈ s) : b.1 ∈ s.domain :=
  List.mem_map_of_mem h

theorem mem_freeNames_of_mem_domain {s : Subst} {x : String} (h : x ∈ s.domain) :
    x ∈ s.freeNames := by
  obtain ⟨b, hb, rfl⟩ := List.mem_map.mp h
  exact List.mem_flatMap.mpr ⟨b, hb, by simp⟩

theorem image_of_notMem_domain {s : Subst} {x : String} (h : x ∉ s.domain) :
    s.image x = .name x := by
  induction s with
  | nil => rfl
  | cons b s ih =>
    simp only [domain, List.map_cons, List.mem_cons, not_or] at h
    have hs : apply s (.name x) = .name x := ih h.2
    rw [image, apply_cons, hs, substName_eq_mapNames, Ty.mapNames_name, Function.update_of_ne h.1]

theorem apply_of_disjoint {s : Subst} {t : Ty} (h : ∀ x ∈ t.freeNames, x ∉ s.domain) :
    s.apply t = t := by
  rw [apply_eq_mapNames]
  exact Ty.mapNames_eq_self fun x hx => image_of_notMem_domain (h x hx)

/-- A solved substitution removes the names that it binds. -/
theorem Solved.notMem_freeNames_apply {s : Subst} (h : s.Solved) {x : String} (hx : x ∈ s.domain)
    (t : Ty) : x ∉ (s.apply t).freeNames := by
  induction s with
  | nil => simp [domain] at hx
  | cons b s ih =>
    obtain ⟨y, u⟩ := b
    obtain ⟨hyu, -, hsu, hs⟩ := h
    rw [apply_cons, substName_eq_mapNames, Ty.mem_freeNames_mapNames]
    rintro ⟨z, hz, hxz⟩
    by_cases hzy : z = y
    · subst hzy
      rw [Function.update_self] at hxz
      rcases List.mem_cons.mp hx with rfl | hx
      · exact hyu hxz
      · exact hsu x hx hxz
    · rw [Function.update_of_ne hzy] at hxz
      obtain rfl : x = z := by simpa [Ty.freeNames] using hxz
      rcases List.mem_cons.mp hx with rfl | hx
      · exact hzy rfl
      · exact ih hs hx hz

theorem Solved.models {s : Subst} (h : s.Solved) : Models s.image s := by
  induction s with
  | nil => intro b hb; simp at hb
  | cons b s ih =>
    obtain ⟨x, t⟩ := b
    obtain ⟨hxt, hxs, hst, hs⟩ := h
    intro c hc
    rw [← apply_eq_mapNames, image, apply_cons, apply_cons]
    rcases List.mem_cons.mp hc with rfl | hc
    · have hx : apply s (.name x) = .name x := image_of_notMem_domain hxs
      have ht : apply s t = t := apply_of_disjoint fun y hy hd => hst y hd hy
      rw [hx, ht, substName_eq_mapNames, substName_eq_mapNames, Ty.mapNames_name,
        Function.update_self]
      refine (Ty.mapNames_eq_self fun y hy => Function.update_of_ne ?_ _ _).symm
      rintro rfl
      exact hxt hy
    · have hc' : apply s (.name c.1) = apply s c.2 := by
        rw [apply_eq_mapNames s c.2]
        exact ih hs c hc
      rw [hc']

theorem Solved.append {s r : Subst} (hs : s.Solved) (hr : r.Solved)
    (h : ∀ x ∈ s.freeNames, x ∉ r.domain) : Solved (s ++ r) := by
  induction s with
  | nil => exact hr
  | cons b s ih =>
    obtain ⟨x, t⟩ := b
    obtain ⟨hxt, hxs, hst, hs⟩ := hs
    have hd : ∀ y, y ∈ domain (s ++ r) → y ∈ domain s ∨ y ∈ domain r := by simp [domain]
    refine ⟨hxt, ?_, ?_, ih hs fun y hy => h y (mem_freeNames_cons.mpr (.inr (.inr hy)))⟩
    · intro hx
      exact (hd x hx).elim hxs (h x (mem_freeNames_cons.mpr (.inr (.inl rfl))))
    · intro y hy hyt
      rcases hd y hy with hy | hy
      · exact hst y hy hyt
      · exact h y (mem_freeNames_cons.mpr (.inl hyt)) hy

@[simp] theorem domain_shift (d : Int) (s : Subst) : domain (s.shift d) = s.domain := by
  simp [domain, shift]

@[simp] theorem freeNames_shift (d : Int) (s : Subst) : freeNames (s.shift d) = s.freeNames := by
  simp [freeNames, shift, List.flatMap_map]

theorem Solved.shift {s : Subst} (h : s.Solved) (d : Int) : Solved (s.shift d) := by
  induction s with
  | nil => trivial
  | cons b s ih =>
    obtain ⟨x, t⟩ := b
    obtain ⟨hxt, hxs, hst, hs⟩ := h
    have hd : domain (List.map (fun b => (b.1, b.2.shift d)) s) = domain s := domain_shift d s
    refine ⟨by simpa using hxt, by rwa [hd], ?_, ih hs⟩
    rw [hd]
    simpa using hst

/-- A solved substitution that binds something removes it from every type. -/
theorem Solved.exists_removed {s : Subst} (h : s.Solved) (hne : s.isEmpty = false) :
    ∃ x ∈ s.freeNames, ∀ t, x ∉ (s.apply t).freeNames := by
  cases s with
  | nil => simp at hne
  | cons b s =>
    have hx : b.1 ∈ domain (b :: s) := by simp [domain]
    exact ⟨b.1, mem_freeNames_of_mem_domain hx, fun t => h.notMem_freeNames_apply hx t⟩

end Subst

/-- The map makes the types equal, up to the names of their binders. -/
def Unifies (θ : String → Ty) (a b : Ty) : Prop := (a.mapNames θ).erase = (b.mapNames θ).erase

theorem Unifies.symm {θ : String → Ty} {a b : Ty} (h : Unifies θ a b) : Unifies θ b a := Eq.symm h

theorem unifies_arr_iff {θ : String → Ty} {a₁ b₁ a₂ b₂ : Ty} :
    Unifies θ (.arr a₁ b₁) (.arr a₂ b₂) ↔ Unifies θ a₁ a₂ ∧ Unifies θ b₁ b₂ := by
  simp [Unifies, Ty.erase]

/-- Below a quantifier the map is the same one, seen from one binder further in. -/
theorem unifies_all_iff {θ : String → Ty} {x y : String} {a b : Ty} :
    Unifies θ (.all x a) (.all y b) ↔ Unifies (fun z => (θ z).shift 1) a b := by
  have hmap : ∀ (z : String) (t : Ty),
      ((Ty.all z t).mapNames θ).erase = .all "" (t.mapNames fun z => (θ z).shift 1).erase :=
    fun z t => by rw [← Ty.mapNamesAt_one]; rfl
  simp [Unifies, hmap]

theorem not_unifies_of_mem_freeNames {θ : String → Ty} {x : String} {t : Ty}
    (hx : x ∈ t.freeNames) (hne : t ≠ .name x) : ¬ Unifies θ (.name x) t := by
  intro h
  have hlt := Ty.size_lt_size_mapNames θ hx hne
  have hsize := congrArg Ty.size h
  simp only [Ty.size_erase, Ty.mapNames_name] at hsize
  omega

/-- The map satisfies all bindings, up to the names of binders. -/
def Subst.Holds (θ : String → Ty) (s : Subst) : Prop := ∀ b ∈ s, Unifies θ (.name b.1) b.2

namespace Subst

theorem holds_append {θ : String → Ty} {s r : Subst} :
    Holds θ (s ++ r) ↔ Holds θ s ∧ Holds θ r := by
  simp [Holds, or_imp, forall_and]

theorem Holds.erase_image {θ : String → Ty} {s : Subst} (h : Holds θ s) (x : String) :
    ((s.image x).mapNames θ).erase = (θ x).erase := by
  induction s with
  | nil => simp
  | cons b s ih =>
    have hs : Holds θ s := fun c hc => h c (by simp [hc])
    have hb : (θ b.1).erase = (b.2.mapNames θ).erase := by
      simpa [Unifies] using h b (by simp)
    rw [image, apply_cons, substName_eq_mapNames, Ty.mapNames_mapNames, ← ih hs]
    refine Ty.erase_mapNames_congr fun y _ => ?_
    by_cases hy : y = b.1
    · rw [hy, Function.update_self, hb]
    · rw [Function.update_of_ne hy, Ty.mapNames_name]

theorem Holds.unifies_apply_iff {θ : String → Ty} {s : Subst} (h : Holds θ s) (a b : Ty) :
    Unifies θ (s.apply a) (s.apply b) ↔ Unifies θ a b := by
  have ht : ∀ t : Ty, ((s.apply t).mapNames θ).erase = (t.mapNames θ).erase := fun t => by
    rw [apply_eq_mapNames, Ty.mapNames_mapNames]
    exact Ty.erase_mapNames_congr fun x _ => h.erase_image x
  simp only [Unifies, ht]

theorem holds_shift_iff {θ : String → Ty} {s : Subst} :
    Holds (fun x => (θ x).shift 1) (s.shift 1) ↔ Holds θ s := by
  have hb : ∀ b : String × Ty, Unifies (fun x => (θ x).shift 1) (.name b.1) (b.2.shift 1) ↔
      Unifies θ (.name b.1) b.2 := by
    intro b
    have hmap := Ty.mapNamesAt_shift θ 1 b.2
    rw [Nat.cast_one, Ty.mapNamesAt_one] at hmap
    rw [Unifies, Unifies, hmap, Ty.mapNames_name, Ty.mapNames_name, Ty.shift, Ty.erase_shiftAbove,
      Ty.shift, Ty.erase_shiftAbove]
    exact Ty.shift_one_injective.eq_iff
  simp only [Holds, Subst.shift, List.forall_mem_map, hb]

/-- What refers to the binder right outside is no type for a name of further out. -/
theorem Holds.hasVar_eq_false {θ : String → Ty} {s : Subst}
    (h : Holds (fun x => (θ x).shift 1) s) : s.hasVar 0 = false := by
  rw [hasVar, List.any_eq_false]
  intro b hb hvar
  have hmap := Ty.hasVar_mapNamesAt_of_hasVar (fun x => (θ x).shift 1) (c := 0) hvar
  have heq := congrArg (Ty.hasVar 0) (h b hb)
  simp only [Ty.hasVar_erase, Ty.mapNames_name] at heq
  rw [Ty.shift, Ty.hasVar_shiftAbove_one] at heq
  exact absurd (heq.trans hmap) (by simp)

end Subst

/-- All types that stand for names are well scoped in `n`. -/
def IsScopedMap (n : Nat) (θ : String → Ty) : Prop := ∀ x, (θ x).WellScoped n

theorem IsScopedMap.shift {n : Nat} {θ : String → Ty} (h : IsScopedMap n θ) :
    IsScopedMap (n + 1) fun x => (θ x).shift 1 := fun x => (h x).shiftAbove 1 0

theorem Subst.wellScoped_apply {n : Nat} {s : Subst} (hs : ∀ b ∈ s, b.2.WellScoped n) {t : Ty}
    (ht : t.WellScoped n) : (s.apply t).WellScoped n := by
  induction s with
  | nil => exact ht
  | cons b s ih =>
    rw [List.forall_mem_cons] at hs
    rw [apply_cons, substName_eq_mapNames]
    refine Ty.WellScoped.mapNamesAt (c := 0) (fun y _ => ?_) (ih hs.2)
    by_cases hy : y = b.1
    · rw [hy, Function.update_self]
      exact hs.1
    · rw [Function.update_of_ne hy]
      trivial

namespace Unify

/-- The names of two types. -/
def nameSet (a b : Ty) : Finset String := (a.freeNames ++ b.freeNames).toFinset

theorem mem_nameSet {a b : Ty} {x : String} : x ∈ nameSet a b ↔ x ∈ a.freeNames ∨ x ∈ b.freeNames := by
  simp [nameSet]

theorem nameSet_domains_subset (a₁ b₁ a₂ b₂ : Ty) :
    nameSet a₁ a₂ ⊆ nameSet (.arr a₁ b₁) (.arr a₂ b₂) := by
  intro x
  simp only [mem_nameSet, Ty.freeNames, List.mem_append]
  tauto

theorem nameSet_codomains_subset (a₁ b₁ a₂ b₂ : Ty) :
    nameSet b₁ b₂ ⊆ nameSet (.arr a₁ b₁) (.arr a₂ b₂) := by
  intro x
  simp only [mem_nameSet, Ty.freeNames, List.mem_append]
  tauto

end Unify

theorem Subst.bind_eq_ok_iff {x : String} {t : Ty} {s : Subst} :
    Subst.bind x t = .ok s ↔ x ∉ t.freeNames ∧ s = [(x, t)] := by
  rw [← Ty.mentions_iff, Subst.bind, Subst.single]
  split
  case isTrue hx => simp [hx]
  case isFalse hx => simp [hx, eq_comm]

/-- The substitution has only names of the types, and removes those that it binds. -/
structure Subst.Eliminates (a b : Ty) (s : Subst) : Prop where
  names : ∀ x ∈ s.freeNames, x ∈ a.freeNames ∨ x ∈ b.freeNames
  solved : s.Solved

namespace Subst.Eliminates

open Unify (nameSet mem_nameSet)

variable {a a₁ a₂ b b₁ b₂ : Ty} {s s₁ s₂ : Subst}

theorem nil : Eliminates a b [] := ⟨by simp [freeNames], trivial⟩

theorem single {x : String} {t : Ty} (hx : x ∉ t.freeNames) : Eliminates (.name x) t [(x, t)] where
  names y hy := by simpa [freeNames, Ty.freeNames, or_comm] using hy
  solved := ⟨hx, by simp [domain], by simp [domain], trivial⟩

theorem symm (h : Eliminates a b s) : Eliminates b a s := ⟨fun x hx => (h.names x hx).symm, h.solved⟩

theorem all (h : Eliminates a b s) (x y : String) (d : Int) :
    Eliminates (.all x a) (.all y b) (s.shift d) :=
  ⟨by rw [freeNames_shift]; exact h.names, h.solved.shift d⟩

theorem append (h₁ : Eliminates a₁ a₂ s₁) (h₂ : Eliminates (s₁.apply b₁) (s₁.apply b₂) s₂) :
    Eliminates (.arr a₁ b₁) (.arr a₂ b₂) (s₂ ++ s₁) where
  names x hx := by
    simp only [Ty.freeNames, List.mem_append]
    have hs₁ : x ∈ s₁.freeNames → x ∈ a₁.freeNames ∨ x ∈ a₂.freeNames := h₁.names x
    rcases mem_freeNames_append.mp hx with hx | hx
    · rcases h₂.names x hx with hx | hx
      · rcases mem_freeNames_apply hx with hx | hx
        · tauto
        · tauto
      · rcases mem_freeNames_apply hx with hx | hx
        · tauto
        · tauto
    · tauto
  solved := by
    refine h₂.solved.append h₁.solved fun x hx hd => ?_
    rcases h₂.names x hx with hx | hx
    · exact h₁.solved.notMem_freeNames_apply hd b₁ hx
    · exact h₁.solved.notMem_freeNames_apply hd b₂ hx

/-- When the domains bind a name, the codomains are left with fewer names than the arrows had. -/
theorem card_names_apply_lt (h : Eliminates a₁ a₂ s) (hne : s.isEmpty = false) :
    (nameSet (s.apply b₁) (s.apply b₂)).card < (nameSet (.arr a₁ b₁) (.arr a₂ b₂)).card := by
  obtain ⟨x, hx, hremoved⟩ := h.solved.exists_removed hne
  have hin : ∀ y, (y ∈ a₁.freeNames ∨ y ∈ a₂.freeNames) → y ∈ nameSet (.arr a₁ b₁) (.arr a₂ b₂) := by
    intro y hy
    simp only [mem_nameSet, Ty.freeNames, List.mem_append]
    tauto
  refine Finset.card_lt_card (Finset.ssubset_iff_subset_ne.mpr ⟨fun y hy => ?_, fun heq => ?_⟩)
  · rcases mem_nameSet.mp hy with hy | hy
    · rcases mem_freeNames_apply hy with hy | hy
      · simp [mem_nameSet, Ty.freeNames, hy]
      · exact hin y (h.names y hy)
    · rcases mem_freeNames_apply hy with hy | hy
      · simp [mem_nameSet, Ty.freeNames, hy]
      · exact hin y (h.names y hy)
  · have hmem := hin x (h.names x hx)
    rw [← heq, mem_nameSet] at hmem
    exact hmem.elim (hremoved b₁) (hremoved b₂)

end Subst.Eliminates

/-- The substitution is a most general unifier: a map unifies the types if and only if it satisfies
the bindings. It brings in no names and removes those it binds. -/
structure IsMgu (n : Nat) (a b : Ty) (s : Subst) : Prop where
  wellScoped : ∀ p ∈ s, p.2.WellScoped n
  names : ∀ x ∈ s.freeNames, x ∈ a.freeNames ∨ x ∈ b.freeNames
  solved : s.Solved
  unifies_iff : ∀ θ, IsScopedMap n θ → (Unifies θ a b ↔ s.Holds θ)

/-- The answer of a unifier: a most general unifier, or an error if there is none. -/
def IsUnification (n : Nat) (a b : Ty) : Except TypeError Subst → Prop
  | .ok s => IsMgu n a b s
  | .error _ => ∀ θ, IsScopedMap n θ → ¬ Unifies θ a b

theorem IsUnification.symm {n : Nat} {a b : Ty} {r : Except TypeError Subst}
    (h : IsUnification n a b r) : IsUnification n b a r := by
  cases r with
  | ok s =>
    exact ⟨h.wellScoped, fun x hx => (h.names x hx).symm, h.solved,
      fun θ hθ => ⟨fun hu => (h.unifies_iff θ hθ).mp hu.symm,
        fun hs => ((h.unifies_iff θ hθ).mpr hs).symm⟩⟩
  | error e => exact fun θ hθ hu => h θ hθ hu.symm

theorem isMgu_nil {n : Nat} {a b : Ty} (h : ∀ θ, IsScopedMap n θ → Unifies θ a b) :
    IsMgu n a b [] :=
  ⟨by simp, by simp [Subst.freeNames], trivial,
    fun θ hθ => iff_of_true (h θ hθ) fun p hp => by simp at hp⟩

theorem isUnification_bind {n : Nat} {x : String} {t : Ty} (ht : t.WellScoped n)
    (hne : t ≠ .name x) : IsUnification n (.name x) t (Subst.bind x t) := by
  unfold Subst.bind
  split
  case isTrue hx => exact fun θ _ => not_unifies_of_mem_freeNames (Ty.mentions_iff.mp hx) hne
  case isFalse hx =>
    rw [Ty.mentions_iff] at hx
    have hs := Subst.Eliminates.single hx
    refine ⟨by simpa [Subst.single] using ht, hs.names, hs.solved, fun θ _ => ?_⟩
    simp [Subst.Holds, Subst.single]

namespace IsMgu

variable {n : Nat} {a a₁ a₂ b b₁ b₂ : Ty} {s s₁ s₂ : Subst}

theorem wellScoped_apply (h : IsMgu n a b s) {t : Ty} (ht : t.WellScoped n) :
    (s.apply t).WellScoped n := Subst.wellScoped_apply h.wellScoped ht

theorem eliminates (h : IsMgu n a b s) : s.Eliminates a b := ⟨h.names, h.solved⟩

theorem append (h₁ : IsMgu n a₁ a₂ s₁) (h₂ : IsMgu n (s₁.apply b₁) (s₁.apply b₂) s₂) :
    IsMgu n (.arr a₁ b₁) (.arr a₂ b₂) (s₂ ++ s₁) where
  wellScoped p hp := (List.mem_append.mp hp).elim (h₂.wellScoped p) (h₁.wellScoped p)
  names := (h₁.eliminates.append h₂.eliminates).names
  solved := (h₁.eliminates.append h₂.eliminates).solved
  unifies_iff θ hθ := by
    rw [unifies_arr_iff, Subst.holds_append, h₁.unifies_iff θ hθ, and_comm]
    refine and_congr_left fun hs => ?_
    rw [← h₂.unifies_iff θ hθ, hs.unifies_apply_iff]

theorem all (h : IsMgu (n + 1) a b s) (hv : s.hasVar 0 = false) (x y : String) :
    IsMgu n (.all x a) (.all y b) (s.shift (-1)) := by
  have hscoped : ∀ p ∈ s, (p.2.shift (-1)).WellScoped n ∧ (p.2.shift (-1)).shift 1 = p.2 := by
    intro p hp
    refine (h.wellScoped p hp).shiftAbove_neg_one (Nat.zero_le n) ?_
    simpa using List.any_eq_false.mp hv p hp
  have hback : (s.shift (-1)).shift 1 = s := by
    simp only [Subst.shift, List.map_map]
    refine (List.map_congr_left fun p hp => ?_).trans (List.map_id' s)
    simp [(hscoped p hp).2]
  obtain ⟨hnames, hsolved⟩ := h.eliminates.all x y (-1)
  refine ⟨?_, hnames, hsolved, fun θ hθ => ?_⟩
  · exact List.forall_mem_map.mpr fun p hp => (hscoped p hp).1
  · rw [unifies_all_iff, h.unifies_iff _ hθ.shift, ← Subst.holds_shift_iff (s := s.shift (-1)), hback]

end IsMgu

namespace Unify

section Rigid

variable {next : Ty → Ty → Except TypeError Subst} {n N : Nat}

theorem isUnification_arr
    (hnext : ∀ n a b, a.WellScoped n → b.WellScoped n → (nameSet a b).card < N →
      IsUnification n a b (next a b))
    {a₁ b₁ a₂ b₂ : Ty} (ha : (Ty.arr a₁ b₁).WellScoped n) (hb : (Ty.arr a₂ b₂).WellScoped n)
    (hN : (nameSet (.arr a₁ b₁) (.arr a₂ b₂)).card ≤ N)
    (h₁ : IsUnification n a₁ a₂ (rigidRound next a₁ a₂))
    (h₂ : IsUnification n b₁ b₂ (rigidRound next b₁ b₂)) :
    IsUnification n (.arr a₁ b₁) (.arr a₂ b₂) (rigidRound next (.arr a₁ b₁) (.arr a₂ b₂)) := by
  rw [rigidRound]
  cases hr₁ : rigidRound next a₁ a₂ with
  | error e =>
    rw [hr₁] at h₁
    exact fun θ hθ hu => h₁ θ hθ (unifies_arr_iff.mp hu).1
  | ok s₁ =>
    rw [hr₁] at h₁
    change IsUnification _ _ _ (if s₁.isEmpty then _ else _)
    split
    case isTrue hempty =>
      obtain rfl : s₁ = [] := List.isEmpty_iff.mp hempty
      have hall : ∀ θ, IsScopedMap n θ → Unifies θ a₁ a₂ := fun θ hθ =>
        (h₁.unifies_iff θ hθ).mpr fun p hp => by simp at hp
      cases hr₂ : rigidRound next b₁ b₂ with
      | error e =>
        rw [hr₂] at h₂
        exact fun θ hθ hu => h₂ θ hθ (unifies_arr_iff.mp hu).2
      | ok s₂ =>
        rw [hr₂] at h₂
        refine ⟨h₂.wellScoped, fun x hx => ?_, h₂.solved, fun θ hθ => ?_⟩
        · exact (h₂.names x hx).imp (List.mem_append_right _) (List.mem_append_right _)
        · rw [unifies_arr_iff, ← h₂.unifies_iff θ hθ]
          exact and_iff_right (hall θ hθ)
    case isFalse hne =>
      rw [Bool.not_eq_true] at hne
      have h := hnext n (s₁.apply b₁) (s₁.apply b₂) (h₁.wellScoped_apply ha.2)
        (h₁.wellScoped_apply hb.2) (lt_of_lt_of_le (h₁.eliminates.card_names_apply_lt hne) hN)
      cases hr : next (s₁.apply b₁) (s₁.apply b₂) with
      | error e =>
        rw [hr] at h
        intro θ hθ hu
        obtain ⟨hua, hub⟩ := unifies_arr_iff.mp hu
        have hs₁ := (h₁.unifies_iff θ hθ).mp hua
        exact h θ hθ ((hs₁.unifies_apply_iff b₁ b₂).mpr hub)
      | ok s₂ =>
        rw [hr] at h
        exact h₁.append h

theorem isUnification_all {x y : String} {a b : Ty}
    (h : IsUnification (n + 1) a b (rigidRound next a b)) :
    IsUnification n (.all x a) (.all y b) (rigidRound next (.all x a) (.all y b)) := by
  rw [rigidRound]
  cases hr : rigidRound next a b with
  | error e =>
    rw [hr] at h
    exact fun θ hθ hu => h _ hθ.shift (unifies_all_iff.mp hu)
  | ok s =>
    rw [hr] at h
    change IsUnification _ _ _ (if s.hasVar 0 then _ else _)
    split
    case isTrue hv =>
      intro θ hθ hu
      have hs := (h.unifies_iff _ hθ.shift).mp (unifies_all_iff.mp hu)
      rw [hs.hasVar_eq_false] at hv
      exact absurd hv (by simp)
    case isFalse hv =>
      rw [Bool.not_eq_true] at hv
      exact h.all hv x y

theorem isUnification_var {i j k m : Nat} (ha : (Ty.var i k).WellScoped n)
    (hb : (Ty.var j m).WellScoped n) :
    IsUnification n (.var i k) (.var j m) (rigidRound next (.var i k) (.var j m)) := by
  obtain ⟨rfl, hi⟩ := ha
  obtain ⟨rfl, hj⟩ := hb
  rw [rigidRound]
  split
  case isTrue h =>
    obtain rfl : i = j := by simp only [level] at h; omega
    exact isMgu_nil fun θ _ => rfl
  case isFalse h =>
    intro θ _ hu
    have hij : i = j := by simpa [Unifies, Ty.erase] using hu
    exact h (by rw [hij])

/-- A round is correct if the rounds it starts are correct on types with fewer names. -/
theorem isUnification_rigidRound
    (hnext : ∀ n a b, a.WellScoped n → b.WellScoped n → (nameSet a b).card < N →
      IsUnification n a b (next a b))
    {a b : Ty} (ha : a.WellScoped n) (hb : b.WellScoped n) (hN : (nameSet a b).card ≤ N) :
    IsUnification n a b (rigidRound next a b) := by
  induction a generalizing b n with
  | name x =>
    rw [rigidRound]
    split
    case isTrue h =>
      subst h
      exact isMgu_nil fun θ _ => rfl
    case isFalse h => exact isUnification_bind hb h
  | var i k =>
    cases b with
    | name y => exact (isUnification_bind ha (by simp)).symm
    | var j m => exact isUnification_var ha hb
    | _ => exact fun θ _ hu => by simp [Unifies, Ty.mapNames, Ty.mapNamesAt, Ty.erase] at hu
  | arr a₁ a₂ ih₁ ih₂ =>
    cases b with
    | name y => exact (isUnification_bind ha (by simp)).symm
    | arr b₁ b₂ =>
      have h₁ := ih₁ ha.1 hb.1 ((Finset.card_le_card (nameSet_domains_subset _ _ _ _)).trans hN)
      have h₂ := ih₂ ha.2 hb.2 ((Finset.card_le_card (nameSet_codomains_subset _ _ _ _)).trans hN)
      exact isUnification_arr hnext ha hb hN h₁ h₂
    | _ => exact fun θ _ hu => by simp [Unifies, Ty.mapNames, Ty.mapNamesAt, Ty.erase] at hu
  | all x a ih =>
    cases b with
    | name y => exact (isUnification_bind ha (by simp)).symm
    | all y b => exact isUnification_all (ih ha hb hN)
    | _ => exact fun θ _ hu => by simp [Unifies, Ty.mapNames, Ty.mapNamesAt, Ty.erase] at hu
  | bool =>
    cases b with
    | name y => exact (isUnification_bind ha (by simp)).symm
    | bool => exact isMgu_nil fun θ _ => rfl
    | _ => exact fun θ _ hu => by simp [Unifies, Ty.mapNames, Ty.mapNamesAt, Ty.erase] at hu

end Rigid

theorem isUnification_rigidWithin {rounds n : Nat} {a b : Ty} (ha : a.WellScoped n)
    (hb : b.WellScoped n) (hr : (nameSet a b).card ≤ rounds) :
    IsUnification n a b (rigidWithin rounds a b) := by
  induction rounds generalizing n a b with
  | zero => exact isUnification_rigidRound (fun _ _ _ _ _ h => absurd h (by simp)) ha hb hr
  | succ rounds ih =>
    exact isUnification_rigidRound (fun n a b ha hb h => ih ha hb (Nat.lt_succ_iff.mp h)) ha hb hr

theorem card_nameSet_le (a b : Ty) : (nameSet a b).card ≤ namesOf a b := by
  have hlen : ∀ t : Ty, t.freeNames.length = t.nameCount := by
    intro t
    induction t with
    | arr a b iha ihb => simp [Ty.freeNames, Ty.nameCount, iha, ihb]
    | all x a ih => simpa [Ty.freeNames, Ty.nameCount] using ih
    | _ => rfl
  have h := List.toFinset_card_le (a.freeNames ++ b.freeNames)
  rwa [List.length_append, hlen, hlen] at h

theorem card_nameSet_le_openingRounds (a b : Ty) : (nameSet a b).card ≤ openingRounds a b :=
  (card_nameSet_le a b).trans (by rw [openingRounds]; omega)

end Unify

/-- A property of types that unification hands on from the types it is given to those it binds names
to. It may depend on the context, to which `push` adds the binder of a quantifier. -/
structure Ty.Hereditary {ι : Type} (push : ι → ι) (p : ι → Ty → Prop) : Prop where
  arr : ∀ {i a b}, p i (.arr a b) → p i a ∧ p i b
  all : ∀ {i x a}, p i (.all x a) → p (push i) a
  drop : ∀ {i t}, p (push i) t → t.hasVar 0 = false → p i (t.shift (-1))
  substName : ∀ {i t s} (x : String), p i t → p i s → p i (t.substName x s)

namespace Unify

section Hereditary

variable {ι : Type} {push : ι → ι} {p : ι → Ty → Prop} {next : Ty → Ty → Except TypeError Subst}

/-- What is found for types with the property has it too. -/
def Keeps (p : ι → Ty → Prop) (f : Ty → Ty → Except TypeError Subst) : Prop :=
  ∀ i a b s, p i a → p i b → f a b = .ok s → ∀ c ∈ s, p i c.2

theorem apply_of_hereditary (hp : Ty.Hereditary push p) {i : ι} {s : Subst} (hs : ∀ c ∈ s, p i c.2)
    {t : Ty} (ht : p i t) : p i (s.apply t) := by
  induction s with
  | nil => exact ht
  | cons c s ih =>
    rw [Subst.apply_cons]
    exact hp.substName c.1 (ih fun b hb => hs b (by simp [hb])) (hs c (by simp))

theorem bind_of_hereditary {i : ι} {x : String} {t : Ty} {s : Subst} (ht : p i t)
    (h : Subst.bind x t = .ok s) : ∀ c ∈ s, p i c.2 := by
  obtain ⟨-, rfl⟩ := Subst.bind_eq_ok_iff.mp h
  simpa using ht

theorem Keeps.rigidRound (hp : Ty.Hereditary push p) (hnext : Keeps p next) :
    Keeps p (rigidRound next) := by
  intro i a
  induction a generalizing i with
  | name x =>
    intro b s _ hb h
    rw [Unify.rigidRound] at h
    split at h
    · cases h; simp
    · exact bind_of_hereditary hb h
  | var j n =>
    intro b s ha hb h
    cases b with
    | name y => exact bind_of_hereditary ha h
    | var k m =>
      rw [Unify.rigidRound] at h
      split at h
      · cases h; simp
      · simp at h
    | _ => simp [Unify.rigidRound] at h
  | arr a₁ b₁ ih₁ ih₂ =>
    intro b s ha hb h
    cases b with
    | name y => exact bind_of_hereditary ha h
    | arr a₂ b₂ =>
      rw [Unify.rigidRound, bind_eq_ok_iff] at h
      obtain ⟨s₁, h₁, h⟩ := h
      have hs₁ := ih₁ i a₂ s₁ (hp.arr ha).1 (hp.arr hb).1 h₁
      split at h
      · exact ih₂ i b₂ s (hp.arr ha).2 (hp.arr hb).2 h
      · obtain ⟨s₂, h₂, h⟩ := bind_eq_ok_iff.mp h
        cases h
        have hs₂ := hnext i _ _ s₂ (apply_of_hereditary hp hs₁ (hp.arr ha).2)
          (apply_of_hereditary hp hs₁ (hp.arr hb).2) h₂
        exact fun c hc => (List.mem_append.mp hc).elim (hs₂ c) (hs₁ c)
    | _ => simp [Unify.rigidRound] at h
  | all x a ih =>
    intro b s ha hb h
    cases b with
    | name y => exact bind_of_hereditary ha h
    | all y b =>
      rw [Unify.rigidRound, bind_eq_ok_iff] at h
      obtain ⟨r, hr, h⟩ := h
      split at h
      case isTrue => simp at h
      case isFalse hv =>
        cases h
        rw [Bool.not_eq_true, Subst.hasVar, List.any_eq_false] at hv
        refine List.forall_mem_map.mpr fun c hc => hp.drop ?_ (by simpa using hv c hc)
        exact ih (push i) b r (hp.all ha) (hp.all hb) hr c hc
    | _ => simp [Unify.rigidRound] at h
  | bool =>
    intro b s ha hb h
    cases b with
    | name y => exact bind_of_hereditary ha h
    | bool => cases h; simp
    | _ => simp [Unify.rigidRound] at h

theorem keeps_unresolved : Keeps p fun a b => .error (.unresolved a b) :=
  fun i a b s _ _ h => by simp at h

theorem keeps_rigidWithin (hp : Ty.Hereditary push p) (rounds : Nat) :
    Keeps p (rigidWithin rounds) := by
  induction rounds with
  | zero => exact keeps_unresolved.rigidRound hp
  | succ rounds ih => exact ih.rigidRound hp

end Hereditary

end Unify

/-- Types without quantifiers are unified by types without quantifiers. -/
theorem Ty.hereditary_isMono : Ty.Hereditary id fun (_ : Unit) t => t.isMono = true where
  arr h := by simpa [isMono] using h
  all h := by simp [isMono] at h
  drop h _ := by rwa [isMono_shift]
  substName x ht hs := by
    rw [Subst.substName_eq_mapNames]
    refine isMono_mapNames (fun y => ?_) ht
    by_cases hy : y = x
    · rwa [hy, Function.update_self]
    · rw [Function.update_of_ne hy, isMono]

namespace Unify

section Opening

variable {next : Ty → Ty → Except TypeError Subst} {nextOpening : Ty → Ty → Supplied Subst}

/-- Where there are no quantifiers the two unifiers go the same way. -/
theorem openingRound_eq_ofExcept
    (hnext : Keeps (fun (_ : Unit) t => t.isMono = true) next)
    (heq : ∀ a b, a.isMono → b.isMono → nextOpening a b = .ofExcept (next a b))
    {a b : Ty} (ha : a.isMono) (hb : b.isMono) :
    openingRound nextOpening a b = .ofExcept (rigidRound next a b) := by
  have hp := Ty.hereditary_isMono
  induction a generalizing b with
  | name x =>
    rw [openingRound, rigidRound]
    split <;> rfl
  | var i n =>
    cases b with
    | all y b => simp [Ty.isMono] at hb
    | var j m =>
      rw [openingRound, rigidRound]
      split <;> rfl
    | _ => rfl
  | arr a₁ b₁ ih₁ ih₂ =>
    cases b with
    | arr a₂ b₂ =>
      obtain ⟨ha₁, hb₁⟩ := hp.arr (i := ()) ha
      obtain ⟨ha₂, hb₂⟩ := hp.arr (i := ()) hb
      rw [openingRound, rigidRound, Supplied.ofExcept_bind, ih₁ ha₁ ha₂]
      cases h₁ : rigidRound next a₁ a₂ with
      | error e => rfl
      | ok s₁ =>
        have hs₁ := hnext.rigidRound hp () a₁ a₂ s₁ ha₁ ha₂ h₁
        change (if s₁.isEmpty then _ else _) = Supplied.ofExcept (if s₁.isEmpty then _ else _)
        split
        · exact ih₂ hb₁ hb₂
        · rw [Supplied.ofExcept_bind, heq _ _ (apply_of_hereditary hp (i := ()) hs₁ hb₁)
            (apply_of_hereditary hp (i := ()) hs₁ hb₂)]
          rfl
    | all y b => simp [Ty.isMono] at hb
    | _ => rfl
  | all x a ih => simp [Ty.isMono] at ha
  | bool =>
    cases b with
    | all y b => simp [Ty.isMono] at hb
    | _ => rfl

theorem openingWithin_eq_ofExcept (rounds : Nat) {a b : Ty} (ha : a.isMono) (hb : b.isMono) :
    openingWithin rounds a b = .ofExcept (rigidWithin rounds a b) := by
  induction rounds generalizing a b with
  | zero => exact openingRound_eq_ofExcept keeps_unresolved (fun _ _ _ _ => rfl) ha hb
  | succ rounds ih =>
    exact openingRound_eq_ofExcept (keeps_rigidWithin Ty.hereditary_isMono rounds)
      (fun _ _ ha hb => ih ha hb) ha hb

end Opening

end Unify

/-- A most general unifier by types without quantifiers. -/
structure IsMonoMgu (n : Nat) (a b : Ty) (s : Subst) : Prop extends IsMgu n a b s where
  isMono : ∀ p ∈ s, p.2.isMono

namespace IsMonoMgu

variable {n : Nat} {a b : Ty} {s : Subst}

theorem isMonoIn (h : IsMonoMgu n a b s) {p : String × Ty} (hp : p ∈ s) : p.2.IsMonoIn n :=
  ⟨h.isMono p hp, h.wellScoped p hp⟩

theorem isMonoIn_image (h : IsMonoMgu n a b s) (x : String) : (s.image x).IsMonoIn n where
  isMono := Unify.apply_of_hereditary Ty.hereditary_isMono (i := ()) h.isMono rfl
  wellScoped := h.wellScoped_apply (t := .name x) trivial

theorem apply_eq (h : IsMonoMgu n a b s) (ha : a.isMono) (hb : b.isMono) :
    s.apply a = s.apply b := by
  have hholds : s.Holds s.image := fun p hp => by
    rw [Unifies, Ty.mapNames_name, h.solved.models p hp]
  have hunifies := (h.unifies_iff s.image fun x => (h.isMonoIn_image x).wellScoped).mpr hholds
  have himage : ∀ t : Ty, t.isMono → (t.mapNames s.image).erase = s.apply t := fun t ht => by
    rw [Ty.erase_of_isMono (Ty.isMono_mapNames (fun x => (h.isMonoIn_image x).isMono) ht),
      Subst.apply_eq_mapNames]
  rwa [Unifies, himage a ha, himage b hb] at hunifies

end IsMonoMgu

/-- On types without quantifiers unification takes no names, and fails only if there is no
unifier. -/
theorem Unify.openingWithin_mono_cases {rounds n : Nat} {a b : Ty} (ha : a.IsMonoIn n)
    (hb : b.IsMonoIn n) (hrounds : (nameSet a b).card ≤ rounds) :
    (∃ s, IsMonoMgu n a b s ∧ ∀ σ, openingWithin rounds a b σ = .ok s σ) ∨
      (∃ e, ∀ σ, openingWithin rounds a b σ = .error e σ) ∧
        ∀ θ, IsScopedMap n θ → ¬ Unifies θ a b := by
  have heq := openingWithin_eq_ofExcept rounds ha.isMono hb.isMono
  have hrun : ∀ σ, openingWithin rounds a b σ = Supplied.ofExcept _ σ := fun σ => congrFun heq σ
  have h := isUnification_rigidWithin ha.wellScoped hb.wellScoped hrounds
  have hmono := keeps_rigidWithin Ty.hereditary_isMono rounds () a b
  generalize rigidWithin rounds a b = r at hrun h hmono
  cases r with
  | ok s => exact .inl ⟨s, ⟨h, hmono s ha.isMono hb.isMono rfl⟩, hrun⟩
  | error e => exact .inr ⟨⟨e, hrun⟩, h⟩

theorem unifyOpening_mono_cases {n : Nat} {a b : Ty} (ha : a.IsMonoIn n) (hb : b.IsMonoIn n) :
    (∃ s, IsMonoMgu n a b s ∧ ∀ σ, unifyOpening a b σ = .ok s σ) ∨
      (∃ e, ∀ σ, unifyOpening a b σ = .error e σ) ∧ ∀ θ, IsScopedMap n θ → ¬ Unifies θ a b :=
  Unify.openingWithin_mono_cases ha hb (Unify.card_nameSet_le_openingRounds a b)

theorem unifies_iff_of_isSimple {θ : String → Ty} (hθ : IsSimpleMap θ) {a b : Ty} (ha : a.isSimple)
    (hb : b.isSimple) : Unifies θ a b ↔ a.mapNames θ = b.mapNames θ := by
  rw [Unifies, Ty.erase_of_isSimple (Ty.isSimple_mapNames hθ ha),
    Ty.erase_of_isSimple (Ty.isSimple_mapNames hθ hb)]

theorem Subst.holds_iff_models {θ : String → Ty} (hθ : IsSimpleMap θ) {s : Subst}
    (hs : s.IsSimple) : s.Holds θ ↔ Models θ s := by
  refine forall₂_congr fun b hb => ?_
  rw [unifies_iff_of_isSimple hθ rfl (hs b hb), Ty.mapNames_name]

/-- A most general unifier of simple types among the simple types. -/
structure IsSimpleMgu (a b : Ty) (s : Subst) : Prop where
  isSimple : s.IsSimple
  names : ∀ x ∈ s.freeNames, x ∈ a.freeNames ∨ x ∈ b.freeNames
  solved : s.Solved
  eq_iff : ∀ θ, IsSimpleMap θ → (a.mapNames θ = b.mapNames θ ↔ s.Models θ)

/-- On simple types unification takes no names, and fails only if there is no unifier. -/
theorem Unify.openingWithin_cases {rounds : Nat} {a b : Ty} (ha : a.isSimple) (hb : b.isSimple)
    (hrounds : (nameSet a b).card ≤ rounds) :
    (∃ s, IsSimpleMgu a b s ∧ ∀ σ, openingWithin rounds a b σ = .ok s σ) ∨
      (∃ e, ∀ σ, openingWithin rounds a b σ = .error e σ) ∧
        ∀ θ, IsSimpleMap θ → a.mapNames θ ≠ b.mapNames θ := by
  have hscoped : ∀ θ, IsSimpleMap θ → IsScopedMap 0 θ := fun θ hθ x => Ty.wellScoped_of_isSimple 0 (hθ x)
  rcases openingWithin_mono_cases (Ty.isMonoIn_of_isSimple 0 ha) (Ty.isMonoIn_of_isSimple 0 hb)
    hrounds with ⟨s, h, hrun⟩ | ⟨herror, hnone⟩
  · have hs : s.IsSimple := fun p hp => (h.isMonoIn hp).isSimple
    refine .inl ⟨s, ⟨hs, h.names, h.solved, fun θ hθ => ?_⟩, hrun⟩
    rw [← unifies_iff_of_isSimple hθ ha hb, h.unifies_iff θ (hscoped θ hθ),
      Subst.holds_iff_models hθ hs]
  · refine .inr ⟨herror, fun θ hθ hu => hnone θ (hscoped θ hθ) ?_⟩
    rwa [unifies_iff_of_isSimple hθ ha hb]

theorem unifyOpening_cases {a b : Ty} (ha : a.isSimple) (hb : b.isSimple) :
    (∃ s, IsSimpleMgu a b s ∧ ∀ σ, unifyOpening a b σ = .ok s σ) ∨
      (∃ e, ∀ σ, unifyOpening a b σ = .error e σ) ∧
        ∀ θ, IsSimpleMap θ → a.mapNames θ ≠ b.mapNames θ :=
  Unify.openingWithin_cases ha hb (Unify.card_nameSet_le_openingRounds a b)

theorem isSimpleMgu_of_unifyOpening {a b : Ty} (ha : a.isSimple) (hb : b.isSimple) {s : Subst}
    {σ σ' : NameSupply} (h : unifyOpening a b σ = .ok s σ') : IsSimpleMgu a b s ∧ σ' = σ := by
  rcases unifyOpening_cases ha hb with ⟨r, hr, hrun⟩ | ⟨⟨e, hrun⟩, -⟩
  · rw [hrun σ] at h
    cases h
    exact ⟨hr, rfl⟩
  · rw [hrun σ] at h
    cases h

theorem exists_unifyOpening_eq_ok {a b : Ty} (ha : a.isSimple) (hb : b.isSimple) {θ : String → Ty}
    (hθ : IsSimpleMap θ) (h : a.mapNames θ = b.mapNames θ) (σ : NameSupply) :
    ∃ s, unifyOpening a b σ = .ok s σ ∧ IsSimpleMgu a b s ∧ s.Models θ := by
  rcases unifyOpening_cases ha hb with ⟨s, hs, hrun⟩ | ⟨-, hnone⟩
  · exact ⟨s, hrun σ, hs, (hs.eq_iff θ hθ).mp h⟩
  · exact absurd h (hnone θ hθ)

theorem IsSimpleMgu.apply_eq {a b : Ty} {s : Subst} (h : IsSimpleMgu a b s) :
    s.apply a = s.apply b := by
  rw [Subst.apply_eq_mapNames, Subst.apply_eq_mapNames]
  exact (h.eq_iff s.image h.isSimple.image).mpr h.solved.models

end LambdaTyping
