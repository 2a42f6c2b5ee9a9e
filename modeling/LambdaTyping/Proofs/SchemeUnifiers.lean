import Mathlib
import LambdaTyping.Proofs.Matching
import LambdaTyping.Proofs.OpeningRounds

/-!
# Unification of schemes

Two schemes that a map makes equal are unified by opening both: first all quantifiers
of one, then those of the other. What is left are simple types, and their unifier
holds under the same map, if the new names stand for the right types.

Every quantified variable has to occur, or else a scheme may be opened to a single
name, which is bound to the other scheme as it stands.
-/
namespace LambdaTyping

namespace Unify

variable {rounds : Nat} {a b g : Ty}

theorem openingWithin_all_left {x : String} (hb : ∀ y, b ≠ .name y) (σ : NameSupply) :
    openingWithin (rounds + 1) (.all x a) b σ =
      openingWithin rounds (a.openWith (σ.like x).1) b (σ.like x).2 :=
  openingRound_all_left hb

theorem openingWithin_all_right {y : String} (hg : ∀ x, g ≠ .name x) (hg' : ∀ x a, g ≠ .all x a)
    (σ : NameSupply) :
    openingWithin (rounds + 1) g (.all y b) σ =
      openingWithin rounds g (b.openWith (σ.like y).1) (σ.like y).2 :=
  openingRound_all_right hg hg'

/-- Each quantifier on the left takes a round. -/
theorem openingWithin_openAll_left (hb : ∀ y, b ≠ .name y) (a : Ty) (σ : NameSupply) :
    openingWithin (rounds + (σ.openAll a).1.1.length) a b σ =
      openingWithin rounds (σ.openAll a).1.2 b (σ.openAll a).2 := by
  induction a, σ using NameSupply.openAll_induction with
  | all x a σ ih =>
    rw [NameSupply.openAll_all, List.length_cons, ← Nat.add_assoc, openingWithin_all_left hb]
    exact ih
  | other a σ h => rw [NameSupply.openAll_of_not_all h]; rfl

/-- Each quantifier on the right takes a round, once there are none left on the left. -/
theorem openingWithin_openAll_right (hg : ∀ x, g ≠ .name x) (hg' : ∀ x a, g ≠ .all x a) (b : Ty)
    (σ : NameSupply) :
    openingWithin (rounds + (σ.openAll b).1.1.length) g b σ =
      openingWithin rounds g (σ.openAll b).1.2 (σ.openAll b).2 := by
  induction b, σ using NameSupply.openAll_induction with
  | all y b σ ih =>
    rw [NameSupply.openAll_all, List.length_cons, ← Nat.add_assoc, openingWithin_all_right hg hg']
    exact ih
  | other b σ h => rw [NameSupply.openAll_of_not_all h]; rfl

end Unify

namespace NameSupply

theorem length_openAll_le (ty : Ty) (σ : NameSupply) :
    (σ.openAll ty).1.1.length ≤ ty.quantifiers := by
  induction ty, σ using openAll_induction with
  | all x a σ ih =>
    rw [Ty.openWith_eq_fillAt, Ty.quantifiers_fillAt (s := .name _) rfl] at ih
    rw [openAll_all, List.length_cons, Ty.quantifiers, Ty.openWith_eq_fillAt]
    exact Nat.succ_le_succ ih
  | other ty σ h => simp [openAll_of_not_all h]

/-- A scheme that uses its quantifiers and opens to a single name is the type of everything. -/
theorem eq_var_of_openAll_eq_name {x z : String} {a : Ty} {σ : NameSupply}
    (huses : (Ty.all x a).UsesQuantifiers) (h : (σ.openAll (.all x a)).1.2 = .name z) :
    ∃ n, a = .var 0 n := by
  cases a with
  | var i n =>
    obtain rfl : i = 0 := by simpa [Ty.hasVar] using huses.1
    exact ⟨n, rfl⟩
  | all y b =>
    -- two different names would have to be the same one
    have hmem : ∀ w ∈ (σ.openAll (.all x (.all y b))).1.1, w = z := fun w hw => by
      have := mem_freeNames_of_mem_openAll huses hw
      rw [h] at this
      simpa [Ty.freeNames] using this
    have hnodup := nodup_openAll (.all x (.all y b)) σ
    rw [openAll_all, Ty.openWith_eq_fillAt, Ty.fillAt, openAll_all] at hmem hnodup
    simp only [List.forall_mem_cons] at hmem
    rw [hmem.1, hmem.2.1] at hnodup
    simp at hnodup
  | arr b c =>
    rw [openAll_all, Ty.openWith_eq_fillAt, Ty.fillAt,
      openAll_of_not_all (fun _ _ h => by cases h)] at h
    cases h
  | name y => simp [Ty.UsesQuantifiers, Ty.hasVar] at huses
  | bool => simp [Ty.UsesQuantifiers, Ty.hasVar] at huses

end NameSupply

/-- The unifier holds under a map that changes none of the names that were in use before. -/
structure UnifiedUnder (θ : String → Ty) (σ : NameSupply) (s : Subst) (σ' : NameSupply) : Prop where
  isSimple : s.IsSimple
  names : ∀ x ∈ s.freeNames, x ∈ σ'.used
  grows : ∀ x ∈ σ.used, x ∈ σ'.used
  models : ∃ η, IsSimpleMap η ∧ (∀ x ∈ σ.used, η x = θ x) ∧ s.Models η

section Schemes

variable {θ : String → Ty} {a b : Ty} {σ : NameSupply}

/-- Types opened one after the other have a common image, if the new names are mapped as they have
to be. -/
theorem exists_map_of_unifies (hθ : IsSimpleMap θ) (ha : ∀ x ∈ a.freeNames, x ∈ σ.used)
    (hb : ∀ x ∈ b.freeNames, x ∈ σ.used) (hinstance : ∃ τ, (a.mapNames θ).Instance τ)
    (h : Unifies θ a b) :
    ((σ.openAll a).1.2.isSimple ∧ ((σ.openAll a).2.openAll b).1.2.isSimple) ∧
      ∃ η, IsSimpleMap η ∧ (∀ x ∈ σ.used, η x = θ x) ∧
        (σ.openAll a).1.2.mapNames η = ((σ.openAll a).2.openAll b).1.2.mapNames η := by
  obtain ⟨τ, hτ⟩ := hinstance
  obtain ⟨η, hη, hoff, heq⟩ := NameSupply.exists_of_instance_openAll hθ ha hτ
  have hused : ∀ x ∈ σ.used, η x = θ x := fun x hx =>
    hoff x fun hnew => NameSupply.openAll_notMem hnew hx
  have hb' : ∀ x ∈ b.freeNames, x ∈ (σ.openAll a).2.used := fun x hx =>
    NameSupply.mem_used_openAll.mpr (.inr (hb x hx))
  have hτ' : (b.mapNames η).Instance τ := by
    rw [Ty.mapNames_congr fun x hx => hused x (hb x hx)]
    exact hτ.of_erase_eq h
  obtain ⟨η', hη', hoff', heq'⟩ := NameSupply.exists_of_instance_openAll hη hb' hτ'
  have hused' : ∀ x ∈ (σ.openAll a).2.used, η' x = η x := fun x hx =>
    hoff' x fun hnew => NameSupply.openAll_notMem hnew hx
  refine ⟨⟨NameSupply.isSimple_openAll hθ ha hτ, NameSupply.isSimple_openAll hη hb' hτ'⟩,
    η', hη', fun x hx => ?_, ?_⟩
  · rw [hused' x (NameSupply.mem_used_openAll.mpr (.inr hx)), hused x hx]
  · rw [heq', ← heq]
    refine Ty.mapNames_congr fun x hx => hused' x (NameSupply.mem_used_openAll.mpr ?_)
    exact (NameSupply.mem_freeNames_openAll hx).imp_right (ha x)

/-- Types with a common image have a unifier. -/
theorem exists_openingWithin_of_mapNames_eq {rounds : Nat} {g h : Ty} {σ' : NameSupply}
    (hg : g.isSimple) (hh : h.isSimple) (hrounds : (Unify.nameSet g h).card ≤ rounds)
    (hgrows : ∀ x ∈ σ.used, x ∈ σ'.used)
    (hnames : ∀ x, x ∈ g.freeNames ∨ x ∈ h.freeNames → x ∈ σ'.used) {η : String → Ty}
    (hη : IsSimpleMap η) (hused : ∀ x ∈ σ.used, η x = θ x) (heq : g.mapNames η = h.mapNames η) :
    ∃ s, Unify.openingWithin rounds g h σ' = .ok s σ' ∧ UnifiedUnder θ σ s σ' := by
  rcases Unify.openingWithin_cases hg hh hrounds with ⟨s, hs, hrun⟩ | ⟨-, hnone⟩
  · refine ⟨s, hrun σ', hs.isSimple, fun x hx => hnames x (hs.names x hx), hgrows, η, hη, hused, ?_⟩
    exact (hs.eq_iff η hη).mp heq
  · exact absurd heq (hnone η hη)

theorem card_nameSet_openAll_le (a b : Ty) (σ : NameSupply) :
    (Unify.nameSet (σ.openAll a).1.2 ((σ.openAll a).2.openAll b).1.2).card ≤
      Unify.namesOf a b + a.quantifiers + b.quantifiers := by
  have hsubset : Unify.nameSet (σ.openAll a).1.2 ((σ.openAll a).2.openAll b).1.2 ⊆
      Unify.nameSet a b ∪ (σ.openAll a).1.1.toFinset ∪
        ((σ.openAll a).2.openAll b).1.1.toFinset := fun x hx => by
    simp only [Finset.mem_union, List.mem_toFinset, Unify.mem_nameSet] at hx ⊢
    rcases hx with hx | hx
    · have := NameSupply.mem_freeNames_openAll hx
      tauto
    · have := NameSupply.mem_freeNames_openAll hx
      tauto
  have hcard := (Finset.card_le_card hsubset).trans
    ((Finset.card_union_le _ _).trans (Nat.add_le_add_right (Finset.card_union_le _ _) _))
  have ha := (List.toFinset_card_le (σ.openAll a).1.1).trans (NameSupply.length_openAll_le a σ)
  have hb := (List.toFinset_card_le ((σ.openAll a).2.openAll b).1.1).trans
    (NameSupply.length_openAll_le b _)
  have hnames := Unify.card_nameSet_le a b
  omega

theorem exists_all_of_unifies {x : String} (hθ : IsSimpleMap θ) (h : Unifies θ (.all x a) b) :
    ∃ y b', b = .all y b' := by
  rw [Unifies, Ty.mapNames_all hθ, Ty.erase] at h
  cases b with
  | all y b' => exact ⟨y, b', rfl⟩
  | name y =>
    have hy := hθ y
    rw [Ty.mapNames_name] at h
    generalize θ y = u at h hy
    cases u <;> simp [Ty.erase] at h hy
  | _ => simp [Ty.erase] at h

/-- The type of everything is equal only to itself. -/
theorem alphaEq_of_unifies_var {x y : String} {n : Nat} (hθ : IsSimpleMap θ)
    (h : Unifies θ (.all x (.var 0 n)) (.all y b)) : (Ty.all x (.var 0 n)).alphaEq (.all y b) = true := by
  rw [Unifies, Ty.mapNames_all hθ, Ty.mapNames_all hθ, Ty.mapNames_var] at h
  have hb : Ty.var 0 n = (b.mapNames θ).erase := by simpa [Ty.erase] using h
  cases b with
  | var i m =>
    rw [Ty.mapNames_var, Ty.erase, Ty.var.injEq] at hb
    simp [Ty.alphaEq, Ty.alphaEqAt, Ty.sameVar, ← hb.1]
  | name z =>
    have hz := hθ z
    rw [Ty.mapNames_name] at hb
    generalize θ z = u at hb hz
    cases u <;> simp [Ty.erase] at hb hz
  | all z c => rw [Ty.mapNames_all hθ] at hb; simp [Ty.erase] at hb
  | _ => simp [Ty.erase] at hb

/-- Both types are opened to the end before what is left is unified. -/
theorem exists_rounds_of_openAll (hb : ∀ y, b ≠ .name y)
    (hg : ∀ z, (σ.openAll a).1.2 ≠ .name z) (hg' : ∀ x a', (σ.openAll a).1.2 ≠ .all x a') :
    ∃ rounds, Unify.namesOf a b + a.quantifiers + b.quantifiers ≤ rounds ∧
      unifyOpening a b σ = Unify.openingWithin rounds (σ.openAll a).1.2
        ((σ.openAll a).2.openAll b).1.2 ((σ.openAll a).2.openAll b).2 := by
  have hla := NameSupply.length_openAll_le a σ
  have hlb := NameSupply.length_openAll_le b (σ.openAll a).2
  have hrounds : Unify.openingRounds a b = Unify.namesOf a b + 2 * (a.quantifiers + b.quantifiers) +
      Unify.openings := rfl
  obtain ⟨rounds, hsplit⟩ : ∃ rounds, Unify.openingRounds a b =
      rounds + ((σ.openAll a).2.openAll b).1.1.length + (σ.openAll a).1.1.length :=
    ⟨Unify.openingRounds a b - ((σ.openAll a).2.openAll b).1.1.length -
      (σ.openAll a).1.1.length, by omega⟩
  refine ⟨rounds, by omega, ?_⟩
  rw [unifyOpening, hsplit, Unify.openingWithin_openAll_left hb,
    Unify.openingWithin_openAll_right hg hg']

/-- Schemes that a map makes equal, and that are not equal yet, have a unifier. -/
theorem exists_unifyOpening_of_unifies (hθ : IsSimpleMap θ) (ha : ∀ x ∈ a.freeNames, x ∈ σ.used)
    (hb : ∀ x ∈ b.freeNames, x ∈ σ.used) (hinstance : ∃ τ, (a.mapNames θ).Instance τ)
    (huses : a.UsesQuantifiers) (h : Unifies θ a b) (hne : a.alphaEq b = false) :
    ∃ s σ', unifyOpening a b σ = .ok s σ' ∧ UnifiedUnder θ σ s σ' := by
  obtain ⟨⟨hsimple, hsimple'⟩, η, hη, hused, heq⟩ := exists_map_of_unifies hθ ha hb hinstance h
  have hgrows : ∀ x ∈ σ.used, x ∈ ((σ.openAll a).2.openAll b).2.used := fun x hx =>
    NameSupply.mem_used_openAll.mpr (.inr (NameSupply.mem_used_openAll.mpr (.inr hx)))
  have hnames : ∀ x, x ∈ (σ.openAll a).1.2.freeNames ∨
      x ∈ ((σ.openAll a).2.openAll b).1.2.freeNames →
        x ∈ ((σ.openAll a).2.openAll b).2.used := fun x hx => by
    simp only [NameSupply.mem_used_openAll]
    rcases hx with hx | hx
    · exact .inr ((NameSupply.mem_freeNames_openAll hx).imp_right (ha x))
    · exact (NameSupply.mem_freeNames_openAll hx).imp_right fun hx => .inr (hb x hx)
  have hopen : ∃ rounds, Unify.namesOf a b + a.quantifiers + b.quantifiers ≤ rounds ∧
      unifyOpening a b σ = Unify.openingWithin rounds (σ.openAll a).1.2
        ((σ.openAll a).2.openAll b).1.2 ((σ.openAll a).2.openAll b).2 := by
    by_cases hall : ∃ x a', a = .all x a'
    · obtain ⟨x, a', rfl⟩ := hall
      obtain ⟨y, b', rfl⟩ := exists_all_of_unifies hθ h
      refine exists_rounds_of_openAll (by simp) (fun z hz => ?_) fun z c hz => ?_
      · obtain ⟨n, rfl⟩ := NameSupply.eq_var_of_openAll_eq_name huses hz
        rw [alphaEq_of_unifies_var hθ h] at hne
        cases hne
      · rw [hz] at hsimple
        simp at hsimple
    · -- without quantifiers there is nothing to open
      have ha' : ∀ x a', a ≠ .all x a' := fun x a' ha => hall ⟨x, a', ha⟩
      have hb' : ∀ y b', b ≠ .all y b' := fun y b' hb => hall (by
        rw [hb] at h
        exact exists_all_of_unifies hθ h.symm)
      rw [NameSupply.openAll_of_not_all ha', NameSupply.openAll_of_not_all hb']
      exact ⟨_, by rw [Unify.openingRounds]; omega, rfl⟩
  obtain ⟨rounds, hrounds, hrun⟩ := hopen
  obtain ⟨s, hs, hunified⟩ := exists_openingWithin_of_mapNames_eq hsimple hsimple'
    ((card_nameSet_openAll_le a b σ).trans hrounds) hgrows hnames hη hused heq
  exact ⟨s, _, hrun.trans hs, hunified⟩

end Schemes

end LambdaTyping
