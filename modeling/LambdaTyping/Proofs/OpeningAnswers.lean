import Mathlib
import LambdaTyping.Proofs.OpeningRounds
import LambdaTyping.Proofs.PrincipalUnifiers

/-!
# The answers of opening unification

What opening unification does when it succeeds, whatever the number of rounds:
names are bound, the codomains of arrows are unified under what the domains gave,
and quantifiers that do not meet a name are opened with a name from the supply.

If the supply knows all names of the types, an answer is solved: a name that is
bound is in no type that takes effect with it or later. So the images of names are
final, and bindings can be dropped from an answer without touching the others.
-/
namespace LambdaTyping

/-- Opening a quantifier brings in a name that the supply did not know. -/
theorem NameSupply.notMem_openLike {x y : String} {a : Ty} {σ : NameSupply} (hx : x ∈ σ.used)
    (ha : x ∉ (Ty.all y a).freeNames) : x ∉ (a.openWith (σ.like y).1).freeNames := by
  intro hmem
  rw [Ty.openWith_eq_fillAt] at hmem
  rcases Ty.freeNames_fillAt_subset _ _ _ hmem with hmem | hmem
  · obtain rfl : x = (σ.like y).1 := by simpa [Ty.freeNames] using hmem
    exact like_notMem y σ hx
  · exact ha hmem

/-- The supply will not hand out any name of the type. -/
def NameSupply.Knows (σ : NameSupply) (a : Ty) : Prop := ∀ x ∈ a.freeNames, x ∈ σ.used

namespace NameSupply.Knows

variable {a b : Ty} {x : String} {σ : NameSupply}

theorem arr_iff : σ.Knows (.arr a b) ↔ σ.Knows a ∧ σ.Knows b := List.forall_mem_append

theorem like (h : σ.Knows a) (x : String) : (σ.like x).2.Knows a :=
  fun y hy => mem_used_like.mpr (.inr (h y hy))

theorem openLike (h : σ.Knows (.all x a)) : (σ.like x).2.Knows (a.openWith (σ.like x).1) := by
  intro y hy
  rw [Ty.openWith_eq_fillAt] at hy
  rcases Ty.freeNames_fillAt_subset _ _ _ hy with hy | hy
  · exact mem_used_like.mpr (.inl (List.mem_singleton.mp hy).symm)
  · exact mem_used_like.mpr (.inr (h y hy))

end NameSupply.Knows

namespace Unify

/-- The types are unified by the substitution, and the supply is left as the last one. -/
inductive Answers : Ty → Ty → NameSupply → Subst → NameSupply → Prop
  | name (x : String) (σ : NameSupply) : Answers (.name x) (.name x) σ [] σ
  | bool (σ : NameSupply) : Answers .bool .bool σ [] σ
  | var {i n j m : Nat} (σ : NameSupply) (h : level i n = level j m) :
    Answers (.var i n) (.var j m) σ [] σ
  | bindLeft {x : String} {b : Ty} (σ : NameSupply) (hx : x ∉ b.freeNames) :
    Answers (.name x) b σ [(x, b)] σ
  | bindRight {a : Ty} {y : String} (σ : NameSupply) (hy : y ∉ a.freeNames) :
    Answers a (.name y) σ [(y, a)] σ
  | arr {a₁ b₁ a₂ b₂ : Ty} {σ σ₁ σ₂ : NameSupply} {s₁ s₂ : Subst} (h₁ : Answers a₁ a₂ σ s₁ σ₁)
    (h₂ : Answers (s₁.apply b₁) (s₁.apply b₂) σ₁ s₂ σ₂) :
    Answers (.arr a₁ b₁) (.arr a₂ b₂) σ (s₂ ++ s₁) σ₂
  | openLeft {x : String} {a b : Ty} {σ σ' : NameSupply} {s : Subst} (hb : ∀ y, b ≠ .name y)
    (h : Answers (a.openWith (σ.like x).1) b (σ.like x).2 s σ') : Answers (.all x a) b σ s σ'
  | openRight {y : String} {a b : Ty} {σ σ' : NameSupply} {s : Subst} (ha : ∀ x, a ≠ .name x)
    (h : Answers a (b.openWith (σ.like y).1) (σ.like y).2 s σ') : Answers a (.all y b) σ s σ'

theorem bind_eq_ok {x : String} {t : Ty} {σ σ' : NameSupply} {s : Subst}
    (h : Supplied.ofExcept (Subst.bind x t) σ = .ok s σ') :
    x ∉ t.freeNames ∧ s = [(x, t)] ∧ σ' = σ := by
  obtain ⟨hs, rfl⟩ := Supplied.ofExcept_eq_ok_iff.mp h
  obtain ⟨hx, rfl⟩ := Subst.bind_eq_ok_iff.mp hs
  exact ⟨hx, rfl, rfl⟩

section Round

variable {next : Ty → Ty → Supplied Subst}
  (hnext : ∀ {a b : Ty} {σ : NameSupply} {s : Subst} {σ' : NameSupply},
    next a b σ = .ok s σ' → Answers a b σ s σ')

include hnext

theorem answers_all_right {a b : Ty} {y : String} {σ σ' : NameSupply} {s : Subst}
    (ha : ∀ x, a ≠ .name x) (ha' : ∀ x a', a ≠ .all x a')
    (h : openingRound next a (.all y b) σ = .ok s σ') : Answers a (.all y b) σ s σ' := by
  rw [openingRound_all_right ha ha'] at h
  exact .openRight ha (hnext h)

/-- One round answers if the rounds it starts do. -/
theorem answers_of_openingRound {a b : Ty} {σ σ' : NameSupply} {s : Subst}
    (h : openingRound next a b σ = .ok s σ') : Answers a b σ s σ' := by
  induction a generalizing b σ s σ' with
  | name x =>
    rw [openingRound] at h
    split at h
    · rename_i hb
      obtain ⟨rfl, rfl⟩ := Supplied.pure_eq_ok_iff.mp h
      exact hb ▸ .name x σ'
    · obtain ⟨hx, rfl, rfl⟩ := bind_eq_ok h
      exact .bindLeft _ hx
  | bool =>
    cases b with
    | name y =>
      obtain ⟨hy, rfl, rfl⟩ := bind_eq_ok h
      exact .bindRight _ hy
    | bool =>
      obtain ⟨rfl, rfl⟩ := Supplied.pure_eq_ok_iff.mp h
      exact .bool σ'
    | all y b => exact answers_all_right hnext (by simp) (by simp) h
    | _ => cases h
  | var i n =>
    cases b with
    | name y =>
      obtain ⟨hy, rfl, rfl⟩ := bind_eq_ok h
      exact .bindRight _ hy
    | var j m =>
      rw [openingRound] at h
      split at h
      · rename_i hlevel
        obtain ⟨rfl, rfl⟩ := Supplied.pure_eq_ok_iff.mp h
        exact .var σ' hlevel
      · cases h
    | all y b => exact answers_all_right hnext (by simp) (by simp) h
    | _ => cases h
  | arr a₁ b₁ iha ihb =>
    cases b with
    | name y =>
      obtain ⟨hy, rfl, rfl⟩ := bind_eq_ok h
      exact .bindRight _ hy
    | arr a₂ b₂ =>
      rw [openingRound] at h
      obtain ⟨s₁, σ₁, hs₁, h⟩ := Supplied.bind_eq_ok_iff.mp h
      split at h
      · rename_i hempty
        obtain rfl : s₁ = [] := List.isEmpty_iff.mp hempty
        have hboth := Answers.arr (iha hs₁) (ihb h)
        rwa [List.append_nil] at hboth
      · obtain ⟨s₂, σ₂, hs₂, h⟩ := Supplied.bind_eq_ok_iff.mp h
        obtain ⟨rfl, rfl⟩ := Supplied.pure_eq_ok_iff.mp h
        exact .arr (iha hs₁) (hnext hs₂)
    | all y b => exact answers_all_right hnext (by simp) (by simp) h
    | _ => cases h
  | all x a ih =>
    cases b with
    | name y =>
      obtain ⟨hy, rfl, rfl⟩ := bind_eq_ok h
      exact .bindRight _ hy
    | _ =>
      rw [openingRound_all_left (by simp)] at h
      exact .openLeft (by simp) (hnext h)

end Round

theorem answers_of_openingWithin {rounds : Nat} {a b : Ty} {σ σ' : NameSupply} {s : Subst}
    (h : openingWithin rounds a b σ = .ok s σ') : Answers a b σ s σ' := by
  induction rounds generalizing a b σ s σ' with
  | zero => exact answers_of_openingRound (fun h => by cases h) h
  | succ rounds ih => exact answers_of_openingRound ih h

theorem answers_of_unifyOpening {a b : Ty} {σ σ' : NameSupply} {s : Subst}
    (h : unifyOpening a b σ = .ok s σ') : Answers a b σ s σ' := answers_of_openingWithin h

namespace Answers

variable {a b : Ty} {σ σ' : NameSupply} {s : Subst}

theorem used (h : Answers a b σ s σ') : ∀ x ∈ σ.used, x ∈ σ'.used := by
  induction h with
  | arr _ _ ih₁ ih₂ => exact fun x hx => ih₂ x (ih₁ x hx)
  | openLeft _ _ ih => exact fun x hx => ih x (NameSupply.mem_used_like.mpr (.inr hx))
  | openRight _ _ ih => exact fun x hx => ih x (NameSupply.mem_used_like.mpr (.inr hx))
  | _ => exact fun _ hx => hx

/-- A name that the supply knows and that is in neither type is not in the answer. -/
theorem notMem_freeNames (h : Answers a b σ s σ') {x : String} (hx : x ∈ σ.used)
    (ha : x ∉ a.freeNames) (hb : x ∉ b.freeNames) : x ∉ s.freeNames := by
  induction h with
  | name | bool | var => simp [Subst.freeNames]
  | bindLeft =>
    simp only [Ty.freeNames, List.mem_singleton] at ha
    simp [Subst.freeNames, ha, hb]
  | bindRight =>
    simp only [Ty.freeNames, List.mem_singleton] at hb
    simp [Subst.freeNames, ha, hb]
  | arr h₁ _ ih₁ ih₂ =>
    simp only [Ty.freeNames, List.mem_append, not_or] at ha hb
    have hs₁ := ih₁ hx ha.1 hb.1
    have happly : ∀ {c : Ty}, x ∉ c.freeNames → x ∉ (Subst.apply _ c).freeNames := fun hc hmem =>
      (Subst.mem_freeNames_apply hmem).elim hc hs₁
    rw [Subst.mem_freeNames_append, not_or]
    exact ⟨ih₂ (h₁.used x hx) (happly ha.2) (happly hb.2), hs₁⟩
  | openLeft _ _ ih =>
    exact ih (NameSupply.mem_used_like.mpr (.inr hx)) (NameSupply.notMem_openLike hx ha) hb
  | openRight _ _ ih =>
    exact ih (NameSupply.mem_used_like.mpr (.inr hx)) ha (NameSupply.notMem_openLike hx hb)

theorem knows_apply (h : Answers a b σ s σ') (hs : ∀ x ∈ s.freeNames, x ∈ σ'.used) {c : Ty}
    (hc : σ.Knows c) : σ'.Knows (s.apply c) := fun x hx =>
  (Subst.mem_freeNames_apply hx).elim (fun hx => h.used x (hc x hx)) (hs x)

/-- All names of an answer are known afterwards, if those of the types are known before. -/
theorem mem_used (h : Answers a b σ s σ') (ha : σ.Knows a) (hb : σ.Knows b) :
    ∀ x ∈ s.freeNames, x ∈ σ'.used := by
  induction h with
  | name | bool | var => simp [Subst.freeNames]
  | @bindLeft x b σ =>
    have hx : x ∈ σ.used := ha x (List.mem_singleton.mpr rfl)
    simpa [NameSupply.Knows, Subst.freeNames, or_imp, forall_and, hx] using hb
  | @bindRight a y σ =>
    have hy : y ∈ σ.used := hb y (List.mem_singleton.mpr rfl)
    simpa [NameSupply.Knows, Subst.freeNames, or_imp, forall_and, hy] using ha
  | arr h₁ h₂ ih₁ ih₂ =>
    obtain ⟨ha₁, hb₁⟩ := NameSupply.Knows.arr_iff.mp ha
    obtain ⟨ha₂, hb₂⟩ := NameSupply.Knows.arr_iff.mp hb
    have hs₁ := ih₁ ha₁ ha₂
    intro x hx
    rcases Subst.mem_freeNames_append.mp hx with hx | hx
    · exact ih₂ (h₁.knows_apply hs₁ hb₁) (h₁.knows_apply hs₁ hb₂) x hx
    · exact h₂.used x (hs₁ x hx)
  | openLeft _ _ ih => exact ih ha.openLike (hb.like _)
  | openRight _ _ ih => exact ih (ha.like _) hb.openLike

/-- An answer is solved. -/
theorem solved (h : Answers a b σ s σ') (ha : σ.Knows a) (hb : σ.Knows b) : s.Solved := by
  induction h with
  | name | bool | var => trivial
  | bindLeft _ hx => exact (Subst.Eliminates.single hx).solved
  | bindRight _ hy => exact (Subst.Eliminates.single hy).solved
  | arr h₁ h₂ ih₁ ih₂ =>
    obtain ⟨ha₁, hb₁⟩ := NameSupply.Knows.arr_iff.mp ha
    obtain ⟨ha₂, hb₂⟩ := NameSupply.Knows.arr_iff.mp hb
    have hs₁ := h₁.mem_used ha₁ ha₂
    have hsolved := ih₁ ha₁ ha₂
    have hsolved' := ih₂ (h₁.knows_apply hs₁ hb₁) (h₁.knows_apply hs₁ hb₂)
    refine hsolved'.append hsolved fun x hx hdom => ?_
    -- a name that the domains bind is gone from the codomains
    exact h₂.notMem_freeNames (hs₁ x (Subst.mem_freeNames_of_mem_domain hdom))
      (hsolved.notMem_freeNames_apply hdom _) (hsolved.notMem_freeNames_apply hdom _) hx
  | openLeft _ _ ih => exact ih ha.openLike (hb.like _)
  | openRight _ _ ih => exact ih (ha.like _) hb.openLike

end Answers

end Unify

theorem solved_of_unify {a b : Ty} {s : Subst} (h : unify a b = .ok s) : s.Solved := by
  obtain ⟨σ', hrun⟩ := Supplied.answer_eq_ok_iff.mp h
  refine (Unify.answers_of_unifyOpening hrun).solved (fun x hx => ?_) fun x hx => ?_
  · simp [hx]
  · simp [hx]

/-- Dropping names from what unification answers leaves the images of all others as they are. The
bindings that are left do not depend on each other: no name that was bound occurs in their types. -/
theorem apply_without_of_unify {a b : Ty} {s : Subst} (h : unify a b = .ok s)
    (names : List String) :
    (∀ x ∉ names, (s.without names).apply (.name x) = s.apply (.name x)) ∧
    (∀ x ∈ names, (s.without names).apply (.name x) = .name x) ∧
    ∀ p ∈ s.without names, p.2 = s.apply (.name p.1) ∧ ∀ x ∈ s.domain, x ∉ p.2.freeNames := by
  have hsolved := solved_of_unify h
  refine ⟨fun x hx => ?_, fun x hx => ?_, fun p hp => ?_⟩
  · exact (hsolved.image_without names x).trans (if_neg hx)
  · exact (hsolved.image_without names x).trans (if_pos hx)
  · obtain ⟨x, -, rfl⟩ := List.mem_map.mp hp
    exact ⟨rfl, fun y hy => hsolved.notMem_freeNames_apply hy _⟩

/-- The type for `A` has the name `B`, which is bound after it. When `B` is dropped, `A` keeps its
image, of which `B` is no part. -/
theorem apply_without_of_unify_dependent :
    let a : Ty := .arr (.name "A") (.arr (.name "B") (.name "A"))
    let b : Ty := .arr (.arr (.name "B") (.var 0 1)) (.arr .bool (.name "C"))
    let u : Ty := .arr .bool (.var 0 1)
    let s : Subst := [("C", u), ("B", .bool), ("A", .arr (.name "B") (.var 0 1))]
    unify a b = .ok s ∧
      ("A" ∉ ["B"] ∧ (s.without ["B"]).apply (.name "A") = u) ∧
      ("B" ∈ ["B"] ∧ (s.without ["B"]).apply (.name "B") = .name "B") ∧
      ("A", u) ∈ s.without ["B"] ∧ "B" ∈ s.domain ∧ "B" ∉ u.freeNames := by
  intro a b u s
  have hunify : unify a b = .ok s := by decide
  have hmem : ("A", u) ∈ s.without ["B"] := by decide
  have hdomain : "B" ∈ s.domain := by decide
  obtain ⟨hkept, hdropped, hfinal⟩ := apply_without_of_unify hunify ["B"]
  exact ⟨hunify, ⟨by decide, (hkept "A" (by decide)).trans rfl⟩,
    ⟨by decide, hdropped "B" (by decide)⟩, hmem, hdomain, (hfinal _ hmem).2 "B" hdomain⟩

end LambdaTyping
