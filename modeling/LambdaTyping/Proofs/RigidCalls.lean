import Mathlib
import LambdaTyping.Proofs.MostGeneralUnifiers

/-!
# Calls of rigid unification

Rigid unification calls itself on the domains of two arrows, then on their
codomains under what the domains gave, and on the bodies of two quantified types.
`RigidReturns` follows these calls and counts them. It knows nothing of rounds,
so a derivation is a run that ends by itself.

Every pair of types has such a run, also where the types are not well scoped. The
codomains may have grown under a substitution, but then they have lost a name for
good and no new one has come in, so there are fewer names than before. Otherwise
the types have become smaller.
-/
namespace LambdaTyping

namespace Unify

/-- Neither type is a name, and they differ at the root. -/
def Clash : Ty → Ty → Prop
  | .name _, _ | _, .name _ => False
  | .bool, .bool | .arr .., .arr .. | .all .., .all .. => False
  | .var i n, .var j m => level i n ≠ level j m
  | _, _ => True

/-- Rigid unification of the types returns the answer after so many calls, itself included. -/
inductive RigidReturns : Ty → Ty → Except TypeError Subst → Nat → Prop
  | name (x : String) : RigidReturns (.name x) (.name x) (.ok []) 1
  | bool : RigidReturns .bool .bool (.ok []) 1
  | var {i n j m : Nat} (h : level i n = level j m) : RigidReturns (.var i n) (.var j m) (.ok []) 1
  | bindLeft {x : String} {b : Ty} (h : b ≠ .name x) : RigidReturns (.name x) b (Subst.bind x b) 1
  | bindRight {a : Ty} {y : String} (h : ∀ x, a ≠ .name x) :
    RigidReturns a (.name y) (Subst.bind y a) 1
  | clash {a b : Ty} (h : Clash a b) : RigidReturns a b (.error (.incompatible a b)) 1
  | domainsFail {a₁ b₁ a₂ b₂ : Ty} {e : TypeError} {k : Nat}
    (h₁ : RigidReturns a₁ a₂ (.error e) k) :
    RigidReturns (.arr a₁ b₁) (.arr a₂ b₂) (.error e) (k + 1)
  | codomainsFail {a₁ b₁ a₂ b₂ : Ty} {s₁ : Subst} {e : TypeError} {k l : Nat}
    (h₁ : RigidReturns a₁ a₂ (.ok s₁) k)
    (h₂ : RigidReturns (s₁.apply b₁) (s₁.apply b₂) (.error e) l) :
    RigidReturns (.arr a₁ b₁) (.arr a₂ b₂) (.error e) (k + l + 1)
  | arr {a₁ b₁ a₂ b₂ : Ty} {s₁ s₂ : Subst} {k l : Nat} (h₁ : RigidReturns a₁ a₂ (.ok s₁) k)
    (h₂ : RigidReturns (s₁.apply b₁) (s₁.apply b₂) (.ok s₂) l) :
    RigidReturns (.arr a₁ b₁) (.arr a₂ b₂) (.ok (s₂ ++ s₁)) (k + l + 1)
  | bodiesFail {x y : String} {a b : Ty} {e : TypeError} {k : Nat}
    (h : RigidReturns a b (.error e) k) : RigidReturns (.all x a) (.all y b) (.error e) (k + 1)
  | escape {x y : String} {a b : Ty} {s : Subst} {k : Nat} (h : RigidReturns a b (.ok s) k)
    (hv : s.hasVar 0 = true) : RigidReturns (.all x a) (.all y b) (.error (.escape x)) (k + 1)
  | all {x y : String} {a b : Ty} {s : Subst} {k : Nat} (h : RigidReturns a b (.ok s) k)
    (hv : s.hasVar 0 = false) : RigidReturns (.all x a) (.all y b) (.ok (s.shift (-1))) (k + 1)

namespace RigidReturns

variable {a b : Ty} {r r' : Except TypeError Subst} {k k' : Nat}

/-- There is at most one run. -/
theorem unique (h : RigidReturns a b r k) (h' : RigidReturns a b r' k') : r = r' ∧ k = k' := by
  induction h generalizing r' k' with
  | name | bool | var | bindLeft | bindRight | clash => cases h' <;> simp_all [Clash]
  | domainsFail _ ih₁ =>
    cases h' with
    | domainsFail h₁ =>
      obtain ⟨he, rfl⟩ := ih₁ h₁
      exact ⟨he, rfl⟩
    | codomainsFail h₁ _ | arr h₁ _ => cases (ih₁ h₁).1
    | clash h => exact h.elim
  | codomainsFail _ _ ih₁ ih₂ =>
    cases h' with
    | domainsFail h₁ => cases (ih₁ h₁).1
    | codomainsFail h₁ h₂ =>
      obtain ⟨⟨⟩, rfl⟩ := ih₁ h₁
      obtain ⟨he, rfl⟩ := ih₂ h₂
      exact ⟨he, rfl⟩
    | arr h₁ h₂ =>
      obtain ⟨⟨⟩, rfl⟩ := ih₁ h₁
      cases (ih₂ h₂).1
    | clash h => exact h.elim
  | arr _ _ ih₁ ih₂ =>
    cases h' with
    | domainsFail h₁ => cases (ih₁ h₁).1
    | codomainsFail h₁ h₂ =>
      obtain ⟨⟨⟩, rfl⟩ := ih₁ h₁
      cases (ih₂ h₂).1
    | arr h₁ h₂ =>
      obtain ⟨⟨⟩, rfl⟩ := ih₁ h₁
      obtain ⟨⟨⟩, rfl⟩ := ih₂ h₂
      exact ⟨rfl, rfl⟩
    | clash h => exact h.elim
  | bodiesFail _ ih =>
    cases h' with
    | bodiesFail h =>
      obtain ⟨he, rfl⟩ := ih h
      exact ⟨he, rfl⟩
    | escape h _ | all h _ => cases (ih h).1
    | clash h => exact h.elim
  | escape _ hv ih =>
    cases h' with
    | bodiesFail h => cases (ih h).1
    | escape h _ => exact ⟨rfl, by rw [(ih h).2]⟩
    | all h hv' =>
      obtain ⟨⟨⟩, rfl⟩ := ih h
      exact absurd hv (by simp [hv'])
    | clash h => exact h.elim
  | all _ hv ih =>
    cases h' with
    | bodiesFail h => cases (ih h).1
    | escape h hv' =>
      obtain ⟨⟨⟩, rfl⟩ := ih h
      exact absurd hv (by simp [hv'])
    | all h _ =>
      obtain ⟨⟨⟩, rfl⟩ := ih h
      exact ⟨rfl, rfl⟩
    | clash h => exact h.elim

/-- What is found has only names of the types, and removes those that it binds. -/
theorem eliminates {s : Subst} (h : RigidReturns a b r k) (hr : r = .ok s) : s.Eliminates a b := by
  induction h generalizing s with
  | name | bool | var => cases hr; exact .nil
  | bindLeft =>
    obtain ⟨hx, rfl⟩ := Subst.bind_eq_ok_iff.mp hr
    exact .single hx
  | bindRight =>
    obtain ⟨hy, rfl⟩ := Subst.bind_eq_ok_iff.mp hr
    exact (Subst.Eliminates.single hy).symm
  | arr _ _ ih₁ ih₂ => cases hr; exact (ih₁ rfl).append (ih₂ rfl)
  | all _ _ ih => cases hr; exact (ih rfl).all _ _ (-1)
  | _ => cases hr

theorem ne_unresolved (h : RigidReturns a b r k) (c d : Ty) : r ≠ .error (.unresolved c d) := by
  have hbind : ∀ x t, Subst.bind x t ≠ .error (.unresolved c d) := by
    intro x t
    unfold Subst.bind
    split <;> simp
  induction h with
  | bindLeft | bindRight => exact hbind _ _
  | domainsFail _ ih | codomainsFail _ _ _ ih | bodiesFail _ ih => exact ih
  | _ => simp

end RigidReturns

section Rounds

variable {next : Ty → Ty → Except TypeError Subst} {N : Nat}

theorem exists_rigidReturns_arr
    (hnext : ∀ a b, (nameSet a b).card < N → ∃ k, RigidReturns a b (next a b) k)
    {a₁ b₁ a₂ b₂ : Ty} (hN : (nameSet (.arr a₁ b₁) (.arr a₂ b₂)).card ≤ N)
    (h₁ : ∃ k, RigidReturns a₁ a₂ (rigidRound next a₁ a₂) k)
    (h₂ : ∃ k, RigidReturns b₁ b₂ (rigidRound next b₁ b₂) k) :
    ∃ k, RigidReturns (.arr a₁ b₁) (.arr a₂ b₂) (rigidRound next (.arr a₁ b₁) (.arr a₂ b₂)) k := by
  obtain ⟨k, h₁⟩ := h₁
  rw [rigidRound]
  cases hr₁ : rigidRound next a₁ a₂ with
  | error e =>
    rw [hr₁] at h₁
    exact ⟨_, .domainsFail h₁⟩
  | ok s₁ =>
    rw [hr₁] at h₁
    change ∃ k, RigidReturns _ _ (if s₁.isEmpty then _ else _) k
    split
    case isTrue hempty =>
      -- nothing was bound, so the round goes on with the codomains as they are
      obtain rfl : s₁ = [] := List.isEmpty_iff.mp hempty
      obtain ⟨l, h₂⟩ := h₂
      cases hr₂ : rigidRound next b₁ b₂ with
      | error e =>
        rw [hr₂] at h₂
        exact ⟨_, .codomainsFail h₁ h₂⟩
      | ok s₂ =>
        rw [hr₂] at h₂
        rw [← List.append_nil s₂]
        exact ⟨_, .arr h₁ h₂⟩
    case isFalse hne =>
      rw [Bool.not_eq_true] at hne
      -- the codomains may be larger now, but a name is gone from them
      obtain ⟨l, h⟩ := hnext (s₁.apply b₁) (s₁.apply b₂)
        (lt_of_lt_of_le ((h₁.eliminates rfl).card_names_apply_lt hne) hN)
      cases hr : next (s₁.apply b₁) (s₁.apply b₂) with
      | error e =>
        rw [hr] at h
        exact ⟨_, .codomainsFail h₁ h⟩
      | ok s₂ =>
        rw [hr] at h
        exact ⟨_, .arr h₁ h⟩

theorem exists_rigidReturns_all {x y : String} {a b : Ty}
    (h : ∃ k, RigidReturns a b (rigidRound next a b) k) :
    ∃ k, RigidReturns (.all x a) (.all y b) (rigidRound next (.all x a) (.all y b)) k := by
  obtain ⟨k, h⟩ := h
  rw [rigidRound]
  cases hr : rigidRound next a b with
  | error e =>
    rw [hr] at h
    exact ⟨_, .bodiesFail h⟩
  | ok s =>
    rw [hr] at h
    change ∃ k, RigidReturns _ _ (if s.hasVar 0 then _ else _) k
    split
    case isTrue hv => exact ⟨_, .escape h hv⟩
    case isFalse hv => exact ⟨_, .all h (by simpa using hv)⟩

/-- A round returns if the rounds it starts return on types with fewer names. -/
theorem exists_rigidReturns_rigidRound
    (hnext : ∀ a b, (nameSet a b).card < N → ∃ k, RigidReturns a b (next a b) k) {a b : Ty}
    (hN : (nameSet a b).card ≤ N) : ∃ k, RigidReturns a b (rigidRound next a b) k := by
  induction a generalizing b with
  | name x =>
    rw [rigidRound]
    split
    case isTrue h => exact ⟨1, h ▸ .name x⟩
    case isFalse h => exact ⟨1, .bindLeft h⟩
  | var i n =>
    cases b with
    | name y => exact ⟨1, .bindRight (by simp)⟩
    | var j m =>
      rw [rigidRound]
      split
      case isTrue h => exact ⟨1, .var h⟩
      case isFalse h => exact ⟨1, .clash h⟩
    | _ => exact ⟨1, .clash trivial⟩
  | arr a₁ b₁ ih₁ ih₂ =>
    cases b with
    | name y => exact ⟨1, .bindRight (by simp)⟩
    | arr a₂ b₂ =>
      exact exists_rigidReturns_arr hnext hN
        (ih₁ ((Finset.card_le_card (nameSet_domains_subset _ _ _ _)).trans hN))
        (ih₂ ((Finset.card_le_card (nameSet_codomains_subset _ _ _ _)).trans hN))
    | _ => exact ⟨1, .clash trivial⟩
  | all x a ih =>
    cases b with
    | name y => exact ⟨1, .bindRight (by simp)⟩
    | all y b => exact exists_rigidReturns_all (ih hN)
    | _ => exact ⟨1, .clash trivial⟩
  | bool =>
    cases b with
    | name y => exact ⟨1, .bindRight (by simp)⟩
    | bool => exact ⟨1, .bool⟩
    | _ => exact ⟨1, .clash trivial⟩

end Rounds

theorem exists_rigidReturns_rigidWithin {rounds : Nat} {a b : Ty} (h : (nameSet a b).card ≤ rounds) :
    ∃ k, RigidReturns a b (rigidWithin rounds a b) k := by
  induction rounds generalizing a b with
  | zero => exact exists_rigidReturns_rigidRound (fun _ _ h => absurd h (Nat.not_lt_zero _)) h
  | succ rounds ih =>
    exact exists_rigidReturns_rigidRound (fun a b h => ih (Nat.lt_succ_iff.mp h)) h

theorem rigidReturns_iff {a b : Ty} {r : Except TypeError Subst} :
    (∃ calls, RigidReturns a b r calls) ↔ r = unifyRigid a b := by
  obtain ⟨k, hk⟩ := exists_rigidReturns_rigidWithin (card_nameSet_le a b)
  constructor
  · rintro ⟨calls, h⟩
    exact (h.unique hk).1
  · rintro rfl
    exact ⟨k, hk⟩

/-- More rounds than there are names change nothing, not even the error. -/
theorem rigidWithin_eq_unifyRigid {rounds : Nat} {a b : Ty} (h : (nameSet a b).card ≤ rounds) :
    rigidWithin rounds a b = unifyRigid a b :=
  rigidReturns_iff.mp (exists_rigidReturns_rigidWithin h)

theorem openingWithin_eq_unifyRigid {rounds : Nat} {a b : Ty} (ha : a.isMono) (hb : b.isMono)
    (h : (nameSet a b).card ≤ rounds) : openingWithin rounds a b = .ofExcept (unifyRigid a b) := by
  rw [openingWithin_eq_ofExcept rounds ha hb, rigidWithin_eq_unifyRigid h]

end Unify

/-- On types without quantifiers the two unifiers give the same answer. -/
theorem unifyOpening_eq_ofExcept {a b : Ty} (ha : a.isMono) (hb : b.isMono) :
    unifyOpening a b = .ofExcept (unifyRigid a b) :=
  Unify.openingWithin_eq_unifyRigid ha hb (Unify.card_nameSet_le_openingRounds a b)

namespace Unify

/-- Rigid unification of any two types returns after finitely many calls, with one answer that is
not given up for want of rounds. Without quantifiers the opening unifier returns the same bindings
in the same order, or the same error, and takes no names from the supply, however many rounds it
has beyond the number of names. -/
theorem rigid_returns_and_opening_agrees (a b : Ty) :
    (∀ r, (∃ calls, RigidReturns a b r calls) ↔ r = unifyRigid a b) ∧
    (∀ c d, unifyRigid a b ≠ .error (.unresolved c d)) ∧
    (a.isMono = true → b.isMono = true → ∀ σ,
      unifyOpening a b σ = Supplied.ofExcept (unifyRigid a b) σ ∧
      ∀ rounds ≥ (nameSet a b).card,
        openingWithin rounds a b σ = Supplied.ofExcept (unifyRigid a b) σ) := by
  refine ⟨fun r => rigidReturns_iff, fun c d => ?_, fun ha hb σ => ⟨?_, fun rounds hrounds => ?_⟩⟩
  · obtain ⟨k, h⟩ := rigidReturns_iff.mpr (rfl : unifyRigid a b = _)
    exact h.ne_unresolved c d
  · rw [unifyOpening_eq_ofExcept ha hb]
  · rw [openingWithin_eq_unifyRigid ha hb hrounds]

/-- The codomains `A → A` and `C → C` meet as `(B → B) → B → B` and `C → C`. -/
theorem rigid_returns_and_opening_agrees_growing :
    let f : Ty := .arr (.name "B") (.name "B")
    let a : Ty := .arr (.name "A") (.arr (.name "A") (.name "A"))
    let b : Ty := .arr f (.arr (.name "C") (.name "C"))
    (a.isMono = true ∧ b.isMono = true) ∧
      (∃ calls, RigidReturns a b (.ok [("C", f), ("A", f)]) calls) ∧
      ∀ σ, unifyOpening a b σ = .ok [("C", f), ("A", f)] σ := by
  intro f a b
  obtain ⟨hreturns, -, hagrees⟩ := rigid_returns_and_opening_agrees a b
  have hrigid : unifyRigid a b = .ok [("C", f), ("A", f)] := by decide
  refine ⟨⟨rfl, rfl⟩, (hreturns _).mpr hrigid.symm, fun σ => ?_⟩
  rw [(hagrees rfl rfl σ).1, hrigid, Supplied.ofExcept]

end Unify

end LambdaTyping
