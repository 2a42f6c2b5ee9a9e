import Mathlib
import LambdaTyping.NameSupply
import LambdaTyping.Proofs.NameMaps

/-!
# New names

The search for an unused name looks at one more candidate than there are used
names. The candidates are different from each other, so one of them is unused,
and every name that a supply hands out is new.
-/
namespace LambdaTyping

namespace Name

theorem append_repr_ne (x : String) (n : Nat) : x ++ n.repr ≠ x := by
  intro h
  have hpos : 0 < n.repr.length := Nat.length_repr_pos
  rw [String.append_eq_left_iff.mp h] at hpos
  simp at hpos

theorem numbered_injective (x : String) : Function.Injective (numbered x) := by
  intro i j h
  cases i with
  | zero =>
    cases j with
    | zero => rfl
    | succ j => exact absurd h.symm (append_repr_ne x (j + 1))
  | succ i =>
    cases j with
    | zero => exact absurd h (append_repr_ne x (i + 1))
    | succ j => exact Nat.repr_inj.mp ((String.append_right_inj x).mp h)

theorem toList_numbered (x : String) (n : Nat) :
    ∃ digits, (numbered x n).toList = x.toList ++ digits := by
  cases n with
  | zero => exact ⟨[], by simp [numbered]⟩
  | succ n => exact ⟨(n + 1).repr.toList, by simp [numbered]⟩

theorem lettered_injective : Function.Injective lettered := by
  intro i j h
  -- the first character gives the letter, and the rest its number
  have hletter : Char.ofNat (65 + i % 26) = Char.ofNat (65 + j % 26) := by
    obtain ⟨di, hi⟩ := toList_numbered (Char.ofNat (65 + i % 26)).toString (i / 26)
    obtain ⟨dj, hj⟩ := toList_numbered (Char.ofNat (65 + j % 26)).toString (j / 26)
    have hl := congrArg String.toList h
    simp only [lettered, hi, hj] at hl
    simpa using congrArg List.head? hl
  have hmod : i % 26 = j % 26 := by
    have hi : i % 26 < 26 := Nat.mod_lt _ (by decide)
    have hj : j % 26 < 26 := Nat.mod_lt _ (by decide)
    have hc := congrArg Char.toNat hletter
    rw [Char.toNat_ofNat, Char.toNat_ofNat, if_pos (by simp [Nat.isValidChar]; omega),
      if_pos (by simp [Nat.isValidChar]; omega)] at hc
    omega
  have hdiv : i / 26 = j / 26 := by
    simp only [lettered, hletter] at h
    exact numbered_injective _ h
  omega

theorem mem_used_of_firstUnusedWithin {used : NameSet} {candidate : Nat → String} {tries i : Nat}
    (h : candidate (firstUnusedWithin used candidate tries i) ∈ used) :
    ∀ k ≤ tries, candidate (i + k) ∈ used := by
  induction tries generalizing i with
  | zero =>
    intro k hk
    obtain rfl : k = 0 := by omega
    exact h
  | succ tries ih =>
    intro k hk
    by_cases hi : candidate i ∈ used
    · simp only [firstUnusedWithin, hi, ↓reduceIte] at h
      cases k with
      | zero => exact hi
      | succ k =>
        have := ih h k (by omega)
        rwa [show i + (k + 1) = i + 1 + k by omega]
    · simp [firstUnusedWithin, hi] at h

/-- Different candidates cannot all be in a list that is too short for them. -/
theorem exists_le_notMem {candidate : Nat → String} (hinj : Function.Injective candidate)
    (names : List String) : ∃ i ≤ names.length, candidate i ∉ names := by
  by_contra! h
  have hsub : (Finset.range (names.length + 1)).image candidate ⊆ names.toFinset := by
    intro x hx
    obtain ⟨i, hi, rfl⟩ := Finset.mem_image.mp hx
    exact List.mem_toFinset.mpr (h i (Finset.mem_range_succ_iff.mp hi))
  have hle := (Finset.card_le_card hsub).trans (List.toFinset_card_le names)
  rw [Finset.card_image_of_injective _ hinj, Finset.card_range] at hle
  omega

theorem firstUnused_notMem {used : NameSet} {candidate : Nat → String}
    (hinj : Function.Injective candidate) (i : Nat) :
    candidate (firstUnused used candidate i) ∉ used := by
  intro h
  have hshifted : Function.Injective fun k => candidate (i + k) := fun a b hab =>
    Nat.add_left_cancel (hinj hab)
  obtain ⟨k, hk, hunused⟩ := exists_le_notMem hshifted used.toList
  rw [Std.TreeSet.length_toList] at hk
  exact hunused (Std.TreeSet.mem_toList.mpr (mem_used_of_firstUnusedWithin h k hk))

theorem le_firstUnusedWithin (used : NameSet) (candidate : Nat → String) (tries i : Nat) :
    i ≤ firstUnusedWithin used candidate tries i := by
  induction tries generalizing i with
  | zero => exact le_rfl
  | succ tries ih =>
    rw [firstUnusedWithin]
    split
    · exact (Nat.le_succ i).trans (ih (i + 1))
    · exact le_rfl

theorem firstUnusedWithin_le {used : NameSet} {candidate : Nat → String} {tries i j : Nat}
    (hij : i ≤ j) (hj : candidate j ∉ used) : firstUnusedWithin used candidate tries i ≤ j := by
  induction tries generalizing i with
  | zero => exact hij
  | succ tries ih =>
    rw [firstUnusedWithin]
    split
    case isTrue hi =>
      have hne : i ≠ j := fun h => hj (h ▸ hi)
      exact ih (by omega)
    case isFalse => exact hij

/-- The search stops, and no candidate before the one that it stops at is unused. -/
theorem isLeast_firstUnused {used : NameSet} {candidate : Nat → String}
    (hinj : Function.Injective candidate) (i : Nat) :
    IsLeast {j | i ≤ j ∧ candidate j ∉ used} (firstUnused used candidate i) :=
  ⟨⟨le_firstUnusedWithin .., firstUnused_notMem hinj i⟩, fun _ h => firstUnusedWithin_le h.1 h.2⟩

/-- Infinitely many names can be renamed at once, away from finitely many. -/
theorem exists_renaming (avoid : List String) :
    ∃ ρ : String → String, Function.Injective ρ ∧ ∀ x, ρ x ∉ avoid := by
  obtain ⟨n, hn⟩ : ∃ n, ∀ y ∈ avoid, y.length < n :=
    ⟨(avoid.map String.length).sum + 1, fun y hy =>
      Nat.lt_succ_of_le (List.single_le_sum (by simp) _ (List.mem_map_of_mem hy))⟩
  refine ⟨fun x => String.ofList (List.replicate n 'A') ++ x, fun x y h => ?_, fun x hx => ?_⟩
  · exact (String.append_right_inj _).mp h
  · have := hn _ hx
    simp at this

end Name

namespace NameSupply

theorem like_notMem (hint : String) (σ : NameSupply) : (σ.like hint).1 ∉ σ.used :=
  Name.firstUnused_notMem (Name.numbered_injective hint) 0

@[simp] theorem mem_used_like {hint x : String} {σ : NameSupply} :
    x ∈ (σ.like hint).2.used ↔ (σ.like hint).1 = x ∨ x ∈ σ.used := by
  simp [like]

theorem letter_notMem (σ : NameSupply) : σ.letter.1 ∉ σ.used :=
  Name.firstUnused_notMem Name.lettered_injective σ.next

@[simp] theorem mem_used_letter {x : String} {σ : NameSupply} :
    x ∈ σ.letter.2.used ↔ σ.letter.1 = x ∨ x ∈ σ.used := by
  simp [letter]

@[simp] theorem mem_used_avoiding {x : String} {names : List String} :
    x ∈ (avoiding names).used ↔ x ∈ names := by
  simp [avoiding]

end NameSupply

theorem bind_eq_ok_iff {ε α β : Type} {r : Except ε α} {f : α → Except ε β} {b : β} :
    r >>= f = .ok b ↔ ∃ a, r = .ok a ∧ f a = .ok b := by
  change Except.bind r f = _ ↔ _
  cases r with
  | ok a => simp [Except.bind]
  | error e => simp [Except.bind]

theorem mapError_eq_ok_iff {ε ε' α : Type} {r : Except ε α} {f : ε → ε'} {a : α} :
    r.mapError f = .ok a ↔ r = .ok a := by
  cases r <;> simp [Except.mapError]

theorem toOption_eq_some_iff {ε α : Type} {r : Except ε α} {a : α} :
    r.toOption = some a ↔ r = .ok a := by
  cases r <;> simp [Except.toOption]

namespace Supplied

variable {α β : Type}

theorem bind_eq_ok_iff {m : Supplied α} {f : α → Supplied β} {σ σ' : NameSupply} {b : β} :
    (m >>= f) σ = .ok b σ' ↔ ∃ a σ₁, m σ = .ok a σ₁ ∧ f a σ₁ = .ok b σ' := by
  change EStateM.bind m f σ = _ ↔ _
  unfold EStateM.bind
  cases m σ with
  | ok a σ₁ => simp
  | error e σ₁ => simp

theorem pure_eq_ok_iff {a b : α} {σ σ' : NameSupply} :
    (pure a : Supplied α) σ = .ok b σ' ↔ b = a ∧ σ' = σ := by
  change EStateM.Result.ok a σ = _ ↔ _
  simp [eq_comm]

theorem take_eq_ok_iff {f : NameSupply → α × NameSupply} {a : α} {σ σ' : NameSupply} :
    take f σ = .ok a σ' ↔ a = (f σ).1 ∧ σ' = (f σ).2 := by
  simp [take, eq_comm]

theorem ofExcept_bind (r : Except TypeError α) (f : α → Except TypeError β) :
    ofExcept (r >>= f) = ofExcept r >>= fun a => ofExcept (f a) := by
  cases r <;> rfl

theorem ofExcept_eq_ok_iff {r : Except TypeError α} {σ σ' : NameSupply} {a : α} :
    ofExcept r σ = .ok a σ' ↔ r = .ok a ∧ σ' = σ := by
  cases r with
  | ok b => simp [ofExcept, eq_comm]
  | error e => simp [ofExcept]

theorem answer_eq_ok_iff {m : Supplied α} {σ : NameSupply} {a : α} :
    m.answer σ = .ok a ↔ ∃ σ', m σ = .ok a σ' := by
  unfold answer
  cases m σ with
  | ok b σ' => simp
  | error e σ' => simp

end Supplied

end LambdaTyping
