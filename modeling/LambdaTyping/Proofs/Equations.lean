import Mathlib
import LambdaTyping.Derivation.Checker
import LambdaTyping.Proofs.AlphaEquivalence
import LambdaTyping.Proofs.MostGeneralUnifiers

/-!
# Solving the equations of a rule

A rule is checked step by step, and every step either adds an equation to the
substitution or fails. Here it is said once what a step does: starting from a
substitution whose solutions are the maps with a property `P`, it ends with one
whose solutions have `P` and satisfy the new equation, or there are none.

The calculi without type variables are meant, so a substitution binds names to
simple types. Quantified types of contexts may be compared if they are the same
up to the names of binders.
-/
namespace LambdaTyping

/-- The maps that satisfy the bindings are the simple maps with property `P`. -/
structure Subst.Solves (s : Subst) (P : (String → Ty) → Prop) : Prop where
  isSimple : s.IsSimple
  solved : s.Solved
  models_iff : ∀ θ, IsSimpleMap θ → (s.Models θ ↔ P θ)

/-- A check decides `P`: it solves it, or fails because no simple map has it. -/
def Decides {ε : Type} (P : (String → Ty) → Prop) : Except ε Solution → Prop
  | .ok k => k.subst.Solves P
  | .error _ => ∀ θ, IsSimpleMap θ → ¬ P θ

variable {P Q : (String → Ty) → Prop}

theorem Subst.Solves.holds {s : Subst} (h : s.Solves P) : P s.image :=
  (h.models_iff s.image h.isSimple.image).mp h.solved.models

theorem Subst.Solves.congr {s : Subst} (h : s.Solves P) (hPQ : ∀ θ, IsSimpleMap θ → (P θ ↔ Q θ)) :
    s.Solves Q :=
  ⟨h.isSimple, h.solved, fun θ hθ => (h.models_iff θ hθ).trans (hPQ θ hθ)⟩

theorem Subst.solves_nil : Subst.Solves [] fun _ => True :=
  ⟨by simp [Subst.IsSimple], trivial, fun θ _ => by simp [Subst.Models]⟩

namespace Decides

variable {ε ε' : Type} {r : Except ε Solution}

theorem congr (h : Decides P r) (hPQ : ∀ θ, IsSimpleMap θ → (P θ ↔ Q θ)) : Decides Q r := by
  cases r with
  | ok k => exact Subst.Solves.congr h hPQ
  | error e => exact fun θ hθ hQ => h θ hθ ((hPQ θ hθ).mpr hQ)

theorem mapError {r : Except ε Solution} (h : Decides P r) (f : ε → ε') :
    Decides P (r.mapError f) := by
  cases r with
  | ok k => exact h
  | error e => exact h

/-- Steps one after the other. -/
theorem bind {f : Solution → Except ε Solution} (h : Decides P r)
    (hf : ∀ k, k.subst.Solves P → Decides Q (f k)) (hQ : ∀ θ, Q θ → P θ) :
    Decides Q (r >>= f) := by
  cases r with
  | ok k => exact hf k h
  | error e => exact fun θ hθ hq => h θ hθ (hQ θ hq)

end Decides

namespace Conclusion

variable {c : Conclusion} {k : Solution} {a b : Ty}

theorem equate_of_alphaEq (h : (k.subst.apply a).alphaEq (k.subst.apply b)) :
    c.equate a b k = .ok k := by
  simp [equate, h]
  rfl

theorem equate_of_unifyOpening_ok (hc : c.calculus ≠ .systemF)
    (h : (k.subst.apply a).alphaEq (k.subst.apply b) = false) {s : Subst} {σ : NameSupply}
    (hs : Subst.IsSimple (s ++ k.subst))
    (hunify : unifyOpening (k.subst.apply a) (k.subst.apply b) k.supply = .ok s σ) :
    c.equate a b k = .ok ⟨σ, s ++ k.subst⟩ := by
  have hsolve : c.solve (k.subst.apply a) (k.subst.apply b) k.supply = .ok (s, σ) := by
    unfold solve
    split
    · exact absurd ‹_› hc
    · rw [hunify]
  simp only [equate, h, hsolve]
  change (c.context.apply (s ++ k.subst) >>= _) = _
  rw [Context.apply_eq_ok c.context hs]
  rfl

theorem equate_of_unifyOpening_error (hc : c.calculus ≠ .systemF)
    (h : (k.subst.apply a).alphaEq (k.subst.apply b) = false) {e : TypeError} {σ : NameSupply}
    (hunify : unifyOpening (k.subst.apply a) (k.subst.apply b) k.supply = .error e σ) :
    c.equate a b k = .error e := by
  have hsolve : c.solve (k.subst.apply a) (k.subst.apply b) k.supply = .error e := by
    unfold solve
    split
    · exact absurd ‹_› hc
    · rw [hunify]
  simp only [equate, h, hsolve]
  rfl

theorem solves_append (hk : k.subst.Solves P) {s : Subst}
    (hs : IsSimpleMgu (k.subst.apply a) (k.subst.apply b) s) :
    Subst.Solves (s ++ k.subst) fun θ => P θ ∧ a.mapNames θ = b.mapNames θ where
  isSimple := hs.isSimple.append hk.isSimple
  solved := by
    refine hs.solved.append hk.solved fun x hx hd => ?_
    rcases hs.names x hx with hx | hx
    · exact hk.solved.notMem_freeNames_apply hd a hx
    · exact hk.solved.notMem_freeNames_apply hd b hx
  models_iff θ hθ := by
    rw [Subst.models_append, hk.models_iff θ hθ, and_comm]
    refine and_congr_right fun hP => ?_
    have hmodels := (hk.models_iff θ hθ).mpr hP
    rw [← hs.eq_iff θ hθ, hmodels.apply_mapNames, hmodels.apply_mapNames]

theorem decides_equate (hc : c.calculus ≠ .systemF) (hk : k.subst.Solves P) (ha : a.isSimple)
    (hb : b.isSimple) :
    Decides (fun θ => P θ ∧ a.mapNames θ = b.mapNames θ) (c.equate a b k) := by
  have ha' := hk.isSimple.apply ha
  have hb' := hk.isSimple.apply hb
  cases halpha : (k.subst.apply a).alphaEq (k.subst.apply b) with
  | true =>
    rw [equate_of_alphaEq halpha]
    refine hk.congr fun θ hθ => (and_iff_left_of_imp fun hP => ?_).symm
    have hmodels := (hk.models_iff θ hθ).mpr hP
    have heq : k.subst.apply a = k.subst.apply b :=
      (Ty.alphaEqAt_iff_of_isSimple 0 ha' hb').mp halpha
    rw [← hmodels.apply_mapNames a, heq, hmodels.apply_mapNames b]
  | false =>
    rcases unifyOpening_cases ha' hb' with ⟨s, hs, hrun⟩ | ⟨⟨e, hrun⟩, hnone⟩
    · rw [equate_of_unifyOpening_ok hc halpha (hs.isSimple.append hk.isSimple) (hrun k.supply)]
      exact solves_append hk hs
    · rw [equate_of_unifyOpening_error hc halpha (hrun k.supply)]
      rintro θ hθ ⟨hP, heq⟩
      have hmodels := (hk.models_iff θ hθ).mpr hP
      refine hnone θ hθ ?_
      rw [hmodels.apply_mapNames, hmodels.apply_mapNames, heq]

theorem decides_unify (hc : c.calculus ≠ .systemF) (hk : k.subst.Solves P) (ha : a.isSimple)
    (hb : b.isSimple) :
    Decides (fun θ => P θ ∧ a.mapNames θ = b.mapNames θ) (c.unify a b k) :=
  (decides_equate hc hk ha hb).mapError RuleError.unify

theorem decides_adopt (hc : c.calculus ≠ .systemF) (hk : k.subst.Solves P) (i : Nat) {s : Subst}
    (hs : s.IsSimple) : Decides (fun θ => P θ ∧ s.Models θ) (c.adopt i s k) := by
  induction s with
  | nil => exact hk.congr fun θ _ => by simp [Subst.Models]
  | cons b s ih =>
    obtain ⟨x, ty⟩ := b
    have hs' : Subst.IsSimple s := fun b hb => hs b (List.mem_cons_of_mem _ hb)
    have hstep : Decides (fun θ => (P θ ∧ Subst.Models θ s) ∧ θ x = ty.mapNames θ)
        (c.adopt i ((x, ty) :: s) k) := by
      refine (ih hs').bind (fun k hk => ?_) fun θ h => h.1
      have h := (decides_equate hc hk (a := .name x) rfl (hs (x, ty) (by simp))).mapError
        (RuleError.conflict i)
      simpa using h
    refine hstep.congr fun θ _ => ?_
    simp only [Subst.Models, List.forall_mem_cons]
    tauto

theorem decides_adoptAll (hc : c.calculus ≠ .systemF) (hk : k.subst.Solves P) (i : Nat)
    {ps : List Premise} (hps : ∀ p ∈ ps, p.subst.IsSimple) :
    Decides (fun θ => P θ ∧ ∀ p ∈ ps, p.subst.Models θ) (c.adoptAll i ps k) := by
  induction ps generalizing P i k with
  | nil => exact hk.congr fun θ _ => by simp
  | cons p ps ih =>
    rw [List.forall_mem_cons] at hps
    have hstep : Decides (fun θ => (P θ ∧ p.subst.Models θ) ∧ ∀ q ∈ ps, q.subst.Models θ)
        (c.adoptAll i (p :: ps) k) :=
      (decides_adopt hc hk i hps.1).bind (fun k hk => ih hk (i + 1) hps.2) fun θ h => h.1
    refine hstep.congr fun θ _ => ?_
    simp only [List.forall_mem_cons]
    tauto

end Conclusion

/-- Both have no type, or both have one, or both are type variables. -/
def Binding.sameKind : Binding → Binding → Bool
  | .name, .name | .var _, .var _ | .tyVar, .tyVar => true
  | _, _ => false

namespace Context

/-- The bindings of two contexts are of the same kinds, one by one. -/
def SameKinds (Γ Δ : Context) : Prop :=
  List.Forall₂ (fun e f => e.binding.sameKind f.binding = true) Γ Δ

/-- The map makes the types of variable `i` equal, up to the names of binders. -/
def EqualAt (θ : String → Ty) (Γ Δ : Context) (i : Nat) : Prop :=
  ∀ a b, Γ.getType? i = some a → Δ.getType? i = some b → Unifies θ a b

/-- The map makes the types of two contexts equal, up to the names of binders. -/
def EqualUnder (θ : String → Ty) (Γ Δ : Context) : Prop := ∀ i, EqualAt θ Γ Δ i

instance (Γ Δ : Context) : Decidable (Γ.SameKinds Δ) :=
  inferInstanceAs (Decidable (List.Forall₂ _ Γ Δ))

theorem forall_getType?_iff {Γ : Context} {p : Nat → Ty → Prop} :
    (∀ i < Γ.length, ∀ a ∈ Γ.getType? i, p i a) ↔ ∀ i a, Γ.getType? i = some a → p i a := by
  refine ⟨fun h i a ha => h i ?_ a ha, fun h i _ a ha => h i a ha⟩
  by_contra hi
  have hnone : Γ[i]? = none := List.getElem?_eq_none_iff.mpr (not_lt.mp hi)
  simp [getType?, hnone] at ha

instance (θ : String → Ty) (Γ Δ : Context) : Decidable (Γ.EqualUnder θ Δ) :=
  decidable_of_iff (∀ i < Γ.length, ∀ a ∈ Γ.getType? i, ∀ b ∈ Δ.getType? i,
      (a.mapNames θ).erase = (b.mapNames θ).erase)
    (forall_getType?_iff.trans ⟨fun h i a b ha hb => h i a ha b hb, fun h i a ha b hb => h i a b ha hb⟩)

theorem EqualUnder.congr {η θ : String → Ty} {Γ Δ : Context} (h : Γ.EqualUnder θ Δ)
    (hΓ : ∀ x ∈ Γ.freeNames, η x = θ x) (hΔ : ∀ x ∈ Δ.freeNames, η x = θ x) : Γ.EqualUnder η Δ :=
  fun i a b ha hb => by
    rw [Unifies, Ty.mapNames_congr fun x hx => hΓ x (mem_freeNames_of_getType? ha hx),
      Ty.mapNames_congr fun x hx => hΔ x (mem_freeNames_of_getType? hb hx)]
    exact h i a b ha hb

theorem SameKinds.exists_getType? {Γ Δ : Context} (h : Γ.SameKinds Δ) {i : Nat} {a : Ty}
    (ha : Γ.getType? i = some a) : ∃ b, Δ.getType? i = some b := by
  induction h generalizing i a with
  | nil => simp [getType?] at ha
  | @cons e f Γ Δ hkind _ ih =>
    obtain ⟨x, b₁⟩ := e
    obtain ⟨y, b₂⟩ := f
    cases i with
    | zero =>
      obtain ⟨a', rfl, rfl⟩ := getType?_cons_zero_eq_some ha
      cases b₂ with
      | var b => exact ⟨b.shift 1, rfl⟩
      | _ => simp [Binding.sameKind] at hkind
    | succ i =>
      rw [getType?_cons_succ, Option.map_eq_some_iff] at ha
      obtain ⟨a', ha', rfl⟩ := ha
      obtain ⟨b, hb⟩ := ih ha'
      exact ⟨b.shift 1, by rw [getType?_cons_succ, hb]; rfl⟩

theorem unifies_shift_iff {θ : String → Ty} (hθ : IsSimpleMap θ) {a b : Ty} :
    Unifies θ (a.shift 1) (b.shift 1) ↔ Unifies θ a b := by
  have hmap : ∀ t : Ty, ((t.shift 1).mapNames θ).erase = (t.mapNames θ).erase.shift 1 := fun t => by
    have h := Ty.mapNames_shift hθ 1 t
    rw [Nat.cast_one] at h
    rw [h, Ty.shift, Ty.erase_shiftAbove]
    rfl
  rw [Unifies, hmap, hmap]
  exact Ty.shift_one_injective.eq_iff

theorem EqualUnder.cons {θ : String → Ty} (hθ : IsSimpleMap θ) {Γ Δ : Context}
    (h : EqualUnder θ Γ Δ) (x y : String) {a b : Ty} (hab : Unifies θ a b) :
    EqualUnder θ (⟨x, .var a⟩ :: Γ) (⟨y, .var b⟩ :: Δ) := by
  intro i a' b' ha' hb'
  cases i with
  | zero =>
    cases ha'
    cases hb'
    exact (unifies_shift_iff hθ).mpr hab
  | succ i =>
    rw [getType?_cons_succ, Option.map_eq_some_iff] at ha' hb'
    obtain ⟨a', ha', rfl⟩ := ha'
    obtain ⟨b', hb', rfl⟩ := hb'
    exact (unifies_shift_iff hθ).mpr (h i a' b' ha' hb')

theorem SameKinds.cons_var {Γ Δ : Context} (h : Γ.SameKinds Δ) (x y : String) (a b : Ty) :
    SameKinds (⟨x, .var a⟩ :: Γ) (⟨y, .var b⟩ :: Δ) := .cons rfl h

/-- Types in the same place are simple or the same up to the names of binders. -/
def Comparable (Γ Δ : Context) : Prop :=
  ∀ i a b, Γ.getType? i = some a → Δ.getType? i = some b →
    a.isSimple ∧ b.isSimple ∨ ∃ n, a.WellScoped n ∧ b.WellScoped n ∧ a.erase = b.erase

end Context

namespace Conclusion

variable {c : Conclusion} {k : Solution}

theorem decides_equate_of_comparable (hc : c.calculus ≠ .systemF) (hk : k.subst.Solves P) {a b : Ty}
    (h : a.isSimple ∧ b.isSimple ∨ ∃ n, a.WellScoped n ∧ b.WellScoped n ∧ a.erase = b.erase) :
    Decides (fun θ => P θ ∧ Unifies θ a b) (c.equate a b k) := by
  rcases h with ⟨ha, hb⟩ | ⟨n, ha, hb, heq⟩
  · refine (decides_equate hc hk ha hb).congr fun θ hθ => ?_
    rw [unifies_iff_of_isSimple hθ ha hb]
  · have hu : ∀ θ, Unifies θ a b := fun θ => by
      rw [Unifies, Ty.mapNames, Ty.mapNames, Ty.erase_mapNamesAt, Ty.erase_mapNamesAt, heq]
    have hscoped : ∀ {t : Ty}, t.WellScoped n → (k.subst.apply t).WellScoped n := fun ht => by
      rw [Subst.apply_eq_mapNames]
      exact Ty.WellScoped.mapNamesAt (c := 0)
        (fun x _ => Ty.wellScoped_of_isSimple n (hk.isSimple.image x)) ht
    have halpha : (k.subst.apply a).alphaEq (k.subst.apply b) = true := by
      rw [Ty.alphaEq_iff_erase (hscoped ha) (hscoped hb), Subst.apply_eq_mapNames,
        Subst.apply_eq_mapNames]
      exact hu k.subst.image
    rw [equate_of_alphaEq halpha]
    exact hk.congr fun θ _ => (and_iff_left (hu θ)).symm

theorem getType?_of_drop {Γ₀ Γ : Context} {d : Nat} {x : String} {b : Binding}
    (h : Γ₀.drop d = ⟨x, b⟩ :: Γ) :
    Γ₀.drop (d + 1) = Γ ∧
      ((∃ a, b = .var a ∧ Γ₀.getType? d = some (a.shift ((d : Int) + 1))) ∨
        (∀ a, b ≠ .var a) ∧ Γ₀.getType? d = none) := by
  have hget : Γ₀[d]? = some ⟨x, b⟩ := by rw [← List.head?_drop, h]; rfl
  refine ⟨by rw [← List.tail_drop, h]; rfl, ?_⟩
  cases b with
  | var a => exact .inl ⟨a, rfl, by simp [Context.getType?, hget]⟩
  | _ => exact .inr ⟨by simp, by simp [Context.getType?, hget]⟩

theorem forall_add_iff {p : Nat → Prop} {d : Nat} :
    (∀ j, p (d + j)) ↔ p d ∧ ∀ j, p (d + 1 + j) := by
  constructor
  · intro h
    exact ⟨h 0, fun j => by rw [Nat.add_assoc, Nat.add_comm 1 j]; exact h (j + 1)⟩
  · rintro ⟨hzero, hsucc⟩ j
    cases j with
    | zero => exact hzero
    | succ j => rw [Nat.add_comm j 1, ← Nat.add_assoc]; exact hsucc j

section Below

variable {Γ₀ Δ₀ Γ Δ : Context} {d : Nat} {x y : String} {b₁ b₂ : Binding}

theorem equateBelow_of_sameKind_eq_false (h : b₁.sameKind b₂ = false) :
    c.equateBelow Γ₀ Δ₀ d (⟨x, b₁⟩ :: Γ) (⟨y, b₂⟩ :: Δ) k = none := by
  cases b₁ <;> cases b₂ <;> first | rfl | simp [Binding.sameKind] at h

theorem equateBelow_of_untyped (h : b₁.sameKind b₂) (hb₁ : ∀ a, b₁ ≠ .var a) :
    c.equateBelow Γ₀ Δ₀ d (⟨x, b₁⟩ :: Γ) (⟨y, b₂⟩ :: Δ) k =
      c.equateBelow Γ₀ Δ₀ (d + 1) Γ Δ k := by
  cases b₁ with
  | var a => exact absurd rfl (hb₁ a)
  | name => cases b₂ <;> first | rfl | simp [Binding.sameKind] at h
  | tyVar => cases b₂ <;> first | rfl | simp [Binding.sameKind] at h

theorem equateBelow_of_typed {a₁ a₂ A B : Ty} (hA : Γ₀.getType? d = some A)
    (hB : Δ₀.getType? d = some B) :
    c.equateBelow Γ₀ Δ₀ d (⟨x, .var a₁⟩ :: Γ) (⟨y, .var a₂⟩ :: Δ) k =
      match c.equate A B k with
      | .ok k => c.equateBelow Γ₀ Δ₀ (d + 1) Γ Δ k
      | .error _ => none := by
  cases h : c.equate A B k <;> simp only [equateBelow, hA, hB, h]

theorem sameKinds_cons_iff :
    Context.SameKinds (⟨x, b₁⟩ :: Γ) (⟨y, b₂⟩ :: Δ) ↔ b₁.sameKind b₂ ∧ Γ.SameKinds Δ :=
  List.forall₂_cons

end Below

/-- The parts of two contexts below the `d` most recent bindings. -/
theorem decides_equateBelow (hc : c.calculus ≠ .systemF) (e : RuleError) {Γ₀ Δ₀ : Context}
    (hcomparable : Γ₀.Comparable Δ₀) (hk : k.subst.Solves P) {d : Nat} {Γ Δ : Context}
    (hΓ : Γ₀.drop d = Γ) (hΔ : Δ₀.drop d = Δ) :
    Decides (fun θ => P θ ∧ Γ.SameKinds Δ ∧ ∀ j, Γ₀.EqualAt θ Δ₀ (d + j))
      (match c.equateBelow Γ₀ Δ₀ d Γ Δ k with
        | some k => .ok k
        | none => .error e) := by
  induction Γ generalizing Δ d k P with
  | nil =>
    cases Δ with
    | nil =>
      refine hk.congr fun θ _ => (and_iff_left ⟨.nil, fun j a b ha _ => ?_⟩).symm
      have hnone : Γ₀[d + j]? = none := by
        rw [List.getElem?_eq_none_iff]
        exact le_trans (List.drop_eq_nil_iff.mp hΓ) (Nat.le_add_right d j)
      simp [Context.getType?, hnone] at ha
    | cons f Δ =>
      rintro θ _ ⟨-, hkinds, -⟩
      cases hkinds
  | cons e₁ Γ ih =>
    cases Δ with
    | nil =>
      rintro θ _ ⟨-, hkinds, -⟩
      cases hkinds
    | cons f Δ =>
      obtain ⟨x, b₁⟩ := e₁
      obtain ⟨y, b₂⟩ := f
      obtain ⟨hΓ', hget₁⟩ := getType?_of_drop hΓ
      obtain ⟨hΔ', hget₂⟩ := getType?_of_drop hΔ
      cases hkind : b₁.sameKind b₂ with
      | false =>
        rw [equateBelow_of_sameKind_eq_false hkind]
        rintro θ _ ⟨-, hkinds, -⟩
        rw [(sameKinds_cons_iff.mp hkinds).1] at hkind
        exact absurd hkind (by simp)
      | true =>
        rcases hget₁ with ⟨a₁, rfl, hA⟩ | ⟨hb₁, hA⟩
        · rcases hget₂ with ⟨a₂, rfl, hB⟩ | ⟨hb₂, -⟩
          · rw [equateBelow_of_typed hA hB]
            have hhead := decides_equate_of_comparable hc hk (hcomparable d _ _ hA hB)
            have hzero : ∀ θ, Γ₀.EqualAt θ Δ₀ d ↔ Unifies θ _ _ := fun θ =>
              ⟨fun h => h _ _ hA hB, fun h a b ha hb => by
                rw [hA] at ha; rw [hB] at hb; cases ha; cases hb; exact h⟩
            cases hr : c.equate (a₁.shift ((d : Int) + 1)) (a₂.shift ((d : Int) + 1)) k with
            | error err =>
              rw [hr] at hhead
              rintro θ hθ ⟨hP, -, heq⟩
              exact hhead θ hθ ⟨hP, (hzero θ).mp (heq 0)⟩
            | ok k' =>
              rw [hr] at hhead
              refine (ih hhead hΓ' hΔ').congr fun θ _ => ?_
              rw [sameKinds_cons_iff, forall_add_iff (p := fun i => Γ₀.EqualAt θ Δ₀ i) (d := d), hzero, hkind]
              tauto
          · cases b₂ with
            | var a₂ => exact absurd rfl (hb₂ a₂)
            | _ => simp [Binding.sameKind] at hkind
        · rw [equateBelow_of_untyped hkind hb₁]
          refine (ih hk hΓ' hΔ').congr fun θ _ => ?_
          have hzero : Γ₀.EqualAt θ Δ₀ d := fun a b ha => by simp [hA] at ha
          rw [sameKinds_cons_iff, forall_add_iff (p := fun i => Γ₀.EqualAt θ Δ₀ i) (d := d), hkind]
          tauto

theorem decides_sameContext (hc : c.calculus ≠ .systemF) (hk : k.subst.Solves P) (i : Nat)
    {Γ : Context} (hcomparable : Γ.Comparable c.context) :
    Decides (fun θ => P θ ∧ Γ.SameKinds c.context ∧ Γ.EqualUnder θ c.context)
      (c.sameContext i Γ k) := by
  unfold sameContext
  split
  case isTrue hlength =>
    rintro θ _ ⟨-, hkinds, -⟩
    exact hlength hkinds.length_eq
  case isFalse hlength =>
    refine (decides_equateBelow hc (.context i) hcomparable hk (d := 0) rfl rfl).congr fun θ _ => ?_
    simp [Context.EqualUnder]

/-- A premise for the term `t` in the context of the conclusion, and what comes after it. -/
theorem decides_samePremise (hc : c.calculus ≠ .systemF) (hk : k.subst.Solves P) (i : Nat)
    {Γ : Context} {u t : Term} {f : Solution → Except RuleError Solution}
    (hcomparable : Γ.Comparable c.context)
    (hf : ∀ k, k.subst.Solves (fun θ => P θ ∧ (Γ.SameKinds c.context ∧ u.alphaEq t) ∧
      Γ.EqualUnder θ c.context) → Decides Q (f k))
    (hQ : ∀ θ, Q θ → P θ ∧ (Γ.SameKinds c.context ∧ u.alphaEq t) ∧ Γ.EqualUnder θ c.context) :
    Decides Q (c.sameContext i Γ k >>= fun k => sameTerm i u t >>= fun _ => f k) := by
  refine (decides_sameContext hc hk i hcomparable).bind (fun k hk => ?_) fun θ h => ?_
  · cases halpha : u.alphaEq t with
    | true =>
      have hterm : sameTerm i u t = .ok () := by simp [sameTerm, halpha]
      rw [hterm]
      refine hf k (hk.congr fun θ _ => ?_)
      simp only [halpha]
      tauto
    | false =>
      have hterm : sameTerm i u t = .error (.term i) := by simp [sameTerm, halpha]
      rw [hterm]
      intro θ _ h
      have hmatch := (hQ θ h).2.1.2
      rw [halpha] at hmatch
      exact absurd hmatch (by simp)
  · obtain ⟨hP, ⟨hkinds, -⟩, hequal⟩ := hQ θ h
    exact ⟨hP, hkinds, hequal⟩

end Conclusion

/-- Simple types do not refer to term variables. -/
theorem unbind_of_isSimple (i : Nat) {s : Subst} (hs : s.IsSimple) : unbind i s = .ok s := by
  have h : s.unshift? 1 = some s := by
    induction s with
    | nil => rfl
    | cons b s ih =>
      obtain ⟨x, ty⟩ := b
      have hty : ty.unshift? 1 = some ty := by
        have h := Ty.unshift?_shift 1 ty
        rwa [Ty.shift_of_isSimple _ (hs (x, ty) (by simp))] at h
      have ih' := ih fun b hb => hs b (List.mem_cons_of_mem _ hb)
      simp only [Subst.unshift?, hty, ih']
      rfl
  simp [unbind, h]

end LambdaTyping
