import Mathlib
import LambdaTyping.Proofs.InferenceFormation

/-!
# Shifts that lose nothing

Moving a type out of the scope of binders is only right if it does not refer to
them. The operations are defined on all values and cut off what would fall below
zero; here is what has to hold so that this never happens, as a test of its own
for each operation that moves something down, and why types and terms that are
formed in a context pass it.
-/
namespace LambdaTyping

/-- Moving the number leaves it at zero or above. -/
def offsetFits (k : Nat) (d : Int) : Bool := decide (0 ≤ (k : Int) + d)

/-- Moving variable `i` of a context of length `n` by `d`, from index `c` on: neither number falls
below zero, and the variable is none of the binders that go away. -/
def varFits (d : Int) (c i n : Nat) : Bool :=
  offsetFits n d && (decide (i < c) || offsetFits i d && decide ((c : Int) ≤ (i : Int) + d))

theorem varFits_iff {d : Int} {c i n : Nat} :
    varFits d c i n = true ↔ 0 ≤ (n : Int) + d ∧ (c ≤ i → (c : Int) ≤ (i : Int) + d) := by
  simp only [varFits, offsetFits, Bool.and_eq_true, Bool.or_eq_true, decide_eq_true_eq]
  omega

/-- What was moved up can be moved down again, from anywhere in the gap on. -/
theorem varFits_offset {d : Nat} {e : Int} (he : -(d : Int) ≤ e) {c k : Nat} (hc : c ≤ k)
    (hk : (k : Int) ≤ c + d + e) (i n : Nat) :
    varFits e k (offsetAbove c i d) (offset n d) = true := by
  rw [varFits_iff]
  simp only [offsetAbove, offset_natCast]
  split <;> omega

namespace Ty

/-- All variables can be moved by `d` from `c` on. -/
def canShiftAbove (d : Int) (c : Nat) : Ty → Bool
  | name _ | bool => true
  | var i n => varFits d c i n
  | arr a b => a.canShiftAbove d c && b.canShiftAbove d c
  | all _ a => a.canShiftAbove d (c + 1)

def canShift (d : Int) (t : Ty) : Bool := t.canShiftAbove d 0

theorem canShiftAbove_shiftAbove {d : Nat} {e : Int} (he : -(d : Int) ≤ e) {c k : Nat} (hc : c ≤ k)
    (hk : (k : Int) ≤ c + d + e) (t : Ty) : (t.shiftAbove d c).canShiftAbove e k = true := by
  induction t generalizing c k with
  | var i n => exact varFits_offset he hc hk i n
  | arr a b iha ihb => simp [shiftAbove, canShiftAbove, iha hc hk, ihb hc hk]
  | all x a ih => exact ih (by omega) (by omega)
  | _ => rfl

/-- A type can leave the scope of binders to which it does not refer. -/
theorem WellScoped.canShiftAbove {n d c : Nat} {t : Ty} (h : t.WellScoped n) (hd : c + d ≤ n)
    (hmin : ∀ i ∈ t.minFreeVarAt c, d ≤ i) : t.canShiftAbove (-(d : Int)) c = true := by
  induction t generalizing n c with
  | var i m =>
    obtain ⟨rfl, hi⟩ := h
    refine varFits_iff.mpr ⟨by omega, fun hc => ?_⟩
    have hdi : d ≤ i - c := by simpa [minFreeVarAt, hc] using hmin
    omega
  | arr a b iha ihb =>
    obtain ⟨hmina, hminb⟩ := le_of_mem_minOption_iff.mp hmin
    simp [Ty.canShiftAbove, iha h.1 hd hmina, ihb h.2 hd hminb]
  | all x a ih => exact ih (c := c + 1) h (by omega) hmin
  | _ => rfl

/-- The test for one binder fails exactly on the types that refer to it. -/
theorem WellScoped.canShiftAbove_neg_one_iff {n c : Nat} {t : Ty} (h : t.WellScoped (n + 1)) :
    t.canShiftAbove (-1) c = true ↔ t.hasVar c = false := by
  induction t generalizing n c with
  | var i m =>
    obtain ⟨rfl, hi⟩ := h
    simp only [Ty.canShiftAbove, varFits_iff, hasVar, beq_eq_false_iff_ne]
    omega
  | arr a b iha ihb =>
    simp only [Ty.canShiftAbove, hasVar, Bool.and_eq_true, Bool.or_eq_false_iff, iha h.1, ihb h.2]
  | all x a ih => exact ih h
  | name x => simp [Ty.canShiftAbove, hasVar]
  | bool => simp [Ty.canShiftAbove, hasVar]

section Formed

variable {l ks : List Kind} {t : Ty}

/-- A type can leave the scope of a term variable. -/
theorem FormedIn.canShiftAbove (h : t.FormedIn (l ++ .term :: ks)) :
    t.canShiftAbove (-1) l.length = true := by
  have hscoped := h.wellScoped
  rw [List.length_append, List.length_cons, ← Nat.add_assoc] at hscoped
  exact hscoped.canShiftAbove_neg_one_iff.mpr h.hasVar_eq_false

theorem FormedIn.canShift (h : t.FormedIn (.term :: ks)) : t.canShift (-1) = true :=
  h.canShiftAbove (l := [])

/-- A type can leave the scope of a variable that has been replaced. -/
theorem FormedIn.canShiftAbove_subst {k : Kind} (h : t.FormedIn (l ++ k :: ks)) (s : Ty) :
    (t.subst l.length (s.shift 1)).canShiftAbove (-1) l.length = true := by
  induction t generalizing l with
  | var i n =>
    obtain ⟨rfl, hi⟩ := h
    simp only [subst]
    split
    · have hshift := shift_shift 1 l.length s
      rw [Nat.cast_one] at hshift
      rw [hshift]
      exact canShiftAbove_shiftAbove (by push_cast; omega) (by omega) (by push_cast; omega) s
    · exact varFits_iff.mpr ⟨by simp; omega, fun hle => by omega⟩
  | arr a b iha ihb => simp [subst, Ty.canShiftAbove, iha h.1, ihb h.2]
  | all x a ih => exact ih (l := .type :: l) h
  | _ => rfl

end Formed

/-- Every variable has the recorded length and an index of its place in the context, and refers to a
type variable of it, if not to a quantifier of the type. -/
def InScope (Γ : Context) (t : Ty) : Prop :=
  t.WellScoped Γ.length ∧ ∀ i, t.hasVar i = true → ∃ x, Γ[i]? = some ⟨x, .tyVar⟩

theorem FormedIn.inScope {Γ : Context} {t : Ty} (h : t.FormedIn Γ.kinds) : t.InScope Γ := by
  refine ⟨Context.length_kinds Γ ▸ h.wellScoped, fun i hi => ?_⟩
  have hkind := h.getElem?_of_hasVar hi
  rw [Context.kinds, List.getElem?_map, Option.map_eq_some_iff] at hkind
  obtain ⟨⟨x, b⟩, he, hb⟩ := hkind
  cases b with
  | tyVar => exact ⟨x, he⟩
  | _ => cases hb

end Ty

namespace Term

/-- The types in the term are formed, and its variables refer to term variables. -/
def ScopedIn : List Kind → Term → Prop
  | ks, var _ i n => n = ks.length ∧ ks[i]? = some .term
  | _, const .. => True
  | ks, abs _ _ ty t => (∀ a ∈ ty, a.FormedIn ks) ∧ t.ScopedIn (.term :: ks)
  | ks, app _ t u => t.ScopedIn ks ∧ u.ScopedIn ks
  | ks, ite _ c t e => c.ScopedIn ks ∧ t.ScopedIn ks ∧ e.ScopedIn ks
  | ks, tyAbs _ _ t => t.ScopedIn (.type :: ks)
  | ks, tyApp _ t ty => t.ScopedIn ks ∧ ty.FormedIn ks
  | ks, letIn _ _ e t => e.ScopedIn ks ∧ t.ScopedIn (.term :: ks)

theorem KnownIn.scopedIn {σ : NameSupply} {ks : List Kind} {t : Term} (h : t.KnownIn σ ks) :
    t.ScopedIn ks := by
  induction t generalizing ks with
  | var p i n => exact h
  | const p b => trivial
  | abs p x ty t ih => exact ⟨fun a ha => (h.1 a ha).formed, ih h.2⟩
  | app p t u iht ihu => exact ⟨iht h.1, ihu h.2⟩
  | ite p c t e ihc iht ihe => exact ⟨ihc h.1, iht h.2.1, ihe h.2.2⟩
  | tyAbs p x t ih => exact ih h.2
  | tyApp p t ty ih => exact ⟨ih h.1, h.2.formed⟩
  | letIn p x e t ihe iht => exact ⟨ihe h.1, iht h.2⟩

theorem scopedIn_of_parse {Γ : Context} {text : String} {t : Term}
    (h : Term.parse Γ text = .ok t) : t.ScopedIn Γ.kinds :=
  (knownIn_of_parse h (σ := .avoiding t.typeNames) fun x hx => by simpa using hx).scopedIn

/-- All variables of the term and of its types can be moved by `d` from `c` on. -/
def canShiftAbove (d : Int) (c : Nat) : Term → Bool
  | var _ i n => varFits d c i n
  | const .. => true
  | abs _ _ ty t => ty.all (Ty.canShiftAbove d c) && t.canShiftAbove d (c + 1)
  | app _ t u => t.canShiftAbove d c && u.canShiftAbove d c
  | ite _ i t e => i.canShiftAbove d c && t.canShiftAbove d c && e.canShiftAbove d c
  | tyAbs _ _ t => t.canShiftAbove d (c + 1)
  | tyApp _ t ty => t.canShiftAbove d c && ty.canShiftAbove d c
  | letIn _ _ e t => e.canShiftAbove d c && t.canShiftAbove d (c + 1)

def canShift (d : Int) (t : Term) : Bool := t.canShiftAbove d 0

section Scoped

variable {l ks : List Kind} {t : Term}

/-- A term can leave the scope of a type variable that has been replaced. -/
theorem ScopedIn.canShiftAbove_substTy (h : t.ScopedIn (l ++ .type :: ks)) (s : Ty) :
    (t.substTy l.length (s.shift 1)).canShiftAbove (-1) l.length = true := by
  induction t generalizing l with
  | var p i n =>
    obtain ⟨rfl, hi⟩ := h
    have hne : i ≠ l.length := by
      rintro rfl
      simp at hi
    exact varFits_iff.mpr ⟨by simp; omega, fun hle => by omega⟩
  | const p b => rfl
  | abs p x ty t ih =>
    have hbody := ih (l := .term :: l) h.2
    cases ty with
    | none => simpa [substTy, Term.canShiftAbove] using hbody
    | some a =>
      have ha := (h.1 a rfl).canShiftAbove_subst s
      simpa [substTy, Term.canShiftAbove, ha] using hbody
  | app p t u iht ihu => simp [substTy, Term.canShiftAbove, iht h.1, ihu h.2]
  | ite p c t e ihc iht ihe =>
    simp [substTy, Term.canShiftAbove, ihc h.1, iht h.2.1, ihe h.2.2]
  | tyAbs p x t ih => exact ih (l := .type :: l) h
  | tyApp p t ty ih => simp [substTy, Term.canShiftAbove, ih h.1, h.2.canShiftAbove_subst s]
  | letIn p x e t ihe iht =>
    have hbody := iht (l := .term :: l) h.2
    simpa [substTy, Term.canShiftAbove, ihe h.1] using hbody

theorem ScopedIn.fillAt {s : Ty} (h : t.ScopedIn (l ++ .type :: ks)) (hs : s.FormedIn ks) :
    (t.fillAt s l.length).ScopedIn (l ++ ks) := by
  induction t generalizing l with
  | var p i n =>
    obtain ⟨rfl, hi⟩ := h
    refine ⟨by simp, ?_⟩
    rw [offsetAbove, offset_neg_one]
    split
    · rename_i hle
      rw [List.getElem?_append_right hle, List.getElem?_cons] at hi
      split at hi
      · cases hi
      · rw [List.getElem?_append_right (by omega), ← hi]
        congr 1
        omega
    · rw [List.getElem?_append_left (by omega)] at hi ⊢
      exact hi
  | const p b => trivial
  | abs p x ty t ih =>
    refine ⟨fun a ha => ?_, ih (l := .term :: l) h.2⟩
    obtain ⟨a', ha', rfl⟩ := Option.map_eq_some_iff.mp ha
    exact (h.1 a' ha').fillAt hs
  | app p t u iht ihu => exact ⟨iht h.1, ihu h.2⟩
  | ite p c t e ihc iht ihe => exact ⟨ihc h.1, iht h.2.1, ihe h.2.2⟩
  | tyAbs p x t ih => exact ih (l := .type :: l) h
  | tyApp p t ty ih => exact ⟨ih h.1, h.2.fillAt hs⟩
  | letIn p x e t ihe iht => exact ⟨ihe h.1, iht (l := .term :: l) h.2⟩

theorem ScopedIn.substTyTop {s : Ty} (h : t.ScopedIn (.type :: ks)) (hs : s.FormedIn ks) :
    (t.substTyTop s).ScopedIn ks := by
  rw [substTyTop_eq_fillAt]
  exact ScopedIn.fillAt (l := []) h hs

end Scoped

end Term

namespace Subst

/-- All types of the bindings can be moved by `d`. -/
def canShift (d : Int) (s : Subst) : Bool := s.all fun b => b.2.canShift d

theorem FormedIn.canShift {ks : List Kind} {s : Subst} (h : s.FormedIn (.term :: ks)) :
    s.canShift (-1) = true := List.all_eq_true.mpr fun b hb => (h b hb).canShift

theorem FormedIn.formedIn_shift_neg_one {ks : List Kind} {s : Subst}
    (h : s.FormedIn (.term :: ks)) : (s.shift (-1)).FormedIn ks :=
  List.forall_mem_map.mpr fun b hb => (h b hb).shift_neg_one.1

end Subst

namespace Context

/-- Applying a substitution moves the type of each variable out of the scope of the bindings above
it, where it refers to none of them. -/
def canApply (Γ : Context) (s : Subst) : Bool :=
  (List.range Γ.length).all fun i => (Γ.getType? i).all fun a =>
    ((s.apply a).unshift? (i + 1)).isNone || (s.apply a).canShift (-((i + 1 : Nat) : Int))

theorem minFreeVar?_of_unshift? {d : Nat} {a : Ty} (h : (a.unshift? d).isNone = false) :
    ∀ i ∈ a.minFreeVar?, d ≤ i := by
  intro i hi
  by_contra hlt
  simp [Ty.unshift?, Option.mem_def.mp hi, Nat.lt_of_not_le hlt] at h

theorem Formed.canApply {Γ : Context} {s : Subst} (hΓ : Γ.Formed) (hs : s.FormedIn Γ.kinds) :
    Γ.canApply s = true := by
  refine List.all_eq_true.mpr fun i hi => (Option.all_eq_true _ _).mpr fun a ha => ?_
  rw [Bool.or_eq_true, or_iff_not_imp_left, Bool.not_eq_true]
  intro hsome
  have hscope := (hs.apply (hΓ.getType? ha)).wellScoped
  rw [length_kinds] at hscope
  exact hscope.canShiftAbove (c := 0) (by simpa using hi) (minFreeVar?_of_unshift? hsome)

/-- A formed context stays formed under a substitution. -/
theorem Formed.apply {Γ Δ : Context} {s : Subst} (hΓ : Γ.Formed) (hs : s.FormedIn Γ.kinds)
    (h : Γ.apply s = .ok Δ) : Δ.kinds = Γ.kinds ∧ Δ.Formed := by
  obtain ⟨hkinds, htypes⟩ := apply_spec hs hΓ h
  refine ⟨hkinds, formed_of_getType? fun i a ha => ?_⟩
  rw [htypes, Option.map_eq_some_iff] at ha
  obtain ⟨b, hb, rfl⟩ := ha
  exact hkinds ▸ hs.apply (hΓ.getType? hb)

end Context

end LambdaTyping
