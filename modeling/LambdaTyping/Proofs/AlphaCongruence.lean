import Mathlib
import LambdaTyping.Proofs.PrincipalUnifiers
import LambdaTyping.Proofs.ImplicitSystemF

/-!
# Alpha-equivalence as a congruence

Variables are compared by what they refer to: a binder inside by its index, a
binder of the context by its level. A type or term in which every variable is
replaced by what it refers to is a form, and alpha-equivalence is equality of
forms. So it is an equivalence relation across contexts of any lengths, and it
does not see bindings added to the context, since a shift changes no form.

In one context it is equality without the names of binders. Substitution,
generalisation and opening do not look at these names.
-/
namespace LambdaTyping

/-- What a variable refers to: a binder inside, by its index, or one of the context, by its
level. -/
inductive Referent where
  | inside (i : Nat)
  | outside (l : Int)

/-- What a variable below `c` binders refers to. -/
def referent (c i n : Nat) : Referent := if i < c then .inside i else .outside (level i n)

theorem sameVar_iff_referent {c i n j m : Nat} :
    Ty.sameVar c i n j m = true ↔ referent c i n = referent c j m := by
  unfold Ty.sameVar referent
  by_cases hi : i < c
  · by_cases hj : j < c
    · simp [hi, hj]
    · simp only [hi, hj, or_false, ↓reduceIte, beq_iff_eq, reduceCtorEq, iff_false]
      omega
  · by_cases hj : j < c
    · simp only [hi, hj, or_true, ↓reduceIte, beq_iff_eq, reduceCtorEq, iff_false]
      omega
    · simp [hi, hj]

/-- New binders further out move the index and the length, and so keep the level. -/
theorem referent_offset (d c i n : Nat) :
    referent c (offsetAbove c i d) (offset n d) = referent c i n := by
  simp only [referent, offsetAbove, offset_natCast]
  by_cases hi : i < c
  · simp [hi, Nat.not_le.mpr hi]
  · have hci : c ≤ i := Nat.not_lt.mp hi
    simp only [hi, hci, show ¬ i + d < c by omega, ↓reduceIte, Referent.outside.injEq, level]
    omega

namespace Ty

/-- Types whose variables are what they refer to, without the names of binders. -/
inductive Form where
  | name (x : String)
  | var (r : Referent)
  | arr (a b : Form)
  | all (a : Form)
  | bool

/-- The form of a type below `c` binders. -/
def form (c : Nat) : Ty → Form
  | name x => .name x
  | var i n => .var (referent c i n)
  | arr a b => .arr (a.form c) (b.form c)
  | all _ a => .all (a.form (c + 1))
  | bool => .bool

theorem alphaEqAt_iff_form {c : Nat} {a b : Ty} : a.alphaEqAt c b = true ↔ a.form c = b.form c := by
  induction a generalizing c b with
  | name x => cases b <;> simp [alphaEqAt, form]
  | var i n =>
    cases b with
    | var j m => simp [alphaEqAt, form, sameVar_iff_referent]
    | _ => simp [alphaEqAt, form]
  | arr a₁ a₂ ih₁ ih₂ => cases b <;> simp [alphaEqAt, form, ih₁, ih₂]
  | all x a ih => cases b <;> simp [alphaEqAt, form, ih]
  | bool => cases b <;> simp [alphaEqAt, form]

theorem alphaEq_iff_form {a b : Ty} : a.alphaEq b = true ↔ a.form 0 = b.form 0 :=
  alphaEqAt_iff_form

theorem form_shiftAbove (d c : Nat) (t : Ty) : (t.shiftAbove d c).form c = t.form c := by
  induction t generalizing c with
  | var i n => simp only [shiftAbove, form, referent_offset]
  | arr a b iha ihb => simp only [shiftAbove, form, iha, ihb]
  | all x a ih => simp only [shiftAbove, form, ih]
  | _ => rfl

theorem alphaEq_equivalence : Equivalence fun a b : Ty => a.alphaEq b = true := by
  simp only [alphaEq_iff_form]
  exact eq_equivalence.comap (form 0)

theorem alphaEq_shift (d e : Nat) (a b : Ty) :
    (a.shift d).alphaEq (b.shift e) = true ↔ a.alphaEq b = true := by
  rw [alphaEq_iff_form, alphaEq_iff_form, shift, shift, form_shiftAbove, form_shiftAbove]

end Ty

namespace Term

/-- Terms whose variables are what they refer to, without positions and the names of binders. -/
inductive Form where
  | var (r : Referent)
  | abs (ty : Option Ty.Form) (t : Form)
  | app (t u : Form)
  | ite (c t e : Form)
  | tyAbs (t : Form)
  | tyApp (t : Form) (ty : Ty.Form)
  | letIn (e t : Form)
  | const (b : Bool)

/-- The form of a term below `c` binders. -/
def form (c : Nat) : Term → Form
  | var _ i n => .var (referent c i n)
  | abs _ _ ty t => .abs (ty.map (Ty.form c)) (t.form (c + 1))
  | app _ t u => .app (t.form c) (u.form c)
  | ite _ i t e => .ite (i.form c) (t.form c) (e.form c)
  | tyAbs _ _ t => .tyAbs (t.form (c + 1))
  | tyApp _ t ty => .tyApp (t.form c) (ty.form c)
  | letIn _ _ e t => .letIn (e.form c) (t.form (c + 1))
  | const _ b => .const b

theorem sameAnnot_iff_form {c : Nat} {a b : Option Ty} :
    sameAnnot c a b = true ↔ a.map (Ty.form c) = b.map (Ty.form c) := by
  cases a <;> cases b <;> simp [sameAnnot, Ty.alphaEqAt_iff_form]

theorem alphaEqAt_iff_form {c : Nat} {t u : Term} :
    t.alphaEqAt c u = true ↔ t.form c = u.form c := by
  induction t generalizing c u with
  | var p i n => cases u <;> simp [alphaEqAt, form, sameVar_iff_referent]
  | abs p x ty t ih => cases u <;> simp [alphaEqAt, form, sameAnnot_iff_form, ih]
  | app p t₁ t₂ ih₁ ih₂ => cases u <;> simp [alphaEqAt, form, ih₁, ih₂]
  | ite p t₁ t₂ t₃ ih₁ ih₂ ih₃ => cases u <;> simp [alphaEqAt, form, ih₁, ih₂, ih₃, and_assoc]
  | tyAbs p x t ih => cases u <;> simp [alphaEqAt, form, ih]
  | tyApp p t ty ih => cases u <;> simp [alphaEqAt, form, ih, Ty.alphaEqAt_iff_form]
  | letIn p x t₁ t₂ ih₁ ih₂ => cases u <;> simp [alphaEqAt, form, ih₁, ih₂]
  | const p b => cases u <;> simp [alphaEqAt, form]

theorem alphaEq_iff_form {t u : Term} : t.alphaEq u = true ↔ t.form 0 = u.form 0 :=
  alphaEqAt_iff_form

theorem form_shiftAbove (d c : Nat) (t : Term) : (t.shiftAbove d c).form c = t.form c := by
  induction t generalizing c with
  | var p i n => simp only [shiftAbove, form, referent_offset]
  | abs p x ty t ih => cases ty <;> simp [shiftAbove, form, ih, Ty.form_shiftAbove]
  | app p t u iht ihu => simp only [shiftAbove, form, iht, ihu]
  | ite p i t e ihi iht ihe => simp only [shiftAbove, form, ihi, iht, ihe]
  | tyAbs p x t ih => simp only [shiftAbove, form, ih]
  | tyApp p t ty ih => simp only [shiftAbove, form, ih, Ty.form_shiftAbove]
  | letIn p x e t ihe iht => simp only [shiftAbove, form, ihe, iht]
  | const p b => rfl

theorem alphaEq_equivalence : Equivalence fun t u : Term => t.alphaEq u = true := by
  simp only [alphaEq_iff_form]
  exact eq_equivalence.comap (form 0)

theorem alphaEq_shift (d e : Nat) (t u : Term) :
    (t.shift d).alphaEq (u.shift e) = true ↔ t.alphaEq u = true := by
  rw [alphaEq_iff_form, alphaEq_iff_form, shift, shift, form_shiftAbove, form_shiftAbove]

end Term

namespace Ty

theorem alphaEq_of_erase_eq {a b : Ty} (h : a.erase = b.erase) : a.alphaEq b = true :=
  alphaEqAt_of_erase_eq 0 h

section Congruence
variable {a a' s s' : Ty}

theorem erase_substName_congr (ha : a.erase = a'.erase) (hs : s.erase = s'.erase) (x : String) :
    (a.substName x s).erase = (a'.substName x s').erase := by
  have himage : ∀ y, (Function.update name x s y).erase = (Function.update name x s' y).erase := by
    intro y
    by_cases hy : y = x
    · subst hy
      simpa using hs
    · simp [hy]
  rw [Subst.substName_eq_mapNames, Subst.substName_eq_mapNames, mapNames, mapNames,
    erase_mapNamesAt, erase_mapNamesAt, ha, funext himage]

theorem alphaEq_degeneralizeTop? (ha : a.erase = a'.erase) (x : String) :
    Option.Rel (fun b b' : Ty => b.alphaEq b' = true) (a.degeneralizeTop? x)
      (a'.degeneralizeTop? x) := by
  cases a with
  | all y b =>
    obtain ⟨z, b', rfl, hb⟩ := exists_of_erase_eq_all ha
    exact .some (alphaEq_of_erase_eq (erase_substTop_congr hb rfl))
  | _ => cases a' <;> first | exact .none | simp [erase] at ha

end Congruence

end Ty

/-- Alpha-equivalence is a congruence across contexts. On all types and terms it is an equivalence
relation that does not see shifts. In one context it is equality without the names of binders and
positions. It is kept by substitution for a variable and for a name, by generalisation, and by
opening, which also succeeds for both types or for none. -/
theorem alphaEq_congruence :
    (Equivalence fun a b : Ty => a.alphaEq b = true) ∧
    (Equivalence fun t u : Term => t.alphaEq u = true) ∧
    (∀ (d e : Nat) (a b : Ty), (a.shift d).alphaEq (b.shift e) = true ↔ a.alphaEq b = true) ∧
    (∀ (d e : Nat) (t u : Term), (t.shift d).alphaEq (u.shift e) = true ↔ t.alphaEq u = true) ∧
    (∀ (n : Nat) (a b : Ty), a.WellScoped n → b.WellScoped n →
      (a.alphaEq b = true ↔ a.erase = b.erase)) ∧
    (∀ (n : Nat) (t u : Term), t.WellScoped n → u.WellScoped n →
      (t.alphaEq u = true ↔ t.erase = u.erase)) ∧
    ∀ (n m : Nat) (a a' s s' : Ty), a.WellScoped n → a'.WellScoped n → s.WellScoped m →
      s'.WellScoped m → a.alphaEq a' = true → s.alphaEq s' = true →
      (a.substTop s).alphaEq (a'.substTop s') = true ∧
      ∀ x : String, (a.substName x s).alphaEq (a'.substName x s') = true ∧
        (∀ len, (a.generalizeTop len x).alphaEq (a'.generalizeTop len x) = true) ∧
        Option.Rel (fun b b' : Ty => b.alphaEq b' = true) (a.degeneralizeTop? x)
          (a'.degeneralizeTop? x) := by
  refine ⟨Ty.alphaEq_equivalence, Term.alphaEq_equivalence, Ty.alphaEq_shift, Term.alphaEq_shift,
    fun _ _ _ => Ty.alphaEq_iff_erase, fun _ _ _ => Term.alphaEq_iff_erase, ?_⟩
  intro n m a a' s s' ha ha' hs hs' haa' hss'
  have hea : a.erase = a'.erase := (Ty.alphaEq_iff_erase ha ha').mp haa'
  have hes : s.erase = s'.erase := (Ty.alphaEq_iff_erase hs hs').mp hss'
  refine ⟨Ty.alphaEq_of_erase_eq (Ty.erase_substTop_congr hea hes), fun x => ⟨?_, ?_, ?_⟩⟩
  · exact Ty.alphaEq_of_erase_eq (Ty.erase_substName_congr hea hes x)
  · exact fun len => Ty.alphaEq_of_erase_eq (Ty.erase_generalizeTop_eq hea len x)
  · exact Ty.alphaEq_degeneralizeTop? hea x

/-- Two spellings of one type in a context of length two, and two of an argument in a context of
length one. -/
theorem alphaEq_congruence_respelled :
    (Ty.all "X" (.arr (.var 0 3) (.arr (.var 1 3) (.name "A")))).WellScoped 2 ∧
    (Ty.all "Y" (.arr (.var 0 3) (.arr (.var 1 3) (.name "A")))).WellScoped 2 ∧
    (Ty.all "Z" (.arr (.var 1 2) (.var 0 2))).WellScoped 1 ∧
    (Ty.all "W" (.arr (.var 1 2) (.var 0 2))).WellScoped 1 ∧
    ((Ty.all "X" (.arr (.var 0 3) (.arr (.var 1 3) (.name "A")))).substTop
      (.all "Z" (.arr (.var 1 2) (.var 0 2)))).alphaEq
        ((Ty.all "Y" (.arr (.var 0 3) (.arr (.var 1 3) (.name "A")))).substTop
          (.all "W" (.arr (.var 1 2) (.var 0 2)))) = true ∧
    Option.Rel (fun b b' : Ty => b.alphaEq b' = true)
      ((Ty.all "X" (.arr (.var 0 3) (.arr (.var 1 3) (.name "A")))).degeneralizeTop? "B")
      ((Ty.all "Y" (.arr (.var 0 3) (.arr (.var 1 3) (.name "A")))).degeneralizeTop? "B") := by
  have hX : (Ty.all "X" (.arr (.var 0 3) (.arr (.var 1 3) (.name "A")))).WellScoped 2 := by
    simp [Ty.WellScoped]
  have hY : (Ty.all "Y" (.arr (.var 0 3) (.arr (.var 1 3) (.name "A")))).WellScoped 2 := by
    simp [Ty.WellScoped]
  have hZ : (Ty.all "Z" (.arr (.var 1 2) (.var 0 2))).WellScoped 1 := by simp [Ty.WellScoped]
  have hW : (Ty.all "W" (.arr (.var 1 2) (.var 0 2))).WellScoped 1 := by simp [Ty.WellScoped]
  obtain ⟨hsubst, h⟩ := alphaEq_congruence.2.2.2.2.2.2 2 1 _ _ _ _ hX hY hZ hW rfl rfl
  exact ⟨hX, hY, hZ, hW, hsubst, (h "B").2.2⟩

end LambdaTyping
