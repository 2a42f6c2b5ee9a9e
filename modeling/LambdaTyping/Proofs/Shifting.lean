import Mathlib
import LambdaTyping.Ty.Basic

/-!
# Shifting and filling

Laws of the index arithmetic of types. Shifts compose whenever the second one
cannot see the gap that the first one opened. Replacing the most recent variable
is rephrased as one recursion, `fillAt`, which never shifts downwards.

Two classes of types matter later on. A type is well scoped in `n` if all its
variables have the recorded length of their place and an index below it. A type
is simple if it is built from names, `Bool` and arrows only; shifting does
nothing to it.
-/
namespace LambdaTyping

theorem offset_offset (d : Nat) (e : Int) (k : Nat) :
    offset (offset k d) e = offset k (d + e) := by
  simp only [offset]
  omega

/-- The second time an index is moved from a cutoff inside the gap on, so it is moved again if it
was moved before. -/
theorem offsetAbove_offsetAbove {d c k : Nat} (hc : c ≤ k) (hk : k ≤ c + d) (e : Int) (i : Nat) :
    offsetAbove k (offsetAbove c i d) e = offsetAbove c i (d + e) := by
  simp only [offsetAbove, offset]
  split <;> split <;> omega

theorem offset_neg_one (k : Nat) : offset k (-1) = k - 1 := by
  simp only [offset]
  omega

namespace Ty

@[simp] theorem shiftAbove_name (d : Int) (c : Nat) (x : String) :
    (name x).shiftAbove d c = name x := rfl
@[simp] theorem shift_name (d : Int) (x : String) : (name x).shift d = name x := rfl

@[simp] theorem shiftAbove_zero (c : Nat) (t : Ty) : t.shiftAbove 0 c = t := by
  induction t generalizing c with
  | var i n => simp [shiftAbove, offsetAbove]
  | arr a b iha ihb => simp [shiftAbove, iha, ihb]
  | all x a ih => simp [shiftAbove, ih]
  | _ => rfl

@[simp] theorem shift_zero (t : Ty) : t.shift 0 = t := shiftAbove_zero 0 t

/-- The second shift starts inside the gap of `d` binders that the first one leaves, so no variable
falls between them. -/
theorem shiftAbove_shiftAbove {d c k : Nat} (hc : c ≤ k) (hk : k ≤ c + d) (e : Int) (t : Ty) :
    (t.shiftAbove d c).shiftAbove e k = t.shiftAbove (d + e) c := by
  induction t generalizing c k with
  | var i n => simp only [shiftAbove, offsetAbove_offsetAbove hc hk, offset_offset]
  | arr a b iha ihb => simp only [shiftAbove, iha hc hk, ihb hc hk]
  | all x a ih => simp only [shiftAbove, ih (Nat.succ_le_succ hc) (by omega)]
  | _ => rfl

theorem shift_shiftAbove (d e k : Nat) (hk : k ≤ d) (t : Ty) :
    (t.shift d).shiftAbove e k = t.shift (d + e : Nat) := by
  have h := shiftAbove_shiftAbove (d := d) (Nat.zero_le k) (by omega) e t
  simpa [shift] using h

theorem shift_shift (d e : Nat) (t : Ty) : (t.shift d).shift e = t.shift (d + e : Nat) :=
  shift_shiftAbove d e 0 (Nat.zero_le d) t

theorem shift_shiftAbove_neg_one (c : Nat) (t : Ty) :
    ((t.shift 1).shift c).shiftAbove (-1) c = t.shift c := by
  have h := shiftAbove_shiftAbove (d := 1 + c) (Nat.zero_le c) (by omega) (-1) t
  have h₁ := shift_shift 1 c t
  simp only [Nat.cast_one] at h₁
  rw [h₁]
  simpa [shift, add_comm] using h

@[simp] theorem freeNames_shiftAbove (d : Int) (c : Nat) (t : Ty) :
    (t.shiftAbove d c).freeNames = t.freeNames := by
  induction t generalizing c with
  | arr a b iha ihb => simp [shiftAbove, freeNames, iha, ihb]
  | all x a ih => simp [shiftAbove, freeNames, ih]
  | _ => rfl

@[simp] theorem freeNames_shift (d : Int) (t : Ty) : (t.shift d).freeNames = t.freeNames :=
  freeNames_shiftAbove d 0 t

theorem minFreeVarAt_shiftAbove (d c : Nat) (t : Ty) :
    (t.shiftAbove d c).minFreeVarAt c = (t.minFreeVarAt c).map (· + d) := by
  induction t generalizing c with
  | var i n =>
    simp only [shiftAbove, minFreeVarAt, offsetAbove, offset_natCast]
    by_cases h : c ≤ i
    · simp [h, show c ≤ i + d by omega, show i + d - c = i - c + d by omega]
    · simp [h]
  | arr a b iha ihb =>
    simp only [shiftAbove, minFreeVarAt, iha, ihb]
    cases a.minFreeVarAt c <;> cases b.minFreeVarAt c <;> simp [minOption]
  | all x a ih => simp only [shiftAbove, minFreeVarAt, ih]
  | _ => rfl

/-- What was moved up can be moved down again. -/
theorem unshift?_shift (d : Nat) (t : Ty) : (t.shift d).unshift? d = some t := by
  have hback : (t.shift d).shift (-(d : Int)) = t := by
    have h := shiftAbove_shiftAbove (d := d) (Nat.le_refl 0) (by omega) (-(d : Int)) t
    simpa [shift] using h
  have hmin : (t.shift d).minFreeVar? = t.minFreeVar?.map (· + d) := minFreeVarAt_shiftAbove d 0 t
  simp only [unshift?, hmin, hback]
  cases t.minFreeVar? with
  | none => rfl
  | some i => simp

theorem le_of_mem_minOption_iff {d : Nat} {a b : Option Nat} :
    (∀ i ∈ minOption a b, d ≤ i) ↔ (∀ i ∈ a, d ≤ i) ∧ ∀ i ∈ b, d ≤ i := by
  cases a <;> cases b <;> simp [minOption]

/-- The smallest variable is far enough out if none of the nearer ones occurs. -/
theorem le_of_mem_minFreeVarAt_iff {d c : Nat} {t : Ty} :
    (∀ i ∈ t.minFreeVarAt c, d ≤ i) ↔ ∀ i < d, t.hasVar (c + i) = false := by
  induction t generalizing c with
  | var j n =>
    simp only [minFreeVarAt, hasVar, beq_eq_false_iff_ne]
    split
    · simp only [Option.mem_some_iff, forall_eq']
      refine ⟨fun h i hi => by omega, fun h => ?_⟩
      by_contra hlt
      exact h (j - c) (by omega) (by omega)
    · simp only [Option.not_mem_none, false_implies, implies_true, true_iff]
      intro i _
      omega
  | arr a b iha ihb =>
    simp only [minFreeVarAt, le_of_mem_minOption_iff, iha, ihb, hasVar, Bool.or_eq_false_iff]
    exact ⟨fun h i hi => ⟨h.1 i hi, h.2 i hi⟩,
      fun h => ⟨fun i hi => (h i hi).1, fun i hi => (h i hi).2⟩⟩
  | all x a ih =>
    simp only [minFreeVarAt, ih, hasVar]
    simp only [Nat.add_right_comm]
  | _ => simp [minFreeVarAt, hasVar]

/-- Binders are dropped if nothing refers to them. -/
theorem unshift?_eq_some_iff {d : Nat} {t u : Ty} :
    t.unshift? d = some u ↔ (∀ i < d, t.hasVar i = false) ∧ t.shift (-(d : Int)) = u := by
  have hmin : (∀ i ∈ t.minFreeVar?, d ≤ i) ↔ ∀ i < d, t.hasVar i = false := by
    simpa [minFreeVar?] using le_of_mem_minFreeVarAt_iff (d := d) (c := 0) (t := t)
  rw [← hmin, unshift?]
  cases t.minFreeVar? with
  | none => simp
  | some i =>
    simp only [Option.mem_some_iff, forall_eq', Option.ite_none_left_eq_some, Option.some.injEq,
      Nat.not_lt]

/-- Put `s` for the variable of the binder `c` quantifiers out, and drop that binder. -/
def fillAt (t s : Ty) (c : Nat) : Ty :=
  match t with
  | name x => name x
  | var i n => if i = c then s.shift c else var (if c < i then i - 1 else i) (n - 1)
  | arr a b => arr (a.fillAt s c) (b.fillAt s c)
  | all x a => all x (a.fillAt s (c + 1))
  | bool => bool

theorem shiftAbove_subst (s : Ty) (c : Nat) (t : Ty) :
    (t.subst c (s.shift 1)).shiftAbove (-1) c = t.fillAt s c := by
  induction t generalizing c with
  | var i n =>
    simp only [subst, fillAt]
    by_cases h : i = c
    · simp only [h, ↓reduceIte]
      exact shift_shiftAbove_neg_one c s
    · simp only [h, ↓reduceIte, shiftAbove, var.injEq]
      refine ⟨?_, offset_neg_one n⟩
      simp only [offsetAbove, offset]
      split <;> split <;> omega
  | arr a b iha ihb => simp only [subst, shiftAbove, fillAt, iha, ihb]
  | all x a ih => simp only [subst, shiftAbove, fillAt, ih]
  | _ => rfl

theorem substTop_eq_fillAt (t s : Ty) : t.substTop s = t.fillAt s 0 := shiftAbove_subst s 0 t

theorem openWith_eq_fillAt (x : String) (t : Ty) : t.openWith x = t.fillAt (name x) 0 :=
  substTop_eq_fillAt t (name x)

/-- A gap that nothing refers to is filled by dropping it. -/
theorem fillAt_shiftAbove_one (s : Ty) (c : Nat) (t : Ty) : (t.shiftAbove 1 c).fillAt s c = t := by
  induction t generalizing c with
  | var i n =>
    simp only [shiftAbove, fillAt]
    have hn : offset n 1 - 1 = n := by simp only [offset]; omega
    by_cases h : c ≤ i
    · have hi : offsetAbove c i 1 = i + 1 := by
        simp only [offsetAbove, h, ↓reduceIte, offset]
        omega
      simp [hi, hn, show i + 1 ≠ c by omega, show c < i + 1 by omega]
    · have hi : offsetAbove c i 1 = i := by simp [offsetAbove, h]
      simp [hi, hn, show i ≠ c by omega, show ¬ c < i by omega]
  | arr a b iha ihb => simp only [shiftAbove, fillAt, iha, ihb]
  | all x a ih => simp only [shiftAbove, fillAt, ih]
  | _ => rfl

theorem fillAt_shift_succ (s : Ty) (c : Nat) (t : Ty) :
    (t.shift (c + 1 : Nat)).fillAt s c = t.shift c := by
  rw [← shift_shiftAbove c 1 c (Nat.le_refl c)]
  exact fillAt_shiftAbove_one s c (t.shift c)

theorem freeNames_fillAt_subset (s : Ty) (c : Nat) (t : Ty) {x : String}
    (h : x ∈ (t.fillAt s c).freeNames) : x ∈ s.freeNames ∨ x ∈ t.freeNames := by
  induction t generalizing c with
  | name y => exact .inr h
  | var i n =>
    simp only [fillAt] at h
    split at h
    · exact .inl (by simpa using h)
    · simp [freeNames] at h
  | arr a b iha ihb =>
    simp only [fillAt, freeNames, List.mem_append] at h ⊢
    rcases h with h | h
    · exact (iha c h).imp_right .inl
    · exact (ihb c h).imp_right .inr
  | all y a ih => exact ih (c + 1) h
  | bool => simp [fillAt, freeNames] at h

theorem mem_freeNames_fillAt (s : Ty) (c : Nat) (t : Ty) {x : String} (h : x ∈ t.freeNames) :
    x ∈ (t.fillAt s c).freeNames := by
  induction t generalizing c with
  | name y => exact h
  | arr a b iha ihb =>
    simp only [fillAt, freeNames, List.mem_append] at h ⊢
    exact h.imp (iha c) (ihb c)
  | all y a ih => exact ih (c + 1) h
  | _ => simp [freeNames] at h

/-- Names, `Bool` and arrows: the types without variables and quantifiers. -/
def isSimple : Ty → Bool
  | name _ | bool => true
  | arr a b => a.isSimple && b.isSimple
  | var .. | all .. => false

@[simp] theorem isSimple_name (x : String) : (name x).isSimple = true := rfl
@[simp] theorem isSimple_bool : bool.isSimple = true := rfl
@[simp] theorem isSimple_arr (a b : Ty) :
    (arr a b).isSimple = true ↔ a.isSimple = true ∧ b.isSimple = true := by simp [isSimple]
@[simp] theorem isSimple_var (i n : Nat) : (var i n).isSimple = false := rfl
@[simp] theorem isSimple_all (x : String) (a : Ty) : (all x a).isSimple = false := rfl

theorem shiftAbove_of_isSimple (d : Int) (c : Nat) {t : Ty} (h : t.isSimple) :
    t.shiftAbove d c = t := by
  induction t generalizing c with
  | arr a b iha ihb =>
    rw [isSimple_arr] at h
    simp only [shiftAbove, iha c h.1, ihb c h.2]
  | var i n => simp at h
  | all x a ih => simp at h
  | _ => rfl

theorem shift_of_isSimple (d : Int) {t : Ty} (h : t.isSimple) : t.shift d = t :=
  shiftAbove_of_isSimple d 0 h

theorem isSimple_of_isSimple_shiftAbove {d : Int} {c : Nat} {t : Ty}
    (h : (t.shiftAbove d c).isSimple) : t.isSimple := by
  induction t with
  | arr a b iha ihb =>
    simp only [shiftAbove, isSimple_arr] at h ⊢
    exact ⟨iha h.1, ihb h.2⟩
  | _ => simp_all [shiftAbove]

theorem isMono_of_isSimple {t : Ty} (h : t.isSimple) : t.isMono := by
  induction t with
  | arr a b iha ihb =>
    rw [isSimple_arr] at h
    simp [isMono, iha h.1, ihb h.2]
  | _ => simp_all [isMono]

@[simp] theorem isMono_shiftAbove (d : Int) (c : Nat) (t : Ty) :
    (t.shiftAbove d c).isMono = t.isMono := by
  induction t with
  | arr a b iha ihb => simp only [shiftAbove, isMono, iha, ihb]
  | _ => rfl

@[simp] theorem isMono_shift (d : Int) (t : Ty) : (t.shift d).isMono = t.isMono :=
  isMono_shiftAbove d 0 t

theorem isMono_fillAt {s : Ty} (hs : s.isMono) {c : Nat} {t : Ty} (h : t.isMono) :
    (t.fillAt s c).isMono := by
  induction t with
  | var i n =>
    simp only [fillAt]
    split
    · rwa [isMono_shift]
    · rfl
  | arr a b iha ihb =>
    simp only [isMono, Bool.and_eq_true] at h
    simp [fillAt, isMono, iha h.1, ihb h.2]
  | all x a ih => simp [isMono] at h
  | _ => rfl

theorem isPrenex_of_isMono {t : Ty} (h : t.isMono) : t.isPrenex := by
  cases t with
  | all x a => simp [isMono] at h
  | _ => exact h

theorem isPrenex_fillAt {s : Ty} (hs : s.isMono) {c : Nat} {t : Ty} (h : t.isPrenex) :
    (t.fillAt s c).isPrenex := by
  induction t generalizing c with
  | all x a ih => exact ih h
  | _ => exact isPrenex_of_isMono (isMono_fillAt hs h)

theorem alphaEqAt_iff_of_isSimple {a b : Ty} (c : Nat) (ha : a.isSimple) (hb : b.isSimple) :
    a.alphaEqAt c b = true ↔ a = b := by
  induction a generalizing b with
  | arr a₁ a₂ ih₁ ih₂ =>
    cases b with
    | arr b₁ b₂ =>
      rw [isSimple_arr] at ha hb
      simp [alphaEqAt, ih₁ ha.1 hb.1, ih₂ ha.2 hb.2]
    | _ => simp [alphaEqAt]
  | _ => cases b <;> simp_all [alphaEqAt]

/-- Every variable has the recorded length of its place and an index below it. -/
def WellScoped (n : Nat) : Ty → Prop
  | name _ | bool => True
  | var i m => m = n ∧ i < n
  | arr a b => a.WellScoped n ∧ b.WellScoped n
  | all _ a => a.WellScoped (n + 1)

theorem wellScoped_of_isSimple (n : Nat) {t : Ty} (h : t.isSimple) : t.WellScoped n := by
  induction t with
  | arr a b iha ihb =>
    rw [isSimple_arr] at h
    exact ⟨iha h.1, ihb h.2⟩
  | _ => simp_all [WellScoped]

/-- Every variable refers to one of the `c` nearest binders outside the type, or to a quantifier
inside it. -/
def VarsBelow (c : Nat) : Ty → Prop
  | name _ | bool => True
  | var i _ => i < c
  | arr a b => a.VarsBelow c ∧ b.VarsBelow c
  | all _ a => a.VarsBelow (c + 1)

theorem isSimple_of_isMono {t : Ty} (hmono : t.isMono) (h : t.VarsBelow 0) : t.isSimple := by
  induction t with
  | var i n => exact absurd h (Nat.not_lt_zero i)
  | arr a b iha ihb =>
    simp only [isMono, Bool.and_eq_true] at hmono
    exact (isSimple_arr a b).mpr ⟨iha hmono.1 h.1, ihb hmono.2 h.2⟩
  | all x a ih => simp [isMono] at hmono
  | _ => rfl

theorem WellScoped.varsBelow {n : Nat} {t : Ty} (h : t.WellScoped n) : t.VarsBelow n := by
  induction t generalizing n with
  | var i m => exact h.2
  | arr a b iha ihb => exact ⟨iha h.1, ihb h.2⟩
  | all x a ih => exact ih h
  | _ => trivial

/-- A type without quantifiers, in a context of length `n`. -/
structure IsMonoIn (n : Nat) (t : Ty) : Prop where
  isMono : t.isMono
  wellScoped : t.WellScoped n

theorem isMonoIn_of_isSimple (n : Nat) {t : Ty} (h : t.isSimple) : t.IsMonoIn n :=
  ⟨isMono_of_isSimple h, wellScoped_of_isSimple n h⟩

theorem IsMonoIn.isSimple {t : Ty} (h : t.IsMonoIn 0) : t.isSimple :=
  isSimple_of_isMono h.isMono h.wellScoped.varsBelow

theorem WellScoped.shiftAbove {n : Nat} (d c : Nat) {t : Ty} (h : t.WellScoped n) :
    (t.shiftAbove d c).WellScoped (n + d) := by
  induction t generalizing n c with
  | var i m =>
    obtain ⟨rfl, hi⟩ := h
    refine ⟨by simp, ?_⟩
    simp only [offsetAbove, offset_natCast]
    split <;> omega
  | arr a b iha ihb => exact ⟨iha c h.1, ihb c h.2⟩
  | all x a ih =>
    have h' := ih (c + 1) h
    rwa [Nat.add_right_comm] at h'
  | _ => trivial

/-- What is well scoped after a shift was so before, if the shift left a gap inside the context. -/
theorem WellScoped.of_shiftAbove {n d c : Nat} (hc : c ≤ n) {t : Ty}
    (h : (t.shiftAbove d c).WellScoped (n + d)) : t.WellScoped n := by
  induction t generalizing n c with
  | var i m =>
    obtain ⟨hm, hi⟩ := h
    simp only [offset_natCast, offsetAbove] at hm hi
    refine ⟨by omega, ?_⟩
    split at hi <;> omega
  | arr a b iha ihb => exact ⟨iha hc h.1, ihb hc h.2⟩
  | all x a ih =>
    have h' : (a.shiftAbove d (c + 1)).WellScoped (n + d + 1) := h
    rw [Nat.add_right_comm] at h'
    exact ih (Nat.succ_le_succ hc) h'
  | _ => trivial

theorem WellScoped.fillAt {n c : Nat} {s t : Ty} (hs : s.WellScoped n)
    (h : t.WellScoped (n + c + 1)) : (t.fillAt s c).WellScoped (n + c) := by
  induction t generalizing c with
  | var i m =>
    obtain ⟨rfl, hi⟩ := h
    simp only [Ty.fillAt]
    split
    · exact hs.shiftAbove c 0
    · refine ⟨by omega, ?_⟩
      split <;> omega
  | arr a b iha ihb => exact ⟨iha h.1, ihb h.2⟩
  | all x a ih => exact ih (c := c + 1) h
  | _ => trivial

/-- A binder to which nothing refers can be dropped. -/
theorem WellScoped.shiftAbove_neg_one {n c : Nat} {t : Ty} (h : t.WellScoped (n + 1)) (hc : c ≤ n)
    (hv : t.hasVar c = false) :
    (t.shiftAbove (-1) c).WellScoped n ∧ (t.shiftAbove (-1) c).shiftAbove 1 c = t := by
  induction t generalizing n c with
  | var i m =>
    obtain ⟨rfl, hi⟩ := h
    have hne : i ≠ c := by simpa [hasVar] using hv
    simp only [Ty.shiftAbove, WellScoped, var.injEq, offsetAbove, offset]
    by_cases h : c ≤ i
    · simp only [h, ↓reduceIte]
      split <;> omega
    · simp only [h, ↓reduceIte]
      exact ⟨⟨by omega, by omega⟩, trivial, by omega⟩
  | arr a b iha ihb =>
    simp only [hasVar, Bool.or_eq_false_iff] at hv
    have ha := iha h.1 hc hv.1
    have hb := ihb h.2 hc hv.2
    exact ⟨⟨ha.1, hb.1⟩, by simp only [Ty.shiftAbove, ha.2, hb.2]⟩
  | all x a ih =>
    have ha := ih h (Nat.succ_le_succ hc) hv
    exact ⟨ha.1, by simp only [Ty.shiftAbove, ha.2]⟩
  | _ => exact ⟨trivial, rfl⟩

theorem hasVar_shiftAbove_one (c : Nat) (t : Ty) : (t.shiftAbove 1 c).hasVar c = false := by
  induction t generalizing c with
  | var i n =>
    simp only [Ty.shiftAbove, hasVar, offsetAbove, offset, beq_eq_false_iff_ne]
    split <;> omega
  | arr a b iha ihb => simp [Ty.shiftAbove, hasVar, iha, ihb]
  | all x a ih => simpa [Ty.shiftAbove, hasVar] using ih (c + 1)
  | _ => rfl

/-- The type without the names of its quantified variables, which only matter for printing. -/
def erase : Ty → Ty
  | name x => name x
  | var i n => var i n
  | arr a b => arr a.erase b.erase
  | all _ a => all "" a.erase
  | bool => bool

theorem erase_of_isMono {t : Ty} (h : t.isMono) : t.erase = t := by
  induction t with
  | arr a b iha ihb =>
    rw [isMono, Bool.and_eq_true] at h
    simp only [erase, iha h.1, ihb h.2]
  | all x a ih => simp [isMono] at h
  | _ => rfl

theorem erase_of_isSimple {t : Ty} (h : t.isSimple) : t.erase = t :=
  erase_of_isMono (isMono_of_isSimple h)

@[simp] theorem freeNames_erase (t : Ty) : t.erase.freeNames = t.freeNames := by
  induction t with
  | arr a b iha ihb => simp [erase, freeNames, iha, ihb]
  | all x a ih => simpa [erase, freeNames] using ih
  | _ => rfl

@[simp] theorem size_erase (t : Ty) : t.erase.size = t.size := by
  induction t with
  | arr a b iha ihb => simp [erase, size, iha, ihb]
  | all x a ih => simp [erase, size, ih]
  | _ => rfl

@[simp] theorem hasVar_erase (i : Nat) (t : Ty) : t.erase.hasVar i = t.hasVar i := by
  induction t generalizing i with
  | arr a b iha ihb => simp [erase, hasVar, iha, ihb]
  | all x a ih => simpa [erase, hasVar] using ih (i + 1)
  | _ => rfl

theorem erase_shiftAbove (d : Int) (c : Nat) (t : Ty) :
    (t.shiftAbove d c).erase = t.erase.shiftAbove d c := by
  induction t generalizing c with
  | arr a b iha ihb => simp [erase, Ty.shiftAbove, iha, ihb]
  | all x a ih => simp [erase, Ty.shiftAbove, ih]
  | _ => rfl

/-- In one context, being the same up to the names of binders is being equal without them. -/
theorem alphaEqAt_iff_erase {n c : Nat} {a b : Ty} (ha : a.WellScoped (n + c))
    (hb : b.WellScoped (n + c)) : a.alphaEqAt c b = true ↔ a.erase = b.erase := by
  induction a generalizing b c with
  | var i m =>
    cases b with
    | var j k =>
      obtain ⟨rfl, hi⟩ := ha
      obtain ⟨rfl, hj⟩ := hb
      simp only [alphaEqAt, sameVar, erase, var.injEq, and_true]
      split
      · simp
      · simp only [level, beq_iff_eq]
        omega
    | _ => simp [alphaEqAt, erase]
  | arr a₁ a₂ ih₁ ih₂ =>
    cases b with
    | arr b₁ b₂ => simp [alphaEqAt, erase, ih₁ ha.1 hb.1, ih₂ ha.2 hb.2]
    | _ => simp [alphaEqAt, erase]
  | all x a ih =>
    cases b with
    | all y b => simp [alphaEqAt, erase, ih (c := c + 1) ha hb]
    | _ => simp [alphaEqAt, erase]
  | _ => cases b <;> simp [alphaEqAt, erase]

end Ty

end LambdaTyping
