import Mathlib
import LambdaTyping.Proofs.MostGeneralUnifiers
import LambdaTyping.Proofs.Equations

/-!
# Formation of types

A type is formed in a context if its variables are bound there by type binders.
Only the kinds of the bindings matter, the most recent first. Everything that is
read from text is formed, and so is what shifting, filling, maps of names and
rigid unification make of formed types.

A type that is formed below a term binder does not refer to it, so it can be
taken out of its scope.
-/
namespace LambdaTyping

namespace Ty

/-- The variables of the type are type variables of a context with bindings of these kinds. -/
def FormedIn : List Kind → Ty → Prop
  | _, name _ | _, bool => True
  | ks, var i n => n = ks.length ∧ ks[i]? = some .type
  | ks, arr a b => a.FormedIn ks ∧ b.FormedIn ks
  | ks, all _ a => a.FormedIn (.type :: ks)

theorem FormedIn.wellScoped {ks : List Kind} {t : Ty} (h : t.FormedIn ks) :
    t.WellScoped ks.length := by
  induction t generalizing ks with
  | var i n => exact ⟨h.1, (List.getElem?_eq_some_iff.mp h.2).1⟩
  | arr a b iha ihb => exact ⟨iha h.1, ihb h.2⟩
  | all x a ih => exact ih h
  | _ => trivial

theorem formedIn_resolve (sc : Scope) (u : Surface.Ty) :
    (u.resolve sc).FormedIn (sc.map Prod.snd) := by
  induction u generalizing sc with
  | var x =>
    simp only [Surface.Ty.resolve]
    split
    · rename_i i hi
      obtain ⟨hlt, hx, -⟩ := List.findIdx?_eq_some_iff_getElem.mp hi
      refine ⟨(List.length_map _).symm, ?_⟩
      rw [List.getElem?_map, List.getElem?_eq_getElem hlt, eq_of_beq hx]
      rfl
    · trivial
  | bool => trivial
  | arr a b iha ihb => exact ⟨iha sc, ihb sc⟩
  | all x a ih => exact ih (sc.push (x, .type))

theorem formedIn_erase {ks : List Kind} {t : Ty} : t.erase.FormedIn ks ↔ t.FormedIn ks := by
  induction t generalizing ks with
  | arr a b iha ihb => exact and_congr iha ihb
  | all x a ih => exact ih
  | _ => exact Iff.rfl

theorem FormedIn.of_erase_eq {ks : List Kind} {a b : Ty} (h : a.FormedIn ks)
    (hab : a.erase = b.erase) : b.FormedIn ks := by
  rw [← formedIn_erase, ← hab, formedIn_erase]
  exact h

section Operations

variable {l new ks : List Kind} {k : Kind} {s t : Ty}

/-- New bindings below the most recent ones. -/
theorem FormedIn.shiftAbove (h : t.FormedIn (l ++ ks)) (new : List Kind) :
    (t.shiftAbove new.length l.length).FormedIn (l ++ (new ++ ks)) := by
  induction t generalizing l with
  | var i n =>
    obtain ⟨rfl, hi⟩ := h
    refine ⟨by simp; omega, ?_⟩
    simp only [offsetAbove, offset_natCast]
    split
    case isTrue hle =>
      rw [List.getElem?_append_right hle] at hi
      rw [List.getElem?_append_right (by omega), List.getElem?_append_right (by omega), ← hi]
      congr 1
      omega
    case isFalse hlt =>
      rw [List.getElem?_append_left (by omega)] at hi ⊢
      exact hi
  | arr a b iha ihb => exact ⟨iha h.1, ihb h.2⟩
  | all x a ih => exact ih (l := .type :: l) h
  | _ => trivial

theorem FormedIn.shift (h : t.FormedIn ks) (new : List Kind) :
    (t.shift new.length).FormedIn (new ++ ks) := h.shiftAbove (l := []) new

theorem FormedIn.shift_one (h : t.FormedIn ks) (k : Kind) : (t.shift 1).FormedIn (k :: ks) :=
  h.shift [k]

/-- A binding to which nothing refers can be dropped. -/
theorem FormedIn.shiftAbove_neg_one (h : t.FormedIn (l ++ k :: ks))
    (hv : t.hasVar l.length = false) :
    (t.shiftAbove (-1) l.length).FormedIn (l ++ ks) := by
  induction t generalizing l with
  | var i n =>
    obtain ⟨rfl, hi⟩ := h
    have hne : i ≠ l.length := by simpa [hasVar] using hv
    refine ⟨by simp [offset]; omega, ?_⟩
    simp only [offsetAbove, offset]
    split
    case isTrue hle =>
      rw [List.getElem?_append_right hle, List.getElem?_cons, if_neg (by omega)] at hi
      rw [List.getElem?_append_right (by omega), ← hi]
      congr 1
      omega
    case isFalse hlt =>
      rw [List.getElem?_append_left (by omega)] at hi ⊢
      exact hi
  | arr a b iha ihb =>
    simp only [hasVar, Bool.or_eq_false_iff] at hv
    exact ⟨iha h.1 hv.1, ihb h.2 hv.2⟩
  | all x a ih => exact ih (l := .type :: l) h hv
  | _ => trivial

/-- A type does not refer to term variables. -/
theorem FormedIn.hasVar_eq_false (h : t.FormedIn (l ++ .term :: ks)) :
    t.hasVar l.length = false := by
  induction t generalizing l with
  | var i n =>
    simp only [hasVar, beq_eq_false_iff_ne]
    rintro rfl
    simp [FormedIn] at h
  | arr a b iha ihb => simp [hasVar, iha h.1, ihb h.2]
  | all x a ih => exact ih (l := .type :: l) h
  | _ => rfl

/-- A type leaves the scope of a term variable. -/
theorem FormedIn.shift_neg_one (h : t.FormedIn (.term :: ks)) :
    (t.shift (-1)).FormedIn ks ∧ (t.shift (-1)).shift 1 = t := by
  have hv := h.hasVar_eq_false (l := [])
  exact ⟨h.shiftAbove_neg_one (l := []) hv,
    (h.wellScoped.shiftAbove_neg_one (Nat.zero_le ks.length) hv).2⟩

theorem FormedIn.fillAt (h : t.FormedIn (l ++ .type :: ks)) (hs : s.FormedIn ks) :
    (t.fillAt s l.length).FormedIn (l ++ ks) := by
  induction t generalizing l with
  | var i n =>
    obtain ⟨rfl, hi⟩ := h
    simp only [Ty.fillAt]
    split
    case isTrue => exact hs.shift l
    case isFalse hne =>
      refine ⟨by simp, ?_⟩
      split
      case isTrue hlt =>
        rw [List.getElem?_append_right (by omega), List.getElem?_cons, if_neg (by omega)] at hi
        rw [List.getElem?_append_right (by omega), ← hi]
        congr 1
        omega
      case isFalse hge =>
        rw [List.getElem?_append_left (by omega)] at hi ⊢
        exact hi
  | arr a b iha ihb => exact ⟨iha h.1, ihb h.2⟩
  | all x a ih => exact ih (l := .type :: l) h
  | _ => trivial

theorem FormedIn.substTop {x : String} (h : (all x t).FormedIn ks) (hs : s.FormedIn ks) :
    (t.substTop s).FormedIn ks := by
  rw [substTop_eq_fillAt]
  exact FormedIn.fillAt (l := []) h hs

theorem FormedIn.openWith {x : String} (h : t.FormedIn (.type :: ks)) :
    (t.openWith x).FormedIn ks :=
  FormedIn.substTop (x := x) h trivial

theorem FormedIn.mapNamesAt {θ : String → Ty} (hθ : ∀ x ∈ t.freeNames, (θ x).FormedIn ks)
    (h : t.FormedIn (l ++ ks)) : (t.mapNamesAt θ l.length).FormedIn (l ++ ks) := by
  induction t generalizing l with
  | name x => exact (hθ x (by simp [freeNames])).shift l
  | arr a b iha ihb =>
    exact ⟨iha (fun x hx => hθ x (List.mem_append_left _ hx)) h.1,
      ihb (fun x hx => hθ x (List.mem_append_right _ hx)) h.2⟩
  | all x a ih => exact ih (l := .type :: l) hθ h
  | _ => exact h

theorem FormedIn.mapNames {θ : String → Ty} (hθ : ∀ x, (θ x).FormedIn ks) (h : t.FormedIn ks) :
    (t.mapNames θ).FormedIn ks := FormedIn.mapNamesAt (l := []) (fun x _ => hθ x) h

end Operations

/-- Formed types are unified by formed types. -/
theorem hereditary_formedIn : Ty.Hereditary (Kind.type :: ·) FormedIn where
  arr h := h
  all h := h
  drop h hv := h.shiftAbove_neg_one (l := []) hv
  substName x ht hs := by
    rw [Subst.substName_eq_mapNames]
    refine ht.mapNames fun y => ?_
    by_cases hy : y = x
    · rwa [hy, Function.update_self]
    · rw [Function.update_of_ne hy]
      trivial

end Ty

/-- All types of the bindings are formed. -/
def Subst.FormedIn (ks : List Kind) (s : Subst) : Prop := ∀ b ∈ s, b.2.FormedIn ks

namespace Subst.FormedIn

variable {ks : List Kind} {s r : Subst}

theorem apply (h : s.FormedIn ks) {t : Ty} (ht : t.FormedIn ks) : (s.apply t).FormedIn ks :=
  Unify.apply_of_hereditary Ty.hereditary_formedIn h ht

theorem image (h : s.FormedIn ks) (x : String) : (s.image x).FormedIn ks := h.apply trivial

theorem append (hs : s.FormedIn ks) (hr : r.FormedIn ks) : Subst.FormedIn ks (s ++ r) := fun b hb =>
  (List.mem_append.mp hb).elim (hs b) (hr b)

theorem unifyRigid {a b : Ty} (ha : a.FormedIn ks) (hb : b.FormedIn ks)
    (h : LambdaTyping.unifyRigid a b = .ok s) : s.FormedIn ks :=
  Unify.keeps_rigidWithin Ty.hereditary_formedIn _ ks a b s ha hb h

end Subst.FormedIn

namespace Context

def kinds (Γ : Context) : List Kind := Γ.map fun e => e.binding.kind

@[simp] theorem length_kinds (Γ : Context) : Γ.kinds.length = Γ.length := List.length_map _

@[simp] theorem kinds_cons (e : Entry) (Γ : Context) : kinds (e :: Γ) = e.binding.kind :: Γ.kinds :=
  rfl

theorem SameKinds.kinds_eq {Γ Δ : Context} (h : Γ.SameKinds Δ) : Γ.kinds = Δ.kinds := by
  induction h with
  | nil => rfl
  | @cons e f Γ Δ hkind _ ih =>
    obtain ⟨x, b⟩ := e
    obtain ⟨y, b'⟩ := f
    have hb : b.kind = b'.kind := by cases b <;> cases b' <;> simp_all [Binding.sameKind, Binding.kind]
    simp [kinds_cons, hb, ih]

/-- Every type of a variable is formed in the context below it. -/
def Formed : Context → Prop
  | [] => True
  | e :: Γ => (∀ a, e.binding = .var a → a.FormedIn (kinds Γ)) ∧ Formed Γ

theorem formed_of_isResolved {Γ : Context} (h : Γ.IsResolved) : Γ.Formed := by
  induction Γ with
  | nil => trivial
  | cons e Γ ih =>
    refine ⟨fun a ha => ?_, ih h.2⟩
    obtain ⟨u, rfl⟩ := h.1 a ha
    have hformed := Ty.formedIn_resolve (.ofContext Γ) u
    rwa [Scope.ofContext, List.map_map] at hformed

theorem Formed.getType? {Γ : Context} (h : Γ.Formed) {i : Nat} {a : Ty} (ha : Γ.getType? i = some a) :
    a.FormedIn Γ.kinds := by
  refine getType?_induction (motive := fun Γ a => Γ.Formed → a.FormedIn Γ.kinds) ?_ ?_ ha h
  · intro x a Γ h
    exact (h.1 a rfl).shift_one _
  · intro e Γ a ih h
    exact (ih h.2).shift_one _

end Context

/-- Binders to which nothing refers can be dropped and added again. -/
theorem Ty.WellScoped.shiftAbove_neg {n d c : Nat} {t : Ty} (h : t.WellScoped n) (hd : c + d ≤ n)
    (hmin : ∀ i ∈ t.minFreeVarAt c, d ≤ i) : (t.shiftAbove (-(d : Int)) c).shiftAbove d c = t := by
  induction t generalizing n c with
  | var i m =>
    obtain ⟨rfl, hi⟩ := h
    simp only [Ty.shiftAbove, offsetAbove, offset, var.injEq]
    by_cases hc : c ≤ i
    · have hdi : d ≤ i - c := by simpa [minFreeVarAt, hc] using hmin
      simp only [hc, ↓reduceIte]
      split <;> omega
    · simp only [hc, ↓reduceIte]
      exact ⟨trivial, by omega⟩
  | arr a b iha ihb =>
    obtain ⟨hmina, hminb⟩ := le_of_mem_minOption_iff.mp hmin
    simp only [Ty.shiftAbove, iha h.1 hd hmina, ihb h.2 hd hminb]
  | all x a ih => simp only [Ty.shiftAbove, ih (c := c + 1) h (by omega) hmin]
  | _ => rfl

theorem Ty.WellScoped.shift_shift_neg {n d : Nat} {t : Ty} (h : t.WellScoped n) (hd : d ≤ n)
    (hfree : ∀ i < d, t.hasVar i = false) : (t.shift (-(d : Int))).shift d = t := by
  refine h.shiftAbove_neg (c := 0) (by omega) (le_of_mem_minFreeVarAt_iff.mpr fun i hi => ?_)
  rw [Nat.zero_add, hfree i hi]

theorem Ty.WellScoped.shift_of_unshift? {n d : Nat} {t u : Ty} (h : t.WellScoped n) (hd : d ≤ n)
    (hu : t.unshift? d = some u) : u.shift d = t := by
  obtain ⟨hfree, rfl⟩ := unshift?_eq_some_iff.mp hu
  exact h.shift_shift_neg hd hfree

namespace Binding

/-- The binding under a substitution, the `d`th from the top. -/
def applied (s : Subst) (d : Nat) : Binding → Binding
  | .var a => .var ((s.apply (a.shift d)).shift (-(d : Int)))
  | b => b

/-- Under the substitution the type refers to none of the `d` most recent bindings. -/
def StaysBelow (s : Subst) (d : Nat) : Binding → Prop
  | .var a => ∀ i < d, (s.apply (a.shift d)).hasVar i = false
  | _ => True

@[simp] theorem kind_applied (s : Subst) (d : Nat) (b : Binding) :
    (b.applied s d).kind = b.kind := by
  cases b <;> rfl

theorem mem_freeNames_applied {s : Subst} {d : Nat} {b : Binding} {y : String} :
    y ∈ (b.applied s d).freeNames ↔ ∃ x ∈ b.freeNames, y ∈ (s.image x).freeNames := by
  cases b with
  | var a =>
    rw [applied, freeNames, Ty.freeNames_shift, Subst.apply_eq_mapNames, Ty.mem_freeNames_mapNames,
      Ty.freeNames_shift]
    rfl
  | _ => simp [applied, freeNames]

end Binding

namespace Context

variable {Γ Δ : Context} {s : Subst}

theorem applyBinding_eq_ok_iff {d : Nat} {e e' : Entry} :
    applyBinding Γ s d e = .ok e' ↔
      e.binding.StaysBelow s d ∧ e' = ⟨e.name, e.binding.applied s d⟩ := by
  obtain ⟨x, b⟩ := e
  cases b with
  | var a =>
    simp only [applyBinding, Binding.StaysBelow, Binding.applied]
    cases hu : (s.apply (a.shift d)).unshift? d with
    | some u =>
      obtain ⟨hfree, rfl⟩ := Ty.unshift?_eq_some_iff.mp hu
      rw [Except.ok.injEq, eq_comm]
      exact (and_iff_right hfree).symm
    | none =>
      refine iff_of_false (by simp) fun h => ?_
      rw [Ty.unshift?_eq_some_iff.mpr ⟨h.1, rfl⟩] at hu
      cases hu
  | _ => simp [applyBinding, Binding.StaysBelow, Binding.applied, eq_comm]

theorem applyBelow_eq_ok_iff {d : Nat} {Γ' : Context} :
    applyBelow Γ s d Γ' = .ok Δ ↔
      (∀ i (e : Entry), Γ'[i]? = some e → e.binding.StaysBelow s (d + i + 1)) ∧
        Δ = Γ'.mapIdx fun i e => ⟨e.name, e.binding.applied s (d + i + 1)⟩ := by
  induction Γ' generalizing d Δ with
  | nil => simp [applyBelow, eq_comm]
  | cons e Γ' ih =>
    simp only [applyBelow, bind_eq_ok_iff, ih, applyBinding_eq_ok_iff, List.mapIdx_cons]
    have hadd : ∀ i, d + 1 + i + 1 = d + (i + 1) + 1 := fun i => by omega
    simp only [hadd]
    constructor
    · rintro ⟨_, ⟨hΓ', rfl⟩, _, ⟨he, rfl⟩, h⟩
      cases h
      refine ⟨fun i f hf => ?_, rfl⟩
      cases i with
      | zero =>
        cases hf
        exact he
      | succ i => exact hΓ' i f hf
    · rintro ⟨h, rfl⟩
      exact ⟨_, ⟨fun i f hf => h (i + 1) f hf, rfl⟩, _, ⟨h 0 e rfl, rfl⟩, rfl⟩

/-- The context under a substitution, where no type gets out of scope. -/
def applied (s : Subst) (Γ : Context) : Context :=
  Γ.mapIdx fun i e => ⟨e.name, e.binding.applied s (i + 1)⟩

theorem apply_eq_ok_iff : Γ.apply s = .ok Δ ↔
    (∀ i (e : Entry), Γ[i]? = some e → e.binding.StaysBelow s (i + 1)) ∧ Δ = Γ.applied s := by
  have h := @applyBelow_eq_ok_iff Γ Δ s 0 Γ
  simp only [Nat.zero_add] at h
  exact h

@[simp] theorem length_applied (s : Subst) (Γ : Context) : (Γ.applied s).length = Γ.length := by
  simp [applied]

theorem mem_freeNames_applied {y : String} :
    y ∈ (Γ.applied s).freeNames ↔ ∃ x ∈ Γ.freeNames, y ∈ (s.image x).freeNames := by
  simp only [freeNames, List.mem_flatMap]
  constructor
  · rintro ⟨e, he, hy⟩
    obtain ⟨i, hi, rfl⟩ := List.mem_mapIdx.mp he
    obtain ⟨x, hx, hy⟩ := Binding.mem_freeNames_applied.mp hy
    exact ⟨x, ⟨_, List.getElem_mem hi, hx⟩, hy⟩
  · rintro ⟨x, ⟨e, he, hx⟩, hy⟩
    obtain ⟨i, hi, rfl⟩ := List.getElem_of_mem he
    exact ⟨_, List.mem_mapIdx.mpr ⟨i, hi, rfl⟩, Binding.mem_freeNames_applied.mpr ⟨x, hx, hy⟩⟩

theorem kinds_applied (s : Subst) (Γ : Context) : (Γ.applied s).kinds = Γ.kinds := by
  refine List.ext_getElem? fun i => ?_
  simp [kinds, applied, Function.comp_def]

theorem getType?_of_getElem? {i : Nat} {x : String} {a : Ty} (h : Γ[i]? = some ⟨x, .var a⟩) :
    Γ.getType? i = some (a.shift ((i + 1 : Nat) : Int)) := by
  simp [getType?, h]

theorem getType?_eq_some_iff {i : Nat} {a : Ty} : Γ.getType? i = some a ↔
    ∃ x b, Γ[i]? = some ⟨x, .var b⟩ ∧ a = b.shift ((i + 1 : Nat) : Int) := by
  constructor
  · intro h
    rw [getType?] at h
    split at h
    · rename_i x b he
      exact ⟨x, b, he, (Option.some.inj h).symm⟩
    · cases h
  · rintro ⟨x, b, he, rfl⟩
    exact getType?_of_getElem? he

theorem getElem?_applied (s : Subst) (Γ : Context) (i : Nat) :
    (Γ.applied s)[i]? = Γ[i]?.map fun e => ⟨e.name, e.binding.applied s (i + 1)⟩ :=
  List.getElem?_mapIdx

/-- The type of a variable in a context under a substitution is its type under the substitution:
what is moved down for its binding is moved up again. -/
theorem getType?_applied {i : Nat}
    (hbelow : ∀ e : Entry, Γ[i]? = some e → e.binding.StaysBelow s (i + 1))
    (hscoped : ∀ a, Γ.getType? i = some a → (s.apply a).WellScoped Γ.length) :
    (Γ.applied s).getType? i = (Γ.getType? i).map s.apply := by
  have hentry := getElem?_applied s Γ i
  cases he : Γ[i]? with
  | none => simp [getType?, hentry, he]
  | some e =>
    obtain ⟨x, b⟩ := e
    cases b with
    | var a =>
      have hget := getType?_of_getElem? he
      have hi : i + 1 ≤ Γ.length := (List.getElem?_eq_some_iff.mp he).1
      have hback := (hscoped _ hget).shift_shift_neg hi (hbelow _ he)
      rw [hget, Option.map_some, ← hback]
      simp [getType?, hentry, he, Binding.applied]
    | _ => simp [getType?, hentry, he, Binding.applied]

/-- A context under a substitution has bindings of the same kinds and the types under it. -/
theorem apply_spec {Γ Δ : Context} {s : Subst} (hs : s.FormedIn Γ.kinds) (hΓ : Γ.Formed)
    (h : Γ.apply s = .ok Δ) :
    Δ.kinds = Γ.kinds ∧ ∀ i, Δ.getType? i = (Γ.getType? i).map s.apply := by
  obtain ⟨hbelow, rfl⟩ := apply_eq_ok_iff.mp h
  refine ⟨kinds_applied s Γ, fun i => getType?_applied (hbelow i) fun a ha => ?_⟩
  have hscoped := (hs.apply (hΓ.getType? ha)).wellScoped
  rwa [length_kinds] at hscoped

end Context

end LambdaTyping
