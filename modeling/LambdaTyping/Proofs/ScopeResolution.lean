import Mathlib
import LambdaTyping.Proofs.RoundTrip

/-!
# Resolving names

What a term refers to once its names are resolved. An index is spelled out as the
name of the binder it counts to, among binders of both kinds. Resolving a term gives
the one well scoped term that is spelled like it and whose variables are all visible:
no nearer binder of the same kind has the same name, and a free name is bound by no
binder of types. There is such a term unless some use of a variable is not bound, and
then the first one in the text is reported.
-/
namespace LambdaTyping

open Text (Position)

namespace Scope

/-- The binder at index `i` has the name and the kind, and no nearer one has both. -/
def IsNearest (sc : Scope) (x : String) (k : Kind) (i : Nat) : Prop :=
  sc[i]? = some (x, k) ∧ ∀ j < i, sc[j]? ≠ some (x, k)

theorem index?_eq_some_iff {sc : Scope} {x : String} {k : Kind} {i : Nat} :
    sc.index? x k = some i ↔ sc.IsNearest x k i := by
  rw [index?, List.findIdx?_eq_some_iff_getElem, IsNearest]
  constructor
  · rintro ⟨hlt, hi, hmin⟩
    refine ⟨by rw [List.getElem?_eq_getElem hlt, eq_of_beq hi], fun j hj hx => hmin j hj ?_⟩
    rw [List.getElem?_eq_getElem (hj.trans hlt), Option.some.injEq] at hx
    simp [hx]
  · rintro ⟨hi, hmin⟩
    obtain ⟨hlt, hi⟩ := List.getElem?_eq_some_iff.mp hi
    refine ⟨hlt, by simp [hi], fun j hj hx => hmin j hj ?_⟩
    rw [List.getElem?_eq_getElem (hj.trans hlt), eq_of_beq hx]

/-- The name of the binder at an index. -/
def nameAt (sc : Scope) (i : Nat) : String := (sc[i]?.map Prod.fst).getD ""

theorem IsNearest.nameAt_eq {sc : Scope} {x : String} {k : Kind} {i : Nat}
    (h : sc.IsNearest x k i) : sc.nameAt i = x := by
  simp [nameAt, h.1]

end Scope

namespace Ty

/-- The type with the names of the binders that its variables refer to. -/
def spelledIn (sc : Scope) : Ty → Surface.Ty
  | name x => .var x
  | var i _ => .var (sc.nameAt i)
  | bool => .bool
  | arr a b => .arr (a.spelledIn sc) (b.spelledIn sc)
  | all x a => .all x (a.spelledIn (sc.push (x, .type)))

/-- Every variable refers to the nearest binder of types with its name, and no free name is the
name of one. -/
def Visible (sc : Scope) : Ty → Prop
  | name x => (x, .type) ∉ sc
  | var i _ => ∃ x, sc.IsNearest x .type i
  | bool => True
  | arr a b => a.Visible sc ∧ b.Visible sc
  | all x a => a.Visible (sc.push (x, .type))

theorem visible_resolve (sc : Scope) (u : Surface.Ty) :
    (u.resolve sc).Visible sc ∧ (u.resolve sc).spelledIn sc = u := by
  induction u generalizing sc with
  | var x =>
    simp only [Surface.Ty.resolve]
    split
    next i hi =>
      have hnear := Scope.index?_eq_some_iff.mp hi
      exact ⟨⟨x, hnear⟩, by rw [spelledIn, hnear.nameAt_eq]⟩
    next hnone => exact ⟨Scope.index?_eq_none_iff.mp hnone, rfl⟩
  | bool => exact ⟨trivial, rfl⟩
  | arr a b iha ihb =>
    exact ⟨⟨(iha sc).1, (ihb sc).1⟩, by rw [Surface.Ty.resolve, spelledIn, (iha sc).2, (ihb sc).2]⟩
  | all x a ih =>
    have h := ih (sc.push (x, .type))
    exact ⟨h.1, by rw [Surface.Ty.resolve, spelledIn, h.2]⟩

theorem resolve_spelledIn {sc : Scope} {a : Ty} (hscope : a.WellScoped sc.length)
    (h : a.Visible sc) : (a.spelledIn sc).resolve sc = a := by
  induction a generalizing sc with
  | name x => simp [spelledIn, Surface.Ty.resolve, Scope.index?_eq_none_iff.mpr h]
  | var i n =>
    obtain ⟨x, hx⟩ := h
    obtain ⟨rfl, -⟩ := hscope
    simp [spelledIn, Surface.Ty.resolve, hx.nameAt_eq, Scope.index?_eq_some_iff.mpr hx]
  | bool => rfl
  | arr a b iha ihb =>
    rw [spelledIn, Surface.Ty.resolve, iha hscope.1 h.1, ihb hscope.2 h.2]
  | all x a ih =>
    rw [spelledIn, Surface.Ty.resolve, @ih (sc.push (x, .type)) hscope h]

end Ty

namespace Term

/-- The term with the names of the binders that its variables refer to. A binder is in force in its
body only: not in the annotation of an abstraction and not in what `let` defines. -/
def spelledIn (sc : Scope) : Term → Surface.Term
  | var p i _ => .var p (sc.nameAt i)
  | const p b => .const p b
  | abs p x ty t => .abs p x (ty.map (Ty.spelledIn sc)) (t.spelledIn (sc.push (x, .term)))
  | app p t u => .app p (t.spelledIn sc) (u.spelledIn sc)
  | ite p c t e => .ite p (c.spelledIn sc) (t.spelledIn sc) (e.spelledIn sc)
  | tyAbs p x t => .tyAbs p x (t.spelledIn (sc.push (x, .type)))
  | tyApp p t ty => .tyApp p (t.spelledIn sc) (ty.spelledIn sc)
  | letIn p x e t => .letIn p x (e.spelledIn sc) (t.spelledIn (sc.push (x, .term)))

/-- Every variable refers to the nearest binder of its kind with its name, and no free name of a
type is the name of a binder of types. -/
def Visible (sc : Scope) : Term → Prop
  | var _ i _ => ∃ x, sc.IsNearest x .term i
  | const .. => True
  | abs _ x ty t => (∀ a ∈ ty, a.Visible sc) ∧ t.Visible (sc.push (x, .term))
  | app _ t u => t.Visible sc ∧ u.Visible sc
  | ite _ c t e => c.Visible sc ∧ t.Visible sc ∧ e.Visible sc
  | tyAbs _ x t => t.Visible (sc.push (x, .type))
  | tyApp _ t ty => t.Visible sc ∧ ty.Visible sc
  | letIn _ x e t => e.Visible sc ∧ t.Visible (sc.push (x, .term))

theorem visible_of_resolve {sc : Scope} {u : Surface.Term} {t : Term} (h : u.resolve sc = .ok t) :
    t.Visible sc ∧ t.spelledIn sc = u := by
  induction u generalizing sc t with
  | var p x =>
    simp only [Surface.Term.resolve] at h
    split at h
    next i hi =>
      cases h
      have hnear := Scope.index?_eq_some_iff.mp hi
      exact ⟨⟨x, hnear⟩, by rw [spelledIn, hnear.nameAt_eq]⟩
    next => cases h
  | const p b =>
    cases h
    exact ⟨trivial, rfl⟩
  | abs p x ty u ih =>
    obtain ⟨t, ht, h⟩ := bind_eq_ok_iff.mp h
    cases h
    refine ⟨⟨?_, (ih ht).1⟩, ?_⟩
    · rintro _ ha
      obtain ⟨a, -, rfl⟩ := Option.map_eq_some_iff.mp ha
      exact (Ty.visible_resolve sc a).1
    · cases ty <;> simp [spelledIn, (ih ht).2, (Ty.visible_resolve sc _).2]
  | app p u₁ u₂ ih₁ ih₂ =>
    obtain ⟨t₁, h₁, h⟩ := bind_eq_ok_iff.mp h
    obtain ⟨t₂, h₂, h⟩ := bind_eq_ok_iff.mp h
    cases h
    exact ⟨⟨(ih₁ h₁).1, (ih₂ h₂).1⟩, by rw [spelledIn, (ih₁ h₁).2, (ih₂ h₂).2]⟩
  | ite p u₁ u₂ u₃ ih₁ ih₂ ih₃ =>
    obtain ⟨t₁, h₁, h⟩ := bind_eq_ok_iff.mp h
    obtain ⟨t₂, h₂, h⟩ := bind_eq_ok_iff.mp h
    obtain ⟨t₃, h₃, h⟩ := bind_eq_ok_iff.mp h
    cases h
    exact ⟨⟨(ih₁ h₁).1, (ih₂ h₂).1, (ih₃ h₃).1⟩,
      by rw [spelledIn, (ih₁ h₁).2, (ih₂ h₂).2, (ih₃ h₃).2]⟩
  | tyAbs p x u ih =>
    obtain ⟨t, ht, h⟩ := bind_eq_ok_iff.mp h
    cases h
    exact ⟨(ih ht).1, by rw [spelledIn, (ih ht).2]⟩
  | tyApp p u ty ih =>
    obtain ⟨t, ht, h⟩ := bind_eq_ok_iff.mp h
    cases h
    have hty := Ty.visible_resolve sc ty
    exact ⟨⟨(ih ht).1, hty.1⟩, by rw [spelledIn, (ih ht).2, hty.2]⟩
  | letIn p x u₁ u₂ ih₁ ih₂ =>
    obtain ⟨t₁, h₁, h⟩ := bind_eq_ok_iff.mp h
    obtain ⟨t₂, h₂, h⟩ := bind_eq_ok_iff.mp h
    cases h
    exact ⟨⟨(ih₁ h₁).1, (ih₂ h₂).1⟩, by rw [spelledIn, (ih₁ h₁).2, (ih₂ h₂).2]⟩

theorem resolve_spelledIn {sc : Scope} {t : Term} (hscope : t.WellScoped sc.length)
    (h : t.Visible sc) : (t.spelledIn sc).resolve sc = .ok t := by
  induction t generalizing sc with
  | var p i n =>
    obtain ⟨x, hx⟩ := h
    obtain ⟨rfl, -⟩ := hscope
    simp [spelledIn, Surface.Term.resolve, hx.nameAt_eq, Scope.index?_eq_some_iff.mpr hx]
  | const p b => rfl
  | abs p x ty t ih =>
    have ht := @ih (sc.push (x, .term)) hscope.2 h.2
    refine bind_eq_ok_iff.mpr ⟨t, ht, ?_⟩
    cases ty with
    | none => rfl
    | some a =>
      have ha := Ty.resolve_spelledIn (hscope.1 a rfl) (h.1 a rfl)
      rw [Option.map_some, Option.map_some, ha]
      rfl
  | app p t u iht ihu =>
    exact bind_eq_ok_iff.mpr ⟨t, iht hscope.1 h.1, bind_eq_ok_iff.mpr ⟨u, ihu hscope.2 h.2, rfl⟩⟩
  | ite p c t e ihc iht ihe =>
    exact bind_eq_ok_iff.mpr ⟨c, ihc hscope.1 h.1, bind_eq_ok_iff.mpr ⟨t, iht hscope.2.1 h.2.1,
      bind_eq_ok_iff.mpr ⟨e, ihe hscope.2.2 h.2.2, rfl⟩⟩⟩
  | tyAbs p x t ih =>
    exact bind_eq_ok_iff.mpr ⟨t, @ih (sc.push (x, .type)) hscope h, rfl⟩
  | tyApp p t ty ih =>
    refine bind_eq_ok_iff.mpr ⟨t, ih hscope.1 h.1, ?_⟩
    rw [Ty.resolve_spelledIn hscope.2 h.2]
    rfl
  | letIn p x e t ihe iht =>
    have ht := @iht (sc.push (x, .term)) hscope.2 h.2
    exact bind_eq_ok_iff.mpr ⟨e, ihe hscope.1 h.1, bind_eq_ok_iff.mpr ⟨t, ht, rfl⟩⟩

/-- Resolving a term gives the term that is spelled like it. -/
theorem resolve_eq_ok_iff {sc : Scope} {u : Surface.Term} {t : Term} :
    u.resolve sc = .ok t ↔ t.WellScoped sc.length ∧ t.Visible sc ∧ t.spelledIn sc = u := by
  constructor
  · intro h
    exact ⟨wellScoped_resolve h, visible_of_resolve h⟩
  · rintro ⟨hscope, hvisible, rfl⟩
    exact resolve_spelledIn hscope hvisible

end Term

namespace Surface

/-- A place where a term variable stands, with the binders in force there, the nearest first. -/
structure Use where
  name : String
  pos : Position
  binders : Scope

namespace Use

/-- Some binder of terms has the name. -/
def IsBound (u : Use) : Prop := (u.name, .term) ∈ u.binders

instance (u : Use) : Decidable u.IsBound := inferInstanceAs (Decidable (_ ∈ _))

def unbound (u : Use) : Unbound := ⟨u.name, u.pos⟩

end Use

/-- The uses of term variables from left to right. -/
def Term.uses (sc : Scope) : Term → List Use
  | .var p x => [⟨x, p, sc⟩]
  | .const .. => []
  | .abs _ x _ t => t.uses (sc.push (x, .term))
  | .app _ t u => t.uses sc ++ u.uses sc
  | .ite _ c t e => c.uses sc ++ (t.uses sc ++ e.uses sc)
  | .tyAbs _ x t => t.uses (sc.push (x, .type))
  | .tyApp _ t _ => t.uses sc
  | .letIn _ x e t => e.uses sc ++ t.uses (sc.push (x, .term))

/-- The first use in a list that is not bound. -/
def firstUnbound? (us : List Use) : Option Use := us.find? fun u => !decide u.IsBound

theorem firstUnbound?_eq_some_iff {us : List Use} {u : Use} :
    firstUnbound? us = some u ↔
      ∃ before after, us = before ++ u :: after ∧ (∀ v ∈ before, v.IsBound) ∧ ¬ u.IsBound := by
  rw [firstUnbound?, List.find?_eq_some_iff_append]
  constructor
  · rintro ⟨hu, before, after, hus, hbefore⟩
    exact ⟨before, after, hus, by simpa using hbefore, by simpa using hu⟩
  · rintro ⟨before, after, hus, hbefore, hu⟩
    exact ⟨by simpa using hu, before, after, hus, by simpa using hbefore⟩

theorem firstUnbound?_append (us vs : List Use) :
    firstUnbound? (us ++ vs) = (firstUnbound? us).or (firstUnbound? vs) := List.find?_append

/-- A result that is there if all uses are bound; its error is the given use that is not. -/
def Reports {α : Type} (r : Except Unbound α) (u : Option Use) : Prop :=
  match r with
  | .ok _ => u = none
  | .error e => u.map Use.unbound = some e

theorem Reports.bind {α β : Type} {r : Except Unbound α} {f : α → Except Unbound β}
    {u v : Option Use} (h : Reports r u) (hf : ∀ a, Reports (f a) v) :
    Reports (r >>= f) (u.or v) := by
  cases r with
  | ok a =>
    obtain rfl : u = none := h
    exact hf a
  | error e =>
    obtain ⟨w, rfl, hw⟩ := Option.map_eq_some_iff.mp h
    exact congrArg some hw

theorem Reports.map {α β : Type} {r : Except Unbound α} {u : Option Use} (h : Reports r u)
    (f : α → β) : Reports (do return f (← r)) u := by
  have hbind := h.bind (f := fun a => pure (f a)) (v := none) fun _ => rfl
  rwa [Option.or_none] at hbind

/-- The step from a term to its parts: they are resolved from left to right. -/
theorem reports_resolve (sc : Scope) (m : Term) :
    Reports (m.resolve sc) (firstUnbound? (m.uses sc)) := by
  induction m generalizing sc with
  | var p x =>
    by_cases hx : (x, Kind.term) ∈ sc
    · obtain ⟨i, hi⟩ : ∃ i, sc.index? x .term = some i :=
        Option.ne_none_iff_exists'.mp fun h => Scope.index?_eq_none_iff.mp h hx
      simp [Term.resolve, hi, Reports, Term.uses, firstUnbound?, Use.IsBound, hx]
    · simp [Term.resolve, Scope.index?_eq_none_iff.mpr hx, Reports, Term.uses, firstUnbound?,
        Use.IsBound, hx, Use.unbound]
  | const p b => rfl
  | abs p x ty t ih => exact (ih _).map _
  | app p t u iht ihu =>
    rw [Term.uses, firstUnbound?_append]
    exact (iht sc).bind fun _ => (ihu sc).map _
  | ite p c t e ihc iht ihe =>
    rw [Term.uses, firstUnbound?_append, firstUnbound?_append]
    exact (ihc sc).bind fun _ => (iht sc).bind fun _ => (ihe sc).map _
  | tyAbs p x t ih => exact (ih _).map _
  | tyApp p t ty ih => exact (ih sc).map _
  | letIn p x e t ihe iht =>
    rw [Term.uses, firstUnbound?_append]
    exact (ihe sc).bind fun _ => (iht _).map _

theorem resolve_eq_error_iff {sc : Scope} {m : Term} {e : Unbound} :
    m.resolve sc = .error e ↔ (firstUnbound? (m.uses sc)).map Use.unbound = some e := by
  have h := reports_resolve sc m
  cases hm : m.resolve sc with
  | ok t =>
    rw [hm] at h
    simp [show firstUnbound? (m.uses sc) = none from h]
  | error e' =>
    rw [hm] at h
    simp [show (firstUnbound? (m.uses sc)).map Use.unbound = some e' from h]

theorem exists_resolve_error_iff {sc : Scope} {m : Term} :
    (∃ e, m.resolve sc = .error e) ↔ ∃ u ∈ m.uses sc, ¬ u.IsBound := by
  simp only [resolve_eq_error_iff, Option.map_eq_some_iff]
  rw [← not_iff_not]
  have hnone : firstUnbound? (m.uses sc) = none ↔ ∀ u ∈ m.uses sc, u.IsBound := by
    simp [firstUnbound?]
  simpa [Option.eq_none_iff_forall_ne_some] using hnone

/-- Resolving a term in a context fails if and only if some use of a variable has no binder of
terms around it and no entry of the context with its name; the error names the first such use from
left to right. Otherwise the result is the one well scoped term that is spelled like the given one,
with its positions and binders, and whose variables are all visible. -/
theorem resolve_reports_or_spells (Γ : LambdaTyping.Context) (m : Term) :
    ((∃ e, m.resolve (.ofContext Γ) = .error e) ↔ ∃ u ∈ m.uses (.ofContext Γ), ¬ u.IsBound) ∧
    (∀ e, m.resolve (.ofContext Γ) = .error e ↔
      ∃ before u after, m.uses (.ofContext Γ) = before ++ u :: after ∧
        (∀ v ∈ before, v.IsBound) ∧ ¬ u.IsBound ∧ e = ⟨u.name, u.pos⟩) ∧
    ∀ t : LambdaTyping.Term, m.resolve (.ofContext Γ) = .ok t ↔
      t.WellScoped Γ.length ∧ t.Visible (.ofContext Γ) ∧ t.spelledIn (.ofContext Γ) = m := by
  refine ⟨exists_resolve_error_iff, fun e => ?_, fun t => ?_⟩
  · simp only [resolve_eq_error_iff, Option.map_eq_some_iff, firstUnbound?_eq_some_iff]
    constructor
    · rintro ⟨u, ⟨before, after, huses, hbefore, hu⟩, rfl⟩
      exact ⟨before, u, after, huses, hbefore, hu, rfl⟩
    · rintro ⟨before, u, after, huses, hbefore, hu, rfl⟩
      exact ⟨u, ⟨before, after, huses, hbefore, hu⟩, rfl⟩
  · have hlength : (Scope.ofContext Γ).length = Γ.length := List.length_map _
    rw [Term.resolve_eq_ok_iff, hlength]

-- In `X, x` the variable `x` is hidden by the abstraction, `X` by the quantifier.
example : (Term.abs ⟨1, 1⟩ "x" (some (.arr (.var "X") (.all "X" (.var "X"))))
      (.var ⟨1, 9⟩ "x")).resolve (.ofContext [⟨"x", .name⟩, ⟨"X", .tyVar⟩]) =
    .ok (.abs ⟨1, 1⟩ "x" (some (.arr (.var 1 2) (.all "X" (.var 0 3)))) (.var ⟨1, 9⟩ 0 3)) := by
  decide

end Surface

end LambdaTyping
