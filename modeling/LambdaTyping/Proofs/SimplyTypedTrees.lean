import Mathlib
import LambdaTyping.Proofs.CheckedTrees
import LambdaTyping.Proofs.PrincipalUnifiers

/-!
# Trees of the simply typed calculus

The check of a tree is exact: it succeeds if and only if all nodes are of the
form that their rules demand and one map of names to simple types solves the
equations of all nodes at once. The substitution of the root is a most general
such map, and under it the judgment of the root is derivable.

Hindley-Milner checks the same rules in the same way, except for `let`, as long
as there are no quantifiers. So what is said of the check is said for both.
-/
namespace LambdaTyping

/-- Typing in the simply typed calculus with `Bool` and `let`; all abstractions are annotated. -/
inductive SimplyTyped : Context → Term → Ty → Prop
  | var {Γ : Context} {p : Text.Position} {i n : Nat} {a : Ty} (hi : Γ.getType? i = some a) :
      SimplyTyped Γ (.var p i n) a
  | const {Γ : Context} {p : Text.Position} {b : Bool} : SimplyTyped Γ (.const p b) .bool
  | abs {Γ : Context} {p : Text.Position} {x : String} {t : Term} {a b : Ty} (ha : a.isSimple)
      (ht : SimplyTyped (⟨x, .var a⟩ :: Γ) t b) : SimplyTyped Γ (.abs p x (some a) t) (.arr a b)
  | app {Γ : Context} {p : Text.Position} {t u : Term} {a b : Ty}
      (ht : SimplyTyped Γ t (.arr a b)) (hu : SimplyTyped Γ u a) : SimplyTyped Γ (.app p t u) b
  | ite {Γ : Context} {p : Text.Position} {c t e : Term} {a : Ty} (hc : SimplyTyped Γ c .bool)
      (ht : SimplyTyped Γ t a) (he : SimplyTyped Γ e a) : SimplyTyped Γ (.ite p c t e) a
  | letIn {Γ : Context} {p : Text.Position} {x : String} {e t : Term} {a b : Ty}
      (he : SimplyTyped Γ e a) (ht : SimplyTyped (⟨x, .var a⟩ :: Γ) t b) :
      SimplyTyped Γ (.letIn p x e t) b

/-- Only the types of the context count, and neither positions nor the names of binders. -/
theorem SimplyTyped.of_erase_eq {Γ Δ : Context} {t u : Term} {a : Ty} (h : SimplyTyped Γ t a)
    (hΓ : ∀ i b, Γ.getType? i = some b → Δ.getType? i = some b) (ht : t.erase = u.erase)
    (hu : u.IsPlain) : SimplyTyped Δ u a := by
  have hcons : ∀ {Γ Δ : Context} (x y : String) (a : Ty),
      (∀ i b, Γ.getType? i = some b → Δ.getType? i = some b) →
      ∀ i b, Context.getType? (⟨x, .var a⟩ :: Γ) i = some b →
        Context.getType? (⟨y, .var a⟩ :: Δ) i = some b := by
    intro Γ Δ x y a h i b hi
    cases i with
    | zero => exact hi
    | succ i =>
      rw [Context.getType?_cons_succ, Option.map_eq_some_iff] at hi ⊢
      obtain ⟨b', hb', rfl⟩ := hi
      exact ⟨b', h i b' hb', rfl⟩
  induction h generalizing Δ u with
  | var hi =>
    cases u with
    | var q j m =>
      simp only [Term.erase, Term.var.injEq] at ht
      exact .var (hΓ _ _ (ht.2.1 ▸ hi))
    | _ => simp [Term.erase] at ht
  | const =>
    cases u with
    | const q b => exact .const
    | _ => simp [Term.erase] at ht
  | @abs Γ p x t a b ha hb ih =>
    cases u with
    | abs q y annot u =>
      cases annot with
      | none => simp [Term.erase] at ht
      | some a' =>
        simp only [Term.erase, Term.abs.injEq, Option.map_some, Option.some.injEq] at ht
        obtain ⟨-, -, ha', ht⟩ := ht
        rw [Ty.erase_of_isSimple ha, Ty.erase_of_isSimple (hu.1 a' rfl)] at ha'
        subst ha'
        exact .abs ha (ih (hcons x y a hΓ) ht hu.2)
    | _ => simp [Term.erase] at ht
  | app ht₁ ht₂ ih₁ ih₂ =>
    cases u with
    | app q u₁ u₂ =>
      simp only [Term.erase, Term.app.injEq] at ht
      exact .app (ih₁ hΓ ht.2.1 hu.1) (ih₂ hΓ ht.2.2 hu.2)
    | _ => simp [Term.erase] at ht
  | ite ht₁ ht₂ ht₃ ih₁ ih₂ ih₃ =>
    cases u with
    | ite q u₁ u₂ u₃ =>
      simp only [Term.erase, Term.ite.injEq] at ht
      exact .ite (ih₁ hΓ ht.2.1 hu.1) (ih₂ hΓ ht.2.2.1 hu.2.1) (ih₃ hΓ ht.2.2.2 hu.2.2)
    | _ => simp [Term.erase] at ht
  | @letIn Γ p x e t a b he hb ih₁ ih₂ =>
    cases u with
    | letIn q y u₁ u₂ =>
      simp only [Term.erase, Term.letIn.injEq] at ht
      exact .letIn (ih₁ hΓ ht.2.2.1 hu.1) (ih₂ (hcons x y a hΓ) ht.2.2.2 hu.2)
    | _ => simp [Term.erase] at ht

/-- All types in the context are simple. -/
def Context.IsSimple (Γ : Context) : Prop := ∀ i a, Γ.getType? i = some a → a.isSimple

theorem Context.IsSimple.tail {e : Entry} {Γ : Context} (h : Context.IsSimple (e :: Γ)) :
    Γ.IsSimple := fun i b hb => by
  refine Ty.isSimple_of_isSimple_shiftAbove (d := 1) (c := 0) (h (i + 1) (b.shift 1) ?_)
  rw [Context.getType?_cons_succ, hb]
  rfl

theorem Context.IsSimple.of_cons {x : String} {a : Ty} {Γ : Context}
    (h : Context.IsSimple (⟨x, .var a⟩ :: Γ)) : a.isSimple ∧ Γ.IsSimple :=
  ⟨Ty.isSimple_of_isSimple_shiftAbove (h 0 _ rfl), h.tail⟩

theorem Context.IsSimple.comparable {Γ Δ : Context} (hΓ : Γ.IsSimple) (hΔ : Δ.IsSimple) :
    Γ.Comparable Δ := fun i a b ha hb => .inl ⟨hΓ i a ha, hΔ i b hb⟩

/-- All types of the judgment are simple, and its term is plain. -/
structure Judgment.IsSimple (j : Judgment) : Prop where
  context : j.context.IsSimple
  term : j.term.IsPlain
  ty : j.ty.isSimple

theorem Ty.ne_all_of_isSimple {ty : Ty} (h : ty.isSimple) (x : String) (a : Ty) : ty ≠ .all x a := by
  rintro rfl
  simp at h

theorem Subst.Solves.without_nil {P : (String → Ty) → Prop} {s : Subst} (h : s.Solves P) :
    (s.without []).Solves P := by
  refine ⟨h.isSimple.without [], h.solved.without [], fun θ hθ => ?_⟩
  rw [← h.models_iff θ hθ]
  constructor
  · intro hmodels b hb
    have himage := h.solved.models_mapNames θ b hb
    simp only [hmodels.of_without (List.not_mem_nil)] at himage
    exact himage
  · intro hmodels b hb
    obtain ⟨x, -, rfl⟩ := List.mem_map.mp hb
    exact (hmodels.image_mapNames x).symm

namespace Rule

variable {Γ : Context} {pos : Text.Position} {x : String} {annot : Option Ty} {e t : Term}
  {j j' : Judgment}

theorem exists_cons_of_shape_abs (h : Shape Γ .abs (.abs pos x annot t) [j]) :
    ∃ y a Δ, j.context = ⟨y, .var a⟩ :: Δ := by
  obtain ⟨Γ', t', b⟩ := j
  cases Γ' with
  | nil => exact h.elim
  | cons e Δ =>
    obtain ⟨y, b⟩ := e
    cases b with
    | var a => exact ⟨y, a, Δ, rfl⟩
    | _ => exact h.elim

theorem exists_cons_of_shape_letIn (h : Shape Γ .letIn (.letIn pos x e t) [j', j]) :
    ∃ y a Δ, j.context = ⟨y, .var a⟩ :: Δ := by
  obtain ⟨Γ', t', b⟩ := j
  cases Γ' with
  | nil => exact h.elim
  | cons e Δ =>
    obtain ⟨y, b⟩ := e
    cases b with
    | var a => exact ⟨y, a, Δ, rfl⟩
    | _ => exact h.elim

end Rule

namespace Conclusion

open Rule (Shape Equations)

section SimplyTyped

variable {κ : Calculus} {Γ : Context} {ty : Ty} {σ : NameSupply} {pos : Text.Position} {x : String}
  {ps : List Premise}

/-- The rule holds under the map, and so do the substitutions of its premises. -/
def Holds (Γ : Context) (r : Rule) (t : Term) (ty : Ty) (ps : List Premise) (θ : String → Ty) : Prop :=
  Shape Γ r t (ps.map (·.judgment)) ∧ Equations θ Γ ty r t (ps.map (·.judgment)) ∧
    ∀ p ∈ ps, p.subst.Models θ

/-- In Hindley-Milner a simple type is opened with no names, so none is forgotten. -/
theorem decides_check_var (hκ : κ ≠ .systemF) (hΓ : Γ.IsSimple) (hty : ty.isSimple) {i n : Nat} :
    Decides (Holds Γ .var (.var pos i n) ty []) (checkVar ⟨κ, Γ⟩ i ty ⟨σ, []⟩) := by
  unfold checkVar
  cases hi : Γ.getType? i with
  | none =>
    rintro θ _ ⟨⟨a, ha⟩, -⟩
    rw [hi] at ha
    cases ha
  | some a =>
    have ha := hΓ i a hi
    have hunify : Decides (Holds Γ .var (.var pos i n) ty []) (unify ⟨κ, Γ⟩ a ty ⟨σ, []⟩) := by
      refine (decides_unify (c := ⟨κ, Γ⟩) (k := ⟨σ, []⟩) hκ Subst.solves_nil ha hty).congr fun θ _ => ?_
      simp [Holds, Shape, Equations, hi]
    cases κ with
    | systemF => exact absurd rfl hκ
    | simplyTyped => exact hunify
    | hindleyMilner =>
      simp only [NameSupply.openAll_of_not_all (Ty.ne_all_of_isSimple ha)]
      exact hunify.bind (fun k hk => hk.without_nil) fun _ h => h

theorem decides_check_abs (hκ : κ ≠ .systemF) (hΓ : Γ.IsSimple) (hty : ty.isSimple)
    {annot : Option Ty} {t : Term} (ht : (Term.abs pos x annot t).IsPlain) {p : Premise}
    (hj : p.judgment.IsSimple) (hs : p.subst.IsSimple) :
    Decides (Holds Γ .abs (.abs pos x annot t) ty [p]) (checkAbs ⟨κ, Γ⟩ annot t ty p ⟨σ, []⟩) := by
  by_cases hext : ∃ y a Δ, p.judgment.context = ⟨y, .var a⟩ :: Δ
  · obtain ⟨⟨Γ', t', b⟩, s⟩ := p
    obtain ⟨y, a, Δ, rfl⟩ := hext
    obtain ⟨ha, hΔ⟩ := hj.context.of_cons
    have h := decides_checkAbs (c := ⟨κ, Γ⟩) (k := ⟨σ, []⟩) hκ Subst.solves_nil annot t rfl
      (hΔ.comparable hΓ) ha ht.1 ⟨hj.ty, hs⟩ hty
    refine h.congr fun θ _ => ?_
    simp only [Holds, Shape, Equations, List.map_cons, List.map_nil, List.forall_mem_singleton]
    tauto
  · obtain ⟨e, he⟩ := checkAbs_eq_error (c := ⟨κ, Γ⟩) (k := ⟨σ, []⟩) annot t ty
      fun y a Δ h => hext ⟨y, a, Δ, h⟩
    rw [he]
    exact fun θ _ h => hext (Rule.exists_cons_of_shape_abs h.1)

theorem decides_check_letIn (hΓ : Γ.IsSimple) (hty : ty.isSimple) {e t : Term} {p q : Premise}
    (hp : p.judgment.IsSimple) (hps : p.subst.IsSimple) (hq : q.judgment.IsSimple)
    (hqs : q.subst.IsSimple) :
    Decides (Holds Γ .letIn (.letIn pos x e t) ty [p, q])
      (checkLet ⟨.simplyTyped, Γ⟩ e t ty p q ⟨σ, []⟩) := by
  by_cases hext : ∃ y a Δ, q.judgment.context = ⟨y, .var a⟩ :: Δ
  · obtain ⟨⟨Γ', t', b⟩, s⟩ := q
    obtain ⟨y, a, Δ, rfl⟩ := hext
    obtain ⟨ha, hΔ⟩ := hq.context.of_cons
    have h := decides_checkLet (c := ⟨.simplyTyped, Γ⟩) (k := ⟨σ, []⟩) (e := e) (t := t) rfl
      Subst.solves_nil (hp.context.comparable hΓ) rfl (hΔ.comparable hΓ) ha ⟨hp.ty, hps⟩ ⟨hq.ty, hqs⟩
      hty
    refine h.congr fun θ _ => ?_
    simp only [Holds, Shape, Equations, PremisesMatch, List.map_cons, List.map_nil,
      List.forall_mem_cons]
    tauto
  · obtain ⟨err, he⟩ := checkLet_eq_error (c := ⟨.simplyTyped, Γ⟩) (k := ⟨σ, []⟩) e t ty p
      fun y a Δ h => hext ⟨y, a, Δ, h⟩
    rw [he]
    exact fun θ _ h => hext (Rule.exists_cons_of_shape_letIn h.1)

theorem decides_check_app (hκ : κ ≠ .systemF) (hΓ : Γ.IsSimple) (hty : ty.isSimple) {t u : Term}
    {p q : Premise} (hp : p.judgment.IsSimple) (hps : p.subst.IsSimple) (hq : q.judgment.IsSimple)
    (hqs : q.subst.IsSimple) :
    Decides (Holds Γ .app (.app pos t u) ty [p, q]) (checkApp ⟨κ, Γ⟩ t u ty p q ⟨σ, []⟩) := by
  have h := decides_checkApp (c := ⟨κ, Γ⟩) (k := ⟨σ, []⟩) (t := t) (u := u) hκ Subst.solves_nil
    (by simp [hp.context.comparable hΓ, hq.context.comparable hΓ]) ⟨hp.ty, hps⟩ ⟨hq.ty, hqs⟩ hty
  refine h.congr fun θ _ => ?_
  simp only [Holds, Shape, Equations, PremisesMatch, List.map_cons, List.map_nil,
    List.forall_mem_cons]
  tauto

theorem decides_check_ite (hκ : κ ≠ .systemF) (hΓ : Γ.IsSimple) (hty : ty.isSimple) {i t e : Term}
    {p q r : Premise} (hp : p.judgment.IsSimple) (hps : p.subst.IsSimple) (hq : q.judgment.IsSimple)
    (hqs : q.subst.IsSimple) (hr : r.judgment.IsSimple) (hrs : r.subst.IsSimple) :
    Decides (Holds Γ .ite (.ite pos i t e) ty [p, q, r])
      (checkIte ⟨κ, Γ⟩ i t e ty p q r ⟨σ, []⟩) := by
  have h := decides_checkIte (c := ⟨κ, Γ⟩) (k := ⟨σ, []⟩) (i := i) (t := t) (e := e) hκ
    Subst.solves_nil
    (by simp [hp.context.comparable hΓ, hq.context.comparable hΓ, hr.context.comparable hΓ])
    ⟨hp.ty, hps⟩ ⟨hq.ty, hqs⟩ ⟨hr.ty, hrs⟩ hty
  refine h.congr fun θ _ => ?_
  simp only [Holds, Shape, Equations, PremisesMatch, List.map_cons, List.map_nil,
    List.forall_mem_cons]
  tauto

/-- The check of a rule that fits its term and has all its premises. -/
theorem decides_check (hκ : κ ≠ .systemF) (hΓ : Γ.IsSimple) (hty : ty.isSimple) {t : Term}
    (ht : t.IsPlain) {r : Rule} (hlet : κ = .simplyTyped ∨ r ≠ .letIn) (hfits : r.fits t = true)
    (harity : ps.length = r.arity) (hps : ∀ p ∈ ps, p.judgment.IsSimple ∧ p.subst.IsSimple) :
    Decides (Holds Γ r t ty ps) (check ⟨κ, Γ⟩ r t ty ps ⟨σ, []⟩) := by
  cases r with
  | none => cases t <;> simp [Rule.fits] at hfits
  | var =>
    obtain rfl := List.length_eq_zero_iff.mp harity
    cases t with
    | var p i n => exact decides_check_var hκ hΓ hty
    | _ => simp [Rule.fits] at hfits
  | abs =>
    obtain ⟨p, rfl⟩ := List.length_eq_one_iff.mp harity
    simp only [List.forall_mem_singleton] at hps
    cases t with
    | abs pos x annot t => exact decides_check_abs hκ hΓ hty ht hps.1 hps.2
    | _ => simp [Rule.fits] at hfits
  | app =>
    obtain ⟨p, q, rfl⟩ := List.length_eq_two.mp harity
    simp only [List.forall_mem_cons] at hps
    cases t with
    | app pos t u => exact decides_check_app hκ hΓ hty hps.1.1 hps.1.2 hps.2.1.1 hps.2.1.2
    | _ => simp [Rule.fits] at hfits
  | ite =>
    obtain ⟨p, q, r, rfl⟩ := List.length_eq_three.mp harity
    simp only [List.forall_mem_cons] at hps
    cases t with
    | ite pos i t e =>
      exact decides_check_ite hκ hΓ hty hps.1.1 hps.1.2 hps.2.1.1 hps.2.1.2 hps.2.2.1.1 hps.2.2.1.2
    | _ => simp [Rule.fits] at hfits
  | letIn =>
    obtain rfl := hlet.resolve_right (by simp)
    obtain ⟨p, q, rfl⟩ := List.length_eq_two.mp harity
    simp only [List.forall_mem_cons] at hps
    cases t with
    | letIn pos x e t => exact decides_check_letIn hΓ hty hps.1.1 hps.1.2 hps.2.1.1 hps.2.1.2
    | _ => simp [Rule.fits] at hfits
  | tyAbs =>
    cases t with
    | tyAbs pos x t => exact ht.elim
    | _ => simp [Rule.fits] at hfits
  | tyApp =>
    cases t with
    | tyApp pos t ty => exact ht.elim
    | _ => simp [Rule.fits] at hfits
  | constTrue =>
    obtain rfl := List.length_eq_zero_iff.mp harity
    cases t with
    | const pos b =>
      refine (decides_checkConst (c := ⟨κ, Γ⟩) (k := ⟨σ, []⟩) hκ Subst.solves_nil hty).congr fun θ _ => ?_
      simp [Holds, Shape, Equations]
    | _ => simp [Rule.fits] at hfits
  | constFalse =>
    obtain rfl := List.length_eq_zero_iff.mp harity
    cases t with
    | const pos b =>
      refine (decides_checkConst (c := ⟨κ, Γ⟩) (k := ⟨σ, []⟩) hκ Subst.solves_nil hty).congr fun θ _ => ?_
      simp [Holds, Shape, Equations]
    | _ => simp [Rule.fits] at hfits

end SimplyTyped

end Conclusion

namespace Calculus

variable {k : Calculus}

theorem admitsType_of_simplyTyped {ty : Ty} (h : simplyTyped.admitsType ty = .ok ()) :
    k.admitsType ty = .ok () := by
  have hmono : ty.isMono = true := need_eq_ok.mp h
  cases k with
  | simplyTyped => exact h
  | hindleyMilner =>
    refine need_eq_ok.mpr ?_
    cases ty <;> simp_all [Ty.isMono, Ty.isPrenex]
  | systemF => rfl

theorem admitsTerm_of_simplyTyped {t : Term} (h : simplyTyped.admitsTerm t = .ok ()) :
    k.admitsTerm t = .ok () := by
  induction t with
  | var | const => rfl
  | abs p x annot t ih =>
    cases annot with
    | none =>
      obtain ⟨_, hneed, -⟩ := bind_eq_ok_iff.mp h
      simp [need] at hneed
    | some ty =>
      obtain ⟨_, hannot, hbody⟩ := bind_eq_ok_iff.mp h
      refine bind_eq_ok_iff.mpr ⟨(), ?_, ih hbody⟩
      cases k with
      | simplyTyped => exact hannot
      | hindleyMilner => exact need_eq_ok.mpr (need_eq_ok.mp hannot)
      | systemF => rfl
  | app p t u iht ihu =>
    obtain ⟨_, ht, hu⟩ := bind_eq_ok_iff.mp h
    exact bind_eq_ok_iff.mpr ⟨(), iht ht, ihu hu⟩
  | ite p c t e ihc iht ihe =>
    obtain ⟨_, hc, h⟩ := bind_eq_ok_iff.mp h
    obtain ⟨_, ht, he⟩ := bind_eq_ok_iff.mp h
    exact bind_eq_ok_iff.mpr ⟨(), ihc hc, bind_eq_ok_iff.mpr ⟨(), iht ht, ihe he⟩⟩
  | letIn p x e t ihe iht =>
    obtain ⟨_, he, ht⟩ := bind_eq_ok_iff.mp h
    exact bind_eq_ok_iff.mpr ⟨(), ihe he, iht ht⟩
  | tyAbs p x t ih =>
    obtain ⟨_, hneed, -⟩ := bind_eq_ok_iff.mp h
    simp [need] at hneed
  | tyApp p t ty ih =>
    obtain ⟨_, hneed, -⟩ := bind_eq_ok_iff.mp h
    simp [need] at hneed

theorem admitsContext_of_simplyTyped {Γ : Context} (h : simplyTyped.admitsContext Γ = .ok ()) :
    k.admitsContext Γ = .ok () := by
  induction Γ with
  | nil => rfl
  | cons e Γ ih =>
    obtain ⟨x, b⟩ := e
    obtain ⟨_, hbinding, hrest⟩ := bind_eq_ok_iff.mp h
    refine bind_eq_ok_iff.mpr ⟨(), ?_, ih hrest⟩
    cases b with
    | name => rfl
    | var ty => exact admitsType_of_simplyTyped hbinding
    | tyVar => simp [admitsBinding, need] at hbinding

end Calculus

/-- What the simply typed calculus admits, all calculi admit. -/
theorem Judgment.Admitted.of_simplyTyped {j : Judgment} (h : j.Admitted .simplyTyped) (k : Calculus) :
    j.Admitted k :=
  ⟨Calculus.admitsContext_of_simplyTyped h.context, Calculus.admitsTerm_of_simplyTyped h.term,
    Calculus.admitsType_of_simplyTyped h.ty⟩

theorem Context.isSimple_of_admitsContext {Γ : Context} (hΓ : Γ.IsResolved)
    (h : Calculus.simplyTyped.admitsContext Γ = .ok ()) : Γ.IsSimple := by
  intro i a ha
  refine getType?_induction (motive := fun Γ a => Γ.IsResolved →
    Calculus.simplyTyped.admitsContext Γ = .ok () → a.isSimple) ?_ ?_ ha hΓ h
  · intro x a Γ hΓ h
    obtain ⟨_, hbinding, hrest⟩ := bind_eq_ok_iff.mp h
    obtain ⟨u, rfl⟩ := hΓ.1 a rfl
    have hsimple := Ty.isSimple_of_isMono (Calculus.need_eq_ok.mp hbinding)
      ((typesBelow_ofContext (by simp) hrest).varsBelow_resolve u)
    rwa [Ty.shift_of_isSimple _ hsimple]
  · intro e Γ a ih hΓ h
    obtain ⟨_, -, hrest⟩ := bind_eq_ok_iff.mp h
    have hsimple := ih hΓ.2 hrest
    rwa [Ty.shift_of_isSimple _ hsimple]

namespace RuleTree

/-- The fields can be read and are admitted, the rule fits the term and has its number of premises,
and the premises are of the forms that it demands. -/
def IsProper (k : Calculus) (n : RuleTree) : Prop :=
  ∃ j js, n.judgment? = some j ∧ n.children.map judgment? = js.map some ∧ j.Admitted k ∧
    n.rule.fits j.term = true ∧ n.rule.arity = n.children.length ∧
    n.rule.Shape j.context j.term js

/-- The map satisfies the equations of the rule at the root. -/
def SolvedBy (θ : String → Ty) (n : RuleTree) : Prop :=
  ∀ j js, n.judgment? = some j → n.children.map judgment? = js.map some →
    n.rule.Equations θ j.context j.ty j.term js

/-- All nodes are proper and the map satisfies the equations of all of them. -/
def Solution (t : RuleTree) (θ : String → Ty) : Prop :=
  ∀ n, t.HasNode n → n.IsProper .simplyTyped ∧ n.SolvedBy θ

theorem isSimple_of_admitted {t : RuleTree} {j : Judgment} (hj : t.judgment? = some j)
    (h : j.Admitted .simplyTyped) : j.IsSimple := by
  obtain ⟨hΓ, ht, hty⟩ :=
    Fields.judgment_parse_eq_ok_iff.mp (Fields.judgment?_eq_some_iff.mp hj)
  refine ⟨Context.isSimple_of_admitsContext (Context.isResolved_of_parse hΓ) h.context,
    Term.isPlain_of_parse (by simp) h.context ht h.term, ?_⟩
  exact Ty.isSimple_of_isMono (Calculus.need_eq_ok.mp h.ty)
    (Ty.varsBelow_of_parse (by simp) h.context hty)

/-- The calculus has the rules of the tree in common with the simply typed calculus. -/
def HasSimpleRules (κ : Calculus) (t : RuleTree) : Prop :=
  κ = .simplyTyped ∨ κ = .hindleyMilner ∧ ∀ n, t.HasNode n → n.rule ≠ .letIn ∧
    ∀ j, n.judgment? = some j → j.Admitted .simplyTyped

namespace HasSimpleRules

variable {κ : Calculus} {t : RuleTree}

theorem ne_systemF (h : t.HasSimpleRules κ) : κ ≠ .systemF := by
  rcases h with rfl | ⟨rfl, -⟩ <;> simp

theorem child (h : t.HasSimpleRules κ) {c : RuleTree} (hc : c ∈ t.children) : c.HasSimpleRules κ :=
  h.imp_right fun h => ⟨h.1, fun n hn => h.2 n (.child hc hn)⟩

theorem ne_letIn (h : t.HasSimpleRules κ) : κ = .simplyTyped ∨ t.rule ≠ .letIn :=
  h.imp_right fun h => (h.2 t (.root t)).1

theorem admitted_iff (h : t.HasSimpleRules κ) {j : Judgment} (hj : t.judgment? = some j) :
    j.Admitted κ ↔ j.Admitted .simplyTyped := by
  rcases h with rfl | ⟨-, h⟩
  · rfl
  · exact iff_of_true (((h t (.root t)).2 j hj).of_simplyTyped κ) ((h t (.root t)).2 j hj)

end HasSimpleRules

/-- A child of a node and the premise that it is. -/
structure IsPremise (κ : Calculus) (c : RuleTree) (p : Premise) : Prop where
  judgment? : c.judgment? = some p.judgment
  asPremise : (c.check κ).asPremise = (some p.judgment, p.subst)
  isSimple : p.judgment.IsSimple
  solves : p.subst.Solves c.Solution

/-- What the substitution of the root of a valid tree says. -/
def Exact (κ : Calculus) (t : RuleTree) : Prop :=
  ∀ s, (t.check κ).isValid = true → (t.check κ).outcome = .ok s → s.Solves t.Solution

section Premises

variable {κ : Calculus} {t : RuleTree} {j : Judgment} {cs : List RuleTree} {ps : List Premise}

theorem exists_premises (hexact : ∀ c ∈ cs, c.Exact κ) (hrules : ∀ c ∈ cs, c.HasSimpleRules κ)
    (h : ∀ c ∈ cs, (c.check κ).isValid = true) : ∃ ps, List.Forall₂ (IsPremise κ) cs ps := by
  induction cs with
  | nil => exact ⟨[], .nil⟩
  | cons c cs ih =>
    rw [List.forall_mem_cons] at hexact hrules h
    obtain ⟨ps, hps⟩ := ih hexact.2 hrules.2 h.2
    obtain ⟨p, hj, hs, has⟩ := exists_asPremise h.1
    obtain ⟨j, hj', hadmitted, -⟩ := isValid_check_iff.mp ⟨h.1, hs⟩
    obtain rfl : p.judgment = j := by rw [hj] at hj'; exact Option.some.inj hj'
    rw [hrules.1.admitted_iff hj] at hadmitted
    exact ⟨p :: ps, .cons ⟨hj, has, isSimple_of_admitted hj hadmitted, hexact.1 p.subst h.1 hs⟩ hps⟩

theorem map_judgment?_of_forall₂ (h : List.Forall₂ (IsPremise κ) cs ps) :
    cs.map judgment? = (ps.map (·.judgment)).map some := by
  induction h with
  | nil => rfl
  | cons hp _ ih => simp [hp.judgment?, ih]

theorem map_asPremise_of_forall₂ (h : List.Forall₂ (IsPremise κ) cs ps) :
    cs.map (fun c => (c.check κ).asPremise) = ps.map fun p => (some p.judgment, p.subst) := by
  induction h with
  | nil => rfl
  | cons hp _ ih => simp [hp.asPremise, ih]

theorem forall_models_iff (h : List.Forall₂ (IsPremise κ) cs ps) {θ : String → Ty}
    (hθ : IsSimpleMap θ) : (∀ p ∈ ps, p.subst.Models θ) ↔ ∀ c ∈ cs, c.Solution θ := by
  induction h with
  | nil => simp
  | cons hp _ ih => simp [hp.solves.models_iff θ hθ, ih]

theorem forall_isSimple (h : List.Forall₂ (IsPremise κ) cs ps) :
    ∀ p ∈ ps, p.judgment.IsSimple ∧ p.subst.IsSimple := by
  induction h with
  | nil => simp
  | cons hp _ ih => simpa using ⟨⟨hp.isSimple, hp.solves.isSimple⟩, by simpa using ih⟩

/-- The rule at the root and the substitutions of the premises say what all nodes say. -/
theorem holds_iff_solution (hj : t.judgment? = some j) (hadmitted : j.Admitted .simplyTyped)
    (hfits : t.rule.fits j.term = true) (harity : t.rule.arity = t.children.length)
    (hps : List.Forall₂ (IsPremise κ) t.children ps) {θ : String → Ty} (hθ : IsSimpleMap θ) :
    Conclusion.Holds j.context t.rule j.term j.ty ps θ ↔ t.Solution θ := by
  have hmap := map_judgment?_of_forall₂ hps
  have hroot : t.IsProper .simplyTyped ∧ t.SolvedBy θ ↔
      t.rule.Shape j.context j.term (ps.map (·.judgment)) ∧
        t.rule.Equations θ j.context j.ty j.term (ps.map (·.judgment)) := by
    constructor
    · rintro ⟨⟨j', js, hj', hjs, -, -, -, hshape⟩, hsolved⟩
      rw [hj] at hj'
      cases hj'
      rw [hmap, List.map_inj_right fun _ _ => Option.some.inj] at hjs
      subst hjs
      exact ⟨hshape, hsolved j _ hj hmap⟩
    · rintro ⟨hshape, hequations⟩
      refine ⟨⟨j, _, hj, hmap, hadmitted, hfits, harity, hshape⟩, fun j' js hj' hjs => ?_⟩
      rw [hj] at hj'
      cases hj'
      rw [hmap, List.map_inj_right fun _ _ => Option.some.inj] at hjs
      subst hjs
      exact hequations
  rw [Solution, forall_hasNode_iff, hroot, Conclusion.Holds, forall_models_iff hps hθ, and_assoc]
  rfl

end Premises

/-- The substitution of a valid tree solves its equations. -/
theorem exact_of_hasSimpleRules {κ : Calculus} (t : RuleTree) (h : t.HasSimpleRules κ) :
    t.Exact κ := by
  induction t using RuleTree.induction with
  | node t ih =>
    intro s hvalid hs
    obtain ⟨j, hj, hadmitted, hrule, hchildren⟩ := isValid_check_iff.mp ⟨hvalid, hs⟩
    obtain ⟨hfits, harity, ps', hps', σ, hcheck⟩ := checkRule_eq_ok_iff.mp hrule
    obtain ⟨ps, hps⟩ := exists_premises (fun c hc => ih c hc (h.child hc)) (fun _ hc => h.child hc)
      hchildren
    rw [List.length_map] at harity
    obtain rfl : ps = ps' := by
      rw [map_asPremise_of_forall₂ hps] at hps'
      refine (List.map_inj_right fun p q hpq => ?_).mp hps'
      obtain ⟨j₁, s₁⟩ := p
      obtain ⟨j₂, s₂⟩ := q
      simpa using hpq
    rw [h.admitted_iff hj] at hadmitted
    have hsimple := isSimple_of_admitted hj hadmitted
    have hdecides := Conclusion.decides_check (σ := .avoiding (namesInUse j ps)) h.ne_systemF
      hsimple.context hsimple.ty hsimple.term h.ne_letIn hfits
      (hps.length_eq.symm.trans harity.symm) (forall_isSimple hps)
    rw [hcheck] at hdecides
    exact Subst.Solves.congr hdecides fun θ hθ => holds_iff_solution hj hadmitted hfits harity hps hθ

/-- A tree whose equations have a solution is valid. -/
theorem isValid_of_hasSimpleRules {κ : Calculus} {θ : String → Ty} (hθ : IsSimpleMap θ) (t : RuleTree)
    (hrules : t.HasSimpleRules κ) (h : t.Solution θ) : (t.check κ).isValid = true := by
  induction t using RuleTree.induction with
  | node t ih =>
    obtain ⟨⟨⟨j, js, hj, hjs, hadmitted, hfits, harity, hshape⟩, hsolved⟩, hbelow⟩ :=
      forall_hasNode_iff.mp h
    have hchildren : ∀ c ∈ t.children, (c.check κ).isValid = true :=
      fun c hc => ih c hc (hrules.child hc) (hbelow c hc)
    obtain ⟨ps, hps⟩ := exists_premises (fun c hc => c.exact_of_hasSimpleRules (hrules.child hc))
      (fun _ hc => hrules.child hc) hchildren
    have hsimple := isSimple_of_admitted hj hadmitted
    have hdecides := Conclusion.decides_check (σ := .avoiding (namesInUse j ps)) hrules.ne_systemF
      hsimple.context hsimple.ty hsimple.term hrules.ne_letIn hfits
      (hps.length_eq.symm.trans harity.symm) (forall_isSimple hps)
    cases hcheck : Conclusion.check ⟨κ, j.context⟩ t.rule j.term j.ty ps
        ⟨.avoiding (namesInUse j ps), []⟩ with
    | error e =>
      rw [hcheck] at hdecides
      exact absurd ((holds_iff_solution hj hadmitted hfits harity hps hθ).mpr h) (hdecides θ hθ)
    | ok k =>
      obtain ⟨σ, s⟩ := k
      have hrule := checkRule_eq_ok_iff.mpr ⟨hfits, by rw [List.length_map]; exact harity, ps,
        map_asPremise_of_forall₂ hps, σ, hcheck⟩
      rw [← hrules.admitted_iff hj] at hadmitted
      exact (isValid_check_iff.mpr ⟨j, hj, hadmitted, hrule, hchildren⟩).1

theorem exact (t : RuleTree) : t.Exact .simplyTyped := t.exact_of_hasSimpleRules (.inl rfl)

theorem isValid_of_solution {θ : String → Ty} (hθ : IsSimpleMap θ) (t : RuleTree)
    (h : t.Solution θ) : (t.check .simplyTyped).isValid = true :=
  isValid_of_hasSimpleRules hθ t (.inl rfl) h

end RuleTree

/-- A premise gives a derivation for the term of the conclusion in the context of the conclusion. -/
theorem SimplyTyped.of_premise {θ : String → Ty} (hθ : IsSimpleMap θ) {Γ Δ : Context} {t u : Term}
    {a : Ty} (h : SimplyTyped (Δ.mapNames θ) (u.mapNames θ) a) (hkinds : Δ.SameKinds Γ)
    (hequal : Δ.EqualUnder θ Γ) (hΔ : Δ.IsSimple) (hΓ : Γ.IsSimple) (halpha : u.alphaEq t)
    (hu : u.WellScoped Δ.length) (ht : t.WellScoped Γ.length) (hplain : t.IsPlain) :
    SimplyTyped (Γ.mapNames θ) (t.mapNames θ) a := by
  rw [hkinds.length_eq] at hu
  refine h.of_erase_eq (fun i b hb => ?_)
    (Term.erase_mapNames_eq ((Term.alphaEq_iff_erase hu ht).mp halpha) θ) (hplain.mapNames hθ)
  rw [Context.getType?_mapNames hθ, Option.map_eq_some_iff] at hb ⊢
  obtain ⟨b, hb, rfl⟩ := hb
  obtain ⟨c, hc⟩ := hkinds.exists_getType? hb
  refine ⟨c, hc, ?_⟩
  exact ((unifies_iff_of_isSimple hθ (hΔ i b hb) (hΓ i c hc)).mp (hequal i b c hb hc)).symm

theorem Context.IsSimple.cons {Γ : Context} (h : Γ.IsSimple) (x : String) {a : Ty}
    (ha : a.isSimple) : Context.IsSimple (⟨x, .var a⟩ :: Γ) := by
  intro i b hb
  cases i with
  | zero =>
    cases hb
    rwa [Ty.shift_of_isSimple _ ha]
  | succ i =>
    rw [Context.getType?_cons_succ, Option.map_eq_some_iff] at hb
    obtain ⟨b, hb, rfl⟩ := hb
    have hsimple := h i b hb
    rwa [Ty.shift_of_isSimple _ hsimple]

namespace RuleTree

/-- A judgment that is derivable under a map, and what is known of it from reading it. -/
structure Typed (θ : String → Ty) (j : Judgment) : Prop where
  isSimple : j.IsSimple
  wellScoped : j.term.WellScoped j.context.length
  derivation : SimplyTyped (j.context.mapNames θ) (j.term.mapNames θ) (j.ty.mapNames θ)

section Rules

variable {θ : String → Ty} {Γ Δ : Context} {ty a b : Ty} {t t' : Term}

/-- A premise in the context of the conclusion. -/
theorem Typed.same (hθ : IsSimpleMap θ) {j : Judgment} (h : Typed θ j)
    (hshape : j.context.SameKinds Γ ∧ j.term.alphaEq t) (hequal : j.context.EqualUnder θ Γ)
    (hΓ : Γ.IsSimple) (ht : t.WellScoped Γ.length) (hplain : t.IsPlain) :
    SimplyTyped (Γ.mapNames θ) (t.mapNames θ) (j.ty.mapNames θ) :=
  h.derivation.of_premise hθ hshape.1 hequal h.isSimple.context hΓ hshape.2 h.wellScoped ht hplain

/-- A premise with one more variable, of which the conclusion knows the type. -/
theorem Typed.extended (hθ : IsSimpleMap θ) {x y : String} {a' : Ty}
    (h : Typed θ ⟨⟨y, .var a⟩ :: Δ, t', b⟩) (hshape : Context.SameKinds Δ Γ ∧ t'.alphaEq t)
    (hequal : Context.EqualUnder θ Δ Γ) (hΓ : Γ.IsSimple) (ht : t.WellScoped (Γ.length + 1))
    (hplain : t.IsPlain) (ha' : a'.isSimple) (haa' : a.mapNames θ = a'.mapNames θ) :
    SimplyTyped (⟨x, .var (a'.mapNames θ)⟩ :: Γ.mapNames θ) (t.mapNames θ)
      ((b.shift (-1)).mapNames θ) := by
  have ha := h.isSimple.context.of_cons.1
  rw [Ty.shift_of_isSimple _ h.isSimple.ty]
  exact h.derivation.of_premise hθ (hshape.1.cons_var y x a a')
    (hequal.cons hθ y x ((unifies_iff_of_isSimple hθ ha ha').mpr haa')) h.isSimple.context
    (hΓ.cons x ha') hshape.2 h.wellScoped ht hplain

/-- A rule that holds under a map derives its conclusion there from its premises. -/
theorem simplyTyped_of_rule (hθ : IsSimpleMap θ) (hΓ : Γ.IsSimple) (hscoped : t.WellScoped Γ.length)
    (hplain : t.IsPlain) (hadmitted : Calculus.simplyTyped.admitsTerm t = .ok ()) {r : Rule}
    {js : List Judgment} (hshape : r.Shape Γ t js) (hequations : r.Equations θ Γ ty t js)
    (hjs : ∀ j ∈ js, Typed θ j) : SimplyTyped (Γ.mapNames θ) (t.mapNames θ) (ty.mapNames θ) := by
  unfold Rule.Shape at hshape
  split at hshape
  case h_1 =>
    obtain ⟨a, ha⟩ := hshape
    rw [← hequations a ha]
    exact .var (by rw [Context.getType?_mapNames hθ, ha]; rfl)
  case h_2 pos x annot t y a Δ t' b =>
    cases annot with
    | none =>
      obtain ⟨_, hneed, -⟩ := bind_eq_ok_iff.mp hadmitted
      simpa using Calculus.need_eq_ok.mp hneed
    | some a' =>
      obtain ⟨hequal, hannot, hty⟩ := hequations
      have ha' := hplain.1 a' rfl
      rw [hty, Term.mapNames_abs hθ, Ty.mapNames_arr, ← hannot a' rfl]
      refine .abs (Ty.isSimple_mapNames hθ ha') ?_
      exact (List.forall_mem_singleton.mp hjs).extended hθ hshape hequal hΓ hscoped.2 hplain.2 ha'
        (hannot a' rfl).symm
  case h_3 pos t u p q =>
    obtain ⟨⟨hp, hq⟩, hty⟩ := hequations
    have ht := (hjs p (by simp)).same hθ hshape.1 hp hΓ hscoped.1 hplain.1
    have hu := (hjs q (by simp)).same hθ hshape.2 hq hΓ hscoped.2 hplain.2
    rw [hty] at ht
    exact .app ht hu
  case h_4 pos c t e p q r =>
    obtain ⟨⟨hp, hq, hr⟩, hcond, hthen, helse⟩ := hequations
    have hc := (hjs p (by simp)).same hθ hshape.1 hp hΓ hscoped.1 hplain.1
    have ht := (hjs q (by simp)).same hθ hshape.2.1 hq hΓ hscoped.2.1 hplain.2.1
    have he := (hjs r (by simp)).same hθ hshape.2.2 hr hΓ hscoped.2.2 hplain.2.2
    rw [hcond] at hc
    rw [hthen] at ht
    rw [helse] at he
    exact .ite hc ht he
  case h_5 pos x e t p y a Δ t' b =>
    obtain ⟨⟨hp, hequal⟩, ha, hty⟩ := hequations
    simp only [List.forall_mem_cons] at hjs
    have he := hjs.1.same hθ hshape.1 hp hΓ hscoped.1 hplain.1
    rw [hty, Term.mapNames_letIn hθ]
    exact .letIn he (hjs.2.1.extended hθ hshape.2 hequal hΓ hscoped.2 hplain.2 hjs.1.isSimple.ty ha)
  case h_6 | h_7 =>
    rw [show ty.mapNames θ = Ty.bool from hequations]
    exact .const
  case h_8 => exact hshape.elim

end Rules

/-- A solution of the equations of a tree derives the judgment of the root. -/
theorem typed_of_solution {θ : String → Ty} (hθ : IsSimpleMap θ) (t : RuleTree) (h : t.Solution θ)
    {j : Judgment} (hj : t.judgment? = some j) : Typed θ j := by
  induction t using RuleTree.induction generalizing j with
  | node t ih =>
    obtain ⟨⟨⟨j', js, hj', hjs, hadmitted, -, -, hshape⟩, hsolved⟩, hbelow⟩ :=
      forall_hasNode_iff.mp h
    obtain rfl : j = j' := by rw [hj] at hj'; exact Option.some.inj hj'
    obtain ⟨hΓ, ht, -⟩ := Fields.judgment_parse_eq_ok_iff.mp (Fields.judgment?_eq_some_iff.mp hj)
    have hsimple := isSimple_of_admitted hj hadmitted
    have hscoped := Term.wellScoped_of_parse ht
    have hpremises : ∀ i ∈ js, Typed θ i := by
      intro i hi
      have hmem : some i ∈ t.children.map judgment? := hjs ▸ List.mem_map_of_mem hi
      obtain ⟨c, hc, hci⟩ := List.mem_map.mp hmem
      exact ih c hc (hbelow c hc) hci
    exact ⟨hsimple, hscoped, simplyTyped_of_rule hθ hsimple.context hscoped hsimple.term
      hadmitted.term hshape (hsolved j js hj hjs) hpremises⟩

theorem solution_iff {t : RuleTree} {θ : String → Ty} : t.Solution θ ↔
    (∀ n, t.HasNode n → n.IsProper .simplyTyped) ∧ ∀ n, t.HasNode n → n.SolvedBy θ :=
  ⟨fun h => ⟨fun n hn => (h n hn).1, fun n hn => (h n hn).2⟩, fun h n hn => ⟨h.1 n hn, h.2 n hn⟩⟩

/-- The substitution of the root of a valid tree is itself a solution. -/
theorem exists_solves_of_isValid {t : RuleTree} (h : (t.check .simplyTyped).isValid = true) :
    ∃ s j, (t.check .simplyTyped).outcome = .ok s ∧ t.judgment? = some j ∧
      s.Solves t.Solution ∧ t.Solution s.image := by
  obtain ⟨p, hj, hs, -⟩ := exists_asPremise h
  have hsolves := t.exact p.subst h hs
  exact ⟨p.subst, p.judgment, hs, hj, hsolves,
    (hsolves.models_iff _ hsolves.isSimple.image).mp hsolves.solved.models⟩

/-- The check is exact. A tree is valid if and only if its nodes are proper and one map of names to
simple types solves the equations of all of them. The substitution of the root of a valid tree is a
most general such map, and the judgment of the root is derivable under it. -/
theorem check_simplyTyped_exact (t : RuleTree) :
    ((t.check .simplyTyped).isValid = true ↔ (∀ n, t.HasNode n → n.IsProper .simplyTyped) ∧
      ∃ θ, IsSimpleMap θ ∧ ∀ n, t.HasNode n → n.SolvedBy θ) ∧
    ((t.check .simplyTyped).isValid = true → ∃ s j Γ,
      (t.check .simplyTyped).outcome = .ok s ∧ t.judgment? = some j ∧ j.context.apply s = .ok Γ ∧
      (IsSimpleMap s.image ∧ ∀ n, t.HasNode n → n.SolvedBy s.image) ∧
      (∀ θ, IsSimpleMap θ → (∀ n, t.HasNode n → n.SolvedBy θ) →
        ∀ a : Ty, a.mapNames θ = (s.apply a).mapNames θ) ∧
      SimplyTyped Γ (j.term.mapNames s.image) (s.apply j.ty)) := by
  refine ⟨⟨fun hvalid => ?_, ?_⟩, fun hvalid => ?_⟩
  · obtain ⟨s, j, -, -, hs, hself⟩ := exists_solves_of_isValid hvalid
    obtain ⟨hproper, hsolved⟩ := solution_iff.mp hself
    exact ⟨hproper, s.image, hs.isSimple.image, hsolved⟩
  · rintro ⟨hproper, θ, hθ, hsolved⟩
    exact isValid_of_solution hθ t (solution_iff.mpr ⟨hproper, hsolved⟩)
  · obtain ⟨s, j, houtcome, hj, hs, hself⟩ := exists_solves_of_isValid hvalid
    obtain ⟨hproper, hsolved⟩ := solution_iff.mp hself
    refine ⟨s, j, _, houtcome, hj, Context.apply_eq_ok _ hs.isSimple,
      ⟨hs.isSimple.image, hsolved⟩, fun θ hθ h a => ?_, ?_⟩
    · have hmodels := (hs.models_iff θ hθ).mpr (solution_iff.mpr ⟨hproper, h⟩)
      exact (hmodels.apply_mapNames a).symm
    · rw [Subst.apply_eq_mapNames]
      exact (typed_of_solution hs.isSimple.image t hself hj).derivation

/-- An application of the identity, with a name for the type at every node. -/
def appliedIdentity : RuleTree :=
  ⟨"y: B", "(λx: A. x) y", "C", .app,
    [⟨"y: B", "λz: A. z", "D", .abs, [⟨"y: E, x: F", "x", "G", .var, []⟩]⟩,
      ⟨"y: H", "y", "I", .var, []⟩]⟩

theorem check_simplyTyped_exact_appliedIdentity :
    (appliedIdentity.check .simplyTyped).isValid = true ∧ ∃ s j Γ,
      (appliedIdentity.check .simplyTyped).outcome = .ok s ∧ appliedIdentity.judgment? = some j ∧
      j.context.apply s = .ok Γ ∧ (∀ n, appliedIdentity.HasNode n → n.SolvedBy s.image) ∧
      SimplyTyped Γ (j.term.mapNames s.image) (s.apply j.ty) := by
  have hvalid : (appliedIdentity.check .simplyTyped).isValid = true := by decide +kernel
  obtain ⟨s, j, Γ, hs, hj, hΓ, hself, -, hderivation⟩ :=
    (check_simplyTyped_exact appliedIdentity).2 hvalid
  exact ⟨hvalid, s, j, Γ, hs, hj, hΓ, hself.2, hderivation⟩

end RuleTree

end LambdaTyping
