import Mathlib
import LambdaTyping.Proofs.Equations

/-!
# The rules and their checks

The table of the rules: what a rule demands of its premises whatever the free
names stand for, and the equations between types that it leaves to be solved.
The check of a rule decides both, together with the substitutions under which
the premises hold.

Quantified types are instantiated at a variable and generalised at `let` in
Hindley-Milner, so these two rules are only stated here for types without
quantifiers.
-/
namespace LambdaTyping

namespace Rule

/-- The premises are as many and of the forms that the rule has for a term in the context `Γ`:
their terms are the parts of the term, and their contexts have bindings of the right kinds. -/
def Shape (Γ : Context) : Rule → Term → List Judgment → Prop
  | .var, .var _ i _, [] => ∃ a, Γ.getType? i = some a
  | .abs, .abs _ _ _ t, [⟨⟨_, .var _⟩ :: Δ, t', _⟩] => Context.SameKinds Δ Γ ∧ t'.alphaEq t
  | .app, .app _ t u, [p, q] =>
    (p.context.SameKinds Γ ∧ p.term.alphaEq t) ∧ q.context.SameKinds Γ ∧ q.term.alphaEq u
  | .ite, .ite _ c t e, [p, q, r] =>
    (p.context.SameKinds Γ ∧ p.term.alphaEq c) ∧ (q.context.SameKinds Γ ∧ q.term.alphaEq t) ∧
      r.context.SameKinds Γ ∧ r.term.alphaEq e
  | .letIn, .letIn _ _ e t, [p, ⟨⟨_, .var _⟩ :: Δ, t', _⟩] =>
    (p.context.SameKinds Γ ∧ p.term.alphaEq e) ∧ Context.SameKinds Δ Γ ∧ t'.alphaEq t
  | .constTrue, .const .., [] | .constFalse, .const .., [] => True
  | _, _, _ => False

/-- The equations of the rule for a term of type `ty` in the context `Γ`, under a map of names.
Types of a premise are taken out of the scope of the variable that its context adds. -/
def Equations (θ : String → Ty) (Γ : Context) (ty : Ty) : Rule → Term → List Judgment → Prop
  | .var, .var _ i _, [] => ∀ a, Γ.getType? i = some a → a.mapNames θ = ty.mapNames θ
  | .abs, .abs _ _ annot _, [⟨⟨_, .var a⟩ :: Δ, _, b⟩] =>
    Context.EqualUnder θ Δ Γ ∧ (∀ a' ∈ annot, a'.mapNames θ = a.mapNames θ) ∧
      ty.mapNames θ = (Ty.arr a (b.shift (-1))).mapNames θ
  | .app, .app .., [p, q] =>
    (p.context.EqualUnder θ Γ ∧ q.context.EqualUnder θ Γ) ∧
      p.ty.mapNames θ = (Ty.arr q.ty ty).mapNames θ
  | .ite, .ite .., [p, q, r] =>
    (p.context.EqualUnder θ Γ ∧ q.context.EqualUnder θ Γ ∧ r.context.EqualUnder θ Γ) ∧
      p.ty.mapNames θ = Ty.bool.mapNames θ ∧ q.ty.mapNames θ = ty.mapNames θ ∧
      r.ty.mapNames θ = ty.mapNames θ
  | .letIn, .letIn .., [p, ⟨⟨_, .var a⟩ :: Δ, _, b⟩] =>
    (p.context.EqualUnder θ Γ ∧ Context.EqualUnder θ Δ Γ) ∧ a.mapNames θ = p.ty.mapNames θ ∧
      ty.mapNames θ = (b.shift (-1)).mapNames θ
  | .constTrue, .const .., [] | .constFalse, .const .., [] => ty.mapNames θ = Ty.bool.mapNames θ
  | _, _, _ => True

/-- Only the names of the judgments matter. -/
theorem Equations.congr {η θ : String → Ty} {r : Rule} {j : Judgment} {js : List Judgment}
    (h : r.Equations θ j.context j.ty j.term js) (hj : ∀ x ∈ j.freeNames, η x = θ x)
    (hjs : ∀ i ∈ js, ∀ x ∈ i.freeNames, η x = θ x) : r.Equations η j.context j.ty j.term js := by
  obtain ⟨Γ, t, ty⟩ := j
  have hcontext : ∀ i : Judgment, (∀ x ∈ i.freeNames, η x = θ x) →
      ∀ x ∈ i.context.freeNames, η x = θ x := fun i hi x hx =>
    hi x (by simp [Judgment.freeNames, hx])
  have htype : ∀ i : Judgment, (∀ x ∈ i.freeNames, η x = θ x) →
      i.ty.mapNames η = i.ty.mapNames θ := fun i hi =>
    Ty.mapNames_congr fun x hx => hi x (by simp [Judgment.freeNames, hx])
  have hΓ := hcontext _ hj
  have hty := htype _ hj
  dsimp only at h hΓ hty ⊢
  unfold Equations at h ⊢
  split
  case h_1 i =>
    intro a ha
    rw [hty, ← h a ha]
    exact Ty.mapNames_congr fun x hx => hΓ x (Context.mem_freeNames_of_getType? ha hx)
  case h_2 pos x annot t y a Δ t' b =>
    obtain ⟨hequal, hannot, heq⟩ := h
    have hp := hjs _ List.mem_cons_self
    have ha : a.mapNames η = a.mapNames θ := Ty.mapNames_congr fun x hx =>
      hcontext _ hp x (List.mem_append_left _ hx)
    have hb : (b.shift (-1)).mapNames η = (b.shift (-1)).mapNames θ := Ty.mapNames_congr fun x hx =>
      hp x (by rw [Ty.freeNames_shift] at hx; simp [Judgment.freeNames, hx])
    refine ⟨hequal.congr (fun x hx => hcontext _ hp x (List.mem_append_right _ hx)) hΓ,
      fun a' ha' => ?_, ?_⟩
    · rw [ha, ← hannot a' ha']
      obtain rfl : annot = some a' := ha'
      exact Ty.mapNames_congr fun x hx => hj x (by simp [Judgment.freeNames, Term.typeNames, hx])
    · rw [hty, heq, Ty.mapNames_arr, Ty.mapNames_arr, ha, hb]
  case h_3 p q =>
    obtain ⟨⟨hp, hq⟩, heq⟩ := h
    simp only [List.forall_mem_cons] at hjs
    refine ⟨⟨hp.congr (hcontext p hjs.1) hΓ, hq.congr (hcontext q hjs.2.1) hΓ⟩, ?_⟩
    rw [Ty.mapNames_arr] at heq ⊢
    rw [htype p hjs.1, htype q hjs.2.1, hty, heq]
  case h_4 p q r =>
    obtain ⟨⟨hp, hq, hr⟩, hpty, hqty, hrty⟩ := h
    simp only [List.forall_mem_cons] at hjs
    refine ⟨⟨hp.congr (hcontext p hjs.1) hΓ, hq.congr (hcontext q hjs.2.1) hΓ,
      hr.congr (hcontext r hjs.2.2.1) hΓ⟩, ?_, ?_, ?_⟩
    · rw [htype p hjs.1, hpty]; rfl
    · rw [htype q hjs.2.1, hqty, hty]
    · rw [htype r hjs.2.2.1, hrty, hty]
  case h_5 pos x e t p y a Δ t' b =>
    obtain ⟨⟨hp, hq⟩, ha, hb⟩ := h
    simp only [List.forall_mem_cons] at hjs
    refine ⟨⟨hp.congr (hcontext p hjs.1) hΓ,
      hq.congr (fun x hx => hcontext _ hjs.2.1 x (List.mem_append_right _ hx)) hΓ⟩, ?_, ?_⟩
    · rw [htype p hjs.1, ← ha]
      exact Ty.mapNames_congr fun x hx => hcontext _ hjs.2.1 x (List.mem_append_left _ hx)
    · rw [hty, hb]
      refine (Ty.mapNames_congr fun x hx => hjs.2.1 x ?_).symm
      rw [Ty.freeNames_shift] at hx
      simp [Judgment.freeNames, hx]
  case h_6 => exact hty.trans h
  case h_7 => exact hty.trans h
  case h_8 => trivial

end Rule

/-- The premises are about the given terms, in a context that the map makes equal to `Γ`. -/
def PremisesMatch (θ : String → Ty) (Γ : Context) : List Premise → List Term → Prop
  | p :: ps, t :: ts =>
    ((p.judgment.context.SameKinds Γ ∧ p.judgment.term.alphaEq t) ∧
      p.judgment.context.EqualUnder θ Γ) ∧ PremisesMatch θ Γ ps ts
  | _, _ => True

/-- The premise has a simple type and holds under a simple substitution. -/
def Premise.IsSimple (p : Premise) : Prop := p.judgment.ty.isSimple ∧ p.subst.IsSimple

variable {P Q : (String → Ty) → Prop}

namespace Conclusion

variable {c : Conclusion} {k : Solution}

theorem decides_samePremises (hc : c.calculus ≠ .systemF) (hk : k.subst.Solves P) (i : Nat)
    {ps : List Premise} {ts : List Term}
    (hps : ∀ p ∈ ps, p.judgment.context.Comparable c.context) :
    Decides (fun θ => P θ ∧ PremisesMatch θ c.context ps ts) (c.samePremises i ps ts k) := by
  induction ps generalizing ts P i k with
  | nil => exact hk.congr fun θ _ => by simp [PremisesMatch]
  | cons p ps ih =>
    cases ts with
    | nil => exact hk.congr fun θ _ => by simp [PremisesMatch]
    | cons t ts =>
      rw [List.forall_mem_cons] at hps
      refine decides_samePremise hc hk i hps.1 (fun k hk => ?_) fun θ h => ⟨h.1, h.2.1⟩
      refine (ih hk (i + 1) hps.2).congr fun θ _ => ?_
      simp only [PremisesMatch]
      tauto

theorem decides_checkConst (hc : c.calculus ≠ .systemF) (hk : k.subst.Solves P) {ty : Ty}
    (hty : ty.isSimple) :
    Decides (fun θ => P θ ∧ ty.mapNames θ = Ty.bool.mapNames θ) (c.unify ty .bool k) :=
  decides_unify hc hk hty rfl

theorem decides_checkApp (hc : c.calculus ≠ .systemF) (hk : k.subst.Solves P) {t u : Term} {ty : Ty}
    {p q : Premise} (hps : ∀ r ∈ [p, q], r.judgment.context.Comparable c.context)
    (hp : p.IsSimple) (hq : q.IsSimple) (hty : ty.isSimple) :
    Decides (fun θ => ((P θ ∧ PremisesMatch θ c.context [p, q] [t, u]) ∧
        ∀ r ∈ [p, q], r.subst.Models θ) ∧
        p.judgment.ty.mapNames θ = (Ty.arr q.judgment.ty ty).mapNames θ)
      (c.checkApp t u ty p q k) := by
  refine (decides_samePremises hc hk 0 hps).bind (fun k hk => ?_) fun θ h => h.1.1
  refine (decides_adoptAll hc hk 0 ?_).bind (fun k hk => ?_) fun θ h => h.1
  · simp [hp.2, hq.2]
  · exact decides_unify hc hk hp.1 ((Ty.isSimple_arr _ _).mpr ⟨hq.1, hty⟩)

theorem decides_checkIte (hc : c.calculus ≠ .systemF) (hk : k.subst.Solves P) {i t e : Term}
    {ty : Ty} {p q r : Premise} (hps : ∀ s ∈ [p, q, r], s.judgment.context.Comparable c.context)
    (hp : p.IsSimple) (hq : q.IsSimple) (hr : r.IsSimple) (hty : ty.isSimple) :
    Decides (fun θ => ((((P θ ∧ PremisesMatch θ c.context [p, q, r] [i, t, e]) ∧
        ∀ s ∈ [p, q, r], s.subst.Models θ) ∧ p.judgment.ty.mapNames θ = Ty.bool.mapNames θ) ∧
        q.judgment.ty.mapNames θ = ty.mapNames θ) ∧ r.judgment.ty.mapNames θ = ty.mapNames θ)
      (c.checkIte i t e ty p q r k) := by
  refine (decides_samePremises hc hk 0 hps).bind (fun k hk => ?_) fun θ h => h.1.1.1.1
  refine (decides_adoptAll hc hk 0 ?_).bind (fun k hk => ?_) fun θ h => h.1.1.1
  · simp [hp.2, hq.2, hr.2]
  refine (decides_unify hc hk hp.1 rfl).bind (fun k hk => ?_) fun θ h => h.1.1
  refine (decides_unify hc hk hq.1 hty).bind (fun k hk => ?_) fun θ h => h.1
  exact decides_unify hc hk hr.1 hty

theorem extended_cons (i : Nat) (e : Entry) (Δ : Context) :
    c.extended i (e :: Δ) k = (c.sameContext i Δ k >>= fun k => .ok (e.binding, k)) := rfl

theorem bind_extended_var {α : Type} (i : Nat) {x : String} {a : Ty} {Δ : Context}
    (f : Binding × Solution → Except RuleError α) :
    (c.extended i (⟨x, .var a⟩ :: Δ) k >>= f) =
      (c.sameContext i Δ k >>= fun k => f (.var a, k)) := by
  rw [extended_cons]
  cases c.sameContext i Δ k <;> rfl

/-- The check of an abstraction up to the type of its conclusion. The context of the premise is
`Δ` with one more variable, of type `a`. -/
def absPremise (c : Conclusion) (annot : Option Ty) (t : Term) (p : Premise) (a : Ty) (Δ : Context)
    (k : Solution) : Except RuleError Solution := do
  let k ← c.sameContext 0 Δ k
  sameTerm 0 p.judgment.term t
  let s ← unbind 0 p.subst
  let k ← c.adopt 0 s k
  match annot with
  | some annot => c.unify annot a k
  | none => .ok k

theorem checkAbs_eq (annot : Option Ty) (t : Term) (ty : Ty) {p : Premise} {x : String} {a : Ty}
    {Δ : Context} (hcontext : p.judgment.context = ⟨x, .var a⟩ :: Δ) :
    c.checkAbs annot t ty p k =
      (c.absPremise annot t p a Δ k >>= c.unify ty (.arr a (p.judgment.ty.shift (-1)))) := by
  rw [checkAbs, hcontext, bind_extended_var]
  unfold absPremise
  cases annot <;> simp only [bind_assoc]

theorem decides_absPremise (hc : c.calculus ≠ .systemF) (hk : k.subst.Solves P) {annot : Option Ty}
    {t : Term} {p : Premise} {a : Ty} {Δ : Context} (hΔ : Context.Comparable Δ c.context)
    (ha : a.isSimple) (hannot : ∀ a' ∈ annot, a'.isSimple) (hp : p.IsSimple) :
    Decides (fun θ => ((P θ ∧ (Context.SameKinds Δ c.context ∧ p.judgment.term.alphaEq t) ∧
        Context.EqualUnder θ Δ c.context) ∧ p.subst.Models θ) ∧
        ∀ a' ∈ annot, a'.mapNames θ = a.mapNames θ)
      (c.absPremise annot t p a Δ k) := by
  refine decides_samePremise hc hk 0 hΔ (fun k hk => ?_) fun θ h => h.1.1
  rw [unbind_of_isSimple 0 hp.2]
  refine (decides_adopt hc hk 0 hp.2).bind (fun k hk => ?_) fun θ h => h.1
  cases annot with
  | none => exact hk.congr fun θ _ => by simp
  | some a' => exact (decides_unify hc hk (hannot a' rfl) ha).congr fun θ _ => by simp

theorem decides_checkAbs (hc : c.calculus ≠ .systemF) (hk : k.subst.Solves P) (annot : Option Ty)
    (t : Term) {ty : Ty} {p : Premise} {x : String} {a : Ty} {Δ : Context}
    (hcontext : p.judgment.context = ⟨x, .var a⟩ :: Δ) (hΔ : Context.Comparable Δ c.context)
    (ha : a.isSimple) (hannot : ∀ a' ∈ annot, a'.isSimple) (hp : p.IsSimple) (hty : ty.isSimple) :
    Decides (fun θ => (((P θ ∧ (Context.SameKinds Δ c.context ∧ p.judgment.term.alphaEq t) ∧
        Context.EqualUnder θ Δ c.context) ∧ p.subst.Models θ) ∧
        ∀ a' ∈ annot, a'.mapNames θ = a.mapNames θ) ∧
        ty.mapNames θ = (Ty.arr a (p.judgment.ty.shift (-1))).mapNames θ)
      (c.checkAbs annot t ty p k) := by
  have hb : (p.judgment.ty.shift (-1)).isSimple := by rw [Ty.shift_of_isSimple _ hp.1]; exact hp.1
  rw [checkAbs_eq annot t ty hcontext]
  refine (decides_absPremise hc hk hΔ ha hannot hp).bind (fun k hk => ?_) fun θ h => h.1
  exact decides_unify hc hk hty ((Ty.isSimple_arr a _).mpr ⟨ha, hb⟩)

/-- The check of `let` up to the type of the variable. The context of the premise for the body is
`Δ` with one more variable. -/
def letPremises (c : Conclusion) (e t : Term) (p q : Premise) (Δ : Context) (k : Solution) :
    Except RuleError Solution := do
  let k ← c.samePremises 0 [p] [e] k
  let k ← c.sameContext 1 Δ k
  sameTerm 1 q.judgment.term t
  let k ← c.adopt 0 p.subst k
  let s ← unbind 1 q.subst
  c.adopt 1 s k

/-- The type of the variable is that of its definition, generalised in Hindley-Milner. -/
def letScheme (c : Conclusion) (a b : Ty) (k : Solution) : Except RuleError Solution :=
  match c.calculus with
  | .hindleyMilner => do
    let Γ ← (c.context.apply k.subst).mapError .unify
    let gen := Γ.generalize (k.subst.apply b) []
    if Γ.areEquivalent gen (k.subst.apply a) then .ok k else .error .notGeneral
  | _ => c.unify a b k

theorem checkLet_eq (e t : Term) (ty : Ty) (p : Premise) {q : Premise} {x : String} {a : Ty}
    {Δ : Context} (hcontext : q.judgment.context = ⟨x, .var a⟩ :: Δ) :
    c.checkLet e t ty p q k = (c.letPremises e t p q Δ k >>= fun k =>
      c.letScheme a p.judgment.ty k >>= c.unify ty (q.judgment.ty.shift (-1))) := by
  rw [checkLet, hcontext]
  simp only [bind_extended_var, letPremises, bind_assoc]
  refine bind_congr fun k => bind_congr fun k => bind_congr fun _ => bind_congr fun k =>
    bind_congr fun s => bind_congr fun k => ?_
  unfold letScheme
  cases c.calculus with
  | hindleyMilner =>
    simp only [bind_assoc]
    refine bind_congr fun Γ => ?_
    split <;> rfl
  | _ => rfl

theorem decides_letPremises (hc : c.calculus ≠ .systemF) (hk : k.subst.Solves P) {e t : Term}
    {p q : Premise} {Δ : Context} (hp : p.judgment.context.Comparable c.context)
    (hΔ : Context.Comparable Δ c.context) (hps : p.subst.IsSimple) (hqs : q.subst.IsSimple) :
    Decides (fun θ => (((P θ ∧ PremisesMatch θ c.context [p] [e]) ∧
        (Context.SameKinds Δ c.context ∧ q.judgment.term.alphaEq t) ∧
        Context.EqualUnder θ Δ c.context) ∧ p.subst.Models θ) ∧ q.subst.Models θ)
      (c.letPremises e t p q Δ k) := by
  refine (decides_samePremises hc hk 0 ?_).bind (fun k hk => ?_) fun θ h => h.1.1.1
  · simpa using hp
  refine decides_samePremise hc hk 1 hΔ (fun k hk => ?_) fun θ h => h.1.1
  refine (decides_adopt hc hk 0 hps).bind (fun k hk => ?_) fun θ h => h.1
  rw [unbind_of_isSimple 1 hqs]
  exact decides_adopt hc hk 1 hqs

/-- In a calculus without polymorphism the variable has the type of its definition. -/
theorem decides_checkLet (hc : c.calculus = .simplyTyped) (hk : k.subst.Solves P) {e t : Term}
    {ty : Ty} {p q : Premise} {x : String} {a : Ty} {Δ : Context}
    (hp : p.judgment.context.Comparable c.context)
    (hcontext : q.judgment.context = ⟨x, .var a⟩ :: Δ) (hΔ : Context.Comparable Δ c.context)
    (ha : a.isSimple) (hps : p.IsSimple) (hqs : q.IsSimple) (hty : ty.isSimple) :
    Decides (fun θ => (((((P θ ∧ PremisesMatch θ c.context [p] [e]) ∧
        (Context.SameKinds Δ c.context ∧ q.judgment.term.alphaEq t) ∧
        Context.EqualUnder θ Δ c.context) ∧ p.subst.Models θ) ∧ q.subst.Models θ) ∧
        a.mapNames θ = p.judgment.ty.mapNames θ) ∧
        ty.mapNames θ = (q.judgment.ty.shift (-1)).mapNames θ)
      (c.checkLet e t ty p q k) := by
  have hne : c.calculus ≠ .systemF := by simp [hc]
  have hb : (q.judgment.ty.shift (-1)).isSimple := by rw [Ty.shift_of_isSimple _ hqs.1]; exact hqs.1
  rw [checkLet_eq e t ty p hcontext]
  refine (decides_letPremises hne hk hp hΔ hps.2 hqs.2).bind (fun k hk => ?_) fun θ h => h.1.1
  rw [letScheme, hc]
  exact (decides_unify hne hk ha hps.1).bind (fun k hk => decides_unify hne hk hty hb) fun θ h => h.1

/-- A premise that does not add a typed variable is refused. -/
theorem bind_extended_eq_error {α : Type} {i : Nat} {Γ : Context}
    {f : Binding × Solution → Except RuleError α} (h : ∀ x a Δ, Γ ≠ ⟨x, .var a⟩ :: Δ)
    (hf : ∀ b k, (∀ a, b ≠ .var a) → ∃ e, f (b, k) = .error e) :
    ∃ e, (c.extended i Γ k >>= f) = .error e := by
  cases Γ with
  | nil => exact ⟨_, rfl⟩
  | cons e Δ =>
    obtain ⟨x, b⟩ := e
    have hb : ∀ a, b ≠ .var a := fun a hb => h x a Δ (by rw [hb])
    rw [extended_cons]
    cases hr : c.sameContext i Δ k with
    | error err => exact ⟨err, rfl⟩
    | ok k' => exact hf b k' hb

theorem checkAbs_eq_error (annot : Option Ty) (t : Term) (ty : Ty) {p : Premise}
    (h : ∀ x a Δ, p.judgment.context ≠ ⟨x, .var a⟩ :: Δ) :
    ∃ e, c.checkAbs annot t ty p k = .error e := by
  refine bind_extended_eq_error h fun b k hb => ?_
  cases b with
  | var a => exact absurd rfl (hb a)
  | _ => exact ⟨_, rfl⟩

theorem checkLet_eq_error (e t : Term) (ty : Ty) (p : Premise) {q : Premise}
    (h : ∀ x a Δ, q.judgment.context ≠ ⟨x, .var a⟩ :: Δ) :
    ∃ err, c.checkLet e t ty p q k = .error err := by
  rw [checkLet]
  cases c.samePremises 0 [p] [e] k with
  | error err => exact ⟨err, rfl⟩
  | ok k =>
    refine bind_extended_eq_error h fun b k hb => ?_
    cases b with
    | var a => exact absurd rfl (hb a)
    | _ => exact ⟨_, rfl⟩

end Conclusion

end LambdaTyping
