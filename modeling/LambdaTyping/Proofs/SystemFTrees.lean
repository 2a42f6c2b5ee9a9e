import Mathlib
import LambdaTyping.Proofs.SystemFSoundness

/-!
# Trees without names in System F

Where no judgment of a tree has a free name, there is nothing to solve: every
equation of a rule is a comparison up to the names of binders, and the only name
in the whole check is the new one of a type abstraction. A substitution could
only bind that name, and to a type without names, which is refused. So a tree is
valid if and only if every node is an instance of its rule.
-/
namespace LambdaTyping

/-- The contexts have the same bindings, whatever they are called. -/
def Context.AlphaEq (Γ Δ : Context) : Prop :=
  List.Forall₂ (fun e f => e.binding.alphaEq f.binding = true) Γ Δ

theorem Context.alphaEq_cons_iff {e f : Entry} {Γ Δ : Context} :
    Context.AlphaEq (e :: Γ) (f :: Δ) ↔ e.binding.alphaEq f.binding = true ∧ Γ.AlphaEq Δ :=
  List.forall₂_cons

theorem Binding.sameKind_of_alphaEq {b₁ b₂ : Binding} (h : b₁.alphaEq b₂ = true) :
    b₁.sameKind b₂ = true := by
  cases b₁ <;> cases b₂ <;> simp_all [alphaEq, sameKind]

/-- The judgment is about the term `t` in the context `Γ`. -/
def Judgment.IsFor (Γ : Context) (t : Term) (j : Judgment) : Prop :=
  j.context.AlphaEq Γ ∧ j.term.alphaEq t = true

/-- The rules of System F: from the premises a term of type `ty` follows in the context `Γ`. Contexts,
terms and types are compared up to the names of variables. -/
def Rule.Derives (Γ : Context) (ty : Ty) : Rule → Term → List Judgment → Prop
  | .var, .var _ i _, [] => ∃ a, Γ.getType? i = some a ∧ a.alphaEq ty = true
  | .abs, .abs _ _ (some a') t, [⟨⟨_, .var a⟩ :: Δ, t', b⟩] =>
    Judgment.IsFor Γ t ⟨Δ, t', b⟩ ∧ a'.alphaEq a = true ∧ ty.alphaEq (.arr a (b.shift (-1))) = true
  | .app, .app _ t u, [p, q] => p.IsFor Γ t ∧ q.IsFor Γ u ∧ p.ty.alphaEq (.arr q.ty ty) = true
  | .ite, .ite _ i t e, [p, q, r] =>
    p.IsFor Γ i ∧ q.IsFor Γ t ∧ r.IsFor Γ e ∧ p.ty.alphaEq .bool = true ∧ q.ty.alphaEq ty = true ∧
      r.ty.alphaEq ty = true
  | .tyAbs, .tyAbs _ _ t, [⟨⟨_, .tyVar⟩ :: Δ, t', b⟩] =>
    Judgment.IsFor Γ t ⟨Δ, t', b⟩ ∧ ∃ x a, ty = .all x a ∧ a.alphaEq b = true
  | .tyApp, .tyApp _ t s, [p] => p.IsFor Γ t ∧ ∃ x a, p.ty = .all x a ∧ (a.substTop s).alphaEq ty = true
  | .letIn, .letIn _ _ e t, [p, ⟨⟨_, .var a⟩ :: Δ, t', b⟩] =>
    p.IsFor Γ e ∧ Judgment.IsFor Γ t ⟨Δ, t', b⟩ ∧ a.alphaEq p.ty = true ∧
      ty.alphaEq (b.shift (-1)) = true
  | .constTrue, .const _ true, [] | .constFalse, .const _ false, [] => ty.alphaEq .bool = true
  | _, _, _ => False

theorem Judgment.length_context_of_isFor {Γ : Context} {js : List Judgment} {ts : List Term}
    (h : List.Forall₂ (fun j t => j.IsFor Γ t) js ts) :
    ∀ j ∈ js, j.context.length = Γ.length := by
  induction h with
  | nil => simp
  | cons hj _ ih => exact List.forall_mem_cons.mpr ⟨hj.1.length_eq, ih⟩

namespace Rule

variable {Γ : Context} {ty : Ty}

theorem exists_cons_of_derives_abs {t : Term} {p : Judgment} (h : Rule.abs.Derives Γ ty t [p]) :
    ∃ y a Δ, p.context = ⟨y, .var a⟩ :: Δ := by
  unfold Derives at h
  split at h <;> simp_all

theorem exists_cons_of_derives_tyAbs {t : Term} {p : Judgment} (h : Rule.tyAbs.Derives Γ ty t [p]) :
    ∃ y Δ, p.context = ⟨y, .tyVar⟩ :: Δ := by
  unfold Derives at h
  split at h <;> simp_all

theorem exists_cons_of_derives_letIn {t : Term} {p q : Judgment}
    (h : Rule.letIn.Derives Γ ty t [p, q]) : ∃ y a Δ, q.context = ⟨y, .var a⟩ :: Δ := by
  unfold Derives at h
  split at h <;> simp_all

/-- A rule derives types for terms that it fits, from as many premises as it has. -/
theorem fits_of_derives {r : Rule} {t : Term} {js : List Judgment} (h : r.Derives Γ ty t js) :
    r.fits t = true ∧ js.length = r.arity := by
  unfold Derives at h
  split at h <;> first | exact ⟨rfl, rfl⟩ | exact h.elim

end Rule

/-- The type is in scope of `n` bindings and has no names. -/
structure Ty.IsClosedIn (n : Nat) (t : Ty) : Prop where
  wellScoped : t.WellScoped n
  names : t.freeNames = []

theorem Ty.IsClosedIn.bool (n : Nat) : Ty.IsClosedIn n .bool := ⟨trivial, rfl⟩

theorem Ty.IsClosedIn.arr {n : Nat} {a b : Ty} (ha : a.IsClosedIn n) (hb : b.IsClosedIn n) :
    Ty.IsClosedIn n (.arr a b) := ⟨⟨ha.wellScoped, hb.wellScoped⟩, by simp [freeNames, ha.names, hb.names]⟩

theorem Ty.IsClosedIn.shift {n : Nat} {a : Ty} (ha : a.IsClosedIn n) (d : Nat) :
    (a.shift d).IsClosedIn (n + d) := ⟨ha.wellScoped.shiftAbove d 0, by simp [ha.names]⟩

theorem Ty.IsClosedIn.substTop {n : Nat} {x : String} {a s : Ty} (ha : Ty.IsClosedIn n (.all x a))
    (hs : s.IsClosedIn n) : (a.substTop s).IsClosedIn n := by
  rw [substTop_eq_fillAt]
  refine ⟨WellScoped.fillAt (c := 0) hs.wellScoped ha.wellScoped, ?_⟩
  refine List.eq_nil_iff_forall_not_mem.mpr fun y hy => ?_
  have hnames : a.freeNames = [] := ha.names
  simpa [hnames, hs.names] using freeNames_fillAt_subset s 0 a hy

/-- A type without names, opened with `n`, has no other name. -/
theorem Ty.IsClosedIn.openWith {len : Nat} {a : Ty} (ha : a.IsClosedIn (len + 1)) (n : String) :
    (a.openWith n).WellScoped len ∧ ∀ x ∈ (a.openWith n).freeNames, x = n := by
  rw [openWith_eq_fillAt]
  refine ⟨WellScoped.fillAt (c := 0) trivial ha.wellScoped, fun x hx => ?_⟩
  simpa [ha.names, freeNames] using freeNames_fillAt_subset (.name n) 0 a hx

theorem Ty.alphaEq_shift_iff {n : Nat} {a b : Ty} (ha : a.WellScoped n) (hb : b.WellScoped n)
    (d : Nat) : (a.shift d).alphaEq (b.shift d) = true ↔ a.alphaEq b = true := by
  have hshift := alphaEq_iff_erase (a := a.shift d) (b := b.shift d) (ha.shiftAbove d 0)
    (hb.shiftAbove d 0)
  rw [hshift, alphaEq_iff_erase ha hb, erase_shift, erase_shift]
  refine ⟨fun h => ?_, fun h => by rw [h]⟩
  have hback := unshift?_shift d a.erase
  rwa [h, unshift?_shift, Option.some_inj, eq_comm] at hback

/-- The types of the context are in scope where they stand, and have no names. -/
structure Context.IsClosed (Γ : Context) : Prop where
  formed : Γ.Formed
  names : Γ.freeNames = []

theorem Context.IsClosed.tail {e : Entry} {Γ : Context} (h : Context.IsClosed (e :: Γ)) :
    Γ.IsClosed := ⟨h.formed.2, (List.append_eq_nil_iff.mp h.names).2⟩

theorem Context.IsClosed.head {x : String} {a : Ty} {Γ : Context}
    (h : Context.IsClosed (⟨x, .var a⟩ :: Γ)) : a.IsClosedIn Γ.length where
  wellScoped := by simpa using (h.formed.1 a rfl).wellScoped
  names := (List.append_eq_nil_iff.mp h.names).1

theorem Context.IsClosed.getType? {Γ : Context} (h : Γ.IsClosed) {i : Nat} {a : Ty}
    (ha : Γ.getType? i = some a) : a.IsClosedIn Γ.length where
  wellScoped := by simpa using (h.formed.getType? ha).wellScoped
  names := List.eq_nil_iff_forall_not_mem.mpr fun x hx => by
    have hmem := Context.mem_freeNames_of_getType? ha hx
    simp [h.names] at hmem

/-- A judgment without names. -/
structure Judgment.IsClosed (j : Judgment) : Prop where
  formed : j.Formed
  names : j.freeNames = []

namespace Judgment.IsClosed

variable {j : Judgment} (h : j.IsClosed)

include h

theorem context : j.context.IsClosed where
  formed := h.formed.context
  names := by
    have hnames := h.names
    simp only [freeNames, List.append_eq_nil_iff] at hnames
    exact hnames.1.1

theorem term_names : j.term.typeNames = [] := by
  have hnames := h.names
  simp only [freeNames, List.append_eq_nil_iff] at hnames
  exact hnames.1.2

theorem ty_names : j.ty.freeNames = [] := by
  have hnames := h.names
  simp only [freeNames, List.append_eq_nil_iff] at hnames
  exact hnames.2

theorem ty : j.ty.IsClosedIn j.context.length where
  wellScoped := by simpa using h.formed.ty.wellScoped
  names := h.ty_names

end Judgment.IsClosed

theorem Judgment.IsClosed.annot {Γ : Context} {pos : Text.Position} {x : String} {annot : Option Ty}
    {t : Term} {ty : Ty} (h : Judgment.IsClosed ⟨Γ, .abs pos x annot t, ty⟩) :
    ∀ a ∈ annot, a.IsClosedIn Γ.length := by
  rintro a rfl
  have hnames := h.term_names
  simp only [Term.typeNames, List.append_eq_nil_iff] at hnames
  exact ⟨by simpa using (h.formed.term.1 a rfl).wellScoped, hnames.1⟩

theorem Judgment.IsClosed.tyArg {Γ : Context} {pos : Text.Position} {t : Term} {arg ty : Ty}
    (h : Judgment.IsClosed ⟨Γ, .tyApp pos t arg, ty⟩) : arg.IsClosedIn Γ.length := by
  have hnames := h.term_names
  simp only [Term.typeNames, List.append_eq_nil_iff] at hnames
  exact ⟨by simpa using h.formed.term.2.wellScoped, hnames.2⟩

/-- A type leaves the scope of a term variable. -/
theorem Judgment.IsClosed.shift_neg_one {y : String} {a b : Ty} {Γ : Context} {t : Term}
    (h : Judgment.IsClosed ⟨⟨y, .var a⟩ :: Γ, t, b⟩) : (b.shift (-1)).IsClosedIn Γ.length where
  wellScoped := by
    have hformed : b.FormedIn (.term :: Γ.kinds) := h.formed.ty
    simpa using hformed.shift_neg_one.1.wellScoped
  names := by simpa using h.ty_names

/-- A unifier that binds nothing leaves nothing to unify. -/
theorem alphaEq_of_unifyRigid_nil {n : Nat} {a b : Ty} (ha : a.WellScoped n) (hb : b.WellScoped n)
    (h : unifyRigid a b = .ok []) : a.alphaEq b = true := by
  have hmgu := isMgu_of_unifyRigid ha hb h
  have hunifies := (hmgu.unifies_iff Ty.name fun _ => trivial).mpr fun b hb => by simp at hb
  rw [Unifies, Ty.mapNames_id, Ty.mapNames_id] at hunifies
  exact (Ty.alphaEq_iff_erase ha hb).mpr hunifies

theorem Subst.eq_nil_of_domain {s : Subst} (h : ∀ x, x ∉ s.domain) : s = [] :=
  List.eq_nil_iff_forall_not_mem.mpr fun b hb => h b.1 (Subst.mem_domain_of_mem hb)

/-- A premise that holds as it stands. -/
def Premise.bare (j : Judgment) : Premise := ⟨j, []⟩

/-- The step succeeds if and only if `p` holds, and the substitution stays empty. -/
def Tests {ε : Type} (p : Prop) : Except ε Solution → Prop
  | .ok k => p ∧ k.subst = []
  | .error _ => ¬ p

namespace Tests

variable {ε ε' : Type} {p q : Prop} {r : Except ε Solution}

theorem congr (h : Tests p r) (hpq : p ↔ q) : Tests q r := by rwa [← hpq]

theorem of_ok {k : Solution} (hk : k.subst = []) (hok : p → r = .ok k) (hp : ∀ k', r = .ok k' → p) :
    Tests p r := by
  cases r with
  | ok k' =>
    have h := hp k' rfl
    cases hok h
    exact ⟨h, hk⟩
  | error e => exact fun h => by cases hok h

theorem mapError (h : Tests p r) (f : ε → ε') : Tests p (r.mapError f) := by
  cases r with
  | ok k => exact h
  | error e => exact h

theorem bind {f : Solution → Except ε Solution} (h : Tests p r)
    (hf : p → ∀ k, k.subst = [] → Tests q (f k)) : Tests (p ∧ q) (r >>= f) := by
  cases r with
  | ok k => exact (hf h.1 k h.2).congr (and_iff_right h.1).symm
  | error e => exact fun hpq => h hpq.1

end Tests

theorem tests_sameTerm_bind {q : Prop} (i : Nat) (t u : Term) {f : Unit → Except RuleError Solution}
    (hf : Tests q (f ())) : Tests (t.alphaEq u = true ∧ q) (sameTerm i t u >>= f) := by
  unfold sameTerm
  split
  case isTrue h => exact hf.congr (and_iff_right h).symm
  case isFalse h => exact fun hpq => h hpq.1

namespace Conclusion

variable {c : Conclusion} {k : Solution} {n : Nat} {a b : Ty}

theorem tests_equate (hc : c.calculus = .systemF) (hk : k.subst = []) (ha : a.IsClosedIn n)
    (hb : b.IsClosedIn n) : Tests (a.alphaEq b = true) (c.equate a b k) := by
  refine Tests.of_ok hk (fun h => equate_of_alphaEq (by rwa [hk])) fun k' hr => ?_
  rcases equate_eq_ok hc hr with ⟨h, -⟩ | ⟨s, hs, -, -⟩
  · rwa [hk] at h
  · rw [hk] at hs
    have hmgu := isMgu_of_unifyRigid ha.wellScoped hb.wellScoped hs
    obtain rfl : s = [] := Subst.eq_nil_of_domain fun x hx => by
      have hnames := hmgu.names x (Subst.mem_freeNames_of_mem_domain hx)
      simp [ha.names, hb.names] at hnames
    exact alphaEq_of_unifyRigid_nil ha.wellScoped hb.wellScoped hs

theorem tests_unify (hc : c.calculus = .systemF) (hk : k.subst = []) (ha : a.IsClosedIn n)
    (hb : b.IsClosedIn n) : Tests (a.alphaEq b = true) (c.unify a b k) :=
  (tests_equate hc hk ha hb).mapError RuleError.unify

/-- What is left of two contexts below the `d` most recent bindings. -/
theorem tests_equateBelow (hc : c.calculus = .systemF) (hk : k.subst = []) (e : RuleError)
    {Γ₀ Δ₀ Γ Δ : Context} {d : Nat} (hΓ₀ : Γ₀.drop d = Γ) (hΔ₀ : Δ₀.drop d = Δ) (hΓ : Γ.IsClosed)
    (hΔ : Δ.IsClosed) (hlength : Γ.length = Δ.length) :
    Tests (Γ.AlphaEq Δ) (match c.equateBelow Γ₀ Δ₀ d Γ Δ k with
      | some k => .ok k
      | none => .error e) := by
  induction Γ generalizing Δ d k with
  | nil =>
    obtain rfl := List.length_eq_zero_iff.mp hlength.symm
    exact ⟨.nil, hk⟩
  | cons e₁ Γ ih =>
    cases Δ with
    | nil => simp at hlength
    | cons e₂ Δ =>
      obtain ⟨x, b₁⟩ := e₁
      obtain ⟨y, b₂⟩ := e₂
      obtain ⟨hΓ₁, hget₁⟩ := getType?_of_drop hΓ₀
      obtain ⟨hΔ₁, hget₂⟩ := getType?_of_drop hΔ₀
      rw [List.length_cons, List.length_cons, Nat.add_right_cancel_iff] at hlength
      cases hkind : b₁.sameKind b₂ with
      | false =>
        rw [equateBelow_of_sameKind_eq_false hkind]
        intro h
        have halpha := Binding.sameKind_of_alphaEq (Context.alphaEq_cons_iff.mp h).1
        rw [hkind] at halpha
        cases halpha
      | true =>
        rcases hget₁ with ⟨a₁, rfl, hA⟩ | ⟨hb₁, -⟩
        · rcases hget₂ with ⟨a₂, rfl, hB⟩ | ⟨hb₂, -⟩
          · have ha₂ : a₂.IsClosedIn Γ.length := hlength ▸ hΔ.head
            have hhead := tests_equate hc hk (hΓ.head.shift (d + 1)) (ha₂.shift (d + 1))
            rw [Nat.cast_succ] at hhead
            have hshift := Ty.alphaEq_shift_iff hΓ.head.wellScoped ha₂.wellScoped (d + 1)
            rw [Nat.cast_succ] at hshift
            rw [equateBelow_of_typed hA hB]
            refine Tests.congr ?_ Context.alphaEq_cons_iff.symm
            cases hr : c.equate (a₁.shift ((d : Int) + 1)) (a₂.shift ((d : Int) + 1)) k with
            | error err =>
              rw [hr] at hhead
              exact fun h => hhead (hshift.mpr h.1)
            | ok k' =>
              rw [hr] at hhead
              refine (ih hhead.2 hΓ₁ hΔ₁ hΓ.tail hΔ.tail hlength).congr ?_
              exact (and_iff_right (hshift.mp hhead.1)).symm
          · cases b₂ with
            | var a₂ => exact absurd rfl (hb₂ a₂)
            | _ => simp [Binding.sameKind] at hkind
        · rw [equateBelow_of_untyped hkind hb₁]
          refine (ih hk hΓ₁ hΔ₁ hΓ.tail hΔ.tail hlength).congr ?_
          rw [Context.alphaEq_cons_iff, and_iff_right]
          cases b₁ with
          | var a₁ => exact absurd rfl (hb₁ a₁)
          | _ => cases b₂ <;> simp_all [Binding.sameKind, Binding.alphaEq]

theorem tests_sameContext (hc : c.calculus = .systemF) (hk : k.subst = []) (i : Nat) {Γ : Context}
    (hΓ : Γ.IsClosed) (hcontext : c.context.IsClosed) :
    Tests (Γ.AlphaEq c.context) (c.sameContext i Γ k) := by
  unfold sameContext
  split
  case isTrue hlength => exact fun h => hlength h.length_eq
  case isFalse hlength =>
    exact tests_equateBelow hc hk (.context i) (d := 0) rfl rfl hΓ hcontext (not_not.mp hlength)

theorem tests_samePremises (hc : c.calculus = .systemF) (hk : k.subst = []) (i : Nat)
    (js : List Judgment) (ts : List Term) (hlength : js.length = ts.length)
    (hjs : ∀ j ∈ js, j.IsClosed) (hcontext : c.context.IsClosed) :
    Tests (List.Forall₂ (fun j t => j.IsFor c.context t) js ts)
      (c.samePremises i (js.map .bare) ts k) := by
  induction js generalizing ts k i with
  | nil =>
    obtain rfl := List.length_eq_zero_iff.mp hlength.symm
    exact ⟨.nil, hk⟩
  | cons j js ih =>
    cases ts with
    | nil => simp at hlength
    | cons t ts =>
      rw [List.forall_mem_cons] at hjs
      rw [List.forall₂_cons, Judgment.IsFor, and_assoc]
      refine (tests_sameContext hc hk i hjs.1.context hcontext).bind fun _ k' hk' => ?_
      exact tests_sameTerm_bind i _ _ (ih hk' (i + 1) ts (by simpa using hlength) hjs.2)

theorem adoptAll_bare (i : Nat) (js : List Judgment) : c.adoptAll i (js.map .bare) k = .ok k := by
  induction js generalizing i with
  | nil => rfl
  | cons j js ih => exact ih (i + 1)

section Rules

variable {Γ : Context} {σ : NameSupply} {ty : Ty}

/-- Premises in the context of the conclusion, and what comes after them. -/
theorem tests_premises (js : List Judgment) (ts : List Term) {P : Prop} (hΓ : Γ.IsClosed)
    (hlength : js.length = ts.length) (hjs : ∀ j ∈ js, j.IsClosed)
    {f : Solution → Except RuleError Solution}
    (hf : (∀ j ∈ js, j.ty.IsClosedIn Γ.length) → ∀ k : Solution, k.subst = [] → Tests P (f k)) :
    Tests (List.Forall₂ (fun j t => j.IsFor Γ t) js ts ∧ P)
      (samePremises ⟨.systemF, Γ⟩ 0 (js.map .bare) ts ⟨σ, []⟩ >>= fun k =>
        adoptAll ⟨.systemF, Γ⟩ 0 (js.map .bare) k >>= f) := by
  refine (tests_samePremises (c := ⟨.systemF, Γ⟩) rfl rfl 0 js ts hlength hjs hΓ).bind
    fun hmatch k hk => ?_
  rw [adoptAll_bare]
  refine hf (fun j hj => ?_) k hk
  rw [← Judgment.length_context_of_isFor hmatch j hj]
  exact (hjs j hj).ty

theorem tests_checkVar {i : Nat} (hΓ : Γ.IsClosed) (hty : ty.IsClosedIn Γ.length) :
    Tests (∃ a, Γ.getType? i = some a ∧ a.alphaEq ty = true)
      (checkVar ⟨.systemF, Γ⟩ i ty ⟨σ, []⟩) := by
  unfold checkVar
  cases hi : Γ.getType? i with
  | none => exact fun h => by simp at h
  | some a =>
    exact (tests_unify (c := ⟨.systemF, Γ⟩) (k := ⟨σ, []⟩) rfl rfl (hΓ.getType? hi) hty).congr
      (by simp)

theorem tests_checkApp {t u : Term} {p q : Judgment} (hΓ : Γ.IsClosed)
    (hty : ty.IsClosedIn Γ.length) (hps : ∀ j ∈ [p, q], j.IsClosed) :
    Tests (p.IsFor Γ t ∧ q.IsFor Γ u ∧ p.ty.alphaEq (.arr q.ty ty) = true)
      (checkApp ⟨.systemF, Γ⟩ t u ty (.bare p) (.bare q) ⟨σ, []⟩) := by
  have h := tests_premises (σ := σ) [p, q] [t, u] hΓ rfl hps fun htypes k hk =>
    tests_unify (c := ⟨.systemF, Γ⟩) rfl hk (htypes p (by simp)) ((htypes q (by simp)).arr hty)
  refine Tests.congr h ?_
  simp [and_assoc]

theorem tests_checkIte {i t e : Term} {p q r : Judgment} (hΓ : Γ.IsClosed)
    (hty : ty.IsClosedIn Γ.length) (hps : ∀ j ∈ [p, q, r], j.IsClosed) :
    Tests (p.IsFor Γ i ∧ q.IsFor Γ t ∧ r.IsFor Γ e ∧ p.ty.alphaEq .bool = true ∧
        q.ty.alphaEq ty = true ∧ r.ty.alphaEq ty = true)
      (checkIte ⟨.systemF, Γ⟩ i t e ty (.bare p) (.bare q) (.bare r) ⟨σ, []⟩) := by
  have h := tests_premises (σ := σ) [p, q, r] [i, t, e] hΓ rfl hps fun htypes k hk =>
    (tests_unify (c := ⟨.systemF, Γ⟩) rfl hk (htypes p (by simp)) (.bool _)).bind fun _ k hk =>
      (tests_unify (c := ⟨.systemF, Γ⟩) rfl hk (htypes q (by simp)) hty).bind fun _ k hk =>
        tests_unify (c := ⟨.systemF, Γ⟩) rfl hk (htypes r (by simp)) hty
  refine Tests.congr h ?_
  simp [and_assoc]

theorem tests_instantiate {a arg : Ty} {k : Solution} (hk : k.subst = [])
    (ha : a.IsClosedIn Γ.length) (harg : arg.IsClosedIn Γ.length) (hty : ty.IsClosedIn Γ.length) :
    Tests (∃ x b, a = .all x b ∧ (b.substTop arg).alphaEq ty = true)
      (match k.subst.apply a with
        | .all _ b => unify ⟨.systemF, Γ⟩ (b.substTop arg) ty k
        | a => .error (.unify (.forallExpected a))) := by
  rw [hk, Subst.apply_nil]
  cases a with
  | all x b =>
    refine (tests_unify (c := ⟨.systemF, Γ⟩) rfl hk (ha.substTop harg) hty).congr ?_
    simp
  | _ => simp [Tests]

theorem tests_checkTyApp {t : Term} {arg : Ty} {p : Judgment} (hΓ : Γ.IsClosed)
    (hty : ty.IsClosedIn Γ.length) (harg : arg.IsClosedIn Γ.length) (hp : p.IsClosed) :
    Tests (p.IsFor Γ t ∧ ∃ x a, p.ty = .all x a ∧ (a.substTop arg).alphaEq ty = true)
      (checkTyApp ⟨.systemF, Γ⟩ t arg ty (.bare p) ⟨σ, []⟩) := by
  simp only [checkTyApp, ← adoptAll_singleton]
  have h := tests_premises (σ := σ) [p] [t] hΓ rfl (by simpa using hp) fun htypes k hk =>
    tests_instantiate hk (htypes p (by simp)) harg hty
  exact Tests.congr h (by simp)

theorem tests_checkAbs {a' a b : Ty} {t t' : Term} {y : String} {Δ : Context} (hΓ : Γ.IsClosed)
    (hty : ty.IsClosedIn Γ.length) (ha' : a'.IsClosedIn Γ.length)
    (hp : Judgment.IsClosed ⟨⟨y, .var a⟩ :: Δ, t', b⟩) :
    Tests (Judgment.IsFor Γ t ⟨Δ, t', b⟩ ∧ a'.alphaEq a = true ∧
        ty.alphaEq (.arr a (b.shift (-1))) = true)
      (checkAbs ⟨.systemF, Γ⟩ (some a') t ty (.bare ⟨⟨y, .var a⟩ :: Δ, t', b⟩) ⟨σ, []⟩) := by
  rw [checkAbs_eq (p := .bare ⟨⟨y, .var a⟩ :: Δ, t', b⟩) _ t ty rfl]
  simp only [absPremise, bind_assoc]
  rw [Judgment.IsFor, and_assoc]
  refine (tests_sameContext (c := ⟨.systemF, Γ⟩) rfl rfl 0 hp.context.tail hΓ).bind
    fun hmatch k hk => tests_sameTerm_bind 0 _ _ ?_
  have hlength : Δ.length = Γ.length := hmatch.length_eq
  have ha : a.IsClosedIn Γ.length := hlength ▸ hp.context.head
  have hb : (b.shift (-1)).IsClosedIn Γ.length := hlength ▸ hp.shift_neg_one
  exact (tests_unify (c := ⟨.systemF, Γ⟩) rfl hk ha' ha).bind fun _ k' hk' =>
    tests_unify (c := ⟨.systemF, Γ⟩) rfl hk' hty (ha.arr hb)

theorem tests_checkLet {a b : Ty} {e t t' : Term} {p : Judgment} {y : String} {Δ : Context}
    (hΓ : Γ.IsClosed) (hty : ty.IsClosedIn Γ.length) (hp : p.IsClosed)
    (hq : Judgment.IsClosed ⟨⟨y, .var a⟩ :: Δ, t', b⟩) :
    Tests (p.IsFor Γ e ∧ Judgment.IsFor Γ t ⟨Δ, t', b⟩ ∧ a.alphaEq p.ty = true ∧
        ty.alphaEq (b.shift (-1)) = true)
      (checkLet ⟨.systemF, Γ⟩ e t ty (.bare p) (.bare ⟨⟨y, .var a⟩ :: Δ, t', b⟩) ⟨σ, []⟩) := by
  rw [checkLet_eq (q := .bare ⟨⟨y, .var a⟩ :: Δ, t', b⟩) e t ty (.bare p) rfl]
  simp only [letPremises, letScheme, bind_assoc]
  have hfirst := tests_samePremises (c := ⟨.systemF, Γ⟩) (k := ⟨σ, []⟩) rfl rfl 0 [p] [e] rfl
    (by simpa using hp) hΓ
  refine Tests.congr (hfirst.bind fun hmatchp k hk =>
    (tests_sameContext (c := ⟨.systemF, Γ⟩) rfl hk 1 hq.context.tail hΓ).bind fun hmatch k hk =>
      tests_sameTerm_bind 1 _ _ (q := a.alphaEq p.ty = true ∧ ty.alphaEq (b.shift (-1)) = true) ?_) ?_
  · have hlength : Δ.length = Γ.length := hmatch.length_eq
    have ha : a.IsClosedIn Γ.length := hlength ▸ hq.context.head
    have hb : (b.shift (-1)).IsClosedIn Γ.length := hlength ▸ hq.shift_neg_one
    have hpty : p.ty.IsClosedIn Γ.length := by
      rw [← Judgment.length_context_of_isFor hmatchp p (by simp)]
      exact hp.ty
    exact (tests_unify (c := ⟨.systemF, Γ⟩) rfl hk ha hpty).bind fun _ k' hk' =>
      tests_unify (c := ⟨.systemF, Γ⟩) rfl hk' hty hb
  · simp [Judgment.IsFor, Premise.bare, and_assoc]

/-- Opening with a name that does not occur keeps types apart. -/
theorem alphaEq_openWith_iff {n : String} {len : Nat} {a b : Ty} (ha : a.IsClosedIn (len + 1))
    (hb : b.IsClosedIn (len + 1)) :
    (a.openWith n).alphaEq (b.openWith n) = true ↔ a.alphaEq b = true := by
  rw [Ty.alphaEq_iff_erase (ha.openWith n).1 (hb.openWith n).1,
    Ty.alphaEq_iff_erase ha.wellScoped hb.wellScoped]
  constructor
  · intro h
    -- bring the bound variable back
    have hθ : Function.update Ty.name n (.var 0 (len + 1)) n = .var 0 (len + 1) :=
      Function.update_self ..
    have hback : ∀ {t : Ty}, t.IsClosedIn (len + 1) →
        ((t.openWith n).shift 1).mapNames (Function.update Ty.name n (.var 0 (len + 1))) = t :=
      fun ht => by
        rw [Ty.mapNames_openWith_shift hθ ht.wellScoped, Ty.mapNames_eq_self (by simp [ht.names])]
    rw [← hback ha, ← hback hb]
    refine Ty.erase_mapNames_eq ?_ _
    rw [Ty.erase_shift, Ty.erase_shift, h]
  · intro h
    rw [Ty.openWith_eq_fillAt, Ty.openWith_eq_fillAt, Ty.erase_fillAt, Ty.erase_fillAt, h]

theorem keepRigid_nil (hΓ : Γ.IsClosed) (n x : String) : keepRigid Γ [] n x = .ok [] := by
  exact keepRigid_eq_ok_iff.mpr
    ⟨⟨n, rfl, (if_pos rfl).symm⟩, Γ, Context.apply_nil Γ, by simp [hΓ.names]⟩

/-- If the only name in two types is `n`, a unifier binds it to a type without names. -/
theorem eq_nil_of_image_eq_name {len : Nat} {a b : Ty} {n m : String} {s : Subst}
    (ha : a.WellScoped len) (hb : b.WellScoped len) (hna : ∀ x ∈ a.freeNames, x = n)
    (hnb : ∀ x ∈ b.freeNames, x = n) (hs : unifyRigid a b = .ok s) (hm : s.image n = .name m) :
    s = [] := by
  have hmgu := isMgu_of_unifyRigid ha hb hs
  have hnames : ∀ x ∈ s.freeNames, x = n := fun x hx => (hmgu.names x hx).elim (hna x) (hnb x)
  obtain rfl : m = n := by
    have hmem : m ∈ (s.image n).freeNames := by simp [hm, Ty.freeNames]
    exact (Subst.mem_freeNames_image hmem).elim id (hnames m)
  refine Subst.eq_nil_of_domain fun x hx => ?_
  obtain rfl := hnames x (Subst.mem_freeNames_of_mem_domain hx)
  have hnot := hmgu.solved.notMem_freeNames_apply hx (.name x)
  rw [← Subst.image, hm] at hnot
  simp [Ty.freeNames] at hnot

/-- The bodies of two quantified types, compared with a name for the bound variable. -/
theorem tests_opened {a b : Ty} {n x : String} {k : Solution} (hΓ : Γ.IsClosed)
    (ha : a.IsClosedIn (Γ.length + 1)) (hb : b.IsClosedIn (Γ.length + 1)) (hk : k.subst = []) :
    Tests (a.alphaEq b = true) (unify ⟨.systemF, Γ⟩ (a.openWith n) (b.openWith n) k >>= fun k =>
      (keepRigid Γ k.subst n x).mapError RuleError.unify >>= fun s => .ok ⟨k.supply, s⟩) := by
  obtain ⟨hascoped, hanames⟩ := ha.openWith n
  obtain ⟨hbscoped, hbnames⟩ := hb.openWith n
  refine Tests.of_ok (k := ⟨k.supply, []⟩) rfl (fun halpha => ?_) fun k' hr => ?_
  · have hopened : (k.subst.apply (a.openWith n)).alphaEq (k.subst.apply (b.openWith n)) = true := by
      rw [hk]
      exact (alphaEq_openWith_iff ha hb).mpr halpha
    refine bind_eq_ok_iff.mpr ⟨k, ?_, bind_eq_ok_iff.mpr ⟨[], ?_, rfl⟩⟩
    · rw [unify, equate_of_alphaEq hopened]
      rfl
    · rw [hk, keepRigid_nil hΓ]
      rfl
  · -- a unifier of the opened bodies that keeps the name binds nothing
    obtain ⟨k₁, hunify, hr⟩ := bind_eq_ok_iff.mp hr
    obtain ⟨s', hkeep, -⟩ := bind_eq_ok_iff.mp hr
    obtain ⟨⟨m, hm, -⟩, -⟩ := keepRigid_eq_ok_iff.mp (mapError_eq_ok_iff.mp hkeep)
    refine (alphaEq_openWith_iff (n := n) ha hb).mp ?_
    rcases equate_eq_ok rfl (mapError_eq_ok_iff.mp hunify) with ⟨h, -⟩ | ⟨s, hs, -, rfl⟩
    · rwa [hk] at h
    · rw [hk] at hs hm
      rw [List.append_nil] at hm
      obtain rfl := eq_nil_of_image_eq_name hascoped hbscoped hanames hbnames hs hm
      exact alphaEq_of_unifyRigid_nil hascoped hbscoped hs

theorem tests_tyAbsBody {b : Ty} {n x : String} {k : Solution} (hΓ : Γ.IsClosed)
    (hty : ty.IsClosedIn Γ.length) (hb : b.IsClosedIn (Γ.length + 1)) (hk : k.subst = []) :
    Tests (∃ z a, ty = .all z a ∧ a.alphaEq b = true) (tyAbsBody ⟨.systemF, Γ⟩ n x ty b k) := by
  rw [tyAbsBody, hk]
  cases ty with
  | all z a => exact (tests_opened hΓ ⟨hty.wellScoped, hty.names⟩ hb hk).congr (by simp)
  | _ => exact fun h => by simp at h

theorem tests_checkTyAbs {b : Ty} {t t' : Term} {x y : String} {Δ : Context} (hΓ : Γ.IsClosed)
    (hty : ty.IsClosedIn Γ.length) (hp : Judgment.IsClosed ⟨⟨y, .tyVar⟩ :: Δ, t', b⟩) :
    Tests (Judgment.IsFor Γ t ⟨Δ, t', b⟩ ∧ ∃ z a, ty = .all z a ∧ a.alphaEq b = true)
      (checkTyAbs ⟨.systemF, Γ⟩ x t ty (.bare ⟨⟨y, .tyVar⟩ :: Δ, t', b⟩) ⟨σ, []⟩) := by
  rw [checkTyAbs_eq (p := .bare ⟨⟨y, .tyVar⟩ :: Δ, t', b⟩) x t ty rfl, Judgment.IsFor, and_assoc]
  refine (tests_sameContext (c := ⟨.systemF, Γ⟩) rfl rfl 0 hp.context.tail hΓ).bind
    fun hmatch k hk => tests_sameTerm_bind 0 _ _ ?_
  have hlength : Δ.length = Γ.length := hmatch.length_eq
  have hb : b.IsClosedIn (Δ.length + 1) := hp.ty
  exact tests_tyAbsBody hΓ hty (hlength ▸ hb) hk

theorem tests_check_abs {pos : Text.Position} {x : String} {a' : Ty} {t : Term} {p : Judgment}
    (hΓ : Γ.IsClosed) (hty : ty.IsClosedIn Γ.length) (ha' : a'.IsClosedIn Γ.length)
    (hp : p.IsClosed) :
    Tests (Rule.abs.Derives Γ ty (.abs pos x (some a') t) [p])
      (checkAbs ⟨.systemF, Γ⟩ (some a') t ty (.bare p) ⟨σ, []⟩) := by
  by_cases hext : ∃ y a Δ, p.context = ⟨y, .var a⟩ :: Δ
  · obtain ⟨Γ', t', b⟩ := p
    obtain ⟨y, a, Δ, rfl⟩ := hext
    exact tests_checkAbs hΓ hty ha' hp
  · obtain ⟨err, he⟩ := checkAbs_eq_error (c := ⟨.systemF, Γ⟩) (k := ⟨σ, []⟩) (p := .bare p)
      (some a') t ty fun y a Δ h => hext ⟨y, a, Δ, h⟩
    rw [he]
    exact fun h => hext (Rule.exists_cons_of_derives_abs h)

theorem tests_check_letIn {pos : Text.Position} {x : String} {e t : Term} {p q : Judgment}
    (hΓ : Γ.IsClosed) (hty : ty.IsClosedIn Γ.length) (hp : p.IsClosed) (hq : q.IsClosed) :
    Tests (Rule.letIn.Derives Γ ty (.letIn pos x e t) [p, q])
      (checkLet ⟨.systemF, Γ⟩ e t ty (.bare p) (.bare q) ⟨σ, []⟩) := by
  by_cases hext : ∃ y a Δ, q.context = ⟨y, .var a⟩ :: Δ
  · obtain ⟨Γ', t', b⟩ := q
    obtain ⟨y, a, Δ, rfl⟩ := hext
    exact tests_checkLet hΓ hty hp hq
  · obtain ⟨err, he⟩ := checkLet_eq_error (c := ⟨.systemF, Γ⟩) (k := ⟨σ, []⟩) (q := .bare q) e t ty
      (.bare p) fun y a Δ h => hext ⟨y, a, Δ, h⟩
    rw [he]
    exact fun h => hext (Rule.exists_cons_of_derives_letIn h)

theorem tests_check_tyAbs {pos : Text.Position} {x : String} {t : Term} {p : Judgment}
    (hΓ : Γ.IsClosed) (hty : ty.IsClosedIn Γ.length) (hp : p.IsClosed) :
    Tests (Rule.tyAbs.Derives Γ ty (.tyAbs pos x t) [p])
      (checkTyAbs ⟨.systemF, Γ⟩ x t ty (.bare p) ⟨σ, []⟩) := by
  by_cases hext : ∃ y Δ, p.context = ⟨y, .tyVar⟩ :: Δ
  · obtain ⟨Γ', t', b⟩ := p
    obtain ⟨y, Δ, rfl⟩ := hext
    exact tests_checkTyAbs hΓ hty hp
  · obtain ⟨err, he⟩ := checkTyAbs_eq_error (c := ⟨.systemF, Γ⟩) (k := ⟨σ, []⟩) (p := .bare p) x t ty
      fun y Δ h => hext ⟨y, Δ, h⟩
    rw [he]
    exact fun h => hext (Rule.exists_cons_of_derives_tyAbs h)

/-- The check of a rule that fits its term and has all its premises. -/
theorem tests_check {t : Term} {r : Rule} {js : List Judgment} (hj : Judgment.IsClosed ⟨Γ, t, ty⟩)
    (hterm : Calculus.systemF.admitsTerm t = .ok ()) (hfits : r.fits t = true)
    (harity : js.length = r.arity) (hjs : ∀ j ∈ js, j.IsClosed) :
    Tests (r.Derives Γ ty t js) (check ⟨.systemF, Γ⟩ r t ty (js.map .bare) ⟨σ, []⟩) := by
  have hΓ : Γ.IsClosed := hj.context
  have hty : ty.IsClosedIn Γ.length := hj.ty
  cases r with
  | none => cases t <;> simp [Rule.fits] at hfits
  | var =>
    obtain rfl := List.length_eq_zero_iff.mp harity
    cases t with
    | var pos i n => exact tests_checkVar hΓ hty
    | _ => simp [Rule.fits] at hfits
  | abs =>
    obtain ⟨p, rfl⟩ := List.length_eq_one_iff.mp harity
    cases t with
    | abs pos x annot t =>
      cases annot with
      | none => cases hterm
      | some a' => exact tests_check_abs hΓ hty (hj.annot a' rfl) (hjs p (by simp))
    | _ => simp [Rule.fits] at hfits
  | app =>
    obtain ⟨p, q, rfl⟩ := List.length_eq_two.mp harity
    cases t with
    | app pos t u => exact tests_checkApp hΓ hty hjs
    | _ => simp [Rule.fits] at hfits
  | ite =>
    obtain ⟨p, q, r, rfl⟩ := List.length_eq_three.mp harity
    cases t with
    | ite pos i t e => exact tests_checkIte hΓ hty hjs
    | _ => simp [Rule.fits] at hfits
  | tyAbs =>
    obtain ⟨p, rfl⟩ := List.length_eq_one_iff.mp harity
    cases t with
    | tyAbs pos x t => exact tests_check_tyAbs hΓ hty (hjs p (by simp))
    | _ => simp [Rule.fits] at hfits
  | tyApp =>
    obtain ⟨p, rfl⟩ := List.length_eq_one_iff.mp harity
    cases t with
    | tyApp pos t arg => exact tests_checkTyApp hΓ hty hj.tyArg (hjs p (by simp))
    | _ => simp [Rule.fits] at hfits
  | letIn =>
    obtain ⟨p, q, rfl⟩ := List.length_eq_two.mp harity
    cases t with
    | letIn pos x e t => exact tests_check_letIn hΓ hty (hjs p (by simp)) (hjs q (by simp))
    | _ => simp [Rule.fits] at hfits
  | constTrue =>
    obtain rfl := List.length_eq_zero_iff.mp harity
    cases t with
    | const pos b =>
      obtain rfl : b = true := hfits
      exact tests_unify (c := ⟨.systemF, Γ⟩) (k := ⟨σ, []⟩) rfl rfl hty (.bool _)
    | _ => simp [Rule.fits] at hfits
  | constFalse =>
    obtain rfl := List.length_eq_zero_iff.mp harity
    cases t with
    | const pos b =>
      obtain rfl : b = false := by simpa [Rule.fits] using hfits
      exact tests_unify (c := ⟨.systemF, Γ⟩) (k := ⟨σ, []⟩) rfl rfl hty (.bool _)
    | _ => simp [Rule.fits] at hfits

end Rules

end Conclusion

/-- The nodes of a checked tree, each with all that stands below it. -/
inductive Checked.HasNode : Checked → Checked → Prop
  | root (c : Checked) : HasNode c c
  | child {c d n : Checked} (hd : d ∈ c.children) (hn : HasNode d n) : HasNode c n

namespace RuleTree

/-- All fields of the root can be read, and their types have no names. -/
def IsNameFree (n : RuleTree) : Prop := ∃ j, n.judgment? = some j ∧ j.freeNames = []

theorem isNameFree_iff {n : RuleTree} :
    n.IsNameFree ↔ n.judgment?.map Judgment.freeNames = some [] := Option.map_eq_some_iff.symm

instance (n : RuleTree) : Decidable n.IsNameFree := decidable_of_iff _ isNameFree_iff.symm

/-- System F admits the judgment of the root, and derives it by its rule from those of the
children. -/
def IsInstance (n : RuleTree) : Prop :=
  ∃ j js, n.judgment? = some j ∧ n.children.map judgment? = js.map some ∧ j.Admitted .systemF ∧
    n.rule.Derives j.context j.ty j.term js

theorem exists_judgments {cs : List RuleTree} (h : ∀ c ∈ cs, c.IsNameFree) :
    ∃ js : List Judgment, cs.map judgment? = js.map some ∧ ∀ j ∈ js, j.IsClosed := by
  induction cs with
  | nil => exact ⟨[], rfl, by simp⟩
  | cons c cs ih =>
    rw [List.forall_mem_cons] at h
    obtain ⟨j, hj, hnames⟩ := h.1
    obtain ⟨js, hjs, hclosed⟩ := ih h.2
    exact ⟨j :: js, by simp [hj, hjs],
      List.forall_mem_cons.mpr ⟨⟨formed_of_judgment? hj, hnames⟩, hclosed⟩⟩

/-- Children that bind nothing are premises as they stand. -/
theorem map_asPremise_eq {k : Calculus} {cs : List RuleTree} {js : List Judgment}
    (hjs : cs.map judgment? = js.map some) (h : ∀ c ∈ cs, (c.check k).outcome = .ok []) :
    cs.map (fun c => (c.check k).asPremise) =
      (js.map Premise.bare).map fun p => (some p.judgment, p.subst) := by
  induction cs generalizing js with
  | nil =>
    cases js with
    | nil => rfl
    | cons j js => simp at hjs
  | cons c cs ih =>
    cases js with
    | nil => simp at hjs
    | cons j js =>
      rw [List.map_cons, List.map_cons, List.cons.injEq] at hjs
      rw [List.forall_mem_cons] at h
      have hfields : (c.check k).fields.judgment? = some j := by
        rw [fields_check]
        exact hjs.1
      have hc : (c.check k).asPremise = (some j, []) := by
        simp [Checked.asPremise, hfields, h.1]
      rw [List.map_cons, ih hjs.2 h.2, hc]
      rfl

/-- One node above valid trees that bind nothing. -/
theorem checkRule_eq_ok_iff_derives {r : Rule} {j : Judgment} {js : List Judgment} {s : Subst}
    (hj : j.IsClosed) (hadmitted : j.Admitted .systemF) (hjs : ∀ i ∈ js, i.IsClosed) :
    checkRule .systemF r j ((js.map Premise.bare).map fun p => (some p.judgment, p.subst)) = .ok s ↔
      r.Derives j.context j.ty j.term js ∧ s = [] := by
  have htests : r.fits j.term = true → js.length = r.arity → ∀ σ : NameSupply,
      Tests (r.Derives j.context j.ty j.term js)
        (Conclusion.check ⟨.systemF, j.context⟩ r j.term j.ty (js.map Premise.bare) ⟨σ, []⟩) :=
    fun hfits harity σ => Conclusion.tests_check hj hadmitted.term hfits harity hjs
  rw [checkRule_eq_ok_iff]
  constructor
  · rintro ⟨hfits, harity, ps, hps, σ, hcheck⟩
    obtain rfl : js.map Premise.bare = ps := by
      refine (List.map_inj_right fun p q hpq => ?_).mp hps
      obtain ⟨j₁, s₁⟩ := p
      obtain ⟨j₂, s₂⟩ := q
      simpa using hpq
    have h := htests hfits (by simpa using harity.symm) (.avoiding (namesInUse j (js.map Premise.bare)))
    rw [hcheck] at h
    exact h
  · rintro ⟨hderives, rfl⟩
    obtain ⟨hfits, harity⟩ := Rule.fits_of_derives hderives
    refine ⟨hfits, by simpa using harity.symm, js.map Premise.bare, rfl, ?_⟩
    have h := htests hfits harity (.avoiding (namesInUse j (js.map Premise.bare)))
    cases hcheck : Conclusion.check ⟨.systemF, j.context⟩ r j.term j.ty (js.map Premise.bare)
        ⟨.avoiding (namesInUse j (js.map Premise.bare)), []⟩ with
    | error e =>
      rw [hcheck] at h
      exact absurd hderives h
    | ok k =>
      rw [hcheck] at h
      obtain ⟨σ, s⟩ := k
      obtain rfl : s = [] := h.2
      exact ⟨σ, rfl⟩

theorem isValid_iff_forall_isInstance {t : RuleTree} (h : ∀ n, t.HasNode n → n.IsNameFree) :
    ((t.check .systemF).isValid = true ↔ ∀ n, t.HasNode n → n.IsInstance) ∧
      ((t.check .systemF).isValid = true → (t.check .systemF).outcome = .ok []) := by
  induction t using RuleTree.induction with
  | node t ih =>
    obtain ⟨⟨j, hj, hnames⟩, hbelow⟩ := forall_hasNode_iff.mp h
    obtain ⟨js, hjs, hclosed⟩ := exists_judgments fun c hc => hbelow c hc c (.root c)
    -- what the check of the rule says, once the trees below are valid
    have hnode : j.Admitted .systemF → (∀ c ∈ t.children, (c.check .systemF).isValid = true) → ∀ s,
        checkRule .systemF t.rule j (t.children.map fun c => (c.check .systemF).asPremise) = .ok s ↔
          t.rule.Derives j.context j.ty j.term js ∧ s = [] := fun hadmitted hvalid s => by
      rw [map_asPremise_eq hjs fun c hc => (ih c hc (hbelow c hc)).2 (hvalid c hc)]
      exact checkRule_eq_ok_iff_derives ⟨formed_of_judgment? hj, hnames⟩ hadmitted hclosed
    have hforward : (t.check .systemF).isValid = true →
        (∀ n, t.HasNode n → n.IsInstance) ∧ (t.check .systemF).outcome = .ok [] := fun hvalid => by
      obtain ⟨⟨s, hs⟩, -⟩ := Checked.isValid_iff.mp hvalid
      obtain ⟨j', hj', hadmitted, hrule, hchildren⟩ := isValid_check_iff.mp ⟨hvalid, hs⟩
      obtain rfl : j = j' := Option.some.inj (hj.symm.trans hj')
      obtain ⟨hderives, rfl⟩ := (hnode hadmitted hchildren s).mp hrule
      refine ⟨forall_hasNode_iff.mpr ⟨⟨j, js, hj, hjs, hadmitted, hderives⟩, fun c hc => ?_⟩, hs⟩
      exact (ih c hc (hbelow c hc)).1.mp (hchildren c hc)
    refine ⟨⟨fun hvalid => (hforward hvalid).1, fun hinstances => ?_⟩, fun hvalid => (hforward hvalid).2⟩
    obtain ⟨⟨j', js', hj', hjs', hadmitted, hderives⟩, hinstances⟩ := forall_hasNode_iff.mp hinstances
    obtain rfl : j = j' := Option.some.inj (hj.symm.trans hj')
    obtain rfl : js = js' :=
      (List.map_inj_right fun _ _ => Option.some.inj).mp (hjs.symm.trans hjs')
    have hchildren : ∀ c ∈ t.children, (c.check .systemF).isValid = true := fun c hc =>
      (ih c hc (hbelow c hc)).1.mpr (hinstances c hc)
    have hrule := (hnode hadmitted hchildren []).mpr ⟨hderives, rfl⟩
    exact (isValid_check_iff.mpr ⟨j, hj, hadmitted, hrule, hchildren⟩).1

theorem HasNode.trans {t n m : RuleTree} (hn : t.HasNode n) (hm : n.HasNode m) : t.HasNode m := by
  induction hn with
  | root t => exact hm
  | child hc _ ih => exact .child hc (ih hm)

theorem isValid_of_hasNode {k : Calculus} {t n : RuleTree} (hn : t.HasNode n)
    (h : (t.check k).isValid = true) : (n.check k).isValid = true := by
  induction hn with
  | root t => exact h
  | child hc _ ih =>
    obtain ⟨⟨s, hs⟩, -⟩ := Checked.isValid_iff.mp h
    obtain ⟨-, -, -, -, hchildren⟩ := isValid_check_iff.mp ⟨h, hs⟩
    exact ih (hchildren _ hc)

/-- Where every node has a judgment, the nodes of a checked tree are the checks of the nodes. -/
theorem exists_hasNode_of_check {k : Calculus} {t : RuleTree}
    (hjudgments : ∀ n, t.HasNode n → ∃ j, n.judgment? = some j) {c : Checked}
    (hc : (t.check k).HasNode c) : ∃ n, t.HasNode n ∧ c = n.check k := by
  induction t using RuleTree.induction with
  | node t ih =>
    obtain ⟨⟨j, hj⟩, hbelow⟩ := forall_hasNode_iff.mp hjudgments
    generalize hd : t.check k = d at hc
    cases hc with
    | root => exact ⟨t, .root t, hd.symm⟩
    | child hmem hn =>
      rw [← hd, check_eq hj] at hmem
      obtain ⟨u, hu, rfl⟩ := List.mem_map.mp hmem
      obtain ⟨n, hun, rfl⟩ := ih u hu (hbelow u hu) hn
      exact ⟨n, .child hu hun, rfl⟩

/-- The check is exact for trees without names: a tree is valid if and only if every node is admitted
and is an instance of its rule. Then no node binds a name, and the judgment of the root is derivable
as it stands. -/
theorem check_systemF_exact {t : RuleTree} (h : ∀ n, t.HasNode n → n.IsNameFree) :
    ((t.check .systemF).isValid = true ↔ ∀ n, t.HasNode n → n.IsInstance) ∧
    ((t.check .systemF).isValid = true →
      (∀ c, (t.check .systemF).HasNode c → c.outcome = .ok []) ∧
      ∃ j, t.judgment? = some j ∧ SystemF j.context j.term j.ty) := by
  refine ⟨(isValid_iff_forall_isInstance h).1, fun hvalid => ?_⟩
  have houtcome : ∀ n, t.HasNode n → (n.check .systemF).outcome = .ok [] := fun n hn =>
    (isValid_iff_forall_isInstance fun m hm => h m (hn.trans hm)).2 (isValid_of_hasNode hn hvalid)
  have hjudgments : ∀ n, t.HasNode n → ∃ j, n.judgment? = some j := fun n hn =>
    (h n hn).imp fun j hj => hj.1
  refine ⟨fun c hc => ?_, ?_⟩
  · obtain ⟨n, hn, rfl⟩ := exists_hasNode_of_check hjudgments hc
    exact houtcome n hn
  · obtain ⟨j, hj⟩ := hjudgments t (.root t)
    obtain ⟨Δ, hΔ, hderiv⟩ := (sound_of_isValid (p := ⟨j, []⟩) hj hvalid (houtcome t (.root t))
      fun n hn => keepsTypeVariable_of_outcome_eq_nil (houtcome n hn)).derivable
    rw [Context.apply_nil] at hΔ
    cases hΔ
    rw [Subst.image_nil, Term.mapNames_id] at hderiv
    exact ⟨j, hj, hderiv⟩

/-- The identity at its own type, with other variables at every node. -/
def identityAtItself : RuleTree :=
  ⟨"y: Bool", "(ΛX. λx: X. x) [∀X. X → X]", "(∀Y. Y → Y) → ∀Z. Z → Z", .tyApp,
    [⟨"z: Bool", "ΛY. λy: Y. y", "∀Z. Z → Z", .tyAbs,
      [⟨"y: Bool, Z", "λz: Z. z", "Z → Z", .abs, [⟨"y: Bool, X, x: X", "x", "X", .var, []⟩]⟩]⟩]⟩

theorem check_systemF_exact_identityAtItself :
    (∀ n, identityAtItself.HasNode n → n.IsNameFree) ∧
      (identityAtItself.check .systemF).isValid = true ∧
      (∀ n, identityAtItself.HasNode n → n.IsInstance) ∧
      (∀ c, (identityAtItself.check .systemF).HasNode c → c.outcome = .ok []) ∧
      ∃ j, identityAtItself.judgment? = some j ∧ SystemF j.context j.term j.ty := by
  have hnames : ∀ n, identityAtItself.HasNode n → n.IsNameFree := by
    refine forall_hasNode_iff.mpr ⟨by decide +kernel, List.forall_mem_singleton.mpr ?_⟩
    refine forall_hasNode_iff.mpr ⟨by decide +kernel, List.forall_mem_singleton.mpr ?_⟩
    refine forall_hasNode_iff.mpr ⟨by decide +kernel, List.forall_mem_singleton.mpr ?_⟩
    exact forall_hasNode_iff.mpr ⟨by decide +kernel, by simp⟩
  have hvalid : (identityAtItself.check .systemF).isValid = true := by decide +kernel
  obtain ⟨hexact, hclosed⟩ := check_systemF_exact hnames
  exact ⟨hnames, hvalid, hexact.mp hvalid, hclosed hvalid⟩

end RuleTree

end LambdaTyping
