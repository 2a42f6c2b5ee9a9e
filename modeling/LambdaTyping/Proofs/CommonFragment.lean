import Mathlib
import LambdaTyping.Proofs.SystemFRules
import LambdaTyping.Proofs.SimplyTypedTrees
import LambdaTyping.Proofs.RigidCalls

/-!
# Where the calculi agree

Trees whose fields all belong to the simply typed calculus are checked alike in
all three calculi, although the checks go different ways.

System F solves its equations rigidly. On simple types both unifiers find the
same substitution, or fail with the same error, and the substitutions that are
handed on bind names to simple types again. So the outcomes are the same at every
node, failed ones included.

Hindley-Milner opens the type of a variable and lists the bindings of a variable's
node anew. The lists differ, but they have the same solutions, and so the same
trees are valid as long as there is no `let`.
-/
namespace LambdaTyping

/-- Two checks give the same result, or the same error, and a result has the property. -/
structure Agree {ε α : Type} (p : α → Prop) (r r' : Except ε α) : Prop where
  eq : r = r'
  holds : ∀ a, r = .ok a → p a

namespace Agree

variable {ε ε' α β : Type} {p : α → Prop} {q : β → Prop} {r r' : Except ε α}

theorem ok {a : α} (h : p a) : Agree (ε := ε) p (.ok a) (.ok a) :=
  ⟨rfl, fun _ hb => Except.ok.inj hb ▸ h⟩

theorem error {e : ε} : Agree p (.error e) (.error e) := ⟨rfl, fun _ h => by cases h⟩

theorem bind {f f' : α → Except ε β} (h : Agree p r r') (hf : ∀ a, p a → Agree q (f a) (f' a)) :
    Agree q (r >>= f) (r' >>= f') := by
  obtain ⟨rfl, hp⟩ := h
  cases r with
  | error e => exact error
  | ok a => exact hf a (hp a rfl)

/-- A step that does not depend on the calculus. -/
theorem step (r : Except ε α) {f f' : α → Except ε β} (hf : ∀ a, r = .ok a → Agree q (f a) (f' a)) :
    Agree q (r >>= f) (r >>= f') :=
  bind (p := fun a => r = .ok a) ⟨rfl, fun _ h => h⟩ hf

theorem mapError (h : Agree p r r') (f : ε → ε') : Agree p (r.mapError f) (r'.mapError f) := by
  obtain ⟨rfl, hp⟩ := h
  cases r with
  | error e => exact error
  | ok a => exact ok (hp a rfl)

end Agree

/-- All bindings of the substitution found so far are to simple types. -/
def Solution.IsSimple (k : Solution) : Prop := k.subst.IsSimple

/-- One conclusion, in the simply typed calculus and in System F. -/
structure Conclusion.Twins (c d : Conclusion) : Prop where
  simplyTyped : c.calculus = .simplyTyped
  systemF : d.calculus = .systemF
  context : d.context = c.context
  isSimple : c.context.IsSimple

namespace Conclusion.Twins

variable {c d : Conclusion} {k : Solution} {a b : Ty}

theorem solve_eq (h : c.Twins d) (ha : a.isSimple) (hb : b.isSimple) (σ : NameSupply) :
    c.solve a b σ = d.solve a b σ := by
  have hrun := congrFun (unifyOpening_eq_ofExcept (Ty.isMono_of_isSimple ha)
    (Ty.isMono_of_isSimple hb)) σ
  rw [solve_systemF h.systemF]
  unfold solve
  rw [h.simplyTyped, hrun]
  cases unifyRigid a b <;> rfl

theorem agree_equate (h : c.Twins d) (hk : k.IsSimple) (ha : a.isSimple) (hb : b.isSimple) :
    Agree Solution.IsSimple (c.equate a b k) (d.equate a b k) := by
  have ha' := Subst.IsSimple.apply hk ha
  have hb' := Subst.IsSimple.apply hk hb
  have hne : c.calculus ≠ .systemF := by simp [h.simplyTyped]
  refine ⟨by simp only [equate, h.solve_eq ha' hb', h.context], fun k' hk' => ?_⟩
  cases halpha : (k.subst.apply a).alphaEq (k.subst.apply b) with
  | true =>
    rw [equate_of_alphaEq halpha] at hk'
    exact Except.ok.inj hk' ▸ hk
  | false =>
    rcases unifyOpening_cases ha' hb' with ⟨s, hs, hrun⟩ | ⟨⟨e, hrun⟩, -⟩
    · have hsimple := hs.isSimple.append hk
      rw [equate_of_unifyOpening_ok hne halpha hsimple (hrun k.supply)] at hk'
      exact Except.ok.inj hk' ▸ hsimple
    · rw [equate_of_unifyOpening_error hne halpha (hrun k.supply)] at hk'
      cases hk'

theorem agree_unify (h : c.Twins d) (hk : k.IsSimple) (ha : a.isSimple) (hb : b.isSimple) :
    Agree Solution.IsSimple (c.unify a b k) (d.unify a b k) :=
  (h.agree_equate hk ha hb).mapError RuleError.unify

theorem agree_adopt (h : c.Twins d) (i : Nat) {s : Subst} (hs : s.IsSimple) (hk : k.IsSimple) :
    Agree Solution.IsSimple (c.adopt i s k) (d.adopt i s k) := by
  induction s with
  | nil => exact .ok hk
  | cons b s ih =>
    refine (ih fun b hb => hs b (List.mem_cons_of_mem _ hb)).bind fun k hk => ?_
    exact (h.agree_equate hk rfl (hs b (by simp))).mapError (RuleError.conflict i)

theorem agree_adoptAll (h : c.Twins d) (i : Nat) {ps : List Premise}
    (hps : ∀ p ∈ ps, p.subst.IsSimple) (hk : k.IsSimple) :
    Agree Solution.IsSimple (c.adoptAll i ps k) (d.adoptAll i ps k) := by
  induction ps generalizing i k with
  | nil => exact .ok hk
  | cons p ps ih =>
    rw [List.forall_mem_cons] at hps
    exact (h.agree_adopt i hps.1 hk).bind fun k hk => ih (i + 1) hps.2 hk

theorem agree_equateBelow (h : c.Twins d) (e : RuleError) {Γ₀ Δ₀ : Context} (hΓ₀ : Γ₀.IsSimple)
    (hΔ₀ : Δ₀.IsSimple) (n : Nat) {Γ Δ : Context} (hk : k.IsSimple) :
    Agree Solution.IsSimple
      (match c.equateBelow Γ₀ Δ₀ n Γ Δ k with
        | some k => .ok k
        | none => .error e)
      (match d.equateBelow Γ₀ Δ₀ n Γ Δ k with
        | some k => .ok k
        | none => .error e) := by
  induction Γ generalizing Δ n k with
  | nil =>
    cases Δ with
    | nil => exact .ok hk
    | cons f Δ => exact .error
  | cons e₁ Γ ih =>
    cases Δ with
    | nil => exact .error
    | cons f Δ =>
      obtain ⟨x, b₁⟩ := e₁
      obtain ⟨y, b₂⟩ := f
      cases hkind : b₁.sameKind b₂ with
      | false =>
        rw [equateBelow_of_sameKind_eq_false hkind, equateBelow_of_sameKind_eq_false hkind]
        exact .error
      | true =>
        cases b₁ with
        | var a₁ =>
          cases b₂ with
          | var a₂ =>
            simp only [equateBelow]
            cases hA : Γ₀.getType? n with
            | none => exact .error
            | some A =>
              cases hB : Δ₀.getType? n with
              | none => exact .error
              | some B =>
                obtain ⟨heq, hsimple⟩ := h.agree_equate hk (hΓ₀ n A hA) (hΔ₀ n B hB)
                simp only [← heq]
                cases hr : c.equate A B k with
                | error err => exact .error
                | ok k' => exact ih (n + 1) (hsimple k' hr)
          | _ => simp [Binding.sameKind] at hkind
        | _ =>
          rw [equateBelow_of_untyped hkind (by simp), equateBelow_of_untyped hkind (by simp)]
          exact ih (n + 1) hk

theorem agree_sameContext (h : c.Twins d) (i : Nat) {Δ : Context} (hΔ : Δ.IsSimple)
    (hk : k.IsSimple) : Agree Solution.IsSimple (c.sameContext i Δ k) (d.sameContext i Δ k) := by
  unfold sameContext
  rw [h.context]
  split
  · exact .error
  · exact h.agree_equateBelow (.context i) hΔ h.isSimple 0 hk

theorem agree_samePremises (h : c.Twins d) (i : Nat) {ps : List Premise} {ts : List Term}
    (hps : ∀ p ∈ ps, p.judgment.context.IsSimple) (hk : k.IsSimple) :
    Agree Solution.IsSimple (c.samePremises i ps ts k) (d.samePremises i ps ts k) := by
  induction ps generalizing ts i k with
  | nil => exact .ok hk
  | cons p ps ih =>
    cases ts with
    | nil => exact .ok hk
    | cons t ts =>
      rw [List.forall_mem_cons] at hps
      exact (h.agree_sameContext i hps.1 hk).bind fun k hk => .step _ fun _ _ =>
        ih (i + 1) hps.2 hk

theorem agree_extended (h : c.Twins d) (i : Nat) {Δ : Context} (hΔ : Δ.IsSimple)
    (hk : k.IsSimple) :
    Agree (fun b => (∀ a, b.1 = .var a → a.isSimple) ∧ b.2.IsSimple)
      (c.extended i Δ k) (d.extended i Δ k) := by
  cases Δ with
  | nil => exact .error
  | cons e Δ =>
    rw [extended_cons, extended_cons]
    refine (h.agree_sameContext i hΔ.tail hk).bind fun k hk => .ok ⟨fun a ha => ?_, hk⟩
    obtain ⟨x, b⟩ := e
    cases ha
    exact hΔ.of_cons.1

theorem agree_checkVar (h : c.Twins d) (i : Nat) {ty : Ty} (hty : ty.isSimple) (hk : k.IsSimple) :
    Agree Solution.IsSimple (c.checkVar i ty k) (d.checkVar i ty k) := by
  unfold checkVar
  rw [h.context, h.simplyTyped, h.systemF]
  cases hi : c.context.getType? i with
  | none => exact .error
  | some a => exact h.agree_unify hk (h.isSimple i a hi) hty

theorem agree_checkAbs (h : c.Twins d) {annot : Option Ty} (hannot : ∀ a ∈ annot, a.isSimple)
    (t : Term) {ty : Ty} (hty : ty.isSimple) {p : Premise} (hj : p.judgment.IsSimple)
    (hs : p.subst.IsSimple) (hk : k.IsSimple) :
    Agree Solution.IsSimple (c.checkAbs annot t ty p k) (d.checkAbs annot t ty p k) := by
  have hb : (p.judgment.ty.shift (-1)).isSimple := by rw [Ty.shift_of_isSimple _ hj.ty]; exact hj.ty
  refine (h.agree_extended 0 hj.context hk).bind fun ⟨b, k⟩ ⟨hb', hk⟩ => ?_
  cases b with
  | var a =>
    have ha := hb' a rfl
    refine .step _ fun _ _ => ?_
    rw [unbind_of_isSimple 0 hs]
    refine (h.agree_adopt 0 hs hk).bind fun k hk => ?_
    have hconclusion : ∀ k : Solution, k.IsSimple → Agree Solution.IsSimple
        (c.unify ty (.arr a (p.judgment.ty.shift (-1))) k)
        (d.unify ty (.arr a (p.judgment.ty.shift (-1))) k) := fun k hk =>
      h.agree_unify hk hty ((Ty.isSimple_arr a _).mpr ⟨ha, hb⟩)
    cases annot with
    | none => exact hconclusion k hk
    | some a' => exact (h.agree_unify hk (hannot a' rfl) ha).bind hconclusion
  | _ => exact .error

theorem agree_checkApp (h : c.Twins d) (t u : Term) {ty : Ty} (hty : ty.isSimple) {p q : Premise}
    (hps : ∀ r ∈ [p, q], r.judgment.IsSimple ∧ r.subst.IsSimple) (hk : k.IsSimple) :
    Agree Solution.IsSimple (c.checkApp t u ty p q k) (d.checkApp t u ty p q k) := by
  refine (h.agree_samePremises 0 (fun r hr => (hps r hr).1.context) hk).bind fun k hk => ?_
  refine (h.agree_adoptAll 0 (fun r hr => (hps r hr).2) hk).bind fun k hk => ?_
  exact h.agree_unify hk (hps p (by simp)).1.ty
    ((Ty.isSimple_arr _ _).mpr ⟨(hps q (by simp)).1.ty, hty⟩)

theorem agree_checkIte (h : c.Twins d) (i t e : Term) {ty : Ty} (hty : ty.isSimple)
    {p q r : Premise} (hps : ∀ r' ∈ [p, q, r], r'.judgment.IsSimple ∧ r'.subst.IsSimple)
    (hk : k.IsSimple) :
    Agree Solution.IsSimple (c.checkIte i t e ty p q r k) (d.checkIte i t e ty p q r k) := by
  refine (h.agree_samePremises 0 (fun r hr => (hps r hr).1.context) hk).bind fun k hk => ?_
  refine (h.agree_adoptAll 0 (fun r hr => (hps r hr).2) hk).bind fun k hk => ?_
  refine (h.agree_unify hk (hps p (by simp)).1.ty rfl).bind fun k hk => ?_
  refine (h.agree_unify hk (hps q (by simp)).1.ty hty).bind fun k hk => ?_
  exact h.agree_unify hk (hps r (by simp)).1.ty hty

theorem agree_checkLet (h : c.Twins d) (e t : Term) {ty : Ty} (hty : ty.isSimple) {p q : Premise}
    (hps : ∀ r ∈ [p, q], r.judgment.IsSimple ∧ r.subst.IsSimple) (hk : k.IsSimple) :
    Agree Solution.IsSimple (c.checkLet e t ty p q k) (d.checkLet e t ty p q k) := by
  simp only [List.forall_mem_cons] at hps
  obtain ⟨⟨hp, hps⟩, ⟨hq, hqs⟩, -⟩ := hps
  have hb : (q.judgment.ty.shift (-1)).isSimple := by rw [Ty.shift_of_isSimple _ hq.ty]; exact hq.ty
  refine (h.agree_samePremises 0 (by simpa using hp.context) hk).bind fun k hk => ?_
  refine (h.agree_extended 1 hq.context hk).bind fun ⟨b, k⟩ ⟨hb', hk⟩ => ?_
  cases b with
  | var a =>
    refine .step _ fun _ _ => ?_
    refine (h.agree_adopt 0 hps hk).bind fun k hk => ?_
    rw [unbind_of_isSimple 1 hqs]
    refine (h.agree_adopt 1 hqs hk).bind fun k hk => ?_
    rw [h.simplyTyped, h.systemF]
    exact (h.agree_unify hk (hb' a rfl) hp.ty).bind fun k hk => h.agree_unify hk hty hb
  | _ => exact .error

theorem agree_check (h : c.Twins d) {r : Rule} {t : Term} (ht : t.IsPlain) {ty : Ty}
    (hty : ty.isSimple) {ps : List Premise}
    (hps : ∀ p ∈ ps, p.judgment.IsSimple ∧ p.subst.IsSimple) (hk : k.IsSimple) :
    Agree Solution.IsSimple (c.check r t ty ps k) (d.check r t ty ps k) := by
  unfold check
  split
  case h_1 => exact h.agree_checkVar _ hty hk
  case h_2 => exact h.agree_checkAbs ht.1 _ hty (hps _ (by simp)).1 (hps _ (by simp)).2 hk
  case h_3 => exact h.agree_checkApp _ _ hty hps hk
  case h_4 => exact h.agree_checkIte _ _ _ hty hps hk
  case h_5 => exact ht.elim
  case h_6 => exact ht.elim
  case h_7 => exact h.agree_checkLet _ _ hty hps hk
  case h_8 => exact h.agree_unify hk hty rfl
  case h_9 => exact h.agree_unify hk hty rfl
  case h_10 => exact .error

end Conclusion.Twins

/-- The calculus admits every field that has a value. -/
structure Fields.Admitted (k : Calculus) (f : Fields) : Prop where
  context : ∀ Γ, f.context = .ok Γ → k.admitsContext Γ = .ok ()
  term : ∀ t, f.term = .ok t → k.admitsTerm t = .ok ()
  ty : ∀ a, f.ty = .ok a → k.admitsType a = .ok ()

theorem Fields.admitted_iff {k : Calculus} {f : Fields} : f.Admitted k ↔
    (∀ Γ ∈ f.context.toOption, k.admitsContext Γ = .ok ()) ∧
      (∀ t ∈ f.term.toOption, k.admitsTerm t = .ok ()) ∧
      ∀ a ∈ f.ty.toOption, k.admitsType a = .ok () := by
  simp only [Option.mem_def, toOption_eq_some_iff]
  exact ⟨fun h => ⟨h.context, h.term, h.ty⟩, fun h => ⟨h.1, h.2.1, h.2.2⟩⟩

instance {k : Calculus} {f : Fields} : Decidable (f.Admitted k) := decidable_of_iff _ Fields.admitted_iff.symm

theorem Fields.judgment_eq_ok_iff {f : Fields} {j : Judgment} : f.judgment = .ok j ↔
    f.context = .ok j.context ∧ f.term = .ok j.term ∧ f.ty = .ok j.ty := by
  obtain ⟨Γ, t, ty⟩ := j
  simp only [Fields.judgment, bind_eq_ok_iff, pure, Except.pure, Except.ok.injEq, Judgment.mk.injEq]
  grind

theorem Fields.Admitted.judgment {k : Calculus} {f : Fields} (h : f.Admitted k) {j : Judgment}
    (hj : f.judgment? = some j) : j.Admitted k := by
  obtain ⟨hΓ, ht, hty⟩ := judgment_eq_ok_iff.mp (judgment?_eq_some_iff.mp hj)
  exact ⟨h.context _ hΓ, h.term _ ht, h.ty _ hty⟩

theorem agree_checkRule {r : Rule} {j : Judgment} (hj : j.IsSimple)
    {cs : List (Option Judgment × Subst)}
    (hcs : ∀ c ∈ cs, c.2.IsSimple ∧ ∀ i ∈ c.1, i.IsSimple) :
    Agree Subst.IsSimple (checkRule .simplyTyped r j cs) (checkRule .systemF r j cs) := by
  have htwins : Conclusion.Twins ⟨.simplyTyped, j.context⟩ ⟨.systemF, j.context⟩ :=
    ⟨rfl, rfl, rfl, hj.context⟩
  unfold checkRule
  by_cases hnone : r = .none
  · rw [if_pos hnone, if_pos hnone]
    exact .error
  rw [if_neg hnone, if_neg hnone]
  by_cases hfits : (!r.fits j.term) = true
  · rw [if_pos hfits, if_pos hfits]
    exact .error
  rw [if_neg hfits, if_neg hfits]
  by_cases harity : r.arity ≠ cs.length
  · rw [if_pos harity, if_pos harity]
    exact .error
  rw [if_neg harity, if_neg harity]
  refine .step (premises 0 cs) fun ps hps => ?_
  obtain rfl := premises_eq_ok_iff.mp hps
  simp only [List.forall_mem_map, Option.mem_some_iff, forall_eq'] at hcs
  refine Agree.bind (htwins.agree_check hj.term hj.ty (fun p hp => (hcs p hp).symm) ?_) fun k hk =>
    .ok hk
  exact Subst.solves_nil.isSimple

theorem checkNode_of_judgment?_eq_none {f : Fields} (hf : f.judgment? = none) (r : Rule)
    (k k' : Calculus) (cs cs' : List (Option Judgment × Subst)) :
    checkNode k r f cs = checkNode k' r f cs' := by
  unfold Fields.judgment? at hf
  unfold checkNode
  cases hj : f.judgment with
  | error e => rfl
  | ok j => simp [hj, Except.toOption] at hf

theorem agree_checkNode {f : Fields} (hf : f.Admitted .simplyTyped)
    (hsimple : ∀ j, f.judgment? = some j → j.IsSimple) {r : Rule}
    {cs : List (Option Judgment × Subst)}
    (hcs : ∀ c ∈ cs, c.2.IsSimple ∧ ∀ j ∈ c.1, j.IsSimple) :
    Agree Subst.IsSimple (checkNode .simplyTyped r f cs) (checkNode .systemF r f cs) := by
  unfold checkNode
  refine .step _ fun j hj => ?_
  have hj' : f.judgment? = some j := Fields.judgment?_eq_some_iff.mpr (mapError_eq_ok_iff.mp hj)
  have hadmitted : ∀ k, j.Admitted k := (hf.judgment hj').of_simplyTyped
  simp only [(hadmitted _).context, (hadmitted _).term, (hadmitted _).ty]
  exact (agree_checkRule (hsimple j hj') hcs).mapError NodeError.rule

/-- The term is a `let`. -/
def Term.isLet : Term → Bool
  | .letIn .. => true
  | _ => false

namespace RuleTree

/-- The nodes whose fields are read, which are all but those below a node without a judgment. -/
inductive Reads : RuleTree → RuleTree → Prop
  | root (t : RuleTree) : Reads t t
  | child {t c n : RuleTree} {j : Judgment} (hj : t.judgment? = some j) (hc : c ∈ t.children)
      (hn : Reads c n) : Reads t n

theorem Reads.hasNode {t n : RuleTree} (h : t.Reads n) : t.HasNode n := by
  induction h with
  | root t => exact .root t
  | child _ hc _ ih => exact .child hc ih

theorem forall_reads_of_allNodes {p : RuleTree → Prop} [DecidablePred p] {t : RuleTree}
    (h : t.allNodes (fun n => decide (p n)) = true) : ∀ n, t.Reads n → p n :=
  fun n hn => of_decide_eq_true (allNodes_iff.mp h n hn.hasNode)

/-- The fields of the root as they are read. -/
def fields (t : RuleTree) : Fields := .parse t.context t.term t.type

theorem checkBelow_true (k k' : Calculus) (t : RuleTree) :
    t.checkBelow k true = t.checkBelow k' true := by
  induction t using RuleTree.induction with
  | node t ih =>
    obtain ⟨context, term, type, rule, children⟩ := t
    simp only [checkBelow, checkAllBelow_eq_map, if_true]
    have hchildren := List.map_congr_left ih
    rw [show Fields.blocked.judgment?.isNone = true from rfl, hchildren,
      checkNode_of_judgment?_eq_none rfl rule k k']

theorem check_of_judgment?_eq_none {t : RuleTree} (hj : t.judgment? = none) (k k' : Calculus) :
    t.check k = t.check k' := by
  obtain ⟨context, term, type, rule, children⟩ := t
  have hfields : (Fields.parse context term type).judgment? = none := hj
  have hchildren : children.map (checkBelow k true) = children.map (checkBelow k' true) :=
    List.map_congr_left fun c _ => checkBelow_true k k' c
  simp only [check, checkBelow, checkAllBelow_eq_map, Bool.false_eq_true, if_false, hfields,
    Option.isNone_none, hchildren]
  rw [checkNode_of_judgment?_eq_none hfields rule k k']

/-- What a node is as a premise, if it has simple types and its outcome binds names to such. -/
theorem isSimple_asPremise {k : Calculus} {t : RuleTree} (hfields : t.fields.Admitted .simplyTyped)
    (hs : ∀ s, (t.check k).outcome = .ok s → s.IsSimple) :
    (t.check k).asPremise.2.IsSimple ∧ ∀ j ∈ (t.check k).asPremise.1, j.IsSimple := by
  constructor
  · unfold Checked.asPremise
    cases houtcome : (t.check k).outcome with
    | ok s => exact hs s houtcome
    | error e => exact Subst.solves_nil.isSimple
  · intro j hj
    have hj' : t.judgment? = some j := by
      rw [Checked.asPremise, fields_check] at hj
      exact hj
    exact isSimple_of_admitted hj' (hfields.judgment hj')

/-- Trees whose fields all belong to the simply typed calculus are checked alike in System F. -/
theorem check_simplyTyped_eq (t : RuleTree)
    (h : ∀ n, t.Reads n → n.fields.Admitted .simplyTyped) :
    t.check .simplyTyped = t.check .systemF ∧
      ∀ s, (t.check .simplyTyped).outcome = .ok s → s.IsSimple := by
  induction t using RuleTree.induction with
  | node t ih =>
    cases hj : t.judgment? with
    | none =>
      refine ⟨check_of_judgment?_eq_none hj _ _, fun s hs => ?_⟩
      obtain ⟨j, hj'⟩ := exists_judgment_of_outcome_eq_ok hs
      rw [hj] at hj'
      cases hj'
    | some j =>
      have hchild : ∀ c ∈ t.children, ∀ n, c.Reads n → n.fields.Admitted .simplyTyped :=
        fun c hc n hn => h n (.child hj hc hn)
      have hchildren : ∀ c ∈ t.children, c.check .systemF = c.check .simplyTyped :=
        fun c hc => (ih c hc (hchild c hc)).1.symm
      have hpremises : ∀ c ∈ t.children, _ := fun c hc =>
        isSimple_asPremise (hchild c hc c (.root c)) (ih c hc (hchild c hc)).2
      have hroot : (Fields.parse t.context t.term t.type).Admitted .simplyTyped := h t (.root t)
      obtain ⟨heq, hsimple⟩ := agree_checkNode (r := t.rule) hroot
        (fun i hi => isSimple_of_admitted hi (hroot.judgment hi)) (List.forall_mem_map.mpr hpremises)
      rw [check_eq hj, check_eq hj, List.map_congr_left hchildren,
        List.map_congr_left fun c hc => congrArg Checked.asPremise (hchildren c hc)]
      exact ⟨by rw [heq], hsimple⟩

/-- All nodes of a valid tree are read, and they are valid too. -/
theorem reads_of_hasNode {k : Calculus} {t n : RuleTree} (hvalid : (t.check k).isValid = true)
    (hn : t.HasNode n) : t.Reads n ∧ (n.check k).isValid = true := by
  induction hn with
  | root t => exact ⟨.root t, hvalid⟩
  | child hc _ ih =>
    obtain ⟨p, hj, hs, -⟩ := exists_asPremise hvalid
    obtain ⟨-, -, -, -, hchildren⟩ := isValid_check_iff.mp ⟨hvalid, hs⟩
    obtain ⟨hreads, hvalid⟩ := ih (hchildren _ hc)
    exact ⟨.child hj hc hreads, hvalid⟩

theorem hasSimpleRules_of_isValid {k : Calculus} {t : RuleTree}
    (hvalid : (t.check k).isValid = true)
    (hfields : ∀ n, t.Reads n → n.fields.Admitted .simplyTyped)
    (hlet : ∀ n, t.Reads n → ∀ u, n.fields.term = .ok u → u.isLet = false) :
    t.HasSimpleRules .hindleyMilner := by
  refine .inr ⟨rfl, fun n hn => ?_⟩
  obtain ⟨hreads, hvalid⟩ := reads_of_hasNode hvalid hn
  refine ⟨fun hrule => ?_, fun j hj => (hfields n hreads).judgment hj⟩
  obtain ⟨p, hj, hs, -⟩ := exists_asPremise hvalid
  obtain ⟨j, hj, -, hcheck, -⟩ := isValid_check_iff.mp ⟨hvalid, hs⟩
  have hfits := (checkRule_eq_ok_iff.mp hcheck).1
  obtain ⟨-, hterm, -⟩ := Fields.judgment_eq_ok_iff.mp (Fields.judgment?_eq_some_iff.mp hj)
  have hnot := hlet n hreads j.term hterm
  rw [hrule] at hfits
  cases hterm : j.term <;> simp_all [Rule.fits, Term.isLet]

/-- The calculi agree where they overlap. If all fields that are read belong to the simply typed
calculus, a tree has the same outcome at every node in System F. If moreover no node is a `let`, it
is valid if and only if it is in Hindley-Milner. -/
theorem check_agrees_on_simplyTyped (t : RuleTree)
    (hfields : ∀ n, t.Reads n → n.fields.Admitted .simplyTyped) :
    t.check .simplyTyped = t.check .systemF ∧
      ((∀ n, t.Reads n → ∀ u, n.fields.term = .ok u → u.isLet = false) →
        ((t.check .simplyTyped).isValid = true ↔ (t.check .hindleyMilner).isValid = true)) := by
  refine ⟨(check_simplyTyped_eq t hfields).1, fun hlet => ⟨fun hvalid => ?_, fun hvalid => ?_⟩⟩
  · obtain ⟨s, -, -, -, hs, hsolution⟩ := exists_solves_of_isValid hvalid
    exact isValid_of_hasSimpleRules hs.isSimple.image t
      (hasSimpleRules_of_isValid hvalid hfields hlet) hsolution
  · obtain ⟨p, -, hs, -⟩ := exists_asPremise hvalid
    have hsolves := t.exact_of_hasSimpleRules (hasSimpleRules_of_isValid hvalid hfields hlet)
      p.subst hvalid hs
    exact isValid_of_solution hsolves.isSimple.image t hsolves.holds

/-- A definition that is used at two types, the second of which it does not have. -/
def reusedDefinition : RuleTree :=
  let Γ := "f: Bool → Bool"
  ⟨"", "let f = λx: A. x in f f", "B", .letIn,
    [⟨"", "λx: A. x", "A → A", .abs, [⟨"x: A", "x", "A", .var, []⟩]⟩,
      ⟨Γ, "f f", "B", .app, [⟨Γ, "f", "C → B", .var, []⟩, ⟨Γ, "f", "C", .var, []⟩]⟩]⟩

theorem check_agrees_on_simplyTyped_reusedDefinition :
    reusedDefinition.check .simplyTyped = reusedDefinition.check .systemF ∧
      (reusedDefinition.check .simplyTyped).isValid = false ∧
      (appliedIdentity.check .simplyTyped).isValid = true ∧
      (appliedIdentity.check .hindleyMilner).isValid = true := by
  have hreused : ∀ n, reusedDefinition.Reads n → n.fields.Admitted .simplyTyped :=
    forall_reads_of_allNodes (by decide +kernel)
  have happlied : ∀ n, appliedIdentity.Reads n → n.fields.Admitted .simplyTyped :=
    forall_reads_of_allNodes (by decide +kernel)
  have hlet : ∀ n, appliedIdentity.Reads n → ∀ u ∈ n.fields.term.toOption, u.isLet = false :=
    forall_reads_of_allNodes (by decide +kernel)
  have hvalid : (appliedIdentity.check .simplyTyped).isValid = true := by decide +kernel
  refine ⟨(check_agrees_on_simplyTyped _ hreused).1, by decide +kernel, hvalid, ?_⟩
  refine ((check_agrees_on_simplyTyped _ happlied).2 fun n hn u hu => ?_).mp hvalid
  exact hlet n hn u (toOption_eq_some_iff.mpr hu)

end RuleTree

end LambdaTyping
