import Mathlib
import LambdaTyping.Proofs.RuleChecks

/-!
# Checked trees

When a node of a tree holds and when a whole tree is valid, without the order in
which things are looked at.
-/
namespace LambdaTyping

theorem Fields.judgment?_eq_some_iff {f : Fields} {j : Judgment} :
    f.judgment? = some j ↔ f.judgment = .ok j := toOption_eq_some_iff

theorem Fields.judgment_parse_eq_ok_iff {context term type : String} {j : Judgment} :
    (Fields.parse context term type).judgment = .ok j ↔
      Context.parse context = .ok j.context ∧ Term.parse j.context term = .ok j.term ∧
        Ty.parse j.context type = .ok j.ty := by
  obtain ⟨Γ, t, ty⟩ := j
  unfold Fields.parse Fields.judgment
  cases Context.parse context with
  | error e => simp only [bind_eq_ok_iff, reduceCtorEq, false_and, exists_false]
  | ok Γ' =>
    simp only [bind_eq_ok_iff, mapError_eq_ok_iff, pure, Except.pure, Except.ok.injEq,
      Judgment.mk.injEq]
    grind

/-- The calculus admits all parts of the judgment. -/
structure Judgment.Admitted (k : Calculus) (j : Judgment) : Prop where
  context : k.admitsContext j.context = .ok ()
  term : k.admitsTerm j.term = .ok ()
  ty : k.admitsType j.ty = .ok ()

instance (k : Calculus) (j : Judgment) : Decidable (j.Admitted k) :=
  decidable_of_iff (k.admitsContext j.context = .ok () ∧ k.admitsTerm j.term = .ok () ∧
    k.admitsType j.ty = .ok ()) ⟨fun h => ⟨h.1, h.2.1, h.2.2⟩, fun h => ⟨h.context, h.term, h.ty⟩⟩

namespace RuleTree

/-- The judgment of the root, if all its fields can be read. -/
def judgment? (t : RuleTree) : Option Judgment := (Fields.parse t.context t.term t.type).judgment?

/-- The nodes of a tree, each with all that stands below it. -/
inductive HasNode : RuleTree → RuleTree → Prop
  | root (t : RuleTree) : HasNode t t
  | child {t c n : RuleTree} (hc : c ∈ t.children) (hn : HasNode c n) : HasNode t n

theorem forall_hasNode_iff {p : RuleTree → Prop} {t : RuleTree} :
    (∀ n, t.HasNode n → p n) ↔ p t ∧ ∀ c ∈ t.children, ∀ n, c.HasNode n → p n := by
  constructor
  · exact fun h => ⟨h t (.root t), fun c hc n hn => h n (.child hc hn)⟩
  · rintro ⟨ht, hbelow⟩ n hn
    cases hn with
    | root => exact ht
    | child hc hn => exact hbelow _ hc n hn

mutual

/-- Does the test hold of all nodes? -/
def allNodes (p : RuleTree → Bool) : RuleTree → Bool
  | ⟨context, term, type, rule, children⟩ =>
    p ⟨context, term, type, rule, children⟩ && allNodesIn p children

def allNodesIn (p : RuleTree → Bool) : List RuleTree → Bool
  | [] => true
  | t :: ts => t.allNodes p && allNodesIn p ts

end

/-- Induction from the leaves of a tree to its root. -/
theorem induction {motive : RuleTree → Prop}
    (node : ∀ t : RuleTree, (∀ c ∈ t.children, motive c) → motive t) (t : RuleTree) : motive t :=
  node t fun c _ => induction node c
termination_by sizeOf t
decreasing_by
  obtain ⟨context, term, type, rule, children⟩ := t
  have hlt : sizeOf c < sizeOf children := List.sizeOf_lt_of_mem ‹c ∈ _›
  simp only [RuleTree.mk.sizeOf_spec]
  omega

theorem allNodesIn_iff {p : RuleTree → Bool} {ts : List RuleTree} :
    allNodesIn p ts = true ↔ ∀ t ∈ ts, t.allNodes p = true := by
  induction ts with
  | nil => simp [allNodesIn]
  | cons t ts ih => simp [allNodesIn, ih]

theorem allNodes_iff {p : RuleTree → Bool} {t : RuleTree} :
    t.allNodes p = true ↔ ∀ n, t.HasNode n → p n = true := by
  induction t using induction with
  | node t ih =>
    rw [forall_hasNode_iff]
    obtain ⟨context, term, type, rule, children⟩ := t
    rw [allNodes, Bool.and_eq_true, allNodesIn_iff]
    exact and_congr_right fun _ => forall₂_congr ih

theorem forall_of_allNodes {p : RuleTree → Prop} [DecidablePred p] {t : RuleTree}
    (h : t.allNodes (fun n => decide (p n)) = true) : ∀ n, t.HasNode n → p n := fun n hn =>
  of_decide_eq_true (allNodes_iff.mp h n hn)

end RuleTree

theorem premises_eq_ok_iff {i : Nat} {cs : List (Option Judgment × Subst)} {ps : List Premise} :
    premises i cs = .ok ps ↔ cs = ps.map fun p => (some p.judgment, p.subst) := by
  induction cs generalizing i ps with
  | nil => cases ps <;> simp [premises]
  | cons c cs ih =>
    obtain ⟨j?, s⟩ := c
    cases j? with
    | none => cases ps <;> simp [premises]
    | some j =>
      rw [premises, bind_eq_ok_iff]
      cases ps with
      | nil => simp [pure, Except.pure]
      | cons p ps =>
        obtain ⟨j', s'⟩ := p
        simp only [ih, pure, Except.pure, Except.ok.injEq, List.cons.injEq, Premise.mk.injEq,
          List.map_cons, Prod.mk.injEq, Option.some.injEq]
        grind

/-- The names that the check of a rule may not take for new ones. -/
def namesInUse (j : Judgment) (ps : List Premise) : List String :=
  ps.flatMap (fun p => p.judgment.freeNames ++ p.subst.freeNames) ++ j.freeNames

theorem checkRule_eq_ok_iff {k : Calculus} {r : Rule} {j : Judgment}
    {children : List (Option Judgment × Subst)} {s : Subst} :
    checkRule k r j children = .ok s ↔
      r.fits j.term = true ∧ r.arity = children.length ∧
        ∃ ps, children = ps.map (fun p => (some p.judgment, p.subst)) ∧
          ∃ σ, Conclusion.check ⟨k, j.context⟩ r j.term j.ty ps
            ⟨.avoiding (namesInUse j ps), []⟩ = .ok ⟨σ, s⟩ := by
  have hrefused : ∀ {e : RuleError} {f : PUnit → Except RuleError Subst} {Q : Prop}, ¬ Q →
      ((throw e >>= f) = .ok s ↔ Q) := fun hQ => iff_of_false (fun h => by cases h) hQ
  unfold checkRule
  by_cases hnone : r = .none
  · have hfits : r.fits j.term = false := by subst hnone; cases j.term <;> rfl
    rw [if_pos hnone]
    exact hrefused fun h => by simp [hfits] at h
  rw [if_neg hnone]
  by_cases hfits : r.fits j.term = true
  · rw [if_neg (by simp [hfits])]
    by_cases harity : r.arity = children.length
    · rw [if_neg (by simp [harity])]
      simp only [bind_eq_ok_iff, premises_eq_ok_iff, hfits, harity, true_and]
      refine exists_congr fun ps => and_congr_right fun _ => ?_
      constructor
      · rintro ⟨⟨σ, s'⟩, hcheck, hs⟩
        cases hs
        exact ⟨σ, hcheck⟩
      · rintro ⟨σ, hcheck⟩
        exact ⟨⟨σ, s⟩, hcheck, rfl⟩
    · rw [if_pos harity]
      exact hrefused fun h => harity h.2.1
  · rw [if_pos (by simpa using hfits)]
    exact hrefused fun h => hfits h.1

theorem checkNode_eq_ok_iff {k : Calculus} {r : Rule} {f : Fields}
    {children : List (Option Judgment × Subst)} {s : Subst} :
    checkNode k r f children = .ok s ↔
      ∃ j, f.judgment? = some j ∧ j.Admitted k ∧ checkRule k r j children = .ok s := by
  simp only [checkNode, bind_eq_ok_iff, mapError_eq_ok_iff, Fields.judgment?_eq_some_iff]
  constructor
  · rintro ⟨j, hj, ⟨⟩, hcontext, ⟨⟩, hterm, ⟨⟩, hty, hrule⟩
    exact ⟨j, hj, ⟨hcontext, hterm, hty⟩, hrule⟩
  · rintro ⟨j, hj, ⟨hcontext, hterm, hty⟩, hrule⟩
    exact ⟨j, hj, (), hcontext, (), hterm, (), hty, hrule⟩

namespace Checked

theorem areValid_iff {cs : List Checked} : areValid cs = true ↔ ∀ c ∈ cs, c.isValid = true := by
  induction cs with
  | nil => simp [areValid]
  | cons c cs ih => simp [areValid, ih]

theorem isValid_iff {c : Checked} :
    c.isValid = true ↔ (∃ s, c.outcome = .ok s) ∧ ∀ d ∈ c.children, d.isValid = true := by
  obtain ⟨fields, rule, outcome, children⟩ := c
  cases outcome with
  | ok s => simp [isValid, areValid_iff]
  | error e => simp [isValid]

end Checked

namespace RuleTree

theorem checkAllBelow_eq_map (k : Calculus) (blocked : Bool) (ts : List RuleTree) :
    checkAllBelow k blocked ts = ts.map (checkBelow k blocked) := by
  induction ts with
  | nil => rfl
  | cons t ts ih => simp [checkAllBelow, ih]

theorem fields_check (k : Calculus) (t : RuleTree) :
    (t.check k).fields = .parse t.context t.term t.type := by
  obtain ⟨context, term, type, rule, children⟩ := t
  rfl

/-- Below a node with a judgment the children are checked as trees of their own. -/
theorem check_eq {k : Calculus} {t : RuleTree} {j : Judgment} (hj : t.judgment? = some j) :
    t.check k = ⟨.parse t.context t.term t.type, t.rule,
      checkNode k t.rule (.parse t.context t.term t.type)
        (t.children.map fun c => (c.check k).asPremise), t.children.map (check k)⟩ := by
  obtain ⟨context, term, type, rule, children⟩ := t
  have hfields : (Fields.parse context term type).judgment? = some j := hj
  simp [check, checkBelow, checkAllBelow_eq_map, hfields, Function.comp_def]

theorem exists_judgment_of_outcome_eq_ok {k : Calculus} {t : RuleTree} {s : Subst}
    (h : (t.check k).outcome = .ok s) : ∃ j, t.judgment? = some j := by
  obtain ⟨context, term, type, rule, children⟩ := t
  obtain ⟨j, hj, -⟩ := checkNode_eq_ok_iff.mp h
  exact ⟨j, hj⟩

/-- What a tree has to be like to be valid with the substitution `s` at its root. -/
theorem isValid_check_iff {k : Calculus} {t : RuleTree} {s : Subst} :
    (t.check k).isValid = true ∧ (t.check k).outcome = .ok s ↔
      ∃ j, t.judgment? = some j ∧ j.Admitted k ∧
        checkRule k t.rule j (t.children.map fun c => (c.check k).asPremise) = .ok s ∧
        ∀ c ∈ t.children, (c.check k).isValid = true := by
  constructor
  · rintro ⟨hvalid, houtcome⟩
    obtain ⟨j, hj⟩ := exists_judgment_of_outcome_eq_ok houtcome
    rw [check_eq hj] at houtcome
    obtain ⟨j', hj', hadmitted, hrule⟩ := checkNode_eq_ok_iff.mp houtcome
    obtain ⟨-, hchildren⟩ := Checked.isValid_iff.mp hvalid
    rw [check_eq hj, List.forall_mem_map] at hchildren
    exact ⟨j', hj', hadmitted, hrule, hchildren⟩
  · rintro ⟨j, hj, hadmitted, hrule, hchildren⟩
    rw [check_eq hj, Checked.isValid_iff]
    have houtcome := checkNode_eq_ok_iff.mpr ⟨j, hj, hadmitted, hrule⟩
    exact ⟨⟨⟨s, houtcome⟩, List.forall_mem_map.mpr hchildren⟩, houtcome⟩

/-- A valid tree as a premise: its judgment, and the substitution of its root. -/
theorem exists_asPremise {k : Calculus} {t : RuleTree} (h : (t.check k).isValid = true) :
    ∃ p : Premise, t.judgment? = some p.judgment ∧ (t.check k).outcome = .ok p.subst ∧
      (t.check k).asPremise = (some p.judgment, p.subst) := by
  obtain ⟨⟨s, hs⟩, -⟩ := Checked.isValid_iff.mp h
  obtain ⟨j, hj⟩ := exists_judgment_of_outcome_eq_ok hs
  refine ⟨⟨j, s⟩, hj, hs, ?_⟩
  have hfields : (t.check k).fields.judgment? = some j := by rw [fields_check]; exact hj
  simp [Checked.asPremise, hfields, hs]

/-- The premises of a node are the valid trees below it. -/
theorem exists_child_of_mem {k : Calculus} {cs : List RuleTree} {ps : List Premise}
    (hvalid : ∀ c ∈ cs, (c.check k).isValid = true)
    (hps : cs.map (fun c => (c.check k).asPremise) = ps.map fun p => (some p.judgment, p.subst))
    {p : Premise} (hp : p ∈ ps) :
    ∃ c ∈ cs, c.judgment? = some p.judgment ∧ (c.check k).outcome = .ok p.subst := by
  have hmem := List.mem_map_of_mem (f := fun p => (some p.judgment, p.subst)) hp
  rw [← hps] at hmem
  obtain ⟨c, hc, hcp⟩ := List.mem_map.mp hmem
  obtain ⟨⟨j, s⟩, hj, hs, has⟩ := exists_asPremise (hvalid c hc)
  obtain ⟨rfl, rfl⟩ : j = p.judgment ∧ s = p.subst := by simpa using has.symm.trans hcp
  exact ⟨c, hc, hj, hs⟩

end RuleTree

end LambdaTyping
