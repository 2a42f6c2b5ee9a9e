import Mathlib
import LambdaTyping.Proofs.SimpleQuestions

/-!
# Containment

A node of a checked tree depends on two things: the texts of the nodes above it,
which say whether it is looked at, and what stands below it. So a failure stays
where it is: it reaches no node beside it, and below it only those nodes that
would need a context, a term or a type that could not be read.

All this is said of a check that returns. A rule whose unification has no end
leaves no result to speak of, and no node of the tree has a verdict then.
-/
namespace LambdaTyping

namespace RuleTree

/-- The tree at a position: the numbers of the children to go down to, counted from 0. -/
def at? (t : RuleTree) : List Nat → Option RuleTree
  | [] => some t
  | i :: p => t.children[i]?.bind (at? · p)

/-- Put another tree at a position; without a tree there, nothing changes. -/
def replaceAt (u : RuleTree) : List Nat → RuleTree → RuleTree
  | [], _ => u
  | i :: p, t => { t with children := t.children.modify i (replaceAt u p) }

end RuleTree

/-- The node at a position, with all that stands below it. -/
def Checked.at? (c : Checked) : List Nat → Option Checked
  | [] => some c
  | i :: p => c.children[i]?.bind (at? · p)

namespace RuleTree

@[simp] theorem at?_nil (t : RuleTree) : t.at? [] = some t := rfl

theorem at?_cons (t : RuleTree) (i : Nat) (p : List Nat) :
    t.at? (i :: p) = t.children[i]?.bind (at? · p) := rfl

theorem children_replaceAt (u t : RuleTree) (i : Nat) (p : List Nat) (j : Nat) :
    (replaceAt u (i :: p) t).children[j]? =
      if i = j then t.children[j]?.map (replaceAt u p) else t.children[j]? := by
  simp only [replaceAt, List.getElem?_modify]
  split <;> simp

/-- The context of the root can be read, and its term and its type can be read in it. -/
def Parses (t : RuleTree) : Prop :=
  ∃ Γ u ty, Context.parse t.context = .ok Γ ∧ Term.parse Γ t.term = .ok u ∧
    Ty.parse Γ t.type = .ok ty

theorem parses_iff {t : RuleTree} : t.Parses ↔ t.judgment?.isNone = false := by
  rw [Option.isNone_eq_false_iff, Option.isSome_iff_exists]
  simp only [judgment?, Fields.judgment?_eq_some_iff, Fields.judgment_parse_eq_ok_iff]
  constructor
  · rintro ⟨Γ, u, ty, h⟩
    exact ⟨⟨Γ, u, ty⟩, h⟩
  · rintro ⟨j, h⟩
    exact ⟨j.context, j.term, j.ty, h⟩

/-- A node above the position cannot be read. -/
def FailsAbove (t : RuleTree) (p : List Nat) : Prop :=
  ∃ q a, q <+: p ∧ q ≠ p ∧ t.at? q = some a ∧ ¬ a.Parses

/-- Is a node on the way down to the position without a judgment? -/
def blocksAbove (t : RuleTree) : List Nat → Bool
  | [] => false
  | i :: p => t.judgment?.isNone || t.children[i]?.any (blocksAbove · p)

theorem blocksAbove_iff {t : RuleTree} {p : List Nat} :
    t.blocksAbove p = true ↔ t.FailsAbove p := by
  induction p generalizing t with
  | nil =>
    refine iff_of_false (by simp [blocksAbove]) ?_
    rintro ⟨q, a, hq, hne, -⟩
    exact hne (List.prefix_nil.mp hq)
  | cons i p ih =>
    simp only [blocksAbove, Bool.or_eq_true, Option.any_eq_true, ih]
    constructor
    · rintro (hroot | ⟨c, hc, q, a, hq, hne, ha, hparse⟩)
      · exact ⟨[], t, List.nil_prefix, by simp, rfl, by simp [parses_iff, hroot]⟩
      · refine ⟨i :: q, a, List.cons_prefix_cons.mpr ⟨rfl, hq⟩, by simpa using hne, ?_, hparse⟩
        simp [at?_cons, hc, ha]
    · rintro ⟨q, a, hq, hne, ha, hparse⟩
      cases q with
      | nil =>
        obtain rfl : t = a := by simpa using ha
        left
        simpa [parses_iff] using hparse
      | cons j q =>
        obtain ⟨rfl, hprefix⟩ := List.cons_prefix_cons.mp hq
        obtain ⟨c, hc, ha⟩ := Option.bind_eq_some_iff.mp ha
        exact .inr ⟨c, hc, q, a, hprefix, by simpa using hne, ha, hparse⟩

/-- Beside the replaced tree everything is as it was, and so are the nodes above. -/
theorem beside_replaceAt {u t : RuleTree} {p q : List Nat} (hpq : ¬ p <+: q) (hqp : ¬ q <+: p) :
    (replaceAt u p t).at? q = t.at? q ∧ (replaceAt u p t).blocksAbove q = t.blocksAbove q := by
  induction p generalizing t q with
  | nil => exact absurd List.nil_prefix hpq
  | cons i p ih =>
    cases q with
    | nil => exact absurd List.nil_prefix hqp
    | cons j q =>
      -- the texts of the root stay, and the way to `q` parts from the way to `p` here or below
      have hroot : (replaceAt u (i :: p) t).judgment? = t.judgment? := rfl
      rw [at?_cons, at?_cons, blocksAbove, blocksAbove, hroot, children_replaceAt]
      split
      · subst i
        rw [List.cons_prefix_cons, not_and] at hpq hqp
        cases t.children[j]? with
        | none => exact ⟨rfl, rfl⟩
        | some c =>
          obtain ⟨hat, hblocks⟩ := ih (t := c) (hpq rfl) (hqp rfl)
          exact ⟨hat, congrArg (t.judgment?.isNone || ·) hblocks⟩
      · exact ⟨rfl, rfl⟩

section Nodes

variable {u : Solver} {k : Calculus} {blocked : Bool} {t : RuleTree} {c : Checked}

theorem rel_getElem?_of_forall₂ {α β : Type} {R : α → β → Prop} {l : List α} {l' : List β}
    (h : List.Forall₂ R l l') (i : Nat) : Option.Rel R l[i]? l'[i]? := by
  induction h generalizing i with
  | nil => exact .none
  | cons hab h ih =>
    cases i with
    | zero => exact .some hab
    | succ i => exact ih i

/-- The node at a position is the tree there, checked by itself, unless it is blocked from above. -/
theorem rel_at? (h : t.checkBelowBy u k blocked = some c) (p : List Nat) :
    Option.Rel (fun n d => n.checkBelowBy u k (blocked || t.blocksAbove p) = some d)
      (t.at? p) (c.at? p) := by
  induction p generalizing blocked t c with
  | nil =>
    rw [blocksAbove, Bool.or_false]
    exact .some h
  | cons i p ih =>
    have hchild := rel_getElem?_of_forall₂ (checkBelowBy_eq_some_iff.mp h).children i
    rw [at?_cons, Checked.at?, blocksAbove]
    generalize t.children[i]? = n? at hchild ⊢
    generalize c.children[i]? = d? at hchild ⊢
    cases hchild with
    | none => exact .none
    | some hnode =>
      have hbelow := ih hnode
      rwa [Bool.or_assoc] at hbelow

theorem at?_check (t : RuleTree) (p : List Nat) :
    (t.check k).at? p = (t.at? p).map (checkBelow k (t.blocksAbove p)) := by
  have hanswers : Asking.Answers .counting k := .inr rfl
  have hrel := rel_at? (checkBelowBy_of_answers hanswers false t) p
  rw [check]
  generalize t.at? p = n? at hrel ⊢
  generalize (t.checkBelow k false).at? p = d? at hrel ⊢
  cases hrel with
  | none => rfl
  | some hnode =>
    rw [checkBelowBy_of_answers hanswers, Bool.false_or] at hnode
    exact hnode.symm

theorem outcome_checkBelow_true (t : RuleTree) :
    (t.checkBelow k true).outcome = .error (.field .prerequisite) := by
  obtain ⟨context, term, type, rule, children⟩ := t
  rfl

end Nodes

end RuleTree

/-- A node that is looked at fails with the first of its own texts that cannot be read. -/
theorem Fields.judgment_parse_ne (context term type : String) :
    (Fields.parse context term type).judgment ≠ .error .prerequisite := by
  unfold Fields.parse
  cases Context.parse context with
  | error e => simp [Fields.judgment, bind, Except.bind]
  | ok Γ =>
    cases hterm : Term.parse Γ term <;> cases htype : Ty.parse Γ type <;>
      simp [Fields.judgment, bind, Except.bind, Except.mapError, hterm, htype, pure, Except.pure]

/-- The rule of a node that has a judgment never speaks of a prerequisite. -/
theorem Asking.run_checkNode_eq_prerequisite {u : Solver} {k : Calculus} {r : Rule} {f : Fields}
    {children : List (Option Judgment × Subst)}
    (h : (checkNode k r f children).run u = some (.error (.field .prerequisite))) :
    f.judgment = .error .prerequisite := by
  unfold checkNode at h
  cases hj : f.judgment with
  | error e =>
    rw [hj] at h
    cases h
    rfl
  | ok j =>
    rw [hj, run_bind_of_ok (a := j) rfl] at h
    cases hcontext : k.admitsContext j.context <;> cases hterm : k.admitsTerm j.term <;>
      cases hty : k.admitsType j.ty <;> rw [hcontext, hterm, hty] at h
    case ok.ok.ok =>
      have hrule : ((checkRule k r j children).mapError NodeError.rule).run u = _ := h
      rw [run_mapError, Option.map_eq_some_iff] at hrule
      obtain ⟨outcome, -, houtcome⟩ := hrule
      cases outcome <;> cases houtcome
    all_goals cases h

/-- The types that the computation asks to unify first. -/
def Asking.question? {ε α : Type} : Asking ε α → Option (Ty × Ty)
  | done _ => none
  | ask a b _ _ => some (a, b)

theorem Asking.run_of_question? {ε α : Type} {u : Solver} {x : Asking ε α} {a b : Ty}
    (h : x.question? = some (a, b)) (hu : ∀ σ, u a b σ = none) : x.run u = none := by
  cases x with
  | done r => cases h
  | ask a' b' σ next =>
    cases h
    rw [run, hu]
    rfl

namespace RuleTree

theorem outcome_eq_prerequisite_iff {u : Solver} {k : Calculus} {blocked : Bool} {t : RuleTree}
    {c : Checked} (h : t.checkBelowBy u k blocked = some c) :
    c.outcome = .error (.field .prerequisite) ↔ blocked = true := by
  have hchecks := checkBelowBy_eq_some_iff.mp h
  have hrun := hchecks.outcome
  rw [hchecks.fields] at hrun
  cases blocked with
  | true =>
    exact iff_of_true (Option.some.inj hrun).symm rfl
  | false =>
    refine iff_of_false (fun houtcome => ?_) Bool.false_ne_true
    rw [houtcome] at hrun
    exact Fields.judgment_parse_ne _ _ _ (Asking.run_checkNode_eq_prerequisite hrun)

/-- In System F, and where all judgments are simple, the check returns; and what is returned within
the rounds that are counted is the result of the check as it is defined. Whenever the check returns,
failures are contained. The result has the nodes of the tree. A node says that a prerequisite failed
if and only if some node above it cannot be read, and then none of its fields has a value; every
other node has the values of its own texts. Another tree at a position `p`, with which the check
returns too, changes nothing of the nodes that stand neither below nor above `p`, hence none of
their verdicts. -/
theorem containsFailures_of_returns (k : Calculus) (t : RuleTree) :
    (k = .systemF ∨ t.IsSimple → t.Returns k (t.check k)) ∧
      (∀ rounds ≤ Unify.openings, ∀ c, t.checkWithin rounds k = some c → c = t.check k) ∧
      ∀ c, t.Returns k c →
        (∀ p, (c.at? p).map (fun d => (d.rule, d.children.length)) =
          (t.at? p).map fun n => (n.rule, n.children.length)) ∧
        (∀ p n d, t.at? p = some n → c.at? p = some d →
          (d.outcome = .error (.field .prerequisite) ↔ t.FailsAbove p) ∧
          (t.FailsAbove p →
            d.fields = ⟨.error .prerequisite, .error .prerequisite, .error .prerequisite⟩) ∧
          (¬ t.FailsAbove p →
            (∀ e, Context.parse n.context = .error e →
              d.fields = ⟨.error (.text e), .error .prerequisite, .error .prerequisite⟩) ∧
            ∀ Γ, Context.parse n.context = .ok Γ → d.fields =
              ⟨.ok Γ, (Term.parse Γ n.term).mapError .text, (Ty.parse Γ n.type).mapError .text⟩)) ∧
        ∀ p q u c', (replaceAt u p t).Returns k c' → ¬ p <+: q → ¬ q <+: p →
          c'.at? q = c.at? q := by
  refine ⟨returns_check, fun rounds hle c hc => (check_of_checkWithin hle hc).symm,
    fun c hc => ⟨fun p => ?_, fun p n d hn hd => ?_, fun p q u c' hc' hpq hqp => ?_⟩⟩
  · obtain ⟨rounds, hc⟩ := hc
    have hrel := rel_at? hc p
    generalize t.at? p = n? at hrel ⊢
    generalize c.at? p = d? at hrel ⊢
    cases hrel with
    | none => rfl
    | some hnode =>
      have hchecks := checkBelowBy_eq_some_iff.mp hnode
      simp [hchecks.rule, hchecks.children.length_eq]
  · obtain ⟨rounds, hc⟩ := hc
    have hrel := rel_at? hc p
    rw [hn, hd] at hrel
    cases hrel with
    | some hnode =>
      rw [outcome_eq_prerequisite_iff hnode, (checkBelowBy_eq_some_iff.mp hnode).fields,
        Bool.false_or, ← blocksAbove_iff]
      refine ⟨Iff.rfl, fun hblocks => ?_, fun hblocks => ?_⟩
      · rw [if_pos hblocks]
        rfl
      · rw [if_neg hblocks]
        exact ⟨fun e he => by simp [Fields.parse, he], fun Γ hΓ => by simp [Fields.parse, hΓ]⟩
  · obtain ⟨rounds, hc, hc'⟩ := hc.exists_rounds hc'
    obtain ⟨hat, hblocks⟩ := beside_replaceAt (u := u) (t := t) hpq hqp
    have hrel := rel_at? hc q
    have hrel' := rel_at? hc' q
    rw [hat, hblocks] at hrel'
    generalize t.at? q = n? at hrel hrel'
    generalize c.at? q = d? at hrel ⊢
    generalize c'.at? q = d'? at hrel' ⊢
    cases hrel with
    | none =>
      cases hrel'
      rfl
    | some hnode =>
      cases hrel' with
      | some hnode' => exact hnode'.symm.trans hnode

/-- An application whose function has a type that breaks off. -/
def brokenFunction : RuleTree :=
  ⟨"", "(λx: Bool. x) true", "Bool", .app,
    [⟨"", "λx: Bool. x", "Bool ->", .abs, [⟨"x: Bool", "x", "Bool", .var, []⟩]⟩,
      ⟨"", "true", "Bool", .constTrue, []⟩]⟩

/-- The function with its type in full. -/
def mendedFunction : RuleTree :=
  ⟨"", "λx: Bool. x", "Bool -> Bool", .abs, [⟨"x: Bool", "x", "Bool", .var, []⟩]⟩

theorem isSimple_of_allNodes {t : RuleTree}
    (h : t.allNodes (fun n => decide (n.fields.Admitted .simplyTyped)) = true) : t.IsSimple := by
  intro n hn j hj
  have hfields : n.fields.Admitted .simplyTyped := forall_reads_of_allNodes h n hn
  exact isSimple_of_admitted hj (hfields.judgment hj)

theorem isSimple_brokenFunction : brokenFunction.IsSimple :=
  isSimple_of_allNodes (by decide +kernel)

/-- The body of the function is blocked, and the argument is not concerned when the function is
mended. -/
theorem containsFailures_of_returns_brokenFunction :
    brokenFunction.FailsAbove [0, 0] ∧ ¬ brokenFunction.FailsAbove [1] ∧
      ∃ c c', brokenFunction.Returns .simplyTyped c ∧
        (replaceAt mendedFunction [0] brokenFunction).Returns .simplyTyped c' ∧
        (∃ d, c.at? [0, 0] = some d ∧ d.outcome = .error (.field .prerequisite)) ∧
        (∃ d, c.at? [1] = some d ∧ d.outcome ≠ .error (.field .prerequisite)) ∧
        c'.at? [1] = c.at? [1] := by
  obtain ⟨hreturns, -, hcontains⟩ := containsFailures_of_returns .simplyTyped brokenFunction
  have hc := hreturns (.inr isSimple_brokenFunction)
  have hmended : (replaceAt mendedFunction [0] brokenFunction).IsSimple :=
    isSimple_of_allNodes (by decide +kernel)
  have hc' := (containsFailures_of_returns .simplyTyped
    (replaceAt mendedFunction [0] brokenFunction)).1 (.inr hmended)
  obtain ⟨-, hnodes, hreplace⟩ := hcontains _ hc
  have hbody : brokenFunction.FailsAbove [0, 0] := blocksAbove_iff.mp (by decide +kernel)
  have hargument : ¬ brokenFunction.FailsAbove [1] := fun h =>
    absurd (blocksAbove_iff.mpr h) (by decide +kernel)
  exact ⟨hbody, hargument, _, _, hc, hc', ⟨_, rfl, (hnodes [0, 0] _ _ rfl rfl).1.mpr hbody⟩,
    ⟨_, rfl, fun h => hargument ((hnodes [1] _ _ rfl rfl).1.mp h)⟩,
    hreplace [0] [1] _ _ hc' (by decide) (by decide)⟩

def endlessPremise : RuleTree := ⟨"x: ∀X. X → X → X", "x", "∀X. X → X → X", .var, []⟩

/-- An abstraction whose rule has to unify `∀X. X → X → X` with
`(∀X. X → X → X) → ∀X. X → X → X`. -/
def endlessAbstraction : RuleTree := ⟨"", "λx. x", "∀X. X → X → X", .abs, [endlessPremise]⟩

theorem checkWithin_endlessAbstraction (rounds : Nat) :
    endlessAbstraction.checkWithin rounds .hindleyMilner = none := by
  have hread : endlessAbstraction.judgment?.isNone = false := by decide +kernel
  -- with the result of the premise, the first question of the rule is the one without an answer
  have hask : (endlessPremise.checkWithin 2 .hindleyMilner).map (fun d => (Asking.checkNode
      .hindleyMilner .abs endlessAbstraction.fields [d.asPremise]).question?) =
        some (some (Unify.endless 0, Unify.endlessArrow 0)) := by decide +kernel
  obtain ⟨d, hpremise, hquestion⟩ := Option.map_eq_some_iff.mp hask
  have hrun : (Asking.checkNode .hindleyMilner .abs endlessAbstraction.fields [d.asPremise]).run
      (.within rounds) = none := by
    refine Asking.run_of_question? hquestion fun σ => Option.eq_none_iff_forall_ne_some.mpr ?_
    intro r hr
    exact (Unify.not_answered_endless 0 rounds σ).1 (Unify.answer?_eq_some_iff.mp hr).1
  refine Option.eq_none_iff_forall_ne_some.mpr fun c hc => ?_
  have hchecks := checkBelowBy_eq_some_iff.mp hc
  obtain ⟨d', ds, hd', hds, hchildren⟩ := List.forall₂_cons_left_iff.mp hchecks.children
  obtain rfl := List.forall₂_nil_left_iff.mp hds
  rw [hread, Bool.or_false] at hd'
  obtain rfl : d' = d := Returns.unique ⟨rounds, hd'⟩ ⟨2, hpremise⟩
  have houtcome := hchecks.outcome
  rw [hchecks.fields, hchildren] at houtcome
  exact absurd (hrun.symm.trans houtcome) (by simp)

/-- The check of the abstraction never returns, although its premise holds. In place of the broken
function it takes the whole application with it, whose argument gets no verdict either. -/
theorem check_without_result :
    (∃ c, endlessPremise.Returns .hindleyMilner c ∧ c.isValid = true) ∧
      (¬ ∃ c, endlessAbstraction.Returns .hindleyMilner c) ∧
      (∃ c, brokenFunction.Returns .hindleyMilner c) ∧
      ¬ ∃ c, (replaceAt endlessAbstraction [0] brokenFunction).Returns .hindleyMilner c := by
  have hpremise : ∃ c, endlessPremise.checkWithin 2 .hindleyMilner = some c ∧ c.isValid = true := by
    have hvalid : (endlessPremise.checkWithin 2 .hindleyMilner).any Checked.isValid = true := by
      decide +kernel
    simpa only [Option.any_eq_true] using hvalid
  have hnone : ¬ ∃ c, endlessAbstraction.Returns .hindleyMilner c := by
    rintro ⟨c, rounds, hc⟩
    rw [checkWithin_endlessAbstraction] at hc
    cases hc
  refine ⟨hpremise.imp fun c hc => ⟨⟨2, hc.1⟩, hc.2⟩, hnone,
    ⟨_, returns_check (.inr isSimple_brokenFunction)⟩, ?_⟩
  rintro ⟨c, rounds, hc⟩
  have hopen : (replaceAt endlessAbstraction [0] brokenFunction).blocksAbove [0] = false := by
    decide +kernel
  have hat : (replaceAt endlessAbstraction [0] brokenFunction).at? [0] = some endlessAbstraction :=
    rfl
  have hrel := rel_at? hc [0]
  rw [hopen, hat] at hrel
  generalize c.at? [0] = d? at hrel
  cases hrel with
  | some hnode => exact hnone ⟨_, rounds, hnode⟩

end RuleTree

end LambdaTyping
