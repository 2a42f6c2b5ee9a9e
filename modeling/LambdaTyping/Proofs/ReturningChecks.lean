import Mathlib
import LambdaTyping.Proofs.CheckedTrees
import LambdaTyping.Proofs.OpeningRounds

/-!
# Checks that return

Opening unification need not end, and a check that waits for it does not end
either: there is no verdict then, neither of the node nor of any other node of the
tree. The check as it is defined counts the rounds and goes on with an error when
they run out, so it cannot tell such a node from one that fails.

Here a check is a dialogue. It asks for unifiers, goes on with their answers, and
has no result as soon as one of them is not given. If all questions are answered
as unification answers them when it counts, this is the check itself. If a question
has an answer only if unification ends by itself, within some number of rounds, it
is the check as it runs without a count. Rigid unification always ends, so in
System F nothing is asked and every check returns.
-/
namespace LambdaTyping

/-- What becomes of the unification of two types with new names: an answer, or nothing. -/
abbrev Solver := Ty → Ty → NameSupply → Option (Except TypeError (Subst × NameSupply))

/-- An answer of unification, and with a unifier the names that are left. -/
def Unify.answer : EStateM.Result TypeError NameSupply Subst → Except TypeError (Subst × NameSupply)
  | .ok s σ => .ok (s, σ)
  | .error e _ => .error e

/-- The answer, if unification ended by itself. -/
def Unify.answer? :
    EStateM.Result TypeError NameSupply Subst → Option (Except TypeError (Subst × NameSupply))
  | .error (.unresolved ..) _ => none
  | r => some (answer r)

theorem Unify.answer?_eq_some_iff {x : EStateM.Result TypeError NameSupply Subst}
    {r : Except TypeError (Subst × NameSupply)} :
    answer? x = some r ↔ Answered x ∧ answer x = r := by
  cases x with
  | ok s σ => simp [answer?, Answered]
  | error e σ => cases e <;> simp [answer?, Answered]

namespace Solver

/-- Opening unification in so many rounds, without an answer if they run out. -/
def within (rounds : Nat) : Solver := fun a b σ => Unify.answer? (Unify.openingWithin rounds a b σ)

/-- Opening unification as it is. It always answers, if only that its rounds ran out. -/
def counting : Solver := fun a b σ => some (Unify.answer (unifyOpening a b σ))

/-- What the first one answers, the second one answers too. -/
def ExtendsTo (u v : Solver) : Prop := ∀ a b σ r, u a b σ = some r → v a b σ = some r

theorem extendsTo_within {rounds more : Nat} (hle : rounds ≤ more) :
    (within rounds).ExtendsTo (within more) := by
  intro a b σ r h
  have hans := (Unify.answer?_eq_some_iff.mp h).1
  rw [within, Unify.openingWithin_of_answered hle hans]
  exact h

theorem extendsTo_counting {rounds : Nat} (hle : rounds ≤ Unify.openings) :
    (within rounds).ExtendsTo counting := by
  intro a b σ r h
  obtain ⟨hans, rfl⟩ := Unify.answer?_eq_some_iff.mp h
  have hrounds : rounds ≤ Unify.openingRounds a b := hle.trans (Nat.le_add_left _ _)
  rw [counting, unifyOpening, Unify.openingWithin_of_answered hrounds hans]

end Solver

/-- A computation that asks for unifiers: it is done, or it has a question and goes on with the
answer. -/
inductive Asking (ε α : Type) where
  | done (r : Except ε α)
  | ask (a b : Ty) (σ : NameSupply) (next : Except TypeError (Subst × NameSupply) → Asking ε α)

namespace Asking

variable {ε ε' α β : Type}

def bind (x : Asking ε α) (f : α → Asking ε β) : Asking ε β :=
  match x with
  | done (.ok a) => f a
  | done (.error e) => done (.error e)
  | ask a b σ next => ask a b σ fun r => (next r).bind f

instance : Monad (Asking ε) where
  pure a := done (.ok a)
  bind := bind

def mapError (f : ε → ε') : Asking ε α → Asking ε' α
  | done r => done (r.mapError f)
  | ask a b σ next => ask a b σ fun r => (next r).mapError f

/-- The result, if all questions are answered. -/
def run (u : Solver) : Asking ε α → Option (Except ε α)
  | done r => some r
  | ask a b σ next => (u a b σ).bind fun r => (next r).run u

-- The checks of rules and nodes, each as it is but for its questions.

def solve (c : Conclusion) (a b : Ty) (σ : NameSupply) : Asking TypeError (Subst × NameSupply) :=
  match c.calculus with
  | .systemF => done ((unifyRigid a b).map (·, σ))
  | _ => ask a b σ done

def equate (c : Conclusion) (a b : Ty) (k : Solution) : Asking TypeError Solution := do
  let a := k.subst.apply a
  let b := k.subst.apply b
  if a.alphaEq b then return k
  let (s, σ) ← solve c a b k.supply
  let s := s ++ k.subst
  let _ ← done (c.context.apply s)
  return ⟨σ, s⟩

def unify (c : Conclusion) (a b : Ty) (k : Solution) : Asking RuleError Solution :=
  (equate c a b k).mapError .unify

def adopt (c : Conclusion) (i : Nat) : Subst → Solution → Asking RuleError Solution
  | [], k => return k
  | (x, ty) :: s, k => do
    let k ← adopt c i s k
    (equate c (.name x) ty k).mapError (.conflict i)

def adoptAll (c : Conclusion) (i : Nat) : List Premise → Solution → Asking RuleError Solution
  | [], k => return k
  | p :: ps, k => do
    let k ← adopt c i p.subst k
    adoptAll c (i + 1) ps k

/-- Contexts that do not match are the same to a rule as types that have no unifier. -/
def equateBelow (c : Conclusion) (i : Nat) (Γ₀ Δ₀ : Context) (d : Nat) :
    Context → Context → Solution → Asking RuleError Solution
  | [], [], k => return k
  | e :: Γ, f :: Δ, k =>
    match e.binding, f.binding with
    | .var _, .var _ =>
      match Γ₀.getType? d, Δ₀.getType? d with
      | some a, some b => do
        let k ← (equate c a b k).mapError fun _ => .context i
        equateBelow c i Γ₀ Δ₀ (d + 1) Γ Δ k
      | _, _ => done (.error (.context i))
    | .name, .name | .tyVar, .tyVar => equateBelow c i Γ₀ Δ₀ (d + 1) Γ Δ k
    | _, _ => done (.error (.context i))
  | _, _, _ => done (.error (.context i))

def sameContext (c : Conclusion) (i : Nat) (Γ : Context) (k : Solution) :
    Asking RuleError Solution :=
  if Γ.length ≠ c.context.length then done (.error (.context i))
  else equateBelow c i Γ c.context 0 Γ c.context k

def extended (c : Conclusion) (i : Nat) (Γ : Context) (k : Solution) :
    Asking RuleError (Binding × Solution) :=
  match Γ.pop? with
  | some (e, Γ) => do
    let k ← sameContext c i Γ k
    return (e.binding, k)
  | none => done (.error (.context i))

def samePremises (c : Conclusion) (i : Nat) :
    List Premise → List Term → Solution → Asking RuleError Solution
  | p :: ps, t :: ts, k => do
    let k ← sameContext c i p.judgment.context k
    done (sameTerm i p.judgment.term t)
    samePremises c (i + 1) ps ts k
  | _, _, k => return k

def isInstance (Γ : Context) (gen spec : Ty) : Asking ε Bool :=
  let g := (Γ.supplyFor [gen, spec]).openAll gen
  let s := g.2.openAll spec
  ask g.1.2 s.1.2 s.2 fun r =>
    return Context.bindsOnly (.ofNames g.1.2.freeNames) (.ofNames g.1.1) (r.map Prod.fst)

/-- The first question that decides is the last one. -/
def areEquivalent (Γ : Context) (a b : Ty) : Asking ε Bool := do
  let x := (Γ.supplyFor [a, b]).openAll a
  let y := x.2.openAll b
  if !(← isInstance Γ a b) then return false
  if !(← isInstance Γ b a) then return false
  ask x.1.2 y.1.2 y.2 fun r => return Context.sameImages x.1.1 y.1.1 (r.map Prod.fst)

def checkVar (c : Conclusion) (i : Nat) (ty : Ty) (k : Solution) : Asking RuleError Solution :=
  match c.context.getType? i with
  | none => done (.error (.unify (.unbound i)))
  | some scheme =>
    match c.calculus with
    | .hindleyMilner => do
      let ((names, inst), σ) := k.supply.openAll scheme
      let k ← unify c inst ty { k with supply := σ }
      return { k with subst := k.subst.without names }
    | _ => unify c scheme ty k

def checkAbs (c : Conclusion) (annot : Option Ty) (body : Term) (ty : Ty) (p : Premise)
    (k : Solution) : Asking RuleError Solution := do
  let (b, k) ← extended c 0 p.judgment.context k
  match b with
  | .var a =>
    done (sameTerm 0 p.judgment.term body)
    let s ← done (unbind 0 p.subst)
    let k ← adopt c 0 s k
    let k ← match annot with
      | some annot => unify c annot a k
      | none => pure k
    unify c ty (.arr a (p.judgment.ty.shift (-1))) k
  | _ => done (.error (.context 0))

def checkApp (c : Conclusion) (t u : Term) (ty : Ty) (p q : Premise) (k : Solution) :
    Asking RuleError Solution := do
  let k ← samePremises c 0 [p, q] [t, u] k
  let k ← adoptAll c 0 [p, q] k
  unify c p.judgment.ty (.arr q.judgment.ty ty) k

def checkIte (c : Conclusion) (i t e : Term) (ty : Ty) (p q r : Premise) (k : Solution) :
    Asking RuleError Solution := do
  let k ← samePremises c 0 [p, q, r] [i, t, e] k
  let k ← adoptAll c 0 [p, q, r] k
  let k ← unify c p.judgment.ty .bool k
  let k ← unify c q.judgment.ty ty k
  unify c r.judgment.ty ty k

def checkTyAbs (c : Conclusion) (x : String) (body : Term) (ty : Ty) (p : Premise)
    (k : Solution) : Asking RuleError Solution := do
  let (b, k) ← extended c 0 p.judgment.context k
  match b with
  | .tyVar =>
    done (sameTerm 0 p.judgment.term body)
    let (n, σ) := k.supply.like x
    let k ← adopt c 0 (p.subst.map fun b => (b.1, b.2.openWith n)) { k with supply := σ }
    match k.subst.apply ty with
    | .all _ a =>
      let k ← unify c (a.openWith n) (p.judgment.ty.openWith n) k
      let s ← done ((keepRigid c.context k.subst n x).mapError .unify)
      return { k with subst := s }
    | ty => done (.error (.unify (.forallExpected ty)))
  | _ => done (.error (.context 0))

def checkTyApp (c : Conclusion) (t : Term) (arg ty : Ty) (p : Premise) (k : Solution) :
    Asking RuleError Solution := do
  let k ← samePremises c 0 [p] [t] k
  let k ← adopt c 0 p.subst k
  match k.subst.apply p.judgment.ty with
  | .all _ a => unify c (a.substTop arg) ty k
  | ty => done (.error (.unify (.forallExpected ty)))

def checkLet (c : Conclusion) (e body : Term) (ty : Ty) (p q : Premise) (k : Solution) :
    Asking RuleError Solution := do
  let k ← samePremises c 0 [p] [e] k
  let (b, k) ← extended c 1 q.judgment.context k
  match b with
  | .var scheme =>
    done (sameTerm 1 q.judgment.term body)
    let k ← adopt c 0 p.subst k
    let s ← done (unbind 1 q.subst)
    let k ← adopt c 1 s k
    let k ← match c.calculus with
      | .hindleyMilner => do
        let Γ ← done ((c.context.apply k.subst).mapError .unify)
        let gen := Γ.generalize (k.subst.apply p.judgment.ty) []
        if ← areEquivalent Γ gen (k.subst.apply scheme) then pure k
        else done (.error .notGeneral)
      | _ => unify c scheme p.judgment.ty k
    unify c ty (q.judgment.ty.shift (-1)) k
  | _ => done (.error (.context 1))

def check (c : Conclusion) (r : Rule) (t : Term) (ty : Ty) (ps : List Premise) (k : Solution) :
    Asking RuleError Solution :=
  match r, t, ps with
  | .var, .var _ i _, [] => checkVar c i ty k
  | .abs, .abs _ _ annot body, [p] => checkAbs c annot body ty p k
  | .app, .app _ t u, [p, q] => checkApp c t u ty p q k
  | .ite, .ite _ i t e, [p, q, r] => checkIte c i t e ty p q r k
  | .tyAbs, .tyAbs _ x body, [p] => checkTyAbs c x body ty p k
  | .tyApp, .tyApp _ t arg, [p] => checkTyApp c t arg ty p k
  | .letIn, .letIn _ _ e body, [p, q] => checkLet c e body ty p q k
  | .constTrue, .const .., [] | .constFalse, .const .., [] => unify c ty .bool k
  | r, _, _ => done (.error (.shape r))

def checkRule (k : Calculus) (r : Rule) (j : Judgment) (children : List (Option Judgment × Subst)) :
    Asking RuleError Subst := do
  if r = .none then done (.error .noRule)
  if !r.fits j.term then done (.error (.shape r))
  if r.arity ≠ children.length then done (.error (.arity r.arity children.length))
  let ps ← done (premises 0 children)
  let used := ps.flatMap (fun p => p.judgment.freeNames ++ p.subst.freeNames) ++ j.freeNames
  let solution ← check ⟨k, j.context⟩ r j.term j.ty ps ⟨.avoiding used, []⟩
  return solution.subst

def checkNode (k : Calculus) (r : Rule) (f : Fields) (children : List (Option Judgment × Subst)) :
    Asking NodeError Subst := do
  let j ← done (f.judgment.mapError .field)
  done ((k.admitsContext j.context).mapError .notAdmitted)
  done ((k.admitsTerm j.term).mapError .notAdmitted)
  done ((k.admitsType j.ty).mapError .notAdmitted)
  (checkRule k r j children).mapError .rule

section Run

variable {u v : Solver} {x : Asking ε α} {f : α → Asking ε β}

/-- A computation can be replaced by its result. -/
theorem run_bind_done {r : Except ε α} (h : x.run u = some r) :
    (x >>= f).run u = (done r >>= f).run u := by
  induction x with
  | done r' =>
    cases h
    rfl
  | ask a b σ next ih =>
    obtain ⟨r', hr', h⟩ := Option.bind_eq_some_iff.mp h
    exact (congrArg (Option.bind · _) hr').trans (ih r' h)

theorem run_bind_of_ok {a : α} (h : x.run u = some (.ok a)) : (x >>= f).run u = (f a).run u :=
  run_bind_done h

theorem run_bind_of_error {e : ε} (h : x.run u = some (.error e)) :
    (x >>= f).run u = some (.error e) :=
  run_bind_done h

/-- A dialogue that gives what a computation gives can be followed by another such dialogue. -/
theorem run_bind {r : Except ε α} {g : α → Except ε β} (h : x.run u = some r)
    (hf : ∀ a, (f a).run u = some (g a)) : (x >>= f).run u = some (r >>= g) := by
  cases r with
  | error e => exact run_bind_of_error h
  | ok a => exact (run_bind_of_ok h).trans (hf a)

theorem run_mapError (x : Asking ε α) (g : ε → ε') :
    (x.mapError g).run u = (x.run u).map (Except.mapError g) := by
  induction x with
  | done r => rfl
  | ask a b σ next ih =>
    simp only [mapError, run]
    cases u a b σ with
    | none => rfl
    | some r => exact ih r

/-- More answers do not change a result. -/
theorem run_of_extendsTo (huv : u.ExtendsTo v) {r : Except ε α} (h : x.run u = some r) :
    x.run v = some r := by
  induction x with
  | done r' => exact h
  | ask a b σ next ih =>
    obtain ⟨r', hr', h⟩ := Option.bind_eq_some_iff.mp h
    exact (congrArg (Option.bind · _) (huv a b σ r' hr')).trans (ih r' h)

end Run

/-- All questions of a calculus are answered as the check answers them: there are none, or
unification counts its rounds. -/
def Answers (u : Solver) (k : Calculus) : Prop := k = .systemF ∨ u = .counting

section Answers

variable {u : Solver} {c : Conclusion} (h : Answers u c.calculus)

theorem run_ask_counting (a b : Ty) (σ : NameSupply) (f : Except TypeError Subst → α) :
    (ask a b σ fun r => done (.ok (f (r.map Prod.fst))) : Asking ε α).run .counting =
      some (.ok (f ((unifyOpening a b).answer σ))) := by
  rw [run, Solver.counting, Supplied.answer]
  generalize unifyOpening a b σ = r
  cases r <;> rfl

theorem run_isInstance (Γ : Context) (gen spec : Ty) :
    (isInstance Γ gen spec : Asking ε Bool).run .counting =
      some (.ok (Γ.isInstance gen spec)) :=
  run_ask_counting _ _ _ (Context.bindsOnly _ _)

theorem run_areEquivalent (Γ : Context) (a b : Ty) :
    (areEquivalent Γ a b : Asking ε Bool).run .counting = some (.ok (Γ.areEquivalent a b)) := by
  rw [areEquivalent, run_bind_of_ok (run_isInstance Γ a b), Context.areEquivalent]
  cases Γ.isInstance a b with
  | false =>
    simp only [Bool.not_false, if_true, Bool.false_and]
    rfl
  | true =>
    simp only [Bool.not_true, Bool.false_eq_true, if_false, Bool.true_and]
    rw [run_bind_of_ok (run_isInstance Γ b a)]
    cases Γ.isInstance b a with
    | false =>
      simp only [Bool.not_false, if_true, Bool.false_and]
      rfl
    | true =>
      simp only [Bool.not_true, Bool.false_eq_true, if_false, Bool.true_and]
      exact run_ask_counting _ _ _ (Context.sameImages _ _)

include h

theorem run_solve (a b : Ty) (σ : NameSupply) : (solve c a b σ).run u = some (c.solve a b σ) := by
  unfold solve Conclusion.solve
  rcases h with hF | rfl
  · rw [hF]
    rfl
  · cases c.calculus with
    | systemF => rfl
    | _ =>
      rw [run, Solver.counting]
      generalize unifyOpening a b σ = r
      cases r <;> rfl

theorem run_equate (a b : Ty) (k : Solution) : (equate c a b k).run u = some (c.equate a b k) := by
  simp only [equate, Conclusion.equate]
  split
  · rfl
  · exact run_bind (run_solve h _ _ _) fun _ => run_bind rfl fun _ => rfl

theorem run_unify (a b : Ty) (k : Solution) : (unify c a b k).run u = some (c.unify a b k) := by
  rw [unify, run_mapError, run_equate h]
  rfl

theorem run_adopt (i : Nat) (s : Subst) (k : Solution) :
    (adopt c i s k).run u = some (c.adopt i s k) := by
  induction s with
  | nil => rfl
  | cons b s ih =>
    refine run_bind ih fun k => ?_
    rw [run_mapError, run_equate h]
    rfl

theorem run_adoptAll (i : Nat) (ps : List Premise) (k : Solution) :
    (adoptAll c i ps k).run u = some (c.adoptAll i ps k) := by
  induction ps generalizing i k with
  | nil => rfl
  | cons p ps ih => exact run_bind (run_adopt h i p.subst k) fun k => ih (i + 1) k

theorem run_equateBelow (i : Nat) (Γ₀ Δ₀ : Context) (d : Nat) (Γ Δ : Context) (k : Solution) :
    (equateBelow c i Γ₀ Δ₀ d Γ Δ k).run u =
      some ((c.equateBelow Γ₀ Δ₀ d Γ Δ k).elim (.error (.context i)) .ok) := by
  induction Γ generalizing Δ d k with
  | nil => cases Δ <;> rfl
  | cons e Γ ih =>
    cases Δ with
    | nil => rfl
    | cons f Δ =>
      simp only [equateBelow, Conclusion.equateBelow]
      cases e.binding <;> cases f.binding
      case var.var =>
        cases Γ₀.getType? d <;> cases Δ₀.getType? d
        case some.some a b =>
          dsimp only
          have hrun := run_mapError (u := u) (equate c a b k) fun _ => RuleError.context i
          rw [run_equate h] at hrun
          cases hk : c.equate a b k with
          | error e' =>
            rw [hk] at hrun
            exact run_bind_of_error hrun
          | ok k' =>
            rw [hk] at hrun
            exact (run_bind_of_ok hrun).trans (ih _ _ _)
        all_goals rfl
      case name.name => exact ih _ _ _
      case tyVar.tyVar => exact ih _ _ _
      all_goals rfl

theorem run_sameContext (i : Nat) (Γ : Context) (k : Solution) :
    (sameContext c i Γ k).run u = some (c.sameContext i Γ k) := by
  unfold sameContext Conclusion.sameContext
  split
  · rfl
  · rw [run_equateBelow h]
    cases c.equateBelow Γ c.context 0 Γ c.context k <;> rfl

theorem run_extended (i : Nat) (Γ : Context) (k : Solution) :
    (extended c i Γ k).run u = some (c.extended i Γ k) := by
  unfold extended Conclusion.extended
  cases Γ.pop? with
  | none => rfl
  | some top => exact run_bind (run_sameContext h i top.2 k) fun _ => rfl

theorem run_samePremises (i : Nat) (ps : List Premise) (ts : List Term) (k : Solution) :
    (samePremises c i ps ts k).run u = some (c.samePremises i ps ts k) := by
  induction ps generalizing i ts k with
  | nil => rfl
  | cons p ps ih =>
    cases ts with
    | nil => rfl
    | cons t ts =>
      exact run_bind (run_sameContext h i p.judgment.context k) fun k =>
        run_bind rfl fun _ => ih (i + 1) ts k

theorem run_checkVar (i : Nat) (ty : Ty) (k : Solution) :
    (checkVar c i ty k).run u = some (c.checkVar i ty k) := by
  unfold checkVar Conclusion.checkVar
  cases c.context.getType? i with
  | none => rfl
  | some scheme =>
    cases c.calculus with
    | hindleyMilner => exact run_bind (run_unify h _ _ _) fun _ => rfl
    | _ => exact run_unify h _ _ _

theorem run_checkAbs (annot : Option Ty) (body : Term) (ty : Ty) (p : Premise) (k : Solution) :
    (checkAbs c annot body ty p k).run u = some (c.checkAbs annot body ty p k) := by
  refine run_bind (run_extended h 0 p.judgment.context k) ?_
  rintro ⟨b, k⟩
  cases b with
  | var a =>
    refine run_bind rfl fun _ => run_bind rfl fun s => run_bind (run_adopt h 0 s k) fun k => ?_
    cases annot with
    | none => exact run_unify h _ _ k
    | some annot => exact run_bind (run_unify h annot a k) fun k => run_unify h _ _ k
  | _ => rfl

theorem run_checkApp (t v : Term) (ty : Ty) (p q : Premise) (k : Solution) :
    (checkApp c t v ty p q k).run u = some (c.checkApp t v ty p q k) :=
  run_bind (run_samePremises h 0 [p, q] [t, v] k) fun k =>
    run_bind (run_adoptAll h 0 [p, q] k) fun k => run_unify h _ _ k

theorem run_checkIte (i t e : Term) (ty : Ty) (p q r : Premise) (k : Solution) :
    (checkIte c i t e ty p q r k).run u = some (c.checkIte i t e ty p q r k) :=
  run_bind (run_samePremises h 0 [p, q, r] [i, t, e] k) fun k =>
    run_bind (run_adoptAll h 0 [p, q, r] k) fun k =>
      run_bind (run_unify h _ _ k) fun k => run_bind (run_unify h _ _ k) fun k => run_unify h _ _ k

theorem run_checkTyAbs (x : String) (body : Term) (ty : Ty) (p : Premise) (k : Solution) :
    (checkTyAbs c x body ty p k).run u = some (c.checkTyAbs x body ty p k) := by
  refine run_bind (run_extended h 0 p.judgment.context k) ?_
  rintro ⟨b, k⟩
  cases b with
  | tyVar =>
    refine run_bind rfl fun _ => run_bind (run_adopt h 0 _ _) fun k => ?_
    cases k.subst.apply ty with
    | all y a => exact run_bind (run_unify h _ _ k) fun k => run_bind rfl fun _ => rfl
    | _ => rfl
  | _ => rfl

theorem run_checkTyApp (t : Term) (arg ty : Ty) (p : Premise) (k : Solution) :
    (checkTyApp c t arg ty p k).run u = some (c.checkTyApp t arg ty p k) := by
  refine run_bind (run_samePremises h 0 [p] [t] k) fun k =>
    run_bind (run_adopt h 0 p.subst k) fun k => ?_
  cases k.subst.apply p.judgment.ty with
  | all y a => exact run_unify h _ _ k
  | _ => rfl

theorem run_checkLet (e body : Term) (ty : Ty) (p q : Premise) (k : Solution) :
    (checkLet c e body ty p q k).run u = some (c.checkLet e body ty p q k) := by
  refine run_bind (run_samePremises h 0 [p] [e] k) fun k =>
    run_bind (run_extended h 1 q.judgment.context k) ?_
  rintro ⟨b, k⟩
  cases b with
  | var scheme =>
    refine run_bind rfl fun _ => run_bind (run_adopt h 0 p.subst k) fun k =>
      run_bind rfl fun s => run_bind (run_adopt h 1 s k) fun k => ?_
    cases hc : c.calculus with
    | hindleyMilner =>
      obtain rfl : u = .counting := h.resolve_left (by simp [hc])
      refine run_bind rfl fun Γ => (run_bind_of_ok (run_areEquivalent Γ _ _)).trans ?_
      dsimp only
      generalize Γ.areEquivalent _ _ = same
      cases same with
      | false => rfl
      | true => exact run_unify h _ _ k
    | _ => exact run_bind (run_unify h _ _ k) fun k => run_unify h _ _ k
  | _ => rfl

theorem run_check (r : Rule) (t : Term) (ty : Ty) (ps : List Premise) (k : Solution) :
    (check c r t ty ps k).run u = some (c.check r t ty ps k) := by
  unfold check
  split
  · exact run_checkVar h _ _ _
  · exact run_checkAbs h _ _ _ _ _
  · exact run_checkApp h _ _ _ _ _ _
  · exact run_checkIte h _ _ _ _ _ _ _ _
  · exact run_checkTyAbs h _ _ _ _ _
  · exact run_checkTyApp h _ _ _ _ _
  · exact run_checkLet h _ _ _ _ _ _
  · exact run_unify h _ _ _
  · exact run_unify h _ _ _
  · simp only [Conclusion.check]
    rfl

end Answers

section Nodes

variable {u : Solver} {k : Calculus} (h : Answers u k)

include h

theorem run_checkRule (r : Rule) (j : Judgment) (children : List (Option Judgment × Subst)) :
    (checkRule k r j children).run u = some (LambdaTyping.checkRule k r j children) := by
  unfold checkRule LambdaTyping.checkRule
  by_cases hnone : r = .none
  · rw [if_pos hnone, if_pos hnone]
    rfl
  rw [if_neg hnone, if_neg hnone]
  by_cases hfits : (!r.fits j.term) = true
  · rw [if_pos hfits, if_pos hfits]
    rfl
  rw [if_neg hfits, if_neg hfits]
  by_cases harity : r.arity ≠ children.length
  · rw [if_pos harity, if_pos harity]
    rfl
  rw [if_neg harity, if_neg harity]
  exact run_bind rfl fun ps => run_bind (run_check h r j.term j.ty ps _) fun _ => rfl

theorem run_checkNode (r : Rule) (f : Fields) (children : List (Option Judgment × Subst)) :
    (checkNode k r f children).run u = some (LambdaTyping.checkNode k r f children) := by
  refine run_bind rfl fun j => run_bind rfl fun _ => run_bind rfl fun _ => run_bind rfl fun _ => ?_
  rw [run_mapError, run_checkRule h]
  rfl

end Nodes

end Asking

namespace RuleTree

mutual

/-- Check a tree from its leaves on, as long as all questions are answered. One that is not answered
takes the whole tree with it. -/
def checkBelowBy (u : Solver) (k : Calculus) (blocked : Bool) : RuleTree → Option Checked
  | ⟨context, term, type, rule, children⟩ => do
    let fields := if blocked then .blocked else .parse context term type
    let children ← checkAllBelowBy u k fields.judgment?.isNone children
    let outcome ← (Asking.checkNode k rule fields (children.map Checked.asPremise)).run u
    return ⟨fields, rule, outcome, children⟩

def checkAllBelowBy (u : Solver) (k : Calculus) (blocked : Bool) :
    List RuleTree → Option (List Checked)
  | [] => some []
  | t :: ts => do
    let c ← t.checkBelowBy u k blocked
    let cs ← checkAllBelowBy u k blocked ts
    return c :: cs

end

/-- The checked tree, if every unification ends within so many rounds. -/
def checkWithin (rounds : Nat) (k : Calculus) (t : RuleTree) : Option Checked :=
  t.checkBelowBy (.within rounds) k false

/-- The check comes to an end, with this result: some number of rounds is enough for every
unification that it waits for. -/
def Returns (k : Calculus) (t : RuleTree) (c : Checked) : Prop :=
  ∃ rounds, t.checkWithin rounds k = some c

section Trees

variable {u v : Solver} {k : Calculus} {blocked : Bool} {t : RuleTree} {c : Checked}

theorem checkAllBelowBy_eq_some_iff {ts : List RuleTree} {cs : List Checked} :
    checkAllBelowBy u k blocked ts = some cs ↔
      List.Forall₂ (fun t c => t.checkBelowBy u k blocked = some c) ts cs := by
  induction ts generalizing cs with
  | nil => simp [checkAllBelowBy, eq_comm]
  | cons t ts ih =>
    simp only [checkAllBelowBy, bind, Option.bind_eq_some_iff, pure, Option.some.injEq, ih,
      List.forall₂_cons_left_iff]
    constructor
    · rintro ⟨c, hc, cs', hcs, rfl⟩
      exact ⟨c, cs', hc, hcs, rfl⟩
    · rintro ⟨c, cs', hc, hcs, rfl⟩
      exact ⟨c, hc, cs', hcs, rfl⟩

/-- What a result says about the root and its children. Children are looked at below a node that was
looked at and has a judgment. -/
structure Checks (u : Solver) (k : Calculus) (blocked : Bool) (t : RuleTree) (c : Checked) :
    Prop where
  fields : c.fields = if blocked then .blocked else .parse t.context t.term t.type
  rule : c.rule = t.rule
  children : List.Forall₂ (fun n d => n.checkBelowBy u k (blocked || t.judgment?.isNone) = some d)
    t.children c.children
  outcome : (Asking.checkNode k t.rule c.fields (c.children.map Checked.asPremise)).run u =
    some c.outcome

theorem checkBelowBy_eq_some_iff :
    t.checkBelowBy u k blocked = some c ↔ Checks u k blocked t c := by
  obtain ⟨context, term, type, rule, children⟩ := t
  have hblocked : (if blocked then .blocked else Fields.parse context term type).judgment?.isNone =
      (blocked || (judgment? ⟨context, term, type, rule, children⟩).isNone) := by
    cases blocked <;> rfl
  simp only [checkBelowBy, bind, Option.bind_eq_some_iff, pure, Option.some.injEq,
    checkAllBelowBy_eq_some_iff, hblocked]
  constructor
  · rintro ⟨cs, hcs, r, hr, rfl⟩
    exact ⟨rfl, rfl, hcs, hr⟩
  · rintro ⟨hfields, hrule, hcs, hr⟩
    obtain ⟨fields, rule', outcome, cs⟩ := c
    dsimp only at hfields hrule
    subst hfields hrule
    exact ⟨cs, hcs, outcome, hr, rfl⟩

/-- More answers do not change the result of a check. -/
theorem checkBelowBy_of_extendsTo (huv : u.ExtendsTo v) (h : t.checkBelowBy u k blocked = some c) :
    t.checkBelowBy v k blocked = some c := by
  induction t using induction generalizing blocked c with
  | node t ih =>
    rw [checkBelowBy_eq_some_iff] at h ⊢
    have hchildren := (List.forall₂_and_left _ _).mpr ⟨fun n hn => @ih n hn, h.children⟩
    exact ⟨h.fields, h.rule, hchildren.imp fun n d hnode => hnode.1 hnode.2,
      Asking.run_of_extendsTo huv h.outcome⟩

/-- More rounds do not change the result of a check. -/
theorem checkBelowBy_of_le {rounds more : Nat} (hle : rounds ≤ more)
    (h : t.checkBelowBy (.within rounds) k blocked = some c) :
    t.checkBelowBy (.within more) k blocked = some c :=
  checkBelowBy_of_extendsTo (Solver.extendsTo_within hle) h

theorem fields_checkBelow (blocked : Bool) (t : RuleTree) :
    (t.checkBelow k blocked).fields =
      if blocked then .blocked else .parse t.context t.term t.type := by
  obtain ⟨context, term, type, rule, children⟩ := t
  rfl

theorem children_checkBelow (blocked : Bool) (t : RuleTree) :
    (t.checkBelow k blocked).children =
      t.children.map (checkBelow k (blocked || t.judgment?.isNone)) := by
  obtain ⟨context, term, type, rule, children⟩ := t
  rw [checkBelow, checkAllBelow_eq_map]
  cases blocked <;> rfl

theorem outcome_checkBelow (blocked : Bool) (t : RuleTree) :
    (t.checkBelow k blocked).outcome = checkNode k t.rule (t.checkBelow k blocked).fields
      ((t.checkBelow k blocked).children.map Checked.asPremise) := by
  obtain ⟨context, term, type, rule, children⟩ := t
  rfl

/-- A result of the check is one of the dialogue if the children and the node are. -/
theorem checkBelowBy_of_children
    (hchildren : ∀ n ∈ t.children, n.checkBelowBy u k (blocked || t.judgment?.isNone) =
      some (n.checkBelow k (blocked || t.judgment?.isNone)))
    (hnode : (Asking.checkNode k t.rule (t.checkBelow k blocked).fields
      ((t.checkBelow k blocked).children.map Checked.asPremise)).run u =
        some (t.checkBelow k blocked).outcome) :
    t.checkBelowBy u k blocked = some (t.checkBelow k blocked) := by
  refine checkBelowBy_eq_some_iff.mpr ⟨fields_checkBelow blocked t, ?_, ?_, hnode⟩
  · obtain ⟨context, term, type, rule, children⟩ := t
    rfl
  · rw [children_checkBelow, List.forall₂_map_right_iff, List.forall₂_same]
    exact hchildren

/-- If all questions are answered, this is the check itself. -/
theorem checkBelowBy_of_answers (h : Asking.Answers u k) (blocked : Bool) (t : RuleTree) :
    t.checkBelowBy u k blocked = some (t.checkBelow k blocked) := by
  induction t using induction generalizing blocked with
  | node t ih =>
    refine checkBelowBy_of_children (fun n hn => ih n hn _) ?_
    rw [Asking.run_checkNode h, ← outcome_checkBelow]

theorem check_of_checkWithin {rounds : Nat} (hle : rounds ≤ Unify.openings)
    (h : t.checkWithin rounds k = some c) : t.check k = c := by
  have hcounting := checkBelowBy_of_extendsTo (Solver.extendsTo_counting hle) h
  rw [checkBelowBy_of_answers (.inr rfl)] at hcounting
  exact Option.some.inj hcounting

theorem returns_systemF (t : RuleTree) : t.Returns .systemF (t.check .systemF) :=
  ⟨0, checkBelowBy_of_answers (.inl rfl) false t⟩

/-- Two checks that return do so within the same number of rounds. -/
theorem Returns.exists_rounds {t' : RuleTree} {c' : Checked} (h : t.Returns k c)
    (h' : t'.Returns k c') :
    ∃ rounds, t.checkWithin rounds k = some c ∧ t'.checkWithin rounds k = some c' := by
  obtain ⟨m, hm⟩ := h
  obtain ⟨n, hn⟩ := h'
  exact ⟨max m n, checkBelowBy_of_le (Nat.le_max_left m n) hm,
    checkBelowBy_of_le (Nat.le_max_right m n) hn⟩

theorem Returns.unique {c' : Checked} (h : t.Returns k c) (h' : t.Returns k c') : c = c' := by
  obtain ⟨rounds, hc, hc'⟩ := h.exists_rounds h'
  exact Option.some.inj (hc.symm.trans hc')

end Trees

end RuleTree

end LambdaTyping
