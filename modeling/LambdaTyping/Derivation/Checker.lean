import LambdaTyping.Calculus
import LambdaTyping.Inference
import LambdaTyping.TypeError.Message
import LambdaTyping.Derivation.Tree

/-!
Checking one rule. Free names of all judgments are unknown types: a rule holds
under a substitution, which has to agree with the substitutions under which the
premises hold. The substitution is built up equation by equation, and after each
equation the types of the context have to be in scope still.

System F instantiates no quantifier by itself, so its equations are solved
rigidly.

Opening unification may have no answer, and then a check that is waiting for it
has none either, for this node and for the whole tree. What is defined here goes on
when the count of rounds has run out, as if the types had no unifier; which checks
return without a count is said by `RuleTree.Returns`.
-/
namespace LambdaTyping

/-- Why a rule does not derive a judgment; premises are counted from 0. -/
inductive RuleError where
  | noRule
  | shape (rule : Rule)
  | arity (expected found : Nat)
  /-- A premise has no judgment. -/
  | premise (i : Nat)
  | context (i : Nat)
  | term (i : Nat)
  | unify (e : TypeError)
  /-- The substitution of a premise contradicts what is known before. -/
  | conflict (i : Nat) (e : TypeError)
  | notGeneral
  deriving DecidableEq

/-- The text of a rule error; types are printed in the context of the conclusion. -/
def RuleError.message (Γ : Context) : RuleError → String
  | noRule => "no rule selected"
  | shape r => "rule premises not satisfied: rule " ++ r.key ++ " does not apply to this term"
  | arity n m => "rule premises not satisfied: expected " ++ n.repr ++ " premises, found " ++ m.repr
  | premise i => "rule premises not satisfied: premise " ++ (i + 1).repr ++ " is not available"
  | context i =>
    "rule premises not satisfied: context of premise " ++ (i + 1).repr ++ " does not match"
  | term i => "rule premises not satisfied: term of premise " ++ (i + 1).repr ++ " does not match"
  | unify e => "rule premises not satisfied: " ++ e.message Γ
  | conflict i e =>
    "rule premises not satisfied: premise " ++ (i + 1).repr ++
      " requires a conflicting substitution: " ++ e.message Γ
  | notGeneral =>
    "rule premises not satisfied: type of let-bound variable is not the generalized type"

/-- The judgment of a premise and the substitution under which it holds. -/
structure Premise where
  judgment : Judgment
  subst : Subst

/-- What is known while a rule is checked. -/
structure Solution where
  supply : NameSupply
  subst : Subst

/-- Where a rule is checked: the calculus, and the context of the conclusion. -/
structure Conclusion where
  calculus : Calculus
  context : Context

namespace Conclusion

/-- Solve two types of the context of the conclusion. -/
def solve (c : Conclusion) (a b : Ty) (σ : NameSupply) : Except TypeError (Subst × NameSupply) :=
  match c.calculus with
  | .systemF => (unifyRigid a b).map (·, σ)
  | _ =>
    match unifyOpening a b σ with
    | .ok s σ => .ok (s, σ)
    | .error e _ => .error e

/-- Make two types equal under the substitution. -/
def equate (c : Conclusion) (a b : Ty) (k : Solution) : Except TypeError Solution := do
  let a := k.subst.apply a
  let b := k.subst.apply b
  if a.alphaEq b then return k
  let (s, σ) ← c.solve a b k.supply
  let s := s ++ k.subst
  let _ ← c.context.apply s
  return ⟨σ, s⟩

def unify (c : Conclusion) (a b : Ty) (k : Solution) : Except RuleError Solution :=
  (c.equate a b k).mapError .unify

/-- Make the bindings of the substitution of premise `i` hold, the last one first. -/
def adopt (c : Conclusion) (i : Nat) : Subst → Solution → Except RuleError Solution
  | [], k => .ok k
  | (x, ty) :: s, k => do
    let k ← c.adopt i s k
    (c.equate (.name x) ty k).mapError (.conflict i)

/-- Adopt the substitutions of several premises, from the first on. -/
def adoptAll (c : Conclusion) (i : Nat) : List Premise → Solution → Except RuleError Solution
  | [], k => .ok k
  | p :: ps, k => do
    let k ← c.adopt i p.subst k
    c.adoptAll (i + 1) ps k

/-- Make two contexts of one length equal, the most recent binding first. `Γ` and `Δ` are what is
left of `Γ₀` and `Δ₀` below the `d` most recent bindings. -/
def equateBelow (c : Conclusion) (Γ₀ Δ₀ : Context) (d : Nat) :
    Context → Context → Solution → Option Solution
  | [], [], k => some k
  | e :: Γ, f :: Δ, k =>
    match e.binding, f.binding with
    | .var _, .var _ =>
      match Γ₀.getType? d, Δ₀.getType? d with
      | some a, some b =>
        match c.equate a b k with
        | .ok k => c.equateBelow Γ₀ Δ₀ (d + 1) Γ Δ k
        | .error _ => none
      | _, _ => none
    | .name, .name | .tyVar, .tyVar => c.equateBelow Γ₀ Δ₀ (d + 1) Γ Δ k
    | _, _ => none
  | _, _, _ => none

/-- The context of premise `i` is that of the conclusion. -/
def sameContext (c : Conclusion) (i : Nat) (Γ : Context) (k : Solution) :
    Except RuleError Solution :=
  if Γ.length ≠ c.context.length then .error (.context i)
  else
    match c.equateBelow Γ c.context 0 Γ c.context k with
    | some k => .ok k
    | none => .error (.context i)

/-- The context of premise `i` has one binding more than that of the conclusion, which is given. -/
def extended (c : Conclusion) (i : Nat) (Γ : Context) (k : Solution) :
    Except RuleError (Binding × Solution) :=
  match Γ.pop? with
  | some (e, Γ) => do
    let k ← c.sameContext i Γ k
    return (e.binding, k)
  | none => .error (.context i)

end Conclusion

/-- The term of premise `i` is the given one. -/
def sameTerm (i : Nat) (t u : Term) : Except RuleError Unit :=
  if t.alphaEq u then .ok () else .error (.term i)

/-- Take the substitution of premise `i` out of the scope of a term variable. -/
def unbind (i : Nat) (s : Subst) : Except RuleError Subst :=
  match s.unshift? 1 with
  | some s => .ok s
  | none => .error (.context i)

/-- Premises in the context of the conclusion, for the given terms. -/
def Conclusion.samePremises (c : Conclusion) (i : Nat) :
    List Premise → List Term → Solution → Except RuleError Solution
  | p :: ps, t :: ts, k => do
    let k ← c.sameContext i p.judgment.context k
    sameTerm i p.judgment.term t
    c.samePremises (i + 1) ps ts k
  | _, _, k => .ok k

namespace Conclusion

/-- A variable has the type of the context, in Hindley-Milner any instance of it. The names that
stand for instantiated variables are local to the node. -/
def checkVar (c : Conclusion) (i : Nat) (ty : Ty) (k : Solution) : Except RuleError Solution :=
  match c.context.getType? i with
  | none => .error (.unify (.unbound i))
  | some scheme =>
    match c.calculus with
    | .hindleyMilner => do
      let ((names, inst), σ) := k.supply.openAll scheme
      let k ← c.unify inst ty { k with supply := σ }
      return { k with subst := k.subst.without names }
    | _ => c.unify scheme ty k

def checkAbs (c : Conclusion) (annot : Option Ty) (body : Term) (ty : Ty) (p : Premise)
    (k : Solution) : Except RuleError Solution := do
  let (b, k) ← c.extended 0 p.judgment.context k
  match b with
  | .var a =>
    sameTerm 0 p.judgment.term body
    let s ← unbind 0 p.subst
    let k ← c.adopt 0 s k
    let k ← match annot with
      | some annot => c.unify annot a k
      | none => .ok k
    c.unify ty (.arr a (p.judgment.ty.shift (-1))) k
  | _ => .error (.context 0)

def checkApp (c : Conclusion) (t u : Term) (ty : Ty) (p q : Premise) (k : Solution) :
    Except RuleError Solution := do
  let k ← c.samePremises 0 [p, q] [t, u] k
  let k ← c.adoptAll 0 [p, q] k
  c.unify p.judgment.ty (.arr q.judgment.ty ty) k

def checkIte (c : Conclusion) (i t e : Term) (ty : Ty) (p q r : Premise) (k : Solution) :
    Except RuleError Solution := do
  let k ← c.samePremises 0 [p, q, r] [i, t, e] k
  let k ← c.adoptAll 0 [p, q, r] k
  let k ← c.unify p.judgment.ty .bool k
  let k ← c.unify q.judgment.ty ty k
  c.unify r.judgment.ty ty k

/-- The bodies of both types are compared with a new name for the type variable, which has to
stay what it is. -/
def checkTyAbs (c : Conclusion) (x : String) (body : Term) (ty : Ty) (p : Premise)
    (k : Solution) : Except RuleError Solution := do
  let (b, k) ← c.extended 0 p.judgment.context k
  match b with
  | .tyVar =>
    sameTerm 0 p.judgment.term body
    let (n, σ) := k.supply.like x
    let k ← c.adopt 0 (p.subst.map fun b => (b.1, b.2.openWith n)) { k with supply := σ }
    match k.subst.apply ty with
    | .all _ a =>
      let k ← c.unify (a.openWith n) (p.judgment.ty.openWith n) k
      let s ← (keepRigid c.context k.subst n x).mapError .unify
      return { k with subst := s }
    | ty => .error (.unify (.forallExpected ty))
  | _ => .error (.context 0)

def checkTyApp (c : Conclusion) (t : Term) (arg ty : Ty) (p : Premise) (k : Solution) :
    Except RuleError Solution := do
  let k ← c.samePremises 0 [p] [t] k
  let k ← c.adopt 0 p.subst k
  match k.subst.apply p.judgment.ty with
  | .all _ a => c.unify (a.substTop arg) ty k
  | ty => .error (.unify (.forallExpected ty))

/-- In Hindley-Milner the bound variable has exactly the generalised type of its definition. -/
def checkLet (c : Conclusion) (e body : Term) (ty : Ty) (p q : Premise) (k : Solution) :
    Except RuleError Solution := do
  let k ← c.samePremises 0 [p] [e] k
  let (b, k) ← c.extended 1 q.judgment.context k
  match b with
  | .var scheme =>
    sameTerm 1 q.judgment.term body
    let k ← c.adopt 0 p.subst k
    let s ← unbind 1 q.subst
    let k ← c.adopt 1 s k
    let k ← match c.calculus with
      | .hindleyMilner => do
        let Γ ← (c.context.apply k.subst).mapError .unify
        let gen := Γ.generalize (k.subst.apply p.judgment.ty) []
        if Γ.areEquivalent gen (k.subst.apply scheme) then .ok k else .error .notGeneral
      | _ => c.unify scheme p.judgment.ty k
    c.unify ty (q.judgment.ty.shift (-1)) k
  | _ => .error (.context 1)

/-- Check a rule for `t : ty`. -/
def check (c : Conclusion) (r : Rule) (t : Term) (ty : Ty) (ps : List Premise) (k : Solution) :
    Except RuleError Solution :=
  match r, t, ps with
  | .var, .var _ i _, [] => c.checkVar i ty k
  | .abs, .abs _ _ annot body, [p] => c.checkAbs annot body ty p k
  | .app, .app _ t u, [p, q] => c.checkApp t u ty p q k
  | .ite, .ite _ i t e, [p, q, r] => c.checkIte i t e ty p q r k
  | .tyAbs, .tyAbs _ x body, [p] => c.checkTyAbs x body ty p k
  | .tyApp, .tyApp _ t arg, [p] => c.checkTyApp t arg ty p k
  | .letIn, .letIn _ _ e body, [p, q] => c.checkLet e body ty p q k
  | .constTrue, .const .., [] | .constFalse, .const .., [] => c.unify ty .bool k
  | r, _, _ => .error (.shape r)

end Conclusion

/-- Why a node does not hold. -/
inductive NodeError where
  | field (e : FieldError)
  | notAdmitted (e : NotAdmitted)
  | rule (e : RuleError)
  deriving DecidableEq

def NodeError.message (Γ : Context) : NodeError → String
  | field e => e.message
  | notAdmitted e => e.message
  | rule e => e.message Γ

/-- The premises, if all children have judgments. -/
def premises (i : Nat) : List (Option Judgment × Subst) → Except RuleError (List Premise)
  | [] => .ok []
  | (none, _) :: _ => .error (.premise i)
  | (some j, s) :: cs => do
    let ps ← premises (i + 1) cs
    return ⟨j, s⟩ :: ps

/-- Check a rule with its number of premises. -/
def checkRule (k : Calculus) (r : Rule) (j : Judgment) (children : List (Option Judgment × Subst)) :
    Except RuleError Subst := do
  if r = .none then throw .noRule
  if !r.fits j.term then throw (.shape r)
  if r.arity ≠ children.length then throw (.arity r.arity children.length)
  let ps ← premises 0 children
  let used := ps.flatMap (fun p => p.judgment.freeNames ++ p.subst.freeNames) ++ j.freeNames
  let solution ← Conclusion.check ⟨k, j.context⟩ r j.term j.ty ps ⟨.avoiding used, []⟩
  return solution.subst

/-- Check a node: the substitution under which it holds, given what its children hold under. That
unification ran out of rounds is an error of the node like any other. -/
def checkNode (k : Calculus) (r : Rule) (f : Fields) (children : List (Option Judgment × Subst)) :
    Except NodeError Subst := do
  let j ← f.judgment.mapError .field
  (k.admitsContext j.context).mapError .notAdmitted
  (k.admitsTerm j.term).mapError .notAdmitted
  (k.admitsType j.ty).mapError .notAdmitted
  (checkRule k r j children).mapError .rule

/-- A rule tree with the values of its fields and the outcome of every node. -/
structure Checked where
  fields : Fields
  rule : Rule
  outcome : Except NodeError Subst
  children : List Checked

namespace Checked

/-- What a node means as a premise; one that does not hold constrains nothing. -/
def asPremise (c : Checked) : Option Judgment × Subst :=
  (c.fields.judgment?, match c.outcome with
    | .ok s => s
    | .error _ => [])

end Checked

mutual

/-- Check a tree from its leaves on. Below a node without a judgment nothing has a value. -/
def RuleTree.checkBelow (k : Calculus) (blocked : Bool) : RuleTree → Checked
  | ⟨context, term, type, rule, children⟩ =>
    let fields := if blocked then .blocked else .parse context term type
    let children := checkAllBelow k fields.judgment?.isNone children
    ⟨fields, rule, checkNode k rule fields (children.map Checked.asPremise), children⟩

def RuleTree.checkAllBelow (k : Calculus) (blocked : Bool) : List RuleTree → List Checked
  | [] => []
  | t :: ts => t.checkBelow k blocked :: checkAllBelow k blocked ts

end

def RuleTree.check (k : Calculus) (t : RuleTree) : Checked := t.checkBelow k false

mutual

/-- The number of nodes that do not hold. -/
def Checked.failures : Checked → Nat
  | ⟨_, _, outcome, children⟩ =>
    (match outcome with
      | .ok _ => 0
      | .error _ => 1) + failuresIn children

def Checked.failuresIn : List Checked → Nat
  | [] => 0
  | c :: cs => c.failures + failuresIn cs

end

mutual

/-- Do all nodes hold? -/
def Checked.isValid : Checked → Bool
  | ⟨_, _, outcome, children⟩ =>
    (match outcome with
      | .ok _ => true
      | .error _ => false) && areValid children

def Checked.areValid : List Checked → Bool
  | [] => true
  | c :: cs => c.isValid && areValid cs

end

end LambdaTyping
