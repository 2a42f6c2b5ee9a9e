import LambdaTyping.Text.Shorthand
import LambdaTyping.Surface.Parser
import LambdaTyping.Term.Basic
import LambdaTyping.Context.Basic

/-!
From names to indices. Term and type binders are counted together, but a term
name is only looked up among term binders and a type name among type binders. A
type name that is not bound is free; a term name has to be bound.
-/
namespace LambdaTyping

open Text (Position)

inductive Kind where
  | term | type
  deriving DecidableEq

def Binding.kind : Binding → Kind
  | .tyVar => .type
  | _ => .term

/-- The binders in force, the nearest first. -/
abbrev Scope := Stack (String × Kind)

namespace Scope

def ofContext (Γ : Context) : Scope :=
  Γ.map fun e => (e.name, e.binding.kind)

/-- The index of the nearest binder with a name and a kind. -/
def index? (sc : Scope) (x : String) (k : Kind) : Option Nat := sc.findIdx? (· == (x, k))

end Scope

/-- A term variable that no binder binds. -/
structure Unbound where
  name : String
  pos : Position
  deriving DecidableEq

def Unbound.message (e : Unbound) : String := "unbound variable " ++ e.name ++ " at " ++ e.pos.text

namespace Surface

def Ty.resolve (sc : Scope) : Ty → LambdaTyping.Ty
  | .var x =>
    match sc.index? x .type with
    | some i => .var i sc.length
    | none => .name x
  | .bool => .bool
  | .arr a b => .arr (a.resolve sc) (b.resolve sc)
  | .all x a => .all x (a.resolve (sc.push (x, .type)))

def Term.resolve (sc : Scope) : Term → Except Unbound LambdaTyping.Term
  | .var p x =>
    match sc.index? x .term with
    | some i => .ok (.var p i sc.length)
    | none => .error ⟨x, p⟩
  | .const p b => .ok (.const p b)
  | .abs p x ty t => do
    let t ← t.resolve (sc.push (x, .term))
    return .abs p x (ty.map (Ty.resolve sc)) t
  | .app p t u => do
    let t ← t.resolve sc
    let u ← u.resolve sc
    return .app p t u
  | .ite p c t e => do
    let c ← c.resolve sc
    let t ← t.resolve sc
    let e ← e.resolve sc
    return .ite p c t e
  | .tyAbs p x t => do
    let t ← t.resolve (sc.push (x, .type))
    return .tyAbs p x t
  | .tyApp p t ty => do
    let t ← t.resolve sc
    return .tyApp p t (ty.resolve sc)
  | .letIn p x e t => do
    let e ← e.resolve sc
    let t ← t.resolve (sc.push (x, .term))
    return .letIn p x e t

/-- The type of a binding is resolved in the bindings before it. -/
def Binding.resolve (sc : Scope) : Binding → LambdaTyping.Binding
  | .var (some ty) => .var (ty.resolve sc)
  | .var none => .name
  | .tyVar => .tyVar

/-- Put resolved bindings on top of a context with its scope, in the order of the text. -/
def Context.resolveOnto (sc : Scope) (Γ : LambdaTyping.Context) : Context → LambdaTyping.Context
  | [] => Γ
  | (x, b) :: bs =>
    let b := b.resolve sc
    resolveOnto (sc.push (x, b.kind)) (Γ.push ⟨x, b⟩) bs

end Surface

/-- Why a text is not a term, type or context. -/
inductive TextError where
  | syntactic (e : Surface.SyntaxError)
  | unbound (e : Unbound)
  deriving DecidableEq

def Context.parse (text : String) : Except TextError Context :=
  match Surface.Context.parse (Text.expand text) with
  | .ok bs => .ok (Surface.Context.resolveOnto [] [] bs)
  | .error e => .error (.syntactic e)

def Term.parse (Γ : Context) (text : String) : Except TextError Term :=
  match Surface.Term.parse (Text.expand text) with
  | .ok t =>
    match t.resolve (.ofContext Γ) with
    | .ok t => .ok t
    | .error e => .error (.unbound e)
  | .error e => .error (.syntactic e)

def Ty.parse (Γ : Context) (text : String) : Except TextError Ty :=
  match Surface.Ty.parse (Text.expand text) with
  | .ok t => .ok (t.resolve (.ofContext Γ))
  | .error e => .error (.syntactic e)

end LambdaTyping
