import LambdaTyping.Derivation.Checker
import LambdaTyping.Json.Value

/-!
What is said about a checked tree: a verdict for each node, a listing with one
node a line, and the whole tree as JSON.
-/
namespace LambdaTyping

/-- What is said about a field. -/
inductive FieldReport where
  | parsed (text : String)
  | syntactic (e : Surface.SyntaxError)
  | error (text : String)

namespace FieldReport

def of {α : Type} (print : α → String) : Except FieldError α → FieldReport
  | .ok a => parsed (print a)
  | .error (.text (.syntactic e)) => syntactic e
  | .error e => error e.message

def text : FieldReport → String
  | parsed s => s
  | syntactic e => "<syntax error at " ++ e.pos.text ++ ">"
  | error _ => "<error>"

def json : FieldReport → Json
  | parsed s => .obj [("parsed", .str s)]
  | syntactic e =>
    .obj [("syntax", .obj
      [("row", .num e.pos.row), ("col", .num e.pos.col), ("message", .str e.expected.message)])]
  | error s => .obj [("error", .str s)]

end FieldReport

namespace Checked

/-- The context in which a node is printed. -/
def printContext (c : Checked) : Context :=
  match c.fields.context with
  | .ok Γ => Γ
  | .error _ => []

def contextReport (c : Checked) : FieldReport := .of Context.text c.fields.context

def termReport (c : Checked) : FieldReport := .of (Term.showIn c.printContext) c.fields.term

def typeReport (c : Checked) : FieldReport := .of (Ty.showIn c.printContext) c.fields.ty

/-- The substitution under which a node holds, unless it is empty. -/
def substText? (c : Checked) : Option String :=
  match c.outcome with
  | .ok (b :: s) => some (Subst.showIn c.printContext (b :: s))
  | _ => none

def verdict (c : Checked) : String :=
  match c.outcome, c.substText? with
  | .ok _, some s => "valid with " ++ s
  | .ok _, none => "valid"
  | .error e, _ => e.message c.printContext

/-- A node on one line, without its children. -/
def line (c : Checked) : String :=
  c.contextReport.text ++ " ⊢ " ++ c.termReport.text ++ " : " ++ c.typeReport.text ++
    " [" ++ c.rule.key ++ "] " ++ c.verdict

mutual

/-- One node a line, premises below their conclusion and further to the right. -/
def linesAt (depth : Nat) : Checked → List String
  | ⟨fields, rule, outcome, children⟩ =>
    (Json.indent depth ++ line ⟨fields, rule, outcome, children⟩ ++ "\n") ::
      linesBelow (depth + 1) children

def linesBelow (depth : Nat) : List Checked → List String
  | [] => []
  | c :: cs => c.linesAt depth ++ linesBelow depth cs

end

def listing (c : Checked) : String := String.join (c.linesAt 0)

mutual

def json : Checked → Json
  | ⟨fields, rule, outcome, children⟩ =>
    let c : Checked := ⟨fields, rule, outcome, children⟩
    .obj [("context", c.contextReport.json), ("term", c.termReport.json),
      ("type", c.typeReport.json), ("rule", .str rule.key), ("verdict", .str c.verdict),
      ("subst", match c.substText? with
        | some s => .str s
        | none => .null),
      ("children", .arr (jsons children))]

def jsons : List Checked → List Json
  | [] => []
  | c :: cs => c.json :: jsons cs

end

/-- The report on a checked tree, as JSON or as a listing. -/
def report (c : Checked) (asJson : Bool) : String :=
  if asJson then c.json.pretty ++ "\n" else c.listing

end Checked

end LambdaTyping
