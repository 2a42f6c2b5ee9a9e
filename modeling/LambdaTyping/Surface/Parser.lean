import LambdaTyping.Reading
import LambdaTyping.Token.Lexeme
import LambdaTyping.Surface.Basic

/-!
Parsing with one token of lookahead. Application associates to the left, arrows
to the right, and `let`, `if`, `λ`, `Λ` and `∀` reach as far to the right as
possible. Parentheses leave no trace in the result.

A parser gets stuck in front of the first lexeme that cannot go on, so the place
of a syntax error is the place of the lexemes that are left.
-/
namespace LambdaTyping.Surface

open Text (Position)

/-- What a parser was looking for when it got stuck. -/
inductive Expected where
  | term | type | ident | tyIdent | binding | dot | eq | inKw | thenKw | elseKw | rpar | rbrk | stop
  deriving DecidableEq

def Expected.message : Expected → String
  | term => "expected term"
  | type => "expected type"
  | ident => "expected term identifier"
  | tyIdent => "expected type identifier"
  | binding => "expected binding"
  | dot => "expected \".\""
  | eq => "expected \"=\""
  | inKw => "expected \"in\""
  | thenKw => "expected \"then\""
  | elseKw => "expected \"else\""
  | rpar => "expected \")\""
  | rbrk => "expected \"]\""
  | stop => "expected end of input"

structure SyntaxError where
  expected : Expected
  pos : Position
  deriving DecidableEq

def SyntaxError.message (e : SyntaxError) : String := e.expected.message ++ " at " ++ e.pos.text

namespace Parser

/-- A result of parsing from fewer than `bound` lexemes. -/
abbrev Parsed (α : Type) (bound : Nat) := Reading Lexeme Expected α bound

/-- Read one given token. -/
def expect (token : Token) (what : Expected) : (ls : List Lexeme) → Parsed Unit ls.length
  | [] => .stuck what []
  | l :: ls => if l.token = token then .one () l ls else .stuck what (l :: ls)

def ident : (ls : List Lexeme) → Parsed String ls.length
  | [] => .stuck .ident []
  | l :: ls =>
    match l.token with
    | .var x => .one x l ls
    | _ => .stuck .ident (l :: ls)

def tyIdent : (ls : List Lexeme) → Parsed String ls.length
  | [] => .stuck .tyIdent []
  | l :: ls =>
    match l.token with
    | .tyVar x => .one x l ls
    | _ => .stuck .tyIdent (l :: ls)

mutual

/-- Type identifiers with commas between them, at least one. -/
def tyIdents (ls : List Lexeme) : Parsed (List String) ls.length :=
  (tyIdent ls).andMaybe fun x ls₁ _ => (moreTyIdents ls₁).map (x :: ·)
termination_by 2 * ls.length
decreasing_by omega

/-- More type identifiers, each after a comma. -/
def moreTyIdents (ls : List Lexeme) : Parsed (List String) (ls.length + 1) :=
  match ls with
  | [] => .nothing [] []
  | l :: ls => if l.token = .comma then (tyIdents ls).up.up else .nothing [] (l :: ls)
termination_by 2 * ls.length + 1
decreasing_by simp only [List.length_cons]; omega

end

mutual

/-- A type: an argument, and after an arrow the rest of the chain. -/
def type (ls : List Lexeme) : Parsed Ty ls.length :=
  (typeArg ls).andMaybe fun a ls₁ _ => codomain a ls₁
termination_by 3 * ls.length + 1
decreasing_by all_goals omega

/-- The type of functions from `a`, if an arrow follows, else `a` itself. -/
def codomain (a : Ty) (ls : List Lexeme) : Parsed Ty (ls.length + 1) :=
  match ls with
  | [] => .nothing a []
  | l :: ls => if l.token = .arrow then ((type ls).map (.arr a)).up.up else .nothing a (l :: ls)
termination_by 3 * ls.length + 2
decreasing_by simp only [List.length_cons]; omega

def typeArg (ls : List Lexeme) : Parsed Ty ls.length :=
  match ls with
  | [] => .stuck .type []
  | l :: ls =>
    match l.token with
    | .boolKw => .one .bool l ls
    | .tyVar x => .one (.var x) l ls
    | .lpar =>
      ((type ls).andThen fun a ls₁ _ =>
        (expect .rpar .rpar ls₁).map fun _ => a).up
    | .forAll =>
      ((tyIdents ls).andThen fun xs ls₁ _ =>
        (expect .dot .dot ls₁).andThen fun _ ls₂ _ =>
        (type ls₂).map (.allOf xs)).up
    | _ => .stuck .type (l :: ls)
termination_by 3 * ls.length
decreasing_by all_goals (simp only [List.length_cons]; omega)

end

/-- A type after a colon, or nothing. -/
def ascription (ls : List Lexeme) : Parsed (Option Ty) (ls.length + 1) :=
  match ls with
  | [] => .nothing none []
  | l :: ls => if l.token = .colon then ((type ls).map some).up.up else .nothing none (l :: ls)

mutual

def term (ls : List Lexeme) : Parsed Term ls.length :=
  match ls with
  | [] => .stuck .term []
  | l :: ls =>
    if l.token.opensForm then form (l :: ls)
    else (atom (l :: ls)).andMaybe fun t ls₁ _ => arguments l.pos t ls₁
termination_by 3 * ls.length + 2
decreasing_by all_goals (simp only [List.length_cons] at *; omega)

/-- The arguments and type arguments of a head, from left to right. -/
def arguments (pos : Position) (head : Term) (ls : List Lexeme) : Parsed Term (ls.length + 1) :=
  match ls with
  | [] => .nothing head []
  | l :: ls =>
    if l.token = .lbrk then
      ((type ls).andThen fun ty ls₁ _ =>
        (expect .rbrk .rbrk ls₁).andMaybe fun _ ls₂ _ =>
        arguments pos (.tyApp pos head ty) ls₂).up.up
    else if l.token.startsTerm then
      ((atom (l :: ls)).andMaybe fun u ls₁ _ => arguments pos (.app pos head u) ls₁).up
    else .nothing head (l :: ls)
termination_by 3 * ls.length + 2
decreasing_by all_goals (simp only [List.length_cons] at *; omega)

/-- Terms that can be applied or be an argument. -/
def atom (ls : List Lexeme) : Parsed Term ls.length :=
  match ls with
  | [] => .stuck .term []
  | l :: ls =>
    match l.token with
    | .var x => .one (.var l.pos x) l ls
    | .trueKw => .one (.const l.pos true) l ls
    | .falseKw => .one (.const l.pos false) l ls
    | .lpar =>
      ((term ls).andThen fun t ls₁ _ =>
        (expect .rpar .rpar ls₁).map fun _ => t).up
    | .letKw | .ifKw | .lambda | .bigLambda => form (l :: ls)
    | _ => .stuck .term (l :: ls)
termination_by 3 * ls.length + 1
decreasing_by all_goals (simp only [List.length_cons]; omega)

/-- The forms that reach as far to the right as possible. -/
def form (ls : List Lexeme) : Parsed Term ls.length :=
  match ls with
  | [] => .stuck .term []
  | l :: ls =>
    match l.token with
    | .letKw =>
      ((ident ls).andThen fun x ls₁ _ =>
        (expect .eq .eq ls₁).andThen fun _ ls₂ _ =>
        (term ls₂).andThen fun e ls₃ _ =>
        (expect .inKw .inKw ls₃).andThen fun _ ls₄ _ =>
        (term ls₄).map (.letIn l.pos x e)).up
    | .ifKw =>
      ((term ls).andThen fun c ls₁ _ =>
        (expect .thenKw .thenKw ls₁).andThen fun _ ls₂ _ =>
        (term ls₂).andThen fun t ls₃ _ =>
        (expect .elseKw .elseKw ls₃).andThen fun _ ls₄ _ =>
        (term ls₄).map (.ite l.pos c t)).up
    | .lambda =>
      ((ident ls).andMaybe fun x ls₁ _ =>
        (ascription ls₁).andThen fun ty ls₂ _ =>
        (expect .dot .dot ls₂).andThen fun _ ls₃ _ =>
        (term ls₃).map (.abs l.pos x ty)).up
    | .bigLambda =>
      ((tyIdent ls).andThen fun x ls₁ _ =>
        (expect .dot .dot ls₁).andThen fun _ ls₂ _ =>
        (term ls₂).map (.tyAbs l.pos x)).up
    | _ => .stuck .term (l :: ls)
termination_by 3 * ls.length
decreasing_by all_goals (simp only [List.length_cons]; omega)

end

def binding (ls : List Lexeme) : Parsed (String × Binding) ls.length :=
  match ls with
  | [] => .stuck .binding []
  | l :: ls =>
    match l.token with
    | .var x => (ascription ls).map fun ty => (x, .var ty)
    | .tyVar x => .one (x, .tyVar) l ls
    | _ => .stuck .binding (l :: ls)

mutual

/-- Bindings with commas between them; a comma may also come last. -/
def context (ls : List Lexeme) : Parsed Context (ls.length + 1) :=
  match ls with
  | [] => .nothing [] []
  | l :: ls =>
    ((binding (l :: ls)).andMaybe fun b ls₁ _ => (moreContext ls₁).map (b :: ·)).up
termination_by 2 * ls.length
decreasing_by simp only [List.length_cons] at *; omega

/-- After a binding: the rest of the context after a comma, or nothing. -/
def moreContext (ls : List Lexeme) : Parsed Context (ls.length + 1) :=
  match ls with
  | [] => .nothing [] []
  | l :: ls => if l.token = .comma then (context ls).up else .nothing [] (l :: ls)
termination_by 2 * ls.length + 1
decreasing_by simp only [List.length_cons]; omega

end

end Parser

/-- Run a parser on what is left of a source. The rest of the source stays, also after an error. -/
def parseNext {α : Type} {bound : Nat} (source : Source) (r : Parser.Parsed α bound) :
    Except SyntaxError α × Source :=
  match r with
  | .done a rest _ => (.ok a, { source with lexemes := rest })
  | .stuck what rest =>
    let source := { source with lexemes := rest }
    (.error ⟨what, source.here⟩, source)

/-- Succeeds if nothing is left. -/
def parseEnd (source : Source) : Except SyntaxError Unit :=
  match source.lexemes with
  | [] => .ok ()
  | _ :: _ => .error ⟨.stop, source.here⟩

/-- Parse a whole source. -/
def parseAll {α : Type} {bound : Nat} (source : Source) (r : Parser.Parsed α bound) :
    Except SyntaxError α := do
  let (result, rest) := parseNext source r
  let a ← result
  parseEnd rest
  return a

def Term.parse (text : String) : Except SyntaxError Term :=
  let source := Source.ofText text
  parseAll source (Parser.term source.lexemes)

def Ty.parse (text : String) : Except SyntaxError Ty :=
  let source := Source.ofText text
  parseAll source (Parser.type source.lexemes)

def Context.parse (text : String) : Except SyntaxError Context :=
  let source := Source.ofText text
  parseAll source (Parser.context source.lexemes)

end LambdaTyping.Surface
