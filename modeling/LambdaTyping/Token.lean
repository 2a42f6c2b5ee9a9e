/-!
The tokens of a text in which shorthands are already expanded.
-/
namespace LambdaTyping

inductive Token where
  | letKw | inKw | ifKw | thenKw | elseKw | trueKw | falseKw | boolKw
  | lambda | bigLambda | forAll | arrow | dot | comma | colon | eq | lpar | rpar | lbrk | rbrk
  /-- A term identifier. -/
  | var (x : String)
  /-- A type identifier. -/
  | tyVar (x : String)
  /-- A character that starts no token. -/
  | error
  deriving DecidableEq

namespace Token

/-- How a token is written; no text is written for a character that starts none. -/
def text? : Token → Option String
  | letKw => "let"
  | inKw => "in"
  | ifKw => "if"
  | thenKw => "then"
  | elseKw => "else"
  | trueKw => "true"
  | falseKw => "false"
  | boolKw => "Bool"
  | lambda => "λ"
  | bigLambda => "Λ"
  | forAll => "∀"
  | arrow => "→"
  | dot => "."
  | comma => ","
  | colon => ":"
  | eq => "="
  | lpar => "("
  | rpar => ")"
  | lbrk => "["
  | rbrk => "]"
  | var x => x
  | tyVar x => x
  | error => none

/-- A word is a keyword, else a term identifier; `ofUpperWord` is for words with a capital. -/
def ofLowerWord (w : String) : Token :=
  match w with
  | "let" => letKw
  | "in" => inKw
  | "if" => ifKw
  | "then" => thenKw
  | "else" => elseKw
  | "true" => trueKw
  | "false" => falseKw
  | w => var w

def ofUpperWord (w : String) : Token :=
  match w with
  | "Bool" => boolKw
  | w => tyVar w

def ofChar (c : Char) : Token :=
  match c with
  | 'λ' => lambda
  | 'Λ' => bigLambda
  | '∀' => forAll
  | '→' => arrow
  | '.' => dot
  | ',' => comma
  | ':' => colon
  | '=' => eq
  | '(' => lpar
  | ')' => rpar
  | '[' => lbrk
  | ']' => rbrk
  | _ => error

/-- Tokens that a term can start with. -/
def startsTerm : Token → Bool
  | var _ | trueKw | falseKw | lpar | letKw | ifKw | lambda | bigLambda => true
  | _ => false

/-- Tokens that open a term form which reaches as far to the right as possible. -/
def opensForm : Token → Bool
  | letKw | ifKw | lambda | bigLambda => true
  | _ => false

end Token

end LambdaTyping
