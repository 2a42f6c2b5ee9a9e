/-!
JSON values and their written form over several lines: two blanks for each level,
one item a line, nothing between the brackets of an empty list. Characters
outside ASCII are written as they are.
-/
namespace LambdaTyping

inductive Json where
  | null
  | num (n : Nat)
  | str (s : String)
  | arr (items : List Json)
  | obj (members : List (String × Json))
  deriving Inhabited

namespace Json

def hexDigit (n : Nat) : Char := if n < 10 then Char.ofNat (48 + n) else Char.ofNat (87 + n)

def escapeChar (c : Char) : List Char :=
  match c with
  | '"' => ['\\', '"']
  | '\\' => ['\\', '\\']
  | '\x08' => ['\\', 'b']
  | '\x0c' => ['\\', 'f']
  | '\n' => ['\\', 'n']
  | '\r' => ['\\', 'r']
  | '\t' => ['\\', 't']
  | c =>
    if c.toNat < 32 then ['\\', 'u', '0', '0', hexDigit (c.toNat / 16), hexDigit (c.toNat % 16)]
    else [c]

def quote (s : String) : String := "\"" ++ String.ofList (s.toList.flatMap escapeChar) ++ "\""

def indent (depth : Nat) : String := String.ofList (List.replicate (2 * depth) ' ')

/-- Items between brackets, one a line; nothing between the brackets if there is none. -/
def block (opening closing : String) (depth : Nat) (items : List String) : String :=
  if items.isEmpty then opening ++ closing
  else opening ++ "\n" ++ ",\n".intercalate items ++ "\n" ++ indent depth ++ closing

mutual

/-- The written form of a value that stands `depth` levels deep. -/
def prettyAt (depth : Nat) : Json → String
  | null => "null"
  | num n => n.repr
  | str s => quote s
  | arr xs => block "[" "]" depth (prettyItems (depth + 1) xs)
  | obj ms => block "\x7b" "\x7d" depth (prettyMembers (depth + 1) ms)

def prettyItems (depth : Nat) : List Json → List String
  | [] => []
  | x :: xs => (indent depth ++ x.prettyAt depth) :: prettyItems depth xs

def prettyMembers (depth : Nat) : List (String × Json) → List String
  | [] => []
  | (k, x) :: ms =>
    (indent depth ++ quote k ++ ": " ++ x.prettyAt depth) :: prettyMembers depth ms

end

def pretty (j : Json) : String := j.prettyAt 0

end Json

end LambdaTyping
