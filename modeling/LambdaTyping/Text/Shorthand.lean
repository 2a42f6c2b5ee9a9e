/-!
Shorthands for operators that a plain keyboard lacks. A word, that is a maximal
run of ASCII letters, digits and underscores, is replaced only as a whole;
symbols are replaced wherever they stand between words. All other characters
are kept.
-/
namespace LambdaTyping.Text

def isWordChar (c : Char) : Bool := c.isAlphanum || c == '_'

/-- The meaning of a whole word; a word that is no shorthand stands for itself. -/
def expandWord (w : List Char) : List Char :=
  match String.ofList w with
  | "lambda" => ['λ']
  | "Lambda" => ['Λ']
  | "forall" | "forAll" | "Forall" | "ForAll" => ['∀']
  | "Let" => ['l', 'e', 't']
  | "In" => ['i', 'n']
  | "If" => ['i', 'f']
  | "Then" => ['t', 'h', 'e', 'n']
  | "Else" => ['e', 'l', 's', 'e']
  | _ => w

/-- A single character that stands for an operator; `-` needs a `>` after it and is not here. -/
def expandChar (c : Char) : Char :=
  match c with
  | '\\' => 'λ'
  | '|' => 'Λ'
  | '^' => 'Λ'
  | c => c

def expandChars : List Char → List Char
  | [] => []
  | '-' :: '>' :: cs => '→' :: expandChars cs
  | c :: cs =>
    if isWordChar c then
      expandWord (c :: cs.takeWhile isWordChar) ++ expandChars (cs.dropWhile isWordChar)
    else
      expandChar c :: expandChars cs
termination_by cs => cs.length
decreasing_by
  · simp only [List.length_cons]; omega
  · have := (List.dropWhile_sublist (l := cs) isWordChar).length_le
    simp only [List.length_cons]; omega
  · simp

/-- Replace every shorthand of a text by the operator or keyword it stands for. -/
def expand (text : String) : String := String.ofList (expandChars text.toList)

end LambdaTyping.Text
