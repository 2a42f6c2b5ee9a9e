import LambdaTyping.Text.Shorthand
import LambdaTyping.Text.Position
import LambdaTyping.Token

/-!
Tokens with their places. A word runs as far as it can, so an identifier is
never split; every other character outside blanks is a token of its own.
-/
namespace LambdaTyping

open Text

/-- A token, the place where it starts, and the byte offset where it ends. -/
structure Lexeme where
  token : Token
  start : Cursor
  stop : Nat

def Lexeme.pos (l : Lexeme) : Position := l.start.pos

namespace Lexeme

def isBlank (c : Char) : Bool :=
  c == ' ' || c == '\t' || c == '\r' || c == '\n' || c == '\x0c'

/-- The lexemes of characters that start at a given place. -/
def scanFrom (k : Cursor) : List Char → List Lexeme
  | [] => []
  | c :: cs =>
    if isBlank c then scanFrom (k.advance c) cs
    else if c.isAlpha then
      let word := c :: cs.takeWhile isWordChar
      let next := k.skip word
      let token := if c.isLower then Token.ofLowerWord (String.ofList word)
        else Token.ofUpperWord (String.ofList word)
      ⟨token, k, next.offset⟩ :: scanFrom next (cs.dropWhile isWordChar)
    else
      ⟨Token.ofChar c, k, (k.advance c).offset⟩ :: scanFrom (k.advance c) cs
termination_by cs => cs.length
decreasing_by
  · simp
  · have := (List.dropWhile_sublist (l := cs) isWordChar).length_le
    simp only [List.length_cons]; omega
  · simp

end Lexeme

/-- The lexemes of a text that are still to be read, and the place where the text ends. -/
structure Source where
  lexemes : List Lexeme
  stop : Position

namespace Source

def ofText (text : String) : Source :=
  ⟨Lexeme.scanFrom .start text.toList, (Cursor.start.skip text.toList).pos⟩

/-- The place of the next lexeme, or the end of the text. -/
def here (s : Source) : Position :=
  match s.lexemes with
  | [] => s.stop
  | l :: _ => l.pos

def peek? (s : Source) : Option Token := s.lexemes.head?.map (·.token)

end Source

end LambdaTyping
