import LambdaTyping.Reading

/-!
Reading JSON text. There are readers for strings whose content matters, and
readers that skip a value and only look at its form. A skipped string may hold
halves of surrogate pairs, which stand for no character; a string that is kept
may not.
-/
namespace LambdaTyping.Json

/-- A result of reading from fewer than `bound` characters. -/
abbrev Read (α : Type) (bound : Nat) := Reading Char Unit α bound

def isBlank (c : Char) : Bool := c == ' ' || c == '\n' || c == '\r' || c == '\t'

/-- Read one given character after blanks. -/
def symbol (c : Char) : (cs : List Char) → Read Unit cs.length
  | [] => .stuck () []
  | d :: ds =>
    if isBlank d then (symbol c ds).up
    else if d = c then .one () d ds
    else .stuck () (d :: ds)

/-- Read the given characters, at least one. -/
def exactly : List Char → (cs : List Char) → Read Unit cs.length
  | _, [] => .stuck () []
  | [], cs => .stuck () cs
  | [e], c :: cs => if c = e then .one () c cs else .stuck () (c :: cs)
  | e :: es, c :: cs => if c = e then (exactly es cs).up else .stuck () (c :: cs)

def hexValue? (c : Char) : Option Nat :=
  if c.isDigit then some (c.toNat - 48)
  else if 'a' ≤ c ∧ c ≤ 'f' then some (c.toNat - 87)
  else if 'A' ≤ c ∧ c ≤ 'F' then some (c.toNat - 55)
  else none

/-- One hexadecimal digit. -/
def hex : (cs : List Char) → Read Nat cs.length
  | [] => .stuck () []
  | c :: cs =>
    match hexValue? c with
    | some n => .one n c cs
    | none => .stuck () (c :: cs)

/-- Four hexadecimal digits. -/
def hex4 (cs : List Char) : Read Nat cs.length :=
  (hex cs).andThen fun a cs₁ _ =>
  (hex cs₁).andThen fun b cs₂ _ =>
  (hex cs₂).andThen fun c cs₃ _ =>
  (hex cs₃).map fun d => ((a * 16 + b) * 16 + c) * 16 + d

/-- The character of an escape with a single letter. -/
def letterEscape? (c : Char) : Option Char :=
  match c with
  | '"' => some '"'
  | '\\' => some '\\'
  | '/' => some '/'
  | 'b' => some '\x08'
  | 'f' => some '\x0c'
  | 'n' => some '\n'
  | 'r' => some '\r'
  | 't' => some '\t'
  | _ => none

/-- The second unit of a surrogate pair whose first unit is `n`. -/
def lowSurrogate (n : Nat) (cs : List Char) : Read Char cs.length :=
  (exactly ['\\', 'u'] cs).andThen fun _ cs₁ _ =>
  (hex4 cs₁).andMaybe fun m cs₂ _ =>
    if 0xDC00 ≤ m ∧ m ≤ 0xDFFF then
      .nothing (Char.ofNat (0x10000 + (n - 0xD800) * 0x400 + (m - 0xDC00))) cs₂
    else .stuck () cs₂

/-- What follows `\u` for one character: a unit, or the two units of a surrogate pair. -/
def unicodeEscape (cs : List Char) : Read Char cs.length :=
  (hex4 cs).andMaybe fun n cs₁ _ =>
    if 0xDC00 ≤ n ∧ n ≤ 0xDFFF then .stuck () cs₁
    else if 0xD800 ≤ n ∧ n ≤ 0xDBFF then (lowSurrogate n cs₁).up
    else .nothing (Char.ofNat n) cs₁

/-- What follows a backslash. -/
def escape : (cs : List Char) → Read Char cs.length
  | [] => .stuck () []
  | c :: cs =>
    if c = 'u' then (unicodeEscape cs).up
    else
      match letterEscape? c with
      | some d => .one d c cs
      | none => .stuck () (c :: cs)

/-- The characters of a string up to its closing quote. -/
def stringTail (cs : List Char) : Read (List Char) cs.length :=
  match cs with
  | [] => .stuck () []
  | c :: cs =>
    if c = '"' then .one [] c cs
    else if c = '\\' then
      ((escape cs).andThen fun d cs₁ _ => (stringTail cs₁).map (d :: ·)).up
    else if c.toNat < 32 then .stuck () (c :: cs)
    else ((stringTail cs).map (c :: ·)).up
termination_by cs.length
decreasing_by all_goals (simp only [List.length_cons]; omega)

/-- A string whose content is kept. -/
def string (cs : List Char) : Read String cs.length :=
  (symbol '"' cs).andThen fun _ cs₁ _ => (stringTail cs₁).map String.ofList

/-- What follows a backslash in a string that is skipped. -/
def skipEscape : (cs : List Char) → Read Unit cs.length
  | [] => .stuck () []
  | c :: cs =>
    if c = 'u' then ((hex4 cs).map fun _ => ()).up
    else if (letterEscape? c).isSome then .one () c cs
    else .stuck () (c :: cs)

/-- The rest of a string that is skipped. -/
def skipStringTail (cs : List Char) : Read Unit cs.length :=
  match cs with
  | [] => .stuck () []
  | c :: cs =>
    if c = '"' then .one () c cs
    else if c = '\\' then ((skipEscape cs).andThen fun _ cs₁ _ => skipStringTail cs₁).up
    else if c.toNat < 32 then .stuck () (c :: cs)
    else (skipStringTail cs).up
termination_by cs.length
decreasing_by all_goals (simp only [List.length_cons]; omega)

/-- Digits, as many as there are. -/
def moreDigits : (cs : List Char) → Read Unit (cs.length + 1)
  | [] => .nothing () []
  | c :: cs => if c.isDigit then (moreDigits cs).up else .nothing () (c :: cs)

/-- Some digits, at least one. -/
def digits : (cs : List Char) → Read Unit cs.length
  | [] => .stuck () []
  | c :: cs => if c.isDigit then moreDigits cs else .stuck () (c :: cs)

/-- Digits after an optional sign. -/
def signedDigits : (cs : List Char) → Read Unit cs.length
  | [] => .stuck () []
  | c :: cs => if c = '+' ∨ c = '-' then (digits cs).up else digits (c :: cs)

/-- The exponent of a number, if there is one. -/
def exponent : (cs : List Char) → Read Unit (cs.length + 1)
  | [] => .nothing () []
  | c :: cs => if c = 'e' ∨ c = 'E' then (signedDigits cs).up.up else .nothing () (c :: cs)

/-- The digits after the point, if there is one, and the exponent. -/
def fraction : (cs : List Char) → Read Unit (cs.length + 1)
  | [] => .nothing () []
  | c :: cs =>
    if c = '.' then ((digits cs).andMaybe fun _ cs₁ _ => exponent cs₁).up.up
    else exponent (c :: cs)

/-- A number without its sign; no digit follows a leading zero. -/
def skipUnsigned : (cs : List Char) → Read Unit cs.length
  | [] => .stuck () []
  | c :: cs =>
    if c = '0' then
      match cs with
      | [] => .one () c []
      | d :: ds => if d.isDigit then .stuck () (d :: ds) else fraction (d :: ds)
    else (digits (c :: cs)).andMaybe fun _ cs₁ _ => fraction cs₁

mutual

/-- Skip a value of any kind and depth. -/
def skipValue (cs : List Char) : Read Unit cs.length :=
  match cs with
  | [] => .stuck () []
  | c :: cs =>
    if isBlank c then (skipValue cs).up
    else
      match c with
      | '"' => (skipStringTail cs).up
      | '[' => ((symbol ']' cs).orElse (skipItems cs)).up
      | '\x7b' => ((symbol '\x7d' cs).orElse (skipMembers cs)).up
      | 'n' => (exactly ['u', 'l', 'l'] cs).up
      | 't' => (exactly ['r', 'u', 'e'] cs).up
      | 'f' => (exactly ['a', 'l', 's', 'e'] cs).up
      | '-' => (skipUnsigned cs).up
      | c => if c.isDigit then skipUnsigned (c :: cs) else .stuck () (c :: cs)
termination_by 2 * cs.length
decreasing_by all_goals (simp only [List.length_cons]; omega)

/-- Values with commas between them, up to the closing bracket. -/
def skipItems (cs : List Char) : Read Unit cs.length :=
  (skipValue cs).andThen fun _ cs₁ _ =>
    (symbol ',' cs₁).ifDone (fun _ cs₂ _ => skipItems cs₂) (symbol ']' cs₁)
termination_by 2 * cs.length + 1
decreasing_by all_goals omega

/-- Members with commas between them, up to the closing brace. -/
def skipMembers (cs : List Char) : Read Unit cs.length :=
  (symbol '"' cs).andThen fun _ cs₁ _ =>
  (skipStringTail cs₁).andThen fun _ cs₂ _ =>
  (symbol ':' cs₂).andThen fun _ cs₃ _ =>
  (skipValue cs₃).andThen fun _ cs₄ _ =>
    (symbol ',' cs₄).ifDone (fun _ cs₅ _ => skipMembers cs₅) (symbol '\x7d' cs₄)
termination_by 2 * cs.length + 1
decreasing_by all_goals omega

end

end LambdaTyping.Json
