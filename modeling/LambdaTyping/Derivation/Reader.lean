import LambdaTyping.Json.Reader
import LambdaTyping.Derivation.Tree

/-!
Reading rule trees from JSON text. A tree is an object, or a list with the values
of the fields in their fixed order. Fields that are missing take their defaults,
fields with other names are skipped, and no field may be given twice. Lists and
objects that are kept are at most `maxLevels` deep.
-/
namespace LambdaTyping

/-- The fields of a rule tree, in the order of the list form. -/
inductive TreeField where
  | context | term | type | rule | children
  deriving DecidableEq

namespace TreeField

def ofKey? : String → Option TreeField
  | "context" => some context
  | "term" => some term
  | "type" => some type
  | "rule" => some rule
  | "children" => some children
  | _ => none

def inOrder : List TreeField := [context, term, type, rule, children]

end TreeField

/-- The fields of a rule tree that have been read. -/
structure TreeDraft where
  context : Option String
  term : Option String
  type : Option String
  rule : Option Rule
  children : Option (List RuleTree)

namespace TreeDraft

def empty : TreeDraft := ⟨none, none, none, none, none⟩

def has (d : TreeDraft) : TreeField → Bool
  | .context => d.context.isSome
  | .term => d.term.isSome
  | .type => d.type.isSome
  | .rule => d.rule.isSome
  | .children => d.children.isSome

/-- The tree, with defaults for what is missing. -/
def tree (d : TreeDraft) : RuleTree :=
  ⟨d.context.getD "", d.term.getD "", d.type.getD "", d.rule.getD .none, d.children.getD []⟩

end TreeDraft

namespace RuleTree

open Json (Read symbol string skipValue exactly)

/-- A rule by its name. -/
def readRuleName (cs : List Char) : Read Rule cs.length :=
  (string cs).andMaybe fun s cs₁ _ =>
    match Rule.ofKey? s with
    | some r => .nothing r cs₁
    | none => .stuck () cs₁

/-- What follows the brace of a rule in its object form. -/
def readRuleMember (cs : List Char) : Read Rule cs.length :=
  (readRuleName cs).andThen fun r cs₁ _ =>
  (symbol ':' cs₁).andThen fun _ cs₂ _ =>
  (symbol 'n' cs₂).andThen fun _ cs₃ _ =>
  (exactly ['u', 'l', 'l'] cs₃).andThen fun _ cs₄ _ =>
  (symbol '\x7d' cs₄).map fun _ => r

/-- A rule: its name, or an object that maps its name to `null`. -/
def readRule : Nat → (cs : List Char) → Read Rule cs.length
  | 0, cs => readRuleName cs
  | _ + 1, cs =>
    (symbol '\x7b' cs).ifDone (fun _ cs₁ _ => readRuleMember cs₁) (readRuleName cs)

mutual

def readTree (levels : Nat) (cs : List Char) : Read RuleTree cs.length :=
  match levels with
  | 0 => .stuck () cs
  | levels + 1 =>
    (symbol '\x7b' cs).ifDone
      (fun _ cs₁ _ =>
        ((symbol '\x7d' cs₁).map fun _ => TreeDraft.empty.tree).orElse
          (readMembers levels .empty cs₁))
      ((symbol '[' cs).andThen fun _ cs₁ _ =>
        ((symbol ']' cs₁).map fun _ => TreeDraft.empty.tree).orElse
          (readItems levels TreeField.inOrder .empty cs₁))
termination_by 4 * cs.length
decreasing_by all_goals omega

/-- The members of the object form, at least one, up to the closing brace. -/
def readMembers (levels : Nat) (d : TreeDraft) (cs : List Char) : Read RuleTree cs.length :=
  (string cs).andThen fun key cs₁ _ =>
  (symbol ':' cs₁).andThen fun _ cs₂ _ =>
  (readMember levels (TreeField.ofKey? key) d cs₂).andThen fun d cs₃ _ =>
    (symbol ',' cs₃).ifDone (fun _ cs₄ _ => readMembers levels d cs₄)
      ((symbol '\x7d' cs₃).map fun _ => d.tree)
termination_by 4 * cs.length + 1
decreasing_by all_goals omega

/-- The value of a member; one without a field is skipped. -/
def readMember (levels : Nat) (f : Option TreeField) (d : TreeDraft) (cs : List Char) :
    Read TreeDraft cs.length :=
  match f with
  | none => (skipValue cs).map fun _ => d
  | some f => if d.has f then .stuck () cs else readField levels f d cs
termination_by 4 * cs.length + 2
decreasing_by all_goals omega

/-- The items of the list form, at least one, up to the closing bracket. -/
def readItems (levels : Nat) (fs : List TreeField) (d : TreeDraft) (cs : List Char) :
    Read RuleTree cs.length :=
  match fs with
  | [] => .stuck () cs
  | f :: fs =>
    (readField levels f d cs).andThen fun d cs₁ _ =>
      (symbol ',' cs₁).ifDone (fun _ cs₂ _ => readItems levels fs d cs₂)
        ((symbol ']' cs₁).map fun _ => d.tree)
termination_by 4 * cs.length + 2
decreasing_by all_goals omega

/-- The value of a field. -/
def readField (levels : Nat) (f : TreeField) (d : TreeDraft) (cs : List Char) :
    Read TreeDraft cs.length :=
  match f with
  | .context => (string cs).map fun s => { d with context := some s }
  | .term => (string cs).map fun s => { d with term := some s }
  | .type => (string cs).map fun s => { d with type := some s }
  | .rule => (readRule levels cs).map fun r => { d with rule := some r }
  | .children =>
    match levels with
    | 0 => .stuck () cs
    | levels + 1 =>
      (symbol '[' cs).andThen fun _ cs₁ _ =>
        (((symbol ']' cs₁).map fun _ => []).orElse (readTrees levels cs₁)).map
          fun ts => { d with children := some ts }
termination_by 4 * cs.length + 1
decreasing_by all_goals omega

/-- Trees with commas between them, at least one, up to the closing bracket. -/
def readTrees (levels : Nat) (cs : List Char) : Read (List RuleTree) cs.length :=
  (readTree levels cs).andThen fun t cs₁ _ =>
    (symbol ',' cs₁).ifDone (fun _ cs₂ _ => (readTrees levels cs₂).map (t :: ·))
      ((symbol ']' cs₁).map fun _ => [t])
termination_by 4 * cs.length + 1
decreasing_by all_goals omega

end

/-- How deep lists and objects may be. -/
def maxLevels : Nat := 127

/-- A value that fills the whole text. -/
def wholeText {α : Type} {bound : Nat} (r : Read α bound) : Option α :=
  match r with
  | .done a cs _ => if cs.all Json.isBlank then some a else none
  | .stuck .. => none

/-- The rule tree that a text holds. -/
def read? (text : String) : Option RuleTree := wholeText (readTree maxLevels text.toList)

end RuleTree

/-- The rule that a text holds. -/
def Rule.read? (text : String) : Option Rule :=
  RuleTree.wholeText (RuleTree.readRule RuleTree.maxLevels text.toList)

end LambdaTyping
