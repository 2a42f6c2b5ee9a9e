import LambdaTyping.Calculus

/-!
The arguments of the command line. The calculus and the number of jobs are chosen
before the command, everything else after it. An option takes its value from the
same word, after an optional `=`, or from the next word, which then may not look
like an option; a single dash is an ordinary word. After `--` all words are
ordinary. No option may be given twice.
-/
namespace LambdaTyping.CommandLine

inductive Command where
  | check (json : Bool) (files : List String)
  | infer (context term : String)
  deriving DecidableEq

/-- What the arguments ask for. -/
inductive Request where
  | run (calculus : Calculus) (command : Command)
  | version
  | help
  /-- The arguments make no sense. -/
  | misuse
  deriving DecidableEq

/-- A word of the command line. -/
inductive Word where
  | plain (w : String)
  /-- `--name` or `--name=value` -/
  | long (name : String) (value : Option String)
  /-- `-c` with what follows the letter -/
  | short (c : Char) (rest : List Char)
  /-- `--` -/
  | stop

namespace Word

def ofString (w : String) : Word :=
  match w.toList with
  | ['-', '-'] => stop
  | '-' :: '-' :: cs =>
    let value := match cs.dropWhile (· != '=') with
      | [] => none
      | _ :: v => some (String.ofList v)
    long (String.ofList (cs.takeWhile (· != '='))) value
  | '-' :: c :: cs => short c cs
  | _ => plain w

/-- The value in the same word as a one-letter option. -/
def attached? : List Char → Option String
  | [] => none
  | '=' :: cs => some (String.ofList cs)
  | cs => some (String.ofList cs)

end Word

/-- The number that decimal digits stand for. -/
def decimal (ds : List Char) : Nat := ds.foldl (fun n d => 10 * n + (d.toNat - 48)) 0

/-- A number of jobs: digits, maybe after a plus sign, that fit in 64 bits. -/
def isJobs (v : String) : Bool :=
  let ds := match v.toList with
    | '+' :: ds => ds
    | ds => ds
  !ds.isEmpty && ds.all Char.isDigit && decimal ds ≤ 0xFFFFFFFFFFFFFFFF

/-- The arguments of `check` so far; the last file comes first. -/
structure CheckDraft where
  json : Bool
  files : List String
  /-- Are all further words ordinary? -/
  stopped : Bool

def checkArgs (k : Calculus) (d : CheckDraft) : List String → Request
  | [] => if d.files.isEmpty then .misuse else .run k (.check d.json d.files.reverse)
  | w :: ws =>
    match if d.stopped then .plain w else Word.ofString w with
    | .plain w => if w.isEmpty then .misuse else checkArgs k { d with files := w :: d.files } ws
    | .stop => checkArgs k { d with stopped := true } ws
    | .long "json" none => if d.json then .misuse else checkArgs k { d with json := true } ws
    | .long "help" none | .short 'h' _ => .help
    | _ => .misuse

/-- The arguments of `infer` so far. -/
structure InferDraft where
  context : Option String
  term : Option String
  /-- Is the next word the context? -/
  pending : Bool
  /-- Are all further words ordinary? -/
  stopped : Bool

namespace InferDraft

def setContext (d : InferDraft) (v : Option String) : Option InferDraft :=
  if d.context.isSome then none
  else
    match v with
    | some v => some { d with context := some v, pending := false }
    | none => some { d with pending := true }

def setTerm (d : InferDraft) (w : String) : Option InferDraft :=
  if d.term.isSome then none else some { d with term := some w }

end InferDraft

def inferArgs (k : Calculus) (d : InferDraft) : List String → Request
  | [] =>
    match d.term, d.pending with
    | some t, false => .run k (.infer (d.context.getD "") t)
    | _, _ => .misuse
  | w :: ws =>
    let go (d : Option InferDraft) : Request :=
      match d with
      | some d => inferArgs k d ws
      | none => .misuse
    match if d.stopped then .plain w else Word.ofString w, d.pending with
    | .plain w, true => go (d.setContext (some w))
    | _, true => .misuse
    | .plain w, false => go (d.setTerm w)
    | .stop, false => go (some { d with stopped := true })
    | .long "context" v, false => go (d.setContext v)
    | .short 'c' cs, false => go (d.setContext (Word.attached? cs))
    | .long "help" none, false | .short 'h' _, false => .help
    | _, false => .misuse

/-- The names of commands after `help`. -/
def helpArgs : List String → Request
  | [] | ["check"] | ["infer"] | ["help"] => .help
  | _ => .misuse

/-- An option in front of the command whose value may be the next word. -/
inductive Pending where
  | system | jobs
  deriving DecidableEq

/-- The arguments in front of the command so far. -/
structure Draft where
  calculus : Option Calculus
  jobs : Bool
  pending : Option Pending

namespace Draft

def setSystem (d : Draft) (v : Option String) : Option Draft :=
  if d.calculus.isSome then none
  else
    match v with
    | some v => (Calculus.ofName? v).map fun k => { d with calculus := some k, pending := none }
    | none => some { d with pending := some .system }

/-- The number of jobs is optional, and changes no answer. -/
def setJobs (d : Draft) (v : Option String) : Option Draft :=
  if d.jobs then none
  else
    match v with
    | some v => if isJobs v then some { d with jobs := true, pending := none } else none
    | none => some { d with pending := some .jobs }

/-- A word that is no value ends the wait for one, if the value is optional. -/
def settle (d : Draft) : Option Draft :=
  match d.pending with
  | none => some d
  | some .jobs => some { d with jobs := true, pending := none }
  | some .system => none

end Draft

def topArgs (d : Draft) : List String → Request
  | [] => .misuse
  | w :: ws =>
    let go (d : Option Draft) : Request :=
      match d with
      | some d => topArgs d ws
      | none => .misuse
    match Word.ofString w, d.pending with
    | .plain w, some .system => go (d.setSystem (some w))
    | .plain w, some .jobs => go (d.setJobs (some w))
    | .plain w, none =>
      let k := d.calculus.getD .hindleyMilner
      match w with
      | "check" => checkArgs k ⟨false, [], false⟩ ws
      | "infer" => inferArgs k ⟨none, none, false, false⟩ ws
      | "help" => helpArgs ws
      | _ => .misuse
    | word, _ =>
      match d.settle with
      | none => .misuse
      | some d =>
        match word with
        | .long "system" v => go (d.setSystem v)
        | .short 's' cs => go (d.setSystem (Word.attached? cs))
        | .long "jobs" v => go (d.setJobs v)
        | .short 'j' cs => go (d.setJobs (Word.attached? cs))
        | .long "version" none | .short 'V' _ => .version
        | .long "help" none | .short 'h' _ => .help
        | _ => .misuse

def parse (args : List String) : Request := topArgs ⟨none, false, none⟩ args

end LambdaTyping.CommandLine
