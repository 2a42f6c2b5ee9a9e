import LambdaTyping.CommandLine.Arguments
import LambdaTyping.CommandLine.Inputs
import LambdaTyping.Derivation.Reader
import LambdaTyping.Derivation.Report
import LambdaTyping.Inference.FromText

/-!
What a command prints and how it ends, given the files it may read.
-/
namespace LambdaTyping.CommandLine

/-- Why a command fails. -/
inductive Failure where
  | unreadable (file : String)
  | notATree (file : String)
  | inference (e : InferError)
  /-- So many rule trees do not hold. -/
  | unverified (count : Nat)

def Failure.message : Failure → String
  | unreadable file => "cannot read " ++ file
  | notATree file => "invalid rule tree: " ++ file
  | inference e => e.message
  | unverified n => n.repr ++ " rule tree(s) could not be verified"

/-- What is printed, and the exit code with the failure behind it. -/
structure Outcome where
  stdout : String
  exit : Nat
  failure : Option Failure

/-- Check files one after the other. Reports that were printed before a failure stay. -/
def checkFiles (k : Calculus) (json : Bool) (unverified : Nat) (printed : String)
    (inputs : Inputs) : List String → Outcome
  | [] =>
    if unverified = 0 then ⟨printed, 0, none⟩ else ⟨printed, 1, some (.unverified unverified)⟩
  | name :: names =>
    let (text, inputs) := inputs.read name
    match text with
    | none => ⟨printed, 1, some (.unreadable name)⟩
    | some text =>
      match RuleTree.read? text with
      | none => ⟨printed, 1, some (.notATree name)⟩
      | some tree =>
        let checked := tree.check k
        let unverified := if checked.failures = 0 then unverified else unverified + 1
        checkFiles k json unverified (printed ++ checked.report json) inputs names

def runCommand (k : Calculus) (inputs : Inputs) : Command → Outcome
  | .check json files => checkFiles k json 0 "" inputs files
  | .infer context term =>
    match inferText k context term with
    | .ok ty => ⟨ty ++ "\n", 0, none⟩
    | .error e => ⟨"", 1, some (.inference e)⟩

def versionText : String := "derivocheck 0.1.0\n"

def helpText : String :=
  "A checker for typing derivations of typed lambda calculi\n\n" ++
  "Usage: derivocheck [OPTIONS] <COMMAND>\n\n" ++
  "Commands:\n" ++
  "  check  Check rule trees given as JSON\n" ++
  "  infer  Infer the principal type of a term\n" ++
  "  help   Print this message or the help of the given subcommand(s)\n\n" ++
  "Options:\n" ++
  "  -s, --system <SYSTEM>  Type system in which judgments are checked [default: hm]\n" ++
  "  -j, --jobs [<JOBS>]    Check premises concurrently\n" ++
  "  -h, --help             Print help (see more with '--help')\n" ++
  "  -V, --version          Print version\n"

def run (args : List String) (inputs : Inputs) : Outcome :=
  match parse args with
  | .run k command => runCommand k inputs command
  | .version => ⟨versionText, 0, none⟩
  | .help => ⟨helpText, 0, none⟩
  | .misuse => ⟨"", 2, none⟩

end LambdaTyping.CommandLine
