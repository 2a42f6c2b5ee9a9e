import LambdaTyping.CommandLine.Run

/-!
The command line program. Files are read here; everything else is decided in
`CommandLine.run`.
-/
namespace LambdaTyping.CommandLine

/-- The text of a file, if it can be read. -/
def readFile? (name : String) : IO (Option String) := do
  try
    let text ← IO.FS.readFile name
    return some text
  catch _ => return none

/-- The texts of all files that a command names. -/
def readFiles : List String → IO (List (String × Option String))
  | [] => return []
  | name :: names => do
    let text ← if isStdin name then pure none else readFile? name
    let texts ← readFiles names
    return (name, text) :: texts

/-- The files that arguments ask for. -/
def filesOf (args : List String) : List String :=
  match parse args with
  | .run _ (.check _ files) => files
  | _ => []

end LambdaTyping.CommandLine

open LambdaTyping.CommandLine in
def main (args : List String) : IO UInt32 := do
  let files := filesOf args
  let texts ← readFiles files
  let stdin ← if files.any isStdin then (← IO.getStdin).readToEnd else pure ""
  let outcome := run args ⟨fun name => (texts.lookup name).join, stdin⟩
  IO.print outcome.stdout
  match outcome.failure with
  | some e => IO.eprintln ("Error: " ++ e.message)
  | none => pure ()
  return outcome.exit.toUInt32
