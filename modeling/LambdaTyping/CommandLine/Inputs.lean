/-!
Where a command gets its texts: files that are found by their paths, and the
standard input. A directory tree can be given by the paths and texts of its
files; then a path is followed step by step, as a file system does it.
-/
namespace LambdaTyping.CommandLine

/-- The steps of a path, with empty ones where slashes meet or stand at an end. -/
def steps (path : String) : List String := path.splitOn "/"

/-- A step that stays where it is. -/
def isIdle (step : String) : Bool := step == "" || step == "."

/-- Does a path mean the standard input? A dash does, also with idle steps after it, and so does
the device of that name. -/
def isStdin (path : String) : Bool :=
  match steps path with
  | "-" :: rest => rest.all isIdle
  | _ => path == "/dev/stdin"

/-- Texts by path, and what is left of the standard input. -/
structure Inputs where
  file : String → Option String
  stdin : String

namespace Inputs

/-- Read a file, or the standard input, of which nothing is left after that. -/
def read (inputs : Inputs) (path : String) : Option String × Inputs :=
  if isStdin path then (some inputs.stdin, { inputs with stdin := "" })
  else (inputs.file path, inputs)

end Inputs

/-- A directory tree: the texts of its files, each with the steps from the top that lead to it. -/
abbrev Directory := List (List String × String)

namespace Directory

def ofFiles (files : List (String × String)) : Directory :=
  files.map fun f => ((steps f.1).filter (!isIdle ·), f.2)

/-- Do these steps lead to a directory? They do if the way to some file goes on from there. -/
def isDirectory (dir : Directory) (place : List String) : Bool :=
  place.isEmpty || dir.any fun f => place.isPrefixOf f.1 && place.length < f.1.length

/-- Follow steps from a place in the tree. Each step needs a directory to start from, and no step
leads out of the tree. -/
def follow (dir : Directory) (place : List String) : List String → Option String
  | [] => dir.lookup place
  | step :: rest =>
    if !dir.isDirectory place then none
    else if isIdle step then dir.follow place rest
    else if step = ".." then
      if place.isEmpty then none else dir.follow place.dropLast rest
    else dir.follow (place ++ [step]) rest

/-- The text of a file. Outside the tree only the empty device is known. -/
def text? (dir : Directory) (path : String) : Option String :=
  if path.startsWith "/" then if path = "/dev/null" then some "" else none
  else dir.follow [] (steps path)

end Directory

/-- Inputs from a directory tree and a standard input. -/
def Inputs.ofFiles (files : List (String × String)) (stdin : String) : Inputs :=
  ⟨(Directory.ofFiles files).text?, stdin⟩

end LambdaTyping.CommandLine
