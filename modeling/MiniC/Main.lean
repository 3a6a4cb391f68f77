import MiniC.CommandLine
import MiniC.Compile
import MiniC.Diagnostic.Report
import MiniC.Tree.Listing

/-!
# The command

Reads a source file, compiles it, and writes the code. The listing of the tree, warnings and the
report of a fault go to the standard error output.
-/

namespace MiniC.CommandLine

/-- Compiles a source, with what the request wants to be told on the way. -/
def build (request : CommandLine) (source : String) : IO (Except Fault String) := do
  match Grammar.read source >>= (analyse · {}) with
  | .error fault => return .error fault
  | .ok resolution =>
    if request.verbose then
      IO.eprintln ("resolved " ++ toString resolution.forest.size ++ " nodes")
    if request.dumpTree then
      if let some root := resolution.forest.root then
        IO.eprint (resolution.forest.listing root)
    match Emit.compile resolution.forest resolution.table resolution.session with
    | .error fault => return .error fault
    | .ok compiled =>
      if request.verbose then
        IO.eprintln ("generated " ++ toString compiled.code.length ++ " instructions")
      for warning in compiled.session.warnings do
        IO.eprintln ("warning: " ++ warning.message)
      return .ok (Machine.Code.render compiled.code)

/-- Writes the code to where the request wants it. -/
def deliver (request : CommandLine) (text : String) : IO UInt32 := do
  match request.output with
  | none =>
    IO.print text
    return 0
  | some name =>
    try
      IO.FS.writeFile name text
      return 0
    catch failure =>
      IO.eprintln ("Failed to write " ++ name ++ ": " ++ toString failure)
      return 1

/-- Carries out a request. The result is the exit code. -/
def run (request : CommandLine) : IO UInt32 := do
  let source ←
    try
      pure (some (← IO.FS.readFile request.input))
    catch failure =>
      IO.eprintln ("Failed to read " ++ request.input ++ ": " ++ toString failure)
      pure none
  match source with
  | none => return 1
  | some source =>
    match ← request.build source with
    | .ok text => request.deliver text
    | .error fault =>
      IO.eprintln (fault.report source request.input)
      return 1

end MiniC.CommandLine

/-- The program: reads the command line and carries it out. -/
def main (words : List String) : IO UInt32 := do
  match MiniC.CommandLine.ofWords words with
  | .ok request => request.run
  | .error (text, true) =>
    IO.print text
    return 0
  | .error (text, false) =>
    IO.eprint text
    return 2
