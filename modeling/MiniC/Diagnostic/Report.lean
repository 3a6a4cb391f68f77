import MiniC.Diagnostic
import MiniC.Text.Blank
import MiniC.Text.Lines

/-!
# Reports

The report of a fault names its cause and the file, shows the line where that exists in the source,
and ends with the message.
-/

namespace MiniC

/-- The line that a fault points at, framed by margins as wide as its number. -/
def excerpt (line : Nat) (text : String) : String :=
  let number := toString line
  let margin := String.ofList (List.replicate (number.length + 1) ' ') ++ "|\n"
  margin ++ number ++ " | " ++ String.ofList (Text.trim text.toList) ++ "\n" ++ margin

/-- The full report of a fault found in `source`. -/
def Fault.report (fault : Fault) (source file : String) : String :=
  let advice := match fault.cause.tip? with
    | none => ""
    | some tip => " (" ++ tip ++ ")"
  let shown := match Text.getLine? source fault.line with
    | none => ""
    | some text => excerpt fault.line text
  "Error: " ++ fault.cause.name ++ advice ++ "\n-> " ++ file ++ "\n" ++ shown ++ fault.message

end MiniC
