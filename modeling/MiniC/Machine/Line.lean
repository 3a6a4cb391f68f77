import MiniC.Text.Blank

/-!
# Lines of program text

A line is a label, written with a colon after it, or a mnemonic with operands, separated by blanks.
`Line.parse?` reads what `Line.text` writes, as long as no mnemonic or operand is empty, holds a
blank, or ends the line with a colon.
-/

namespace MiniC.Machine

/-- A line of program text. -/
inductive Line
  | label (name : String)
  | operation (mnemonic : String) (operands : List String)
  deriving DecidableEq, Repr, Inhabited

namespace Line

/-- The text of a line. -/
def text : Line → String
  | label name => name ++ ":"
  | operation mnemonic operands => " ".intercalate (mnemonic :: operands)

/-- Reads a line; a blank one holds nothing. -/
def parse? (line : String) : Option Line :=
  let cs := Text.trim line.toList
  if cs.getLast? = some ':' then some (label (String.ofList cs.dropLast))
  else
    match Text.words cs with
    | [] => none
    | mnemonic :: operands =>
      some (operation (String.ofList mnemonic) (operands.map String.ofList))

/-- The mnemonic of a line; a label has none. -/
def mnemonic? : Line → Option String
  | label _ => none
  | operation mnemonic _ => some mnemonic

/-- The operands of a line; a label has none. -/
def operands : Line → List String
  | label _ => []
  | operation _ operands => operands

/-- Whether a line is a label. -/
def isLabel : Line → Bool
  | label _ => true
  | operation .. => false

/-- A program as text, one line each. -/
def render (lines : List Line) : String :=
  String.join (lines.map fun line => line.text ++ "\n")

end Line

end MiniC.Machine
