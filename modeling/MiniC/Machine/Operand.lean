/-!
# Tags and labels

The stack machine holds cells of four kinds. A tag names the kind that an instruction works on.

A program names its jump targets by a running number and its functions by their name and a running
number. A library routine has its own name as label. The numbers of a compilation are all different,
so no two of its labels have the same text.
-/

namespace MiniC.Machine

/-- The kinds of cells of the stack machine. -/
inductive Tag
  | int | char | address | bool
  deriving DecidableEq, Repr, Inhabited

/-- The letter that stands for a tag in program text. -/
def Tag.text : Tag → String
  | .int => "i"
  | .char => "c"
  | .address => "a"
  | .bool => "b"

/-- A place in a program. -/
inductive Label
  /-- A jump target inside a function. -/
  | jump (number : Nat)
  /-- The code of a function of the program. -/
  | function (name : String) (number : Nat)
  /-- A place known by its text alone, such as a library routine. -/
  | named (text : String)
  deriving DecidableEq, Repr, Inhabited

/-- How program text spells a label. -/
def Label.text : Label → String
  | .jump number => "l" ++ toString number
  | .function name number => name ++ "_" ++ toString number
  | .named text => text

end MiniC.Machine
