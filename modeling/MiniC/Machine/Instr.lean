import MiniC.Machine.Line
import MiniC.Machine.Operand

/-!
# Instructions

The instructions of a stack machine with static links. A frame starts with a header
(`frameHeader`); slot 0 holds the result of a function. `Instr.line` gives the text of an
instruction.
-/

namespace MiniC.Machine

/-- Slots 0 to 4 of a frame hold the result and the bookkeeping of the machine; parameters and
variables come after them. -/
def frameHeader : Nat := 5

/-- A constant operand. -/
inductive Constant
  | int (value : Int)
  | char (value : Char)
  | bool (value : Bool)
  deriving DecidableEq, Repr, Inhabited

/-- Operations on two cells of one kind that give a cell of that kind. -/
inductive ArithOp
  | add | sub | mul | div
  deriving DecidableEq, Repr, Inhabited

/-- The mnemonic of an arithmetic operation. -/
def ArithOp.mnemonic : ArithOp → String
  | .add => "add"
  | .sub => "sub"
  | .mul => "mul"
  | .div => "div"

/-- Comparisons of two cells of one kind. -/
inductive CompareOp
  | equal | notEqual | less | lessEqual | greater | greaterEqual
  deriving DecidableEq, Repr, Inhabited

/-- The mnemonic of a comparison. -/
def CompareOp.mnemonic : CompareOp → String
  | .equal => "equ"
  | .notEqual => "neq"
  | .less => "les"
  | .lessEqual => "leq"
  | .greater => "grt"
  | .greaterEqual => "geq"

/-- Operations on two truth values. -/
inductive LogicOp
  | and | or
  deriving DecidableEq, Repr, Inhabited

/-- The mnemonic of a logical operation. -/
def LogicOp.mnemonic : LogicOp → String
  | .and => "and"
  | .or => "or"

/-- One step of a program, or a label between two steps. A frame `depth` static links out and a
slot in it name a cell. -/
inductive Instr
  /-- A place to jump to. -/
  | label (name : Label)
  /-- Pushes a constant. -/
  | ldc (value : Constant)
  /-- Pushes the cell at a slot. -/
  | lod (tag : Tag) (depth slot : Nat)
  /-- Pops a cell into a slot. -/
  | str (tag : Tag) (depth slot : Nat)
  /-- Pushes the address of a slot. -/
  | lda (depth slot : Nat)
  /-- Replaces an address by the cell it points at. -/
  | ind (tag : Tag)
  /-- Pops a cell and the address to store it at. -/
  | sto (tag : Tag)
  /-- Pops an index and an address, and pushes the address moved by the index times `size`. -/
  | ixa (size : Nat)
  /-- Adds to the top cell. -/
  | inc (tag : Tag) (amount : Nat)
  /-- Subtracts from the top cell. -/
  | dec (tag : Tag) (amount : Nat)
  /-- Combines the two top cells. -/
  | arith (op : ArithOp) (tag : Tag)
  /-- Compares the two top cells. -/
  | compare (op : CompareOp) (tag : Tag)
  /-- Combines the two top truth values. -/
  | logic (op : LogicOp)
  /-- Changes the sign of the top cell. -/
  | neg (tag : Tag)
  /-- Inverts the top truth value. -/
  | not
  /-- Converts the top cell. -/
  | conv (source target : Tag)
  /-- Jumps. -/
  | ujp (target : Label)
  /-- Pops a truth value and jumps if it is false. -/
  | fjp (target : Label)
  /-- Opens a frame whose static link goes `depth` frames out. -/
  | mst (depth : Nat)
  /-- Calls with the `count` cells on top as parameters. -/
  | cup (count : Nat) (target : Label)
  /-- Sets the size of the frame. -/
  | ssp (size : Nat)
  /-- Returns with the result in slot 0. -/
  | retf
  /-- Returns without a result. -/
  | retp
  /-- Ends the program. -/
  | hlt
  /-- Reads a cell from the input. -/
  | read (tag : Tag)
  /-- Pops a cell and writes it to the output. -/
  | write (tag : Tag)
  deriving DecidableEq, Repr, Inhabited

/-- A visible ASCII character other than the single quote. -/
def isPlainOperand (c : Char) : Bool :=
  0x21 ≤ c.toNat && c.toNat ≤ 0x7E && c != '\''

/-- The operand for a character: the character in quotes if it is visible, otherwise its code. -/
def charOperand (c : Char) : String :=
  if isPlainOperand c then String.ofList ['\'', c, '\''] else toString c.toNat

/-- The operands of a constant. -/
def Constant.operands : Constant → List String
  | int value => [Tag.int.text, toString value]
  | char value => [Tag.char.text, charOperand value]
  | bool value => [Tag.bool.text, if value then "t" else "f"]

namespace Instr

/-- The line of program text that an instruction stands on. -/
def line : Instr → Line
  | label name => .label name.text
  | ldc value => .operation "ldc" value.operands
  | lod tag depth slot => .operation "lod" [tag.text, toString depth, toString slot]
  | str tag depth slot => .operation "str" [tag.text, toString depth, toString slot]
  | lda depth slot => .operation "lda" [toString depth, toString slot]
  | ind tag => .operation "ind" [tag.text]
  | sto tag => .operation "sto" [tag.text]
  | ixa size => .operation "ixa" [toString size]
  | inc tag amount => .operation "inc" [tag.text, toString amount]
  | dec tag amount => .operation "dec" [tag.text, toString amount]
  | arith op tag => .operation op.mnemonic [tag.text]
  | compare op tag => .operation op.mnemonic [tag.text]
  | logic op => .operation op.mnemonic []
  | neg tag => .operation "neg" [tag.text]
  | not => .operation "not" []
  | conv source target => .operation "conv" [source.text, target.text]
  | ujp target => .operation "ujp" [target.text]
  | fjp target => .operation "fjp" [target.text]
  | mst depth => .operation "mst" [toString depth]
  | cup count target => .operation "cup" [toString count, target.text]
  | ssp size => .operation "ssp" [toString size]
  | retf => .operation "retf" []
  | retp => .operation "retp" []
  | hlt => .operation "hlt" []
  | read tag => .operation "in" [tag.text]
  | write tag => .operation "out" [tag.text]

/-- The text of an instruction. -/
def text (instr : Instr) : String := instr.line.text

/-- The label that an instruction defines. -/
def defined? : Instr → Option Label
  | label name => some name
  | _ => none

/-- The label that an instruction jumps to or calls. -/
def target? : Instr → Option Label
  | ujp target | fjp target | cup _ target => some target
  | _ => none

/-- Replaces the labels of an instruction. -/
def relabel (rename : Label → Label) : Instr → Instr
  | label name => label (rename name)
  | ujp target => ujp (rename target)
  | fjp target => fjp (rename target)
  | cup count target => cup count (rename target)
  | other => other

@[simp] theorem defined?_relabel (rename : Label → Label) (instr : Instr) :
    (instr.relabel rename).defined? = instr.defined?.map rename := by cases instr <;> rfl

@[simp] theorem target?_relabel (rename : Label → Label) (instr : Instr) :
    (instr.relabel rename).target? = instr.target?.map rename := by cases instr <;> rfl

end Instr

/-- A sequence of instructions. -/
abbrev Code := List Instr

/-- A program as text, one instruction a line. -/
def Code.render (code : Code) : String := Line.render (code.map Instr.line)

end MiniC.Machine
