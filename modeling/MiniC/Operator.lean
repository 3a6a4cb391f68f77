import MiniC.Machine.Instr

/-!
# Operators

Binary operators fall into four categories, each typed and compiled in its own way. The remainder
has no instruction; it is a call of a library routine.
-/

namespace MiniC

/-- The binary operators. -/
inductive BinaryOp
  | assign
  | arith (op : Machine.ArithOp)
  | remainder
  | compare (op : Machine.CompareOp)
  | logic (op : Machine.LogicOp)
  deriving DecidableEq, Repr, Inhabited

namespace BinaryOp

/-- Every binary operator. -/
def all : List BinaryOp := [
  assign, arith .add, arith .sub, arith .mul, arith .div, remainder,
  compare .equal, compare .notEqual, compare .less, compare .lessEqual,
  compare .greater, compare .greaterEqual, logic .and, logic .or]

theorem mem_all (op : BinaryOp) : op ∈ all := by
  cases op with
  | assign | remainder => decide
  | arith op => cases op <;> decide
  | compare op => cases op <;> decide
  | logic op => cases op <;> decide

/-- The spelling of an operator. -/
def symbol : BinaryOp → String
  | assign => "="
  | arith .add => "+"
  | arith .sub => "-"
  | arith .mul => "*"
  | arith .div => "/"
  | remainder => "%"
  | compare .equal => "=="
  | compare .notEqual => "!="
  | compare .less => "<"
  | compare .lessEqual => "<="
  | compare .greater => ">"
  | compare .greaterEqual => ">="
  | logic .and => "&&"
  | logic .or => "||"

/-- The operator with a spelling. -/
def ofSymbol? (symbol : String) : Option BinaryOp := all.find? (·.symbol == symbol)

/-- The name of an operator in structural texts. -/
def name : BinaryOp → String
  | assign => "Assign"
  | arith .add => "Add"
  | arith .sub => "Sub"
  | arith .mul => "Mul"
  | arith .div => "Div"
  | remainder => "Mod"
  | compare .equal => "Equals"
  | compare .notEqual => "NotEquals"
  | compare .less => "Less"
  | compare .lessEqual => "LessEquals"
  | compare .greater => "Greater"
  | compare .greaterEqual => "GreaterEquals"
  | logic .and => "And"
  | logic .or => "Or"

/-- The name of the category of an operator. -/
def category : BinaryOp → String
  | assign => "Assignment"
  | arith _ | remainder => "Arithmetic"
  | compare _ => "Comparison"
  | logic _ => "Logical"

/-- The mnemonic of the instruction that carries out an operator. -/
def mnemonic? : BinaryOp → Option String
  | arith op => some op.mnemonic
  | compare op => some op.mnemonic
  | logic op => some op.mnemonic
  | assign | remainder => none

theorem symbol_injective {a b : BinaryOp} (h : a.symbol = b.symbol) : a = b := by
  have all_pairs : ∀ a ∈ all, ∀ b ∈ all, a.symbol = b.symbol → a = b := by decide
  exact all_pairs a (mem_all a) b (mem_all b) h

@[simp] theorem ofSymbol?_symbol (op : BinaryOp) : ofSymbol? op.symbol = some op := by
  have every : ∀ op ∈ all, ofSymbol? op.symbol = some op := by decide
  exact every op (mem_all op)

end BinaryOp

/-- The change that a step operator makes. -/
inductive Direction
  | up | down
  deriving DecidableEq, Repr, Inhabited

/-- Whether the value of a step is the changed one (the operator stands before the operand) or the
unchanged one (it stands after it). -/
inductive Position
  | before | after
  deriving DecidableEq, Repr, Inhabited

/-- The unary operators. -/
inductive UnaryOp
  | negate | not | deref | addressOf
  | step (position : Position) (direction : Direction)
  deriving DecidableEq, Repr, Inhabited

namespace UnaryOp

/-- Every unary operator. -/
def all : List UnaryOp := [
  negate, not, deref, addressOf, step .before .up, step .before .down, step .after .up,
  step .after .down]

theorem mem_all (op : UnaryOp) : op ∈ all := by
  cases op with
  | step position direction => cases position <;> cases direction <;> decide
  | negate | not | deref | addressOf => decide

/-- The spelling of an operator. -/
def symbol : UnaryOp → String
  | negate => "-"
  | not => "!"
  | deref => "*"
  | addressOf => "&"
  | step _ .up => "++"
  | step _ .down => "--"

/-- The text of an operator in listings, where steps after the operand stand behind an `x`. -/
def text : UnaryOp → String
  | step .after direction => "x" ++ (step .after direction).symbol
  | op => op.symbol

/-- The name of an operator in structural texts. -/
def name : UnaryOp → String
  | negate => "Negate"
  | not => "Not"
  | deref => "Deref"
  | addressOf => "AddressOf"
  | step .before .up => "PreIncrement"
  | step .before .down => "PreDecrement"
  | step .after .up => "PostIncrement"
  | step .after .down => "PostDecrement"

/-- Whether an operator changes its operand. -/
def isStep : UnaryOp → Bool
  | step .. => true
  | _ => false

end UnaryOp

end MiniC
