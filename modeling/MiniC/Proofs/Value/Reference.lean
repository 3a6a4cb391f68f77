import MiniC.Proofs.Tree.Shape
import MiniC.Proofs.Value.Machine
import MiniC.Scope

/-!
# What expressions mean

The value of an expression, evaluated from left to right. Both operands of a logical operator are
evaluated; the address of what is assigned to comes before its value; a step computes its address
once. Evaluation works on the memory, and notes the addresses through which cells are reached. Calls,
divisions and remainders have no meaning here.
-/

namespace MiniC

open Machine

/-- Where the variables of the frames in reach and the strings are kept. -/
structure Whereabouts where
  symbol : SymbolId → Int
  string : NodeId → Int

/-- What evaluation has done: what is in memory, and the addresses that were dereferenced. -/
structure Evaluation where
  memory : Memory
  reached : List Int := []

/-- Steps of evaluation. -/
abbrev Evaluate := StateT Evaluation Option

namespace Evaluate

/-- What has to be there. -/
def ask {α : Type} (answer : Option α) : Evaluate α := fun evaluation =>
  answer.map fun value => (value, evaluation)

/-- Reads a cell. -/
def read (address : Int) : Evaluate Int := fun evaluation =>
  some (evaluation.memory address, evaluation)

/-- Writes a cell. -/
def write (address value : Int) : Evaluate Unit := fun evaluation =>
  some ((), { evaluation with memory := evaluation.memory.store address value })

/-- Notes that an address is dereferenced. -/
def reach (address : Int) : Evaluate Unit := fun evaluation =>
  some ((), { evaluation with reached := evaluation.reached ++ [address] })

variable (forest : Forest) (whereabouts : Whereabouts) (convert : Tag → Tag → Int → Int)

/-- The address of a place. -/
def place (inner : NodeId → Evaluate Int) (id : NodeId) : Evaluate Int :=
  match forest.kind id with
  | .identifier _ symbol => do return whereabouts.symbol (← ask symbol)
  | .subscript => do
    let base ← ask (forest.child? id 0)
    let index ← ask (forest.child? id 1)
    let element ← ask (forest.type? id)
    let address ← inner base
    let number ← inner index
    return address + number * element.slots
  | .unary .deref => do inner (← ask (forest.child? id 0))
  | _ => ask none

/-- Notes how a place is accessed. A variable is named, everything else is reached by its address. -/
def access (id : NodeId) (address : Int) : Evaluate Unit :=
  if (forest.kind id).isIdentifier then pure () else reach address

/-- What is kept in a place. -/
def content (inner : NodeId → Evaluate Int) (id : NodeId) : Evaluate Int := do
  let address ← place forest whereabouts inner id
  access forest id address
  read address

/-- An assignment. Its value is what has been assigned. -/
def assign (inner : NodeId → Evaluate Int) (target value : NodeId) : Evaluate Int := do
  let address ← place forest whereabouts inner target
  let new ← inner value
  access forest target address
  write address new
  return new

/-- The next value up or down. -/
def stepped (direction : Direction) (value : Int) : Int :=
  match direction with
  | .up => value + 1
  | .down => value - 1

/-- A step by one. Its value is the old one if the operator stands behind the operand, otherwise the
new one. -/
def step (inner : NodeId → Evaluate Int) (target : NodeId) (position : Position)
    (direction : Direction) : Evaluate Int := do
  let address ← place forest whereabouts inner target
  access forest target address
  let old ← read address
  write address (stepped direction old)
  return if position = .after then old else stepped direction old

/-- An operator between two expressions. -/
def binary (inner : NodeId → Evaluate Int) (id : NodeId) (op : BinaryOp) : Evaluate Int := do
  let left ← ask (forest.child? id 0)
  let right ← ask (forest.child? id 1)
  match op with
  | .assign => assign forest whereabouts inner left right
  | .logic op =>
    let l ← inner left
    let r ← inner right
    return truth (op.holds (l ≠ 0) (r ≠ 0))
  | .compare op =>
    let l ← inner left
    let r ← inner right
    return truth (op.holds l r)
  | .arith op =>
    let l ← inner left
    let r ← inner right
    ask (op.value? l r)
  | .remainder => ask none

/-- An operator on one expression. -/
def unary (inner : NodeId → Evaluate Int) (id : NodeId) (op : UnaryOp) : Evaluate Int := do
  let operand ← ask (forest.child? id 0)
  match op with
  | .negate => return -(← inner operand)
  | .not => return truth ((← inner operand) = 0)
  | .deref => content forest whereabouts inner id
  | .addressOf => place forest whereabouts inner operand
  | .step position direction => step forest whereabouts inner operand position direction

/-- The value of an expression by its kind. That of an array is its address. -/
def byKind (inner : NodeId → Evaluate Int) (id : NodeId) : Evaluate Int :=
  match forest.kind id with
  | .int value => return value
  | .char value => return value.toNat
  | .string .. => return whereabouts.string id
  | .identifier .. => do
    let type ← ask (forest.type? id)
    if type.isArray then place forest whereabouts inner id else content forest whereabouts inner id
  | .binary op => binary forest whereabouts inner id op
  | .unary op => unary forest whereabouts inner id op
  | .subscript => content forest whereabouts inner id
  | .conversion change => do
    let value ← inner (← ask (forest.child? id 0))
    return (change.coercion.map fun tags => convert tags.1 tags.2 value).getD value
  | _ => ask none

/-- The value of an expression that nests at most `levels` deep. -/
def valueWithin : Nat → NodeId → Evaluate Int
  | 0, _ => ask none
  | levels + 1, id => byKind forest whereabouts convert (valueWithin levels) id

/-- The value of an expression. -/
def value (id : NodeId) : Evaluate Int :=
  valueWithin forest whereabouts convert (forest.size + 1) id

end Evaluate

end MiniC
