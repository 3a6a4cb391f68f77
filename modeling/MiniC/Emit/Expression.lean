import MiniC.Emit.Layout
import MiniC.Session
import MiniC.Tree.Structure

/-!
# Code of expressions

The code of an expression leaves its value on top of the stack; a call of a function without a
result leaves nothing. The code of a place leaves its address. The definitions take the code of
smaller expressions as `inner`; `expressionWithin` ties the knot.
-/

namespace MiniC

open Machine

/-- What is collected while code is made: warnings, and the library routines that the code calls in
the order of their first call. -/
structure Output where
  session : Session
  used : List String := []
  deriving Inhabited

/-- Steps of making code. -/
abbrev Emit := EStateM Fault Output

namespace Emit

/-- A question about the layout. -/
def ask {α : Type} (answer : Except Fault α) : Emit α :=
  match answer with
  | .ok value => return value
  | .error fault => throw fault

/-- The program is not what code can be made for. -/
def malformed {α : Type} (message : String) (line : Nat) : Emit α :=
  throw (.malformed message line)

/-- The tag of a type. A type without one is reported, and its values are treated as integers. -/
def tagOf (type : Ty) (line : Nat) : Emit Tag := do
  match type.tag? with
  | some tag => return tag
  | none =>
    modify fun output =>
      { output with session := output.session.warn (.unmappedType type.text) line }
    return .int

/-- Notes that the program calls a library routine. -/
def useRoutine (name : String) : Emit Unit :=
  modify fun output =>
    if output.used.contains name then output else { output with used := output.used ++ [name] }

/-- A slot that code reaches over static links. -/
structure Place where
  depth : Nat
  slot : Nat

variable (layout : Layout)

/-- Where the variable of a name is kept. -/
def placeOf (id : NodeId) (line : Nat) : Emit Place := do
  let symbol ← ask (layout.symbolOf id)
  let slot ← ask (layout.offsetOf symbol line)
  return { depth := layout.depthTo id symbol, slot }

/-- Code that leaves the address of a place. -/
def address (inner : NodeId → Emit Code) (id : NodeId) : Emit Code := do
  let line := layout.forest.line id
  match layout.forest.kind id with
  | .identifier .. =>
    let place ← placeOf layout id line
    return [.lda place.depth place.slot]
  | .subscript =>
    let base ← ask (layout.child id 0)
    let index ← ask (layout.child id 1)
    let element ← ask (layout.typeOf id)
    let baseCode ← inner base
    let indexCode ← inner index
    return baseCode ++ indexCode ++ [.ixa element.slots]
  | .unary .deref => inner (← ask (layout.child id 0))
  | _ => throw ⟨.notAssignable, line⟩

/-- The value of a variable. That of an array is its address. -/
def identifier (id : NodeId) : Emit Code := do
  let line := layout.forest.line id
  let place ← placeOf layout id line
  let type ← ask (layout.typeOf id)
  if type.isArray then return [.lda place.depth place.slot]
  else return [.lod (← tagOf type line) place.depth place.slot]

/-- Code of expressions one behind the other. -/
def inOrder (inner : NodeId → Emit Code) : List NodeId → Emit Code
  | [] => return []
  | id :: others => do
    let code ← inner id
    return code ++ (← inOrder inner others)

/-- A call. A variadic function gets the number of its arguments first. -/
def call (inner : NodeId → Emit Code) (id : NodeId) : Emit Code := do
  let symbol ← ask (layout.symbolOf id)
  let entry := layout.table.symbol symbol
  match entry.signature? with
  | none => throw ⟨.notAFunction entry.name, layout.forest.line id⟩
  | some signature =>
    let arguments := layout.forest.children id
    let code ← inOrder inner arguments
    if signature.builtin then useRoutine entry.name
    let count := arguments.length
    let frame := Instr.mst (layout.depthTo id symbol)
    if signature.variadic then
      return [frame, .ldc (.int count)] ++ code ++ [.cup (count + 1) signature.label]
    else return [frame] ++ code ++ [.cup count signature.label]

/-- An assignment. With `keep` its value is left on the stack, by way of the scratch slot if the
target is reached through an address; nothing runs between parking the value there and taking it
back. -/
def assignment (inner : NodeId → Emit Code) (id : NodeId) (keep : Bool) : Emit Code := do
  let line := layout.forest.line id
  let target ← ask (layout.child id 0)
  let value ← ask (layout.child id 1)
  let tag ← tagOf (← ask (layout.typeOf target)) line
  if (layout.forest.kind target).isIdentifier then
    let place ← placeOf layout target line
    let code ← inner value
    return code ++ [.str tag place.depth place.slot] ++
      if keep then [.lod tag place.depth place.slot] else []
  else
    let targetCode ← address layout inner target
    let code ← inner value
    if keep then
      let scratch ← ask (layout.scratchOf id)
      return targetCode ++ code ++
        [.str tag 0 scratch, .lod tag 0 scratch, .sto tag, .lod tag 0 scratch]
    else return targetCode ++ code ++ [.sto tag]

/-- The instruction of a step by one. -/
def stepInstr (direction : Direction) (tag : Tag) : Instr :=
  match direction with
  | .up => .inc tag 1
  | .down => .dec tag 1

/-- A step. With `keep` its value is left on the stack: the old one if the operator stands behind
the operand, otherwise the new one. The address of a target that is no variable is computed once and
kept in the scratch slot. -/
def step (inner : NodeId → Emit Code) (id : NodeId) (position : Position) (direction : Direction)
    (keep : Bool) : Emit Code := do
  let line := layout.forest.line id
  let target ← ask (layout.child id 0)
  let tag ← tagOf (← ask (layout.typeOf target)) line
  let ahead := keep && position = .after
  let behind := keep && position = .before
  if (layout.forest.kind target).isIdentifier then
    let place ← placeOf layout target line
    let load : Code := [.lod tag place.depth place.slot]
    return (if ahead then load else []) ++ load ++
      [stepInstr direction tag, .str tag place.depth place.slot] ++ if behind then load else []
  else
    let scratch ← ask (layout.scratchOf id)
    let targetCode ← address layout inner target
    let pointer := Instr.lod .address 0 scratch
    let load : Code := [pointer, .ind tag]
    return targetCode ++ [.str .address 0 scratch] ++ (if ahead then load else []) ++
      [pointer] ++ load ++ [stepInstr direction tag, .sto tag] ++ if behind then load else []

/-- An operator between two expressions. The remainder is a call of a library routine; both sides
of a logical operator are always evaluated. -/
def binary (inner : NodeId → Emit Code) (id : NodeId) (op : BinaryOp) : Emit Code := do
  let line := layout.forest.line id
  let left ← ask (layout.child id 0)
  let right ← ask (layout.child id 1)
  match op with
  | .assign => assignment layout inner id true
  | .remainder =>
    let leftCode ← inner left
    let rightCode ← inner right
    useRoutine "mod"
    return [.mst (layout.depthToFile id)] ++ leftCode ++ rightCode ++ [.cup 2 (.named "mod")]
  | .logic op =>
    let leftCode ← inner left
    let rightCode ← inner right
    return leftCode ++ [.conv .int .bool] ++ rightCode ++
      [.conv .int .bool, .logic op, .conv .bool .int]
  | .compare op =>
    let leftCode ← inner left
    let rightCode ← inner right
    let tag ← tagOf (← ask (layout.typeOf left)) line
    return leftCode ++ rightCode ++ [.compare op tag, .conv .bool .int]
  | .arith op =>
    let leftCode ← inner left
    let rightCode ← inner right
    let tag ← tagOf (← ask (layout.typeOf id)) line
    return leftCode ++ rightCode ++ [.arith op tag]

/-- An operator on one expression. -/
def unary (inner : NodeId → Emit Code) (id : NodeId) (op : UnaryOp) : Emit Code := do
  let line := layout.forest.line id
  let operand ← ask (layout.child id 0)
  match op with
  | .negate =>
    let code ← inner operand
    let tag ← tagOf (← ask (layout.typeOf id)) line
    return code ++ [.neg tag]
  | .not => return (← inner operand) ++ [.conv .int .bool, .not, .conv .bool .int]
  | .deref =>
    let code ← inner operand
    let tag ← tagOf (← ask (layout.typeOf id)) line
    return code ++ [.ind tag]
  | .addressOf => address layout inner operand
  | .step position direction => step layout inner id position direction true

/-- The code of an expression by its kind. -/
def byKind (inner : NodeId → Emit Code) (id : NodeId) : Emit Code := do
  let line := layout.forest.line id
  match layout.forest.kind id with
  | .int value => return [.ldc (.int value)]
  | .char value => return [.ldc (.char value)]
  | .string _ pool =>
    match pool with
    | some slot => return [.lda (layout.depthToFile id) slot]
    | none => malformed "string outside the pool" line
  | .identifier .. => identifier layout id
  | .call .. => call layout inner id
  | .binary op => binary layout inner id op
  | .unary op => unary layout inner id op
  | .subscript =>
    let code ← address layout inner id
    let tag ← tagOf (← ask (layout.typeOf id)) line
    return code ++ [.ind tag]
  | .conversion change =>
    let code ← inner (← ask (layout.child id 0))
    match change.coercion with
    | some (source, target) => return code ++ [.conv source target]
    | none => return code
  | other => malformed (Structure.kind other ++ " is not an expression") line

/-- The code of an expression that nests at most `levels` deep. -/
def expressionWithin : Nat → NodeId → Emit Code
  | 0, id => malformed "nodes nest deeper than there are nodes" (layout.forest.line id)
  | levels + 1, id => byKind layout (expressionWithin levels) id

/-- Code that leaves the value of an expression. -/
def expression (id : NodeId) : Emit Code :=
  expressionWithin layout (layout.forest.size + 1) id

/-- Code that leaves the address of a place. -/
def addressOf (id : NodeId) : Emit Code := address layout (expression layout) id

/-- The code of an expression whose value is not used. A value that is there all the same is stored
into the result slot. -/
def discarded (id : NodeId) : Emit Code := do
  match layout.forest.kind id with
  | .binary .assign => assignment layout (expression layout) id false
  | .unary (.step position direction) =>
    step layout (expression layout) id position direction false
  | _ =>
    let code ← expression layout id
    let type ← ask (layout.typeOf id)
    if type.isVoid then return code
    else return code ++ [.str (← tagOf type.decay (layout.forest.line id)) 0 0]

end Emit

end MiniC
