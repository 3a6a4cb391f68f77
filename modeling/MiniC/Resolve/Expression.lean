import MiniC.Literal
import MiniC.Resolve.Resolution

/-!
# Resolving expressions

Every expression gets a type, every name in it a symbol, and a conversion is put in wherever a value
has to change its type. Casts written in front of an expression are carried out right above it, the
innermost first; what stands around the expression sees the last of them.

The definitions take the resolver of smaller expressions as `inner`; `expressionWithin` ties the
knot. Each answers the type of the node; `inner` answers what stands in the place of the node
afterwards.
-/

namespace MiniC

/-- The name by which diagnostics call the place that an expression denotes, followed down to some
level. -/
def Forest.placeNameWithin (forest : Forest) : Nat → NodeId → String
  | 0, _ => "expression"
  | levels + 1, id =>
    match forest.kind id with
    | .identifier name _ => name
    | .subscript | .unary .deref =>
      match forest.child? id 0 with
      | some base => forest.placeNameWithin levels base
      | none => "expression"
    | _ => "expression"

/-- The name by which diagnostics call the place that an expression denotes. -/
def Forest.placeName (forest : Forest) (id : NodeId) : String :=
  forest.placeNameWithin (forest.size + 1) id

/-- The value of an integer literal under signs, followed down to some level. -/
def Forest.constantWithin (forest : Forest) : Nat → NodeId → Option Int
  | 0, _ => none
  | levels + 1, id =>
    match forest.kind id with
    | .int value => some value
    | .unary .negate =>
      ((forest.child? id 0).bind (forest.constantWithin levels)).bind Literal.opposite?
    | _ => none

/-- The value of an integer literal under any number of signs. -/
def Forest.constant? (forest : Forest) (id : NodeId) : Option Int :=
  forest.constantWithin (forest.size + 1) id

namespace Resolve

/-- A name that has to stand for a variable. -/
def identifier (id : NodeId) (name : String) : Resolve Ty := do
  let line := (← forest).line id
  let table ← table
  match table.lookup name with
  | none => refuse (.symbolNotDeclared name) line
  | some symbol =>
    if (table.symbol symbol).isFunction then refuse (.notAVariable name) line
    onForest (·.bind id symbol)
    return (table.symbol symbol).type

/-- The arguments of a call from parameter `index` on. Arguments without a parameter keep their
type, but an array is passed by its address. -/
def argumentsFrom (inner : NodeId → Resolve NodeId) (params : List Ty) :
    List NodeId → Resolve Unit
  | [] => return
  | argument :: others => do
    let argument ← inner argument
    match params with
    | param :: _ =>
      let _ ← convert argument param
    | [] =>
      let type ← typeOf argument
      if type.isArray then
        let _ ← convert argument type.decay
    argumentsFrom inner params.tail others

/-- Whether a call with `count` arguments fits a signature. -/
def fits (signature : Signature) (count : Nat) : Bool :=
  if signature.variadic then signature.params.length ≤ count
  else count == signature.params.length

/-- A call of a function, which may get its body later. -/
def call (inner : NodeId → Resolve NodeId) (id : NodeId) (name : String) : Resolve Ty := do
  let line := (← forest).line id
  let table ← table
  match table.lookup name with
  | none => refuse (.symbolNotDeclared name) line
  | some symbol =>
    match (table.symbol symbol).signature? with
    | none => refuse (.notAFunction name) line
    | some signature =>
      let arguments := (← forest).children id
      if !fits signature arguments.length then
        refuse (.argumentCountMismatch name signature.params.length arguments.length
          signature.variadic) line
      argumentsFrom inner signature.params arguments
      if !signature.defined then
        modify fun state => { state with pending := state.pending ++ [(symbol, line)] }
      onForest (·.bind id symbol)
      return (table.symbol symbol).type

/-- The type of a place that may be written to: neither an array nor constant. -/
def writable (target : NodeId) : Resolve Ty := do
  let forest ← forest
  let line := forest.line target
  if !(forest.kind target).isPlace then refuse .notAssignable line
  let type ← typeOf target
  if type.isArray then refuse .assignToArray line
  if type.isConst then refuse (.assignToConstant (forest.placeName target)) line
  return type

/-- Both operands brought to integers. -/
def bothToInt (left right : NodeId) : Resolve Ty := do
  let _ ← convert left .int
  let _ ← convert right .int
  return .int

/-- Both operands brought to their common type. -/
def bothToCommon (op : BinaryOp) (line : Nat) (left right : NodeId) (leftType rightType : Ty) :
    Resolve Ty := do
  match leftType.common? rightType with
  | none => refuse (.noCommonType op.symbol leftType.text rightType.text) line
  | some common =>
    let _ ← promote left common
    let _ ← promote right common
    return common

/-- An operator between two expressions. -/
def binary (inner : NodeId → Resolve NodeId) (id : NodeId) (op : BinaryOp) : Resolve Ty := do
  let line := (← forest).line id
  let left ← inner (← child id 0)
  let right ← inner (← child id 1)
  let leftType ← typeOf left
  let rightType ← typeOf right
  match op with
  | .assign =>
    let target ← writable left
    let _ ← convert right target
    return target
  | .logic _ => bothToInt left right
  | .remainder =>
    if !leftType.isIntegral then refuse (.invalidOperand op.symbol leftType.text) line
    if !rightType.isIntegral then refuse (.invalidOperand op.symbol rightType.text) line
    bothToInt left right
  | .arith _ => bothToCommon op line left right leftType rightType
  | .compare _ =>
    let _ ← bothToCommon op line left right leftType rightType
    return .int

/-- An operator on one expression. -/
def unary (inner : NodeId → Resolve NodeId) (id : NodeId) (op : UnaryOp) : Resolve Ty := do
  let line := (← forest).line id
  let operand ← inner (← child id 0)
  let type ← typeOf operand
  match op with
  | .negate =>
    if !type.isIntegral then refuse (.invalidOperand op.symbol type.text) line
    return type.withConst false
  | .not =>
    let _ ← convert operand .int
    return .int
  | .deref =>
    match type.decay.pointee? with
    | none => refuse (.dereferenceNonPointer type.text) line
    | some target =>
      let _ ← convert operand type.decay
      return target
  | .addressOf =>
    if !((← forest).kind operand).isPlace then refuse .notAssignable line
    return .pointerTo (type.element?.getD type)
  | .step .. =>
    if !type.isScalar && !type.isArray then refuse (.invalidOperand op.symbol type.text) line
    writable operand

/-- What a subscripted type holds, and how many of it if that is known. -/
def elements? : Ty → Option (Ty × Option Nat)
  | .array element size _ => some (element, some size)
  | .pointer target _ => some (target, none)
  | .base .. => none

/-- Whether an index lies in an array. -/
def inRange (index : Int) (size : Nat) : Bool := 0 ≤ index && index < size

/-- A named array or pointer with an index. An index that is a constant has to lie in the array. -/
def subscript (inner : NodeId → Resolve NodeId) (id : NodeId) : Resolve Ty := do
  let line := (← forest).line id
  let base ← inner (← child id 0)
  match (← forest).kind base with
  | .identifier name _ =>
    match elements? (← typeOf base) with
    | none => refuse (.notAnArray name) line
    | some (element, size) =>
      let index ← inner (← child id 1)
      let indexType ← typeOf index
      if !indexType.isIntegral then refuse (.indexNotInteger indexType.text) line
      match (← forest).constant? index, size with
      | some value, some size =>
        if !inRange value size then refuse (.indexOutOfRange value size) line
      | _, _ => pure ()
      let _ ← convert index .int
      return element
  | _ => refuse (.notAnArray ((← forest).placeName base)) line

/-- The type of an expression by its kind. A conversion that is there already keeps its type. -/
def byKind (inner : NodeId → Resolve NodeId) (id : NodeId) : Resolve Ty := do
  let forest ← forest
  match forest.kind id with
  | .int _ => return .int
  | .char _ => return .char
  | .string .. => return .pointerTo .char
  | .identifier name _ => identifier id name
  | .call name _ => call inner id name
  | .binary op => binary inner id op
  | .unary op => unary inner id op
  | .subscript => subscript inner id
  | .conversion change => return change.target
  | other => malformed (Structure.kind other ++ " is not an expression") (forest.line id)

/-- Carries out casts, the first one innermost. -/
def castThrough (id : NodeId) : List Ty → Resolve NodeId
  | [] => return id
  | type :: others => do castThrough (← convert id type) others

/-- Resolves an expression that nests at most `levels` deep. -/
def expressionWithin : Nat → NodeId → Resolve NodeId
  | 0, id => exhausted id
  | levels + 1, id => do
    annotate id
    let type ← byKind (expressionWithin levels) id
    onForest (·.setType id type)
    castThrough id ((← forest).node id).casts

/-- Resolves an expression, and answers what stands in its place afterwards. -/
def expression (id : NodeId) : Resolve NodeId := do
  expressionWithin ((← forest).size + 1) id

end Resolve

end MiniC
