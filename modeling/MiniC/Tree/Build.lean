import MiniC.Diagnostic
import MiniC.Tree.Forest
import MiniC.Tree.Structure

/-!
# Building trees

A builder makes a tree from its leaves up. Finished parts wait on an operand stack; a step takes its
parts from the top, links them under a new node and puts that node on the stack. A step that finds
too few operands or a wrong one is refused. It adds no node then, but what it has taken stays taken.
-/

namespace MiniC

/-- A forest under construction and its operands, the top one first. -/
structure Builder where
  forest : Forest := {}
  stack : List NodeId := []
  deriving Inhabited

/-- Steps of construction. A refused step keeps the state that it has reached. -/
abbrev Build := EStateM Fault Builder

namespace Build

/-- Adds a node above `children` and puts it on the stack. -/
def push (kind : Kind) (line : Nat) (children : List NodeId) : Build Unit :=
  modify fun ⟨forest, stack⟩ =>
    let (forest, id) := forest.add kind line
    { forest := children.foldl (fun forest child => forest.append id child) forest,
      stack := id :: stack }

/-- Takes the top operand. -/
def pop (line : Nat) : Build NodeId := do
  match (← get).stack with
  | [] => throw (.malformed "operand stack is empty" line)
  | id :: stack =>
    modify fun builder => { builder with stack }
    return id

/-- Takes `count` operands, in the order in which they were put on the stack. -/
def popMany (count line : Nat) : Build (List NodeId) := do
  let stack := (← get).stack
  if stack.length < count then
    let found := stack.length
    throw (.malformed s!"expected {count} operands, found {found}" line)
  modify fun builder => { builder with stack := builder.stack.drop count }
  return (stack.take count).reverse

/-- Takes the top operand, which has to be a type. -/
def popType (line : Nat) : Build NodeId := do
  let id ← pop line
  match (← get).forest.kind id with
  | .type _ => return id
  | other => throw (.malformed ("expected a type, found " ++ Structure.kind other) line)

/-- Changes a node that is a part of a written type. -/
def updateType (id : NodeId) (change : TypePart → TypePart) : Build Unit :=
  modify fun ⟨forest, stack⟩ =>
    match forest.kind id with
    | .type part => ⟨forest.setKind id (.type (change part)), stack⟩
    | _ => ⟨forest, stack⟩

/-- Marks a type as the one that a declaration takes. -/
def markTopLevel (id : NodeId) : Build Unit :=
  updateType id fun part => { part with topLevel := true }

/-- An integer. -/
def int (value : Int) (line : Nat) : Build Unit := push (.int value) line []

/-- A character. -/
def char (value : Char) (line : Nat) : Build Unit := push (.char value) line []

/-- A string, with no place yet. -/
def string (value : String) (line : Nat) : Build Unit := push (.string value none) line []

/-- A name used as an expression. -/
def identifier (name : String) (line : Nat) : Build Unit := push (.identifier name none) line []

/-- A type without parts below it. -/
def type (form : TypeForm) (line : Nat) : Build Unit := push (.type { form }) line []

/-- Makes the type on top constant. -/
def const (line : Nat) : Build Unit := do
  let id ← popType line
  updateType id fun part => { part with constant := true }
  modify fun builder => { builder with stack := id :: builder.stack }

/-- A pointer to the type on top. -/
def pointerType (line : Nat) : Build Unit := do
  let target ← popType line
  push (.type { form := .pointer }) line [target]

/-- An array of the type on top. -/
def arrayType (size : Option Nat) (line : Nat) : Build Unit := do
  let element ← popType line
  push (.type { form := .array size }) line [element]

/-- An operator between the two top expressions. -/
def binary (op : BinaryOp) (line : Nat) : Build Unit := do
  let right ← pop line
  let left ← pop line
  push (.binary op) line [left, right]

/-- An operator on the top expression. -/
def unary (op : UnaryOp) (line : Nat) : Build Unit := do
  let operand ← pop line
  push (.unary op) line [operand]

/-- An array with an index, which is on top. -/
def subscript (line : Nat) : Build Unit := do
  let index ← pop line
  let array ← pop line
  push .subscript line [array, index]

/-- A cast of the expression on top to the type below it. The cast becomes a note on the
expression, behind those that it has already. -/
def cast (line : Nat) : Build Unit := do
  let expr ← pop line
  let id ← popType line
  match (← get).forest.typeOf? id with
  | none => throw (.malformed "cast to an incomplete type" line)
  | some type =>
    modify fun builder =>
      { forest := builder.forest.addCast expr type, stack := expr :: builder.stack }

/-- A call with the `count` top expressions as arguments. -/
def call (name : String) (count line : Nat) : Build Unit := do
  let arguments ← popMany count line
  push (.call name none) line arguments

/-- A list of the `count` top expressions. -/
def initializers (count line : Nat) : Build Unit := do
  let items ← popMany count line
  push .initializers line items

/-- The operand of a part that may be absent. -/
def popIf (present : Bool) (line : Nat) : Build (List NodeId) := do
  if present then return [← pop line] else return []

/-- A variable with the initializer on top, if it has one, and its type below. -/
def declaration (name : String) (initialized : Bool) (line : Nat) : Build Unit := do
  let initial ← popIf initialized line
  let type ← popType line
  markTopLevel type
  push (.declaration name none) line (type :: initial)

/-- A parameter of the type on top. -/
def parameter (name : String) (line : Nat) : Build Unit := do
  let type ← popType line
  markTopLevel type
  push (.parameter name none) line [type]

/-- The `count` top parameters. -/
def parameters (count line : Nat) : Build Unit := do
  let params ← popMany count line
  push .parameters line params

/-- A function with the body on top, if it has one, then its parameters and its result type. -/
def function (name : String) (defined : Bool) (line : Nat) : Build Unit := do
  let body ← popIf defined line
  let params ← pop line
  let result ← popType line
  markTopLevel result
  push (.function name none) line (result :: params :: body)

/-- The top expression as a statement. -/
def exprStatement (line : Nat) : Build Unit := do
  let expr ← pop line
  push .exprStatement line [expr]

/-- The `count` top statements as one. -/
def block (count line : Nat) : Build Unit := do
  let statements ← popMany count line
  push .block line statements

/-- A choice: condition, branch and, on top, the other branch if it has one. -/
def ifElse (hasElse : Bool) (line : Nat) : Build Unit := do
  let parts ← popMany (if hasElse then 3 else 2) line
  push (.ifElse none) line parts

/-- A loop with its condition and, on top, its body. -/
def whileLoop (line : Nat) : Build Unit := do
  let parts ← popMany 2 line
  push (.whileLoop none) line parts

/-- A loop with start, condition, step and, on top, its body. -/
def forLoop (line : Nat) : Build Unit := do
  let parts ← popMany 4 line
  push (.forLoop none) line parts

/-- An absent clause or an empty statement. -/
def nothing (line : Nat) : Build Unit := push .nothing line []

/-- A return with the value on top, if it has one. -/
def giveBack (hasValue : Bool) (line : Nat) : Build Unit := do
  let value ← popIf hasValue line
  push .giveBack line value

/-- A jump behind the loop. -/
def breakOut (line : Nat) : Build Unit := push (.breakOut none) line []

/-- A jump to the next round of the loop. -/
def continueOn (line : Nat) : Build Unit := push (.continueOn none) line []

/-- The `count` top declarations as a file, which becomes the root. -/
def file (count line : Nat) : Build Unit := do
  let declarations ← popMany count line
  push .file line declarations
  modify fun builder =>
    match builder.stack with
    | [] => builder
    | id :: _ => { builder with forest := builder.forest.setRoot id }

end Build

/-- The finished forest. Exactly one operand has to be left, and it has to be a file. -/
def Builder.finish (builder : Builder) : Except Fault Forest :=
  match builder.stack with
  | [id] =>
    match builder.forest.kind id with
    | .file => .ok (builder.forest.setRoot id)
    | _ => .error (.malformed "the last node is not a file" (builder.forest.line id))
  | stack =>
    let line := (stack.head?.map builder.forest.line).getD 0
    .error (.malformed (toString stack.length ++ " nodes left on the operand stack") line)

end MiniC
