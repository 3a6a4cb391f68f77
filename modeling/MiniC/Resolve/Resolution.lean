import MiniC.Scope
import MiniC.Session
import MiniC.Tree.Coerce
import MiniC.Tree.Structure

/-!
# Resolutions

Resolving a program finds out what its names stand for and what types its expressions have. A
resolution holds the program with what has been found so far. `Resolve` is the type of its steps; a
refused step keeps the state that it has reached.
-/

namespace MiniC

/-- A program under resolution. -/
structure Resolution where
  forest : Forest
  table : SymbolTable := {}
  session : Session := {}
  /-- Calls of functions that had no body yet, with their lines. -/
  pending : List (SymbolId × Nat) := []
  deriving Inhabited

/-- Steps of resolution. -/
abbrev Resolve := EStateM Fault Resolution

namespace Resolve

/-- The forest as it is. -/
def forest : Resolve Forest := return (← get).forest

/-- The symbol table as it is. -/
def table : Resolve SymbolTable := return (← get).table

/-- Changes the forest. -/
def onForest (change : Forest → Forest) : Resolve Unit :=
  modify fun state => { state with forest := change state.forest }

/-- Changes the symbol table. -/
def onTable (change : SymbolTable → SymbolTable) : Resolve Unit :=
  modify fun state => { state with table := change state.table }

/-- Refuses the program. -/
def refuse {α : Type} (cause : Cause) (line : Nat) : Resolve α := throw ⟨cause, line⟩

/-- The tree does not have the shape that its kinds ask for. -/
def malformed {α : Type} (message : String) (line : Nat) : Resolve α :=
  throw (.malformed message line)

/-- Resolution has gone deeper than there are nodes. -/
def exhausted {α : Type} (id : NodeId) : Resolve α := do
  malformed "nodes nest deeper than there are nodes" ((← forest).line id)

/-- Notes on a node how many scopes are open and which function is around it. -/
def annotate (id : NodeId) : Resolve Unit := do
  let scope := (← table).depth
  onForest fun forest =>
    let function := forest.owningFunction id
    forest.update id fun node => { node with scope, function }

/-- The child in a slot, which has to be there. -/
def child (id : NodeId) (slot : Nat) : Resolve NodeId := do
  let forest ← forest
  match forest.child? id slot with
  | some child => return child
  | none =>
    malformed ("missing child " ++ toString slot ++ " of " ++ Structure.kind (forest.kind id))
      (forest.line id)

/-- The type that is written in a slot. -/
def writtenType (id : NodeId) (slot : Nat) : Resolve Ty := do
  let written ← child id slot
  let forest ← forest
  match forest.typeOf? written with
  | some type => return type
  | none => malformed "expected a type" (forest.line written)

/-- The type that has been found for a node. -/
def typeOf (id : NodeId) : Resolve Ty := do
  let forest ← forest
  match forest.type? id with
  | some type => return type
  | none => malformed "expression left untyped" (forest.line id)

/-- Gives an expression a type, and answers what stands in its place. -/
def convert (id : NodeId) (target : Ty) : Resolve NodeId := do
  match (← forest).convert id target with
  | .error fault => throw fault
  | .ok (forest, id) =>
    onForest fun _ => forest
    return id

/-- Brings an operand to a common type, and answers what stands in its place. -/
def promote (id : NodeId) (common : Ty) : Resolve NodeId := do
  match (← forest).promote id common with
  | .error fault => throw fault
  | .ok (forest, id) =>
    onForest fun _ => forest
    return id

/-- Declares a symbol in the innermost scope. -/
def declare (symbol : Symbol) : Resolve SymbolId := do
  match (← table).declare symbol with
  | .error fault => throw fault
  | .ok (table, id) =>
    onTable fun _ => table
    return id

/-- Draws a jump target. -/
def jumpLabel : Resolve Machine.Label :=
  modifyGet fun state =>
    let (label, session) := state.session.jumpLabel
    (label, { state with session })

/-- Draws the label of a function. -/
def functionLabel (name : String) : Resolve Machine.Label :=
  modifyGet fun state =>
    let (label, session) := state.session.functionLabel name
    (label, { state with session })

end Resolve

end MiniC
