import MiniC.Emit.Expression

/-!
# Code of statements

The code of a statement leaves the stack as high as it was. The definitions take the code of smaller
statements as `inner`; `statementWithin` ties the knot.
-/

namespace MiniC.Emit

open Machine

variable (layout : Layout)

/-- Labels that resolution has to have drawn. -/
def drawn {α : Type} (labels : Option α) (line : Nat) : Emit α :=
  match labels with
  | some labels => return labels
  | none => malformed "jump target was never assigned" line

/-- Evaluates the condition in a slot and jumps if it is zero. -/
def jumpUnless (id : NodeId) (slot : Nat) (target : Label) : Emit Code := do
  let code ← expression layout (← ask (layout.child id slot))
  return code ++ [.conv .int .bool, .fjp target]

/-- Stores initializers into elements of `size` slots each, from `slot` on. -/
def initializers (tag : Tag) (size : Nat) : Nat → List NodeId → Emit Code
  | _, [] => return []
  | slot, item :: others => do
    let code ← expression layout item
    return code ++ [.str tag 0 slot] ++ (← initializers tag size (slot + size) others)

/-- The initializer of a variable, if it has one. A variable is kept in the frame of the code that
declares it. -/
def declaration (id : NodeId) : Emit Code := do
  let line := layout.forest.line id
  match layout.forest.child? id 1 with
  | none => return []
  | some initial =>
    let symbol ← ask (layout.symbolOf id)
    let slot ← ask (layout.offsetOf symbol line)
    let type := (layout.table.symbol symbol).type
    if layout.forest.kind initial = .initializers then
      match type.element? with
      | none => malformed "initializer list for a scalar" line
      | some element =>
        let tag ← tagOf element line
        initializers layout tag element.slots slot (layout.forest.children initial)
    else
      let code ← expression layout initial
      return code ++ [.str (← tagOf type line) 0 slot]

/-- A choice. -/
def ifElse (inner : NodeId → Emit Code) (id : NodeId) (labels : IfLabels) : Emit Code := do
  match layout.forest.child? id 2 with
  | none =>
    let test ← jumpUnless layout id 0 labels.finish
    let yes ← inner (← ask (layout.child id 1))
    return test ++ yes ++ [.label labels.finish]
  | some other =>
    let test ← jumpUnless layout id 0 labels.otherwise
    let yes ← inner (← ask (layout.child id 1))
    let no ← inner other
    return test ++ yes ++ [.ujp labels.finish, .label labels.otherwise] ++ no ++
      [.label labels.finish]

/-- A loop with a condition. -/
def whileLoop (inner : NodeId → Emit Code) (id : NodeId) (labels : WhileLabels) : Emit Code := do
  let test ← jumpUnless layout id 0 labels.finish
  let body ← inner (← ask (layout.child id 1))
  return [.label labels.start] ++ test ++ body ++ [.ujp labels.start, .label labels.finish]

/-- A loop with three clauses. Without a condition it goes on until it is left. -/
def forLoop (inner : NodeId → Emit Code) (id : NodeId) (labels : ForLabels) : Emit Code := do
  let start ← inner (← ask (layout.child id 0))
  let condition ← ask (layout.child id 1)
  let test ← if layout.forest.kind condition = .nothing then pure []
    else jumpUnless layout id 1 labels.finish
  let body ← inner (← ask (layout.child id 3))
  let next ← inner (← ask (layout.child id 2))
  return start ++ [.label labels.start] ++ test ++ body ++ [.label labels.next] ++ next ++
    [.ujp labels.start, .label labels.finish]

/-- A return. A value goes into the result slot. -/
def giveBack (id : NodeId) : Emit Code := do
  match layout.forest.child? id 0 with
  | none => return [.retp]
  | some value =>
    let code ← expression layout value
    let tag ← tagOf (← ask (layout.typeOf value)) (layout.forest.line id)
    return code ++ [.str tag 0 0, .retf]

/-- The code of a statement that nests at most `levels` deep. The code of a function stands
elsewhere. -/
def statementWithin : Nat → NodeId → Emit Code
  | 0, id => malformed "nodes nest deeper than there are nodes" (layout.forest.line id)
  | levels + 1, id => do
    let inner := statementWithin levels
    let line := layout.forest.line id
    match layout.forest.kind id with
    | .declaration .. => declaration layout id
    | .function .. => return []
    | .block => inOrder inner (layout.forest.children id)
    | .exprStatement => discarded layout (← ask (layout.child id 0))
    | .ifElse labels => ifElse layout inner id (← drawn labels line)
    | .whileLoop labels => whileLoop layout inner id (← drawn labels line)
    | .forLoop labels => forLoop layout inner id (← drawn labels line)
    | .giveBack => giveBack layout id
    | .breakOut target | .continueOn target => return [.ujp (← drawn target line)]
    | .nothing => return []
    | other => malformed (Structure.kind other ++ " is not a statement") line

/-- The code of a statement. -/
def statement (id : NodeId) : Emit Code :=
  statementWithin layout (layout.forest.size + 1) id

end MiniC.Emit
