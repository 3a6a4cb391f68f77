import MiniC.Resolve.Expression

/-!
# Resolving statements

Declarations enter their names into the innermost scope, statements resolve the expressions in them,
and loops and choices get their labels. A function's parameters and the statements of its body share
a scope; every block, the body of a `while` loop and a whole `for` loop have one of their own.

The definitions take the resolver of smaller statements as `inner`; `statementWithin` ties the knot.
-/

namespace MiniC.Resolve

/-- Steps inside a scope of their own. -/
def inScope (steps : Resolve Unit) : Resolve Unit := do
  onTable (·.enter)
  steps
  onTable (·.leave)

/-- The steps for each node in turn. -/
def each (nodes : List NodeId) (steps : NodeId → Resolve Unit) : Resolve Unit :=
  match nodes with
  | [] => return
  | node :: others => do
    steps node
    each others steps

/-- The size in the brackets of a written type; the brackets may be empty, or there may be none. -/
def writtenSize (kind : Kind) : Option (Option Nat) :=
  match kind with
  | .type part =>
    match part.form with
    | .array size => some size
    | _ => none
  | _ => none

/-- A list of initializers, each brought to the type of the elements. Answers the type of the
variable, whose size may come from the list. -/
def initializerList (name : String) (line : Nat) (type : Ty) (size : Option (Option Nat))
    (list : NodeId) : Resolve Ty := do
  match type.element? with
  | none => refuse (.listInitializerForScalar name) line
  | some element =>
    annotate list
    let items := (← forest).children list
    each items fun item => do
      let item ← expression item
      let _ ← convert item element
    let type ←
      match size with
      | some none =>
        if items.isEmpty then refuse (.invalidArraySize name) line
        pure (Ty.array element items.length type.isConst)
      | some (some size) =>
        if size < items.length then refuse (.initializerTooLong name size) line
        pure type
      | none => pure type
    onForest (·.setType list type)
    return type

/-- The initializer of a variable, if it has one. Answers the type of the variable. -/
def initializer (id : NodeId) (name : String) (line : Nat) (type : Ty)
    (size : Option (Option Nat)) : Resolve Ty := do
  let forest ← forest
  match forest.child? id 1 with
  | none =>
    if size = some none then refuse (.invalidArraySize name) line
    return type
  | some initial =>
    if forest.kind initial = .initializers then initializerList name line type size initial
    else
      if type.isArray then refuse (.scalarArrayInitializer name) line
      let value ← expression initial
      let _ ← convert value type
      return type

/-- A variable. Its name is visible from behind its initializer on. -/
def declaration (id : NodeId) (name : String) : Resolve Unit := do
  let line := (← forest).line id
  let written ← child id 0
  let type ← writtenType id 0
  if type.isVoid || type.element?.any (·.isVoid) then refuse (.voidVariable name) line
  let size := writtenSize ((← forest).kind written)
  if size = some (some 0) then refuse (.invalidArraySize name) line
  let type ← initializer id name line type size
  onForest (·.setType id type)
  let frame := (← forest).owningFunction id
  let symbol ← declare { name, type, kind := .variableAt id, line, frame }
  onForest (·.bind id symbol)

/-- The type of a parameter. -/
def parameterType (param : NodeId) : Resolve Ty := do
  let forest ← forest
  match forest.kind param with
  | .parameter name _ =>
    let type ← writtenType param 0
    if type.isVoid then refuse (.voidVariable name) (forest.line param)
    return type
  | _ => malformed "expected a parameter" (forest.line param)

/-- The types of parameters, in order. -/
def parameterTypes : List NodeId → Resolve (List Ty)
  | [] => return []
  | param :: others => do
    let type ← parameterType param
    return type :: (← parameterTypes others)

/-- Lists of types that are the same in pairs. -/
def sameTypes : List Ty → List Ty → Bool
  | [], [] => true
  | a :: as, b :: bs => a.same b && sameTypes as bs
  | _, _ => false

/-- The symbol of a function. One that was declared before in the same scope has to agree with the
earlier declaration, and only one of them may have a body. -/
def functionSymbol (id : NodeId) (name : String) (line : Nat) (result : Ty) (params : List Ty)
    (hasBody : Bool) : Resolve SymbolId := do
  let table ← table
  match table.lookupCurrent name with
  | some earlier =>
    let previous := table.symbol earlier
    match previous.signature? with
    | none => refuse (.symbolAlreadyDeclared name previous.line) line
    | some signature =>
      if !previous.type.same result || !sameTypes signature.params params then
        refuse (.signatureMismatch name) line
      if hasBody && signature.defined then
        refuse (.symbolAlreadyDeclared name previous.line) line
      if hasBody then onTable (·.update earlier (·.setDefined true))
      return earlier
  | none =>
    let label ← functionLabel name
    let frame := (← forest).owningFunction id
    declare { name, type := result, line, frame,
              kind := .function { params, label, defined := hasBody } }

/-- Declares a parameter in the frame of its function. -/
def declareParameter (function : NodeId) (param : NodeId) (type : Ty) : Resolve Unit := do
  annotate param
  let forest ← forest
  match forest.kind param with
  | .parameter name _ =>
    let symbol ← declare
      { name, type, kind := .variableAt param, line := forest.line param, frame := some function }
    onForest fun forest => (forest.setType param type).bind param symbol
  | _ => return

/-- Declares parameters with their types. -/
def declareParameters (function : NodeId) : List NodeId → List Ty → Resolve Unit
  | param :: params, type :: types => do
    declareParameter function param type
    declareParameters function params types
  | _, _ => return

/-- A function, with or without a body. -/
def function (inner : NodeId → Resolve Unit) (id : NodeId) (name : String) : Resolve Unit := do
  let line := (← forest).line id
  let result ← writtenType id 0
  let list ← child id 1
  let params := (← forest).children list
  let types ← parameterTypes params
  let body := (← forest).child? id 2
  let symbol ← functionSymbol id name line result types body.isSome
  onForest fun forest => (forest.bind id symbol).setType id result
  match body with
  | none => annotate list
  | some body =>
    inScope do
      annotate list
      declareParameters id params types
      annotate body
      each ((← forest).children body) inner

/-- The condition in a slot, brought to an integer. -/
def condition (id : NodeId) (slot : Nat) : Resolve Unit := do
  let value ← expression (← child id slot)
  let _ ← convert value .int

/-- A choice. -/
def ifElse (inner : NodeId → Resolve Unit) (id : NodeId) : Resolve Unit := do
  let otherwise ← jumpLabel
  let finish ← jumpLabel
  onForest (·.setKind id (.ifElse (some { otherwise, finish })))
  condition id 0
  inner (← child id 1)
  match (← forest).child? id 2 with
  | some other => inner other
  | none => return

/-- A loop with a condition. -/
def whileLoop (inner : NodeId → Resolve Unit) (id : NodeId) : Resolve Unit := do
  let start ← jumpLabel
  let finish ← jumpLabel
  onForest (·.setKind id (.whileLoop (some { start, finish })))
  condition id 0
  let body ← child id 1
  inScope (inner body)

/-- A loop with three clauses. What the first one declares is visible in the whole loop. -/
def forLoop (inner : NodeId → Resolve Unit) (id : NodeId) : Resolve Unit := do
  let start ← jumpLabel
  let next ← jumpLabel
  let finish ← jumpLabel
  onForest (·.setKind id (.forLoop (some { start, next, finish })))
  inScope do
    inner (← child id 0)
    let test ← child id 1
    if (← forest).kind test = .nothing then annotate test else condition id 1
    inner (← child id 2)
    inner (← child id 3)

/-- A return, whose value is brought to the result type of the function. -/
def giveBack (id : NodeId) : Resolve Unit := do
  let forest ← forest
  let line := forest.line id
  match forest.owningFunction id with
  | none => refuse .returnOutsideFunction line
  | some function =>
    match forest.kind function with
    | .function name _ =>
      let result ← typeOf function
      match forest.child? id 0 with
      | some value =>
        if result.isVoid then refuse (.returnValueInVoidFunction name) line
        let value ← expression value
        let _ ← convert value (result.withConst false)
      | none =>
        if !result.isVoid then refuse (.missingReturnValue name) line
    | _ => malformed "return owner is not a function" line

/-- Where a jump in a loop leads: out of it, or to its next round. -/
def jumpTarget? (loop : Kind) (leaving : Bool) : Option Machine.Label :=
  match loop with
  | .whileLoop labels => labels.map fun labels => if leaving then labels.finish else labels.start
  | .forLoop labels => labels.map fun labels => if leaving then labels.finish else labels.next
  | _ => none

/-- A jump in the nearest loop around it. -/
def jump (id : NodeId) (leaving : Bool) : Resolve Unit := do
  let forest ← forest
  match forest.enclosingLoop id with
  | none =>
    refuse (.jumpOutsideLoop (if leaving then "break" else "continue")) (forest.line id)
  | some loop =>
    let target := jumpTarget? (forest.kind loop) leaving
    onForest (·.setKind id (if leaving then .breakOut target else .continueOn target))

/-- Resolves a statement that nests at most `levels` deep. -/
def statementWithin : Nat → NodeId → Resolve Unit
  | 0, id => exhausted id
  | levels + 1, id => do
    let inner := statementWithin levels
    annotate id
    let forest ← forest
    match forest.kind id with
    | .declaration name _ => declaration id name
    | .function name _ => function inner id name
    | .block => inScope (each (forest.children id) inner)
    | .exprStatement =>
      let _ ← expression (← child id 0)
    | .ifElse _ => ifElse inner id
    | .whileLoop _ => whileLoop inner id
    | .forLoop _ => forLoop inner id
    | .giveBack => giveBack id
    | .breakOut _ => jump id true
    | .continueOn _ => jump id false
    | .nothing => return
    | other => malformed (Structure.kind other ++ " is not a statement") (forest.line id)

/-- Resolves a statement. -/
def statement (id : NodeId) : Resolve Unit := do
  statementWithin ((← forest).size + 1) id

end MiniC.Resolve
