import MiniC.Grammar.Expression

/-!
# Statements and declarations

Each reader leaves what it has read on the operand stack and answers how many nodes that are. Only
a declaration of several variables leaves more than one; where there is room for a single statement
it becomes a block. The definitions take the reader of smaller statements as `inner`;
`statementWithin` ties the knot.
-/

namespace MiniC.Grammar

open Parse

/-- A statement where there is room for one node. -/
def single (inner : Parse Nat) : Parse Unit := do
  let line ← line
  let count ← inner
  if count ≠ 1 then build (.block count line)

/-- The rounds of `block`; `count` nodes have been read. -/
def statementsFrom (inner : Parse Nat) : Nat → Nat → Parse Nat
  | 0, _ => exhausted
  | rounds + 1, count => do
    if (← get).hasTokens && (← kind) != .closeCurly then
      let more ← inner
      statementsFrom inner rounds (count + more)
    else return count

/-- Statements in braces. -/
def block (inner : Parse Nat) : Parse Nat := do
  let opening ← expect .openCurly
  let count ← statementsFrom inner (← patience) 0
  let _ ← expect .closeCurly
  build (.block count opening.line)
  return 1

/-- A base type with `const` on either side, and whether it had one. -/
def specifier : Parse (BaseTy × Bool) := do
  let before ← accept .const
  let name ← baseType
  let after ← accept .const
  return (name, before || after)

/-- The rounds of `initializerList`; `count` items have been read. -/
def itemsFrom : Nat → Nat → Parse Nat
  | 0, _ => exhausted
  | rounds + 1, count => do
    if (← kind) = .closeCurly then return count
    if 0 < count then
      let _ ← expect .comma
      if (← kind) = .closeCurly then return count
    expression .comma
    itemsFrom rounds (count + 1)

/-- Expressions in braces, perhaps with a comma behind the last. -/
def initializerList : Parse Unit := do
  let opening ← expect .openCurly
  let count ← itemsFrom (← patience) 0
  let _ ← expect .closeCurly
  build (.initializers count opening.line)

/-- The size of an array, if it is given. -/
def arraySize : Parse (Option Nat) := do
  if (← kind) = .number then
    let digits ← advance
    match Literal.size? digits.value with
    | some size => return some size
    | none => refuse "array size out of range"
  else return none

/-- The brackets and the initializer of a variable, behind its name. -/
def variableRest (name : String) (line : Nat) : Parse Unit := do
  if ← accept .openBracket then
    let size ← arraySize
    let _ ← expect .closeBracket
    build (.arrayType size line)
  let initialized ← accept .assignment
  if initialized then
    if (← kind) = .openCurly then initializerList else expression .comma
  build (.declaration name initialized line)

/-- A parameter. One declared with brackets is a pointer. -/
def parameter : Parse Unit := do
  typeName .default
  let name ← expectName "expected parameter name"
  if ← accept .openBracket then
    let _ ← accept .number
    let _ ← expect .closeBracket
    build (.pointerType name.line)
  build (.parameter name.value name.line)

/-- The rounds of `functionRest` for its parameters; `count` have been read. -/
def parametersFrom : Nat → Nat → Parse Nat
  | 0, _ => exhausted
  | rounds + 1, count => do
    if (← kind) = .closeParen then return count
    if 0 < count then
      let _ ← expect .comma
    parameter
    parametersFrom rounds (count + 1)

/-- The parameters and the body of a function, behind its name. -/
def functionRest (inner : Parse Nat) (name : String) (line : Nat) : Parse Unit := do
  let _ ← expect .openParen
  if (← kind) = .void ∧ (← get).peek 1 = .closeParen then
    let _ ← advance
  let count ← parametersFrom (← patience) 0
  let _ ← expect .closeParen
  build (.parameters count line)
  let defined := (← kind) = .openCurly
  if defined then
    let _ ← block inner
  else
    let _ ← expect .semicolon
  build (.function name defined line)

/-- The rounds of `declaration`; `count` variables have been read. Each name gets the written base
type anew, on the line of the declaration. -/
def declaratorsFrom (inner : Parse Nat) (base : BaseTy) (constant : Bool) (line : Nat) :
    Nat → Nat → Parse Nat
  | 0, _ => exhausted
  | rounds + 1, count => do
    build (.type (.base base) line)
    if constant then build (.const line)
    typeSuffix .default
    let name ← expectName "expected identifier in declaration"
    if count = 0 ∧ (← kind) = .openParen then
      functionRest inner name.value name.line
      return 1
    variableRest name.value name.line
    if ← accept .comma then
      declaratorsFrom inner base constant line rounds (count + 1)
    else
      let _ ← expect .semicolon
      return count + 1

/-- Variables of one base type, or a function. -/
def declaration (inner : Parse Nat) : Parse Nat := do
  let line ← line
  let (base, constant) ← specifier
  declaratorsFrom inner base constant line (← patience) 0

/-- A condition in parentheses. -/
def condition : Parse Unit := do
  let _ ← expect .openParen
  expression .default
  let _ ← expect .closeParen

/-- A choice. -/
def ifStatement (inner : Parse Nat) : Parse Nat := do
  let word ← advance
  condition
  single inner
  let hasElse ← accept .elseWord
  if hasElse then single inner
  build (.ifElse hasElse word.line)
  return 1

/-- A loop with a condition. -/
def whileStatement (inner : Parse Nat) : Parse Nat := do
  let word ← advance
  condition
  single inner
  build (.whileLoop word.line)
  return 1

/-- An expression that is a statement. -/
def exprClause (line : Nat) : Parse Unit := do
  expression .default
  build (.exprStatement line)

/-- The first clause of a `for` loop with its semicolon: one declaration, an expression, or
nothing. -/
def startClause (inner : Parse Nat) (line : Nat) : Parse Unit := do
  if ← accept .semicolon then build (.nothing line)
  else if (← kind).startsType then
    if (← declaration inner) ≠ 1 then
      refuse "expected a single declaration in for initializer"
  else
    expression .default
    let _ ← expect .semicolon
    build (.exprStatement line)

/-- A loop with three clauses, each of which may be absent. -/
def forStatement (inner : Parse Nat) : Parse Nat := do
  let word ← advance
  let _ ← expect .openParen
  startClause inner word.line
  if (← kind) = .semicolon then build (.nothing word.line) else expression .default
  let _ ← expect .semicolon
  if (← kind) = .closeParen then build (.nothing word.line) else exprClause word.line
  let _ ← expect .closeParen
  single inner
  build (.forLoop word.line)
  return 1

/-- A return, with or without a value. -/
def returnStatement : Parse Nat := do
  let word ← advance
  let hasValue := (← kind) ≠ .semicolon
  if hasValue then expression .default
  let _ ← expect .semicolon
  build (.giveBack hasValue word.line)
  return 1

/-- A jump out of a round of a loop or out of the loop. -/
def jumpStatement (jump : Nat → Build Unit) : Parse Nat := do
  let word ← advance
  let _ ← expect .semicolon
  build (jump word.line)
  return 1

/-- An expression with a semicolon. -/
def exprStatement : Parse Nat := do
  let line ← line
  expression .default
  let _ ← expect .semicolon
  build (.exprStatement line)
  return 1

/-- An empty statement. -/
def emptyStatement : Parse Nat := do
  let mark ← advance
  build (.nothing mark.line)
  return 1

/-- A statement that nests at most `levels` deep. -/
def statementWithin : Nat → Parse Nat
  | 0 => exhausted
  | levels + 1 => do
    let inner := statementWithin levels
    match ← kind with
    | .int | .char | .void | .const => declaration inner
    | .openCurly => block inner
    | .ifWord => ifStatement inner
    | .whileWord => whileStatement inner
    | .forWord => forStatement inner
    | .returnWord => returnStatement
    | .breakWord => jumpStatement Build.breakOut
    | .continueWord => jumpStatement Build.continueOn
    | .semicolon => emptyStatement
    | _ => exprStatement

/-- A statement. -/
def statement : Parse Nat := do
  statementWithin (← patience)

end MiniC.Grammar
