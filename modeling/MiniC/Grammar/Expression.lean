import MiniC.Grammar.TypeName
import MiniC.Literal

/-!
# Expressions

An expression is an operand and the operators behind it that bind more strongly than asked for.
Binary operators group to the left: what stands to the right of one binds more strongly than it.
Assignments group to the right. The definitions take the reader of smaller expressions as `inner`;
`expressionWithin` ties the knot.
-/

namespace MiniC.Grammar

open Parse

/-- A number that has to be in range. What is wrong with it is reported on the line of the token
behind it. -/
def literal (negative : Bool) (digits : String) (line : Nat) : Parse Unit := do
  match Literal.value? negative digits with
  | some value => build (.int value line)
  | none =>
    let text := if negative then "-" ++ digits else digits
    throw ⟨.numberParseError text, ← Parse.line⟩

/-- The rounds of `arguments`; `count` arguments have been read. -/
def argumentsFrom (inner : Power → Parse Unit) : Nat → Nat → Parse Nat
  | 0, _ => exhausted
  | rounds + 1, count => do
    if (← kind) = .closeParen then return count
    if 0 < count then
      let _ ← expect .comma
    inner .comma
    argumentsFrom inner rounds (count + 1)

/-- Arguments in parentheses, and how many there are. -/
def arguments (inner : Power → Parse Unit) : Parse Nat := do
  let _ ← expect .openParen
  let count ← argumentsFrom inner (← patience) 0
  let _ ← expect .closeParen
  return count

/-- An expression in parentheses, or a cast and its operand. -/
def group (inner : Power → Parse Unit) : Parse Unit := do
  let opening ← expect .openParen
  if (← kind).startsType then
    typeName .default
    let _ ← expect .closeParen
    inner .unary
    build (.cast opening.line)
  else
    inner .default
    let _ ← expect .closeParen

/-- An operator in front of its operand. A minus sign in front of a number belongs to the number, so
that a negative constant is seen as one. -/
def leading (inner : Power → Parse Unit) (op : UnaryOp) : Parse Unit := do
  let sign ← advance
  if op = .negate ∧ (← kind) = .number then
    let digits ← advance
    literal true digits.value sign.line
  else
    inner .unary
    build (.unary op sign.line)

/-- A literal, a name, a call, an expression in parentheses, or an operator with its operand. -/
def operand (inner : Power → Parse Unit) : Parse Unit := do
  let token ← current
  match token.kind with
  | .number =>
    let _ ← advance
    literal false token.value token.line
  | .charLiteral =>
    let _ ← advance
    build (.char (token.value.toList.headD '\x00') token.line)
  | .string =>
    let _ ← advance
    build (.string token.value token.line)
  | .identifier =>
    let _ ← advance
    if (← kind) = .openParen then
      let count ← arguments inner
      build (.call token.value count token.line)
    else build (.identifier token.value token.line)
  | .openParen => group inner
  | other =>
    match leading? other with
    | some op => leading inner op
    | none => unexpected

/-- What follows an operand, from its first token on. -/
def continueWith (inner : Power → Parse Unit) (power : Power) : Continuation → Parse Unit
  | .assign => do
    let sign ← advance
    inner .comma
    build (.binary .assign sign.line)
  | .binary op => do
    let sign ← advance
    inner power
    build (.binary op sign.line)
  | .subscript => do
    let opening ← advance
    inner .default
    let _ ← expect .closeBracket
    build (.subscript opening.line)
  | .step direction => do
    let sign ← advance
    build (.unary (.step .after direction) sign.line)

/-- The operators behind an operand that bind more strongly than `power`. -/
def operators (inner : Power → Parse Unit) (power : Power) : Nat → Parse Unit
  | 0 => exhausted
  | rounds + 1 => do
    match continuation? (← kind) with
    | none => return
    | some (strength, continuation) =>
      if strength.level ≤ power.level then return
      continueWith inner strength continuation
      operators inner power rounds

/-- An expression that nests at most `levels` deep. -/
def expressionWithin : Nat → Power → Parse Unit
  | 0, _ => exhausted
  | levels + 1, power => do
    operand (expressionWithin levels)
    operators (expressionWithin levels) power (← patience)

/-- An expression with the operators that bind more strongly than `power`. -/
def expression (power : Power) : Parse Unit := do
  expressionWithin (← patience) power

end MiniC.Grammar
