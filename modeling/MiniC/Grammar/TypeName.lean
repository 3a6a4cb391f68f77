import MiniC.Grammar.Parser
import MiniC.Grammar.Power

/-!
# Written types

A base type with `const` before it, followed by any number of `*` and `const`. The brackets of an
array belong to the name that is declared, not to the type.
-/

namespace MiniC.Grammar

open Parse

/-- The base type that a token stands for. -/
def baseType? : TokenKind → Option BaseTy
  | .int => some .int
  | .char => some .char
  | .void => some .void
  | _ => none

/-- Reads a base type. -/
def baseType : Parse BaseTy := do
  match baseType? (← kind) with
  | none => refuse "expected a type"
  | some name =>
    let _ ← advance
    return name

/-- A base type that becomes a node on its own line. -/
def plainType : Parse Unit := do
  let line ← line
  let name ← baseType
  build (.type (.base name) line)

/-- The rounds of `typeSuffix`. -/
def typeSuffixes (power : Power) : Nat → Parse Unit
  | 0 => exhausted
  | rounds + 1 => do
    if power.level < Power.postfixed.level then
      match ← kind with
      | .star =>
        let token ← advance
        build (.pointerType token.line)
        typeSuffixes power rounds
      | .const =>
        let token ← advance
        build (.const token.line)
        typeSuffixes power rounds
      | _ => return

/-- Any number of `*` and `const`, applied to the type on top of the operands. They bind as strongly
as an index does. -/
def typeSuffix (power : Power) : Parse Unit := do
  typeSuffixes power (← patience)

/-- A whole type. -/
def typeName (power : Power) : Parse Unit := do
  match ← kind with
  | .int | .char | .void => plainType
  | .const =>
    let token ← advance
    plainType
    build (.const token.line)
  | _ => refuse "expected a type"
  typeSuffix power

end MiniC.Grammar
