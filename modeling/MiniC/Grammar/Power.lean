import MiniC.Operator
import MiniC.Token

/-!
# Binding powers

How strongly an operator holds its operands together. An expression read at some power takes in the
operators behind it that bind more strongly.
-/

namespace MiniC.Grammar

/-- Binding powers, the weakest first. -/
inductive Power
  | default
  | comma
  | assignment
  | logicalOr
  | logicalAnd
  | equality
  | relational
  | additive
  | multiplicative
  | unary
  | postfixed
  | primary
  deriving DecidableEq, Repr, Inhabited

namespace Power

/-- Every power, the weakest first. -/
def all : List Power := [
  default, comma, assignment, logicalOr, logicalAnd, equality, relational, additive,
  multiplicative, unary, postfixed, primary]

/-- The place of a power among all. -/
def level (power : Power) : Nat := power.ctorIdx

/-- The name of a power. -/
def name : Power → String
  | default => "Default"
  | comma => "Comma"
  | assignment => "Assignment"
  | logicalOr => "LogicalOr"
  | logicalAnd => "LogicalAnd"
  | equality => "Equality"
  | relational => "Relational"
  | additive => "Additive"
  | multiplicative => "Multiplicative"
  | unary => "Unary"
  | postfixed => "Postfix"
  | primary => "Primary"

end Power

/-- What can follow a finished operand. -/
inductive Continuation
  /-- An assignment, which groups to the right. -/
  | assign
  /-- A binary operator, which groups to the left. -/
  | binary (op : BinaryOp)
  /-- An index in brackets. -/
  | subscript
  /-- A step behind the operand. -/
  | step (direction : Direction)
  deriving DecidableEq, Repr

/-- What a token that follows an operand starts, and how strongly it binds. -/
def continuation? : TokenKind → Option (Power × Continuation)
  | .assignment => some (.assignment, .assign)
  | .or => some (.logicalOr, .binary (.logic .or))
  | .and => some (.logicalAnd, .binary (.logic .and))
  | .equals => some (.equality, .binary (.compare .equal))
  | .notEquals => some (.equality, .binary (.compare .notEqual))
  | .less => some (.relational, .binary (.compare .less))
  | .lessEquals => some (.relational, .binary (.compare .lessEqual))
  | .greater => some (.relational, .binary (.compare .greater))
  | .greaterEquals => some (.relational, .binary (.compare .greaterEqual))
  | .plus => some (.additive, .binary (.arith .add))
  | .dash => some (.additive, .binary (.arith .sub))
  | .star => some (.multiplicative, .binary (.arith .mul))
  | .slash => some (.multiplicative, .binary (.arith .div))
  | .percent => some (.multiplicative, .binary .remainder)
  | .openBracket => some (.postfixed, .subscript)
  | .plusPlus => some (.postfixed, .step .up)
  | .minusMinus => some (.postfixed, .step .down)
  | _ => none

/-- The operator that a token in front of an operand stands for. -/
def leading? : TokenKind → Option UnaryOp
  | .dash => some .negate
  | .not => some .not
  | .star => some .deref
  | .ampersand => some .addressOf
  | .plusPlus => some (.step .before .up)
  | .minusMinus => some (.step .before .down)
  | _ => none

end MiniC.Grammar
