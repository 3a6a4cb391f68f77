import MiniC.Token
import MiniC.Tree.Build

/-!
# Parsers

A parser reads a list of tokens from the left and builds a tree. At the end of the list it keeps
seeing the last token, which is the end of input. `Parse` is the type of its steps: a refused step
keeps the tokens read and the nodes built so far.

Every loop and every nesting of the grammar reads a token in each round. `patience` is one more than
the tokens that are left, so rounds that number no more than it never run out.
-/

namespace MiniC

/-- What a parser has before it and what it has built. -/
structure Parser where
  /-- The tokens not yet read. -/
  rest : List Token
  /-- What is seen after them. -/
  last : Token
  builder : Builder := {}
  deriving Inhabited

namespace Parser

/-- A parser in front of a list of tokens. -/
def start (tokens : List Token) : Parser :=
  { rest := tokens, last := tokens.getLast?.getD (.endOfInput 1) }

/-- The token in front. -/
def current (parser : Parser) : Token := parser.rest.headD parser.last

/-- The kind of the token `ahead` places behind the one in front. -/
def peek (parser : Parser) (ahead : Nat) : TokenKind :=
  (parser.rest[ahead]?.map (·.kind)).getD .eof

/-- Whether there is a token other than the end of input. -/
def hasTokens (parser : Parser) : Bool :=
  !parser.rest.isEmpty && parser.current.kind != .eof

end Parser

/-- Steps of parsing. A refused step keeps the state that it has reached. -/
abbrev Parse := EStateM Fault Parser

namespace Parse

/-- A step of construction. -/
def build {α : Type} (step : Build α) : Parse α := fun ⟨rest, last, builder⟩ =>
  match step builder with
  | .ok value builder => .ok value ⟨rest, last, builder⟩
  | .error fault builder => .error fault ⟨rest, last, builder⟩

/-- The token in front. -/
def current : Parse Token := return (← get).current

/-- The kind of the token in front. -/
def kind : Parse TokenKind := return (← get).current.kind

/-- The line of the token in front. -/
def line : Parse Nat := return (← get).current.line

/-- Reads the token in front. -/
def advance : Parse Token := do
  let parser ← get
  set { parser with rest := parser.rest.tail }
  return parser.current

/-- The token in front fits nowhere. -/
def unexpected {α : Type} : Parse α := do
  let token ← current
  throw ⟨.unexpectedToken token.value, token.line⟩

/-- What is wrong with the token in front, with an explanation. -/
def complaint (message : String) : Parse Fault := do
  let token ← current
  return ⟨.unexpectedTokenDetailed token.value message, token.line⟩

/-- The token in front is refused with an explanation. -/
def refuse {α : Type} (message : String) : Parse α := do
  throw (← complaint message)

/-- Reads a token that has to be of a kind. -/
def expect (kind : TokenKind) : Parse Token := do
  if (← Parse.kind) = kind then advance else unexpected

/-- Reads a name; anything else is refused with an explanation. -/
def expectName (message : String) : Parse Token := do
  if (← kind) = .identifier then advance else refuse message

/-- Reads the token in front if it is of a kind. -/
def accept (kind : TokenKind) : Parse Bool := do
  if (← Parse.kind) = kind then
    let _ ← advance
    return true
  else return false

/-- Rounds that a loop or a nesting can have. -/
def patience : Parse Nat := return (← get).rest.length + 1

/-- A loop or a nesting has had more rounds than there are tokens. -/
def exhausted {α : Type} : Parse α := do
  throw (.malformed "parts nest deeper than there are tokens" (← line))

end Parse

end MiniC
