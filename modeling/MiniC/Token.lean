/-!
# Tokens

A token has a kind, a value and the line on which it starts. Reserved words and punctuation marks
have one spelling each (`TokenKind.reservedWords`, `TokenKind.marks`); the other kinds carry their
value.
-/

namespace MiniC

/-- The kinds of tokens of the language. -/
inductive TokenKind
  | eof
  | number | string | charLiteral | identifier
  | openBracket | closeBracket | openCurly | closeCurly | openParen | closeParen
  | assignment | equals | not | notEquals
  | less | lessEquals | greater | greaterEquals
  | or | and | ampersand
  | semicolon | comma
  | plusPlus | minusMinus
  | plus | dash | slash | star | percent
  | int | char | void | const
  | ifWord | elseWord | whileWord | forWord | returnWord | breakWord | continueWord
  deriving DecidableEq, Repr, Inhabited

namespace TokenKind

/-- The name under which listings and diagnostics show a kind. -/
def name : TokenKind → String
  | eof => "EOF"
  | number => "Number"
  | string => "String"
  | charLiteral => "CharLiteral"
  | identifier => "Identifier"
  | openBracket => "OpenBracket"
  | closeBracket => "CloseBracket"
  | openCurly => "OpenCurly"
  | closeCurly => "CloseCurly"
  | openParen => "OpenParen"
  | closeParen => "CloseParen"
  | assignment => "Assignment"
  | equals => "Equals"
  | not => "Not"
  | notEquals => "NotEquals"
  | less => "Less"
  | lessEquals => "LessEquals"
  | greater => "Greater"
  | greaterEquals => "GreaterEquals"
  | or => "Or"
  | and => "And"
  | ampersand => "Ampersand"
  | semicolon => "Semicolon"
  | comma => "Comma"
  | plusPlus => "PlusPlus"
  | minusMinus => "MinusMinus"
  | plus => "Plus"
  | dash => "Dash"
  | slash => "Slash"
  | star => "Star"
  | percent => "Percent"
  | int => "Int"
  | char => "Char"
  | void => "Void"
  | const => "Const"
  | ifWord => "If"
  | elseWord => "Else"
  | whileWord => "While"
  | forWord => "For"
  | returnWord => "Return"
  | breakWord => "Break"
  | continueWord => "Continue"

/-- The reserved words and the kinds that they stand for. -/
def reservedWords : List (String × TokenKind) := [
  ("int", int), ("char", char), ("void", void), ("const", const),
  ("if", ifWord), ("else", elseWord), ("while", whileWord), ("for", forWord),
  ("return", returnWord), ("break", breakWord), ("continue", continueWord)]

/-- The kind of a reserved word. -/
def ofWord? (word : String) : Option TokenKind :=
  reservedWords.lookup word

/-- The punctuation marks. A mark stands before every shorter one that it starts with. -/
def marks : List (String × TokenKind) := [
  ("[", openBracket), ("]", closeBracket), ("\x7b", openCurly), ("\x7d", closeCurly),
  ("(", openParen), (")", closeParen),
  ("==", equals), ("!=", notEquals), ("!", not), ("=", assignment),
  ("<=", lessEquals), ("<", less), (">=", greaterEquals), (">", greater),
  ("||", or), ("&&", and), ("&", ampersand), (";", semicolon), (",", comma),
  ("++", plusPlus), ("--", minusMinus), ("+", plus), ("-", dash),
  ("/", slash), ("*", star), ("%", percent)]

/-- Every kind. -/
def all : List TokenKind :=
  [eof, number, string, charLiteral, identifier] ++ marks.map (·.2) ++ reservedWords.map (·.2)

theorem mem_all (kind : TokenKind) : kind ∈ all := by cases kind <;> decide

/-- The kinds that start a type specifier. -/
def startsType : TokenKind → Bool
  | int | char | void | const => true
  | _ => false

/-- The kinds whose tokens differ in their value. -/
def carriesValue : TokenKind → Bool
  | string | charLiteral | identifier | number => true
  | _ => false

end TokenKind

/-- A token and the line on which its lexeme starts. -/
structure Token where
  kind : TokenKind
  value : String
  line : Nat
  deriving DecidableEq, Repr, Inhabited

namespace Token

/-- The token that closes every token list. -/
def endOfInput (line : Nat) : Token := ⟨.eof, "EOF", line⟩

/-- How listings show a token: its kind, with the value where tokens of the kind differ in it. -/
def text (token : Token) : String :=
  if token.kind.carriesValue then token.kind.name ++ " (" ++ token.value ++ ")"
  else token.kind.name

end Token

end MiniC
