import MiniC.Text.Lines

/-!
# Cursors

A cursor is a place in a source text with its line. It moves by bytes of the encoded text and stops
at the end.
-/

namespace MiniC.Token

/-- A place in a named source text: what follows it, and its line. -/
structure Cursor where
  rest : List Char
  line : Nat
  file : String

namespace Cursor

/-- The start of a source; without a file name the source is that of an interactive shell. -/
def start (source : String) (file : Option String) : Cursor :=
  ⟨source.toList, 1, file.getD "shell"⟩

/-- What is left of a text after its first `bytes` bytes. -/
def dropBytes : Nat → List Char → List Char
  | 0, cs => cs
  | _, [] => []
  | bytes + 1, c :: cs => dropBytes (bytes + 1 - c.utf8Size) cs

/-- Moves past the next `bytes` bytes, or to the end, and counts the lines that end on the way. -/
def advance (cursor : Cursor) (bytes : Nat) : Cursor :=
  let rest := dropBytes bytes cursor.rest
  let passed := cursor.rest.take (cursor.rest.length - rest.length)
  { cursor with rest, line := cursor.line + Text.lineFeeds passed }

/-- The next character. -/
def next? (cursor : Cursor) : Option Char := cursor.rest.head?

/-- Nothing follows the cursor. -/
def atEnd (cursor : Cursor) : Bool := cursor.rest.isEmpty

end Cursor

end MiniC.Token
