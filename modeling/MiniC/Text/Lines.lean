/-!
# Lines of a source text

A line ends at a line feed; a carriage return right before it belongs to the line end. A text that
ends in a line feed has no empty line after it.
-/

namespace MiniC.Text

/-- The lines of a text, without their ends. -/
def splitLines : List Char → List (List Char)
  | [] => []
  | '\r' :: '\n' :: cs => [] :: splitLines cs
  | '\n' :: cs => [] :: splitLines cs
  | c :: cs =>
    match splitLines cs with
    | [] => [[c]]
    | line :: others => (c :: line) :: others

/-- Line `n` of a text, counted from one. -/
def getLine? (source : String) (n : Nat) : Option String :=
  if n = 0 then none else ((splitLines source.toList)[n - 1]?).map String.ofList

@[simp] theorem getLine?_zero (source : String) : getLine? source 0 = none := rfl

/-- How many lines end within a text. -/
def lineFeeds (cs : List Char) : Nat := cs.count '\n'

@[simp] theorem lineFeeds_nil : lineFeeds [] = 0 := rfl

@[simp] theorem lineFeeds_append (as bs : List Char) :
    lineFeeds (as ++ bs) = lineFeeds as + lineFeeds bs := List.count_append

end MiniC.Text
