import MiniC.Text.Blank
import MiniC.Token
import MiniC.Token.Escape

/-!
# Lexical patterns

A pattern says how many characters it takes from the start of a text (`Pattern.length?`). The
patterns of the language stand in `Pattern.table`; where several take something, the first one is
used (`Pattern.first?`). No pattern takes an empty lexeme (`Pattern.length?_pos`).
-/

namespace MiniC.Token

/-- A letter or an underscore. -/
def isWordStart (c : Char) : Bool := c.isAlpha || c == '_'

/-- A letter, a digit or an underscore. -/
def isWordChar (c : Char) : Bool := isWordStart c || c.isDigit

/-- The kinds of lexemes. -/
inductive Pattern
  /-- An identifier or a reserved word. -/
  | word
  /-- Decimal digits. -/
  | number
  /-- White space. -/
  | blank
  /-- A string literal, closed on its line. -/
  | string
  /-- A character literal: one character or one escape. -/
  | char
  /-- A line that starts with `#`. -/
  | directive
  /-- A comment up to the end of the line. -/
  | lineComment
  /-- A comment up to the first closing mark. -/
  | blockComment
  /-- A punctuation mark. -/
  | mark (spelling : String) (kind : TokenKind)
  deriving DecidableEq, Repr

namespace Pattern

/-- The length of the longest run of characters with `p`, if there is one. -/
def run? (p : Char → Bool) (cs : List Char) : Option Nat :=
  match (cs.takeWhile p).length with
  | 0 => none
  | n + 1 => some (n + 1)

/-- The length of the rest of a string literal after its opening quote. -/
def stringRest? : List Char → Option Nat
  | '"' :: _ => some 1
  | '\\' :: c :: cs => if c = '\n' then none else (stringRest? cs).map (· + 2)
  | c :: cs => if c = '\\' ∨ c = '\n' then none else (stringRest? cs).map (· + 1)
  | [] => none

/-- The length of the rest of a hexadecimal character literal after the quote and `\x`: one or two
digits and the closing quote. -/
def hexRest? : List Char → Option Nat
  | a :: '\'' :: _ => if (hexValue? a).isSome then some 2 else none
  | a :: b :: '\'' :: _ => if (hexValue? a).isSome && (hexValue? b).isSome then some 3 else none
  | _ => none

/-- The length of the rest of a character literal after its opening quote. -/
def charRest? : List Char → Option Nat
  | '\\' :: c :: '\'' :: _ => if c = '\n' then none else some 3
  | '\\' :: 'x' :: cs => (hexRest? cs).map (· + 2)
  | c :: '\'' :: _ => if c = '\'' ∨ c = '\\' ∨ c = '\n' then none else some 2
  | _ => none

/-- The length of a text up to the end of its first `*/`. -/
def commentRest? : List Char → Option Nat
  | '*' :: '/' :: _ => some 2
  | _ :: cs => (commentRest? cs).map (· + 1)
  | [] => none

/-- The number of characters before the end of the line. -/
def lineRest (cs : List Char) : Nat := (cs.takeWhile (· != '\n')).length

/-- How many characters a pattern takes from the start of a text. -/
def length? : Pattern → List Char → Option Nat
  | word, c :: cs => if isWordStart c then some ((cs.takeWhile isWordChar).length + 1) else none
  | number, cs => run? Char.isDigit cs
  | blank, cs => run? Text.isBlank cs
  | string, '"' :: cs => (stringRest? cs).map (· + 1)
  | char, '\'' :: cs => (charRest? cs).map (· + 1)
  | directive, '#' :: cs => some (lineRest cs + 1)
  | lineComment, '/' :: '/' :: cs => some (lineRest cs + 2)
  | blockComment, '/' :: '*' :: cs => (commentRest? cs).map (· + 2)
  | mark spelling _, cs =>
    if spelling.toList.isPrefixOf cs then
      match spelling.toList.length with
      | 0 => none
      | n + 1 => some (n + 1)
    else none
  | _, _ => none

/-- The patterns of the language, in the order in which they are tried. -/
def table : List Pattern :=
  [word, number, blank, string, char, directive, lineComment, blockComment] ++
    TokenKind.marks.map fun (spelling, kind) => mark spelling kind

/-- The first pattern that takes something from the start of a text, with the length it takes. -/
def first? (cs : List Char) : Option (Pattern × Nat) :=
  table.findSome? fun pattern => (pattern.length? cs).map (pattern, ·)

theorem run?_pos {p : Char → Bool} {cs : List Char} {n : Nat} (h : run? p cs = some n) :
    0 < n := by
  unfold run? at h
  split at h
  · cases h
  · rw [← Option.some.inj h]
    exact Nat.succ_pos _

/-- No pattern takes an empty lexeme. -/
theorem length?_pos {pattern : Pattern} {cs : List Char} {n : Nat}
    (h : pattern.length? cs = some n) : 0 < n := by
  unfold length? at h
  split at h
  case h_1 =>
    split at h
    · rw [← Option.some.inj h]
      exact Nat.succ_pos _
    · cases h
  case h_2 | h_3 => exact run?_pos h
  case h_4 | h_5 | h_8 =>
    obtain ⟨m, -, rfl⟩ := Option.map_eq_some_iff.1 h
    exact Nat.succ_pos _
  case h_6 | h_7 =>
    rw [← Option.some.inj h]
    exact Nat.succ_pos _
  case h_9 =>
    split at h
    · split at h
      · cases h
      · rw [← Option.some.inj h]
        exact Nat.succ_pos _
    · cases h
  case h_10 => cases h

/-- A mark takes its spelling. -/
theorem of_length?_mark {spelling : String} {kind : TokenKind} {cs : List Char} {n : Nat}
    (h : (mark spelling kind).length? cs = some n) :
    spelling.toList <+: cs ∧ n = spelling.toList.length := by
  simp only [length?] at h
  split at h
  · next hfront =>
    refine ⟨List.isPrefixOf_iff_prefix.mp hfront, ?_⟩
    split at h
    · cases h
    · next k hk => rw [← Option.some.inj h, hk]
  · cases h

theorem first?_spec {cs : List Char} {pattern : Pattern} {n : Nat}
    (h : first? cs = some (pattern, n)) : pattern ∈ table ∧ pattern.length? cs = some n := by
  obtain ⟨other, hmem, hother⟩ := List.exists_of_findSome?_eq_some h
  obtain ⟨taken, htaken, heq⟩ := Option.map_eq_some_iff.mp hother
  obtain ⟨rfl, rfl⟩ := Prod.mk.inj heq
  exact ⟨hmem, htaken⟩

theorem first?_pos {cs : List Char} {pattern : Pattern} {n : Nat}
    (h : first? cs = some (pattern, n)) : 0 < n := length?_pos (first?_spec h).2

end Pattern

end MiniC.Token
