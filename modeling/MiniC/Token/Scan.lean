import MiniC.Diagnostic
import MiniC.Text.Lines
import MiniC.Token.Escape
import MiniC.Token.Pattern

/-!
# Scanning a source text

`scan` cuts a source into lexemes. White space, directives and comments give no token; any other
lexeme gives one, on the line where the lexeme starts. The list ends in an end-of-input token. The
first place that no pattern fits, or an escape without meaning, is a fault on its line.
-/

namespace MiniC.Token

/-- The text between the quotes of a literal. -/
def literalBody (lexeme : List Char) : List Char := lexeme.tail.dropLast

/-- The kind and value that a lexeme of a pattern stands for, if it stands for a token. -/
def Pattern.read (pattern : Pattern) (lexeme : List Char) :
    Except Cause (Option (TokenKind × String)) :=
  match pattern with
  | .blank | .directive | .lineComment | .blockComment => .ok none
  | .word =>
    let value := String.ofList lexeme
    .ok (some ((TokenKind.ofWord? value).getD .identifier, value))
  | .number => .ok (some (.number, String.ofList lexeme))
  | .mark spelling kind => .ok (some (kind, spelling))
  | .string =>
    match unescape (literalBody lexeme) with
    | .ok value => .ok (some (.string, String.ofList value))
    | .error escape => .error (.unrecognisedToken (String.ofList escape))
  | .char =>
    match unescape (literalBody lexeme) with
    | .ok [value] => .ok (some (.charLiteral, String.singleton value))
    | .ok _ => .error (.unrecognisedToken (String.ofList lexeme))
    | .error escape => .error (.unrecognisedToken (String.ofList escape))

/-- The tokens of a text whose first character stands on `line`. -/
def scanFrom (line : Nat) (cs : List Char) : Except Fault (List Token) :=
  match cs with
  | [] => .ok [endOfInput line]
  | c :: rest =>
    match _h : Pattern.first? (c :: rest) with
    | none => .error ⟨.unrecognisedToken (String.singleton c), line⟩
    | some (pattern, length) =>
      let lexeme := (c :: rest).take length
      match pattern.read lexeme with
      | .error cause => .error ⟨cause, line⟩
      | .ok reading =>
        match scanFrom (line + Text.lineFeeds lexeme) ((c :: rest).drop length) with
        | .error fault => .error fault
        | .ok tokens =>
          match reading with
          | none => .ok tokens
          | some (kind, value) => .ok (⟨kind, value, line⟩ :: tokens)
termination_by cs.length
decreasing_by
  have := Pattern.first?_pos _h
  simp only [List.length_drop, List.length_cons]
  omega

/-- The tokens of a source text. -/
def scan (source : String) : Except Fault (List Token) :=
  scanFrom 1 source.toList

end MiniC.Token
