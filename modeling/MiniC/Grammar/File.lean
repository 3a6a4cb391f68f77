import MiniC.Grammar.Statement
import MiniC.Token.Scan

/-!
# Source files

A file is a list of declarations: variables, functions without a body and functions with one.
-/

namespace MiniC.Grammar

open Parse

/-- The rounds of `file`; `count` declarations have been read. -/
def declarationsFrom : Nat → Nat → Parse Nat
  | 0, _ => exhausted
  | rounds + 1, count => do
    if (← get).hasTokens then
      if !(← kind).startsType then
        refuse "expected a declaration at file level"
      let more ← declaration statement
      declarationsFrom rounds (count + more)
    else return count

/-- A whole file, which stands on line one. -/
def file : Parse Unit := do
  let count ← declarationsFrom (← patience) 0
  build (.file count 1)

/-- The tree of a list of tokens. -/
def parse (tokens : List Token) : Except Fault Forest :=
  match file (Parser.start tokens) with
  | .ok _ parser => parser.builder.finish
  | .error fault _ => .error fault

/-- The tree of a source text. -/
def read (source : String) : Except Fault Forest := do
  parse (← Token.scan source)

end MiniC.Grammar
