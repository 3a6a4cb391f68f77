import MiniC.Text.Quoted
import MiniC.Tree.Node

/-!
# Structural text

The text of a node kind with all its parts, as a malformed tree is reported: constructors with
their arguments in parentheses, records with named fields in braces.
-/

namespace MiniC.Structure

/-- A constructor around a text. -/
def wrap (name inner : String) : String := name ++ "(" ++ inner ++ ")"

/-- A record with named fields. -/
def record (name : String) (fields : List (String × String)) : String :=
  name ++ " \x7b " ++
    ", ".intercalate (fields.map fun (field, value) => field ++ ": " ++ value) ++ " \x7d"

/-- A value that may be absent. -/
def optional {α : Type} (text : α → String) : Option α → String
  | none => "None"
  | some value => wrap "Some" (text value)

/-- A truth value. -/
def truth (value : Bool) : String := if value then "true" else "false"

/-- A bound symbol. -/
def symbol (id : SymbolId) : String := wrap "SymbolId" (toString id)

/-- A label. -/
def label (name : Machine.Label) : String := Text.quoteString name.text

/-- A type. -/
def type : Ty → String
  | .base name constant =>
    record "Type" [("kind", (Ty.base name false).kind.name), ("constant", truth constant)]
  | .pointer target constant =>
    record "Type" [("kind", wrap "Pointer" (type target)), ("constant", truth constant)]
  | .array element size constant =>
    record "Type" [("kind", wrap "Array" (type element ++ ", " ++ toString size)),
      ("constant", truth constant)]

/-- The form of a part of a written type. -/
def form : TypeForm → String
  | .base name => (Ty.base name false).kind.name
  | .pointer => "Pointer"
  | .array size => record "Array" [("size", optional toString size)]

/-- A part of a written type. -/
def part (value : TypePart) : String :=
  record "TypeNode" [("kind", form value.form), ("constant", truth value.constant),
    ("top_level", truth value.topLevel)]

/-- The instruction of a coercion. -/
def instruction (change : Machine.Tag × Machine.Tag) : String :=
  (Machine.Instr.conv change.1 change.2).text

/-- A conversion. -/
def conversion (change : Conversion) : String :=
  record "Conversion" [("from", type change.source), ("to", type change.target),
    ("instruction", optional (fun tags => Text.quoteString (instruction tags)) change.coercion)]

/-- A kind with a name and a symbol. -/
def named (kind name : String) (bound : Option SymbolId) : String :=
  record kind [("name", Text.quoteString name), ("symbol", optional symbol bound)]

/-- The structural text of a kind. -/
def kind : Kind → String
  | .file => "File"
  | .type value => wrap "Type" (part value)
  | .int value => wrap "IntLiteral" (toString value)
  | .char value => wrap "CharLiteral" (Text.quoteChar value)
  | .string value pool =>
    record "StringLiteral" [("value", Text.quoteString value),
      ("pool_offset", optional toString pool)]
  | .identifier name bound => named "Identifier" name bound
  | .declaration name bound => named "Declaration" name bound
  | .initializers => "InitializerList"
  | .function name bound => named "FunctionDeclaration" name bound
  | .parameters => "FormalParameters"
  | .parameter name bound => named "FormalParameter" name bound
  | .call name bound => named "Call" name bound
  | .binary op => wrap "Binary" op.name
  | .unary op => wrap "Unary" op.name
  | .subscript => "Subscript"
  | .conversion change => wrap "Conversion" (conversion change)
  | .block => "Block"
  | .exprStatement => "ExprStatement"
  | .ifElse labels =>
    record "If" [("else_label", optional label (labels.map (·.otherwise))),
      ("end_label", optional label (labels.map (·.finish)))]
  | .whileLoop labels =>
    record "While" [("start_label", optional label (labels.map (·.start))),
      ("end_label", optional label (labels.map (·.finish)))]
  | .forLoop labels =>
    record "For" [("start_label", optional label (labels.map (·.start))),
      ("continue_label", optional label (labels.map (·.next))),
      ("end_label", optional label (labels.map (·.finish)))]
  | .giveBack => "Return"
  | .breakOut target => record "Break" [("label", optional label target)]
  | .continueOn target => record "Continue" [("label", optional label target)]
  | .nothing => "Nothing"

end MiniC.Structure
