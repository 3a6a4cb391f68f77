import MiniC.Text.Quoted
import MiniC.Tree.Forest

/-!
# Tree listings

A listing has a line for every node, indented by its level: what the node is, and its type once one
has been found.
-/

namespace MiniC

/-- The word for the form of a written type. -/
def TypeForm.title : TypeForm → String
  | .base name => (Ty.base name false).kind.name ++ "Type"
  | .pointer => "PointerType"
  | .array none => "ArrayType[]"
  | .array (some size) => "ArrayType[" ++ toString size ++ "]"

/-- What a node of a kind is. -/
def Kind.title : Kind → String
  | file => "File"
  | type part => part.form.title ++ if part.constant then " const" else ""
  | int value => "Int: " ++ toString value
  | char value => "Char: " ++ Text.quoteChar value
  | string value _ => "String: " ++ Text.quoteString value
  | identifier name _ => "Identifier: " ++ name
  | declaration name _ => "Declaration: " ++ name
  | initializers => "InitializerList"
  | function name _ => "FunctionDeclaration: " ++ name
  | parameters => "FormalParameters"
  | parameter name _ => "FormalParameter: " ++ name
  | call name _ => "Call: " ++ name
  | binary op => "Binary: " ++ op.symbol
  | unary op => "Unary: " ++ op.text
  | subscript => "Subscript"
  | conversion change => "Conversion: " ++ change.source.text ++ " -> " ++ change.target.text
  | block => "Block"
  | exprStatement => "ExprStatement"
  | ifElse _ => "If"
  | whileLoop _ => "While"
  | forLoop _ => "For"
  | giveBack => "Return"
  | breakOut _ => "Break"
  | continueOn _ => "Continue"
  | nothing => "Nothing"

/-- The line of a node at a level, without its end. -/
def Node.entry (node : Node) (level : Nat) : String :=
  String.ofList (List.replicate level '\t') ++ node.kind.title ++
    match node.type with
    | none => ""
    | some type => " <" ++ type.text ++ ">"

/-- The listing of a node and all below it. -/
def Forest.listing (forest : Forest) (id : NodeId) : String :=
  String.join ((forest.outline id).map fun (node, level) =>
    (forest.node node).entry level ++ "\n")

end MiniC
