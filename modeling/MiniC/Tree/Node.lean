import MiniC.Machine.Operand
import MiniC.Operator
import MiniC.Ty.Conversion

/-!
# Syntax nodes

A node has a kind, a line, and links to its parent and its children. What later steps find out about
it (scope, owning function, type, bound symbol, labels, place of a string) is kept in the node.

The children of a node by its kind:

* `file`: declarations and functions; `block`: statements; `initializers`: expressions;
* `type`: the target of a pointer or the element of an array; a base type has none;
* `declaration`: type, then the initializer if any; `parameter`: type;
* `function`: result type, `parameters`, then the body if any;
* `call`: arguments; `binary`: left, right; `unary` and `conversion`: operand;
* `subscript`: array, index;
* `ifElse`: condition, branch, then the other branch if any; `whileLoop`: condition, body;
* `forLoop`: start, condition, step, body, each absent clause a `nothing`;
* `exprStatement`: expression; `giveBack`: the value if any.
-/

namespace MiniC

/-- A node is known by its place in the store. -/
abbrev NodeId := Nat

/-- A symbol is known by its place in the symbol table. -/
abbrev SymbolId := Nat

/-- What the outermost part of a written type is. -/
inductive TypeForm
  | base (name : BaseTy)
  | pointer
  /-- An array; the size may be left to the initializer. -/
  | array (size : Option Nat)
  deriving DecidableEq, Repr, Inhabited

/-- One part of a written type. -/
structure TypePart where
  form : TypeForm
  constant : Bool := false
  /-- Set on the outermost part once a declaration has taken the type. -/
  topLevel : Bool := false
  deriving DecidableEq, Repr, Inhabited

/-- A change of type made for a value. -/
structure Conversion where
  source : Ty
  target : Ty
  coercion : Coercion
  deriving DecidableEq, Repr, Inhabited

/-- The labels of a choice: where the other branch starts, and where both end. -/
structure IfLabels where
  otherwise : Machine.Label
  finish : Machine.Label
  deriving DecidableEq, Repr, Inhabited

/-- The labels of a `while` loop. -/
structure WhileLabels where
  start : Machine.Label
  finish : Machine.Label
  deriving DecidableEq, Repr, Inhabited

/-- The labels of a `for` loop: the condition, the step, and the end. -/
structure ForLabels where
  start : Machine.Label
  next : Machine.Label
  finish : Machine.Label
  deriving DecidableEq, Repr, Inhabited

/-- The kinds of nodes. -/
inductive Kind
  | file
  | type (part : TypePart)
  | int (value : Int)
  | char (value : Char)
  | string (value : String) (pool : Option Nat)
  | identifier (name : String) (symbol : Option SymbolId)
  | declaration (name : String) (symbol : Option SymbolId)
  | initializers
  | function (name : String) (symbol : Option SymbolId)
  | parameters
  | parameter (name : String) (symbol : Option SymbolId)
  | call (name : String) (symbol : Option SymbolId)
  | binary (op : BinaryOp)
  | unary (op : UnaryOp)
  | subscript
  | conversion (change : Conversion)
  | block
  | exprStatement
  | ifElse (labels : Option IfLabels)
  | whileLoop (labels : Option WhileLabels)
  | forLoop (labels : Option ForLabels)
  | giveBack
  | breakOut (target : Option Machine.Label)
  | continueOn (target : Option Machine.Label)
  | nothing
  deriving DecidableEq, Repr, Inhabited

namespace Kind

/-- The symbol that a node of the kind is bound to. -/
def symbol? : Kind → Option SymbolId
  | identifier _ symbol | declaration _ symbol | function _ symbol | parameter _ symbol
  | call _ symbol => symbol
  | _ => none

/-- Binds a node that has a symbol. -/
def bind (symbol : SymbolId) : Kind → Kind
  | identifier name _ => identifier name (some symbol)
  | declaration name _ => declaration name (some symbol)
  | function name _ => function name (some symbol)
  | parameter name _ => parameter name (some symbol)
  | call name _ => call name (some symbol)
  | other => other

/-- Whether the kind is a function. -/
def isFunction : Kind → Bool
  | function .. => true
  | _ => false

/-- Whether the kind is a loop. -/
def isLoop : Kind → Bool
  | whileLoop _ | forLoop _ => true
  | _ => false

/-- Whether the kind is a declaration of a variable. -/
def isDeclaration : Kind → Bool
  | declaration .. => true
  | _ => false

/-- Whether the kind is a name used as an expression. -/
def isIdentifier : Kind → Bool
  | identifier .. => true
  | _ => false

/-- The kinds that denote a place in memory. -/
def isPlace : Kind → Bool
  | identifier .. | subscript | unary .deref => true
  | _ => false

end Kind

/-- A node of a syntax tree, with what has been found out about it. -/
structure Node where
  kind : Kind
  line : Nat
  /-- How many scopes were open where the node was resolved. -/
  scope : Nat := 0
  parent : Option NodeId := none
  children : List NodeId := []
  /-- The nearest function around the node; none in the file frame. -/
  function : Option NodeId := none
  type : Option Ty := none
  /-- Casts written in front of the expression, the innermost first. -/
  casts : List Ty := []
  deriving Repr

instance : Inhabited Node := ⟨⟨.nothing, 0, 0, none, [], none, none, []⟩⟩

end MiniC
