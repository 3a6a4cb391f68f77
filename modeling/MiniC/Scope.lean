import MiniC.Diagnostic
import MiniC.Tree.Node

/-!
# Scopes and symbols

A symbol table holds every symbol of a program in the order of declaration, and a stack of scopes
that say which symbol a name stands for. An inner scope hides the names of the outer ones. Closing a
scope forgets its names, but not its symbols; the names of the file stay known after the last scope
has been closed.
-/

namespace MiniC

/-- What is known about a function besides its result type. -/
structure Signature where
  params : List Ty
  label : Machine.Label
  /-- A routine of the library. -/
  builtin : Bool := false
  /-- More arguments than parameters are allowed. -/
  variadic : Bool := false
  /-- A body has been seen, or the function is a routine of the library. -/
  defined : Bool := false
  deriving DecidableEq, Repr, Inhabited

/-- What a symbol stands for. -/
inductive SymbolKind
  | variableAt (declaration : NodeId)
  | function (signature : Signature)
  deriving DecidableEq, Repr, Inhabited

/-- A declared name. -/
structure Symbol where
  name : String
  /-- The type of a variable, or the result type of a function. -/
  type : Ty
  kind : SymbolKind
  line : Nat
  /-- The function whose frame holds the symbol; none for the file frame. -/
  frame : Option NodeId := none
  /-- How many scopes were open at the declaration. -/
  depth : Nat := 0
  /-- The slot in the frame, once it is laid out. -/
  offset : Option Nat := none
  deriving DecidableEq, Repr, Inhabited

namespace Symbol

/-- The signature of a function. -/
def signature? (symbol : Symbol) : Option Signature :=
  match symbol.kind with
  | .function signature => some signature
  | .variableAt _ => none

/-- Whether the symbol is a function. -/
def isFunction (symbol : Symbol) : Bool := symbol.signature?.isSome

/-- Records whether a function has a body. -/
def setDefined (symbol : Symbol) (defined : Bool) : Symbol :=
  match symbol.kind with
  | .function signature => { symbol with kind := .function { signature with defined } }
  | .variableAt _ => symbol

end Symbol

/-- The names of one scope and the symbols that they stand for. -/
abbrev Scope := List (String × SymbolId)

/-- All symbols of a program and the scopes that are open, the innermost first. -/
structure SymbolTable where
  symbols : Array Symbol := #[]
  scopes : List Scope := []
  /-- The scope that was closed when no other was open. -/
  fileScope : Option Scope := none
  deriving Repr, Inhabited

namespace SymbolTable

/-- How many symbols there are. -/
def size (table : SymbolTable) : Nat := table.symbols.size

/-- How many scopes are open. -/
def depth (table : SymbolTable) : Nat := table.scopes.length

/-- The symbol of an id. -/
def symbol (table : SymbolTable) (id : SymbolId) : Symbol := table.symbols[id]?.getD default

/-- Changes one symbol. -/
def update (table : SymbolTable) (id : SymbolId) (change : Symbol → Symbol) : SymbolTable :=
  { table with symbols := table.symbols.modify id change }

/-- Opens a scope. -/
def enter (table : SymbolTable) : SymbolTable := { table with scopes := [] :: table.scopes }

/-- Closes the innermost scope. -/
def leave (table : SymbolTable) : SymbolTable :=
  match table.scopes with
  | [] => table
  | [scope] => { table with scopes := [], fileScope := some scope }
  | _ :: scopes => { table with scopes }

/-- Adds a symbol to the innermost scope, which must not have the name yet. -/
def declare (table : SymbolTable) (symbol : Symbol) : Except Fault (SymbolTable × SymbolId) :=
  match table.scopes with
  | [] =>
    .error (.malformed ("declaration of '" ++ symbol.name ++ "' outside any scope") symbol.line)
  | scope :: scopes =>
    match scope.lookup symbol.name with
    | some earlier =>
      .error ⟨.symbolAlreadyDeclared symbol.name (table.symbol earlier).line, symbol.line⟩
    | none =>
      .ok ({ table with
        symbols := table.symbols.push { symbol with depth := table.depth }
        scopes := ((symbol.name, table.size) :: scope) :: scopes }, table.size)

/-- What a name stands for, in the innermost scope that has it. -/
def lookup (table : SymbolTable) (name : String) : Option SymbolId :=
  table.scopes.findSome? (·.lookup name)

/-- What a name stands for in the innermost scope. -/
def lookupCurrent (table : SymbolTable) (name : String) : Option SymbolId :=
  table.scopes.head?.bind (·.lookup name)

/-- What a name stands for in the scope of the file, open or closed. -/
def lookupFile (table : SymbolTable) (name : String) : Option SymbolId :=
  (table.scopes.getLast?.or table.fileScope).bind (·.lookup name)

@[simp] theorem depth_enter (table : SymbolTable) : table.enter.depth = table.depth + 1 := rfl

@[simp] theorem depth_leave (table : SymbolTable) : table.leave.depth = table.depth - 1 := by
  unfold leave depth
  split <;> simp_all

@[simp] theorem lookup_enter (table : SymbolTable) (name : String) :
    table.enter.lookup name = table.lookup name := rfl

@[simp] theorem size_enter (table : SymbolTable) : table.enter.size = table.size := rfl

@[simp] theorem size_leave (table : SymbolTable) : table.leave.size = table.size := by
  unfold leave size
  split <;> rfl

end SymbolTable

end MiniC
