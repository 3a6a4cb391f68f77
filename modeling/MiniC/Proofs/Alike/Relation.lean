import Mathlib.Data.List.Forall2
import Mathlib.Data.Set.Basic
import MiniC.Emit.Expression
import MiniC.Grammar.Parser
import MiniC.Machine.Routine
import MiniC.Resolve.Resolution

/-!
# Programs alike but for names and lines

A `Likeness` says which names and which lines of two programs stand for each other: names one to one,
the routines of the library and `main` for themselves. Everything else that the steps of a compilation
hold is compared part by part. Tokens, nodes, symbols, labels and faults are alike if they agree in all
but the names and lines in them, and those are alike.

What a `Likeness` relates is left open, so one comparison of two compilations serves for renamings, for
layout, and, with a program compared to itself, for what holds of every name and line in it.
-/

namespace MiniC

/-- Which names and lines of two programs stand for each other. -/
structure Likeness where
  name : String → String → Prop
  line : Nat → Nat → Prop
  name_iff {a a' b b' : String} : name a a' → name b b' → (a = b ↔ a' = b')
  routine : ∀ routine ∈ Machine.Routine.catalog, name routine.name routine.name
  main : name "main" "main"

/-- Whether faults of this cause are about a token of the source. -/
def Cause.hasToken : Cause → Bool
  | .malformedTree _ | .missingMain => false
  | _ => true

/-- Causes of the same kind, about a token of the source. -/
structure Cause.Alike (cause cause' : Cause) : Prop where
  name : cause.name = cause'.name
  token : cause.hasToken = true

/-- The kinds whose lines no message uses. -/
def Kind.isSilent : Kind → Bool
  | .file | .nothing => true
  | _ => false

/-- Whether a label is a jump target inside a function. -/
def Machine.Label.isJump : Machine.Label → Bool
  | .jump _ => true
  | _ => false

/-- Whether the kind holds a name of the program, or a label that may. -/
def Kind.isNamed : Kind → Bool
  | .identifier .. | .declaration .. | .function .. | .parameter .. | .call .. => true
  | .ifElse (some labels) => !(labels.otherwise.isJump && labels.finish.isJump)
  | .whileLoop (some labels) => !(labels.start.isJump && labels.finish.isJump)
  | .forLoop (some labels) => !(labels.start.isJump && labels.next.isJump && labels.finish.isJump)
  | .breakOut (some target) | .continueOn (some target) => !target.isJump
  | _ => false

namespace Likeness

variable (L : Likeness)

/-- Faults of the same kind, on lines alike if they are about a token. A missing `main` is reported on
line one. -/
structure SameFault (fault fault' : Fault) : Prop where
  name : fault.cause.name = fault'.cause.name
  line : fault.cause.hasToken → L.line fault.line fault'.line
  start : fault.cause = .missingMain → fault.line = 1

/-- Tokens alike: the values of identifiers are names, all others are equal. -/
structure SameToken (token token' : Token) : Prop where
  kind : token'.kind = token.kind
  line : L.line token.line token'.line
  name : token.kind = .identifier → L.name token.value token'.value
  value : token.kind ≠ .identifier → token'.value = token.value

/-- Kinds alike. -/
inductive SameKind : Kind → Kind → Prop
  | identifier {name name' : String} (h : L.name name name') (symbol : Option SymbolId) :
      SameKind (.identifier name symbol) (.identifier name' symbol)
  | declaration {name name' : String} (h : L.name name name') (symbol : Option SymbolId) :
      SameKind (.declaration name symbol) (.declaration name' symbol)
  | function {name name' : String} (h : L.name name name') (symbol : Option SymbolId) :
      SameKind (.function name symbol) (.function name' symbol)
  | parameter {name name' : String} (h : L.name name name') (symbol : Option SymbolId) :
      SameKind (.parameter name symbol) (.parameter name' symbol)
  | call {name name' : String} (h : L.name name name') (symbol : Option SymbolId) :
      SameKind (.call name symbol) (.call name' symbol)
  | other {kind : Kind} (h : kind.isNamed = false) : SameKind kind kind

/-- Nodes alike, whatever their lines. -/
structure SameNode (node node' : Node) : Prop where
  kind : L.SameKind node.kind node'.kind
  scope : node'.scope = node.scope
  parent : node'.parent = node.parent
  children : node'.children = node.children
  function : node'.function = node.function
  type : node'.type = node.type
  casts : node'.casts = node.casts

/-- Forests alike, whatever the lines in them. -/
structure SameForest (forest forest' : Forest) : Prop where
  size : forest'.size = forest.size
  root : forest'.root = forest.root
  node : ∀ id, L.SameNode (forest.node id) (forest'.node id)

/-- Labels alike. What is known by its text alone is a routine of the library. -/
inductive SameLabel : Machine.Label → Machine.Label → Prop
  | jump (number : Nat) : SameLabel (.jump number) (.jump number)
  | function {name name' : String} (h : L.name name name') (number : Nat) :
      SameLabel (.function name number) (.function name' number)
  | named {text : String} (h : text ∈ Machine.Routine.catalog.map (·.name)) :
      SameLabel (.named text) (.named text)

/-- Instructions alike. -/
inductive SameInstr : Machine.Instr → Machine.Instr → Prop
  | label {label label' : Machine.Label} (h : L.SameLabel label label') :
      SameInstr (.label label) (.label label')
  | ujp {label label' : Machine.Label} (h : L.SameLabel label label') :
      SameInstr (.ujp label) (.ujp label')
  | fjp {label label' : Machine.Label} (h : L.SameLabel label label') :
      SameInstr (.fjp label) (.fjp label')
  | cup {label label' : Machine.Label} (count : Nat) (h : L.SameLabel label label') :
      SameInstr (.cup count label) (.cup count label')
  | other {instr : Machine.Instr} (hdefined : instr.defined? = none) (htarget : instr.target? = none) :
      SameInstr instr instr

/-- Code alike, instruction by instruction. -/
def SameCode : Machine.Code → Machine.Code → Prop := List.Forall₂ L.SameInstr

/-- Signatures alike. -/
structure SameSignature (signature signature' : Signature) : Prop where
  params : signature'.params = signature.params
  label : L.SameLabel signature.label signature'.label
  builtin : signature'.builtin = signature.builtin
  variadic : signature'.variadic = signature.variadic
  defined : signature'.defined = signature.defined

/-- What symbols alike stand for. -/
inductive SameSymbolKind : SymbolKind → SymbolKind → Prop
  | variableAt (declaration : NodeId) : SameSymbolKind (.variableAt declaration) (.variableAt declaration)
  | function {signature signature' : Signature} (h : L.SameSignature signature signature') :
      SameSymbolKind (.function signature) (.function signature')

/-- Symbols alike. The names and lines are compared where the symbols are looked up; a routine of the
library has its own name. -/
structure SameSymbol (symbol symbol' : Symbol) : Prop where
  type : symbol'.type = symbol.type
  kind : L.SameSymbolKind symbol.kind symbol'.kind
  frame : symbol'.frame = symbol.frame
  depth : symbol'.depth = symbol.depth
  offset : symbol'.offset = symbol.offset
  name : (∃ signature, symbol.signature? = some signature ∧ signature.builtin) → symbol'.name = symbol.name

/-- Entries of scopes alike: the same symbol under names alike. Its lines are alike unless it is a
routine of the library. -/
structure SameEntry (table table' : SymbolTable) (entry entry' : String × SymbolId) : Prop where
  name : L.name entry.1 entry'.1
  id : entry'.2 = entry.2
  bound : entry.2 < table.size
  line : L.line (table.symbol entry.2).line (table'.symbol entry.2).line ∨
    entry.1 ∈ Machine.Routine.catalog.map (·.name)

/-- Scopes alike, entry by entry. -/
def SameScope (table table' : SymbolTable) : Scope → Scope → Prop :=
  List.Forall₂ (L.SameEntry table table')

/-- Symbol tables alike. -/
structure SameTable (table table' : SymbolTable) : Prop where
  size : table'.size = table.size
  symbol : ∀ id, L.SameSymbol (table.symbol id) (table'.symbol id)
  scopes : List.Forall₂ (L.SameScope table table') table.scopes table'.scopes
  fileScope : Option.Rel (L.SameScope table table') table.fileScope table'.fileScope

/-- What warnings alike are about. -/
inductive SameConcern : Concern → Concern → Prop
  | missingReturn {name name' : String} (h : L.name name name') :
      SameConcern (.missingReturn name) (.missingReturn name')
  | unmappedType (type : String) : SameConcern (.unmappedType type) (.unmappedType type)

/-- Warnings alike. -/
structure SameWarning (warning warning' : Warning) : Prop where
  concern : L.SameConcern warning.concern warning'.concern
  line : L.line warning.line warning'.line

/-- Sessions alike. -/
structure SameSession (session session' : Session) : Prop where
  drawn : session'.drawn = session.drawn
  warnings : List.Forall₂ L.SameWarning session.warnings session'.warnings

/-- The lines of all nodes that are heard of are alike. A node is heard of unless it is silent. -/
def Lined (forest forest' : Forest) : Prop :=
  ∀ id, (forest.kind id).isSilent = false ∨ (forest.type? id).isSome →
    L.line (forest.line id) (forest'.line id)

/-- Builders alike. Nothing that has been built has a type yet. -/
structure SameBuilder (builder builder' : Builder) : Prop where
  forest : L.SameForest builder.forest builder'.forest
  stack : builder'.stack = builder.stack
  line : L.Lined builder.forest builder'.forest

/-- Parsers alike. -/
structure SameParser (parser parser' : Parser) : Prop where
  rest : List.Forall₂ L.SameToken parser.rest parser'.rest
  last : L.SameToken parser.last parser'.last
  builder : L.SameBuilder parser.builder parser'.builder

/-- Forests alike in the middle of a resolution. Besides the nodes that are heard of there may be others
whose lines are known to be alike. -/
structure SameTree (known : Set NodeId) (forest forest' : Forest) : Prop extends
    L.SameForest forest forest' where
  lined : L.Lined forest forest'
  line : ∀ id ∈ known, L.line (forest.line id) (forest'.line id)

/-- Resolutions alike. -/
structure SameResolution (known : Set NodeId) (state state' : Resolution) : Prop where
  forest : L.SameTree known state.forest state'.forest
  table : L.SameTable state.table state'.table
  session : L.SameSession state.session state'.session
  pending : List.Forall₂ (fun call call' => call'.1 = call.1 ∧ L.line call.2 call'.2)
    state.pending state'.pending

/-- Outputs alike. -/
structure SameOutput (output output' : Output) : Prop where
  session : L.SameSession output.session output'.session
  used : output'.used = output.used

end Likeness

end MiniC
