import MiniC.Machine.Instr
import MiniC.Scope
import MiniC.Tree.Forest

/-!
# Frame layout

Every function with a body has a frame, and so has the file. Behind the header come the parameters
and then the variables, in the order in which they stand; the frame of the file holds its variables
and then every string of the program. A frame ends in a scratch slot if its code has to keep an
address or a value while it writes through an address.
-/

namespace MiniC

namespace Forest

/-- The variables declared below a node, down to some level, in the frame that the node is in. -/
def localsWithin (forest : Forest) : Nat → NodeId → List NodeId
  | 0, _ => []
  | levels + 1, id =>
    (forest.children id).flatMap fun child =>
      match forest.kind child with
      | .function .. => []
      | .declaration .. => [child]
      | _ => forest.localsWithin levels child

/-- The variables declared below a node in the frame that the node is in. -/
def locals (forest : Forest) (id : NodeId) : List NodeId :=
  forest.localsWithin (forest.size + 1) id

/-- Whether the operand in the first slot is reached through an address. -/
def writesThroughAddress (forest : Forest) (id : NodeId) : Bool :=
  (forest.child? id 0).any fun target => !(forest.kind target).isIdentifier

/-- Whether the code of `child` itself needs the scratch slot: a step through an address, or an
assignment through one whose value is used. -/
def needsScratchAt (forest : Forest) (parent child : NodeId) : Bool :=
  match forest.kind child with
  | .unary (.step ..) => forest.writesThroughAddress child
  | .binary .assign =>
    forest.kind parent != .exprStatement && forest.writesThroughAddress child
  | _ => false

/-- Whether code below a node, down to some level and in its frame, needs the scratch slot. -/
def needsScratchWithin (forest : Forest) : Nat → NodeId → Bool
  | 0, _ => false
  | levels + 1, id =>
    (forest.children id).any fun child =>
      !(forest.kind child).isFunction &&
        (forest.needsScratchAt id child || forest.needsScratchWithin levels child)

/-- Whether code below a node, in its frame, needs the scratch slot. -/
def needsScratch (forest : Forest) (id : NodeId) : Bool :=
  forest.needsScratchWithin (forest.size + 1) id

/-- How many static links lead from a frame to another, for at most `steps` links. The search ends
at the frame of the file. -/
def linksWithin (forest : Forest) : Nat → Option NodeId → Option NodeId → Nat
  | 0, _, _ => 0
  | steps + 1, source, target =>
    if source = target then 0
    else
      match source with
      | none => 0
      | some function => forest.linksWithin steps (forest.node function).function target + 1

/-- How many static links lead from a frame to another. No function stands for the file. -/
def links (forest : Forest) (source target : Option NodeId) : Nat :=
  forest.linksWithin (forest.size + 1) source target

/-- Every function with a body, in the order in which they stand. -/
def definitions (forest : Forest) (root : NodeId) : List NodeId :=
  (forest.preorder root).filter fun id =>
    (forest.kind id).isFunction && (forest.child? id 2).isSome

end Forest

/-- The size of a frame, and the scratch slot if it has one. -/
structure Frame where
  size : Nat
  scratch : Option Nat
  deriving DecidableEq, Repr, Inhabited

/-- A resolved program whose variables and strings have their slots, and its frames. No function
stands for the frame of the file. -/
structure Layout where
  forest : Forest
  table : SymbolTable
  frames : List (Option NodeId × Frame) := []
  deriving Inhabited

namespace Layout

/-- The symbol of a node, which has to be bound. -/
def symbolOf (layout : Layout) (id : NodeId) : Except Fault SymbolId :=
  match (layout.forest.kind id).symbol? with
  | some symbol => .ok symbol
  | none => .error (.malformed "node has no symbol" (layout.forest.line id))

/-- The type of a node, which has to be known. -/
def typeOf (layout : Layout) (id : NodeId) : Except Fault Ty :=
  match layout.forest.type? id with
  | some type => .ok type
  | none => .error (.malformed "expression left untyped" (layout.forest.line id))

/-- The child in a slot, which has to be there. -/
def child (layout : Layout) (id : NodeId) (slot : Nat) : Except Fault NodeId :=
  match layout.forest.child? id slot with
  | some child => .ok child
  | none => .error (.malformed "missing child" (layout.forest.line id))

/-- The slot of a variable, which has to have one. -/
def offsetOf (layout : Layout) (symbol : SymbolId) (line : Nat) : Except Fault Nat :=
  let entry := layout.table.symbol symbol
  match entry.offset with
  | some offset => .ok offset
  | none => .error (.malformed ("'" ++ entry.name ++ "' has no frame slot") line)

/-- The frame of a function or of the file. -/
def frame? (layout : Layout) (function : Option NodeId) : Option Frame :=
  layout.frames.lookup function

/-- The scratch slot of the frame that runs the code of a node. -/
def scratchOf (layout : Layout) (id : NodeId) : Except Fault Nat :=
  match (layout.frame? (layout.forest.node id).function).bind (·.scratch) with
  | some slot => .ok slot
  | none => .error (.malformed "frame has no scratch slot" (layout.forest.line id))

/-- The size of the frame of a function or of the file. -/
def sizeOf (layout : Layout) (function : Option NodeId) : Nat :=
  match layout.frame? function with
  | some frame => frame.size
  | none => Machine.frameHeader

/-- How many static links lead from the code of a node to the frame of a symbol. -/
def depthTo (layout : Layout) (id : NodeId) (symbol : SymbolId) : Nat :=
  layout.forest.links (layout.forest.node id).function (layout.table.symbol symbol).frame

/-- How many static links lead from the code of a node to the frame of the file. -/
def depthToFile (layout : Layout) (id : NodeId) : Nat :=
  layout.forest.links (layout.forest.node id).function none

/-- Puts the variables declared by `nodes` one behind the other, from slot `next` on. Answers the
slot behind them. -/
def place (layout : Layout) (next : Nat) : List NodeId → Except Fault (Layout × Nat)
  | [] => .ok (layout, next)
  | id :: nodes => do
    let symbol ← layout.symbolOf id
    let table := layout.table.update symbol fun entry => { entry with offset := some next }
    place { layout with table } (next + (layout.table.symbol symbol).type.slots) nodes

/-- Puts the strings among `nodes` one behind the other, each with a closing character, from slot
`next` on. Answers the slot behind them. -/
def placeStrings (layout : Layout) (next : Nat) : List NodeId → Layout × Nat
  | [] => (layout, next)
  | id :: nodes =>
    match layout.forest.kind id with
    | .string value _ =>
      placeStrings { layout with forest := layout.forest.setKind id (.string value (some next)) }
        (next + value.length + 1) nodes
    | _ => placeStrings layout next nodes

/-- Closes a frame in front of slot `next`; its code stands below `code`. -/
def close (layout : Layout) (function : Option NodeId) (code : NodeId) (next : Nat) : Layout :=
  let frame : Frame :=
    if layout.forest.needsScratch code then ⟨next + 1, some next⟩ else ⟨next, none⟩
  { layout with frames := (function, frame) :: layout.frames }

/-- Lays out the frame of the file. -/
def placeFile (layout : Layout) (root : NodeId) : Except Fault Layout := do
  let forest := layout.forest
  let globals := (forest.children root).filter fun id => (forest.kind id).isDeclaration
  let (layout, next) ← layout.place Machine.frameHeader globals
  let (layout, next) := layout.placeStrings next (layout.forest.preorder root)
  return layout.close none root next

/-- Lays out the frame of a function. -/
def placeFunction (layout : Layout) (function : NodeId) : Except Fault Layout := do
  let params ← layout.child function 1
  let (layout, next) ← layout.place Machine.frameHeader (layout.forest.children params)
  let body ← layout.child function 2
  let (layout, next) ← layout.place next (layout.forest.locals body)
  return layout.close (some function) body next

/-- Lays out the frames of functions. -/
def placeFunctions (layout : Layout) : List NodeId → Except Fault Layout
  | [] => .ok layout
  | function :: others => do placeFunctions (← layout.placeFunction function) others

/-- Lays out all frames of a program. -/
def ofProgram (forest : Forest) (table : SymbolTable) (root : NodeId) : Except Fault Layout := do
  let layout ← placeFile { forest, table } root
  layout.placeFunctions (forest.definitions root)

end Layout

end MiniC
