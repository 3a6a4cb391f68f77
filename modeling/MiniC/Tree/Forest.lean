import MiniC.Tree.Node

/-!
# Forests

A forest holds all nodes of one program, and perhaps a root. Nodes are only ever added, and a node
is known by how many were there before it. Looking up an unknown node gives an empty one.

`append` links a child to its parent both ways, `replace?` puts another node into a child slot, and
`wrap` puts a new node between a node and its parent. Walks follow links for as many steps as there
are nodes, which is enough for every path that meets no node twice.
-/

namespace MiniC

/-- The nodes of one program. -/
structure Forest where
  nodes : Array Node := #[]
  root : Option NodeId := none
  deriving Repr, Inhabited

namespace Forest

/-- How many nodes there are. -/
def size (forest : Forest) : Nat := forest.nodes.size

/-- The node of an id. -/
def node (forest : Forest) (id : NodeId) : Node := forest.nodes[id]?.getD default

/-- The kind of a node. -/
def kind (forest : Forest) (id : NodeId) : Kind := (forest.node id).kind

/-- The line of a node. -/
def line (forest : Forest) (id : NodeId) : Nat := (forest.node id).line

/-- The parent of a node. -/
def parent (forest : Forest) (id : NodeId) : Option NodeId := (forest.node id).parent

/-- The children of a node. -/
def children (forest : Forest) (id : NodeId) : List NodeId := (forest.node id).children

/-- The child of a node in a slot. -/
def child? (forest : Forest) (id : NodeId) (slot : Nat) : Option NodeId :=
  (forest.children id)[slot]?

/-- The type found for a node. -/
def type? (forest : Forest) (id : NodeId) : Option Ty := (forest.node id).type

/-- Changes one node. -/
def update (forest : Forest) (id : NodeId) (change : Node → Node) : Forest :=
  { forest with nodes := forest.nodes.modify id change }

/-- Replaces the kind of a node. -/
def setKind (forest : Forest) (id : NodeId) (kind : Kind) : Forest :=
  forest.update id fun node => { node with kind }

/-- Sets the type of a node. -/
def setType (forest : Forest) (id : NodeId) (type : Ty) : Forest :=
  forest.update id fun node => { node with type := some type }

/-- Binds a node that has a symbol. -/
def bind (forest : Forest) (id : NodeId) (symbol : SymbolId) : Forest :=
  forest.update id fun node => { node with kind := node.kind.bind symbol }

/-- Adds a cast in front of those that an expression has. -/
def addCast (forest : Forest) (id : NodeId) (type : Ty) : Forest :=
  forest.update id fun node => { node with casts := node.casts ++ [type] }

/-- Makes a node the root. -/
def setRoot (forest : Forest) (id : NodeId) : Forest := { forest with root := some id }

/-- Adds a node without links. -/
def add (forest : Forest) (kind : Kind) (line : Nat) : Forest × NodeId :=
  let id := forest.size
  ({ forest with nodes := forest.nodes.push { kind, line } }, id)

/-- Links `child` as the last child of `parent`. -/
def append (forest : Forest) (parent child : NodeId) : Forest :=
  (forest.update child fun node => { node with parent := some parent }).update parent
    fun node => { node with children := node.children ++ [child] }

/-- Puts `new` into the first slot of `parent` that holds `old`. -/
def replace? (forest : Forest) (parent old new : NodeId) : Option Forest :=
  if old ∈ forest.children parent then
    let forest := forest.update parent fun node =>
      { node with children := node.children.replace old new }
    let forest := forest.update new fun node => { node with parent := some parent }
    some (forest.update old fun node => { node with parent := none })
  else none

/-- Puts a new node of a kind into the place of `id` and makes `id` its only child. The new node
stands on the line, in the scope and in the function of `id`. -/
def wrap (forest : Forest) (id : NodeId) (kind : Kind) : Forest × NodeId :=
  let inner := forest.node id
  let (forest, wrapper) := forest.add kind inner.line
  let forest := forest.update wrapper fun node =>
    { node with scope := inner.scope, function := inner.function }
  let forest :=
    match inner.parent with
    | some parent => (forest.replace? parent id wrapper).getD forest
    | none => if forest.root = some id then forest.setRoot wrapper else forest
  (forest.append wrapper id, wrapper)

/-- The nodes met on the first `steps` links towards the root, the nearest first. -/
def ancestorsUpTo (forest : Forest) : Nat → NodeId → List NodeId
  | 0, _ => []
  | steps + 1, id =>
    match forest.parent id with
    | none => []
    | some parent => parent :: forest.ancestorsUpTo steps parent

/-- The nodes around a node, the nearest first. -/
def ancestors (forest : Forest) (id : NodeId) : List NodeId :=
  forest.ancestorsUpTo forest.size id

/-- The nearest function around a node. -/
def owningFunction (forest : Forest) (id : NodeId) : Option NodeId :=
  (forest.ancestors id).find? fun node => (forest.kind node).isFunction

/-- The nearest loop around a node in the same function. -/
def enclosingLoop (forest : Forest) (id : NodeId) : Option NodeId :=
  let barrier := (forest.ancestors id).find? fun node =>
    (forest.kind node).isLoop || (forest.kind node).isFunction
  barrier.filter fun node => (forest.kind node).isLoop

/-- The nodes below `id`, down to `levels` levels, each before what is below it, with its level
counted from `level`. -/
def walk (forest : Forest) : Nat → Nat → NodeId → List (NodeId × Nat)
  | 0, _, _ => []
  | levels + 1, level, id =>
    (id, level) :: (forest.children id).flatMap (forest.walk levels (level + 1))

/-- A node and all below it, each before what is below it and with its level. -/
def outline (forest : Forest) (id : NodeId) : List (NodeId × Nat) :=
  forest.walk (forest.size + 1) 0 id

/-- A node and all below it, each before what is below it. -/
def preorder (forest : Forest) (id : NodeId) : List NodeId :=
  (forest.outline id).map (·.1)

/-- The type that a written type stands for, followed down to `levels` levels. -/
def typeWithin (forest : Forest) : Nat → NodeId → Option Ty
  | 0, _ => none
  | levels + 1, id =>
    match forest.kind id with
    | .type part =>
      match part.form with
      | .base name => some (.base name part.constant)
      | .pointer => do
        let target ← forest.child? id 0
        return .pointer (← forest.typeWithin levels target) part.constant
      | .array size => do
        let element ← forest.child? id 0
        return .array (← forest.typeWithin levels element) (size.getD 0) part.constant
    | _ => none

/-- The type that a written type stands for. An array without a size gets size zero. -/
def typeOf? (forest : Forest) (id : NodeId) : Option Ty :=
  forest.typeWithin (forest.size + 1) id

/-- Whether every child points back at its parent. -/
def isLinked (forest : Forest) : Bool :=
  (List.range forest.size).all fun id =>
    (forest.children id).all fun child => forest.parent child == some id

theorem node_update (forest : Forest) (id other : NodeId) (change : Node → Node)
    (h : id < forest.size) :
    (forest.update id change).node other =
      if other = id then change (forest.node id) else forest.node other := by
  unfold node update
  simp only [Array.getElem?_modify]
  by_cases hid : id = other
  · subst hid
    have : forest.nodes[id]? = some forest.nodes[id] := Array.getElem?_eq_getElem h
    simp [this]
  · simp [hid, Ne.symm hid]

theorem node_update_of_ne (forest : Forest) {id other : NodeId} (change : Node → Node)
    (h : other ≠ id) : (forest.update id change).node other = forest.node other := by
  simp [node, update, Array.getElem?_modify, Ne.symm h]

/-- A changed node, and every other node. Nothing is changed outside of the forest. -/
theorem node_update_eq (forest : Forest) (id other : NodeId) (change : Node → Node) :
    (forest.update id change).node other =
      if other = id ∧ id < forest.size then change (forest.node id) else forest.node other := by
  by_cases hid : id < forest.size
  · simp [node_update _ _ _ _ hid, hid]
  · by_cases hother : other = id
    · subst hother
      have hnone : forest.nodes[other]? = none := Array.getElem?_eq_none (Nat.le_of_not_lt hid)
      simp [node, update, Array.getElem?_modify, hnone, hid]
    · simp [node_update_of_ne _ _ hother, hother]

@[simp] theorem size_update (forest : Forest) (id : NodeId) (change : Node → Node) :
    (forest.update id change).size = forest.size := by simp [size, update]

@[simp] theorem root_update (forest : Forest) (id : NodeId) (change : Node → Node) :
    (forest.update id change).root = forest.root := rfl

@[simp] theorem size_add (forest : Forest) (kind : Kind) (line : Nat) :
    (forest.add kind line).1.size = forest.size + 1 := by simp [size, add]

theorem node_add_of_lt (forest : Forest) (kind : Kind) (line : Nat) {id : NodeId}
    (h : id < forest.size) : (forest.add kind line).1.node id = forest.node id := by
  have : id < forest.nodes.size := h
  simp [node, add, Array.getElem?_push, Nat.ne_of_lt this]

@[simp] theorem node_add_self (forest : Forest) (kind : Kind) (line : Nat) :
    (forest.add kind line).1.node (forest.add kind line).2 = { kind, line } := by
  simp [node, add, size]

@[simp] theorem size_append (forest : Forest) (parent child : NodeId) :
    (forest.append parent child).size = forest.size := by simp [append]

end Forest

end MiniC
