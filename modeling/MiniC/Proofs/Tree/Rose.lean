import MiniC.Proofs.Tree.Shape

/-!
# The tree below a node

`Forest.tree` reads the tree below a node out of a forest: what each node is, and its parts in
order. `Forest.contents` is that tree without the numbers of the nodes and the lines, that is, what
the program says.
-/

namespace MiniC

/-- A tree with labelled nodes, each with its parts in order. -/
inductive Rose (α : Type)
  | node (label : α) (parts : List (Rose α))
  deriving Repr

/-- The tree with its labels mapped. -/
def Rose.map {α β : Type} (f : α → β) : Rose α → Rose β
  | .node label parts => .node (f label) (parts.map fun part => part.map f)

theorem Rose.map_node {α β : Type} (f : α → β) (label : α) (parts : List (Rose α)) :
    (Rose.node label parts).map f = .node (f label) (parts.map (Rose.map f)) := by
  simp [Rose.map]

/-- What a node of a forest is, apart from its links and what has been found out about it. -/
structure Entry where
  id : NodeId
  /-- The kind without symbol and labels. -/
  kind : Kind
  line : Nat
  casts : List Ty
  deriving DecidableEq, Repr

/-- What a node says wherever it stands. -/
structure Content where
  /-- The kind without symbol and labels. -/
  kind : Kind
  casts : List Ty := []
  deriving DecidableEq, Repr

/-- What a node says, without its number and its line. -/
def Entry.content (entry : Entry) : Content := { kind := entry.kind, casts := entry.casts }

namespace Forest

variable {forest other : Forest} {id : NodeId}

/-- What a node is. -/
def entry (forest : Forest) (id : NodeId) : Entry :=
  { id, kind := (forest.kind id).plain, line := forest.line id, casts := (forest.node id).casts }

/-- The tree below a node, down to `levels` levels below it. -/
def treeWithin (forest : Forest) : Nat → NodeId → Rose Entry
  | 0, id => .node (forest.entry id) []
  | levels + 1, id => .node (forest.entry id) ((forest.children id).map (forest.treeWithin levels))

/-- The tree below a node. -/
def tree (forest : Forest) (id : NodeId) : Rose Entry := forest.treeWithin forest.size id

/-- Once the levels are enough for every node below, more of them make no difference. -/
theorem treeWithin_succ (hr : forest.Ranked) {levels : Nat} :
    ∀ {id}, forest.weight id ≤ levels →
      forest.treeWithin (levels + 1) id = forest.treeWithin levels id := by
  induction levels with
  | zero =>
    intro id h
    have hnone : forest.children id = [] := by
      refine List.eq_nil_iff_forall_not_mem.mpr fun c hc => ?_
      have := weight_lt hr hc
      omega
    simp [treeWithin, hnone]
  | succ levels ih =>
    intro id h
    rw [treeWithin, treeWithin]
    refine congrArg _ (List.map_congr_left fun c hc => ih ?_)
    have := weight_lt hr hc
    omega

/-- The tree below a node is what the node is, with the trees below its children. -/
theorem tree_eq (hr : forest.Ranked) (id : NodeId) :
    forest.tree id = .node (forest.entry id) ((forest.children id).map forest.tree) := by
  rw [tree, ← treeWithin_succ hr (weight_le forest id)]
  rfl

/-- What the program below a node says: its tree up to the numbers of the nodes and the lines. -/
def contents (forest : Forest) (id : NodeId) : Rose Content := (forest.tree id).map Entry.content

/-- What the program says down to `levels` levels below a node. -/
def contentsWithin (forest : Forest) : Nat → NodeId → Rose Content
  | 0, id => .node (forest.entry id).content []
  | levels + 1, id =>
    .node (forest.entry id).content ((forest.children id).map (forest.contentsWithin levels))

/-- The contents of a node by recursion on the levels below it. -/
theorem contents_eq_contentsWithin (forest : Forest) (id : NodeId) :
    forest.contents id = forest.contentsWithin forest.size id := by
  have hlevels : ∀ levels id,
      (forest.treeWithin levels id).map Entry.content = forest.contentsWithin levels id := by
    intro levels
    induction levels with
    | zero => exact fun id => Rose.map_node ..
    | succ levels ih =>
      intro id
      rw [treeWithin, Rose.map_node, List.map_map]
      exact congrArg _ (List.map_congr_left fun c _ => ih c)
  exact hlevels forest.size id

theorem contents_eq (hr : forest.Ranked) (id : NodeId) : forest.contents id =
    .node ⟨(forest.kind id).plain, (forest.node id).casts⟩
      ((forest.children id).map forest.contents) := by
  rw [contents, tree_eq hr, Rose.map_node, List.map_map]
  rfl

/-- The contents of a node depend on the nodes below it only. -/
theorem contents_congr (hr : forest.Rising) (hr' : other.Rising) {id : Nat}
    (h : ∀ m : Nat, m ≤ id → forest.Below m id → other.kind m = forest.kind m ∧
      other.children m = forest.children m ∧ (other.node m).casts = (forest.node m).casts) :
    other.contents id = forest.contents id := by
  induction id using Nat.strong_induction_on with
  | h id ih =>
    obtain ⟨hkind, hchildren, hcasts⟩ := h id (Nat.le_refl id) .refl
    rw [contents_eq hr.ranked, contents_eq hr'.ranked, hkind, hchildren, hcasts]
    refine congrArg _ (List.map_congr_left fun c hc => ih c (hr hc) fun m hm hbelow => ?_)
    exact h m (Nat.le_trans hm (Nat.le_of_lt (hr hc))) (hbelow.trans (.of_mem hc))

end Forest

end MiniC
