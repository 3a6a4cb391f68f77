import MiniC.Proofs.Alike.Tracks
import MiniC.Proofs.Tree.Links

/-!
# Forests alike

What is read out of forests alike is equal, apart from names and lines, and what changes them in the same
way leaves them alike.
-/

namespace MiniC

namespace Likeness

variable {L : Likeness} {forest forest' : Forest} {k k' : Kind} {id : NodeId}

namespace SameKind

/-- The kind of an unknown node. -/
theorem default : L.SameKind (default : Node).kind (default : Node).kind := .other rfl

theorem symbol? (h : L.SameKind k k') : k'.symbol? = k.symbol? := by cases h <;> rfl

theorem isFunction (h : L.SameKind k k') : k'.isFunction = k.isFunction := by cases h <;> rfl

theorem isLoop (h : L.SameKind k k') : k'.isLoop = k.isLoop := by cases h <;> rfl

theorem isDeclaration (h : L.SameKind k k') : k'.isDeclaration = k.isDeclaration := by
  cases h <;> rfl

theorem isIdentifier (h : L.SameKind k k') : k'.isIdentifier = k.isIdentifier := by
  cases h <;> rfl

theorem isPlace (h : L.SameKind k k') : k'.isPlace = k.isPlace := by cases h <;> rfl

/-- Being of one kind without a name is the same for kinds alike. -/
theorem eq_iff (h : L.SameKind k k') {other : Kind} (hother : other.isNamed = false) :
    k' = other ↔ k = other := by
  cases h with
  | other => exact Iff.rfl
  | _ => constructor <;> (rintro rfl; cases hother)

theorem bind (h : L.SameKind k k') (symbol : SymbolId) :
    L.SameKind (k.bind symbol) (k'.bind symbol) := by
  cases h with
  | identifier h => exact .identifier h _
  | declaration h => exact .declaration h _
  | function h => exact .function h _
  | parameter h => exact .parameter h _
  | call h => exact .call h _
  | @other k h =>
    have hbind : k.bind symbol = k := by
      cases k with
      | identifier | declaration | function | parameter | call => cases h
      | _ => rfl
    rw [hbind]
    exact .other h

end SameKind

theorem SameNode.default : L.SameNode default default := ⟨.default, rfl, rfl, rfl, rfl, rfl, rfl⟩

namespace SameForest

variable (h : L.SameForest forest forest')
include h

theorem kind (id : NodeId) : L.SameKind (forest.kind id) (forest'.kind id) := (h.node id).kind

theorem parent (id : NodeId) : forest'.parent id = forest.parent id := (h.node id).parent

theorem children (id : NodeId) : forest'.children id = forest.children id := (h.node id).children

theorem child? (id : NodeId) (slot : Nat) : forest'.child? id slot = forest.child? id slot := by
  rw [Forest.child?, Forest.child?, h.children]

theorem type? (id : NodeId) : forest'.type? id = forest.type? id := (h.node id).type

/-- What a kind decides that it decides for kinds alike in the same way, it decides for a node. -/
theorem decides {α : Type} {p : Kind → α} (hp : ∀ {k k'}, L.SameKind k k' → p k' = p k)
    (id : NodeId) : p (forest'.kind id) = p (forest.kind id) := hp (h.kind id)

theorem typeWithin (levels : Nat) (id : NodeId) :
    forest'.typeWithin levels id = forest.typeWithin levels id := by
  induction levels generalizing id with
  | zero => rfl
  | succ levels ih =>
    simp only [Forest.typeWithin, h.child?, ih]
    have hkind := h.kind id
    generalize forest.kind id = k, forest'.kind id = k' at hkind ⊢
    cases hkind <;> rfl

theorem typeOf? (id : NodeId) : forest'.typeOf? id = forest.typeOf? id := by
  rw [Forest.typeOf?, Forest.typeOf?, h.size, h.typeWithin]

theorem ancestors (id : NodeId) : forest'.ancestors id = forest.ancestors id := by
  have hsteps : ∀ steps id, forest'.ancestorsUpTo steps id = forest.ancestorsUpTo steps id := by
    intro steps
    induction steps with
    | zero => exact fun _ => rfl
    | succ steps ih => simp [Forest.ancestorsUpTo, h.parent, ih]
  rw [Forest.ancestors, Forest.ancestors, h.size, hsteps]

theorem owningFunction (id : NodeId) : forest'.owningFunction id = forest.owningFunction id := by
  simp only [Forest.owningFunction, h.ancestors, h.decides SameKind.isFunction]

theorem enclosingLoop (id : NodeId) : forest'.enclosingLoop id = forest.enclosingLoop id := by
  simp only [Forest.enclosingLoop, h.ancestors, h.decides SameKind.isFunction,
    h.decides SameKind.isLoop]

theorem preorder (id : NodeId) : forest'.preorder id = forest.preorder id := by
  have hwalk : ∀ levels level id, forest'.walk levels level id = forest.walk levels level id := by
    intro levels
    induction levels with
    | zero => exact fun _ _ => rfl
    | succ levels ih =>
      intro level id
      have hbelow : forest'.walk levels (level + 1) = forest.walk levels (level + 1) :=
        funext fun child => ih _ child
      rw [Forest.walk, Forest.walk, h.children, hbelow]
  rw [Forest.preorder, Forest.preorder, Forest.outline, Forest.outline, h.size, hwalk]

/-- Changing one node in the same way. -/
theorem update (id : NodeId) {change change' : Node → Node}
    (hchange : L.SameNode (forest.node id) (forest'.node id) →
      L.SameNode (change (forest.node id)) (change' (forest'.node id))) :
    L.SameForest (forest.update id change) (forest'.update id change') where
  size := by simpa using h.size
  root := h.root
  node other := by
    rw [Forest.node_update_eq, Forest.node_update_eq, h.size]
    split
    · exact hchange (h.node id)
    · exact h.node other

theorem setKind (id : NodeId) (hkind : L.SameKind k k') :
    L.SameForest (forest.setKind id k) (forest'.setKind id k') :=
  h.update id fun hnode => { hnode with kind := hkind }

theorem addCast (id : NodeId) (type : Ty) :
    L.SameForest (forest.addCast id type) (forest'.addCast id type) :=
  h.update id fun hnode => { hnode with casts := by rw [hnode.casts] }

theorem setRoot (id : NodeId) : L.SameForest (forest.setRoot id) (forest'.setRoot id) :=
  ⟨h.size, rfl, h.node⟩

theorem append (parent child : NodeId) :
    L.SameForest (forest.append parent child) (forest'.append parent child) :=
  (h.update child fun hnode => { hnode with parent := rfl }).update parent fun hnode =>
    { hnode with children := by rw [hnode.children] }

theorem add (hkind : L.SameKind k k') (line line' : Nat) :
    L.SameForest (forest.add k line).1 (forest'.add k' line').1 where
  size := by simp [h.size]
  root := h.root
  node id := by
    have hsize := h.size
    rcases lt_trichotomy id forest.size with hid | rfl | hid
    · rw [Forest.node_add_of_lt _ _ _ hid, Forest.node_add_of_lt _ _ _ (hsize ▸ hid)]
      exact h.node id
    · have hnew := Forest.node_add_self forest k line
      have hnew' := Forest.node_add_self forest' k' line'
      rw [show (forest'.add k' line').2 = forest.size from hsize] at hnew'
      rw [show (forest.add k line).2 = forest.size from rfl] at hnew
      rw [hnew, hnew']
      exact ⟨hkind, rfl, rfl, rfl, rfl, rfl, rfl⟩
    · rw [Forest.node_of_size_le (by rw [Forest.size_add]; exact hid),
        Forest.node_of_size_le (by rw [Forest.size_add, hsize]; exact hid)]
      exact .default

end SameForest

namespace Lined

variable (h : L.Lined forest forest')
include h

theorem update (id : NodeId) {change change' : Node → Node} (hsize : forest'.size = forest.size)
    (hline : ∀ node, (change node).line = node.line) (hline' : ∀ node, (change' node).line = node.line)
    (hheard : (change (forest.node id)).kind.isSilent = false ∨ (change (forest.node id)).type.isSome →
      L.line (forest.line id) (forest'.line id)) :
    L.Lined (forest.update id change) (forest'.update id change') := by
  intro other hother
  simp only [Forest.kind, Forest.type?, Forest.line, Forest.node_update_eq, hsize] at hother ⊢
  split
  · rename_i hid
    rw [if_pos hid] at hother
    rw [hline, hline', ← hid.1]
    have hline := hheard hother
    rw [← hid.1] at hline
    exact hline
  · rw [if_neg ‹_›] at hother
    exact h other hother

theorem append (parent child : NodeId) (hsize : forest'.size = forest.size) :
    L.Lined (forest.append parent child) (forest'.append parent child) := by
  unfold Forest.append
  have hchild : L.Lined (forest.update child fun node => { node with parent := some parent })
      (forest'.update child fun node => { node with parent := some parent }) :=
    Lined.update h child hsize (fun _ => rfl) (fun _ => rfl) (h child)
  exact Lined.update hchild parent (by simpa using hsize) (fun _ => rfl) (fun _ => rfl) (hchild parent)

theorem add (hsize : forest'.size = forest.size) {line line' : Nat}
    (hline : k.isSilent = false → L.line line line') :
    L.Lined (forest.add k line).1 (forest'.add k' line').1 := by
  intro id hid
  rcases lt_trichotomy id forest.size with hlt | rfl | hlt
  · simp only [Forest.kind, Forest.type?, Forest.line, Forest.node_add_of_lt _ _ _ hlt,
      Forest.node_add_of_lt forest' k' line' (hsize ▸ hlt)] at hid ⊢
    exact h id hid
  · have hnew := Forest.node_add_self forest k line
    have hnew' := Forest.node_add_self forest' k' line'
    rw [show (forest'.add k' line').2 = forest.size from hsize] at hnew'
    rw [show (forest.add k line).2 = forest.size from rfl] at hnew
    simp only [Forest.kind, Forest.type?, Forest.line, hnew, hnew'] at hid ⊢
    exact hline (hid.resolve_right (by simp))
  · rw [Forest.kind, Forest.type?, Forest.node_of_size_le (by rw [Forest.size_add]; exact hlt)] at hid
    exact absurd hid (by decide)

end Lined

namespace SameTree

variable {known : Set NodeId} (h : L.SameTree known forest forest')
include h

theorem line_of_kind (hkind : (forest.kind id).isSilent = false) :
    L.line (forest.line id) (forest'.line id) := h.lined id (.inl hkind)

theorem line_of_type (htype : (forest.type? id).isSome) : L.line (forest.line id) (forest'.line id) :=
  h.lined id (.inr htype)

/-- Changing one node in the same way. One whose line is not known keeps its kind and its type. -/
theorem update (id : NodeId) {change change' : Node → Node}
    (hchange : L.SameNode (forest.node id) (forest'.node id) →
      L.SameNode (change (forest.node id)) (change' (forest'.node id)))
    (hline : ∀ node, (change node).line = node.line) (hline' : ∀ node, (change' node).line = node.line)
    (hknown : id ∈ known ∨ (change (forest.node id)).kind = forest.kind id ∧
      (change (forest.node id)).type = forest.type? id) :
    L.SameTree known (forest.update id change) (forest'.update id change') where
  toSameForest := h.toSameForest.update id hchange
  lined := by
    refine h.lined.update id h.size hline hline' fun hheard => ?_
    rcases hknown with hid | ⟨hkind, htype⟩
    · exact h.line id hid
    · rw [hkind, htype] at hheard
      exact h.lined id hheard
  line other hother := by
    rw [Forest.line, Forest.line, Forest.node_update_eq, Forest.node_update_eq, h.size]
    split
    · rename_i hid
      rw [hline, hline', ← hid.1]
      exact h.line other hother
    · exact h.line other hother

/-- Changing the links of one node. -/
theorem relink (id : NodeId) {change change' : Node → Node}
    (hchange : L.SameNode (forest.node id) (forest'.node id) →
      L.SameNode (change (forest.node id)) (change' (forest'.node id)))
    (hkeep : ∀ node, (change node).kind = node.kind ∧ (change node).type = node.type ∧
      (change node).line = node.line)
    (hline' : ∀ node, (change' node).line = node.line) :
    L.SameTree known (forest.update id change) (forest'.update id change') :=
  h.update id hchange (fun node => (hkeep node).2.2) hline' (.inr ⟨(hkeep _).1, (hkeep _).2.1⟩)

theorem setKind (hid : id ∈ known) (hkind : L.SameKind k k') :
    L.SameTree known (forest.setKind id k) (forest'.setKind id k') :=
  h.update id (fun hnode => { hnode with kind := hkind }) (fun _ => rfl) (fun _ => rfl) (.inl hid)

theorem setType (hid : id ∈ known) (type : Ty) :
    L.SameTree known (forest.setType id type) (forest'.setType id type) :=
  h.update id (fun hnode => { hnode with type := rfl }) (fun _ => rfl) (fun _ => rfl) (.inl hid)

theorem bind (hid : id ∈ known) (symbol : SymbolId) :
    L.SameTree known (forest.bind id symbol) (forest'.bind id symbol) :=
  h.update id (fun hnode => { hnode with kind := hnode.kind.bind symbol }) (fun _ => rfl) (fun _ => rfl)
    (.inl hid)

theorem append (parent child : NodeId) :
    L.SameTree known (forest.append parent child) (forest'.append parent child) := by
  unfold Forest.append
  refine SameTree.relink (SameTree.relink h child ?_ ?_ ?_) parent ?_ ?_ ?_
  · exact fun hnode => { hnode with parent := rfl }
  · exact fun _ => ⟨rfl, rfl, rfl⟩
  · exact fun _ => rfl
  · exact fun hnode => { hnode with children := by rw [hnode.children] }
  · exact fun _ => ⟨rfl, rfl, rfl⟩
  · exact fun _ => rfl

theorem setRoot (id : NodeId) : L.SameTree known (forest.setRoot id) (forest'.setRoot id) :=
  { h with toSameForest := h.toSameForest.setRoot id }

theorem replace? (parent old new : NodeId) : Option.Rel (L.SameTree known)
    (forest.replace? parent old new) (forest'.replace? parent old new) := by
  unfold Forest.replace?
  rw [h.children]
  split
  · refine .some (SameTree.relink (SameTree.relink (SameTree.relink h parent ?_ ?_ ?_) new ?_ ?_ ?_) old
      ?_ ?_ ?_)
    · exact fun hnode => { hnode with children := by rw [hnode.children] }
    · exact fun _ => ⟨rfl, rfl, rfl⟩
    · exact fun _ => rfl
    · exact fun hnode => { hnode with parent := rfl }
    · exact fun _ => ⟨rfl, rfl, rfl⟩
    · exact fun _ => rfl
    · exact fun hnode => { hnode with parent := rfl }
    · exact fun _ => ⟨rfl, rfl, rfl⟩
    · exact fun _ => rfl
  · exact .none

theorem add (hkind : L.SameKind k k') {line line' : Nat} (hline : L.line line line') :
    L.SameTree (insert forest.size known) (forest.add k line).1 (forest'.add k' line').1 where
  toSameForest := h.toSameForest.add hkind line line'
  lined := h.lined.add h.size fun _ => hline
  line id hid := by
    rcases lt_trichotomy id forest.size with hlt | rfl | hlt
    · rw [Forest.line, Forest.line, Forest.node_add_of_lt _ _ _ hlt,
        Forest.node_add_of_lt _ _ _ (h.size ▸ hlt)]
      exact h.line id (hid.resolve_left (Nat.ne_of_lt hlt))
    · have hnew := Forest.node_add_self forest k line
      have hnew' := Forest.node_add_self forest' k' line'
      rw [show (forest'.add k' line').2 = forest.size from h.size] at hnew'
      rw [show (forest.add k line).2 = forest.size from rfl] at hnew
      rwa [Forest.line, Forest.line, hnew, hnew']
    · have hold := h.line id (hid.resolve_left (Nat.ne_of_gt hlt))
      rw [Forest.line, Forest.line, Forest.node_of_size_le (Nat.le_of_lt hlt),
        Forest.node_of_size_le (h.size ▸ Nat.le_of_lt hlt)] at hold
      rwa [Forest.line, Forest.line, Forest.node_of_size_le (by rw [Forest.size_add]; exact hlt),
        Forest.node_of_size_le (by rw [Forest.size_add, h.size]; exact hlt)]

theorem mono {fewer : Set NodeId} (hsubset : fewer ⊆ known) : L.SameTree fewer forest forest' :=
  { h with line := fun id hid => h.line id (hsubset hid) }

/-- Putting a node above a typed one. The line of the new one is known. -/
theorem wrap (htype : (forest.type? id).isSome) (hkind : L.SameKind k k') :
    L.SameTree (insert (forest.wrap id k).2 known) (forest.wrap id k).1 (forest'.wrap id k').1 ∧
      (forest'.wrap id k').2 = (forest.wrap id k).2 := by
  have hnode := h.node id
  have hwrapper : (forest'.add k' (forest'.node id).line).2 = (forest.add k (forest.node id).line).2 :=
    h.size
  refine ⟨?_, hwrapper⟩
  simp only [Forest.wrap, hnode.scope, hnode.function, hnode.parent, hwrapper]
  refine SameTree.append ?_ _ _
  have hplaced : L.SameTree (insert (forest.add k (forest.node id).line).2 known)
      ((forest.add k (forest.node id).line).1.update (forest.add k (forest.node id).line).2 fun node =>
        { node with scope := (forest.node id).scope, function := (forest.node id).function })
      ((forest'.add k' (forest'.node id).line).1.update (forest.add k (forest.node id).line).2 fun node =>
        { node with scope := (forest.node id).scope, function := (forest.node id).function }) := by
    refine SameTree.relink (h.add hkind (h.line_of_type htype)) _ ?_ ?_ ?_
    · exact fun hnode => { hnode with scope := rfl, function := rfl }
    · exact fun _ => ⟨rfl, rfl, rfl⟩
    · exact fun _ => rfl
  generalize (forest.add k (forest.node id).line).1.update _ _ = placed at hplaced ⊢
  generalize (forest'.add k' (forest'.node id).line).1.update _ _ = placed' at hplaced ⊢
  cases (forest.node id).parent with
  | none =>
    simp only [hplaced.root]
    split
    · exact hplaced.setRoot _
    · exact hplaced
  | some parent =>
    have hreplaced := hplaced.replace? parent id (forest.add k (forest.node id).line).2
    dsimp only
    revert hreplaced
    generalize placed.replace? parent id _ = found, placed'.replace? parent id _ = found'
    intro hreplaced
    cases hreplaced with
    | none => exact hplaced
    | some hfound => exact hfound

end SameTree

end Likeness

end MiniC
