import MiniC.Proofs.Build.Steps
import MiniC.Proofs.Tree.Written

/-!
# Steps of construction on trees

`Builder.Shows` reads the operands of a builder as trees without numbers and lines. A step of
construction `Makes` one tree of those on top, whatever is below them, and is not refused: under this
reading a builder is a stack of trees.
-/

namespace MiniC

namespace Forest

variable {forest : Forest}

/-- A node without a parent is below no other. -/
theorem eq_of_below_of_parent (hl : forest.Linked) {id m : NodeId} (hparent : forest.parent id = none)
    (h : forest.Below id m) : id = m := by
  by_contra hne
  obtain ⟨parent, hsome, -⟩ := h.exists_parent hl hne
  simp [hparent] at hsome

section Adopt

variable {kind : Kind} {line : Nat} {children : List NodeId}

theorem rising_adopt (hr : forest.Rising) (hf : forest.Free children) :
    (forest.adopt kind line children).Rising := by
  intro p c hc
  rw [children_adopt hf] at hc
  split at hc
  · next hp => exact hp ▸ hf.lt_size c hc
  · exact hr hc

/-- A new node leaves what older ones say. -/
theorem contents_adopt_of_lt (hr : forest.Rising) (hf : forest.Free children)
    {id : Nat} (hid : id < forest.size) :
    (forest.adopt kind line children).contents id = forest.contents id := by
  refine contents_congr hr (rising_adopt hr hf) fun m hm _ => ?_
  have hne : m ≠ forest.size := by omega
  rw [kind_adopt hf, children_adopt hf, node_adopt hf, if_neg hne, if_neg hne, if_neg hne]
  refine ⟨rfl, rfl, ?_⟩
  split <;> rfl

theorem contents_adopt_self (hr : forest.Rising) (hf : forest.Free children) :
    (forest.adopt kind line children).contents forest.size =
      Tree.bare kind.plain (children.map forest.contents) := by
  rw [contents_eq (Rising.ranked (rising_adopt hr hf)), kind_adopt hf, children_adopt hf, node_adopt hf,
    if_pos rfl, if_pos rfl, if_pos rfl]
  exact congrArg _ (List.map_congr_left fun c hc => contents_adopt_of_lt hr hf (hf.lt_size c hc))

end Adopt

section Update

variable {id : Nat} {change : Node → Node}

/-- A change that keeps the links of a node. -/
structure KeepsLinks (change : Node → Node) : Prop where
  children : ∀ node, (change node).children = node.children
  parent : ∀ node, (change node).parent = node.parent

theorem KeepsLinks.children_update (h : KeepsLinks change) (m : NodeId) :
    (forest.update id change).children m = forest.children m := by
  simp only [Forest.children, node_update_eq]
  split
  · next hm => rw [h.children, hm.1]
  · rfl

theorem KeepsLinks.parent_update (h : KeepsLinks change) (m : NodeId) :
    (forest.update id change).parent m = forest.parent m := by
  simp only [Forest.parent, node_update_eq]
  split
  · next hm => rw [h.parent, hm.1]
  · rfl

theorem KeepsLinks.linked_update (h : KeepsLinks change) (hl : forest.Linked) :
    (forest.update id change).Linked := by
  refine ⟨fun {p c} hc => ?_, fun {p c} hc => ?_, fun p => ?_⟩
  · rw [h.parent_update]
    exact hl.parent_of_mem (h.children_update p ▸ hc)
  · rw [h.children_update]
    exact hl.mem_of_parent (h.parent_update c ▸ hc)
  · rw [h.children_update]
    exact hl.nodup p

theorem KeepsLinks.rising_update (h : KeepsLinks change) (hr : forest.Rising) :
    (forest.update id change).Rising := fun {p _} hc => hr (h.children_update p ▸ hc)

/-- A change of a node without a parent leaves what the others say. -/
theorem KeepsLinks.contents_update_of_ne (h : KeepsLinks change) (hl : forest.Linked)
    (hr : forest.Rising) (hparent : forest.parent id = none) {m : Nat} (hm : m ≠ id) :
    (forest.update id change).contents m = forest.contents m := by
  refine contents_congr hr (h.rising_update hr) fun n _ hn => ?_
  have hne : n ≠ id := fun he => hm (eq_of_below_of_parent hl (he ▸ hparent) hn ▸ he)
  exact ⟨congrArg Node.kind (node_update_of_ne _ _ hne), h.children_update n,
    congrArg Node.casts (node_update_of_ne _ _ hne)⟩

theorem KeepsLinks.contents_update_self (h : KeepsLinks change) (hr : forest.Rising)
    (hid : id < forest.size) :
    (forest.update id change).contents id =
      .node ⟨(change (forest.node id)).kind.plain, (change (forest.node id)).casts⟩
        ((forest.children id).map forest.contents) := by
  have hnode : (forest.update id change).node id = change (forest.node id) := by
    rw [node_update _ _ _ _ hid, if_pos rfl]
  rw [contents_eq (Rising.ranked (h.rising_update hr)), h.children_update, Forest.kind, hnode]
  refine congrArg _ (List.map_congr_left fun c hc => ?_)
  refine contents_congr hr (h.rising_update hr) fun n hn _ => ?_
  have hne : n ≠ id := Nat.ne_of_lt (Nat.lt_of_le_of_lt hn (hr hc))
  exact ⟨congrArg Node.kind (node_update_of_ne _ _ hne), h.children_update n,
    congrArg Node.casts (node_update_of_ne _ _ hne)⟩

end Update

/-- What a node says gives its kind, its casts and what its children say. -/
theorem of_contents (hr : forest.Rising) {id : NodeId} {content : Content} {parts : List Tree}
    (h : forest.contents id = .node content parts) :
    (forest.kind id).plain = content.kind ∧ (forest.node id).casts = content.casts ∧
      (forest.children id).map forest.contents = parts := by
  rw [contents_eq hr.ranked] at h
  obtain ⟨rfl, hparts⟩ := Rose.node.inj h
  exact ⟨rfl, rfl, hparts⟩

theorem kind_of_contents (hr : forest.Rising) {id : NodeId} {part : TypePart} {casts : List Ty}
    {parts : List Tree} (h : forest.contents id = .node ⟨.type part, casts⟩ parts) :
    forest.kind id = .type part := by
  have hplain := (of_contents hr h).1
  cases hkind : forest.kind id <;> simp_all [Kind.plain]

end Forest

/-- Some nodes in hand say `parts`, and the operands of a builder, the top one first, say `trees`. None of
them is a part of anything. -/
structure Builder.Handles (builder : Builder) (held : List NodeId) (parts trees : List Tree) : Prop where
  linked : builder.forest.Linked
  rising : builder.forest.Rising
  free : builder.forest.Free (held ++ builder.stack)
  held_eq : held.map builder.forest.contents = parts
  stack_eq : builder.stack.map builder.forest.contents = trees

/-- The operands of a builder, the top one first, say `trees`. -/
abbrev Builder.Shows (builder : Builder) (trees : List Tree) : Prop := builder.Handles [] [] trees

namespace Build

open Ensures

variable {builder : Builder} {held : List NodeId} {tree : Tree} {parts trees : List Tree} {line : Nat}

/-- Nothing has been built. -/
theorem shows_empty : ({} : Builder).Shows [] :=
  ⟨Forest.raw_empty.linked, Forest.raw_empty.rising, ⟨by simp, by simp, .nil⟩, rfl, rfl⟩

theorem handles_pop (h : builder.Handles held parts (tree :: trees)) :
    Ensures (pop line) builder Fault.Never fun id builder' =>
      builder'.forest = builder.forest ∧ builder.forest.contents id = tree ∧
        builder'.Handles (id :: held) (tree :: parts) trees := by
  obtain ⟨id, stack, hstack, rfl, hrest⟩ := List.map_eq_cons_iff.mp h.stack_eq
  simp only [pop, bind_iff, get_iff, hstack, modify_iff, pure_iff]
  refine ⟨trivial, trivial, h.linked, h.rising, ?_, by simp [h.held_eq], hrest⟩
  refine h.free.perm ?_
  rw [hstack]
  exact List.perm_middle

theorem handles_popMany {before : List Tree} {count : Nat} (h : builder.Shows (before ++ trees))
    (hcount : before.length = count) :
    Ensures (popMany count line) builder Fault.Never fun ids builder' =>
      builder'.Handles ids before.reverse trees := by
  obtain ⟨taken, others, hstack, htaken, hothers⟩ := List.map_eq_append_iff.mp h.stack_eq
  have hlength : taken.length = count := by rw [← hcount, ← htaken, List.length_map]
  have htake : builder.stack.take count = taken := by rw [hstack, ← hlength, List.take_left]
  have hdrop : builder.stack.drop count = others := by rw [hstack, ← hlength, List.drop_left]
  have henough : ¬builder.stack.length < count := by simp [hstack, hlength]
  simp only [popMany, bind_iff, get_iff, henough, ite_iff, modify_iff, pure_iff, htake, hdrop]
  refine ⟨fun hc => hc.elim, fun _ => ⟨h.linked, h.rising, ?_, by simp [htaken], hothers⟩⟩
  refine h.free.perm ?_
  rw [List.nil_append, hstack]
  exact (List.reverse_perm taken).symm.append_right _

theorem handles_popType {part : TypePart} {casts : List Ty} {below : List Tree}
    (h : builder.Handles held parts (.node ⟨.type part, casts⟩ below :: trees)) :
    Ensures (popType line) builder Fault.Never fun id builder' =>
      builder'.forest = builder.forest ∧
        builder.forest.contents id = .node ⟨.type part, casts⟩ below ∧
        builder'.Handles (id :: held) (.node ⟨.type part, casts⟩ below :: parts) trees := by
  simp only [popType, bind_iff, get_iff]
  refine (handles_pop h).imp ?_
  rintro id builder' ⟨hforest, hid, hhandles⟩
  have hkind := Forest.kind_of_contents h.rising hid
  rw [← hforest] at hkind
  simp only [hkind, pure_iff]
  exact ⟨hforest, hid, hhandles⟩

/-- The operand of a part that may be absent. -/
theorem handles_popIf {present : Option Tree} (h : builder.Shows (present.toList ++ trees)) :
    Ensures (popIf present.isSome line) builder Fault.Never fun ids builder' =>
      builder'.Handles ids present.toList trees := by
  cases present with
  | none => exact h
  | some tree =>
    simp only [popIf, Option.isSome_some, if_true, bind_iff, pure_iff]
    refine (handles_pop h).imp ?_
    rintro id builder' ⟨-, -, hhandles⟩
    exact hhandles

/-- A change of the node in hand. -/
theorem handles_update {id : NodeId} (change : Node → Node) (hchange : Forest.KeepsLinks change)
    (h : builder.Handles (id :: held) (tree :: parts) trees) :
    Builder.Handles { builder with forest := builder.forest.update id change } (id :: held)
      (.node ⟨(change (builder.forest.node id)).kind.plain, (change (builder.forest.node id)).casts⟩
        ((builder.forest.children id).map builder.forest.contents) :: parts) trees := by
  have hmem : id ∈ id :: held ++ builder.stack := by simp
  have hparent := h.free.parent_eq id hmem
  have hsame : ∀ m ∈ held ++ builder.stack,
      (builder.forest.update id change).contents m = builder.forest.contents m := fun m hm =>
    hchange.contents_update_of_ne h.linked h.rising hparent fun he =>
      (List.nodup_cons.mp h.free.nodup).1 (he ▸ hm)
  refine ⟨hchange.linked_update h.linked, hchange.rising_update h.rising, ⟨?_, ?_, h.free.nodup⟩, ?_, ?_⟩
  · intro m hm
    rw [Forest.size_update]
    exact h.free.lt_size m hm
  · intro m hm
    rw [hchange.parent_update]
    exact h.free.parent_eq m hm
  · rw [List.map_cons, hchange.contents_update_self h.rising (h.free.lt_size id hmem)]
    refine congrArg _ ((List.map_congr_left fun m hm => hsame m ?_).trans (List.cons.inj h.held_eq).2)
    exact List.mem_append_left _ hm
  · exact (List.map_congr_left fun m hm => hsame m (List.mem_append_right _ hm)).trans h.stack_eq

theorem handles_updateType {id : NodeId} {change : TypePart → TypePart} {part : TypePart}
    {casts : List Ty} {below : List Tree}
    (h : builder.Handles (id :: held) (.node ⟨.type part, casts⟩ below :: parts) trees) :
    Ensures (updateType id change) builder Fault.Never fun _ builder' =>
      builder'.Handles (id :: held) (.node ⟨.type (change part), casts⟩ below :: parts) trees := by
  have hid := (List.cons.inj h.held_eq).1
  obtain ⟨-, hcasts, hbelow⟩ := Forest.of_contents h.rising hid
  simp only [updateType, modify_iff, Forest.kind_of_contents h.rising hid]
  have hhandles := handles_update (fun node => { node with kind := .type (change part) })
    ⟨fun _ => rfl, fun _ => rfl⟩ h
  rwa [hcasts, hbelow] at hhandles

/-- A node above what is in hand takes its place. -/
theorem handles_push {kind : Kind} (hkind : kind.plain = kind) (h : builder.Handles held parts trees) :
    Ensures (push kind line held) builder Fault.Never fun _ builder' =>
      builder'.Shows (Tree.bare kind parts :: trees) := by
  have hfree := h.free.of_append_left
  show Builder.Shows ⟨builder.forest.adopt kind line held, builder.forest.size :: builder.stack⟩ _
  refine ⟨Forest.linked_adopt h.linked hfree, Forest.rising_adopt h.rising hfree,
    Forest.free_adopt h.free, rfl, ?_⟩
  rw [List.map_cons, Forest.contents_adopt_self h.rising hfree, hkind, h.held_eq]
  refine congrArg _ ((List.map_congr_left fun m hm => ?_).trans h.stack_eq)
  exact Forest.contents_adopt_of_lt h.rising hfree (h.free.of_append_right.lt_size m hm)

/-- A node in hand is put aside. -/
theorem handles_tail {id : NodeId} (h : builder.Handles (id :: held) (tree :: parts) trees) :
    builder.Handles held parts trees :=
  ⟨h.linked, h.rising, ⟨fun m hm => h.free.lt_size m (List.mem_cons_of_mem _ hm),
    fun m hm => h.free.parent_eq m (List.mem_cons_of_mem _ hm), (List.nodup_cons.mp h.free.nodup).2⟩,
    (List.cons.inj h.held_eq).2, h.stack_eq⟩

/-- The node in hand is put back. -/
theorem shows_cons {id : NodeId} (h : builder.Handles [id] [tree] trees) :
    Builder.Shows { builder with stack := id :: builder.stack } (tree :: trees) :=
  ⟨h.linked, h.rising, h.free, rfl, by simp [← (List.cons.inj h.held_eq).1, ← h.stack_eq]⟩

/-- A step makes a tree of those on top of the operands, whatever is below them. -/
def Makes (step : Build Unit) (before : List Tree) (after : Tree) : Prop :=
  ∀ {builder : Builder} {trees : List Tree}, builder.Shows (before ++ trees) →
    Ensures step builder Fault.Never fun _ builder' => builder'.Shows (after :: trees)

theorem makes_leaf {kind : Kind} (hkind : kind.plain = kind) :
    Makes (push kind line []) [] (.bare kind []) := fun h => handles_push hkind h

theorem makes_int (value : Int) : Makes (int value line) [] (.bare (.int value) []) := makes_leaf rfl

theorem makes_char (value : Char) : Makes (char value line) [] (.bare (.char value) []) := makes_leaf rfl

theorem makes_string (value : String) : Makes (string value line) [] (.bare (.string value none) []) :=
  makes_leaf rfl

theorem makes_identifier (name : String) :
    Makes (identifier name line) [] (.bare (.identifier name none) []) := makes_leaf rfl

theorem makes_nothing : Makes (nothing line) [] Tree.nothing := makes_leaf rfl

theorem makes_breakOut : Makes (breakOut line) [] (.bare (.breakOut none) []) := makes_leaf rfl

theorem makes_continueOn : Makes (continueOn line) [] (.bare (.continueOn none) []) := makes_leaf rfl

/-! ### Types -/

theorem makes_base (name : BaseTy) :
    Makes (type (.base name) line) [] ((Ty.base name false).written false) := makes_leaf rfl

theorem makes_const (type : Ty) :
    Makes (const line) [type.written false] ((type.withConst true).written false) := by
  intro builder trees h
  rw [Ty.written_eq] at h
  rw [Ty.written_withConst]
  simp only [const, bind_iff, modify_iff]
  refine (handles_popType h).imp ?_
  rintro id builder₁ ⟨-, -, h⟩
  refine (handles_updateType h).imp ?_
  rintro _ builder₂ h
  exact shows_cons h

theorem handles_popWritten {type : Ty} {topLevel : Bool}
    (h : builder.Handles held parts (type.written topLevel :: trees)) :
    Ensures (popType line) builder Fault.Never fun id builder' =>
      builder'.forest = builder.forest ∧ builder.forest.contents id = type.written topLevel ∧
        builder'.Handles (id :: held) (type.written topLevel :: parts) trees := by
  rw [Ty.written_eq] at h ⊢
  exact handles_popType h

theorem makes_pointerType (type : Ty) :
    Makes (pointerType line) [type.written false] ((Ty.pointer type false).written false) := by
  intro builder trees h
  simp only [pointerType, bind_iff]
  refine (handles_popWritten h).imp ?_
  rintro id builder₁ ⟨-, -, h⟩
  exact handles_push rfl h

theorem makes_arrayType (element : Ty) (size : Option Nat) :
    Makes (arrayType size line) [element.written false] (.arrayOf false element size) := by
  intro builder trees h
  simp only [arrayType, bind_iff]
  refine (handles_popWritten h).imp ?_
  rintro id builder₁ ⟨-, -, h⟩
  exact handles_push rfl h

/-- A written type is followed to the type that it is. -/
theorem typeWithin_of_contents {forest : Forest} (hr : forest.Rising) {type : Ty} {topLevel : Bool}
    {levels : Nat} {id : NodeId} (hlevels : forest.weight id < levels)
    (h : forest.contents id = type.written topLevel) : forest.typeWithin levels id = some type := by
  induction type generalizing topLevel levels id with
  | base name constant =>
    obtain ⟨levels, rfl⟩ := Nat.exists_eq_succ_of_ne_zero (Nat.ne_zero_of_lt hlevels)
    simp [Forest.typeWithin, Forest.kind_of_contents hr h]
  | pointer target constant ih =>
    obtain ⟨levels, rfl⟩ := Nat.exists_eq_succ_of_ne_zero (Nat.ne_zero_of_lt hlevels)
    obtain ⟨-, -, hparts⟩ := Forest.of_contents hr h
    obtain ⟨c, hchildren, hc⟩ := List.map_eq_singleton_iff.mp hparts
    have hlt := Forest.weight_lt hr.ranked (hchildren ▸ List.mem_singleton_self c)
    have htarget := ih (by omega : forest.weight c < levels) hc
    simp [Forest.typeWithin, Forest.kind_of_contents hr h, Forest.child?, hchildren, htarget]
  | array element size constant ih =>
    obtain ⟨levels, rfl⟩ := Nat.exists_eq_succ_of_ne_zero (Nat.ne_zero_of_lt hlevels)
    obtain ⟨-, -, hparts⟩ := Forest.of_contents hr h
    obtain ⟨c, hchildren, hc⟩ := List.map_eq_singleton_iff.mp hparts
    have hlt := Forest.weight_lt hr.ranked (hchildren ▸ List.mem_singleton_self c)
    have helement := ih (by omega : forest.weight c < levels) hc
    simp [Forest.typeWithin, Forest.kind_of_contents hr h, Forest.child?, hchildren, helement]

/-- A cast comes behind those that the expression has already. -/
theorem makes_cast (kind : Kind) (casts : List Ty) (parts : List Tree) (type : Ty) :
    Makes (cast line) [.node ⟨kind, casts⟩ parts, type.written false]
      (.node ⟨kind, casts ++ [type]⟩ parts) := by
  intro builder trees h
  simp only [cast, bind_iff, get_iff]
  refine (handles_pop h).imp ?_
  rintro expr builder₁ ⟨-, -, h⟩
  refine (handles_popWritten h).imp ?_
  rintro id builder₂ ⟨hforest, hid, h⟩
  rw [← hforest] at hid
  have hlevels : builder₂.forest.weight id < builder₂.forest.size + 1 :=
    Nat.lt_succ_of_le (Forest.weight_le _ id)
  have htype : builder₂.forest.typeOf? id = some type :=
    typeWithin_of_contents h.rising hlevels hid
  simp only [htype, modify_iff]
  have hexpr := handles_tail h
  obtain ⟨hkind, hcasts, hparts⟩ := Forest.of_contents h.rising (List.cons.inj hexpr.held_eq).1
  have hkind : (builder₂.forest.node expr).kind.plain = kind := hkind
  have hadded := handles_update (fun node => { node with casts := node.casts ++ [type] })
    ⟨fun _ => rfl, fun _ => rfl⟩ hexpr
  simp only [hcasts, hparts, hkind] at hadded
  exact shows_cons hadded

/-! ### Expressions -/

theorem makes_binary (op : BinaryOp) (left right : Tree) :
    Makes (binary op line) [right, left] (.bare (.binary op) [left, right]) := by
  intro builder trees h
  simp only [binary, bind_iff]
  refine (handles_pop h).imp ?_
  rintro r builder₁ ⟨-, -, h⟩
  refine (handles_pop h).imp ?_
  rintro l builder₂ ⟨-, -, h⟩
  exact handles_push rfl h

theorem makes_unary (op : UnaryOp) (operand : Tree) :
    Makes (unary op line) [operand] (.bare (.unary op) [operand]) := by
  intro builder trees h
  simp only [unary, bind_iff]
  refine (handles_pop h).imp ?_
  rintro id builder₁ ⟨-, -, h⟩
  exact handles_push rfl h

theorem makes_subscript (array index : Tree) :
    Makes (subscript line) [index, array] (.bare .subscript [array, index]) := by
  intro builder trees h
  simp only [subscript, bind_iff]
  refine (handles_pop h).imp ?_
  rintro i builder₁ ⟨-, -, h⟩
  refine (handles_pop h).imp ?_
  rintro a builder₂ ⟨-, -, h⟩
  exact handles_push rfl h

/-- A node above some of the operands. -/
theorem makes_many {kind : Kind} {before : List Tree} {count : Nat} (hkind : kind.plain = kind)
    (hcount : before.length = count) :
    Makes (do let parts ← popMany count line; push kind line parts) before
      (.bare kind before.reverse) := by
  intro builder trees h
  simp only [bind_iff]
  refine (handles_popMany h hcount).imp ?_
  rintro ids builder₁ h
  exact handles_push hkind h

theorem makes_call (name : String) {arguments : List Tree} {count : Nat}
    (hcount : arguments.length = count) :
    Makes (call name count line) arguments (.bare (.call name none) arguments.reverse) :=
  makes_many rfl hcount

theorem makes_initializers {items : List Tree} {count : Nat} (hcount : items.length = count) :
    Makes (initializers count line) items (.bare .initializers items.reverse) :=
  makes_many rfl hcount

/-! ### Declarations -/

/-- The type on top becomes that of a declaration. -/
theorem handles_popTopLevel {part : TypePart} {casts : List Ty} {below : List Tree}
    (h : builder.Handles held parts (.node ⟨.type part, casts⟩ below :: trees)) :
    Ensures (do let type ← popType line; markTopLevel type; return type) builder Fault.Never
      fun id builder' => builder'.Handles (id :: held)
        (.node ⟨.type { part with topLevel := true }, casts⟩ below :: parts) trees := by
  simp only [bind_iff, pure_iff]
  refine (handles_popType h).imp ?_
  rintro id builder₁ ⟨-, -, h⟩
  exact handles_updateType h

theorem handles_popTopLevelWritten {type : Ty}
    (h : builder.Handles held parts (type.written false :: trees)) :
    Ensures (do let type ← popType line; markTopLevel type; return type) builder Fault.Never
      fun id builder' => builder'.Handles (id :: held) (type.written true :: parts) trees := by
  rw [Ty.written_eq] at h ⊢
  cases type <;> exact handles_popTopLevel h

theorem makes_declaration_of_part (name : String) (initial : Option Tree) {part : TypePart}
    {casts : List Ty} {below : List Tree} :
    Makes (declaration name initial.isSome line)
      (initial.toList ++ [.node ⟨.type part, casts⟩ below])
      (.bare (.declaration name none)
        (.node ⟨.type { part with topLevel := true }, casts⟩ below :: initial.toList)) := by
  intro builder trees h
  rw [List.append_assoc] at h
  simp only [declaration, bind_iff]
  refine (handles_popIf h).imp ?_
  rintro ids builder₁ h
  have htype := @handles_popTopLevel _ _ _ _ line _ _ _ h
  simp only [bind_iff, pure_iff] at htype
  exact htype.imp fun type builder₂ hmark => hmark.imp fun _ builder₃ h => handles_push rfl h

theorem makes_declaration (name : String) (type : Ty) (initial : Option Tree) :
    Makes (declaration name initial.isSome line) (initial.toList ++ [type.written false])
      (.bare (.declaration name none) (type.written true :: initial.toList)) := by
  rw [Ty.written_eq, Ty.written_eq]
  cases type <;> exact makes_declaration_of_part name initial

theorem makes_declaration_array (name : String) (element : Ty) (size : Option Nat) (initial : Option Tree) :
    Makes (declaration name initial.isSome line) (initial.toList ++ [.arrayOf false element size])
      (.bare (.declaration name none) (.arrayOf true element size :: initial.toList)) :=
  makes_declaration_of_part name initial

theorem makes_parameter (name : String) (type : Ty) :
    Makes (parameter name line) [type.written false]
      (.bare (.parameter name none) [type.written true]) := by
  intro builder trees h
  simp only [parameter, bind_iff]
  have htype := @handles_popTopLevelWritten _ _ _ _ line _ h
  simp only [bind_iff, pure_iff] at htype
  exact htype.imp fun id builder₁ hmark => hmark.imp fun _ builder₂ h => handles_push rfl h

theorem makes_parameters {params : List Tree} {count : Nat} (hcount : params.length = count) :
    Makes (parameters count line) params (.bare .parameters params.reverse) :=
  makes_many rfl hcount

theorem makes_function (name : String) (result : Ty) (params : Tree) (body : Option Tree) :
    Makes (function name body.isSome line) (body.toList ++ [params, result.written false])
      (.bare (.function name none) (result.written true :: params :: body.toList)) := by
  intro builder trees h
  rw [List.append_assoc] at h
  simp only [function, bind_iff]
  refine (handles_popIf h).imp ?_
  rintro ids builder₁ h
  refine (handles_pop h).imp ?_
  rintro id builder₂ ⟨-, -, h⟩
  have htype := @handles_popTopLevelWritten _ _ _ _ line _ h
  simp only [bind_iff, pure_iff] at htype
  exact htype.imp fun id builder₃ hmark => hmark.imp fun _ builder₄ h => handles_push rfl h

/-! ### Statements -/

theorem makes_exprStatement (value : Tree) :
    Makes (exprStatement line) [value] (.bare .exprStatement [value]) := by
  intro builder trees h
  simp only [exprStatement, bind_iff]
  refine (handles_pop h).imp ?_
  rintro id builder₁ ⟨-, -, h⟩
  exact handles_push rfl h

theorem makes_block {statements : List Tree} {count : Nat} (hcount : statements.length = count) :
    Makes (block count line) statements (.bare .block statements.reverse) :=
  makes_many rfl hcount

theorem makes_ifElse (test yes : Tree) (no : Option Tree) :
    Makes (ifElse no.isSome line) (no.toList ++ [yes, test])
      (.bare (.ifElse none) (test :: yes :: no.toList)) := by
  cases no with
  | none => exact makes_many rfl rfl
  | some no => exact makes_many rfl rfl

theorem makes_whileLoop (test body : Tree) :
    Makes (whileLoop line) [body, test] (.bare (.whileLoop none) [test, body]) := makes_many rfl rfl

theorem makes_forLoop (start test next body : Tree) :
    Makes (forLoop line) [body, next, test, start] (.bare (.forLoop none) [start, test, next, body]) :=
  makes_many rfl rfl

theorem makes_giveBack (value : Option Tree) :
    Makes (giveBack value.isSome line) value.toList (.bare .giveBack value.toList) := by
  intro builder trees h
  simp only [giveBack, bind_iff]
  refine (handles_popIf h).imp ?_
  rintro ids builder₁ h
  exact handles_push rfl h

/-! ### Files -/

theorem contents_setRoot {forest : Forest} (hr : forest.Rising) (id m : NodeId) :
    (forest.setRoot id).contents m = forest.contents m :=
  @Forest.contents_congr forest (forest.setRoot id) hr hr m fun _ _ _ => ⟨rfl, rfl, rfl⟩

theorem shows_setRoot {id : NodeId} (h : builder.Shows trees) :
    Builder.Shows { builder with forest := builder.forest.setRoot id } trees := by
  refine ⟨⟨h.linked.parent_of_mem, h.linked.mem_of_parent, h.linked.nodup⟩, h.rising,
    ⟨h.free.lt_size, h.free.parent_eq, h.free.nodup⟩, rfl, ?_⟩
  exact (List.map_congr_left fun m _ => contents_setRoot h.rising id m).trans h.stack_eq

theorem makes_file {declarations : List Tree} {count : Nat} (hcount : declarations.length = count) :
    Makes (file count line) declarations (.bare .file declarations.reverse) := by
  intro builder trees h
  simp only [file, bind_iff]
  refine (handles_popMany h hcount).imp ?_
  rintro ids builder₁ h
  refine (handles_push rfl h).imp ?_
  rintro _ builder₂ h
  simp only [modify_iff]
  split
  · exact h
  · exact shows_setRoot h

end Build

/-- A builder that shows a file and nothing else is finished, and its forest says what the file does. -/
theorem Builder.finish_of_shows {builder : Builder} {declarations : List Tree}
    (h : builder.Shows [Tree.bare .file declarations]) :
    ∃ forest root, builder.finish = .ok forest ∧ forest.root = some root ∧
      forest.contents root = Tree.bare .file declarations := by
  obtain ⟨root, hstack, hroot⟩ := List.map_eq_singleton_iff.mp h.stack_eq
  have hkind : builder.forest.kind root = .file := by
    have hplain := (Forest.of_contents h.rising hroot).1
    cases hkind : builder.forest.kind root <;> simp_all [Kind.plain]
  exact ⟨builder.forest.setRoot root, root, by simp [finish, hstack, hkind], rfl,
    (Build.contents_setRoot h.rising root root).trans hroot⟩

end MiniC
