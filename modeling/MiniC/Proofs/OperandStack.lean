import MiniC.Proofs.Grammar.Operands

/-!
# The discipline of the operand stack

A reader that has a result leaves nodes of its category above the operands that were there, and no others:
one expression, one type, or as many statements as it says. What was there before is as it was, be it
operands or nodes, whatever they are and whatever the tokens. So every step of construction finds the
operands that it takes, and every slot for a child holds a node of the role that the kind of its parent asks
for.
-/

namespace MiniC

/-- The nodes that `before` has are as they were, and every new one has children of the roles that its kind
asks for. -/
structure Builder.Keeps (before after : Builder) : Prop where
  size_le : before.forest.size ≤ after.forest.size
  untouched : ∀ id : Nat, id < before.forest.size → after.forest.node id = before.forest.node id
  holds : ∀ id : Nat, before.forest.size ≤ id → (after.forest.kind id).Holds (after.forest.roles id)

/-- New nodes of some roles, the top one first, stand above the operands of `before`, and nothing else has
become of them. -/
structure Builder.Leaves (before : Builder) (roles : List Role) (after : Builder) : Prop where
  keeps : before.Keeps after
  stack : ∃ ids : List NodeId, after.stack = ids ++ before.stack ∧ ids.map after.forest.role = roles ∧
    ids.Nodup ∧ ∀ id : Nat, id ∈ ids → before.forest.size ≤ id ∧ id < after.forest.size

namespace Build

variable {base builder : Builder} {trees : List Tree}

theorem roles_extend (base more : Forest) (id : NodeId) :
    (base.extend more).roles (id + base.size) = more.roles id := by
  rw [Forest.roles, Forest.children_extend, List.map_map]
  exact List.map_congr_left fun c _ => congrArg Kind.role (Forest.kind_extend base more c)

theorem keeps_of_grown (h : base.Grown trees builder) : base.Keeps builder := by
  obtain ⟨more, rfl, -, hsince⟩ := h.exists_more
  refine ⟨?_, fun id hid => Forest.node_extend_of_lt hid, fun id hid => ?_⟩
  · simp [Builder.extend]
  · obtain ⟨new, rfl⟩ := Nat.exists_eq_add_of_le' hid
    simp only [Builder.extend, Forest.kind_extend, roles_extend]
    exact hsince.raw.shaped new

theorem leaves_of_grown (h : base.Grown trees builder) : base.Leaves (trees.map Tree.role) builder := by
  refine ⟨keeps_of_grown h, ?_⟩
  obtain ⟨more, rfl, -, hsince⟩ := h.exists_more
  obtain ⟨ids, hstack, hroles, -⟩ := hsince.stack
  have hstack : more.stack = ids := by simpa using hstack
  have hnodup : more.stack.Nodup := hsince.free.nodup
  have hlt : ∀ id : Nat, id ∈ more.stack → id < more.forest.size := hsince.free.lt_size
  subst hstack
  refine ⟨more.stack.map (· + base.forest.size), rfl, ?_, ?_, ?_⟩
  · rw [← hroles, List.map_map]
    exact List.map_congr_left fun id _ => congrArg Kind.role (Forest.kind_extend ..)
  · exact hnodup.map fun _ _ heq => Nat.add_right_cancel heq
  · intro id hid
    obtain ⟨new, hmem, rfl⟩ := List.mem_map.mp hid
    have hnew := hlt new hmem
    simp only [Builder.extend, Forest.size_extend]
    omega

end Build

namespace Grammar

open Parse

variable {α : Type} {start : Parser}

/-- A result of the step stands for new nodes on the operand stack whose roles satisfy `post`. If the step
is refused, the nodes that were there are as they were all the same. -/
def LeavesOnStack (start : Parser) (step : Parse α) (post : α → List Role → Prop) : Prop :=
  match step start with
  | .ok value parser => ∃ roles, post value roles ∧ start.builder.Leaves roles parser.builder
  | .error _ parser => start.builder.Keeps parser.builder

theorem leavesOnStack_of_yields {step : Parse α} {post : α → List Role → Prop}
    (h : Yields start.builder start step fun value parser =>
      ∃ trees, post value (trees.map Tree.role) ∧ start.builder.Grown trees parser.builder) :
    LeavesOnStack start step post := by
  unfold LeavesOnStack
  cases hresult : step start with
  | ok value parser =>
    obtain ⟨trees, hpost, hgrown⟩ := h.of_ok hresult
    exact ⟨_, hpost, Build.leaves_of_grown hgrown⟩
  | error fault parser =>
    obtain ⟨trees, hgrown⟩ := h.of_error hresult
    exact Build.keeps_of_grown hgrown

/-- What readers leave on the operand stack of a parser. -/
structure Disciplined (start : Parser) : Prop where
  expression : ∀ levels power, LeavesOnStack start (expressionWithin levels power) fun _ roles =>
    roles = [.expression]
  typeName : ∀ power, LeavesOnStack start (typeName power) fun _ roles => roles = [.type]
  statement : ∀ levels, LeavesOnStack start (statementWithin levels) fun count roles =>
    roles.length = count ∧ 1 ≤ count ∧ (∀ role ∈ roles, role.IsStatement) ∧
      (count ≠ 1 → start.current.kind.startsType = true ∧ ∀ role ∈ roles, role = .declaration)
  declaration : ∀ levels, LeavesOnStack start (declaration (statementWithin levels)) fun count roles =>
    roles.length = count ∧ 1 ≤ count ∧ (∀ role ∈ roles, role = .declaration ∨ role = .function) ∧
      (count ≠ 1 → ∀ role ∈ roles, role = .declaration)
  block : ∀ levels, LeavesOnStack start (block (statementWithin levels)) fun count roles =>
    count = 1 ∧ roles = [.block]

/-- Every slot for a child holds a node of the role that the kind of its parent asks for. -/
def Filled (builder : Builder) : Prop := ∀ id, (builder.forest.kind id).Holds (builder.forest.roles id)

/-- The step fills slots as it should, be it refused or not. -/
def Fills (start : Parser) (step : Parse α) : Prop :=
  match step start with
  | .ok _ parser => Filled parser.builder
  | .error _ parser => Filled parser.builder

theorem disciplined (start : Parser) : Disciplined start where
  expression levels power := leavesOnStack_of_yields <|
    (yieldsExpressions_expressionWithin levels power (Build.grown_self _)).imp
      fun _ _ ⟨tree, htree, h⟩ => ⟨[tree], by simp [htree.role_eq], h⟩
  typeName power := leavesOnStack_of_yields <|
    (yields_typeName power (Build.grown_self _)).imp fun _ _ ⟨type, htype, h⟩ =>
      ⟨[type.written false], by simp [Tree.role_written htype], h⟩
  statement levels := leavesOnStack_of_yields <|
    (yieldsStatements_statementWithin levels (Build.grown_self _)).imp
      fun _ _ ⟨left, hcount, hleft, h⟩ => by
        subst hcount
        refine ⟨left, ⟨List.length_map _, hleft.pos, ?_, fun hne => ?_⟩, by simpa using h⟩
        · exact List.forall_mem_map.mpr fun tree hmem => (hleft.isStatement tree hmem).isStatement
        · exact ⟨(hleft.several hne).1, List.forall_mem_map.mpr (hleft.several hne).2⟩
  declaration levels := leavesOnStack_of_yields <|
    (yields_declaration (yieldsStatements_statementWithin levels) (Build.grown_self _)).imp
      fun _ _ ⟨left, hcount, hleft, h⟩ => by
        subst hcount
        refine ⟨left, ⟨List.length_map _, hleft.pos, ?_, fun hne => ?_⟩, by simpa using h⟩
        · exact List.forall_mem_map.mpr fun tree hmem => Tree.role_of_declares (hleft.each tree hmem).2
        · exact List.forall_mem_map.mpr (hleft.several hne)
  block levels := leavesOnStack_of_yields <|
    (yields_block (yieldsStatements_statementWithin levels) (Build.grown_self _)).imp
      fun _ _ ⟨hcount, statements, _, h⟩ => ⟨[.bare .block statements], ⟨hcount, rfl⟩, h⟩

/-- Tokens that cannot be read as a file have their slots filled as well. -/
theorem fills_file (tokens : List Token) : Fills (Parser.start tokens) file := by
  have hfile := @yields_file (Parser.start tokens) (Build.grown_self {})
  unfold Fills
  cases hresult : file (Parser.start tokens) with
  | ok value parser =>
    obtain ⟨-, -, -, hsince⟩ := hfile.of_ok hresult
    exact hsince.raw.shaped
  | error fault parser =>
    obtain ⟨trees, hgrown⟩ := hfile.of_error hresult
    exact fun id => (Build.keeps_of_grown hgrown).holds id (Nat.zero_le id)

/-- **Readers leave what they say on the operand stack, and nothing else changes.** -/
theorem operand_stack_discipline :
    (∀ start : Parser, Disciplined start) ∧ ∀ tokens : List Token, Fills (Parser.start tokens) file :=
  ⟨disciplined, fills_file⟩

end Grammar

end MiniC
