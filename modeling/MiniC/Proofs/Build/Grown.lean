import MiniC.Proofs.Build.Frame

/-!
# Operands above others

`Builder.Grown` says what a builder has built since it was another one, whatever that one holds: some
operands on top, read as trees, with all that is below them. A step of construction `Composes` one tree of
those on top. It is not refused, and every node that it makes has children of the roles that its kind asks
for.
-/

namespace MiniC

namespace Tree

variable {tree : Tree} {type : Ty}

/-- The role of the top of a tree. -/
def role (tree : Tree) : Role := tree.kind.role

theorem role_written (h : type.Flat) (topLevel : Bool) : (type.written topLevel).role = .type := by
  cases type with
  | array => exact h.elim
  | _ => rfl

theorem IsExpression.role_eq (h : IsExpression tree) : tree.role = .expression := by
  induction h with
  | cast _ _ ih => exact ih
  | _ => rfl

theorem IsInitial.role_eq (h : IsInitial tree) :
    tree.role = .expression ∨ tree.role = .initializers := by
  cases h with
  | expression h => exact .inl h.role_eq
  | list => exact .inr rfl

theorem IsParameter.role_eq (h : IsParameter tree) : tree.role = .parameter := by
  cases h
  rfl

theorem IsTest.role_eq (h : IsTest tree) : tree.role = .expression ∨ tree.role = .absent := by
  cases h with
  | expression h => exact .inl h.role_eq
  | absent => exact .inr rfl

theorem IsNext.isClause (h : IsNext tree) : tree.role.IsClause := by cases h <;> trivial

theorem IsStatement.isStatement (h : IsStatement tree) : tree.role.IsStatement := by
  cases h <;> trivial

theorem role_of_declares (h : tree.declares) : tree.role = .declaration ∨ tree.role = .function := by
  obtain ⟨⟨kind, casts⟩, parts⟩ := tree
  cases kind <;> simp_all [declares, Tree.kind, role, Kind.isDeclaration, Kind.isFunction, Kind.role]

/-- What can stand as the first clause of a `for` loop. -/
def IsStart (tree : Tree) : Prop :=
  IsStatement tree ∧ (tree.declares ∨ tree.kind = .exprStatement ∨ tree.kind = .nothing)

theorem IsStart.isClause (h : IsStart tree) : tree.role.IsClause := by
  rcases h.2 with hdeclares | hkind | hkind
  · rcases role_of_declares hdeclares with hrole | hrole <;> simp [hrole, Role.IsClause]
  · simp [role, hkind, Kind.role, Role.IsClause]
  · simp [role, hkind, Kind.role, Role.IsClause]

/-- An expression with another cast in front. -/
def cast (type : Ty) : Tree → Tree
  | .node content parts => .node { content with casts := content.casts ++ [type] } parts

theorem IsExpression.cast_of_flat (htype : type.Flat) (h : IsExpression tree) :
    IsExpression (tree.cast type) := by
  obtain ⟨⟨kind, casts⟩, parts⟩ := tree
  exact .cast htype h

/-- The type of a variable before its declaration takes it and behind. -/
inductive Declares : Tree → Tree → Prop
  | plain {type : Ty} : type.Flat → Declares (type.written false) (type.written true)
  | array {element : Ty} {size : Option Nat} : element.Flat →
    (∀ count ∈ size, count < 18446744073709551616) →
    Declares (arrayOf false element size) (arrayOf true element size)

theorem Declares.isDeclaredType {written declared : Tree} (h : Declares written declared) :
    IsDeclaredType declared := by
  cases h with
  | plain h => exact .plain h
  | array h hsize => exact .array h hsize

theorem Declares.role_eq {written declared : Tree} (h : Declares written declared) :
    written.role = .type ∨ written.role = .array := by
  cases h with
  | plain h => exact .inl (role_written h false)
  | array => exact .inr rfl

end Tree

/-- Above all that `base` has, the operands of the builder say `trees`, the top one first. -/
structure Builder.Grown (base : Builder) (trees : List Tree) (builder : Builder) : Prop where
  exists_more : ∃ more : Builder, builder = base.extend more ∧ more.Shows trees ∧
    ({} : Builder).Since more [] (trees.map Tree.role)

namespace Build

variable {step : Build Unit} {before trees : List Tree} {after tree : Tree} {base builder : Builder}
  {type : Ty} {line : Nat}

/-- Nothing has been built from nothing. -/
theorem since_empty : ({} : Builder).Since {} [] [] :=
  ⟨Forest.raw_empty, ⟨List.forall_mem_nil _, List.forall_mem_nil _, List.nodup_nil⟩,
    Nat.le_refl _, fun _ _ => rfl, by simp, [], rfl, rfl, by simp⟩

theorem grown_self (base : Builder) : base.Grown [] base :=
  ⟨{}, base.extend_empty.symm, shows_empty, since_empty⟩

/-- A step puts one tree in the place of those on top of the operands. -/
structure Composes (step : Build Unit) (before : List Tree) (after : Tree) : Prop where
  makes : Makes step before after
  turns : Turns step (before.map Tree.role) [after.role]
  frames : Frames step

/-- A step that composes is not refused, whatever is below the operands that it takes. -/
theorem Composes.grown (h : Composes step before after) (hbuilder : base.Grown (before ++ trees) builder) :
    ∃ builder', step builder = .ok () builder' ∧ base.Grown (after :: trees) builder' := by
  obtain ⟨more, rfl, hshows, hsince⟩ := hbuilder.exists_more
  obtain ⟨⟨⟩, more', hrun, hshows'⟩ := (h.makes hshows).exists_ok
  rw [List.map_append] at hsince
  have hsince' := (h.turns hsince).of_ok hrun
  exact ⟨base.extend more', h.frames base hrun, more', rfl, hshows', by simpa using hsince'⟩

theorem Composes.of_turns {roles : List Role} {role : Role} (hmakes : Makes step before after)
    (hturns : Turns step roles [role]) (hframes : Frames step)
    (hroles : before.map Tree.role = roles) (hrole : after.role = role) : Composes step before after := by
  subst hroles hrole
  exact ⟨hmakes, hturns, hframes⟩

/-! ### Leaves -/

theorem composes_int (value : Int) : Composes (int value line) [] (.bare (.int value) []) :=
  .of_turns (makes_int value) (turns_int value) (frames_push _) rfl rfl

theorem composes_char (value : Char) : Composes (char value line) [] (.bare (.char value) []) :=
  .of_turns (makes_char value) (turns_char value) (frames_push _) rfl rfl

theorem composes_string (value : String) :
    Composes (string value line) [] (.bare (.string value none) []) :=
  .of_turns (makes_string value) (turns_string value) (frames_push _) rfl rfl

theorem composes_identifier (name : String) :
    Composes (identifier name line) [] (.bare (.identifier name none) []) :=
  .of_turns (makes_identifier name) (turns_identifier name) (frames_push _) rfl rfl

theorem composes_nothing : Composes (nothing line) [] .nothing :=
  .of_turns makes_nothing turns_nothing (frames_push _) rfl rfl

theorem composes_breakOut : Composes (breakOut line) [] (.bare (.breakOut none) []) :=
  .of_turns makes_breakOut turns_breakOut (frames_push _) rfl rfl

theorem composes_continueOn : Composes (continueOn line) [] (.bare (.continueOn none) []) :=
  .of_turns makes_continueOn turns_continueOn (frames_push _) rfl rfl

/-! ### Types -/

theorem composes_base (name : BaseTy) :
    Composes (Build.type (.base name) line) [] ((Ty.base name false).written false) :=
  .of_turns (makes_base name) (turns_base name) (frames_push _) rfl rfl

theorem composes_const (h : type.Flat) :
    Composes (const line) [type.written false] ((type.withConst true).written false) := by
  refine .of_turns (makes_const type) turns_const frames_const (by simp [Tree.role_written h]) ?_
  cases type with
  | array => exact h.elim
  | _ => rfl

theorem composes_pointerType (h : type.Flat) :
    Composes (pointerType line) [type.written false] ((Ty.pointer type false).written false) :=
  .of_turns (makes_pointerType type) turns_pointerType frames_pointerType
    (by simp [Tree.role_written h]) rfl

theorem composes_arrayType (h : type.Flat) (size : Option Nat) :
    Composes (arrayType size line) [type.written false] (.arrayOf false type size) :=
  .of_turns (makes_arrayType type size) (turns_arrayType size) (frames_arrayType size)
    (by simp [Tree.role_written h]) rfl

/-! ### Expressions -/

theorem composes_cast (htype : type.Flat) (h : tree.IsExpression) :
    Composes (cast line) [tree, type.written false] (tree.cast type) := by
  have hroles : [tree, type.written false].map Tree.role = [.expression, .type] := by
    simp [h.role_eq, Tree.role_written htype]
  have hrole : (tree.cast type).role = .expression := (h.cast_of_flat htype).role_eq
  obtain ⟨⟨kind, casts⟩, parts⟩ := tree
  exact .of_turns (makes_cast kind casts parts type) turns_cast frames_cast hroles hrole

theorem composes_binary (op : BinaryOp) {left right : Tree} (hleft : left.IsExpression)
    (hright : right.IsExpression) :
    Composes (binary op line) [right, left] (.bare (.binary op) [left, right]) :=
  .of_turns (makes_binary op left right) (turns_binary op) (frames_binary op)
    (by simp [hleft.role_eq, hright.role_eq]) rfl

theorem composes_unary (op : UnaryOp) {operand : Tree} (h : operand.IsExpression) :
    Composes (unary op line) [operand] (.bare (.unary op) [operand]) :=
  .of_turns (makes_unary op operand) (turns_unary op) (frames_unary op) (by simp [h.role_eq]) rfl

theorem composes_subscript {array index : Tree} (harray : array.IsExpression)
    (hindex : index.IsExpression) :
    Composes (subscript line) [index, array] (.bare .subscript [array, index]) :=
  .of_turns (makes_subscript array index) turns_subscript frames_subscript
    (by simp [harray.role_eq, hindex.role_eq]) rfl

theorem map_role_eq_replicate {role : Role} (h : ∀ tree ∈ trees, tree.role = role) :
    trees.map Tree.role = .replicate trees.length role :=
  List.eq_replicate_iff.mpr ⟨List.length_map _, by simpa using h⟩

theorem composes_call (name : String) {arguments : List Tree}
    (h : ∀ argument ∈ arguments, argument.IsExpression) :
    Composes (call name arguments.length line) arguments (.bare (.call name none) arguments.reverse) :=
  .of_turns (makes_call name rfl) (turns_call name _) (frames_many _ _)
    (map_role_eq_replicate fun argument hmem => (h argument hmem).role_eq) rfl

theorem composes_initializers {items : List Tree} (h : ∀ item ∈ items, item.IsExpression) :
    Composes (initializers items.length line) items (.bare .initializers items.reverse) :=
  .of_turns (makes_initializers rfl) (turns_initializers _) (frames_many _ _)
    (map_role_eq_replicate fun item hmem => (h item hmem).role_eq) rfl

/-! ### Declarations -/

theorem composes_declaration (name : String) {written declared : Tree} {initial : Option Tree}
    (htype : Tree.Declares written declared) (hinitial : ∀ value ∈ initial, value.IsInitial) :
    Composes (declaration name initial.isSome line) (initial.toList ++ [written])
      (.bare (.declaration name none) (declared :: initial.toList)) := by
  have hmakes : Makes (declaration name initial.isSome line) (initial.toList ++ [written])
      (.bare (.declaration name none) (declared :: initial.toList)) := by
    cases htype with
    | plain => exact makes_declaration name _ initial
    | array => exact makes_declaration_array name _ _ initial
  cases initial with
  | none =>
    exact .of_turns hmakes (turns_declaration name (.inl rfl) htype.role_eq) (frames_declaration name _) rfl rfl
  | some value =>
    exact .of_turns hmakes (turns_declaration name (hinitial value rfl).role_eq htype.role_eq)
      (frames_declaration name _) rfl rfl

theorem composes_parameter (name : String) (h : type.Flat) :
    Composes (parameter name line) [type.written false]
      (.bare (.parameter name none) [type.written true]) :=
  .of_turns (makes_parameter name type) (turns_parameter name) (frames_parameter name)
    (by simp [Tree.role_written h]) rfl

theorem composes_parameters {params : List Tree} (h : ∀ param ∈ params, param.IsParameter) :
    Composes (parameters params.length line) params (.bare .parameters params.reverse) :=
  .of_turns (makes_parameters rfl) (turns_parameters _) (frames_many _ _)
    (map_role_eq_replicate fun param hmem => (h param hmem).role_eq) rfl

theorem composes_function (name : String) {result : Ty} (h : result.Flat) (params : List Tree)
    (body : Option (List Tree)) :
    Composes (function name body.isSome line)
      ((body.map (Tree.bare .block)).toList ++ [.bare .parameters params, result.written false])
      (.bare (.function name none)
        (result.written true :: .bare .parameters params :: (body.map (Tree.bare .block)).toList)) := by
  cases body with
  | none =>
    exact .of_turns (makes_function name result (.bare .parameters params) none)
      (turns_function name false) (frames_function name false)
      (congrArg (fun role => [Role.parameters, role]) (Tree.role_written h false)) rfl
  | some statements =>
    exact .of_turns (makes_function name result (.bare .parameters params) (some (.bare .block statements)))
      (turns_function name true) (frames_function name true)
      (congrArg (fun role => [Role.block, .parameters, role]) (Tree.role_written h false)) rfl

/-! ### Statements -/

theorem composes_exprStatement {value : Tree} (h : value.IsExpression) :
    Composes (exprStatement line) [value] (.bare .exprStatement [value]) :=
  .of_turns (makes_exprStatement value) turns_exprStatement frames_exprStatement
    (by simp [h.role_eq]) rfl

theorem composes_block {statements : List Tree} (h : ∀ statement ∈ statements, statement.IsStatement) :
    Composes (block statements.length line) statements (.bare .block statements.reverse) := by
  refine ⟨makes_block rfl, turns_block (List.length_map _) ?_, frames_many _ _⟩
  intro role hrole
  obtain ⟨statement, hmem, rfl⟩ := List.mem_map.mp hrole
  exact (h statement hmem).isStatement

theorem composes_ifElse {test yes : Tree} {no : Option Tree} (htest : test.IsExpression)
    (hyes : yes.IsStatement) (hno : ∀ statement ∈ no, statement.IsStatement) :
    Composes (ifElse no.isSome line) (no.toList ++ [yes, test])
      (.bare (.ifElse none) (test :: yes :: no.toList)) := by
  have hmakes : Makes (ifElse no.isSome line) _ _ := makes_ifElse test yes no
  cases no with
  | none =>
    exact .of_turns hmakes (turns_ifElse hyes.isStatement) (frames_many _ _) (by simp [htest.role_eq]) rfl
  | some no =>
    exact .of_turns hmakes (turns_ifElse_else hyes.isStatement (hno no rfl).isStatement) (frames_many _ _)
      (by simp [htest.role_eq]) rfl

theorem composes_whileLoop {test body : Tree} (htest : test.IsExpression) (hbody : body.IsStatement) :
    Composes (whileLoop line) [body, test] (.bare (.whileLoop none) [test, body]) :=
  .of_turns (makes_whileLoop test body) (turns_whileLoop hbody.isStatement) (frames_many _ _)
    (by simp [htest.role_eq]) rfl

theorem composes_forLoop {start test next body : Tree} (hstart : start.IsStart) (htest : test.IsTest)
    (hnext : next.IsNext) (hbody : body.IsStatement) :
    Composes (forLoop line) [body, next, test, start] (.bare (.forLoop none) [start, test, next, body]) :=
  ⟨makes_forLoop start test next body,
    turns_forLoop hstart.isClause htest.role_eq hnext.isClause hbody.isStatement, frames_many _ _⟩

theorem composes_giveBack {value : Option Tree} (h : ∀ tree ∈ value, tree.IsExpression) :
    Composes (giveBack value.isSome line) value.toList (.bare .giveBack value.toList) := by
  refine .of_turns (makes_giveBack value) (turns_giveBack value.isSome) (frames_giveBack _) ?_ rfl
  cases value with
  | none => rfl
  | some tree => simp [(h tree rfl).role_eq]

end Build

end MiniC
