import MiniC.Proofs.Tree.Links

/-!
# The shape of a tree as it is read

Every node plays a role in the node above it, and every kind says which roles its children play
(`Kind.Holds`). A raw forest is one that has just been built: its nodes have the parts that they ask
for, and nothing has been found out about them yet.
-/

namespace MiniC

/-- No part of the type is an array. -/
def Ty.Flat : Ty → Prop
  | base .. => True
  | pointer target _ => target.Flat
  | array .. => False

/-- What a node can be a part as. -/
inductive Role
  | file | type
  /-- A written array; other written types are no part of one. -/
  | array
  | expression | initializers
  | declaration | function | parameters | parameter
  | block
  /-- An absent clause or an empty statement. -/
  | absent
  /-- An expression as a statement. -/
  | action
  /-- A statement that is none of those above. -/
  | statement
  deriving DecidableEq, Repr

/-- The roles of nodes that can stand as a statement. -/
def Role.IsStatement : Role → Prop
  | declaration | function | block | absent | action | statement => True
  | _ => False

/-- The roles of nodes that can stand as a clause of a `for` loop besides the condition. -/
def Role.IsClause : Role → Prop
  | declaration | function | absent | action => True
  | _ => False

theorem Role.IsClause.isStatement {role : Role} (h : role.IsClause) : role.IsStatement := by
  cases role <;> simp_all [IsClause, IsStatement]

theorem Role.ne_of_isStatement {role : Role} (h : role.IsStatement) : role ≠ .expression := by
  rintro rfl
  exact h

/-- The roles of nodes below which there is no statement. -/
def Role.IsSilent : Role → Prop
  | type | array | expression | initializers | parameters | parameter => True
  | _ => False

theorem Role.not_isStatement {role : Role} (h : role.IsSilent) : ¬role.IsStatement := by
  cases role <;> simp_all [IsSilent, IsStatement]

namespace Kind

/-- The role of a node of the kind. -/
def role : Kind → Role
  | file => .file
  | type part =>
    match part.form with
    | .array _ => .array
    | _ => .type
  | int _ | char _ | string .. | identifier .. | call .. | binary _ | unary _ | subscript
  | conversion _ => .expression
  | initializers => .initializers
  | declaration .. => .declaration
  | function .. => .function
  | parameters => .parameters
  | parameter .. => .parameter
  | block => .block
  | nothing => .absent
  | exprStatement => .action
  | ifElse _ | whileLoop _ | forLoop _ | giveBack | breakOut _ | continueOn _ => .statement

/-- The roles that the children of a node of the kind have. -/
def Holds : Kind → List Role → Prop
  | file, roles => ∀ role ∈ roles, role = .declaration ∨ role = .function
  | type part, roles =>
    match part.form with
    | .base _ => roles = []
    | .pointer | .array _ => roles = [.type]
  | int _, roles | char _, roles | string .., roles | identifier .., roles | breakOut _, roles
  | continueOn _, roles | nothing, roles => roles = []
  | declaration .., roles =>
    ∃ written : Role, (written = .type ∨ written = .array) ∧
      (roles = [written] ∨ roles = [written, .expression] ∨ roles = [written, .initializers])
  | initializers, roles | call .., roles => ∀ role ∈ roles, role = .expression
  | function .., roles => roles = [.type, .parameters] ∨ roles = [.type, .parameters, .block]
  | parameters, roles => ∀ role ∈ roles, role = .parameter
  | parameter .., roles => roles = [.type]
  | binary _, roles | subscript, roles => roles = [.expression, .expression]
  | unary _, roles | conversion _, roles | exprStatement, roles => roles = [.expression]
  | block, roles => ∀ role ∈ roles, role.IsStatement
  | ifElse _, roles =>
    ∃ yes : Role, yes.IsStatement ∧
      (roles = [.expression, yes] ∨ ∃ no : Role, no.IsStatement ∧ roles = [.expression, yes, no])
  | whileLoop _, roles => ∃ body : Role, body.IsStatement ∧ roles = [.expression, body]
  | forLoop _, roles =>
    ∃ start test next body : Role, start.IsClause ∧ (test = .expression ∨ test = .absent) ∧
      next.IsClause ∧ body.IsStatement ∧ roles = [start, test, next, body]
  | giveBack, roles => roles = [] ∨ roles = [.expression]

theorem eq_file {kind : Kind} (h : kind.role = .file) : kind = .file := by
  cases kind with
  | type part => cases hform : part.form <;> simp [role, hform] at h
  | file => rfl
  | _ => cases h

theorem eq_initializers {kind : Kind} (h : kind.role = .initializers) : kind = .initializers := by
  cases kind with
  | type part => cases hform : part.form <;> simp [role, hform] at h
  | initializers => rfl
  | _ => cases h

theorem eq_parameters {kind : Kind} (h : kind.role = .parameters) : kind = .parameters := by
  cases kind with
  | type part => cases hform : part.form <;> simp [role, hform] at h
  | parameters => rfl
  | _ => cases h

theorem eq_block {kind : Kind} (h : kind.role = .block) : kind = .block := by
  cases kind with
  | type part => cases hform : part.form <;> simp [role, hform] at h
  | block => rfl
  | _ => cases h

theorem eq_nothing {kind : Kind} (h : kind.role = .absent) : kind = .nothing := by
  cases kind with
  | type part => cases hform : part.form <;> simp [role, hform] at h
  | nothing => rfl
  | _ => cases h

/-- The parts of a silent node are silent. -/
theorem isSilent_of_holds {kind : Kind} {roles : List Role} (hkind : kind.role.IsSilent)
    (h : kind.Holds roles) : ∀ role ∈ roles, role.IsSilent := by
  intro role hmem
  cases kind with
  | type part => cases hform : part.form <;> simp_all [Holds, Role.IsSilent]
  | initializers | call | parameters =>
    rw [h role hmem]
    trivial
  | _ => simp_all [Kind.role, Holds, Role.IsSilent]

/-- All parts of an expression are expressions. -/
theorem eq_expression_of_holds {kind : Kind} {roles : List Role} {role : Role}
    (hkind : kind.role = .expression) (h : kind.Holds roles) (hmem : role ∈ roles) :
    role = .expression := by
  cases kind with
  | type part => cases hform : part.form <;> simp [Kind.role, hform] at hkind
  | call => exact h role hmem
  | _ => simp_all [Kind.Holds, Kind.role]

/-- No file is a part of anything. -/
theorem not_file_of_holds {kind : Kind} {roles : List Role} (h : kind.Holds roles) :
    Role.file ∉ roles := by
  intro hmem
  cases kind with
  | type part => cases hform : part.form <;> simp_all [Holds]
  | initializers | call | parameters => cases h _ hmem
  | block => exact h _ hmem
  | file => rcases h _ hmem with hrole | hrole <;> cases hrole
  | declaration => obtain ⟨written, rfl | rfl, rfl | rfl | rfl⟩ := h <;> simp at hmem
  | function | giveBack => rcases h with rfl | rfl <;> simp at hmem
  | ifElse =>
    obtain ⟨yes, hyes, rfl | ⟨no, hno, rfl⟩⟩ := h
    · obtain rfl : Role.file = yes := by simpa using hmem
      exact hyes
    · have hcases : Role.file = yes ∨ Role.file = no := by simpa using hmem
      rcases hcases with rfl | rfl
      · exact hyes
      · exact hno
  | whileLoop =>
    obtain ⟨body, hbody, rfl⟩ := h
    obtain rfl : Role.file = body := by simpa using hmem
    exact hbody
  | forLoop =>
    obtain ⟨start, test, next, body, hstart, htest, hnext, hbody, rfl⟩ := h
    simp only [List.mem_cons, List.not_mem_nil, or_false] at hmem
    rcases hmem with rfl | rfl | rfl | rfl
    · exact hstart
    · simp at htest
    · exact hnext
    · exact hbody
  | _ => simp_all [Holds]

/-- Nothing has been found out yet. -/
def Fresh : Kind → Prop
  | string _ pool => pool = none
  | identifier _ symbol | declaration _ symbol | function _ symbol | parameter _ symbol
  | call _ symbol => symbol = none
  | ifElse labels => labels = none
  | whileLoop labels => labels = none
  | forLoop labels => labels = none
  | breakOut target | continueOn target => target = none
  | conversion _ => False
  | _ => True

/-- A kind without the symbol and the labels that its node may have been given. -/
def plain : Kind → Kind
  | identifier name _ => identifier name none
  | declaration name _ => declaration name none
  | function name _ => function name none
  | parameter name _ => parameter name none
  | call name _ => call name none
  | ifElse _ => ifElse none
  | whileLoop _ => whileLoop none
  | forLoop _ => forLoop none
  | breakOut _ => breakOut none
  | continueOn _ => continueOn none
  | other => other

/-- Whether the kind is a conversion. -/
def isConversion : Kind → Bool
  | conversion _ => true
  | _ => false

variable {kind other : Kind}

@[simp] theorem plain_bind (symbol : SymbolId) : (kind.bind symbol).plain = kind.plain := by
  cases kind <;> rfl

theorem plain_of_fresh (h : kind.Fresh) : kind.plain = kind := by
  cases kind <;> simp_all [Fresh, plain]

theorem isConversion_of_fresh (h : kind.Fresh) : kind.isConversion = false := by
  cases kind <;> simp_all [Fresh, isConversion]

@[simp] theorem isConversion_plain : kind.plain.isConversion = kind.isConversion := by
  cases kind <;> rfl

theorem isConversion_of_plain (h : kind.plain = other.plain) :
    kind.isConversion = other.isConversion := by
  rw [← isConversion_plain, h, isConversion_plain]

theorem role_plain (kind : Kind) : kind.plain.role = kind.role := by cases kind <;> rfl

theorem role_of_plain (h : kind.plain = other.plain) : kind.role = other.role := by
  rw [← role_plain kind, h, role_plain]

theorem eq_conversion_of_plain {change : Conversion} (h : kind.plain = (conversion change).plain) :
    kind = conversion change := by cases kind <;> simp_all [plain]

end Kind

/-- Nothing has been found out about a node yet. -/
structure Node.Fresh (node : Node) : Prop where
  kind : node.kind.Fresh
  scope : node.scope = 0
  function : node.function = none
  type : node.type = none

theorem Node.fresh_default : (default : Node).Fresh := ⟨trivial, rfl, rfl, rfl⟩

namespace Forest

/-- The role of a node. -/
def role (forest : Forest) (id : NodeId) : Role := (forest.kind id).role

/-- The roles of the children of a node. -/
def roles (forest : Forest) (id : NodeId) : List Role := (forest.children id).map forest.role

/-- What the roles of the children say about a slot. -/
theorem exists_child {forest : Forest} {id : NodeId} {slot : Nat} {role : Role}
    (h : (forest.roles id)[slot]? = some role) :
    ∃ c, forest.child? id slot = some c ∧ c ∈ forest.children id ∧ forest.role c = role := by
  rw [roles, List.getElem?_map, Option.map_eq_some_iff] at h
  obtain ⟨c, hc, hrole⟩ := h
  exact ⟨c, hc, List.mem_of_getElem? hc, hrole⟩

theorem roles_of_child? {forest : Forest} {id c : NodeId} {slot : Nat}
    (h : forest.child? id slot = some c) : (forest.roles id)[slot]? = some (forest.role c) := by
  rw [roles, List.getElem?_map, ← child?, h]
  rfl

theorem child?_eq_none {forest : Forest} {id : NodeId} {slot : Nat}
    (h : (forest.roles id)[slot]? = none) : forest.child? id slot = none := by
  simpa [roles, child?] using h

section Parts

variable {forest : Forest} {id : NodeId}

theorem exists_two {first second : Role} {ids : List NodeId}
    (h : ids.map forest.role = [first, second]) :
    ∃ a b, ids = [a, b] ∧ forest.role a = first ∧ forest.role b = second := by
  obtain ⟨a, rest, hids, ha, hrest⟩ := List.map_eq_cons_iff.mp h
  obtain ⟨b, rfl, hb⟩ := List.map_eq_singleton_iff.mp hrest
  exact ⟨a, b, hids, ha, hb⟩

theorem exists_single {role : Role} (h : forest.roles id = [role]) :
    ∃ a, forest.children id = [a] ∧ forest.role a = role := List.map_eq_singleton_iff.mp h

theorem exists_pair {first second : Role} (h : forest.roles id = [first, second]) :
    ∃ a b, forest.children id = [a, b] ∧ forest.role a = first ∧ forest.role b = second :=
  exists_two h

theorem exists_three {first second third : Role}
    (h : forest.roles id = [first, second, third]) :
    ∃ a b c, forest.children id = [a, b, c] ∧ forest.role a = first ∧ forest.role b = second ∧
      forest.role c = third := by
  obtain ⟨a, rest, hids, ha, hrest⟩ := List.map_eq_cons_iff.mp h
  obtain ⟨b, c, rfl, hb, hc⟩ := exists_two hrest
  exact ⟨a, b, c, hids, ha, hb, hc⟩

theorem exists_four {first second third fourth : Role}
    (h : forest.roles id = [first, second, third, fourth]) :
    ∃ a b c d, forest.children id = [a, b, c, d] ∧ forest.role a = first ∧
      forest.role b = second ∧ forest.role c = third ∧ forest.role d = fourth := by
  obtain ⟨a, rest, hids, ha, hrest⟩ := List.map_eq_cons_iff.mp h
  obtain ⟨b, rest', rfl, hb, hrest'⟩ := List.map_eq_cons_iff.mp hrest
  obtain ⟨c, d, rfl, hc, hd⟩ := exists_two hrest'
  exact ⟨a, b, c, d, hids, ha, hb, hc, hd⟩

/-- A choice has a condition and one or two branches. -/
theorem exists_branches {labels : Option IfLabels}
    (h : (Kind.ifElse labels).Holds (forest.roles id)) :
    ∃ test yes others, forest.children id = test :: yes :: others ∧
      forest.role test = .expression ∧ (forest.role yes).IsStatement ∧
        (others = [] ∨ ∃ no, others = [no] ∧ (forest.role no).IsStatement) := by
  obtain ⟨_, hyes, hroles⟩ := h
  rcases hroles with hroles | ⟨_, hno, hroles⟩
  · obtain ⟨test, yes, hchildren, htest, rfl⟩ := exists_pair hroles
    exact ⟨test, yes, [], hchildren, htest, hyes, .inl rfl⟩
  · obtain ⟨test, yes, no, hchildren, htest, rfl, rfl⟩ := exists_three hroles
    exact ⟨test, yes, [no], hchildren, htest, hyes, .inr ⟨no, rfl, hno⟩⟩

/-- A function has a written result type, its parameters and perhaps a body. -/
theorem exists_signature {name : String} {symbol : Option SymbolId}
    (h : (Kind.function name symbol).Holds (forest.roles id)) :
    ∃ written list others, forest.children id = written :: list :: others ∧
      forest.role written = .type ∧ forest.role list = .parameters ∧
        (others = [] ∨ ∃ body, others = [body] ∧ forest.role body = .block) := by
  rcases h with hroles | hroles
  · obtain ⟨written, list, hchildren, hwritten, hlist⟩ := exists_pair hroles
    exact ⟨written, list, [], hchildren, hwritten, hlist, .inl rfl⟩
  · obtain ⟨written, list, body, hchildren, hwritten, hlist, hbody⟩ := exists_three hroles
    exact ⟨written, list, [body], hchildren, hwritten, hlist, .inr ⟨body, rfl, hbody⟩⟩

end Parts

/-- A forest that has just been built. -/
structure Raw (forest : Forest) : Prop where
  linked : forest.Linked
  rising : forest.Rising
  fresh : ∀ id, (forest.node id).Fresh
  shaped : ∀ id, (forest.kind id).Holds (forest.roles id)
  casts : ∀ id, ∀ type ∈ (forest.node id).casts, type.Flat

namespace Raw

variable {forest : Forest}

theorem ranked (h : forest.Raw) : forest.Ranked := Rising.ranked fun hc => h.rising hc

/-- No statement is below a silent node. -/
theorem not_isStatement (h : forest.Raw) {n m : NodeId} (hn : (forest.role n).IsSilent)
    (hm : forest.Below m n) : ¬(forest.role m).IsStatement := by
  induction hm with
  | refl => exact Role.not_isStatement hn
  | @child p c hc _ ih =>
    exact ih (Kind.isSilent_of_holds hn (h.shaped p) _ (List.mem_map_of_mem hc))

/-- The parts of a list of parameters are parameters. -/
theorem roles_parameters (h : forest.Raw) {list : NodeId} (hlist : forest.role list = .parameters) :
    ∀ role ∈ forest.roles list, role = .parameter := by
  have hholds := h.shaped list
  rwa [Kind.eq_parameters hlist] at hholds

/-- The parts of a block are statements. -/
theorem roles_block (h : forest.Raw) {body : NodeId} (hbody : forest.role body = .block) :
    ∀ role ∈ forest.roles body, role.IsStatement := by
  have hholds := h.shaped body
  rwa [Kind.eq_block hbody] at hholds

/-- No expression is around something that is none. -/
theorem role_of_below (h : forest.Raw) {n a : NodeId} (hn : forest.role n ≠ .expression)
    (ha : forest.Below n a) : forest.role a ≠ .expression := by
  induction ha with
  | refl => exact hn
  | @child p c hc _ ih =>
    exact fun hp => ih (Kind.eq_expression_of_holds hp (h.shaped p) (List.mem_map_of_mem hc))

theorem role_ne_file (h : forest.Raw) {p c : NodeId} (hc : c ∈ forest.children p) :
    forest.role c ≠ .file := fun hfile =>
  Kind.not_file_of_holds (h.shaped p) (hfile ▸ List.mem_map_of_mem hc)

/-- Every written type is complete. -/
theorem exists_typeWithin (h : forest.Raw) :
    ∀ {levels id : Nat}, id < levels → forest.role id = .type →
      ∃ type, forest.typeWithin levels id = some type ∧ type.Flat := by
  intro levels
  induction levels with
  | zero => intro id hid; omega
  | succ levels ih =>
    intro id hid hrole
    have hshape := h.shaped id
    obtain ⟨part, hkind⟩ : ∃ part, forest.kind id = .type part := by
      cases hk : forest.kind id <;> simp_all [role, Kind.role]
    rw [role, hkind] at hrole
    rw [hkind] at hshape
    simp only [typeWithin, hkind]
    cases hform : part.form with
    | base name => exact ⟨_, rfl, trivial⟩
    | pointer =>
      have hroles : forest.roles id = [.type] := by simpa [Kind.Holds, hform] using hshape
      obtain ⟨c, hc, hmem, hcrole⟩ := exists_child
        (show (forest.roles id)[0]? = some .type by simp [hroles])
      have hlt := h.rising hmem
      obtain ⟨type, htype, hflat⟩ := ih (by omega) hcrole
      exact ⟨.pointer type part.constant, by simp [hc, htype], hflat⟩
    | array size => simp [Kind.role, hform] at hrole

theorem exists_typeOf (h : forest.Raw) {id : Nat} (hid : id < forest.size)
    (hrole : forest.role id = .type) : ∃ type, forest.typeOf? id = some type ∧ type.Flat :=
  h.exists_typeWithin (by omega) hrole

/-- A written array has elements that are no arrays. -/
theorem exists_arrayWithin (h : forest.Raw) {levels id : Nat} (hid : id < levels)
    (hrole : forest.role id = .array) :
    ∃ part size element, forest.kind id = .type part ∧ part.form = .array size ∧
      forest.typeWithin levels id = some (.array element (size.getD 0) part.constant) ∧
      element.Flat := by
  have hshape := h.shaped id
  obtain ⟨part, size, hkind, hform⟩ :
      ∃ part size, forest.kind id = .type part ∧ part.form = .array size := by
    cases hk : forest.kind id with
    | type part => cases hform : part.form <;> simp_all [role, Kind.role]
    | _ => simp_all [role, Kind.role]
  have hroles : forest.roles id = [.type] := by simpa [hkind, Kind.Holds, hform] using hshape
  obtain ⟨c, hc, hmem, hcrole⟩ := exists_child
    (show (forest.roles id)[0]? = some .type by simp [hroles])
  have hlt := h.rising hmem
  obtain ⟨levels, rfl⟩ := Nat.exists_eq_succ_of_ne_zero (Nat.ne_zero_of_lt hid)
  obtain ⟨type, htype, hflat⟩ :=
    h.exists_typeWithin (Nat.lt_of_lt_of_le hlt (Nat.le_of_lt_succ hid)) hcrole
  exact ⟨part, size, type, hkind, hform, by simp [typeWithin, hkind, hform, hc, htype], hflat⟩

end Raw

theorem raw_empty : ({} : Forest).Raw :=
  ⟨⟨nofun, nofun, fun _ => List.nodup_nil⟩, nofun, fun _ => Node.fresh_default, fun _ => rfl, nofun⟩

/-- A forest as it is read: it has just been built, and its root is a whole file. -/
structure Parsed (forest : Forest) (root : NodeId) : Prop where
  raw : forest.Raw
  root_eq : forest.root = some root
  role_root : forest.role root = .file
  parent_root : forest.parent root = none

namespace Parsed

variable {forest : Forest} {root : NodeId}

theorem lt_size (h : forest.Parsed root) : root < forest.size := by
  by_contra hlt
  have hrole := h.role_root
  rw [role, kind, node_of_size_le (Nat.le_of_not_lt hlt)] at hrole
  cases hrole

theorem kind_root (h : forest.Parsed root) : forest.kind root = .file := Kind.eq_file h.role_root

/-- The parts of a file are declarations. -/
theorem roles_root (h : forest.Parsed root) :
    ∀ role ∈ forest.roles root, role = .declaration ∨ role = .function := by
  have hholds := h.raw.shaped root
  rwa [h.kind_root] at hholds

end Parsed

end Forest

end MiniC
