import MiniC.Literal
import MiniC.Proofs.Tree.Rose

/-!
# Trees as they are written

What the tree of a program can say before anything has been found out about it: which trees stand for
types, expressions, statements and files. An `if` with an `else` has no open statement in front of the
`else`: the `else` would belong to that one.
-/

namespace MiniC

/-- What a part of a program says. -/
abbrev Tree := Rose Content

namespace Tree

/-- A tree with no casts at its top. -/
abbrev bare (kind : Kind) (parts : List Tree) : Tree := .node { kind } parts

/-- What the top of a tree is. -/
def kind : Tree → Kind
  | .node content _ => content.kind

/-- An absent clause or an empty statement. -/
abbrev nothing : Tree := bare .nothing []

end Tree

/-! ## Types -/

namespace Ty

/-- The outermost part of a type. -/
def part (topLevel : Bool) : Ty → TypePart
  | base name constant => { form := .base name, constant, topLevel }
  | pointer _ constant => { form := .pointer, constant, topLevel }
  | array _ size constant => { form := .array (some size), constant, topLevel }

/-- A type as it is written. Only the outermost part of the type of a declaration is at the top level. -/
def written (topLevel : Bool) : Ty → Tree
  | base name constant => .bare (.type { form := .base name, constant, topLevel }) []
  | pointer target constant =>
    .bare (.type { form := .pointer, constant, topLevel }) [target.written false]
  | array element size constant =>
    .bare (.type { form := .array (some size), constant, topLevel }) [element.written false]

/-- What a written type has below its outermost part. -/
def parts : Ty → List Tree
  | base .. => []
  | pointer target _ => [target.written false]
  | array element _ _ => [element.written false]

theorem written_eq (type : Ty) (topLevel : Bool) :
    type.written topLevel = .bare (.type (type.part topLevel)) type.parts := by cases type <;> rfl

theorem written_withConst (type : Ty) (topLevel constant : Bool) :
    (type.withConst constant).written topLevel =
      .bare (.type { type.part topLevel with constant }) type.parts := by cases type <;> rfl

end Ty

namespace Tree

/-- The type of the elements of an array with the brackets of the array, whose size may be left out. -/
abbrev arrayOf (topLevel : Bool) (element : Ty) (size : Option Nat) : Tree :=
  .bare (.type { form := .array size, topLevel }) [element.written false]

/-- The type of a variable. -/
inductive IsDeclaredType : Tree → Prop
  | plain {type : Ty} : type.Flat → IsDeclaredType (type.written true)
  | array {element : Ty} {size : Option Nat} : element.Flat →
    (∀ count ∈ size, count < 18446744073709551616) → IsDeclaredType (arrayOf true element size)

/-! ## Expressions -/

/-- An expression, whose casts have been added one behind the other. -/
inductive IsExpression : Tree → Prop
  | int {value : Int} : Literal.least ≤ value → value ≤ Literal.greatest →
    IsExpression (bare (.int value) [])
  | char (value : Char) : IsExpression (bare (.char value) [])
  | string (value : String) : IsExpression (bare (.string value none) [])
  | identifier (name : String) : IsExpression (bare (.identifier name none) [])
  | call (name : String) {arguments : List Tree} : (∀ argument ∈ arguments, IsExpression argument) →
    IsExpression (bare (.call name none) arguments)
  | binary (op : BinaryOp) {left right : Tree} : IsExpression left → IsExpression right →
    IsExpression (bare (.binary op) [left, right])
  | unary (op : UnaryOp) {operand : Tree} : IsExpression operand →
    IsExpression (bare (.unary op) [operand])
  | subscript {array index : Tree} : IsExpression array → IsExpression index →
    IsExpression (bare .subscript [array, index])
  | cast {kind : Kind} {casts : List Ty} {parts : List Tree} {type : Ty} : type.Flat →
    IsExpression (.node ⟨kind, casts⟩ parts) → IsExpression (.node ⟨kind, casts ++ [type]⟩ parts)

/-- The initializer of a variable. -/
inductive IsInitial : Tree → Prop
  | expression {value : Tree} : IsExpression value → IsInitial value
  | list {items : List Tree} : (∀ item ∈ items, IsExpression item) →
    IsInitial (bare .initializers items)

/-- A parameter. -/
inductive IsParameter : Tree → Prop
  | intro (name : String) {type : Ty} : type.Flat →
    IsParameter (bare (.parameter name none) [type.written true])

/-! ## Statements -/

/-- A statement that an `else` behind it would belong to. -/
inductive IsOpen : Tree → Prop
  | ifThen {test yes : Tree} : IsOpen (bare (.ifElse none) [test, yes])
  | ifElse {test yes no : Tree} : IsOpen no → IsOpen (bare (.ifElse none) [test, yes, no])
  | whileLoop {test body : Tree} : IsOpen body → IsOpen (bare (.whileLoop none) [test, body])
  | forLoop {start test next body : Tree} : IsOpen body →
    IsOpen (bare (.forLoop none) [start, test, next, body])

/-- Whether something is declared. -/
def declares (tree : Tree) : Bool := tree.kind.isDeclaration || tree.kind.isFunction

/-- The second clause of a `for` loop. -/
inductive IsTest : Tree → Prop
  | expression {value : Tree} : IsExpression value → IsTest value
  | absent : IsTest nothing

/-- The third clause of a `for` loop. -/
inductive IsNext : Tree → Prop
  | expression {value : Tree} : IsExpression value → IsNext (bare .exprStatement [value])
  | absent : IsNext nothing

/-- A statement. A declaration is one as well, be it that of a variable or that of a function. -/
inductive IsStatement : Tree → Prop
  | declaration (name : String) {type : Tree} {initial : Option Tree} : IsDeclaredType type →
    (∀ value ∈ initial, IsInitial value) →
    IsStatement (bare (.declaration name none) (type :: initial.toList))
  | function (name : String) {result : Ty} {params : List Tree} {body : Option (List Tree)} :
    result.Flat → (∀ param ∈ params, IsParameter param) →
    (∀ statements ∈ body, ∀ statement ∈ statements, IsStatement statement) →
    IsStatement (bare (.function name none)
      (result.written true :: bare .parameters params :: (body.map (bare .block)).toList))
  | block {statements : List Tree} : (∀ statement ∈ statements, IsStatement statement) →
    IsStatement (bare .block statements)
  | ifElse {test yes : Tree} {no : Option Tree} : IsExpression test → IsStatement yes →
    (∀ statement ∈ no, IsStatement statement) → (no.isSome → ¬IsOpen yes) →
    IsStatement (bare (.ifElse none) (test :: yes :: no.toList))
  | whileLoop {test body : Tree} : IsExpression test → IsStatement body →
    IsStatement (bare (.whileLoop none) [test, body])
  | forLoop {start test next body : Tree} : IsStatement start →
    (start.declares ∨ start.kind = .exprStatement ∨ start.kind = .nothing) → IsTest test →
    IsNext next → IsStatement body → IsStatement (bare (.forLoop none) [start, test, next, body])
  | giveBack {value : Option Tree} : (∀ tree ∈ value, IsExpression tree) →
    IsStatement (bare .giveBack value.toList)
  | breakOut : IsStatement (bare (.breakOut none) [])
  | continueOn : IsStatement (bare (.continueOn none) [])
  | exprStatement {value : Tree} : IsExpression value → IsStatement (bare .exprStatement [value])
  | nothing : IsStatement nothing

/-- A file. -/
inductive IsFile : Tree → Prop
  | intro {declarations : List Tree} : (∀ tree ∈ declarations, IsStatement tree ∧ tree.declares) →
    IsFile (bare .file declarations)

/-- Nothing behind a declaration belongs to it. -/
theorem not_isOpen_of_declares {tree : Tree} (h : tree.declares) : ¬IsOpen tree := by
  rintro (_ | _ | _ | _) <;> cases h

/-! ## Integers -/

/-- Every integer in the tree is one of 64 bits. -/
inductive IsBounded : Tree → Prop
  | node {content : Content} {parts : List Tree} :
    (∀ value, content.kind = .int value → Literal.least ≤ value ∧ value ≤ Literal.greatest) →
    (∀ part ∈ parts, IsBounded part) → IsBounded (.node content parts)

theorem IsBounded.bare {kind : Kind} {parts : List Tree} (hkind : ∀ value, kind ≠ .int value)
    (hparts : ∀ part ∈ parts, IsBounded part) : IsBounded (Tree.bare kind parts) :=
  .node (fun value h => absurd h (hkind value)) hparts

theorem isBounded_written (type : Ty) (topLevel : Bool) : IsBounded (type.written topLevel) := by
  induction type generalizing topLevel with
  | base => exact .bare nofun nofun
  | pointer _ _ ih => exact .bare nofun (by simp [ih])
  | array _ _ _ ih => exact .bare nofun (by simp [ih])

theorem IsDeclaredType.isBounded {tree : Tree} (h : IsDeclaredType tree) : IsBounded tree := by
  cases h with
  | plain => exact isBounded_written _ _
  | array => exact .bare nofun (by simp [isBounded_written])

theorem IsExpression.isBounded {tree : Tree} (h : IsExpression tree) : IsBounded tree := by
  induction h with
  | int hleast hgreatest =>
    refine .node (fun value hvalue => ?_) nofun
    cases hvalue
    exact ⟨hleast, hgreatest⟩
  | char | string | identifier => exact .bare nofun nofun
  | call _ _ ih => exact .bare nofun ih
  | binary _ _ _ ihl ihr | subscript _ _ ihl ihr => exact .bare nofun (by simp [ihl, ihr])
  | unary _ _ ih => exact .bare nofun (by simp [ih])
  | cast _ _ ih =>
    cases ih with
    | node hkind hparts => exact .node hkind hparts

theorem IsInitial.isBounded {tree : Tree} (h : IsInitial tree) : IsBounded tree := by
  cases h with
  | expression h => exact h.isBounded
  | list hitems => exact .bare nofun fun item hitem => (hitems item hitem).isBounded

theorem isBounded_nothing : IsBounded nothing := .bare nofun nofun

theorem IsStatement.isBounded {tree : Tree} (h : IsStatement tree) : IsBounded tree := by
  induction h with
  | @declaration _ _ initial htype hinitial =>
    refine .bare nofun (List.forall_mem_cons.mpr ⟨htype.isBounded, fun part hpart => ?_⟩)
    exact (hinitial part (Option.mem_toList.mp hpart)).isBounded
  | @function _ result params body _ hparams _ ih =>
    refine .bare nofun (List.forall_mem_cons.mpr ⟨isBounded_written result true,
      List.forall_mem_cons.mpr ⟨.bare nofun fun param hparam => ?_, fun part hpart => ?_⟩⟩)
    · cases hparams param hparam with
      | intro => exact .bare nofun (by simp [isBounded_written])
    · obtain ⟨statements, hbody, rfl⟩ := Option.map_eq_some_iff.mp (Option.mem_toList.mp hpart)
      exact .bare nofun (ih statements hbody)
  | block _ ih => exact .bare nofun ih
  | @ifElse _ _ no htest _ _ _ ihyes ihno =>
    refine .bare nofun (List.forall_mem_cons.mpr ⟨htest.isBounded,
      List.forall_mem_cons.mpr ⟨ihyes, fun part hpart => ?_⟩⟩)
    exact ihno part (Option.mem_toList.mp hpart)
  | whileLoop htest _ ih => exact .bare nofun (by simp [htest.isBounded, ih])
  | @forLoop _ test next _ _ _ htest hnext _ ihstart ihbody =>
    have htest : IsBounded test := by
      cases htest with
      | expression h => exact h.isBounded
      | absent => exact isBounded_nothing
    have hnext : IsBounded next := by
      cases hnext with
      | expression h => exact .bare nofun (by simp [h.isBounded])
      | absent => exact isBounded_nothing
    exact .bare nofun (by simp [ihstart, htest, hnext, ihbody])
  | giveBack hvalue =>
    exact .bare nofun fun part hpart => (hvalue part (Option.mem_toList.mp hpart)).isBounded
  | breakOut | continueOn | nothing => exact .bare nofun nofun
  | exprStatement h => exact .bare nofun (by simp [h.isBounded])

/-- Reading accepts no other integers. -/
theorem IsFile.isBounded {tree : Tree} (h : IsFile tree) : IsBounded tree := by
  cases h with
  | intro hdeclarations =>
    exact .bare nofun fun tree htree => (hdeclarations tree htree).1.isBounded

end Tree

end MiniC
