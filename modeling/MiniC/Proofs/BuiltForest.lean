import MiniC.Proofs.Build.Orderly

/-!
# Every run of a builder leaves a forest

`Step` names what can be asked of a builder. Steps may come in any order, with any arguments, and
refused ones do not end a run; the nodes are a forest all the same, and the operands are different roots
of it. This is what every walk over a tree relies on.
-/

namespace MiniC

/-- What can be asked of a builder. -/
inductive Build.Step
  | int (value : Int)
  | char (value : Char)
  | string (value : String)
  | identifier (name : String)
  | type (form : TypeForm)
  | const
  | pointerType
  | arrayType (size : Option Nat)
  | binary (op : BinaryOp)
  | unary (op : UnaryOp)
  | subscript
  | cast
  | call (name : String) (count : Nat)
  | initializers (count : Nat)
  | declaration (name : String) (initialized : Bool)
  | parameter (name : String)
  | parameters (count : Nat)
  | function (name : String) (defined : Bool)
  | exprStatement
  | block (count : Nat)
  | ifElse (hasElse : Bool)
  | whileLoop
  | forLoop
  | nothing
  | giveBack (hasValue : Bool)
  | breakOut
  | continueOn
  | file (count : Nat)

namespace Build.Step

/-- The step, for a source line. -/
def build (step : Step) (line : Nat) : Build Unit :=
  match step with
  | int value => Build.int value line
  | char value => Build.char value line
  | string value => Build.string value line
  | identifier name => Build.identifier name line
  | type form => Build.type form line
  | const => Build.const line
  | pointerType => Build.pointerType line
  | arrayType size => Build.arrayType size line
  | binary op => Build.binary op line
  | unary op => Build.unary op line
  | subscript => Build.subscript line
  | cast => Build.cast line
  | call name count => Build.call name count line
  | initializers count => Build.initializers count line
  | declaration name initialized => Build.declaration name initialized line
  | parameter name => Build.parameter name line
  | parameters count => Build.parameters count line
  | function name defined => Build.function name defined line
  | exprStatement => Build.exprStatement line
  | block count => Build.block count line
  | ifElse hasElse => Build.ifElse hasElse line
  | whileLoop => Build.whileLoop line
  | forLoop => Build.forLoop line
  | nothing => Build.nothing line
  | giveBack hasValue => Build.giveBack hasValue line
  | breakOut => Build.breakOut line
  | continueOn => Build.continueOn line
  | file count => Build.file count line

/-- The steps that count their operands before they take them. -/
def countsFirst : Step → Bool
  | call .. | initializers _ | parameters _ | block _ | ifElse _ | whileLoop | forLoop | file _ => true
  | _ => false

theorem allOrNone_build {step : Step} (h : step.countsFirst) (line : Nat) :
    AllOrNone (step.build line) := by
  cases step with
  | call name count => exact allOrNone_many (.call name none) count
  | initializers count => exact allOrNone_many .initializers count
  | parameters count => exact allOrNone_many .parameters count
  | block count => exact allOrNone_many .block count
  | ifElse hasElse => exact allOrNone_many (.ifElse none) (if hasElse then 3 else 2)
  | whileLoop => exact allOrNone_many (.whileLoop none) 2
  | forLoop => exact allOrNone_many (.forLoop none) 4
  | file count => exact allOrNone_file count
  | _ => cases h

theorem tidy_build (step : Step) (line : Nat) : Tidy (step.build line) := by
  by_cases hcounts : step.countsFirst
  · exact (allOrNone_build hcounts line).tidy
  · cases step with
    | int value => exact tidy_leaf (.int value)
    | char value => exact tidy_leaf (.char value)
    | string value => exact tidy_leaf (.string value none)
    | identifier name => exact tidy_leaf (.identifier name none)
    | type form => exact tidy_leaf (.type { form })
    | nothing => exact tidy_leaf .nothing
    | breakOut => exact tidy_leaf (.breakOut none)
    | continueOn => exact tidy_leaf (.continueOn none)
    | const => exact tidy_const
    | pointerType => exact tidy_wrap (.type { form := .pointer })
    | arrayType size => exact tidy_wrap (.type { form := .array size })
    | binary op => exact tidy_binary (.binary op)
    | unary op => exact tidy_unary (.unary op)
    | subscript => exact tidy_binary .subscript
    | cast => exact tidy_cast
    | declaration name initialized => exact tidy_declaration name initialized
    | parameter name => exact tidy_parameter name
    | function name defined => exact tidy_function name defined
    | exprStatement => exact tidy_unary .exprStatement
    | giveBack hasValue => exact tidy_giveBack hasValue
    | _ => exact absurd rfl hcounts

end Build.Step

namespace Builder

open Build

/-- The builder behind some steps, each for its source line. -/
def after (steps : List (Step × Nat)) : Builder :=
  behindAll (steps.map fun (step, line) => step.build line) {}

variable {builder : Builder} {forest : Forest}

theorem Orderly.behind (h : builder.Orderly []) (step : Step) (line : Nat) :
    (behind (step.build line) builder).Orderly [] :=
  ((step.tidy_build line h).mono (fun _ _ h => h) fun _ _ hdrained => hdrained.orderly h).behind

theorem orderly_after (steps : List (Step × Nat)) : (after steps).Orderly [] := by
  refine behindAll_induction (P := fun builder : Builder => builder.Orderly []) orderly_empty
    fun step hmem builder h => ?_
  obtain ⟨⟨step, line⟩, -, rfl⟩ := List.mem_map.mp hmem
  exact h.behind step line

/-- A forest is finished if a file is the only operand. -/
theorem finish_eq_ok_iff : builder.finish = .ok forest ↔
    ∃ root, builder.stack = [root] ∧ builder.forest.kind root = .file ∧
      forest = builder.forest.setRoot root := by
  unfold finish
  constructor
  · intro h
    split at h
    · next root hstack =>
      split at h
      · next hkind => exact ⟨root, hstack, hkind, (Except.ok.inj h).symm⟩
      · cases h
    · cases h
  · rintro ⟨root, hstack, hkind, rfl⟩
    simp only [hstack, hkind]

end Builder

/-- **Every run of a builder leaves a forest.** Behind any steps, in any order and with any arguments,
refused ones among them, children and parents name each other, no node is a child twice and every child
comes before its parent; the operands are different nodes without a parent. A step that is refused there
adds no node and changes none. Operands that it has taken by then stay taken, but those that count first
take none. A forest is finished with a file as its root, which was the only operand. -/
theorem every_run_leaves_forest (steps : List (Build.Step × Nat)) :
    ((Builder.after steps).forest.Linked ∧ (Builder.after steps).forest.isLinked ∧
      ((List.range (Builder.after steps).forest.size).flatMap
        (Builder.after steps).forest.children).Nodup ∧
      (Builder.after steps).forest.Rising) ∧
    (Builder.after steps).forest.Free (Builder.after steps).stack ∧
    (∀ (step : Build.Step) line fault builder,
      step.build line (Builder.after steps) = .error fault builder →
        builder.forest = (Builder.after steps).forest ∧ builder.stack <:+ (Builder.after steps).stack ∧
        (step.countsFirst → builder.stack = (Builder.after steps).stack)) ∧
    ∀ forest, (Builder.after steps).finish = .ok forest ↔
      ∃ root, (Builder.after steps).stack = [root] ∧ (Builder.after steps).forest.kind root = .file ∧
        forest = { (Builder.after steps).forest with root := some root } := by
  have h := Builder.orderly_after steps
  refine ⟨⟨h.linked, h.linked.isLinked, h.linked.nodup_flatMap_children List.nodup_range, h.rising⟩,
    h.free, fun step line fault builder herror => ?_, fun forest => Builder.finish_eq_ok_iff⟩
  have hdrained := (step.tidy_build line h).of_error herror
  refine ⟨hdrained.forest_eq, hdrained.suffix, fun hcounts => ?_⟩
  rw [(Build.Step.allOrNone_build hcounts line h).of_error herror]

/-- A refused step has taken the operand that is of the wrong kind. -/
example : (Builder.after [(.int 1, 1), (.pointerType, 2)]).stack = [] := rfl

end MiniC
