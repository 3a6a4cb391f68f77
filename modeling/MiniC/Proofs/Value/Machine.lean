import Mathlib.Data.Set.Function
import Mathlib.Data.Set.Lattice
import Mathlib.Order.CompletePartialOrder
import MiniC.Machine.Instr

/-!
# Computing on the stack machine

What the instructions do that expressions without calls are made of. Cells hold integers; a character
is its code, a truth value is 0 or 1, and arithmetic is exact. Frames lie in one memory, and the stack
of intermediate results has one of its own. What converting from one kind of cell to another does is
left open (`Setting.convert`).
-/

namespace MiniC

namespace Machine

/-- What the cells hold. -/
abbrev Memory := Int → Int

/-- The memory with another value in a cell. -/
def Memory.store (memory : Memory) (address value : Int) : Memory :=
  fun cell => if cell = address then value else memory cell

namespace Memory

variable {memory memory' : Memory} {address cell value : Int} {hidden : Set Int}

@[simp] theorem store_self : memory.store address value address = value := by simp [store]

theorem store_of_ne (h : cell ≠ address) : memory.store address value cell = memory cell := by
  simp [store, h]

/-- Memories that are the same but for some cells stay so when both are written alike. -/
theorem store_congr (h : Set.EqOn memory memory' hiddenᶜ) :
    Set.EqOn (memory.store address value) (memory'.store address value) hiddenᶜ := by
  intro cell hcell
  by_cases heq : cell = address
  · rw [heq, store_self, store_self]
  · rw [store_of_ne heq, store_of_ne heq, h hcell]

/-- Writing a cell that does not count makes no difference. -/
theorem store_hidden (h : Set.EqOn memory memory' hiddenᶜ) (haddress : address ∈ hidden) :
    Set.EqOn (memory.store address value) memory' hiddenᶜ := by
  intro cell hcell
  rw [store_of_ne (ne_of_mem_of_not_mem haddress hcell).symm, h hcell]

end Memory

/-- The truth value of a condition. -/
def truth (condition : Bool) : Int := if condition then 1 else 0

/-- The value of a constant. -/
def Constant.cell : Constant → Int
  | int value => value
  | char value => value.toNat
  | bool value => truth value

/-- The result of an operation that is exact, which a division is not. -/
def ArithOp.value? : ArithOp → Int → Int → Option Int
  | .add, left, right => some (left + right)
  | .sub, left, right => some (left - right)
  | .mul, left, right => some (left * right)
  | .div, _, _ => none

/-- Whether a comparison holds. -/
def CompareOp.holds : CompareOp → Int → Int → Bool
  | .equal, left, right => left = right
  | .notEqual, left, right => left ≠ right
  | .less, left, right => left < right
  | .lessEqual, left, right => left ≤ right
  | .greater, left, right => left > right
  | .greaterEqual, left, right => left ≥ right

/-- A logical operation. -/
def LogicOp.holds : LogicOp → Bool → Bool → Bool
  | .and, left, right => left && right
  | .or, left, right => left || right

/-- What stays while an expression is computed: where the frame begins whose code runs, where those
begin that its static links lead to, nearest first, and what conversions do. -/
structure Setting where
  base : Int
  outer : List Int
  convert : Tag → Tag → Int → Int

/-- Where the frame begins that so many static links lead to. -/
def Setting.frame? (setting : Setting) (depth : Nat) : Option Int :=
  (setting.base :: setting.outer)[depth]?

@[simp] theorem Setting.frame?_zero (setting : Setting) : setting.frame? 0 = some setting.base := rfl

/-- Conversions between integers and truth values are the usual ones. -/
structure Setting.Truthful (setting : Setting) : Prop where
  int_bool : ∀ value, setting.convert .int .bool value = truth (value ≠ 0)
  bool_int : ∀ condition, setting.convert .bool .int (truth condition) = truth condition

/-- What changes while an expression is computed. -/
structure State where
  stack : List Int
  memory : Memory

/-- One instruction; nothing, if it does not compute or lacks its operands. -/
def Instr.compute (setting : Setting) : Instr → State → Option State
  | .ldc value, ⟨stack, memory⟩ => some ⟨value.cell :: stack, memory⟩
  | .lod _ depth slot, ⟨stack, memory⟩ =>
    (setting.frame? depth).map fun base => ⟨memory (base + slot) :: stack, memory⟩
  | .str _ depth slot, ⟨value :: stack, memory⟩ =>
    (setting.frame? depth).map fun base => ⟨stack, memory.store (base + slot) value⟩
  | .lda depth slot, ⟨stack, memory⟩ =>
    (setting.frame? depth).map fun base => ⟨(base + slot) :: stack, memory⟩
  | .ind _, ⟨address :: stack, memory⟩ => some ⟨memory address :: stack, memory⟩
  | .sto _, ⟨value :: address :: stack, memory⟩ => some ⟨stack, memory.store address value⟩
  | .ixa size, ⟨index :: address :: stack, memory⟩ => some ⟨(address + index * size) :: stack, memory⟩
  | .inc _ amount, ⟨value :: stack, memory⟩ => some ⟨(value + amount) :: stack, memory⟩
  | .dec _ amount, ⟨value :: stack, memory⟩ => some ⟨(value - amount) :: stack, memory⟩
  | .arith op _, ⟨right :: left :: stack, memory⟩ =>
    (op.value? left right).map fun value => ⟨value :: stack, memory⟩
  | .compare op _, ⟨right :: left :: stack, memory⟩ =>
    some ⟨truth (op.holds left right) :: stack, memory⟩
  | .logic op, ⟨right :: left :: stack, memory⟩ =>
    some ⟨truth (op.holds (left ≠ 0) (right ≠ 0)) :: stack, memory⟩
  | .neg _, ⟨value :: stack, memory⟩ => some ⟨-value :: stack, memory⟩
  | .not, ⟨value :: stack, memory⟩ => some ⟨truth (value = 0) :: stack, memory⟩
  | .conv source target, ⟨value :: stack, memory⟩ =>
    some ⟨setting.convert source target value :: stack, memory⟩
  | _, _ => none

namespace Code

/-- Instructions one behind the other. -/
def compute (setting : Setting) : Code → State → Option State
  | [], state => some state
  | instr :: code, state => (instr.compute setting state).bind (compute setting code)

variable {setting : Setting} {state : State}

@[simp] theorem compute_nil : compute setting [] state = some state := rfl

@[simp] theorem compute_cons (instr : Instr) (code : Code) :
    compute setting (instr :: code) state =
      (instr.compute setting state).bind (compute setting code) := rfl

theorem compute_append (code code' : Code) :
    compute setting (code ++ code') state =
      (compute setting code state).bind (compute setting code') := by
  induction code generalizing state with
  | nil => rfl
  | cons instr code ih =>
    rw [List.cons_append, compute_cons, compute_cons, Option.bind_assoc]
    congr 1
    funext state
    exact ih

end Code

theorem truth_ne_zero (condition : Bool) : (decide (truth condition ≠ 0)) = condition := by
  cases condition <;> rfl

theorem truth_eq_zero (condition : Bool) : (decide (truth condition = 0)) = !condition := by
  cases condition <;> rfl

end Machine

end MiniC
