import Mathlib.Logic.Relation
import MiniC.Proofs.Machine.Library
import MiniC.Proofs.Value.Machine

/-!
# Running programs

The whole stack machine. One memory holds the frames, and above the frame whose code runs it holds the
stack of intermediate results. The first five cells of a frame are for its result, the frame that its
static link leads to, the frame of the caller, the caller's bound of the stack, and the number of the
instruction behind the call. Cells hold integers: a character is its code, a truth value is 0 or 1,
arithmetic is exact, and a quotient is cut off towards zero.
-/

namespace MiniC.Machine

/-- The result of an operation; nothing is divided by zero. -/
def ArithOp.outcome? : ArithOp → Int → Int → Option Int
  | .div, left, right => if right = 0 then none else some (left.tdiv right)
  | op, left, right => op.value? left right

/-- A cell of another kind: a truth value says that it is not zero, a character is its code. -/
def Tag.convert : Tag → Tag → Int → Int
  | _, .bool, value => truth (value ≠ 0)
  | _, _, value => value

namespace Instr

/-- How many cells of the stack an instruction takes that only computes. -/
@[simp]
def takes? : Instr → Option Nat
  | ldc _ => some 0
  | inc .. | dec .. | neg _ | not | conv .. => some 1
  | ixa _ | arith .. | compare .. | logic _ => some 2
  | _ => none

/-- What such an instruction makes of these cells, the last one first. -/
def makes? : Instr → List Int → Option Int
  | ldc value, [] => some value.cell
  | inc _ amount, [value] => some (value + amount)
  | dec _ amount, [value] => some (value - amount)
  | neg _, [value] => some (-value)
  | not, [value] => some (truth (value = 0))
  | conv source target, [value] => some (source.convert target value)
  | ixa size, [index, address] => some (address + index * size)
  | arith op _, [right, left] => op.outcome? left right
  | compare op _, [right, left] => some (truth (op.holds left right))
  | logic op, [right, left] => some (truth (op.holds (left ≠ 0) (right ≠ 0)))
  | _, _ => none

/-- An instruction computes only with as many cells as it takes. -/
theorem length_of_makes? {instr : Instr} {count : Nat} {operands : List Int} {value : Int}
    (hcount : instr.takes? = some count) (hvalue : instr.makes? operands = some value) :
    operands.length = count := by
  unfold makes? at hvalue
  split at hvalue <;> simp_all [takes?]

end Instr

/-- The registers and the memory of the machine, what it has still to read, and what it has written. -/
structure Status where
  /-- The number of the instruction that comes next. -/
  next : Nat
  /-- Where the frame begins whose code runs. -/
  frame : Int
  /-- The last cell of the stack. -/
  top : Int
  /-- How far the stack may grow. -/
  bound : Int
  memory : Memory
  input : List Int
  output : List (Tag × Int)

namespace Status

/-- Where the frame begins that so many static links lead to. -/
def outward (status : Status) : Nat → Int
  | 0 => status.frame
  | depth + 1 => status.memory (status.outward depth + 1)

/-- The cells on top of the stack, the last one first. -/
def topmost (status : Status) (count : Nat) : List Int :=
  (List.range count).map fun i : Nat => status.memory (status.top - i)

/-- Takes cells from the stack and leaves one there. -/
def put (status : Status) (count : Nat) (value : Int) : Status :=
  { status with
    next := status.next + 1
    top := status.top - count + 1
    memory := status.memory.store (status.top - count + 1) value }

/-- Takes cells from the stack and writes one somewhere. -/
def save (status : Status) (count : Nat) (address value : Int) : Status :=
  { status with
    next := status.next + 1
    top := status.top - count
    memory := status.memory.store address value }

/-- Goes back to the caller. -/
def leave (status : Status) (top : Int) : Status :=
  { status with
    next := (status.memory (status.frame + 4)).toNat
    frame := status.memory (status.frame + 2)
    bound := status.memory (status.frame + 3)
    top }

end Status

/-- The number of the instruction that defines a label. -/
def Code.place? (code : Code) (name : Label) : Option Nat := code.findIdx? (· = .label name)

/-- What an instruction does that does not only compute. -/
def Instr.perform (program : Code) (status : Status) : Instr → Option Status
  | .label _ => some { status with next := status.next + 1 }
  | .lod _ depth slot => some (status.put 0 (status.memory (status.outward depth + slot)))
  | .str _ depth slot => some (status.save 1 (status.outward depth + slot) (status.memory status.top))
  | .lda depth slot => some (status.put 0 (status.outward depth + slot))
  | .ind _ => some (status.put 1 (status.memory (status.memory status.top)))
  | .sto _ => some (status.save 2 (status.memory (status.top - 1)) (status.memory status.top))
  | .ujp target => (program.place? target).map fun place => { status with next := place }
  | .fjp target =>
    if status.memory status.top = 0 then
      (program.place? target).map fun place => { status with next := place, top := status.top - 1 }
    else some { status with next := status.next + 1, top := status.top - 1 }
  | .mst depth =>
    some { status with
      next := status.next + 1
      top := status.top + 5
      memory := ((status.memory.store (status.top + 2) (status.outward depth)).store
        (status.top + 3) status.frame).store (status.top + 4) status.bound }
  | .cup count target =>
    (program.place? target).map fun place =>
      { status with
        next := place
        frame := status.top - count - 4
        memory := status.memory.store (status.top - count) (status.next + 1 : Nat) }
  | .ssp size => some { status with next := status.next + 1, top := status.frame + size - 1 }
  | .retf => some (status.leave status.frame)
  | .retp => some (status.leave (status.frame - 1))
  | .read _ =>
    match status.input with
    | [] => none
    | value :: input => some { status.put 0 value with input }
  | .write tag =>
    some { status with
      next := status.next + 1
      top := status.top - 1
      output := status.output ++ [(tag, status.memory status.top)] }
  | _ => none

/-- What an instruction does. -/
def Instr.execute (program : Code) (status : Status) (instr : Instr) : Option Status :=
  match instr.takes? with
  | some count => (instr.makes? (status.topmost count)).map (status.put count)
  | none => instr.perform program status

/-- One step of a program; none if it has come to its end or cannot go on. -/
def Code.step (program : Code) (status : Status) : Option Status :=
  program[status.next]?.bind fun instr => instr.execute program status

/-- A program comes from one status to another one. -/
abbrev Code.Runs (program : Code) : Status → Status → Prop :=
  Relation.ReflTransGen fun status status' => program.step status = some status'

/-- A label that is defined once is found. -/
theorem Code.place?_eq_some {program : Code} {name : Label} {place : Nat}
    (hnodup : program.labels.Nodup) (h : program[place]? = some (.label name)) :
    program.place? name = some place := by
  induction program generalizing place with
  | nil => simp at h
  | cons instr program ih =>
    rw [Code.labels_cons] at hnodup
    cases place with
    | zero =>
      obtain rfl : instr = .label name := by simpa using h
      simp [Code.place?, List.findIdx?_cons]
    | succ place =>
      have hmem : .label name ∈ program := List.mem_of_getElem? (i := place) (by simpa using h)
      have hne : instr ≠ .label name := by
        rintro rfl
        exact (List.nodup_cons.mp hnodup).1 (Code.mem_labels.mpr hmem)
      have hrest := ih (List.nodup_append.mp hnodup).2.1 (by simpa using h)
      simp only [Code.place?] at hrest ⊢
      simp [List.findIdx?_cons, hne, hrest]

end MiniC.Machine
