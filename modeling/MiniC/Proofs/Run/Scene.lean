import MiniC.Proofs.Run.Machine
import MiniC.Proofs.Run.Text

/-!
# Routines from inside

What the code of a library routine does, told from inside its frame: with the slots of the frame and
the stack above them as lists, apart from the memory around, and with the code of the routine alone,
its jump targets as the library numbers them. `Site.Shows` ties such a view to the status of the
machine, and `Site.leads_of_steps` says that the machine does what the view does, wherever the routine
stands in a program and however its targets have been numbered there.
-/

namespace MiniC.Machine

/-- What is around a frame. -/
structure Surroundings where
  memory : Memory
  bound : Int
  input : List Int
  output : List (Tag × Int)

/-- The surroundings with another value in a cell. -/
@[simp]
def Surroundings.store (around : Surroundings) (address value : Int) : Surroundings :=
  { around with memory := around.memory.store address value }

/-- A frame with the stack above it, whose last cell comes first. -/
structure Scene where
  slots : List Int
  stack : List Int
  around : Surroundings

/-- A place in the code of a routine, and what is there then. -/
structure Point where
  place : Code
  scene : Scene

/-- A routine at work: where in the program its code stands and how far its jump targets have been moved,
and which cells it has to itself. -/
structure Site where
  program : Code
  code : Code
  start : Nat
  taken : Nat
  first : Int
  size : Nat

/-- The code from a label on. -/
@[simp]
def Code.from (code : Code) (name : Label) : Code := code.dropWhile (· ≠ .label name)

theorem Code.from_suffix (code : Code) (name : Label) : code.from name <:+ code :=
  List.dropWhile_suffix _

/-- Code that starts at a label starts with it. -/
theorem Code.head_from {code place : Code} {instr : Instr} {name : Label}
    (h : code.from name = instr :: place) : instr = .label name := by
  have hhead := List.head?_dropWhile_not (fun instr => decide (instr ≠ .label name)) code
  rw [show code.dropWhile (fun instr => decide (instr ≠ .label name)) = instr :: place from h] at hhead
  simpa using hhead

namespace Scene

/-- Puts a cell on the stack, if there is room. -/
@[simp]
def push (size : Nat) (value : Int) (scene : Scene) : Option Scene :=
  if scene.slots.length + scene.stack.length < size then
    some { scene with stack := value :: scene.stack }
  else none

theorem push_eq_some {size : Nat} {value : Int} {scene scene' : Scene} :
    scene.push size value = some scene' ↔
      scene.slots.length + scene.stack.length < size ∧
        { scene with stack := value :: scene.stack } = scene' := by
  simp [push]

end Scene

namespace Site

variable (site : Site)

/-- A cell is one of those that the routine has to itself. -/
def Owns (cell : Int) : Prop := cell ∈ cells site.first site.size

instance (cell : Int) : Decidable (site.Owns cell) :=
  inferInstanceAs (Decidable (site.first ≤ cell ∧ cell < site.first + site.size))

/-- Goes on at a label of the routine. -/
@[simp]
def jump (target : Label) (scene : Scene) : Option Point :=
  match site.code.from target with
  | [] => none
  | place => some ⟨place, scene⟩

/-- What an instruction does that does not only compute. Addresses lead out of the frame. -/
@[simp]
def perform (rest : Code) : Instr → Scene → Option Point
  | .label _, scene => some ⟨rest, scene⟩
  | .lod _ 0 slot, scene =>
    scene.slots[slot]?.bind fun value => (scene.push site.size value).map (Point.mk rest)
  | .str _ 0 slot, ⟨slots, value :: stack, around⟩ =>
    if slot < slots.length then some ⟨rest, slots.set slot value, stack, around⟩ else none
  | .ind _, ⟨slots, address :: stack, around⟩ =>
    if site.Owns address then none
    else some ⟨rest, slots, around.memory address :: stack, around⟩
  | .sto _, ⟨slots, value :: address :: stack, around⟩ =>
    if site.Owns address then none
    else some ⟨rest, slots, stack, { around with memory := around.memory.store address value }⟩
  | .ujp target, scene => site.jump target scene
  | .fjp target, ⟨slots, value :: stack, around⟩ =>
    if value = 0 then site.jump target ⟨slots, stack, around⟩ else some ⟨rest, slots, stack, around⟩
  | .write tag, ⟨slots, value :: stack, around⟩ =>
    some ⟨rest, slots, stack, { around with output := around.output ++ [(tag, value)] }⟩
  | _, _ => none

/-- One step of a routine that is no call and no return. -/
@[simp]
def step : Point → Option Point
  | ⟨[], _⟩ => none
  | ⟨instr :: rest, scene⟩ =>
    match instr.takes? with
    | some count =>
      (instr.makes? (scene.stack.take count)).bind fun value =>
        ({ scene with stack := scene.stack.drop count }.push site.size value).map (Point.mk rest)
    | none => site.perform rest instr scene

/-- So many steps of a routine. -/
@[simp]
def steps : Nat → Point → Option Point
  | 0, point => some point
  | count + 1, point =>
    match site.step point with
    | none => none
    | some next => steps count next

/-- The program holds the code of the routine. -/
structure Holds : Prop where
  nodup : site.program.labels.Nodup
  code_eq : ∀ (i : Nat) instr, site.code[i]? = some instr →
    site.program[site.start + i]? = some (instr.relabel (Routine.shift site.taken))

/-- The number of the instruction at a place of the routine. -/
def number (place : Code) : Nat := site.start + (site.code.length - place.length)

/-- A scene lies in the memory, and its stack ends at `top`. -/
structure Lies (scene : Scene) (memory : Memory) (top : Int) : Prop where
  top_eq : top = site.first + scene.slots.length + scene.stack.length - 1
  room : scene.slots.length + scene.stack.length ≤ site.size
  slot_eq : ∀ (i : Nat) value, scene.slots[i]? = some value → memory (site.first + i) = value
  stack_eq : ∀ (i : Nat) value, scene.stack[i]? = some value → memory (top - i) = value
  memory_eq : ∀ cell, ¬site.Owns cell → memory cell = scene.around.memory cell

/-- The status of the machine is, from inside the routine, this point. -/
structure Shows (point : Point) (status : Status) : Prop where
  place : point.place <:+ site.code
  next_eq : status.next = site.number point.place
  frame_eq : status.frame = site.first
  lies : site.Lies point.scene status.memory status.top
  bound_eq : status.bound = point.scene.around.bound
  input_eq : status.input = point.scene.around.input
  output_eq : status.output = point.scene.around.output

/-- Whenever the machine is at the one point, it comes to the other one. -/
def Leads (point point' : Point) : Prop :=
  ∀ status, site.Shows point status →
    ∃ status', site.program.Runs status status' ∧ site.Shows point' status'

end Site

namespace Instr

variable (rename : Label → Label) (instr : Instr) (tag : Tag) (left right value : Int)

@[simp] theorem takes?_relabel : (instr.relabel rename).takes? = instr.takes? := by cases instr <;> rfl

@[simp] theorem makes?_relabel : (instr.relabel rename).makes? = instr.makes? := by cases instr <;> rfl

@[simp] theorem makes?_ldc_int : (ldc (.int value)).makes? [] = some value := rfl

@[simp] theorem makes?_ldc_char (c : Char) : (ldc (.char c)).makes? [] = some (c.toNat : Int) := rfl

@[simp] theorem makes?_inc (amount : Nat) : (inc tag amount).makes? [value] = some (value + amount) := rfl

@[simp] theorem makes?_dec (amount : Nat) : (dec tag amount).makes? [value] = some (value - amount) := rfl

@[simp] theorem makes?_neg : (neg tag).makes? [value] = some (-value) := rfl

@[simp] theorem makes?_conv_bool :
    (conv tag .bool).makes? [value] = some (if value = 0 then 0 else 1) := by
  simp [makes?, Tag.convert, truth]

@[simp] theorem makes?_conv_int : (conv tag .int).makes? [value] = some value := rfl

@[simp] theorem makes?_conv_char : (conv tag .char).makes? [value] = some value := rfl

@[simp] theorem makes?_add : (arith .add tag).makes? [right, left] = some (left + right) := rfl

@[simp] theorem makes?_sub : (arith .sub tag).makes? [right, left] = some (left - right) := rfl

@[simp] theorem makes?_mul : (arith .mul tag).makes? [right, left] = some (left * right) := rfl

@[simp] theorem makes?_div :
    (arith .div tag).makes? [right, left] = if right = 0 then none else some (left.tdiv right) := rfl

@[simp] theorem makes?_equal :
    (compare .equal tag).makes? [right, left] = some (if left = right then 1 else 0) := by
  simp [makes?, CompareOp.holds, truth]

@[simp] theorem makes?_notEqual :
    (compare .notEqual tag).makes? [right, left] = some (if left = right then 0 else 1) := by
  simp [makes?, CompareOp.holds, truth]

@[simp] theorem makes?_less :
    (compare .less tag).makes? [right, left] = some (if left < right then 1 else 0) := by
  simp [makes?, CompareOp.holds, truth]

@[simp] theorem makes?_lessEqual :
    (compare .lessEqual tag).makes? [right, left] = some (if left ≤ right then 1 else 0) := by
  simp [makes?, CompareOp.holds, truth]

@[simp] theorem makes?_greater :
    (compare .greater tag).makes? [right, left] = some (if left > right then 1 else 0) := by
  simp [makes?, CompareOp.holds, truth]

@[simp] theorem makes?_greaterEqual :
    (compare .greaterEqual tag).makes? [right, left] = some (if left ≥ right then 1 else 0) := by
  simp [makes?, CompareOp.holds, truth]

@[simp] theorem makes?_and :
    (logic .and).makes? [right, left] = some (if left ≠ 0 ∧ right ≠ 0 then 1 else 0) := by
  simp [makes?, LogicOp.holds, truth]

end Instr

namespace Site

variable {site : Site} {point point' : Point} {status : Status} {instr : Instr} {rest : Code}
  {slots stack : List Int} {around : Surroundings}

theorem number_rest (h : instr :: rest <:+ site.code) :
    site.number rest = site.number (instr :: rest) + 1 := by
  have hle := h.length_le
  simp only [number, List.length_cons] at hle ⊢
  omega

namespace Lies

variable {scene scene' : Scene} {memory : Memory} {top : Int}

/-- Cells have been taken from the stack. -/
theorem drop (h : site.Lies scene memory top) {count : Nat} (hcount : count ≤ scene.stack.length) :
    site.Lies { scene with stack := scene.stack.drop count } memory (top - count) := by
  have htop := h.top_eq
  have hroom := h.room
  constructor
  · simp only [List.length_drop]
    omega
  · simp only [List.length_drop]
    omega
  · exact h.slot_eq
  · intro i value hvalue
    rw [List.getElem?_drop] at hvalue
    rw [← h.stack_eq _ _ hvalue, Int.natCast_add, Int.sub_sub]
  · exact h.memory_eq

/-- A cell has been put on the stack. -/
theorem push (h : site.Lies scene memory top) {value : Int}
    (hpush : scene.push site.size value = some scene') :
    site.Lies scene' (memory.store (top + 1) value) (top + 1) := by
  obtain ⟨hlt, rfl⟩ := Scene.push_eq_some.mp hpush
  have htop := h.top_eq
  constructor
  · simp only [List.length_cons]
    omega
  · simp only [List.length_cons]
    omega
  · intro i slot hslot
    obtain ⟨hi, -⟩ := List.getElem?_eq_some_iff.mp hslot
    dsimp only at hi
    rw [Memory.store_of_ne (by omega)]
    exact h.slot_eq i slot hslot
  · intro i cell hcell
    cases i with
    | zero =>
      obtain rfl : value = cell := by simpa using hcell
      simp
    | succ i =>
      rw [Memory.store_of_ne (by omega), ← h.stack_eq i cell (by simpa using hcell)]
      congr 1
      omega
  · intro cell hcell
    have hne : cell ≠ top + 1 := by
      rintro rfl
      apply hcell
      constructor <;> omega
    rw [Memory.store_of_ne hne]
    exact h.memory_eq cell hcell

/-- The cell above the stack has come to it as it is. -/
theorem grow (h : site.Lies scene memory top)
    (hpush : scene.push site.size (memory (top + 1)) = some scene') :
    site.Lies scene' memory (top + 1) := by
  have hpushed := h.push hpush
  rwa [Memory.store_eq_self rfl] at hpushed

/-- A slot has been written. -/
theorem set (h : site.Lies scene memory top) {slot : Nat} {value : Int}
    (hslot : slot < scene.slots.length) :
    site.Lies { scene with slots := scene.slots.set slot value }
      (memory.store (site.first + slot) value) top := by
  have htop := h.top_eq
  have hroom := h.room
  constructor
  · rw [List.length_set]
    exact htop
  · rw [List.length_set]
    exact hroom
  · intro i cell hcell
    by_cases heq : slot = i
    · subst heq
      rw [List.getElem?_set_self hslot] at hcell
      rw [Memory.store_self, Option.some.inj hcell]
    · rw [List.getElem?_set_ne heq] at hcell
      rw [Memory.store_of_ne (by omega)]
      exact h.slot_eq i cell hcell
  · intro i cell hcell
    obtain ⟨hi, -⟩ := List.getElem?_eq_some_iff.mp hcell
    dsimp only at hi
    rw [Memory.store_of_ne (by omega)]
    exact h.stack_eq i cell hcell
  · intro cell hcell
    have hne : cell ≠ site.first + slot := by
      rintro rfl
      apply hcell
      constructor <;> omega
    rw [Memory.store_of_ne hne]
    exact h.memory_eq cell hcell

/-- Cells of the frame are none of those around it. -/
theorem slot_ne (h : site.Lies scene memory top) {address : Int} (haddress : ¬site.Owns address)
    {i : Nat} (hi : i < scene.slots.length + scene.stack.length) : site.first + i ≠ address := by
  rintro rfl
  have hroom := h.room
  apply haddress
  constructor <;> omega

/-- A cell around the frame has been written. -/
theorem write (h : site.Lies scene memory top) {address value : Int} (haddress : ¬site.Owns address) :
    site.Lies
      { scene with around.memory := scene.around.memory.store address value }
      (memory.store address value) top := by
  have htop := h.top_eq
  constructor
  · exact htop
  · exact h.room
  · intro i cell hcell
    obtain ⟨hi, -⟩ := List.getElem?_eq_some_iff.mp hcell
    dsimp only at hi
    rw [Memory.store_of_ne (h.slot_ne haddress (by omega))]
    exact h.slot_eq i cell hcell
  · intro i cell hcell
    obtain ⟨hi, -⟩ := List.getElem?_eq_some_iff.mp hcell
    dsimp only at hi
    have hne := h.slot_ne haddress
      (show scene.slots.length + (scene.stack.length - 1 - i) < _ by omega)
    rw [Memory.store_of_ne (by omega)]
    exact h.stack_eq i cell hcell
  · intro cell hcell
    by_cases heq : cell = address
    · simp [heq]
    · simpa only [Memory.store_of_ne heq] using h.memory_eq cell hcell

/-- The cells on top of the stack are the first ones of the scene's stack. -/
theorem topmost_eq {status : Status} (h : site.Lies scene status.memory status.top) {count : Nat}
    (hcount : count ≤ scene.stack.length) : status.topmost count = scene.stack.take count := by
  apply List.ext_getElem?
  intro i
  rw [Status.topmost, List.getElem?_map, List.getElem?_take]
  by_cases hi : i < count
  · have hlt : i < scene.stack.length := by omega
    simp [hi, hlt, h.stack_eq i _ (List.getElem?_eq_getElem hlt)]
  · simp [hi]

/-- The cell on top of the stack. -/
theorem head_eq {value : Int} (h : site.Lies ⟨slots, value :: stack, around⟩ memory top) :
    memory top = value := by
  simpa using h.stack_eq 0 value rfl

end Lies

/-- An instruction has taken cells from the stack and left one there. -/
theorem Shows.put {scene scene' : Scene} (hs : site.Shows ⟨instr :: rest, scene⟩ status) {count : Nat}
    {value : Int} (hcount : count ≤ scene.stack.length)
    (hpush : { scene with stack := scene.stack.drop count }.push site.size value = some scene') :
    site.Shows ⟨rest, scene'⟩ (status.put count value) := by
  have hlies := (hs.lies.drop hcount).push hpush
  obtain ⟨-, rfl⟩ := Scene.push_eq_some.mp hpush
  exact
    { hs with
      place := (List.suffix_cons _ _).trans hs.place
      next_eq := by rw [number_rest hs.place, ← hs.next_eq, Status.put]
      lies := hlies }

namespace Holds

/-- The program has the instruction at a place of the routine. -/
theorem fetch (h : site.Holds) (hplace : instr :: rest <:+ site.code) :
    site.program[site.number (instr :: rest)]? = some (instr.relabel (Routine.shift site.taken)) := by
  obtain ⟨front, hfront⟩ := hplace
  apply h.code_eq
  simp [← hfront]

/-- A label of the routine is found where it stands. -/
theorem place?_eq (h : site.Holds) {name : Label} (hplace : .label name :: rest <:+ site.code) :
    site.program.place? (Routine.shift site.taken name) = some (site.number (.label name :: rest)) :=
  Code.place?_eq_some h.nodup (h.fetch hplace)

/-- The machine executes the instruction at a place of the routine. -/
theorem step_eq (h : site.Holds) {scene : Scene} (hs : site.Shows ⟨instr :: rest, scene⟩ status) :
    site.program.step status =
      (instr.relabel (Routine.shift site.taken)).execute site.program status := by
  rw [Code.step, hs.next_eq, h.fetch hs.place]
  rfl

/-- Where a routine goes on at one of its labels, the machine goes on there. -/
theorem exists_place (h : site.Holds) {target : Label} {scene : Scene}
    (hjump : site.jump target scene = some point') :
    ∃ place, site.program.place? (Routine.shift site.taken target) = some (site.number place) ∧
      place <:+ site.code ∧ point' = ⟨place, scene⟩ := by
  have hsuffix := site.code.from_suffix target
  unfold jump at hjump
  cases hfrom : site.code.from target with
  | nil =>
    rw [hfrom] at hjump
    cases hjump
  | cons instr rest =>
    rw [hfrom] at hjump hsuffix
    obtain rfl := Code.head_from hfrom
    exact ⟨_, h.place?_eq hsuffix, hsuffix, (Option.some.inj hjump).symm⟩

/-- The machine does what an instruction of the routine does. -/
theorem exists_perform (h : site.Holds) {scene : Scene}
    (hs : site.Shows ⟨instr :: rest, scene⟩ status) (hstep : site.perform rest instr scene = some point') :
    ∃ status', (instr.relabel (Routine.shift site.taken)).perform site.program status = some status' ∧
      site.Shows point' status' := by
  have hplace : rest <:+ site.code := (List.suffix_cons _ _).trans hs.place
  have hnext : status.next + 1 = site.number rest := by rw [number_rest hs.place, ← hs.next_eq]
  unfold perform at hstep
  split at hstep
  · cases hstep
    exact ⟨_, rfl, { hs with place := hplace, next_eq := hnext }⟩
  · next _ slot =>
    simp only [Option.bind_eq_some_iff, Option.map_eq_some_iff] at hstep
    obtain ⟨value, hvalue, scene', hpush, rfl⟩ := hstep
    have hcell : status.memory (status.outward 0 + slot) = value := by
      rw [Status.outward, hs.frame_eq, hs.lies.slot_eq slot value hvalue]
    exact ⟨_, rfl, hcell ▸ hs.put (Nat.zero_le _) hpush⟩
  · next slot slots value stack around =>
    rw [Option.ite_none_right_eq_some, Option.some.injEq] at hstep
    obtain ⟨hslot, rfl⟩ := hstep
    have hcell : status.memory status.top = value := hs.lies.head_eq
    refine ⟨_, rfl, { hs with place := hplace, next_eq := hnext, lies := ?_ }⟩
    rw [Status.save, Status.outward, hs.frame_eq, hcell]
    exact (hs.lies.drop (show 1 ≤ _ by simp)).set hslot
  · next slots address stack around =>
    rw [Option.ite_none_left_eq_some, Option.some.injEq] at hstep
    obtain ⟨haddress, rfl⟩ := hstep
    have hroom := hs.lies.room
    have hcell : status.memory status.top = address := hs.lies.head_eq
    have hvalue : status.memory (status.memory status.top) = around.memory address := by
      rw [hcell, hs.lies.memory_eq address haddress]
    refine ⟨_, rfl, hvalue ▸ hs.put (show 1 ≤ _ by simp) (Scene.push_eq_some.mpr ⟨?_, rfl⟩)⟩
    simp only [List.length_cons, List.drop_one, List.tail_cons] at hroom ⊢
    omega
  · next slots value address stack around =>
    rw [Option.ite_none_left_eq_some, Option.some.injEq] at hstep
    obtain ⟨haddress, rfl⟩ := hstep
    have hcell : status.memory status.top = value := hs.lies.head_eq
    have hplaced : status.memory (status.top - 1) = address := by
      simpa using hs.lies.stack_eq 1 address rfl
    refine ⟨_, rfl, { hs with place := hplace, next_eq := hnext, lies := ?_ }⟩
    rw [Status.save, hcell, hplaced]
    exact (hs.lies.drop (show 2 ≤ _ by simp)).write haddress
  · next target scene =>
    obtain ⟨place, hfound, hsuffix, rfl⟩ := h.exists_place hstep
    refine ⟨{ status with next := site.number place }, ?_, { hs with place := hsuffix, next_eq := rfl }⟩
    simp [Instr.relabel, Instr.perform, hfound]
  · next target slots value stack around =>
    have hcell : status.memory status.top = value := hs.lies.head_eq
    have hlies := hs.lies.drop (show 1 ≤ _ by simp)
    by_cases hfalse : value = 0
    · rw [if_pos hfalse] at hstep
      obtain ⟨place, hfound, hsuffix, rfl⟩ := h.exists_place hstep
      refine ⟨{ status with next := site.number place, top := status.top - 1 }, ?_,
        { hs with place := hsuffix, next_eq := rfl, lies := hlies }⟩
      simp [Instr.relabel, Instr.perform, hfound, hcell, hfalse]
    · rw [if_neg hfalse] at hstep
      obtain rfl := Option.some.inj hstep
      refine ⟨{ status with next := status.next + 1, top := status.top - 1 }, ?_,
        { hs with place := hplace, next_eq := hnext, lies := hlies }⟩
      simp [Instr.relabel, Instr.perform, hcell, hfalse]
  · next _ slots value stack around =>
    have hcell : status.memory status.top = value := hs.lies.head_eq
    obtain rfl := Option.some.inj hstep
    refine ⟨_, rfl, { hs with place := hplace, next_eq := hnext, lies := ?_, output_eq := ?_ }⟩
    · exact { hs.lies.drop (show 1 ≤ _ by simp) with }
    · rw [hcell, hs.output_eq]
  · cases hstep

end Holds

/-- The machine does what a routine does. -/
theorem Holds.exists_step (h : site.Holds) (hs : site.Shows point status)
    (hstep : site.step point = some point') :
    ∃ status', site.program.step status = some status' ∧ site.Shows point' status' := by
  obtain ⟨place, scene⟩ := point
  cases place with
  | nil => cases hstep
  | cons instr rest =>
    rw [h.step_eq hs, Instr.execute, Instr.takes?_relabel, Instr.makes?_relabel]
    simp only [step] at hstep
    cases hcount : instr.takes? with
    | some count =>
      simp only [hcount, Option.bind_eq_some_iff, Option.map_eq_some_iff] at hstep ⊢
      obtain ⟨value, hvalue, scene', hpush, rfl⟩ := hstep
      have hle : count ≤ scene.stack.length := by
        have hlength := Instr.length_of_makes? hcount hvalue
        rw [List.length_take] at hlength
        omega
      rw [hs.lies.topmost_eq hle]
      exact ⟨_, ⟨value, hvalue, rfl⟩, hs.put hle hpush⟩
    | none =>
      simp only [hcount] at hstep ⊢
      exact h.exists_perform hs hstep

namespace Leads

variable {point'' : Point}

theorem refl (point : Point) : site.Leads point point := fun status hs => ⟨status, .refl, hs⟩

theorem trans (h : site.Leads point point') (h' : site.Leads point' point'') :
    site.Leads point point'' := by
  intro status hs
  obtain ⟨status', hruns, hs'⟩ := h status hs
  obtain ⟨status'', hruns', hs''⟩ := h' status' hs'
  exact ⟨status'', hruns.trans hruns', hs''⟩

/-- So many rounds, one behind the other. -/
theorem rounds (point : Nat → Point) {count : Nat}
    (h : ∀ i < count, site.Leads (point i) (point (i + 1))) : site.Leads (point 0) (point count) := by
  induction count with
  | zero => exact .refl _
  | succ count ih =>
    have hbefore := ih fun i hi => h i (Nat.lt_succ_of_lt hi)
    exact hbefore.trans (h count (Nat.lt_succ_self count))

end Leads

/-- The machine comes to where so many steps of a routine lead. -/
theorem Holds.leads_of_steps (h : site.Holds) (count : Nat) {point : Point}
    (hsteps : site.steps count point = some point') : site.Leads point point' := by
  induction count generalizing point with
  | zero =>
    obtain rfl := Option.some.inj hsteps
    exact .refl point
  | succ count ih =>
    rw [steps] at hsteps
    split at hsteps
    · cases hsteps
    · next hstep =>
      intro status hs
      obtain ⟨status', hstatus', hs'⟩ := h.exists_step hs hstep
      obtain ⟨status'', hruns, hs''⟩ := ih hsteps status' hs'
      exact ⟨status'', .head hstatus' hruns, hs''⟩

end Site

end MiniC.Machine
