import MiniC.Proofs.Run.Scene

/-!
# Calls of routines

How control comes into a routine and back. `Status.Calls` says that control is at the call of a
routine, behind `mst` and the arguments, and `Status.Returned` that it has come back behind the call:
with the result on the stack, or with nothing there, in the frame of the caller. What the routine does
in between is told from inside its frame.
-/

namespace MiniC.Machine

/-- A program offers library routines: it holds their code and that of all that they need, with jump
targets of any numbers, and defines no label twice. -/
structure Code.Offers (program : Code) (names : List String) : Prop where
  nodup : program.labels.Nodup
  spliced : ∀ routine ∈ Routine.closure names, ∃ session, (routine.instantiate session).1 <:+: program

namespace Status

/-- What is around a frame that is about to be entered. -/
def around (status : Status) : Surroundings :=
  { memory := status.memory, bound := status.bound, input := status.input, output := status.output }

/-- Control is at the call of a routine, whose frame is to begin at `first`. -/
structure Calls (status : Status) (program : Code) (name : String) (arguments : List Int)
    (first : Int) : Prop where
  instr_eq : program[status.next]? = some (.cup arguments.length (.named name))
  top_eq : status.top = first + 4 + arguments.length
  argument_eq : ∀ (i : Nat) value, arguments[i]? = some value → status.memory (first + 5 + i) = value
  frame_eq : status.memory (first + 2) = status.frame
  bound_eq : status.memory (first + 3) = status.bound

/-- The status in which a routine is called: its frame has been marked, and holds the arguments. -/
def prepared (status : Status) (first : Int) (arguments : List Int) : Status :=
  { status with
    top := first + 4 + arguments.length
    memory := ((status.memory.store (first + 2) status.frame).store (first + 3) status.bound).write
      (first + 5) arguments }

/-- A routine that began its frame at `first` and had `size` cells to itself has come back from where
`status` called it. It leaves its result, if it has one, and around its cells the memory, the input and
the output are as in `around`. -/
structure Returned (status : Status) (first : Int) (size : Nat) (result : Option Int)
    (around : Surroundings) (status' : Status) : Prop where
  next_eq : status'.next = status.next + 1
  frame_eq : status'.frame = status.frame
  bound_eq : status'.bound = status.bound
  top_eq : status'.top + 1 = first + result.toList.length
  result_eq : ∀ value ∈ result, status'.memory first = value
  memory_eq : ∀ cell ∉ cells first size, status'.memory cell = around.memory cell
  input_eq : status'.input = around.input
  output_eq : status'.output = around.output

/-- The call of a routine comes back. -/
def Returns (status : Status) (program : Code) (first : Int) (size : Nat) (result : Option Int)
    (around : Surroundings) : Prop :=
  ∃ status', program.Runs status status' ∧ status.Returned first size result around status'

end Status

/-- What an instruction gives back that leaves a routine whose slot 0 holds `value`. -/
def Instr.gives : Instr → Int → Option (Option Int)
  | .retf, value => some (some value)
  | .retp, _ => some none
  | _, _ => none

namespace Site

variable {site : Site} {program code : Code} {names : List String} {name : String} {caller status : Status}
  {arguments : List Int} {first : Int} {size : Nat} {result : Option Int} {around : Surroundings}

/-- The first cells of the frame of a routine: its result, the link to another frame, and what it needs
to go back to the caller. -/
@[simp]
def header (value link : Int) (caller : Status) : List Int :=
  [value, link, caller.frame, caller.bound, (caller.next + 1 : Nat)]

theorem length_header (value link : Int) : (header value link caller).length = 5 := rfl

/-- A routine leads from a point to where it is left with a result, into surroundings. -/
def Yields (site : Site) (caller : Status) (point : Point) (result : Option Int)
    (around : Surroundings) : Prop :=
  ∃ leave rest value link slots stack, leave.gives value = some result ∧
    site.Leads point ⟨leave :: rest, header value link caller ++ slots, stack, around⟩

namespace Yields

variable {place rest : Code} {point : Point} {value link : Int} {slots stack : List Int}

theorem retf : site.Yields caller ⟨.retf :: rest, header value link caller ++ slots, stack, around⟩
    (some value) around :=
  ⟨.retf, rest, value, link, slots, stack, rfl, .refl _⟩

theorem retp : site.Yields caller ⟨.retp :: rest, header value link caller ++ slots, stack, around⟩
    none around :=
  ⟨.retp, rest, value, link, slots, stack, rfl, .refl _⟩

end Yields

theorem Leads.yields {point point' : Point} (h : site.Leads point point')
    (h' : site.Yields caller point' result around) : site.Yields caller point result around := by
  obtain ⟨leave, rest, value, link, slots, stack, hgives, hleads⟩ := h'
  exact ⟨leave, rest, value, link, slots, stack, hgives, h.trans hleads⟩

/-- From inside a routine, control goes back to the caller. -/
theorem Holds.exists_returned (h : site.Holds) {leave : Instr} {rest : Code} {value link : Int}
    {slots stack : List Int} (hgives : leave.gives value = some result)
    (hs : site.Shows ⟨leave :: rest, header value link caller ++ slots, stack, around⟩ status) :
    ∃ status', site.program.Runs status status' ∧
      caller.Returned site.first site.size result around status' := by
  have hslot : ∀ (i : Nat) cell, (header value link caller)[i]? = some cell →
      status.memory (site.first + i) = cell := by
    intro i cell hcell
    apply hs.lies.slot_eq i cell
    rw [List.getElem?_append_left (List.getElem?_eq_some_iff.mp hcell).1, hcell]
  have hvalue : status.memory site.first = value := by simpa using hslot 0 value rfl
  have hleft : ∀ top, top + 1 = site.first + result.toList.length →
      (∀ other ∈ result, value = other) →
      caller.Returned site.first site.size result around (status.leave top) := by
    intro top htop hresult
    refine ⟨?_, ?_, ?_, htop, ?_, hs.lies.memory_eq, hs.input_eq, hs.output_eq⟩
    · rw [Status.leave, hs.frame_eq]
      exact (congrArg Int.toNat (hslot 4 _ rfl)).trans (Int.toNat_natCast _)
    · rw [Status.leave, hs.frame_eq]
      exact hslot 2 _ rfl
    · rw [Status.leave, hs.frame_eq]
      exact hslot 3 _ rfl
    · intro other hother
      exact hvalue.trans (hresult other hother)
  have hstep := h.step_eq hs
  unfold Instr.gives at hgives
  split at hgives
  · obtain rfl := Option.some.inj hgives
    exact ⟨_, .single hstep, hleft status.frame (by simp [hs.frame_eq]) (by simp)⟩
  · obtain rfl := Option.some.inj hgives
    exact ⟨_, .single hstep, hleft (status.frame - 1) (by simp [hs.frame_eq]) (by simp)⟩
  · cases hgives

end Site

namespace Status

/-- The status in which the body of a routine is entered. -/
def opened (caller : Status) (next : Nat) (first : Int) (frameSize : Nat) : Status :=
  { caller with
    next
    frame := first
    top := first + frameSize - 1
    memory := caller.memory.store (first + 4) (caller.next + 1 : Nat) }

theorem prepared_memory {status : Status} {arguments : List Int} {first cell : Int}
    (h : cell ∉ cells first (5 + arguments.length)) :
    (status.prepared first arguments).memory cell = status.memory cell := by
  simp only [cells, Set.mem_ofPred_eq, not_and, not_lt] at h
  have hbehind : cell ∉ cells (first + 5) arguments.length := by
    simp only [cells, Set.mem_ofPred_eq, not_and, not_lt]
    omega
  apply (Memory.write_of_not_mem hbehind).trans
  rw [Memory.store_of_ne (by omega), Memory.store_of_ne (by omega)]

namespace Calls

variable {program : Code} {name : String} {caller : Status} {arguments : List Int} {first : Int}
  {value : Int}

theorem prepared {status : Status}
    (hinstr : program[status.next]? = some (.cup arguments.length (.named name))) :
    (status.prepared first arguments).Calls program name arguments first := by
  have hbefore : ∀ i < 5, first + i ∉ cells (first + 5) arguments.length := by
    intro i hi hcell
    have hle := hcell.1
    omega
  refine ⟨hinstr, rfl, Memory.lists_iff.mp Memory.lists_write, ?_, ?_⟩
  · apply (Memory.write_of_not_mem (hbefore 2 (by decide))).trans
    rw [Memory.store_of_ne (by omega), Memory.store_self]
    rfl
  · apply (Memory.write_of_not_mem (hbefore 3 (by decide))).trans
    exact Memory.store_self

/-- The first cells of the frame, once the caller's next instruction has been noted. -/
theorem lists_header (h : caller.Calls program name arguments first) :
    (caller.memory.store (first + 4) value).Lists first
      [caller.memory first, caller.memory (first + 1), caller.frame, caller.bound, value] := by
  have hkept : ∀ i < 4, caller.memory.store (first + 4) value (first + i) = caller.memory (first + i) :=
    fun i hi => Memory.store_of_ne (by omega)
  have hstart : caller.memory.store (first + 4) value first = caller.memory first :=
    Memory.store_of_ne (by omega)
  simp [Memory.Lists, Int.add_assoc, hkept, hstart, h.frame_eq, h.bound_eq]

theorem lists_arguments (h : caller.Calls program name arguments first) :
    (caller.memory.store (first + 4) value).Lists (first + 5) arguments := by
  rw [Memory.lists_iff]
  intro i argument hargument
  rw [Memory.store_of_ne (by omega), h.argument_eq i argument hargument]

end Calls

end Status

namespace Code.Offers

variable {program : Code} {names : List String} {routine : Routine} {caller : Status}
  {arguments : List Int} {first : Int} {frameSize size : Nat} {result : Option Int}
  {body : Code} {around : Surroundings}

/-- The routine stands in the program, right behind its own label. -/
theorem exists_holds (h : program.Offers names) (hroutine : routine ∈ Routine.closure names) (first : Int)
    (size : Nat) :
    ∃ place taken, program[place]? = some (.label (.named routine.name)) ∧
      Site.Holds ⟨program, routine.code, place + 1, taken, first, size⟩ := by
  obtain ⟨session, front, back, hspliced⟩ := h.spliced routine hroutine
  have hbehind : ∀ i : Nat, i < routine.code.length + 1 →
      program[front.length + i]? = (routine.instantiate session).1[i]? := by
    intro i hi
    rw [← hspliced, List.append_assoc, List.getElem?_append_right (Nat.le_add_right _ _),
      Nat.add_sub_cancel_left, List.getElem?_append_left]
    simpa [Routine.instantiate] using hi
  refine ⟨front.length, session.drawn, ?_, h.nodup, ?_⟩
  · rw [show front.length = front.length + 0 from rfl, hbehind 0 (Nat.succ_pos _)]
    rfl
  · intro i instr hinstr
    have hi : i < routine.code.length := (List.getElem?_eq_some_iff.mp hinstr).1
    rw [show front.length + 1 + i = front.length + (i + 1) by omega, hbehind (i + 1) (by omega)]
    simp [Routine.instantiate, show routine.code[i]? = some instr from hinstr]

/-- The call of a routine, its label and the size of its frame are three steps. -/
theorem runs_opened (h : program.Offers names) (hroutine : routine ∈ Routine.closure names)
    (hcode : routine.code = .ssp frameSize :: body)
    (hcall : caller.Calls program routine.name arguments first) (size : Nat) :
    ∃ place taken,
      Site.Holds ⟨program, routine.code, place, taken, first, size⟩ ∧
      program.Runs caller (caller.opened (place + 1) first frameSize) := by
  obtain ⟨place, taken, hname, hholds⟩ := h.exists_holds hroutine first size
  have hreturn : caller.top - arguments.length = first + 4 := by
    have htop := hcall.top_eq
    omega
  let memory := caller.memory.store (first + 4) (caller.next + 1 : Nat)
  let entered : Status := { caller with next := place, frame := first, memory }
  let begun : Status := { entered with next := place + 1 }
  have henter : program.step caller = some entered := by
    simp [Code.step, hcall.instr_eq, Instr.execute, Instr.perform, Code.place?_eq_some h.nodup hname,
      hreturn, entered, memory]
  have hbegin : program.step entered = some begun := by
    simp [Code.step, hname, Instr.execute, Instr.perform, entered, begun]
  have hopen : program.step begun = some (caller.opened (place + 2) first frameSize) := by
    have hssp := hholds.code_eq 0 (.ssp frameSize) (by simp [hcode])
    simp only [Nat.add_zero] at hssp
    simp [Code.step, hssp, Instr.execute, Instr.perform, Instr.relabel, Status.opened, begun, entered,
      memory]
  exact ⟨place + 1, taken, hholds, .head henter (.head hbegin (.single hopen))⟩

/-- A routine has been entered: its frame holds the arguments and some cells behind them. -/
theorem exists_entered (h : program.Offers names) (hroutine : routine ∈ Routine.closure names)
    (hcode : routine.code = .ssp frameSize :: body)
    (hcall : caller.Calls program routine.name arguments first)
    (harguments : 5 + arguments.length ≤ frameSize) (hsize : frameSize ≤ size) :
    ∃ place taken value link locals status,
      Site.Holds ⟨program, routine.code, place, taken, first, size⟩ ∧
      locals.length = frameSize - (5 + arguments.length) ∧ program.Runs caller status ∧
      Site.Shows ⟨program, routine.code, place, taken, first, size⟩
        ⟨body, Site.header value link caller ++ (arguments ++ locals), [], caller.around⟩ status := by
  obtain ⟨place, taken, hholds, hruns⟩ := h.runs_opened hroutine hcode hcall size
  let locals := Memory.range (caller.memory.store (first + 4) (caller.next + 1 : Nat))
    (first + 5 + arguments.length) (frameSize - (5 + arguments.length))
  have hlength : locals.length = frameSize - (5 + arguments.length) := Memory.length_range _
  refine ⟨place, taken, caller.memory first, caller.memory (first + 1), locals, _, hholds, hlength,
    hruns, ?_⟩
  have hsuffix : body <:+ routine.code := hcode ▸ List.suffix_cons _ _
  refine ⟨hsuffix, ?_, rfl, ?_, rfl, rfl, rfl⟩
  · simp [Site.number, hcode, Status.opened]
  constructor
  · simp only [Status.opened, List.length_append, Site.length_header, List.length_nil]
    omega
  · simp only [List.length_append, Site.length_header, List.length_nil]
    omega
  · rw [← Memory.lists_iff, Memory.lists_append, Memory.lists_append]
    exact ⟨hcall.lists_header, hcall.lists_arguments, Memory.lists_range⟩
  · intro i value hvalue
    cases hvalue
  · intro cell hcell
    apply Memory.store_of_ne
    rintro rfl
    apply hcell
    constructor <;> dsimp only <;> omega

/-- A routine comes back if, from inside, it leads from behind the size of its frame to an instruction
that leaves it. -/
theorem returns (h : program.Offers names) (hroutine : routine ∈ Routine.closure names)
    (hcode : routine.code = .ssp frameSize :: body)
    (hcall : caller.Calls program routine.name arguments first)
    (harguments : 5 + arguments.length ≤ frameSize) (hsize : frameSize ≤ size)
    (hbody : ∀ place taken value link locals, locals.length = frameSize - (5 + arguments.length) →
      Site.Holds ⟨program, routine.code, place, taken, first, size⟩ →
      Site.Yields ⟨program, routine.code, place, taken, first, size⟩ caller
        ⟨body, Site.header value link caller ++ (arguments ++ locals), [], caller.around⟩ result
        around) :
    caller.Returns program first size result around := by
  obtain ⟨place, taken, value, link, locals, status, hholds, hlocals, hruns, hshows⟩ :=
    h.exists_entered hroutine hcode hcall harguments hsize
  obtain ⟨leave, rest, value', link', slots, stack, hgives, hleads⟩ :=
    hbody place taken value link locals hlocals hholds
  obtain ⟨status', hruns', hshows'⟩ := hleads status hshows
  obtain ⟨status'', hruns'', hreturned⟩ := hholds.exists_returned hgives hshows'
  exact ⟨status'', (hruns.trans hruns').trans hruns'', hreturned⟩

end Code.Offers

/-- Library routines stand in the program one behind the other. -/
theorem exists_instantiate_infix {routines : List Routine} {routine : Routine} (h : routine ∈ routines)
    (session : Session) :
    ∃ session', (routine.instantiate session').1 <:+: (Emit.routines session routines).1 := by
  induction routines generalizing session with
  | nil => cases h
  | cons first routines ih =>
    simp only [Emit.routines]
    rcases List.mem_cons.mp h with rfl | hrest
    · exact ⟨session, (List.prefix_append _ _).isInfix⟩
    · obtain ⟨session', hinfix⟩ := ih hrest (first.instantiate session).2
      exact ⟨session', hinfix.trans (List.suffix_append _ _).isInfix⟩

/-- Code with a library behind it offers what the library has. -/
theorem Code.Offers.append {code : Code} {names : List String} {session : Session}
    (h : (code ++ (Emit.routines session (Routine.closure names)).1).labels.Nodup) :
    (code ++ (Emit.routines session (Routine.closure names)).1).Offers names := by
  refine ⟨h, fun routine hroutine => ?_⟩
  obtain ⟨session', hinfix⟩ := exists_instantiate_infix hroutine session
  exact ⟨session', hinfix.trans (List.suffix_append _ _).isInfix⟩

/-! ## Calls from inside a routine -/

namespace Site

variable {site : Site} {name : String} {arguments slots stack values : List Int} {address : Int}
  {size depth : Nat} {result : Option Int} {around : Surroundings} {rest : Code} {point' : Point}

/-- The memory behind `mst`, which leaves two cells of the frame as they are. -/
theorem Lies.mark {memory : Memory} {top : Int} (h : site.Lies ⟨slots, stack, around⟩ memory top)
    (hroom : slots.length + stack.length + 5 ≤ site.size) (link frame bound : Int) :
    site.Lies
      ⟨slots, memory (top + 5) :: bound :: frame :: link :: memory (top + 1) :: stack, around⟩
      (((memory.store (top + 2) link).store (top + 3) frame).store (top + 4) bound) (top + 5) := by
  have hpush : ∀ (value : Int) (above : List Int), above.length < 5 →
      Scene.push site.size value ⟨slots, above ++ stack, around⟩ =
        some ⟨slots, value :: above ++ stack, around⟩ := by
    intro value above habove
    refine Scene.push_eq_some.mpr ⟨?_, rfl⟩
    simp only [List.length_append]
    omega
  have hvalue := h.grow (hpush (memory (top + 1)) [] (by simp))
  have hlink := hvalue.push (hpush link [_] (by simp))
  have hframe := hlink.push (hpush frame [_, _] (by simp))
  have hbound := hframe.push (hpush bound [_, _, _] (by simp))
  have hnext := hbound.grow (hpush _ [_, _, _, _] (by simp))
  simp only [Int.add_assoc, Int.reduceAdd] at hnext
  rwa [Memory.store_of_ne (by omega), Memory.store_of_ne (by omega), Memory.store_of_ne (by omega)]
    at hnext

/-- The frame of another routine is marked. What its first and its last cell hold is not known. -/
theorem Holds.leads_mark (h : site.Holds) (hroom : slots.length + stack.length + 5 ≤ site.size)
    (hrest : ∀ value link next, site.Leads
      ⟨rest, slots, next :: around.bound :: site.first :: link :: value :: stack, around⟩ point') :
    site.Leads ⟨.mst depth :: rest, slots, stack, around⟩ point' := by
  intro status hs
  have hlies := hs.lies.mark hroom (status.outward depth) site.first around.bound
  obtain ⟨status', hruns, hs'⟩ := hrest _ _ _ (Status.mk (site.number rest) site.first (status.top + 5)
    around.bound _ status.input status.output)
    ⟨(List.suffix_cons _ _).trans hs.place, rfl, rfl, hlies, rfl, hs.input_eq, hs.output_eq⟩
  refine ⟨status', .head ?_ hruns, hs'⟩
  rw [h.step_eq hs, number_rest hs.place, ← hs.next_eq, ← hs.frame_eq, ← hs.bound_eq]
  rfl

/-- What lies on the stack below other values. -/
theorem Lies.below_eq {memory : Memory} {above below : List Int} {top : Int}
    (h : site.Lies ⟨slots, above ++ below, around⟩ memory top) (i : Nat) (cell : Int)
    (hcell : below[i]? = some cell) : memory (top - above.length - i) = cell := by
  rw [← h.stack_eq (above.length + i) cell]
  · congr 1
    omega
  · rwa [List.getElem?_append_right (Nat.le_add_right _ _), Nat.add_sub_cancel_left]

/-- Marks and arguments on the stack are the beginning of a frame. -/
theorem Holds.calls (h : site.Holds) {status : Status} {value link next : Int}
    (hs : site.Shows
      ⟨.cup arguments.length (.named name) :: rest, slots,
        arguments.reverse ++ next :: around.bound :: site.first :: link :: value :: stack, around⟩
      status) :
    status.Calls site.program name arguments (site.first + slots.length + stack.length) := by
  have htop : status.top = site.first + slots.length + stack.length + 4 + arguments.length := by
    have htop := hs.lies.top_eq
    simp only [List.length_append, List.length_reverse, List.length_cons] at htop
    omega
  have hmarks := hs.lies.below_eq
  simp only [htop, List.length_reverse] at hmarks
  constructor
  · rw [hs.next_eq]
    exact h.fetch hs.place
  · exact htop
  · intro i argument hargument
    have hi := (List.getElem?_eq_some_iff.mp hargument).1
    rw [← hs.lies.stack_eq (arguments.length - 1 - i) argument, htop]
    · congr 1
      omega
    · rw [List.getElem?_append_left (by rw [List.length_reverse]; omega),
        List.getElem?_reverse (by omega), ← hargument]
      congr 1
      omega
  · rw [hs.frame_eq]
    exact Eq.trans (by congr 1; omega) (hmarks 2 _ rfl)
  · rw [hs.bound_eq]
    exact Eq.trans (by congr 1; omega) (hmarks 1 _ rfl)

/-- A frame that another one was put on, once that has been left. -/
theorem Lies.returned {caller status : Status} {above : List Int}
    (h : site.Lies ⟨slots, above ++ stack, around⟩ caller.memory caller.top)
    (hroom : slots.length + stack.length + size ≤ site.size) (hsize : result.toList.length ≤ size)
    (hcells : cells (site.first + slots.length + stack.length) size ⊆ cells site.first site.size)
    (houtside : ∀ cell ∈ cells address values.length, ¬site.Owns cell)
    (hback : caller.Returned (site.first + slots.length + stack.length) size result
      { caller.around with memory := caller.memory.write address values } status) :
    site.Lies
      ⟨slots, result.toList ++ stack, { around with memory := around.memory.write address values }⟩
      status.memory status.top := by
  have htop := h.top_eq
  have hend := hback.top_eq
  simp only [List.length_append] at htop
  -- What the other routine has left alone: cells of this one below its own.
  have hkept : ∀ cell, site.first ≤ cell → cell < site.first + slots.length + stack.length →
      status.memory cell = caller.memory cell := by
    intro cell hle hlt
    rw [hback.memory_eq cell fun hcell => not_lt_of_ge hcell.1 hlt]
    apply Memory.write_of_not_mem
    intro hcell
    apply houtside cell hcell
    constructor <;> omega
  have hbelow : ∀ (i : Nat) cell, stack[i]? = some cell →
      status.memory (site.first + slots.length + stack.length - 1 - i) = cell := by
    intro i cell hcell
    have hi := (List.getElem?_eq_some_iff.mp hcell).1
    rw [hkept _ (by omega) (by omega), ← h.below_eq i cell hcell]
    congr 1
    omega
  constructor
  · simp only [List.length_append]
    omega
  · simp only [List.length_append]
    omega
  · intro i cell hcell
    have hi : i < slots.length := (List.getElem?_eq_some_iff.mp hcell).1
    rw [hkept _ (by omega) (by omega)]
    exact h.slot_eq i cell hcell
  · intro i cell hcell
    cases result with
    | none =>
      rw [← hbelow i cell hcell]
      congr 1
      simp only [Option.toList_none, List.length_nil] at hend
      omega
    | some value =>
      have hlast : status.top = site.first + slots.length + stack.length := by simpa using hend
      cases i with
      | zero =>
        obtain rfl : value = cell := by simpa using hcell
        rw [← hback.result_eq value rfl, hlast]
        simp
      | succ i =>
        rw [← hbelow i cell (by simpa using hcell), hlast]
        congr 1
        omega
  · intro cell hcell
    rw [hback.memory_eq cell fun hmem => hcell (hcells hmem)]
    exact Memory.write_congr (h.memory_eq cell hcell)

/-- Another routine is called, which writes values outside of the cells of this one. -/
theorem Holds.leads_call (h : site.Holds) {value link next : Int}
    (hroom : slots.length + stack.length + size ≤ site.size) (hsize : result.toList.length ≤ size)
    (houtside : ∀ cell ∈ cells address values.length, ¬site.Owns cell)
    (hreturns : ∀ (caller : Status) first, caller.Calls site.program name arguments first →
      (∀ cell, ¬site.Owns cell → caller.memory cell = around.memory cell) →
      cells first size ⊆ cells site.first site.size →
      caller.Returns site.program first size result
        { caller.around with memory := caller.memory.write address values }) :
    site.Leads
      ⟨.cup arguments.length (.named name) :: rest, slots,
        arguments.reverse ++ next :: around.bound :: site.first :: link :: value :: stack, around⟩
      ⟨rest, slots, result.toList ++ stack,
        { around with memory := around.memory.write address values }⟩ := by
  intro status hs
  have hcells : cells (site.first + slots.length + stack.length) size ⊆
      cells site.first site.size := by
    intro cell hcell
    simp only [cells, Set.mem_ofPred_eq] at hcell ⊢
    omega
  have hlies : site.Lies
      ⟨slots, (arguments.reverse ++ [next, around.bound, site.first, link, value]) ++ stack, around⟩
      status.memory status.top := by
    rw [List.append_assoc]
    exact hs.lies
  obtain ⟨status', hruns, hback⟩ := hreturns status _ (h.calls hs) hs.lies.memory_eq hcells
  refine ⟨status', hruns, ?_⟩
  constructor
  · exact (List.suffix_cons _ _).trans hs.place
  · rw [hback.next_eq, hs.next_eq, number_rest hs.place]
  · rw [hback.frame_eq, hs.frame_eq]
  · exact Lies.returned hlies hroom hsize hcells houtside hback
  · rw [hback.bound_eq, hs.bound_eq]
  · rw [hback.input_eq]
    exact hs.input_eq
  · rw [hback.output_eq]
    exact hs.output_eq

/-- The rule for calls: the arguments are put on the stack above the marks, and the routine takes them
from there. -/
theorem Holds.leads_routine (h : site.Holds) {place : Code}
    (hroom : slots.length + stack.length + size ≤ site.size) (hfive : 5 ≤ size)
    (harguments : ∀ marks : List Int, marks.length = 5 →
      site.Leads ⟨place, slots, marks ++ stack, around⟩
        ⟨.cup arguments.length (.named name) :: rest, slots, arguments.reverse ++ (marks ++ stack),
          around⟩)
    (houtside : ∀ cell ∈ cells address values.length, ¬site.Owns cell)
    (hreturns : ∀ (caller : Status) first, caller.Calls site.program name arguments first →
      (∀ cell, ¬site.Owns cell → caller.memory cell = around.memory cell) →
      cells first size ⊆ cells site.first site.size →
      caller.Returns site.program first size result
        { caller.around with memory := caller.memory.write address values }) :
    site.Leads ⟨.mst depth :: place, slots, stack, around⟩
      ⟨rest, slots, result.toList ++ stack,
        { around with memory := around.memory.write address values }⟩ := by
  have hresult : result.toList.length ≤ size := by
    cases result <;> simp only [Option.toList_none, Option.toList_some, List.length_nil,
      List.length_singleton] <;> omega
  apply h.leads_mark (by omega)
  intro value link next
  exact (harguments [next, around.bound, site.first, link, value] rfl).trans
    (h.leads_call hroom hresult houtside hreturns)

/-- The rule for calls of routines that leave no result. -/
theorem Holds.leads_procedure (h : site.Holds) {place : Code}
    (hroom : slots.length + stack.length + size ≤ site.size) (hfive : 5 ≤ size)
    (harguments : ∀ marks : List Int, marks.length = 5 →
      site.Leads ⟨place, slots, marks ++ stack, around⟩
        ⟨.cup arguments.length (.named name) :: rest, slots, arguments.reverse ++ (marks ++ stack),
          around⟩)
    (houtside : ∀ cell ∈ cells address values.length, ¬site.Owns cell)
    (hreturns : ∀ (caller : Status) first, caller.Calls site.program name arguments first →
      (∀ cell, ¬site.Owns cell → caller.memory cell = around.memory cell) →
      cells first size ⊆ cells site.first site.size →
      caller.Returns site.program first size none
        { caller.around with memory := caller.memory.write address values }) :
    site.Leads ⟨.mst depth :: place, slots, stack, around⟩
      ⟨rest, slots, stack, { around with memory := around.memory.write address values }⟩ :=
  h.leads_routine hroom hfive harguments houtside hreturns

/-- The rule for calls of routines that only compute. -/
theorem Holds.leads_function (h : site.Holds) {place : Code} {value : Int}
    (hroom : slots.length + stack.length + size ≤ site.size) (hfive : 5 ≤ size)
    (harguments : ∀ marks : List Int, marks.length = 5 →
      site.Leads ⟨place, slots, marks ++ stack, around⟩
        ⟨.cup arguments.length (.named name) :: rest, slots, arguments.reverse ++ (marks ++ stack),
          around⟩)
    (hreturns : ∀ (caller : Status) first, caller.Calls site.program name arguments first →
      caller.Returns site.program first size (some value) caller.around) :
    site.Leads ⟨.mst depth :: place, slots, stack, around⟩ ⟨rest, slots, value :: stack, around⟩ := by
  have hnone : ∀ cell ∈ cells 0 ([] : List Int).length, ¬site.Owns cell := by
    simp [cells]
  exact h.leads_routine hroom hfive harguments hnone fun caller first hcall _ _ =>
    hreturns caller first hcall

end Site

end MiniC.Machine
