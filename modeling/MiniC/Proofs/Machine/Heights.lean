import MiniC.Proofs.Machine.Tags

/-!
# Running code on heights

The machine on heights keeps how many cells have been pushed since the innermost open call was started,
and for each call around it, and nothing else. An instruction that would take more cells than these has
no next heights, and neither has a call that does not find just its arguments. `Climbs` says where a run
from some place in the code can come to.
-/

namespace MiniC.Machine

namespace Instr

/-- The cells that an instruction takes from the stack. Calls are apart. -/
@[simp] def takes : Instr → Nat
  | sto _ | ixa _ | arith .. | compare .. | logic _ => 2
  | str .. | fjp _ | write _ | ind _ | inc .. | dec .. | neg _ | not | conv .. => 1
  | ldc _ | lod .. | lda .. | read _ | label _ | ujp _ | ssp _ | retf | retp | hlt | mst _ | cup .. => 0

/-- The cells that an instruction leaves instead. -/
@[simp] def leaves : Instr → Nat
  | ldc _ | lod .. | lda .. | read _ | ixa _ | arith .. | compare .. | logic _
  | ind _ | inc .. | dec .. | neg _ | not | conv .. => 1
  | sto _ | str .. | fjp _ | write _ | label _ | ujp _ | ssp _ | retf | retp | hlt | mst _ | cup .. => 0

end Instr

/-- Takes cells from the ones of the innermost open call, and puts others there. -/
def exchange (takes leaves : Nat) : List Nat → Option (List Nat)
  | [] => none
  | height :: outer =>
    if takes ≤ height then some ((height - takes + leaves) :: outer) else none

variable {callee? : Label → Option Callee} {heights heights' after : List Nat} {takes leaves : Nat}

theorem exchange_injective (h : exchange takes leaves heights = some after)
    (h' : exchange takes leaves heights' = some after) : heights = heights' := by
  rcases heights with _ | ⟨height, outer⟩
  · cases h
  rcases heights' with _ | ⟨height', outer'⟩
  · cases h'
  obtain ⟨hle, hafter⟩ := Option.ite_none_right_eq_some.mp h
  obtain ⟨hle', hafter'⟩ := Option.ite_none_right_eq_some.mp h'
  obtain ⟨hheight, rfl⟩ := List.cons.inj (Option.some.inj (hafter.trans hafter'.symm))
  rw [show height = height' by omega]

/-- The heights behind an instruction, that of the innermost open call in front. -/
def Instr.shift (callee? : Label → Option Callee) (instr : Instr) (heights : List Nat) :
    Option (List Nat) :=
  match instr with
  | mst _ => some (0 :: heights)
  | cup count target =>
    match heights with
    | found :: outer =>
      if found = count then
        (callee? target).bind fun callee => exchange 0 callee.result.length outer
      else none
    | [] => none
  | instr => exchange instr.takes instr.leaves heights

/-- The heights behind an instruction tell those in front of it. -/
theorem Instr.shift_injective {instr : Instr} (h : instr.shift callee? heights = some after)
    (h' : instr.shift callee? heights' = some after) : heights = heights' := by
  cases instr with
  | mst => exact (List.cons.inj (Option.some.inj (h.trans h'.symm))).2
  | cup count target =>
    rcases heights with _ | ⟨found, outer⟩
    · cases h
    rcases heights' with _ | ⟨found', outer'⟩
    · cases h'
    obtain ⟨rfl, hcall⟩ := Option.ite_none_right_eq_some.mp h
    obtain ⟨rfl, hcall'⟩ := Option.ite_none_right_eq_some.mp h'
    obtain ⟨callee, hcallee, hresult⟩ := Option.bind_eq_some_iff.mp hcall
    obtain ⟨callee', hcallee', hresult'⟩ := Option.bind_eq_some_iff.mp hcall'
    obtain rfl := Option.some.inj (hcallee.symm.trans hcallee')
    rw [exchange_injective hresult hresult']
  | _ => exact exchange_injective h h'

section Run

variable (callee? : Label → Option Callee)

/-- The heights behind code that runs from its first to its last instruction. -/
def Code.shift : Code → List Nat → Option (List Nat)
  | [], heights => some heights
  | instr :: code, heights => (instr.shift callee? heights).bind (shift code)

variable {callee?} {code code' : Code} {instr : Instr}

@[simp] theorem Code.shift_nil : Code.shift callee? [] heights = some heights := rfl

@[simp] theorem Code.shift_cons : Code.shift callee? (instr :: code) heights =
    (instr.shift callee? heights).bind (Code.shift callee? code) := rfl

@[simp] theorem Code.shift_append : Code.shift callee? (code ++ code') heights =
    (Code.shift callee? code heights).bind (Code.shift callee? code') := by
  induction code generalizing heights with
  | nil => rfl
  | cons instr code ih =>
    simp only [List.cons_append, shift_cons, Option.bind_assoc]
    exact Option.bind_congr fun _ _ => ih

theorem Code.shift_injective (h : Code.shift callee? code heights = some after)
    (h' : Code.shift callee? code heights' = some after) : heights = heights' := by
  induction code generalizing heights heights' with
  | nil => exact (Option.some.inj h).trans (Option.some.inj h').symm
  | cons instr code ih =>
    obtain ⟨next, hinstr, hcode⟩ := Option.bind_eq_some_iff.mp h
    obtain ⟨next', hinstr', hcode'⟩ := Option.bind_eq_some_iff.mp h'
    obtain rfl := ih hcode hcode'
    exact Instr.shift_injective hinstr hinstr'

variable (callee?)

/-- Where a run of code that starts at some place with an empty stack can come to: the code from there
on, and the heights. -/
inductive Climbs (code start : Code) : Code → List Nat → Prop
  | start : Climbs code start start [0]
  | next {instr : Instr} {rest : Code} {heights heights' : List Nat}
      (h : Climbs code start (instr :: rest) heights) (hgoes : instr.goesOn)
      (hstep : instr.shift callee? heights = some heights') : Climbs code start rest heights'
  | jump {instr : Instr} {rest after : Code} {heights heights' : List Nat} {target : Label}
      (h : Climbs code start (instr :: rest) heights) (hjump : instr.jump? = some target)
      (hstep : instr.shift callee? heights = some heights')
      (hplace : .label target :: after <:+ code) :
      Climbs code start (.label target :: after) heights'

end Run

end MiniC.Machine
