import MiniC.Literal
import MiniC.Proofs.Run.Decimal

/-!
# Decimal routines

`itoa` writes the decimal text of a number, and `atoi` reads it back. On digits alone, `atoi` and
`parseint` read the same number, which is also the one that the compiler reads in a literal of these
digits; `parseint` leaves the pointer that it is given behind the digits.
-/

namespace MiniC.Machine

variable {program : Code} {names : List String}

/-- The numeral of digits. -/
theorem numeral_ofList (ds : List Char) :
    Literal.numeral (String.ofList ds) = Nat.ofDigitChars 10 ds 0 := by
  rw [Literal.numeral, String.toList_ofList]
  rfl

/-- What `itoa` has written is read by `atoi` as long as it stands there. -/
theorem Code.Offers.atoi_itoa (h : program.Offers names) (hname : "atoi" ∈ names)
    {caller caller' status : Status} {first first' number buffer : Int}
    (hback : caller.Returned first 19 none
      { caller.around with memory := caller.memory.write buffer (codes (decimal number) ++ [0]) } status)
    (hapart : Disjoint (cells buffer ((decimal number).length + 1)) (cells first 19))
    (hcall : caller'.Calls program "atoi" [buffer] first')
    (hapart' : Disjoint (cells buffer ((decimal number).length + 1)) (cells first' 17))
    (hkept : Set.EqOn status.memory caller'.memory (cells buffer ((decimal number).length + 1))) :
    caller'.Returns program first' 17 (some number) caller'.around := by
  have hwritten : (caller.memory.write buffer (codes (decimal number) ++ [0])).HoldsString buffer
      (codes (decimal number)) := .write (zero_not_mem_codes_decimal number)
  refine h.atoi_decimal (Routine.named_mem_closure hname rfl) hcall (hwritten.congr ?_) hapart'
  intro cell hcell
  rw [length_codes] at hcell
  rw [← hkept hcell, hback.memory_eq cell (Set.disjoint_left.mp hapart hcell)]

/-- Calls of the decimal routines, and these. -/
def decimalProgram : Code :=
  [.cup 2 (.named "itoa"), .cup 1 (.named "atoi"), .cup 1 (.named "parseint")] ++
  (Emit.routines {} (Routine.closure ["itoa", "atoi", "parseint"])).1

theorem decimalProgram_offers : decimalProgram.Offers ["itoa", "atoi", "parseint"] := by
  apply Code.Offers.append
  exact (Emit.supplies_closure _ _).nodup

/-- A program at one of its calls, with the digits "42" at 0 and a pointer to them at 5. -/
def decimalStatus (next : Nat) : Status :=
  { next, frame := 0, top := 9, bound := 0, input := [], output := []
    memory := Memory.write (fun _ => 0) 0 [52, 50] }

theorem decimalStatus_holdsDigits (next : Nat) (arguments : List Int) :
    ((decimalStatus next).prepared 10 arguments).memory.HoldsDigits 0 ['4', '2'] := by
  have hkept : Set.EqOn (decimalStatus next).memory ((decimalStatus next).prepared 10 arguments).memory
      (cells 0 3) := by
    intro cell hcell
    apply (Status.prepared_memory _).symm
    simp only [cells, Set.mem_ofPred_eq] at hcell ⊢
    omega
  have hstring : (decimalStatus next).memory.HoldsString 0 (codes ['4', '2']) :=
    ⟨⟨rfl, rfl, trivial⟩, rfl, by decide⟩
  exact (hstring.congr hkept).digits (by simp)

end MiniC.Machine
