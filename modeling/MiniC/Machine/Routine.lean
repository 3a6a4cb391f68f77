import MiniC.Machine.Routine.Number
import MiniC.Machine.Routine.Text
import MiniC.Session
import MiniC.Ty

/-!
# The routine library

Every program may call the routines of `Routine.catalog`. A program holds the code of those that it
calls and of all that these call in turn (`Routine.closure`), each once, with jump targets drawn for
this program (`Routine.instantiate`).
-/

namespace MiniC.Machine

/-- A library routine: its signature, the routines that it calls, and its code. A variadic routine
gets the number of its arguments as a first parameter. -/
structure Routine where
  name : String
  result : Ty
  params : List Ty
  variadic : Bool := false
  needs : List String := []
  code : Code
  deriving Inhabited

namespace Routine

/-- The type of a string. -/
abbrev stringTy : Ty := .pointerTo .char

/-- The routines of the library. -/
def catalog : List Routine := [
  { name := "print", result := .void, params := [stringTy], code := printCode },
  { name := "printf", result := .void, params := [stringTy], variadic := true,
    needs := ["print"], code := printfCode },
  { name := "readstr", result := .void, params := [stringTy, .int], code := readstrCode },
  { name := "scanf", result := .void, params := [stringTy], variadic := true,
    needs := ["isdigit", "parseint", "readstr"], code := scanfCode },
  { name := "isdigit", result := .int, params := [.char], code := isdigitCode },
  { name := "chartoint", result := .int, params := [.char], code := chartointCode },
  { name := "pow", result := .int, params := [.int, .int], code := powCode },
  { name := "parseint", result := .int, params := [.pointerTo stringTy],
    needs := ["isdigit", "chartoint", "pow"], code := parseintCode },
  { name := "mod", result := .int, params := [.int, .int], code := modCode },
  { name := "strlen", result := .int, params := [stringTy], code := strlenCode },
  { name := "strcmp", result := .int, params := [stringTy, stringTy], code := strcmpCode },
  { name := "strrev", result := .void, params := [stringTy], code := strrevCode },
  { name := "itoa", result := .void, params := [.int, stringTy],
    needs := ["strrev"], code := itoaCode },
  { name := "atoi", result := .int, params := [stringTy],
    needs := ["isdigit"], code := atoiCode }]

/-- The routine of a name. -/
def find? (name : String) : Option Routine := catalog.find? (·.name == name)

/-- How many calls routines make, all together. -/
def needCount (routines : List Routine) : Nat := 
  routines.foldr (fun routine count => routine.needs.length + count) 0

/-- Taking a routine out takes its calls out. -/
theorem needCount_eraseP {routines : List Routine} {p : Routine → Bool} {routine : Routine}
    (h : routines.find? p = some routine) :
    needCount (routines.eraseP p) + routine.needs.length = needCount routines := by
  induction routines with
  | nil => cases h
  | cons first others ih =>
    by_cases hp : p first
    · rw [List.find?_cons_of_pos hp] at h
      rw [List.eraseP_cons_of_pos hp, ← Option.some.inj h]
      exact Nat.add_comm _ _
    · rw [List.find?_cons_of_neg hp] at h
      rw [List.eraseP_cons_of_neg hp]
      have hrest := ih h
      simp only [needCount, List.foldr_cons] at hrest ⊢
      omega

/-- The routines among `available` that a program needs when it calls `names`: each followed by
what it needs itself, and none twice. Unknown names need nothing. Every name taken from the front is
either done with or pays for the names that its routine adds. -/
def closureIn (available : List Routine) (names : List String) : List Routine :=
  match names with
  | [] => []
  | name :: names =>
    match _h : available.find? (·.name == name) with
    | none => closureIn available names
    | some routine =>
      routine :: closureIn (available.eraseP (·.name == name)) (routine.needs ++ names)
termination_by names.length + needCount available
decreasing_by
  · exact Nat.add_lt_add_right (Nat.lt_succ_self _) _
  · have hcount := needCount_eraseP _h
    simp only [List.length_append, List.length_cons]
    omega

/-- The routines that a program needs when it calls `names`. -/
def closure (names : List String) : List Routine := closureIn catalog names

/-- How many jump targets a piece of code defines. -/
def targetCount (code : Code) : Nat := code.countP (·.defined?.isSome)

/-- Moves the jump targets of a routine past those that are taken. -/
def shift (taken : Nat) : Label → Label
  | .jump number => .jump (taken + number)
  | other => other

/-- The code of a routine in a program, under the name of the routine and with fresh targets. -/
def instantiate (routine : Routine) (session : Session) : Code × Session :=
  (.label (.named routine.name) :: routine.code.map (Instr.relabel (shift session.drawn)),
    { session with drawn := session.drawn + targetCount routine.code })

end Routine

end MiniC.Machine
