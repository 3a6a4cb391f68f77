import MiniC.Emit.Statement
import MiniC.Machine.Routine

/-!
# Code of programs

A program starts with the frame of the file, fills the strings and the global variables, calls
`main` and stops. The code of the functions follows, and then the library routines that it needs.
-/

namespace MiniC.Emit

open Machine

/-- The label of `main`, which has to be a defined function without parameters and result. -/
def mainLabel (forest : Forest) (table : SymbolTable) (root : NodeId) : Except Fault Label :=
  match table.lookupFile "main" with
  | none => .error ⟨.missingMain, forest.line root⟩
  | some symbol =>
    let entry := table.symbol symbol
    let refuse (reason : String) : Except Fault Label := .error ⟨.invalidMain reason, entry.line⟩
    match entry.signature? with
    | none => refuse "'main' is not a function"
    | some signature =>
      if !entry.type.isVoid then refuse "'main' must return void"
      else if !signature.params.isEmpty then refuse "'main' takes no parameters"
      else if !signature.defined then refuse "'main' is never defined"
      else .ok signature.label

/-- Stores characters one behind the other, from `slot` on. -/
def storeChars : Nat → List Char → Code
  | _, [] => []
  | slot, c :: cs => [.ldc (.char c), .str .char 0 slot] ++ storeChars (slot + 1) cs

/-- Stores the strings of the program, each with a closing character. -/
def strings (layout : Layout) (root : NodeId) : Code :=
  (layout.forest.preorder root).flatMap fun id =>
    match layout.forest.kind id with
    | .string value (some slot) => storeChars slot (value.toList ++ ['\x00'])
    | _ => []

variable (layout : Layout)

/-- The initializers of the global variables. -/
def globals (root : NodeId) : Emit Code :=
  inOrder (statement layout)
    ((layout.forest.children root).filter fun id => (layout.forest.kind id).isDeclaration)

/-- The code of a function. -/
def function (id : NodeId) : Emit Code := do
  let symbol ← ask (layout.symbolOf id)
  let entry := layout.table.symbol symbol
  match entry.signature? with
  | none => malformed "function without signature" (layout.forest.line id)
  | some signature =>
    let body ← ask (layout.child id 2)
    let code ← inOrder (statement layout) (layout.forest.children body)
    return [.label signature.label, .ssp (layout.sizeOf (some id))] ++ code ++
      [if entry.type.isVoid then .retp else .retf]

/-- The code of library routines, with jump targets drawn in the session. -/
def routines (session : Session) : List Routine → Code × Session
  | [] => ([], session)
  | routine :: others =>
    let (code, session) := routine.instantiate session
    let (rest, session) := routines session others
    (code ++ rest, session)

/-- The library routines that have been called, and all that they need. -/
def library : Emit Code :=
  modifyGet fun output =>
    let (code, session) := routines output.session (Routine.closure output.used)
    (code, { output with session })

/-- The code of a laid-out program whose `main` has the label `main`. -/
def program (root : NodeId) (main : Label) : Emit Code := do
  let initial ← globals layout root
  let functions ← inOrder (function layout) (layout.forest.definitions root)
  let routines ← library
  return [.ssp (layout.sizeOf none)] ++ strings layout root ++ initial ++
    [.mst 0, .cup 0 main, .hlt] ++ functions ++ routines

end MiniC.Emit

namespace MiniC

/-- The code of a resolved program, with the layout that it is made for and the session after it. -/
structure Compiled where
  code : Machine.Code
  layout : Layout
  session : Session

/-- Makes the code of a resolved program. -/
def Emit.compile (forest : Forest) (table : SymbolTable) (session : Session) :
    Except Fault Compiled :=
  match forest.root with
  | none => .error (.malformed "tree has no root" 0)
  | some root => do
    let main ← mainLabel forest table root
    let layout ← Layout.ofProgram forest table root
    match program layout root main { session } with
    | .ok code output => .ok { code, layout, session := output.session }
    | .error fault _ => .error fault

end MiniC
