import MiniC.Machine.Routine
import MiniC.Resolve.Statement

/-!
# Resolving programs

The scope of the file starts with the routines of the library. A function may be called before its
body is seen, but at the end of the file every function that is called has to have one.
-/

namespace MiniC.Resolve

/-- The symbol of a library routine. -/
def routineSymbol (routine : Machine.Routine) : Symbol :=
  { name := routine.name
    type := routine.result
    kind := .function
      { params := routine.params
        label := .named routine.name
        builtin := true
        variadic := routine.variadic
        defined := true }
    line := 0 }

/-- Declares routines in the innermost scope. -/
def declareRoutines : List Machine.Routine → Resolve Unit
  | [] => return
  | routine :: others => do
    let _ ← declare (routineSymbol routine)
    declareRoutines others

/-- Refuses the first of the pending calls whose function still has no body. -/
def checkPending (table : SymbolTable) : List (SymbolId × Nat) → Resolve Unit
  | [] => return
  | (id, line) :: others => do
    let symbol := table.symbol id
    if symbol.signature?.any (!·.defined) then refuse (.functionNotDefined symbol.name) line
    checkPending table others

/-- Resolves a file. -/
def file (root : NodeId) : Resolve Unit :=
  inScope do
    annotate root
    declareRoutines Machine.Routine.catalog
    each ((← forest).children root) statement
    checkPending (← table) (← get).pending
    modify fun state => { state with pending := [] }

/-- Resolves a program in a session. -/
def program (forest : Forest) (session : Session) : Except Fault Resolution :=
  match forest.root with
  | none => .error (.malformed "tree has no root" 0)
  | some root =>
    match file root { forest, session } with
    | .ok _ resolution => .ok resolution
    | .error fault _ => .error fault

end MiniC.Resolve
