import MiniC.Session
import MiniC.Tree.Forest

/-!
# Missing returns

A statement surely returns if it is a return, a block that holds such a statement, or a choice both
of whose branches are such statements. Loops are never taken to return. A function that has a result
and a body draws a warning unless the body surely returns.
-/

namespace MiniC.Forest

/-- Whether a statement surely returns, seen down to some level. -/
def returnsWithin (forest : Forest) : Nat → NodeId → Bool
  | 0, _ => false
  | levels + 1, id =>
    match forest.kind id with
    | .giveBack => true
    | .block => (forest.children id).any (forest.returnsWithin levels)
    | .ifElse _ =>
      match forest.child? id 1, forest.child? id 2 with
      | some yes, some no => forest.returnsWithin levels yes && forest.returnsWithin levels no
      | _, _ => false
    | _ => false

/-- Whether every path through a statement ends in a return. -/
def surelyReturns (forest : Forest) (id : NodeId) : Bool :=
  forest.returnsWithin (forest.size + 1) id

/-- The warning that a node draws: the name of a function whose end can be reached without the
result that it owes. -/
def owesReturn? (forest : Forest) (id : NodeId) : Option String :=
  match forest.kind id, forest.child? id 2 with
  | .function name _, some body =>
    if (forest.type? id).any (!·.isVoid) && !forest.surelyReturns body then some name else none
  | _, _ => none

/-- Warns about the functions of a program that owe a return, in the order in which they stand. -/
def warnReturns (forest : Forest) (session : Session) : Session :=
  match forest.root with
  | none => session
  | some root =>
    (forest.preorder root).foldl (fun session id =>
      match forest.owesReturn? id with
      | some name => session.warn (.missingReturn name) (forest.line id)
      | none => session) session

end MiniC.Forest
