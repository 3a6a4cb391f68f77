import MiniC.Diagnostic
import MiniC.Tree.Forest

/-!
# Coercing expressions

`Forest.convert` gives an expression another type by a conversion node above it; an expression that
has the type already stays as it is. `Forest.promote` brings an operand to a common type, a
character by way of an integer where that is the only way. Both answer the node that now stands in
the place of the expression, and change nothing if they fail.
-/

namespace MiniC.Forest

/-- Gives an expression the type `target`. -/
def convert (forest : Forest) (expr : NodeId) (target : Ty) : Except Fault (Forest × NodeId) :=
  match forest.type? expr with
  | none => .error (.malformed "converting an untyped expression" (forest.line expr))
  | some source =>
    if source.same target then .ok (forest, expr)
    else
      match source.conversion? target with
      | none => .error ⟨.noConversion source.text target.text, forest.line expr⟩
      | some coercion =>
        let (forest, wrapper) := forest.wrap expr (.conversion { source, target, coercion })
        .ok (forest.setType wrapper target, wrapper)

/-- Brings an operand to the common type of an operation. -/
def promote (forest : Forest) (expr : NodeId) (common : Ty) : Except Fault (Forest × NodeId) :=
  if (forest.type? expr).any (·.widensThroughInt common) then
    match forest.convert expr .int with
    | .error fault => .error fault
    | .ok (widened, middle) => widened.convert middle common
  else forest.convert expr common

/-- An expression of the wanted type needs no conversion. -/
theorem convert_of_same {forest : Forest} {expr : NodeId} {source target : Ty}
    (hs : forest.type? expr = some source) (h : source.same target) :
    forest.convert expr target = .ok (forest, expr) := by simp [convert, hs, h]

end MiniC.Forest
