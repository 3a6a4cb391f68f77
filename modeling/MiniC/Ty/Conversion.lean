import MiniC.Ty

/-!
# Conversions between types

`Ty.conversion?` says which values become values of another type and what the machine does for it.
`Ty.common?` is the type at which two operands meet: the higher of the two in the order char, int,
pointer. Two pointers to different types have none.
-/

namespace MiniC

/-- What the machine does to convert a value: nothing, or a change of tag. -/
abbrev Coercion := Option (Machine.Tag × Machine.Tag)

namespace Ty

/-- The conversion from one type to another, if there is one. The value of an array is its address,
so it needs no instruction to become a pointer. -/
def conversion? (source target : Ty) : Option Coercion :=
  if source.same target then some none
  else
    match source.kind, target.kind with
    | .char, .int => some (some (.char, .int))
    | .int, .char => some (some (.int, .char))
    | .int, .pointer => some (some (.int, .address))
    | .pointer, .int => some (some (.address, .int))
    | .pointer, .pointer => some none
    | .array, .pointer => some none
    | _, _ => none

/-- The place of a type in the order of common types. -/
def rank? (type : Ty) : Option Nat :=
  match type.kind with
  | .char => some 0
  | .int => some 1
  | .pointer => some 2
  | .void | .array => none

/-- A character has no conversion to a pointer; it becomes an integer first. -/
def widensThroughInt (source target : Ty) : Bool :=
  source.kind == .char && target.kind == .pointer

/-- Whether operands of a type can be brought to another. -/
def promotesTo (source target : Ty) : Bool :=
  (source.conversion? target).isSome || source.widensThroughInt target

/-- The higher of two types in the order of common types. -/
def higher? (left right : Ty) : Option Ty :=
  match left.rank?, right.rank? with
  | some l, some r =>
    if r < l then some left
    else if l < r then some right
    else if left.same right then some left
    else none
  | _, _ => none

/-- The common type of two operands. -/
def common? (left right : Ty) : Option Ty :=
  match left.decay.higher? right.decay with
  | some common =>
    if left.decay.promotesTo common && right.decay.promotesTo common then
      some (common.withConst false)
    else none
  | none => none

end Ty

end MiniC
