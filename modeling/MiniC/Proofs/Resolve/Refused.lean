import MiniC.Proofs.Ensures
import MiniC.Proofs.Resolve.Rules

/-!
# What resolution is refused with

A parsed program is refused with a fault of the program only. If the fault is that an index does not lie
in its array, resolution has stopped at a subscript with such an index. `Refused` says what is found
there in the forest as it has been left.
-/

namespace MiniC

/-- Whether a fault with the cause is one of the program, and not for an index. -/
def Cause.isPlain : Cause → Bool
  | malformedTree _ | indexOutOfRange .. => false
  | _ => true

/-- The base of the subscript `n` is an array of `size` elements, and `top` is what has come of its index
by the casts in front of it: the index before it is made an integer. -/
structure Forest.Indexes (forest parsed : Forest) (n top : NodeId) (size : Nat) : Prop where
  kind : parsed.kind n = .subscript
  base : ∃ base element constant, forest.child? n 0 = some base ∧
    forest.type? base = some (.array element size constant)
  index : ∃ slot e type, forest.child? n 1 = some slot ∧ forest.Below top slot ∧
    parsed.child? n 1 = some e ∧ forest.Cast parsed e top type ∧ type.isIntegral

namespace Resolve

/-- Resolution of the parsed forest may be refused with the fault and leave the state behind. A subscript
that is refused has got no type. -/
structure Refused (parsed : Forest) (fault : Fault) (state : Resolution) : Prop where
  ordinary : fault.Ordinary
  index : ∀ value size, fault.cause = .indexOutOfRange value size →
    ∃ n top, parsed.Included n ∧ parsed.line n = fault.line ∧ state.forest.type? n = none ∧
      state.forest.Indexes parsed n top size ∧ state.forest.Constant top value ∧
      ¬(0 ≤ value ∧ value < size)

variable {parsed : Forest} {fault : Fault} {state : Resolution}

theorem Refused.of_plain (h : fault.cause.isPlain) : Refused parsed fault state := by
  refine ⟨fun message hcause => ?_, fun value size hcause => ?_⟩
  · rw [hcause] at h
    cases h
  · rw [hcause] at h
    cases h

end Resolve

end MiniC
