import Mathlib.Algebra.Group.Int.Defs
import MiniC.Proofs.Tree.Written
import MiniC.Resolve.Expression

/-!
# Integer literals under minus signs

`Signed` reads the minus signs above an integer literal off the tree, so that the value of such an
expression is a number like any other. Resolution finds the value by negating in 64 bits, one sign after
the other: it is that number, unless some negation on the way has no result (`constant?_eq_some_iff`).
-/

namespace MiniC

namespace Literal

/-- The number that a literal under minus signs stands for. -/
def signed (signs : Nat) (value : Int) : Int := (-1) ^ signs * value

/-- Some of the signs is in front of the least integer, which has no opposite in 64 bits. -/
def Overflows (signs : Nat) (value : Int) : Prop := ∃ inner < signs, signed inner value = least

variable {signs : Nat} {value : Int}

@[simp] theorem signed_zero : signed 0 value = value := Int.one_mul value

@[simp] theorem signed_succ : signed (signs + 1) value = -signed signs value := by
  rw [signed, pow_succ, Int.mul_neg_one, Int.neg_mul, signed]

theorem not_overflows_zero : ¬Overflows 0 value := fun ⟨_, hlt, _⟩ => absurd hlt (Nat.not_lt_zero _)

theorem overflows_succ :
    Overflows (signs + 1) value ↔ Overflows signs value ∨ signed signs value = least := by
  constructor
  · rintro ⟨inner, hlt, heq⟩
    rcases Nat.lt_succ_iff_lt_or_eq.mp hlt with hlt | rfl
    · exact .inl ⟨inner, hlt, heq⟩
    · exact .inr heq
  · rintro (⟨inner, hlt, heq⟩ | heq)
    · exact ⟨inner, Nat.lt_succ_of_lt hlt, heq⟩
    · exact ⟨signs, Nat.lt_succ_self _, heq⟩

theorem signed_eq_or (signs : Nat) (value : Int) :
    signed signs value = value ∨ signed signs value = -value := by
  induction signs with
  | zero => exact .inl signed_zero
  | succ signs ih =>
    rw [signed_succ]
    rcases ih with h | h
    · exact .inr (by rw [h])
    · exact .inl (by rw [h, Int.neg_neg])

/-- Of the integers that a literal can have, only the least one overflows, and that under any sign. -/
theorem overflows_iff (hleast : least ≤ value) (hgreatest : value ≤ greatest) :
    Overflows signs value ↔ 0 < signs ∧ value = least := by
  constructor
  · rintro ⟨inner, hlt, heq⟩
    refine ⟨Nat.zero_lt_of_lt hlt, ?_⟩
    simp only [least, greatest] at hleast hgreatest heq ⊢
    rcases signed_eq_or inner value with h | h <;> omega
  · rintro ⟨hsigns, heq⟩
    exact ⟨0, hsigns, by rw [signed_zero, heq]⟩

end Literal

namespace Forest

variable {forest other : Forest} {id operand : NodeId} {signs : Nat} {value found : Int}

/-- The node is an integer literal of the value under as many minus signs. -/
inductive Signed (forest : Forest) : NodeId → Nat → Int → Prop
  | literal {id : NodeId} {value : Int} (h : forest.kind id = .int value) : Signed forest id 0 value
  | minus {id operand : NodeId} {signs : Nat} {value : Int} (h : forest.kind id = .unary .negate)
      (hchild : forest.child? id 0 = some operand) (hs : Signed forest operand signs value) :
      Signed forest id (signs + 1) value

theorem Signed.not_conversion (h : forest.Signed id signs value) :
    (forest.kind id).isConversion = false := by
  cases h with
  | literal hkind => rw [hkind]; rfl
  | minus hkind => rw [hkind]; rfl

/-- Only the node and what is below it matters. -/
theorem Signed.mono (h : forest.Signed id signs value)
    (hsame : ∀ m, other.Below m id →
      other.kind m = forest.kind m ∧ other.children m = forest.children m) :
    other.Signed id signs value := by
  induction h with
  | literal hkind => exact .literal ((hsame _ .refl).1.trans hkind)
  | @minus id operand _ _ hkind hchild _ ih =>
    obtain ⟨hkind', hchildren'⟩ := hsame id .refl
    have hchild' : other.child? id 0 = some operand := by rw [child?, hchildren', ← child?, hchild]
    refine .minus (hkind'.trans hkind) hchild' (ih fun m hm => ?_)
    exact hsame m (hm.trans (.of_mem (List.mem_of_getElem? hchild')))

theorem Signed.le_weight (hr : forest.Ranked) (h : forest.Signed id signs value) :
    signs ≤ forest.weight id := by
  induction h with
  | literal => exact Nat.zero_le _
  | minus _ hchild _ ih =>
    exact Nat.succ_le_of_lt (Nat.lt_of_le_of_lt ih (weight_lt hr (List.mem_of_getElem? hchild)))

/-- What a bounded tree contains is bounded. -/
theorem isBounded_contents (hr : forest.Ranked) {m : NodeId} (hm : forest.Below m id)
    (h : Tree.IsBounded (forest.contents id)) : Tree.IsBounded (forest.contents m) := by
  induction hm with
  | refl => exact h
  | child hc _ ih =>
    rw [contents_eq hr] at h
    cases h with
    | node _ hparts => exact ih (hparts _ (List.mem_map_of_mem hc))

theorem Signed.bounds (hr : forest.Ranked) (h : forest.Signed id signs value)
    (hbounded : Tree.IsBounded (forest.contents id)) :
    Literal.least ≤ value ∧ value ≤ Literal.greatest := by
  induction h with
  | literal hkind =>
    rw [contents_eq hr] at hbounded
    cases hbounded with
    | node hint => exact hint _ (by rw [hkind]; rfl)
  | minus _ hchild _ ih =>
    exact ih (isBounded_contents hr (.of_mem (List.mem_of_getElem? hchild)) hbounded)

/-- Where levels do not run out, the value of a signed literal is found if no sign overflows. -/
theorem Signed.constantWithin_eq (h : forest.Signed id signs value) {levels : Nat}
    (hlevels : signs < levels) (hoverflows : ¬Literal.Overflows signs value) :
    forest.constantWithin levels id = some (Literal.signed signs value) := by
  induction h generalizing levels with
  | literal hkind =>
    obtain ⟨levels, rfl⟩ := Nat.exists_eq_add_one_of_ne_zero (Nat.ne_of_gt hlevels)
    simp [constantWithin, hkind]
  | minus hkind hchild _ ih =>
    obtain ⟨levels, rfl⟩ := Nat.exists_eq_add_one_of_ne_zero (Nat.ne_of_gt (Nat.zero_lt_of_lt hlevels))
    rw [Literal.overflows_succ, not_or] at hoverflows
    simp [constantWithin, hkind, hchild, ih (Nat.lt_of_succ_lt_succ hlevels) hoverflows.1,
      Literal.opposite?, hoverflows.2]

/-- The node is a constant: an integer literal under minus signs none of which overflows, and all
together of the value. -/
def Constant (forest : Forest) (id : NodeId) (value : Int) : Prop :=
  ∃ signs literal, forest.Signed id signs literal ∧ ¬Literal.Overflows signs literal ∧
    value = Literal.signed signs literal

/-- What is found is the value of a signed literal none of whose signs overflows. -/
theorem constant_of_constantWithin {levels : Nat}
    (h : forest.constantWithin levels id = some found) : forest.Constant id found := by
  induction levels generalizing id found with
  | zero => cases h
  | succ levels ih =>
    rw [constantWithin] at h
    split at h
    · next value hkind =>
      rw [Option.some.injEq] at h
      exact ⟨0, value, .literal hkind, Literal.not_overflows_zero, by rw [Literal.signed_zero, h]⟩
    · next hkind =>
      simp only [Option.bind_eq_some_iff] at h
      obtain ⟨inner, ⟨operand, hchild, hinner⟩, hopposite⟩ := h
      obtain ⟨signs, value, hsigned, hoverflows, rfl⟩ := ih hinner
      rw [Literal.opposite?] at hopposite
      split at hopposite
      · cases hopposite
      · next hleast =>
        refine ⟨signs + 1, value, .minus hkind hchild hsigned, ?_, ?_⟩
        · rw [Literal.overflows_succ, not_or]
          exact ⟨hoverflows, hleast⟩
        · rw [Literal.signed_succ]
          exact (Option.some.inj hopposite).symm
    · cases h

/-- Resolution finds the constants and their values. -/
theorem constant?_eq_some_iff (hr : forest.Ranked) (id : NodeId) (found : Int) :
    forest.constant? id = some found ↔ forest.Constant id found := by
  constructor
  · exact constant_of_constantWithin
  · rintro ⟨signs, value, h, hoverflows, rfl⟩
    have hlevels := Nat.lt_succ_of_le ((h.le_weight hr).trans (weight_le forest id))
    exact h.constantWithin_eq hlevels hoverflows

end Forest

end MiniC
