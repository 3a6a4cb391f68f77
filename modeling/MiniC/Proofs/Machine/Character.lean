import MiniC.Machine.Instr
import MiniC.Proofs.Phrase.Operand

/-!
# Operands for characters

A constant character stands in program text in quotes or as its code. `charOf?` reads such an operand
back, so no two characters have the same one; `Spells` says which form it has. `Stores` says which
lines store a text from a slot on.
-/

namespace MiniC.Machine

/-- The character that an operand stands for: the one in quotes, or the one with the code. -/
def charOf? (operand : String) : Option Char :=
  match operand.toList with
  | ['\'', c, '\''] => some c
  | digits =>
    if digits.all Char.isDigit then some (Char.ofNat (Literal.numeral operand)) else none

/-- A decimal numeral is not in quotes. -/
theorem charOf?_of_isDigit {operand : String} (h : ∀ c ∈ operand.toList, c.isDigit) :
    charOf? operand = some (Char.ofNat (Literal.numeral operand)) := by
  unfold charOf?
  split
  · next hquoted =>
    have hquote := h '\'' (by simp [hquoted])
    cases hquote
  · exact if_pos (List.all_eq_true.mpr h)

/-- An operand stands for the character that it was made for. -/
theorem charOf?_charOperand (c : Char) : charOf? (charOperand c) = some c := by
  unfold charOperand
  split
  · simp [charOf?]
  · have hdigits : ∀ d ∈ (toString c.toNat).toList, d.isDigit := by
      intro d hd
      rw [Nat.toString_eq_repr, Nat.toList_repr] at hd
      exact Nat.isDigit_of_mem_toDigits (by decide) (by decide) hd
    rw [charOf?_of_isDigit hdigits, Literal.numeral_toString, Char.ofNat_toNat]

/-- No two characters have the same operand. -/
theorem charOperand_injective : Function.Injective charOperand := by
  intro c d h
  exact Option.some.inj ((charOf?_charOperand c).symm.trans (h ▸ charOf?_charOperand d))

/-- A visible character of ASCII is quoted, unless it is the quote; any other one stands as its
code. -/
inductive Spells (c : Char) : String → Prop
  | quoted (hfirst : 0x21 ≤ c.toNat) (hlast : c.toNat ≤ 0x7E) (hquote : c ≠ '\'') :
      Spells c (String.ofList ['\'', c, '\''])
  | coded (h : c.toNat < 0x21 ∨ 0x7E < c.toNat ∨ c = '\'') : Spells c (toString c.toNat)

theorem spells_charOperand (c : Char) : Spells c (charOperand c) := by
  unfold charOperand
  split
  · next hplain =>
    simp only [isPlainOperand, Bool.and_eq_true, decide_eq_true_eq, bne_iff_ne] at hplain
    exact .quoted hplain.1.1 hplain.1.2 hplain.2
  · next hplain =>
    simp only [isPlainOperand, Bool.and_eq_true, decide_eq_true_eq, bne_iff_ne, not_and_or,
      Nat.not_le, not_not, or_assoc] at hplain
    exact .coded hplain

/-- A quote and a closing character stand as their codes. -/
example : [charOperand 'x', charOperand '\'', charOperand '\x00', charOperand '5'] =
    ["'x'", "39", "0", "'5'"] := by decide

/-- The lines store the characters one behind the other, from a slot of the frame of the file on. Each
is loaded by an operand that spells it and stands for it. -/
inductive Stores : Nat → List Char → List Line → Prop
  | nil {slot : Nat} : Stores slot [] []
  | cons {slot : Nat} {c : Char} {cs : List Char} {operand : String} {lines : List Line}
      (hspells : Spells c operand) (hoperand : charOf? operand = some c)
      (h : Stores (slot + 1) cs lines) :
      Stores slot (c :: cs)
        (.operation "ldc" ["c", operand] :: .operation "str" ["c", "0", toString slot] :: lines)

end MiniC.Machine
