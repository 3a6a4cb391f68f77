import Mathlib.Algebra.Group.Int.Defs
import Mathlib.Algebra.Group.Nat.Defs
import MiniC.Proofs.Run.Strings

/-!
# Number routines at work

What the routines for single digits and for powers do from inside their frames, and the rule by which
other routines call routines.
-/

namespace MiniC.Machine

open Routine

variable {site : Site} {caller : Status} {around : Surroundings} {result link value : Int}

/-- A cell holds the code of a decimal digit. -/
def IsDigit (value : Int) : Prop := 48 ≤ value ∧ value ≤ 57

instance (value : Int) : Decidable (IsDigit value) := inferInstanceAs (Decidable (_ ∧ _))

/-- The digits are the characters whose codes are those of digits. -/
theorem isDigit_code {c : Char} : IsDigit c.toNat ↔ c.isDigit := by
  have hlow : c.val ≥ '0'.val ↔ 48 ≤ c.toNat := UInt32.le_iff_toNat_le
  have hhigh : c.val ≤ '9'.val ↔ c.toNat ≤ 57 := UInt32.le_iff_toNat_le
  rw [IsDigit, Char.isDigit, Bool.and_eq_true, decide_eq_true_eq, decide_eq_true_eq, hlow, hhigh]
  omega

/-! ## Classification -/

section Classification

variable (h : site.Holds) (hcode : site.code = isdigitCode) (hsize : site.size = 9)

include h hcode hsize

omit hcode in
theorem leads_isdigit_true (hdigit : IsDigit value) :
    site.Leads
      ⟨isdigitCode.tail, Site.header result link caller ++ [value], [], around⟩
      ⟨.retf :: isdigitCode.from (.jump 0), Site.header 1 link caller ++ [value], [], around⟩ := by
  apply h.leads_of_steps 10
  simp -implicitDefEqProofs [isdigitCode, hsize, hdigit.1, hdigit.2]

theorem leads_isdigit_false (hdigit : ¬IsDigit value) :
    site.Leads
      ⟨isdigitCode.tail, Site.header result link caller ++ [value], [], around⟩
      ⟨[.retf], Site.header 0 link caller ++ [value], [], around⟩ := by
  have hless : 48 ≤ value → 57 < value := by
    rw [IsDigit] at hdigit
    omega
  apply h.leads_of_steps 11
  simp -implicitDefEqProofs [isdigitCode, hcode, hsize, if_pos hless]

theorem yields_isdigit :
    site.Yields caller ⟨isdigitCode.tail, Site.header result link caller ++ [value], [], around⟩
      (some (if IsDigit value then 1 else 0)) around := by
  by_cases hdigit : IsDigit value
  · rw [if_pos hdigit]
    exact (leads_isdigit_true h hsize hdigit).yields .retf
  · rw [if_neg hdigit]
    exact (leads_isdigit_false h hcode hsize hdigit).yields .retf

end Classification

theorem yields_chartoint (h : site.Holds) (hsize : site.size = 8) :
    site.Yields caller ⟨chartointCode.tail, Site.header result link caller ++ [value], [], around⟩
      (some (value - 48)) around := by
  have hleads : site.Leads
      ⟨chartointCode.tail, Site.header result link caller ++ [value], [], around⟩
      ⟨[.retf], Site.header (value - 48) link caller ++ [value], [], around⟩ := by
    apply h.leads_of_steps 5
    simp -implicitDefEqProofs [chartointCode, hsize]
  exact hleads.yields .retf

/-! ## Powers -/

section Power

variable (h : site.Holds) (hcode : site.code = powCode) (hsize : site.size = 11)
  {base exponent power count : Int}

include h hcode hsize

theorem leads_pow_round (hlt : count < exponent) :
    site.Leads
      ⟨powCode.from (.jump 0), Site.header result link caller ++ [base, exponent, power, count], [],
        around⟩
      ⟨powCode.from (.jump 0),
        Site.header result link caller ++ [base, exponent, power * base, count + 1], [],
        around⟩ := by
  apply h.leads_of_steps 13
  simp -implicitDefEqProofs [powCode, hcode, hsize, hlt]

theorem leads_pow_end (hle : exponent ≤ count) :
    site.Leads
      ⟨powCode.from (.jump 0), Site.header result link caller ++ [base, exponent, power, count], [],
        around⟩
      ⟨[.retf], Site.header power link caller ++ [base, exponent, power, count], [], around⟩ := by
  apply h.leads_of_steps 8
  simp -implicitDefEqProofs [powCode, hcode, hsize, hle]

/-- The base is multiplied as often as the exponent says. -/
theorem yields_pow (exponent : Nat) :
    site.Yields caller
      ⟨powCode.tail, Site.header result link caller ++ [base, exponent, power, count], [], around⟩
      (some (base ^ exponent)) around := by
  let point (i : Nat) : Point :=
    ⟨powCode.from (.jump 0), Site.header result link caller ++ [base, exponent, base ^ i, i], [],
      around⟩
  have hstart : site.Leads
      ⟨powCode.tail, Site.header result link caller ++ [base, exponent, power, count], [], around⟩
      (point 0) := by
    apply h.leads_of_steps 4
    simp -implicitDefEqProofs [powCode, hsize, point]
  have hrounds : site.Leads (point 0) (point exponent) := by
    apply Site.Leads.rounds
    intro i hi
    simp only [point, Int.natCast_succ, Int.pow_succ]
    exact leads_pow_round h hcode hsize (by omega)
  apply (hstart.trans hrounds).yields
  exact (leads_pow_end h hcode hsize (Int.le_refl _)).yields .retf

end Power

/-! ## Calls -/

section Calls

variable {program : Code} {names : List String} {first base : Int} (h : program.Offers names)

include h

/-- `isdigit` tells whether a character is a decimal digit. -/
theorem Code.Offers.isdigit (hname : "isdigit" ∈ (closure names).map name)
    (hcall : caller.Calls program "isdigit" [value] first) :
    caller.Returns program first 9 (some (if IsDigit value then 1 else 0)) caller.around := by
  apply h.returns (mem_closure hname rfl) rfl hcall (by simp) (by simp)
  intro place taken result link locals hlocals hholds
  obtain rfl := List.length_eq_zero_iff.mp hlocals
  exact yields_isdigit hholds rfl rfl

/-- `chartoint` takes the code of zero from that of a digit. -/
theorem Code.Offers.chartoint (hname : "chartoint" ∈ (closure names).map name)
    (hcall : caller.Calls program "chartoint" [value] first) :
    caller.Returns program first 8 (some (value - 48)) caller.around := by
  apply h.returns (mem_closure hname rfl) rfl hcall (by simp) (by simp)
  intro place taken result link locals hlocals hholds
  obtain rfl := List.length_eq_zero_iff.mp hlocals
  exact yields_chartoint hholds rfl

/-- `pow` raises a number to a power that is not negative. -/
theorem Code.Offers.pow (hname : "pow" ∈ (closure names).map name) {exponent : Nat}
    (hcall : caller.Calls program "pow" [base, exponent] first) :
    caller.Returns program first 11 (some (base ^ exponent)) caller.around := by
  apply h.returns (mem_closure hname rfl) rfl hcall (by simp) (by simp)
  intro place taken result link locals hlocals hholds
  obtain ⟨power, count, rfl⟩ := List.length_eq_two.mp hlocals
  exact yields_pow hholds rfl rfl exponent

end Calls

end MiniC.Machine
