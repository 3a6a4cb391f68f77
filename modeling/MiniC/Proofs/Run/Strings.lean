import Mathlib.Data.List.Induction
import MiniC.Proofs.Run.Call

/-!
# String routines at work

What the routines for strings do from inside their frames: a lemma for each way around a loop, and from
it what the loop comes to on a string of any length. The steps of a way around are rewritten with
explicit proofs (`-implicitDefEqProofs`), for the kernel would else find them by unfolding the code.
-/

namespace MiniC.Machine

open Routine

/-- So many cells from an address on lie outside of those that a routine has to itself. -/
def Site.Apart (site : Site) (address : Int) (count : Nat) : Prop :=
  ∀ cell ∈ cells address count, ¬site.Owns cell

variable {site : Site} {caller : Status} {around : Surroundings} {result link address other : Int}
  {values values' : List Int}

theorem Site.Apart.not_owns {count i : Nat} (h : site.Apart address count) (hi : i < count) :
    ¬site.Owns (address + i) := by
  apply h
  constructor <;> omega

theorem Site.Apart.head {count : Nat} (h : site.Apart address (count + 1)) : ¬site.Owns address :=
  h address (mem_cells_head address count)

theorem Site.Apart.tail {count : Nat} (h : site.Apart address (count + 1)) :
    site.Apart (address + 1) count := by
  intro cell hcell
  exact h cell (cells_tail_subset address count hcell)

theorem Site.Apart.mono {count count' : Nat} (h : site.Apart address count) (hle : count' ≤ count) :
    site.Apart address count' := by
  intro cell hcell
  exact h cell (cells_mono address hle hcell)

/-! ## Length -/

section Length

variable (h : site.Holds) (hcode : site.code = strlenCode) (hsize : site.size = 9) {length : Int}

include h hcode hsize

theorem leads_strlen_round (hfirst : around.memory address ≠ 0) (hout : ¬site.Owns address) :
    site.Leads
      ⟨strlenCode.from (.jump 0), Site.header result link caller ++ [address, length], [], around⟩
      ⟨strlenCode.from (.jump 0), Site.header result link caller ++ [address + 1, length + 1], [],
        around⟩ := by
  apply h.leads_of_steps 13
  simp -implicitDefEqProofs [strlenCode, hcode, hsize, hfirst, hout]

theorem leads_strlen_end (hlast : around.memory address = 0) (hout : ¬site.Owns address) :
    site.Leads
      ⟨strlenCode.from (.jump 0), Site.header result link caller ++ [address, length], [], around⟩
      ⟨[.retf], Site.header length link caller ++ [address, length], [], around⟩ := by
  apply h.leads_of_steps 9
  simp -implicitDefEqProofs [strlenCode, hcode, hsize, hlast, hout]

/-- The characters before the closing one are counted. -/
theorem yields_strlen (hstring : around.memory.HoldsString address values)
    (hapart : site.Apart address (values.length + 1)) :
    site.Yields caller
      ⟨strlenCode.tail, Site.header result link caller ++ [address, length], [], around⟩
      (some values.length) around := by
  let point (i : Nat) : Point :=
    ⟨strlenCode.from (.jump 0), Site.header result link caller ++ [address + i, i], [], around⟩
  have hstart : site.Leads
      ⟨strlenCode.tail, Site.header result link caller ++ [address, length], [], around⟩ (point 0) := by
    apply h.leads_of_steps 2
    simp -implicitDefEqProofs [strlenCode, hsize, point]
  have hrounds : site.Leads (point 0) (point values.length) := by
    apply Site.Leads.rounds
    intro i hi
    simp only [point, Int.natCast_succ, ← Int.add_assoc]
    exact leads_strlen_round h hcode hsize (hstring.ne_zero hi) (hapart.not_owns (by omega))
  apply (hstart.trans hrounds).yields
  apply (leads_strlen_end h hcode hsize hstring.closed (hapart.not_owns (Nat.lt_succ_self _))).yields
  exact .retf

end Length

/-! ## Comparison -/

section Comparison

variable (h : site.Holds) (hcode : site.code = strcmpCode) (hsize : site.size = 9)

include h hcode hsize

theorem leads_strcmp_round (heq : around.memory address = around.memory other)
    (hfirst : around.memory other ≠ 0) (hout : ¬site.Owns address) (hout' : ¬site.Owns other) :
    site.Leads
      ⟨strcmpCode.tail, Site.header result link caller ++ [address, other], [], around⟩
      ⟨strcmpCode.tail, Site.header result link caller ++ [address + 1, other + 1], [], around⟩ := by
  apply h.leads_of_steps 20
  simp -implicitDefEqProofs [strcmpCode, hcode, hsize, heq, hfirst, hout, hout']

omit hcode in
theorem leads_strcmp_equal (hfirst : around.memory address = 0) (hother : around.memory other = 0)
    (hout : ¬site.Owns address) (hout' : ¬site.Owns other) :
    site.Leads
      ⟨strcmpCode.tail, Site.header result link caller ++ [address, other], [], around⟩
      ⟨.retf :: strcmpCode.from (.jump 2), Site.header 1 link caller ++ [address, other], [],
        around⟩ := by
  apply h.leads_of_steps 14
  simp -implicitDefEqProofs [strcmpCode, hsize, hfirst, hother, hout, hout']

theorem leads_strcmp_different (hne : around.memory address ≠ around.memory other)
    (hout : ¬site.Owns address) (hout' : ¬site.Owns other) :
    site.Leads
      ⟨strcmpCode.tail, Site.header result link caller ++ [address, other], [], around⟩
      ⟨[.retf], Site.header 0 link caller ++ [address, other], [], around⟩ := by
  apply h.leads_of_steps 10
  simp -implicitDefEqProofs [strcmpCode, hcode, hsize, hne, hout, hout']

theorem yields_strcmp_different (hcell : around.memory address ≠ around.memory other)
    (hout : ¬site.Owns address) (hout' : ¬site.Owns other) (hne : values ≠ values') :
    site.Yields caller
      ⟨strcmpCode.tail, Site.header result link caller ++ [address, other], [], around⟩
      (some (if values = values' then 1 else 0)) around := by
  rw [if_neg hne]
  exact (leads_strcmp_different h hcode hsize hcell hout hout').yields .retf

/-- Strings are compared up to where they differ, or to their common end. -/
theorem yields_strcmp (hstring : around.memory.HoldsString address values)
    (hother : around.memory.HoldsString other values') (hapart : site.Apart address (values.length + 1))
    (hapart' : site.Apart other (values'.length + 1)) :
    site.Yields caller
      ⟨strcmpCode.tail, Site.header result link caller ++ [address, other], [], around⟩
      (some (if values = values' then 1 else 0)) around := by
  induction values generalizing address other values' with
  | nil =>
    have hfirst := Memory.HoldsString.nil_iff.mp hstring
    cases values' with
    | nil =>
      have hsecond := Memory.HoldsString.nil_iff.mp hother
      exact (leads_strcmp_equal h hsize hfirst hsecond hapart.head hapart'.head).yields .retf
    | cons second values' =>
      obtain ⟨hsecond, hne, -⟩ := Memory.HoldsString.cons_iff.mp hother
      apply yields_strcmp_different h hcode hsize _ hapart.head hapart'.head (by simp)
      rw [hfirst, hsecond]
      exact hne.symm
  | cons first values ih =>
    obtain ⟨hfirst, hne, hrest⟩ := Memory.HoldsString.cons_iff.mp hstring
    cases values' with
    | nil =>
      have hsecond := Memory.HoldsString.nil_iff.mp hother
      apply yields_strcmp_different h hcode hsize _ hapart.head hapart'.head (by simp)
      rwa [hfirst, hsecond]
    | cons second values' =>
      obtain ⟨hsecond, -, hrest'⟩ := Memory.HoldsString.cons_iff.mp hother
      by_cases heq : first = second
      · subst heq
        rw [if_congr (List.cons_inj_right first) rfl rfl]
        have hcell := hfirst.trans hsecond.symm
        apply (leads_strcmp_round h hcode hsize hcell (hsecond ▸ hne) hapart.head hapart'.head).yields
        exact ih hrest hrest' hapart.tail hapart'.tail
      · apply yields_strcmp_different h hcode hsize _ hapart.head hapart'.head (by simp [heq])
        rwa [hfirst, hsecond]

end Comparison

/-! ## Output -/

section Output

variable (h : site.Holds) (hcode : site.code = printCode) (hsize : site.size = 8)

include h hcode hsize

theorem leads_print_round (hfirst : around.memory address ≠ 0) (hout : ¬site.Owns address) :
    site.Leads
      ⟨printCode.tail, Site.header result link caller ++ [address], [], around⟩
      ⟨printCode.tail, Site.header result link caller ++ [address + 1], [],
        { around with output := around.output ++ [(.char, around.memory address)] }⟩ := by
  apply h.leads_of_steps 13
  simp -implicitDefEqProofs [printCode, hcode, hsize, hfirst, hout]

theorem leads_print_end (hlast : around.memory address = 0) (hout : ¬site.Owns address) :
    site.Leads
      ⟨printCode.tail, Site.header result link caller ++ [address], [], around⟩
      ⟨[.retp], Site.header result link caller ++ [address], [], around⟩ := by
  apply h.leads_of_steps 7
  simp -implicitDefEqProofs [printCode, hcode, hsize, hlast, hout]

/-- The characters before the closing one are written. -/
theorem yields_print (hstring : around.memory.HoldsString address values)
    (hapart : site.Apart address (values.length + 1)) :
    site.Yields caller
      ⟨printCode.tail, Site.header result link caller ++ [address], [], around⟩ none
      { around with output := around.output ++ values.map (.char, ·) } := by
  induction values generalizing address around with
  | nil =>
    have hlast := Memory.HoldsString.nil_iff.mp hstring
    rw [List.map_nil, List.append_nil]
    exact (leads_print_end h hcode hsize hlast hapart.head).yields .retp
  | cons first values ih =>
    obtain ⟨hfirst, hne, hrest⟩ := Memory.HoldsString.cons_iff.mp hstring
    rw [List.map_cons, List.append_cons around.output (Tag.char, first)]
    apply (leads_print_round h hcode hsize (hfirst ▸ hne) hapart.head).yields
    rw [hfirst]
    apply ih
    · exact hrest
    · exact hapart.tail

end Output

/-! ## Reversal -/

section Reversal

variable (h : site.Holds) (hcode : site.code = strrevCode) (hsize : site.size = 10)
  {low high spare : Int}

include h hcode hsize

theorem leads_strrev_scan_round (hcell : around.memory high ≠ 0) (hout : ¬site.Owns high) :
    site.Leads
      ⟨strrevCode.from (.jump 0), Site.header result link caller ++ [low, high, spare], [], around⟩
      ⟨strrevCode.from (.jump 0), Site.header result link caller ++ [low, high + 1, spare], [],
        around⟩ := by
  apply h.leads_of_steps 10
  simp -implicitDefEqProofs [strrevCode, hcode, hsize, hcell, hout]

theorem leads_strrev_scan_end (hlast : around.memory high = 0) (hout : ¬site.Owns high) :
    site.Leads
      ⟨strrevCode.from (.jump 0), Site.header result link caller ++ [low, high, spare], [], around⟩
      ⟨strrevCode.from (.jump 2), Site.header result link caller ++ [low, high - 1, spare], [],
        around⟩ := by
  apply h.leads_of_steps 10
  simp -implicitDefEqProofs [strrevCode, hcode, hsize, hlast, hout]

/-- The first loop finds the last character. -/
theorem leads_strrev_scan (hstring : around.memory.HoldsString address values)
    (hapart : site.Apart address (values.length + 1)) :
    site.Leads
      ⟨strrevCode.tail, Site.header result link caller ++ [address, high, spare], [], around⟩
      ⟨strrevCode.from (.jump 2),
        Site.header result link caller ++ [address, address + values.length - 1, spare], [],
        around⟩ := by
  let point (i : Nat) : Point :=
    ⟨strrevCode.from (.jump 0), Site.header result link caller ++ [address, address + i, spare], [],
      around⟩
  have hstart : site.Leads
      ⟨strrevCode.tail, Site.header result link caller ++ [address, high, spare], [], around⟩
      (point 0) := by
    apply h.leads_of_steps 2
    simp -implicitDefEqProofs [strrevCode, hsize, point]
  have hrounds : site.Leads (point 0) (point values.length) := by
    apply Site.Leads.rounds
    intro i hi
    simp only [point, Int.natCast_succ, ← Int.add_assoc]
    exact leads_strrev_scan_round h hcode hsize (hstring.ne_zero hi) (hapart.not_owns (by omega))
  apply (hstart.trans hrounds).trans
  exact leads_strrev_scan_end h hcode hsize hstring.closed (hapart.not_owns (Nat.lt_succ_self _))

theorem leads_strrev_swap {first last : Int} (hlt : low < high) (hfirst : around.memory low = first)
    (hlast : around.memory high = last) (hout : ¬site.Owns low) (hout' : ¬site.Owns high) :
    site.Leads
      ⟨strrevCode.from (.jump 2), Site.header result link caller ++ [low, high, spare], [], around⟩
      ⟨strrevCode.from (.jump 2), Site.header result link caller ++ [low + 1, high - 1, first], [],
        { around with memory := (around.memory.store low last).store high first }⟩ := by
  apply h.leads_of_steps 22
  simp -implicitDefEqProofs [strrevCode, hcode, hsize, hlt, hfirst, hlast, hout, hout']

theorem leads_strrev_end (hle : high ≤ low) :
    site.Leads
      ⟨strrevCode.from (.jump 2), Site.header result link caller ++ [low, high, spare], [], around⟩
      ⟨[.retp], Site.header result link caller ++ [low, high, spare], [], around⟩ := by
  apply h.leads_of_steps 6
  simp -implicitDefEqProofs [strrevCode, hcode, hsize, hle]

/-- The second loop swaps the outer characters until it meets in the middle. -/
theorem yields_strrev_swaps (hlists : around.memory.Lists low values)
    (hapart : site.Apart low values.length) :
    site.Yields caller
      ⟨strrevCode.from (.jump 2),
        Site.header result link caller ++ [low, low + values.length - 1, spare], [], around⟩ none
      { around with memory := around.memory.write low values.reverse } := by
  induction values using List.bidirectionalRec generalizing low spare around with
  | nil => exact (leads_strrev_end h hcode hsize (by rw [List.length_nil]; omega)).yields .retp
  | singleton first =>
    rw [List.reverse_singleton, hlists.write_eq]
    exact (leads_strrev_end h hcode hsize (by simp)).yields .retp
  | cons_append first middle last ih =>
    obtain ⟨hfirst, hrest⟩ := hlists
    obtain ⟨hmiddle, hlast, -⟩ := Memory.lists_append.mp hrest
    have hhigh : low + (first :: (middle ++ [last])).length - 1 = low + 1 + middle.length := by
      simp only [List.length_cons, List.length_append, List.length_nil]
      omega
    have hafter : site.Apart (low + 1) (middle.length + 1) := by simpa using hapart.tail
    have hkept : ((around.memory.store low last).store (low + 1 + middle.length) first).Lists (low + 1)
        middle := by
      apply Memory.Lists.store
      · exact hmiddle.store (not_mem_cells_succ _ _)
      · simp [cells]
    rw [hhigh, Memory.write_reverse]
    apply (leads_strrev_swap h hcode hsize (by omega) hfirst hlast hapart.head
      (hafter.not_owns (Nat.lt_succ_self _))).yields
    exact ih hkept (hafter.mono (Nat.le_succ _))

/-- A string is reversed. -/
theorem yields_strrev (hstring : around.memory.HoldsString address values)
    (hapart : site.Apart address (values.length + 1)) :
    site.Yields caller
      ⟨strrevCode.tail, Site.header result link caller ++ [address, high, spare], [], around⟩ none
      { around with memory := around.memory.write address values.reverse } := by
  apply (leads_strrev_scan h hcode hsize hstring hapart).yields
  exact yields_strrev_swaps h hcode hsize hstring.lists (hapart.mono (Nat.le_succ _))

end Reversal

/-! ## Calls -/

section Calls

variable {program : Code} {names : List String} {first : Int} (h : program.Offers names)

include h

/-- `strlen` counts the characters of a string. -/
theorem Code.Offers.strlen (hname : "strlen" ∈ (closure names).map name)
    (hcall : caller.Calls program "strlen" [address] first)
    (hstring : caller.memory.HoldsString address values)
    (hapart : Disjoint (cells address (values.length + 1)) (cells first 9)) :
    caller.Returns program first 9 (some values.length) caller.around := by
  apply h.returns (mem_closure hname rfl) rfl hcall (by simp) (by simp)
  intro place taken value link locals hlocals hholds
  obtain ⟨length, rfl⟩ := List.length_eq_one_iff.mp hlocals
  exact yields_strlen hholds rfl rfl hstring (Set.disjoint_left.mp hapart)

/-- `strcmp` tells whether two strings are equal. -/
theorem Code.Offers.strcmp (hname : "strcmp" ∈ (closure names).map name)
    (hcall : caller.Calls program "strcmp" [address, other] first)
    (hstring : caller.memory.HoldsString address values)
    (hother : caller.memory.HoldsString other values')
    (hapart : Disjoint (cells address (values.length + 1)) (cells first 9))
    (hapart' : Disjoint (cells other (values'.length + 1)) (cells first 9)) :
    caller.Returns program first 9 (some (if values = values' then 1 else 0)) caller.around := by
  apply h.returns (mem_closure hname rfl) rfl hcall (by simp) (by simp)
  intro place taken value link locals hlocals hholds
  obtain rfl := List.length_eq_zero_iff.mp hlocals
  exact yields_strcmp hholds rfl rfl hstring hother (Set.disjoint_left.mp hapart)
    (Set.disjoint_left.mp hapart')

/-- `print` writes the characters of a string. -/
theorem Code.Offers.print (hname : "print" ∈ (closure names).map name)
    (hcall : caller.Calls program "print" [address] first)
    (hstring : caller.memory.HoldsString address values)
    (hapart : Disjoint (cells address (values.length + 1)) (cells first 8)) :
    caller.Returns program first 8 none
      { caller.around with output := caller.output ++ values.map (.char, ·) } := by
  apply h.returns (mem_closure hname rfl) rfl hcall (by simp) (by simp)
  intro place taken value link locals hlocals hholds
  obtain rfl := List.length_eq_zero_iff.mp hlocals
  exact yields_print hholds rfl rfl hstring (Set.disjoint_left.mp hapart)

/-- `strrev` reverses a string in place. -/
theorem Code.Offers.strrev (hname : "strrev" ∈ (closure names).map name)
    (hcall : caller.Calls program "strrev" [address] first)
    (hstring : caller.memory.HoldsString address values)
    (hapart : Disjoint (cells address (values.length + 1)) (cells first 10)) :
    caller.Returns program first 10 none
      { caller.around with memory := caller.memory.write address values.reverse } := by
  apply h.returns (mem_closure hname rfl) rfl hcall (by simp) (by simp)
  intro place taken value link locals hlocals hholds
  obtain ⟨high, spare, rfl⟩ := List.length_eq_two.mp hlocals
  exact yields_strrev hholds rfl rfl hstring (Set.disjoint_left.mp hapart)

end Calls

end MiniC.Machine
