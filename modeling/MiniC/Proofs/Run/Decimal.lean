import MiniC.Proofs.Run.Digits

/-!
# Decimal conversions at work

What the routines between numbers and their decimal texts do from inside their frames.
-/

namespace MiniC.Machine

open Routine

variable {site : Site} {caller : Status} {around : Surroundings} {names : List String}
  {result link address : Int} {ds : List Char}

namespace Memory

variable {memory memory' : Memory}

/-- Decimal digits stand at an address, and something else behind them. -/
structure HoldsDigits (memory : Memory) (address : Int) (ds : List Char) : Prop where
  lists : memory.Lists address (codes ds)
  closed : ¬IsDigit (memory (address + ds.length))
  digits : ∀ c ∈ ds, c.isDigit

theorem HoldsDigits.cons {c : Char} (h : memory.HoldsDigits address (c :: ds)) :
    memory address = c.toNat ∧ IsDigit c.toNat ∧ memory.HoldsDigits (address + 1) ds := by
  obtain ⟨⟨hfirst, hrest⟩, hclosed, hdigits⟩ := h
  obtain ⟨hdigit, hdigits⟩ := List.forall_mem_cons.mp hdigits
  refine ⟨hfirst, isDigit_code.mpr hdigit, hrest, ?_, hdigits⟩
  rwa [List.length_cons, Int.natCast_succ, Int.add_comm (ds.length : Int), ← Int.add_assoc] at hclosed

/-- A string of digits. -/
theorem HoldsString.digits (h : memory.HoldsString address (codes ds)) (hdigits : ∀ c ∈ ds, c.isDigit) :
    memory.HoldsDigits address ds := by
  refine ⟨h.lists, ?_, hdigits⟩
  rw [← length_codes, h.closed]
  decide

end Memory

/-- The closing character is no digit. -/
theorem zero_not_mem_codes (h : ∀ c ∈ ds, c.isDigit) : 0 ∉ codes ds := by
  intro hmem
  obtain ⟨c, hc, (hzero : (c.toNat : Int) = 0)⟩ := List.mem_map.mp hmem
  have hlow := (isDigit_code.mpr (h c hc)).1
  omega

/-- A digit that is read behind others. -/
theorem ofDigitChars_step {c : Char} (sum : Nat) (h : IsDigit c.toNat) :
    ((10 * sum + (c.toNat - '0'.toNat) : Nat) : Int) = sum * 10 + (c.toNat - 48) := by
  have hzero : '0'.toNat = 48 := rfl
  have hlow := h.1
  omega

/-- A digit that is read in front of others. -/
theorem ofDigitChars_front {c : Char} (h : IsDigit c.toNat) :
    (Nat.ofDigitChars 10 (c :: ds) 0 : Int) =
      (c.toNat - 48) * 10 ^ ds.length + Nat.ofDigitChars 10 ds 0 := by
  rw [Nat.ofDigitChars_cons, Nat.ofDigitChars_eq_ofDigitChars_zero, Int.natCast_add, Int.natCast_mul,
    ofDigitChars_step 0 h, Int.natCast_pow, Int.mul_comm]
  simp

/-! ## From texts to numbers -/

section Atoi

variable (h : site.Holds) (hcode : site.code = atoiCode) (hsize : site.size = 17) {sum sign : Int}

include h hsize

/-- The test of the loop. -/
theorem leads_atoi_test (hoffers : site.program.Offers names)
    (hname : "isdigit" ∈ (closure names).map name) (hout : ¬site.Owns address) :
    site.Leads
      ⟨atoiCode.from (.jump 0), Site.header result link caller ++ [address, sum, sign], [], around⟩
      ⟨atoiCode.drop 20, Site.header result link caller ++ [address, sum, sign],
        [if IsDigit (around.memory address) then 1 else 0], around⟩ := by
  have hlabel : site.Leads
      ⟨atoiCode.from (.jump 0), Site.header result link caller ++ [address, sum, sign], [], around⟩
      ⟨.mst 1 :: atoiCode.drop 17, Site.header result link caller ++ [address, sum, sign], [],
        around⟩ := by
    apply h.leads_of_steps 1
    simp -implicitDefEqProofs [atoiCode]
  apply hlabel.trans
  apply h.leads_function (by simp [hsize]) (by decide) _ fun caller first => hoffers.isdigit hname
  intro marks hmarks
  apply h.leads_of_steps 2
  simp -implicitDefEqProofs [atoiCode, hsize, hmarks, hout]

include hcode

theorem leads_atoi_unsigned (hfirst : around.memory address ≠ 45) (hout : ¬site.Owns address) :
    site.Leads
      ⟨atoiCode.tail, Site.header result link caller ++ [address, sum, sign], [], around⟩
      ⟨atoiCode.from (.jump 0), Site.header result link caller ++ [address, 0, 1], [], around⟩ := by
  apply h.leads_of_steps 9
  simp -implicitDefEqProofs [atoiCode, hcode, hsize, hfirst, hout]

omit hcode in
theorem leads_atoi_signed (hfirst : around.memory address = 45) (hout : ¬site.Owns address) :
    site.Leads
      ⟨atoiCode.tail, Site.header result link caller ++ [address, sum, sign], [], around⟩
      ⟨atoiCode.from (.jump 0), Site.header result link caller ++ [address + 1, 0, -1], [],
        around⟩ := by
  apply h.leads_of_steps 14
  simp -implicitDefEqProofs [atoiCode, hsize, hfirst, hout]

theorem leads_atoi_round (hout : ¬site.Owns address) :
    site.Leads
      ⟨atoiCode.drop 20, Site.header result link caller ++ [address, sum, sign], [1], around⟩
      ⟨atoiCode.from (.jump 0), Site.header result link caller ++
        [address + 1, sum * 10 + (around.memory address - 48), sign], [], around⟩ := by
  apply h.leads_of_steps 16
  simp -implicitDefEqProofs [atoiCode, hcode, hsize, hout]

theorem leads_atoi_end :
    site.Leads
      ⟨atoiCode.drop 20, Site.header result link caller ++ [address, sum, sign], [0], around⟩
      ⟨[.retf], Site.header (sum * sign) link caller ++ [address, sum, sign], [], around⟩ := by
  apply h.leads_of_steps 7
  simp -implicitDefEqProofs [atoiCode, hcode, hsize]

variable (hoffers : site.program.Offers names) (hname : "isdigit" ∈ (closure names).map name)

include hoffers hname

/-- The loop reads digits from left to right. -/
theorem yields_atoi_digits (sum : Nat) (hdigits : around.memory.HoldsDigits address ds)
    (hapart : site.Apart address (ds.length + 1)) :
    site.Yields caller
      ⟨atoiCode.from (.jump 0), Site.header result link caller ++ [address, sum, sign], [], around⟩
      (some (Nat.ofDigitChars 10 ds sum * sign)) around := by
  induction ds generalizing address sum with
  | nil =>
    have hclosed : ¬IsDigit (around.memory address) := by simpa using hdigits.closed
    apply (leads_atoi_test h hsize hoffers hname hapart.head).yields
    rw [if_neg hclosed]
    exact (leads_atoi_end h hcode hsize).yields .retf
  | cons c ds ih =>
    obtain ⟨hfirst, hdigit, hrest⟩ := hdigits.cons
    apply (leads_atoi_test h hsize hoffers hname hapart.head).yields
    rw [if_pos (hfirst ▸ hdigit)]
    apply (leads_atoi_round h hcode hsize hapart.head).yields
    rw [hfirst, ← ofDigitChars_step sum hdigit, Nat.ofDigitChars_cons]
    exact ih _ hrest hapart.tail

/-- A text without a sign is the number that its digits are. -/
theorem yields_atoi (hne : ds ≠ []) (hdigits : around.memory.HoldsDigits address ds)
    (hapart : site.Apart address (ds.length + 1)) :
    site.Yields caller
      ⟨atoiCode.tail, Site.header result link caller ++ [address, sum, sign], [], around⟩
      (some (Nat.ofDigitChars 10 ds 0)) around := by
  obtain ⟨c, ds, rfl⟩ := List.exists_cons_of_ne_nil hne
  obtain ⟨hfirst, hdigit, -⟩ := hdigits.cons
  have hsign : around.memory address ≠ 45 := by
    have hlow := hdigit.1
    omega
  apply (leads_atoi_unsigned h hcode hsize hsign hapart.head).yields
  rw [← Int.mul_one (Nat.ofDigitChars 10 (c :: ds) 0 : Int)]
  exact yields_atoi_digits h hcode hsize hoffers hname 0 hdigits hapart

/-- A text with a minus sign is the opposite. -/
theorem yields_atoi_neg (hfirst : around.memory address = 45)
    (hdigits : around.memory.HoldsDigits (address + 1) ds)
    (hapart : site.Apart address (ds.length + 2)) :
    site.Yields caller
      ⟨atoiCode.tail, Site.header result link caller ++ [address, sum, sign], [], around⟩
      (some (-Nat.ofDigitChars 10 ds 0)) around := by
  apply (leads_atoi_signed h hsize hfirst hapart.head).yields
  rw [show -(Nat.ofDigitChars 10 ds 0 : Int) = Nat.ofDigitChars 10 ds 0 * -1 by omega]
  exact yields_atoi_digits h hcode hsize hoffers hname 0 hdigits hapart.tail

end Atoi

/-! ## From texts to numbers, and past them -/

section Parseint

variable (h : site.Holds) (hcode : site.code = parseintCode) (hsize : site.size = 23)
  {pointer sum count start left : Int}

include h hsize

theorem leads_parseint_start (hpointer : around.memory pointer = address) (hout : ¬site.Owns pointer) :
    site.Leads
      ⟨parseintCode.tail, Site.header result link caller ++ [pointer, sum, count, start, left], [],
        around⟩
      ⟨parseintCode.from (.jump 0), Site.header result link caller ++ [pointer, 0, 0, address, left],
        [], around.store pointer address⟩ := by
  have hkept : around.store pointer address = around := by
    rw [Surroundings.store, Memory.store_eq_self hpointer]
  rw [hkept]
  apply h.leads_of_steps 7
  simp -implicitDefEqProofs [parseintCode, hsize, hpointer, hout]

/-- The test of the first loop. -/
theorem leads_parseint_test (hoffers : site.program.Offers names)
    (hname : "isdigit" ∈ (closure names).map name) (hpointer : ¬site.Owns pointer)
    (hout : ¬site.Owns address) (hne : address ≠ pointer) :
    site.Leads
      ⟨parseintCode.from (.jump 0),
        Site.header result link caller ++ [pointer, sum, count, start, left], [],
        around.store pointer address⟩
      ⟨parseintCode.drop 14, Site.header result link caller ++ [pointer, sum, count, start, left],
        [if IsDigit (around.memory address) then 1 else 0], around.store pointer address⟩ := by
  have hlabel : site.Leads
      ⟨parseintCode.from (.jump 0),
        Site.header result link caller ++ [pointer, sum, count, start, left], [],
        around.store pointer address⟩
      ⟨.mst 1 :: parseintCode.drop 10,
        Site.header result link caller ++ [pointer, sum, count, start, left], [],
        around.store pointer address⟩ := by
    apply h.leads_of_steps 1
    simp -implicitDefEqProofs [parseintCode]
  apply hlabel.trans
  apply h.leads_function (by simp [hsize]) (by decide) _ fun caller first => hoffers.isdigit hname
  intro marks hmarks
  apply h.leads_of_steps 3
  simp -implicitDefEqProofs [parseintCode, hsize, hmarks, hpointer, hout, Memory.store_of_ne hne]

/-- The value of the digit in front of the pointer. -/
theorem leads_parseint_digit (hoffers : site.program.Offers names)
    (hname : "chartoint" ∈ (closure names).map name) (hpointer : ¬site.Owns pointer)
    (hout : ¬site.Owns address) (hne : address ≠ pointer) :
    site.Leads
      ⟨.mst 1 :: parseintCode.drop 38,
        Site.header result link caller ++ [pointer, sum, count, start, left], [sum],
        around.store pointer address⟩
      ⟨.mst 1 :: parseintCode.drop 43,
        Site.header result link caller ++ [pointer, sum, count, start, left],
        [around.memory address - 48, sum], around.store pointer address⟩ := by
  apply h.leads_function (by simp [hsize]) (by decide) _ fun caller first => hoffers.chartoint hname
  intro marks hmarks
  apply h.leads_of_steps 3
  simp -implicitDefEqProofs [parseintCode, hsize, hmarks, hpointer, hout, Memory.store_of_ne hne]

/-- What the digit counts for. -/
theorem leads_parseint_power (hoffers : site.program.Offers names)
    (hname : "pow" ∈ (closure names).map name) {digit : Int} (exponent : Nat) :
    site.Leads
      ⟨.mst 1 :: parseintCode.drop 43,
        Site.header result link caller ++ [pointer, sum, count, start, (exponent + 1 : Nat)],
        [digit, sum], around⟩
      ⟨parseintCode.drop 47,
        Site.header result link caller ++ [pointer, sum, count, start, (exponent + 1 : Nat)],
        [10 ^ exponent, digit, sum], around⟩ := by
  apply h.leads_function (by simp [hsize]) (by decide) _ fun caller first => hoffers.pow hname
  intro marks hmarks
  apply h.leads_of_steps 3
  simp -implicitDefEqProofs [parseintCode, hsize, hmarks]

include hcode

theorem leads_parseint_scan_round (hpointer : ¬site.Owns pointer) :
    site.Leads
      ⟨parseintCode.drop 14, Site.header result link caller ++ [pointer, sum, count, start, left], [1],
        around.store pointer address⟩
      ⟨parseintCode.from (.jump 0),
        Site.header result link caller ++ [pointer, sum, count + 1, start, left], [],
        around.store pointer (address + 1)⟩ := by
  apply h.leads_of_steps 11
  simp -implicitDefEqProofs [parseintCode, hcode, hsize, hpointer, Memory.store_store]

theorem leads_parseint_scan_end (hpointer : ¬site.Owns pointer) :
    site.Leads
      ⟨parseintCode.drop 14, Site.header result link caller ++ [pointer, sum, count, start, left], [0],
        around.store pointer address⟩
      ⟨parseintCode.from (.jump 2),
        Site.header result link caller ++ [pointer, sum, count, start, count], [],
        around.store pointer start⟩ := by
  apply h.leads_of_steps 8
  simp -implicitDefEqProofs [parseintCode, hcode, hsize, hpointer, Memory.store_store]

omit hcode in
theorem leads_parseint_round_start (hlt : 0 < left) :
    site.Leads
      ⟨parseintCode.from (.jump 2),
        Site.header result link caller ++ [pointer, sum, count, start, left], [], around⟩
      ⟨.mst 1 :: parseintCode.drop 38,
        Site.header result link caller ++ [pointer, sum, count, start, left], [sum], around⟩ := by
  apply h.leads_of_steps 6
  simp -implicitDefEqProofs [parseintCode, hsize, hlt]

theorem leads_parseint_round_end (hpointer : ¬site.Owns pointer) {digit power : Int} :
    site.Leads
      ⟨parseintCode.drop 47, Site.header result link caller ++ [pointer, sum, count, start, left],
        [power, digit, sum], around.store pointer address⟩
      ⟨parseintCode.from (.jump 2),
        Site.header result link caller ++ [pointer, sum + digit * power, count, start, left - 1], [],
        around.store pointer (address + 1)⟩ := by
  apply h.leads_of_steps 12
  simp -implicitDefEqProofs [parseintCode, hcode, hsize, hpointer, Memory.store_store]

theorem leads_parseint_end :
    site.Leads
      ⟨parseintCode.from (.jump 2),
        Site.header result link caller ++ [pointer, sum, count, start, 0], [], around⟩
      ⟨[.retf], Site.header sum link caller ++ [pointer, sum, count, start, 0], [], around⟩ := by
  apply h.leads_of_steps 8
  simp -implicitDefEqProofs [parseintCode, hcode, hsize]

variable (hoffers : site.program.Offers names) (hpointer : ¬site.Owns pointer)
  (hdigits : around.memory.HoldsDigits address ds) (hapart : site.Apart address (ds.length + 1))
  (hout : pointer ∉ cells address (ds.length + 1))

include hoffers hpointer hdigits hapart hout

/-- The first loop counts digits, and then goes back to the first one. -/
theorem leads_parseint_scan (hname : "isdigit" ∈ (closure names).map name) :
    site.Leads
      ⟨parseintCode.from (.jump 0),
        Site.header result link caller ++ [pointer, sum, count, start, left], [],
        around.store pointer address⟩
      ⟨parseintCode.from (.jump 2),
        Site.header result link caller ++
          [pointer, sum, count + ds.length, start, count + ds.length], [],
        around.store pointer start⟩ := by
  induction ds generalizing address count with
  | nil =>
    have hclosed : ¬IsDigit (around.memory address) := by simpa using hdigits.closed
    have hne : address ≠ pointer := ne_of_mem_of_not_mem (mem_cells_head address 0) hout
    apply (leads_parseint_test h hsize hoffers hname hpointer hapart.head hne).trans
    rw [if_neg hclosed]
    simpa using leads_parseint_scan_end h hcode hsize hpointer
  | cons c ds ih =>
    obtain ⟨hfirst, hdigit, hrest⟩ := hdigits.cons
    have hne : address ≠ pointer := ne_of_mem_of_not_mem (mem_cells_head address _) hout
    have hcount : count + (c :: ds).length = count + 1 + ds.length := by
      rw [List.length_cons]
      omega
    apply (leads_parseint_test h hsize hoffers hname hpointer hapart.head hne).trans
    rw [if_pos (hfirst ▸ hdigit), hcount]
    apply (leads_parseint_scan_round h hcode hsize hpointer).trans
    exact ih hrest hapart.tail fun hmem => hout (cells_tail_subset _ _ hmem)

/-- The second loop sums up what the digits count for. -/
theorem yields_parseint_sum (hchar : "chartoint" ∈ (closure names).map name)
    (hpow : "pow" ∈ (closure names).map name) :
    site.Yields caller
      ⟨parseintCode.from (.jump 2),
        Site.header result link caller ++ [pointer, sum, count, start, ds.length], [],
        around.store pointer address⟩
      (some (sum + Nat.ofDigitChars 10 ds 0)) (around.store pointer (address + ds.length)) := by
  induction ds generalizing address sum with
  | nil => simpa using (leads_parseint_end h hcode hsize).yields .retf
  | cons c ds ih =>
    obtain ⟨hfirst, hdigit, hrest⟩ := hdigits.cons
    have hne : address ≠ pointer := ne_of_mem_of_not_mem (mem_cells_head address _) hout
    apply (leads_parseint_round_start h hsize (by simp)).yields
    apply (leads_parseint_digit h hsize hoffers hchar hpointer hapart.head hne).yields
    apply (leads_parseint_power h hsize hoffers hpow ds.length).yields
    apply (leads_parseint_round_end h hcode hsize hpointer).yields
    have hleft : ((ds.length + 1 : Nat) : Int) - 1 = ds.length := by omega
    have hend : address + (c :: ds).length = address + 1 + ds.length := by
      rw [List.length_cons]
      omega
    rw [hfirst, hleft, hend, ofDigitChars_front hdigit, ← Int.add_assoc]
    exact ih hrest hapart.tail fun hmem => hout (cells_tail_subset _ _ hmem)

/-- The digits at a pointer are the number that they are, and the pointer is left behind them. -/
theorem yields_parseint (hread : around.memory pointer = address)
    (hdigit : "isdigit" ∈ (closure names).map name) (hchar : "chartoint" ∈ (closure names).map name)
    (hpow : "pow" ∈ (closure names).map name) :
    site.Yields caller
      ⟨parseintCode.tail, Site.header result link caller ++ [pointer, sum, count, start, left], [],
        around⟩
      (some (Nat.ofDigitChars 10 ds 0)) (around.store pointer (address + ds.length)) := by
  apply (leads_parseint_start h hsize hread hpointer).yields
  apply (leads_parseint_scan h hcode hsize hoffers hpointer hdigits hapart hout hdigit).yields
  rw [Int.zero_add, ← Int.zero_add (Nat.ofDigitChars 10 ds 0 : Int)]
  exact yields_parseint_sum h hcode hsize hoffers hpointer hdigits hapart hout hchar hpow

end Parseint

/-! ## From numbers to texts -/

/-- The decimal text of a number. -/
def decimal (number : Int) : List Char := (toString number).toList

theorem decimal_ofNat (n : Nat) : decimal (.ofNat n) = Nat.toDigits 10 n := Nat.toList_repr

theorem decimal_negSucc (n : Nat) : decimal (.negSucc n) = '-' :: Nat.toDigits 10 (n + 1) := by
  rw [← Nat.toList_repr]
  exact String.toList_append

theorem isDigit_of_mem_toDigits {n : Nat} {c : Char} (h : c ∈ Nat.toDigits 10 n) : c.isDigit :=
  Nat.isDigit_of_mem_toDigits (by decide) (by decide) h

theorem zero_not_mem_codes_decimal (number : Int) : 0 ∉ codes (decimal number) := by
  cases number with
  | ofNat n =>
    rw [decimal_ofNat]
    exact zero_not_mem_codes fun c => isDigit_of_mem_toDigits
  | negSucc n =>
    rw [decimal_negSucc, codes_cons, List.mem_cons, not_or]
    exact ⟨by decide, zero_not_mem_codes fun c => isDigit_of_mem_toDigits⟩

/-- The last digit of a number, as the routine computes it. -/
theorem digit_code (n : Nat) : (n : Int) - (n : Int).tdiv 10 * 10 + 48 = (n % 10).digitChar.toNat := by
  rw [Nat.toNat_digitChar_of_lt_ten (Nat.mod_lt n (by decide)), show (10 : Int) = (10 : Nat) from rfl,
    ← Int.ofNat_tdiv]
  omega

section Itoa

variable (h : site.Holds) (hcode : site.code = itoaCode) (hsize : site.size = 19)
  {number buffer place sign : Int}

include h hsize

theorem leads_itoa_digit (n : Nat) (hout : ¬site.Owns place) :
    site.Leads
      ⟨itoaCode.from (.jump 0), Site.header result link caller ++ [(n : Int), buffer, place, sign], [], around⟩
      ⟨itoaCode.drop 34,
        Site.header result link caller ++ [((n / 10 : Nat) : Int), buffer, place + 1, sign], [],
        around.store place (n % 10).digitChar.toNat⟩ := by
  rw [← digit_code, show ((n / 10 : Nat) : Int) = (n : Int).tdiv 10 from Int.ofNat_tdiv n 10]
  apply h.leads_of_steps 20
  simp -implicitDefEqProofs [itoaCode, hsize, hout]

include hcode

theorem leads_itoa_start (hle : 0 ≤ number) :
    site.Leads
      ⟨itoaCode.tail, Site.header result link caller ++ [number, buffer, place, sign], [], around⟩
      ⟨itoaCode.from (.jump 0), Site.header result link caller ++ [number, buffer, buffer, 0], [],
        around⟩ := by
  apply h.leads_of_steps 8
  simp -implicitDefEqProofs [itoaCode, hcode, hsize, Int.not_lt.mpr hle]

omit hcode in
theorem leads_itoa_start_neg (hlt : number < 0) :
    site.Leads
      ⟨itoaCode.tail, Site.header result link caller ++ [number, buffer, place, sign], [], around⟩
      ⟨itoaCode.from (.jump 0), Site.header result link caller ++ [-number, buffer, buffer, 1], [],
        around⟩ := by
  apply h.leads_of_steps 13
  simp -implicitDefEqProofs [itoaCode, hsize, hlt]

theorem leads_itoa_again (hlt : 0 < number) :
    site.Leads
      ⟨itoaCode.drop 34, Site.header result link caller ++ [number, buffer, place, sign], [], around⟩
      ⟨itoaCode.from (.jump 0), Site.header result link caller ++ [number, buffer, place, sign], [],
        around⟩ := by
  apply h.leads_of_steps 5
  simp -implicitDefEqProofs [itoaCode, hcode, hsize, hlt]

theorem leads_itoa_done :
    site.Leads
      ⟨itoaCode.drop 34, Site.header result link caller ++ [0, buffer, place, sign], [], around⟩
      ⟨itoaCode.from (.jump 1), Site.header result link caller ++ [0, buffer, place, sign], [],
        around⟩ := by
  apply h.leads_of_steps 4
  simp -implicitDefEqProofs [itoaCode, hcode, hsize]

theorem leads_itoa_unsigned :
    site.Leads
      ⟨itoaCode.from (.jump 1), Site.header result link caller ++ [number, buffer, place, 0], [],
        around⟩
      ⟨itoaCode.from (.jump 2), Site.header result link caller ++ [number, buffer, place, 0], [],
        around⟩ := by
  apply h.leads_of_steps 4
  simp -implicitDefEqProofs [itoaCode, hcode, hsize]

omit hcode in
theorem leads_itoa_signed (hout : ¬site.Owns place) :
    site.Leads
      ⟨itoaCode.from (.jump 1), Site.header result link caller ++ [number, buffer, place, 1], [],
        around⟩
      ⟨itoaCode.from (.jump 2), Site.header result link caller ++ [number, buffer, place + 1, 1], [],
        around.store place 45⟩ := by
  apply h.leads_of_steps 10
  simp -implicitDefEqProofs [itoaCode, hsize, hout]

/-- The loop writes the digits of a number, the last one first. -/
theorem leads_itoa_digits (n : Nat) (hapart : site.Apart place (Nat.toDigits 10 n).length) :
    site.Leads
      ⟨itoaCode.from (.jump 0), Site.header result link caller ++ [(n : Int), buffer, place, sign], [], around⟩
      ⟨itoaCode.from (.jump 1),
        Site.header result link caller ++
          [0, buffer, place + (Nat.toDigits 10 n).length, sign], [],
        { around with memory := around.memory.write place (codes (Nat.toDigits 10 n).reverse) }⟩ := by
  induction n using Nat.strongRecOn generalizing place around with
  | ind n ih =>
    rw [Nat.toDigits_eq_if (by decide)] at hapart ⊢
    by_cases hlt : n < 10
    · rw [if_pos hlt] at hapart ⊢
      apply (leads_itoa_digit h hsize n hapart.head).trans
      rw [Nat.div_eq_of_lt hlt, Nat.mod_eq_of_lt hlt]
      exact leads_itoa_done h hcode hsize
    · have hlength : ∀ last, (Nat.toDigits 10 (n / 10) ++ [last]).length =
          (Nat.toDigits 10 (n / 10)).length + 1 := fun last => List.length_append
      have hend : place + ((Nat.toDigits 10 (n / 10)).length + 1 : Nat) =
          place + 1 + (Nat.toDigits 10 (n / 10)).length := by omega
      rw [if_neg hlt, hlength] at hapart
      rw [if_neg hlt, hlength, hend, List.reverse_concat]
      apply (leads_itoa_digit h hsize n hapart.head).trans
      apply (leads_itoa_again h hcode hsize (by omega)).trans
      exact ih (n / 10) (by omega) hapart.tail

omit hcode in
/-- What has been written is closed and reversed. -/
theorem yields_itoa_reverse (hoffers : site.program.Offers names)
    (hname : "strrev" ∈ (closure names).map name) {values : List Int} (hnone : 0 ∉ values)
    (hapart : site.Apart buffer (values.length + 1)) (hplace : place = buffer + values.length) :
    site.Yields caller
      ⟨itoaCode.from (.jump 2), Site.header result link caller ++ [number, buffer, place, sign], [],
        { around with memory := around.memory.write buffer values.reverse }⟩ none
      { around with memory := around.memory.write buffer (values ++ [0]) } := by
  let closed : Surroundings :=
    { around with memory := around.memory.write buffer (values.reverse ++ [0]) }
  have hlast : ¬site.Owns (buffer + values.length) := hapart.not_owns (Nat.lt_succ_self _)
  have hclose : site.Leads
      ⟨itoaCode.from (.jump 2), Site.header result link caller ++ [number, buffer, place, sign], [],
        { around with memory := around.memory.write buffer values.reverse }⟩
      ⟨.mst 1 :: itoaCode.drop 54, Site.header result link caller ++ [number, buffer, place, sign], [],
        closed⟩ := by
    apply h.leads_of_steps 4
    simp -implicitDefEqProofs [itoaCode, hsize, closed, hplace, hlast, Memory.write_append]
  have hclosed : closed.memory.HoldsString buffer values.reverse :=
    Memory.HoldsString.write (by simpa using hnone)
  have houtside : ∀ cell ∈ cells buffer values.length, ¬site.Owns cell :=
    hapart.mono (Nat.le_succ _)
  have hreturns : ∀ (caller : Status) first, caller.Calls site.program "strrev" [buffer] first →
      (∀ cell, ¬site.Owns cell → caller.memory cell = closed.memory cell) →
      cells first 10 ⊆ cells site.first site.size →
      caller.Returns site.program first 10 none
        { caller.around with memory := caller.memory.write buffer values } := by
    intro caller first hcall hmemory hcells
    rw [← values.length_reverse] at hapart
    rw [← values.reverse_reverse]
    apply hoffers.strrev hname hcall
    · exact hclosed.congr fun cell hcell => (hmemory cell (hapart cell hcell)).symm
    · exact Set.disjoint_left.mpr fun cell hcell hmem => hapart cell hcell (hcells hmem)
  have hreverse : site.Leads
      ⟨.mst 1 :: itoaCode.drop 54, Site.header result link caller ++ [number, buffer, place, sign], [],
        closed⟩
      ⟨[.retp], Site.header result link caller ++ [number, buffer, place, sign], [],
        { closed with memory := closed.memory.write buffer values }⟩ := by
    apply h.leads_procedure (by simp [hsize]) (by decide) _ houtside hreturns
    intro marks hmarks
    apply h.leads_of_steps 1
    simp -implicitDefEqProofs [itoaCode, hsize, hmarks]
  rw [← Memory.write_append_write values.length_reverse]
  exact (hclose.trans hreverse).yields .retp

/-- The decimal text of a number is written. -/
theorem yields_itoa (hoffers : site.program.Offers names) (hname : "strrev" ∈ (closure names).map name)
    (n : Int) (hapart : site.Apart buffer ((decimal n).length + 1)) :
    site.Yields caller
      ⟨itoaCode.tail, Site.header result link caller ++ [n, buffer, place, sign], [], around⟩ none
      { around with memory := around.memory.write buffer (codes (decimal n) ++ [0]) } := by
  rw [← length_codes] at hapart
  have hnone := zero_not_mem_codes_decimal n
  cases n with
  | ofNat n =>
    rw [decimal_ofNat] at hapart hnone ⊢
    apply (leads_itoa_start h hcode hsize (Int.natCast_nonneg n)).yields
    apply (leads_itoa_digits h hcode hsize n (hapart.mono (by simp))).yields
    apply (leads_itoa_unsigned h hcode hsize).yields
    rw [codes_reverse]
    exact yields_itoa_reverse h hsize hoffers hname hnone hapart (by simp)
  | negSucc n =>
    rw [decimal_negSucc] at hapart hnone ⊢
    have hlength : (Nat.toDigits 10 (n + 1)).length <
        (codes ('-' :: Nat.toDigits 10 (n + 1))).length + 1 := by
      rw [length_codes, List.length_cons]
      omega
    apply (leads_itoa_start_neg h hsize (Int.negSucc_lt_zero n)).yields
    rw [Int.neg_negSucc]
    apply (leads_itoa_digits h hcode hsize (n + 1) (hapart.mono (Nat.le_of_lt hlength))).yields
    apply (leads_itoa_signed h hsize (hapart.not_owns hlength)).yields
    have hsigned : (around.memory.write buffer (codes (Nat.toDigits 10 (n + 1)).reverse)).store
          (buffer + (Nat.toDigits 10 (n + 1)).length) 45 =
        around.memory.write buffer (codes ('-' :: Nat.toDigits 10 (n + 1))).reverse := by
      simp [Memory.write_append]
    rw [Surroundings.store, hsigned]
    exact yields_itoa_reverse h hsize hoffers hname hnone hapart (by simp; omega)

end Itoa

/-! ## Calls -/

section Calls

variable {program : Code} {first pointer : Int} (h : program.Offers names)

include h

/-- `itoa` writes the decimal text of a number, and closes it. -/
theorem Code.Offers.itoa (hname : "itoa" ∈ (closure names).map name) {number : Int}
    (hcall : caller.Calls program "itoa" [number, address] first)
    (hapart : Disjoint (cells address ((decimal number).length + 1)) (cells first 19)) :
    caller.Returns program first 19 none
      { caller.around with
        memory := caller.memory.write address (codes (decimal number) ++ [0]) } := by
  have hroutine := mem_closure hname rfl
  apply h.returns hroutine rfl hcall (by simp) (by simp)
  intro place taken value link locals hlocals hholds
  obtain ⟨place, sign, rfl⟩ := List.length_eq_two.mp hlocals
  exact yields_itoa hholds rfl rfl h (mem_closure_of_needs hroutine (by simp)) number
    (Set.disjoint_left.mp hapart)

/-- `atoi` reads a number without a sign. -/
theorem Code.Offers.atoi (hname : "atoi" ∈ (closure names).map name)
    (hcall : caller.Calls program "atoi" [address] first) (hne : ds ≠ [])
    (hdigits : caller.memory.HoldsDigits address ds)
    (hapart : Disjoint (cells address (ds.length + 1)) (cells first 17)) :
    caller.Returns program first 17 (some (Nat.ofDigitChars 10 ds 0)) caller.around := by
  have hroutine := mem_closure hname rfl
  apply h.returns hroutine rfl hcall (by simp) (by simp)
  intro place taken value link locals hlocals hholds
  obtain ⟨sum, sign, rfl⟩ := List.length_eq_two.mp hlocals
  exact yields_atoi hholds rfl rfl h (mem_closure_of_needs hroutine (by simp)) hne hdigits
    (Set.disjoint_left.mp hapart)

/-- `atoi` reads a number behind a minus sign. -/
theorem Code.Offers.atoi_neg (hname : "atoi" ∈ (closure names).map name)
    (hcall : caller.Calls program "atoi" [address] first) (hfirst : caller.memory address = 45)
    (hdigits : caller.memory.HoldsDigits (address + 1) ds)
    (hapart : Disjoint (cells address (ds.length + 2)) (cells first 17)) :
    caller.Returns program first 17 (some (-Nat.ofDigitChars 10 ds 0)) caller.around := by
  have hroutine := mem_closure hname rfl
  apply h.returns hroutine rfl hcall (by simp) (by simp)
  intro place taken value link locals hlocals hholds
  obtain ⟨sum, sign, rfl⟩ := List.length_eq_two.mp hlocals
  exact yields_atoi_neg hholds rfl rfl h (mem_closure_of_needs hroutine (by simp)) hfirst hdigits
    (Set.disjoint_left.mp hapart)

/-- `atoi` reads back the text of a number. -/
theorem Code.Offers.atoi_decimal (hname : "atoi" ∈ (closure names).map name) {number : Int}
    (hcall : caller.Calls program "atoi" [address] first)
    (hstring : caller.memory.HoldsString address (codes (decimal number)))
    (hapart : Disjoint (cells address ((decimal number).length + 1)) (cells first 17)) :
    caller.Returns program first 17 (some number) caller.around := by
  cases number with
  | ofNat n =>
    rw [decimal_ofNat] at hstring hapart
    have hread := h.atoi hname hcall Nat.toDigits_ne_nil
      (hstring.digits fun c => isDigit_of_mem_toDigits) hapart
    rwa [Nat.ofDigitChars_ten_toDigits] at hread
  | negSucc n =>
    rw [decimal_negSucc] at hstring hapart
    obtain ⟨hfirst, -, hrest⟩ := Memory.HoldsString.cons_iff.mp hstring
    have hread := h.atoi_neg hname hcall hfirst (hrest.digits fun c => isDigit_of_mem_toDigits) hapart
    rwa [Nat.ofDigitChars_ten_toDigits] at hread

/-- `parseint` reads the number at a pointer, and leaves the pointer behind it. -/
theorem Code.Offers.parseint (hname : "parseint" ∈ (closure names).map name)
    (hcall : caller.Calls program "parseint" [pointer] first) (hread : caller.memory pointer = address)
    (hdigits : caller.memory.HoldsDigits address ds)
    (hapart : Disjoint (cells address (ds.length + 1)) (cells first 23))
    (hpointer : pointer ∉ cells first 23) (hout : pointer ∉ cells address (ds.length + 1)) :
    caller.Returns program first 23 (some (Nat.ofDigitChars 10 ds 0))
      (caller.around.store pointer (address + ds.length)) := by
  have hroutine := mem_closure hname rfl
  have hneeds : ∀ need ∈ ["isdigit", "chartoint", "pow"], need ∈ (closure names).map name :=
    fun need hneed => mem_closure_of_needs hroutine hneed
  apply h.returns hroutine rfl hcall (by simp) (by simp)
  intro place taken value link locals hlocals hholds
  obtain ⟨sum, locals, rfl⟩ := List.exists_of_length_succ locals hlocals
  obtain ⟨count, start, left, rfl⟩ := List.length_eq_three.mp (Nat.succ.inj hlocals)
  exact yields_parseint hholds rfl rfl h hpointer hdigits (Set.disjoint_left.mp hapart) hout hread
    (hneeds _ (by simp)) (hneeds _ (by simp)) (hneeds _ (by simp))

end Calls

end MiniC.Machine
