import MiniC.Proofs.Value.Machine

/-!
# Texts in memory

Characters stand one behind the other in memory, each as its code. A string ends in a zero, which is
the code of none of its characters (`Memory.HoldsString`). `Memory.write` overwrites cells that stand
one behind the other.
-/

namespace MiniC.Machine

/-- So many cells from an address on. -/
abbrev cells (address : Int) (count : Nat) : Set Int :=
  {cell | address ≤ cell ∧ cell < address + count}

theorem mem_cells_head (address : Int) (count : Nat) : address ∈ cells address (count + 1) := by
  constructor <;> omega

theorem cells_tail_subset (address : Int) (count : Nat) :
    cells (address + 1) count ⊆ cells address (count + 1) := by
  intro cell hcell
  simp only [cells, Set.mem_ofPred_eq] at hcell ⊢
  omega

theorem cells_mono (address : Int) {count count' : Nat} (h : count ≤ count') :
    cells address count ⊆ cells address count' := by
  intro cell hcell
  simp only [cells, Set.mem_ofPred_eq] at hcell ⊢
  omega

/-- Cells end before others begin. -/
theorem disjoint_cells {address first : Int} {count size : Nat} (h : address + count ≤ first) :
    Disjoint (cells address count) (cells first size) := by
  rw [Set.disjoint_left]
  intro cell hcell hcell'
  simp only [cells, Set.mem_ofPred_eq] at hcell hcell'
  omega

theorem not_mem_cells_succ (address : Int) (count : Nat) : address ∉ cells (address + 1) count := by
  intro h
  have hle := h.1
  omega

/-- The cells that characters are held in. -/
def codes (cs : List Char) : List Int := cs.map fun c => Int.ofNat c.toNat

@[simp] theorem codes_nil : codes [] = [] := rfl

@[simp] theorem codes_cons (c : Char) (cs : List Char) :
    codes (c :: cs) = (c.toNat : Int) :: codes cs := rfl

@[simp] theorem codes_append (cs cs' : List Char) : codes (cs ++ cs') = codes cs ++ codes cs' :=
  List.map_append

@[simp] theorem length_codes (cs : List Char) : (codes cs).length = cs.length := List.length_map _

@[simp] theorem codes_reverse (cs : List Char) : codes cs.reverse = (codes cs).reverse :=
  List.map_reverse

namespace Memory

variable {memory memory' : Memory} {address cell value : Int} {values values' : List Int}

/-- Values stand one behind the other from an address on. -/
def Lists (memory : Memory) : Int → List Int → Prop
  | _, [] => True
  | address, value :: values => memory address = value ∧ memory.Lists (address + 1) values

/-- What stands in so many cells from an address on. -/
def range (memory : Memory) (address : Int) (count : Nat) : List Int :=
  (List.range count).map fun i : Nat => memory (address + i)

/-- A string stands at an address: the codes of its characters, of which none is zero, and a zero. -/
structure HoldsString (memory : Memory) (address : Int) (values : List Int) : Prop where
  lists : memory.Lists address values
  closed : memory (address + values.length) = 0
  noneCloses : 0 ∉ values

/-- The memory with values one behind the other from an address on. -/
def write (memory : Memory) : Int → List Int → Memory
  | _, [] => memory
  | address, value :: values => (memory.store address value).write (address + 1) values

@[simp] theorem write_nil : memory.write address [] = memory := rfl

@[simp] theorem write_cons :
    memory.write address (value :: values) = (memory.store address value).write (address + 1) values :=
  rfl

theorem write_append :
    memory.write address (values ++ values') =
      (memory.write address values).write (address + values.length) values' := by
  induction values generalizing memory address with
  | nil => simp
  | cons value values ih =>
    rw [List.cons_append, write_cons, write_cons, ih, List.length_cons]
    congr 1
    omega

/-- Other cells are kept. -/
theorem write_of_not_mem (h : cell ∉ cells address values.length) :
    memory.write address values cell = memory cell := by
  induction values generalizing memory address with
  | nil => rfl
  | cons value values ih =>
    simp only [cells, Set.mem_ofPred_eq, List.length_cons, not_and, not_lt] at h ih
    rw [write_cons, ih (by omega), store_of_ne (by omega)]

/-- Memories that have the same in a cell do so when both are written alike. -/
theorem write_congr (h : memory cell = memory' cell) :
    memory.write address values cell = memory'.write address values cell := by
  induction values generalizing memory memory' address with
  | nil => exact h
  | cons value values ih =>
    apply ih
    by_cases heq : cell = address
    · rw [heq, store_self, store_self]
    · rw [store_of_ne heq, store_of_ne heq, h]

/-- A cell apart from the others may be written before them or after them. -/
theorem store_write (h : cell ∉ cells address values.length) :
    (memory.write address values).store cell value = (memory.store cell value).write address values := by
  funext other
  by_cases heq : other = cell
  · rw [heq, store_self, write_of_not_mem h, store_self]
  · rw [store_of_ne heq]
    exact write_congr (store_of_ne heq).symm

theorem lists_iff : memory.Lists address values ↔
    ∀ (i : Nat) value, values[i]? = some value → memory (address + i) = value := by
  induction values generalizing address with
  | nil => simp [Lists]
  | cons first values ih =>
    rw [Lists, ih]
    constructor
    · rintro ⟨hfirst, hrest⟩ i value hvalue
      cases i with
      | zero => simpa [hfirst] using hvalue
      | succ i =>
        rw [← hrest i value (by simpa using hvalue)]
        congr 1
        omega
    · intro h
      refine ⟨by simpa using h 0 first rfl, fun i value hvalue => ?_⟩
      rw [← h (i + 1) value (by simpa using hvalue)]
      congr 1
      omega

@[simp] theorem length_range (count : Nat) : (memory.range address count).length = count := by
  simp [range]

theorem lists_range {count : Nat} : memory.Lists address (memory.range address count) := by
  rw [lists_iff]
  intro i value hvalue
  obtain ⟨hi, rfl⟩ := List.getElem?_eq_some_iff.mp hvalue
  simp [range]

theorem lists_append : memory.Lists address (values ++ values') ↔
    memory.Lists address values ∧ memory.Lists (address + values.length) values' := by
  induction values generalizing address with
  | nil => simp [Lists]
  | cons value values ih =>
    rw [List.cons_append, Lists, Lists, ih, and_assoc, List.length_cons, Int.natCast_succ,
      Int.add_assoc, Int.add_comm 1]

/-- The same values stand in memories that have the same there. -/
theorem Lists.congr (h : memory.Lists address values)
    (heq : Set.EqOn memory memory' (cells address values.length)) : memory'.Lists address values := by
  rw [lists_iff] at h ⊢
  intro i value hvalue
  have hi := (List.getElem?_eq_some_iff.mp hvalue).1
  rw [← h i value hvalue, heq]
  constructor <;> omega

/-- Values stay where a cell apart from them is written. -/
theorem Lists.store (h : memory.Lists address values) (hout : cell ∉ cells address values.length) :
    (memory.store cell value).Lists address values := by
  apply h.congr
  intro other hother
  rw [store_of_ne]
  rintro rfl
  exact hout hother

theorem lists_write : (memory.write address values).Lists address values := by
  induction values generalizing memory address with
  | nil => trivial
  | cons value values ih =>
    refine ⟨?_, ih⟩
    rw [write_cons, write_of_not_mem (not_mem_cells_succ _ _), store_self]

/-- Writing what is there makes no difference. -/
theorem store_eq_self (h : memory address = value) : memory.store address value = memory := by
  funext cell
  by_cases heq : cell = address
  · rw [heq, store_self, h]
  · rw [store_of_ne heq]

theorem Lists.write_eq (h : memory.Lists address values) : memory.write address values = memory := by
  induction values generalizing address with
  | nil => rfl
  | cons value values ih => rw [write_cons, store_eq_self h.1, ih h.2]

theorem store_store (value' : Int) :
    (memory.store address value).store address value' = memory.store address value' := by
  funext cell
  by_cases heq : cell = address
  · rw [heq, store_self, store_self]
  · rw [store_of_ne heq, store_of_ne heq, store_of_ne heq]

/-- What is written last counts. -/
theorem write_write (h : values.length = values'.length) :
    (memory.write address values).write address values' = memory.write address values' := by
  induction values generalizing memory address values' with
  | nil => rw [write_nil]
  | cons value values ih =>
    cases values' with
    | nil => cases h
    | cons value' values' =>
      rw [write_cons, write_cons, store_write (not_mem_cells_succ _ _), ih (Nat.succ.inj h), store_store]
      rfl

/-- The values before a last one are written anew. -/
theorem write_append_write (h : values.length = values'.length) :
    (memory.write address (values ++ [value])).write address values' =
      memory.write address (values' ++ [value]) := by
  have hout : address + values.length ∉ cells address values'.length := by
    rw [h]
    intro hcell
    exact lt_irrefl _ hcell.2
  rw [write_append, write_cons, write_nil, ← store_write hout, write_write h, write_append, ← h,
    write_cons, write_nil]

/-- Values are reversed by swapping the outer ones and reversing those in between. -/
theorem write_reverse (first last : Int) :
    memory.write address (first :: (values ++ [last])).reverse =
      ((memory.store address last).store (address + 1 + values.length) first).write (address + 1)
        values.reverse := by
  have hends : (first :: (values ++ [last])).reverse = last :: (values.reverse ++ [first]) := by simp
  have hout : address + 1 + values.length ∉ cells (address + 1) values.reverse.length := by
    rw [List.length_reverse]
    intro h
    exact lt_irrefl _ h.2
  rw [hends, write_cons, write_append, List.length_reverse, write_cons, write_nil, store_write hout]

namespace HoldsString

theorem nil_iff : memory.HoldsString address [] ↔ memory address = 0 := by
  constructor
  · intro h
    simpa using h.closed
  · intro h
    exact ⟨trivial, by simpa using h, List.not_mem_nil⟩

theorem cons_iff : memory.HoldsString address (value :: values) ↔
    memory address = value ∧ value ≠ 0 ∧ memory.HoldsString (address + 1) values := by
  have hlast : address + (value :: values).length = address + 1 + values.length := by
    rw [List.length_cons]
    omega
  constructor
  · rintro ⟨⟨hfirst, hrest⟩, hclosed, hnone⟩
    rw [List.mem_cons, not_or] at hnone
    exact ⟨hfirst, Ne.symm hnone.1, hrest, hlast ▸ hclosed, hnone.2⟩
  · rintro ⟨hfirst, hne, hrest, hclosed, hnone⟩
    refine ⟨⟨hfirst, hrest⟩, hlast ▸ hclosed, ?_⟩
    rw [List.mem_cons, not_or]
    exact ⟨Ne.symm hne, hnone⟩

theorem ne_zero (h : memory.HoldsString address values) {i : Nat} (hi : i < values.length) :
    memory (address + i) ≠ 0 := by
  rw [lists_iff.mp h.lists i values[i] (List.getElem?_eq_getElem hi)]
  intro hzero
  apply h.noneCloses
  rw [← hzero]
  exact List.getElem_mem hi

/-- The same string stands in a memory that has the same there. -/
theorem congr (h : memory.HoldsString address values)
    (heq : Set.EqOn memory memory' (cells address (values.length + 1))) :
    memory'.HoldsString address values := by
  constructor
  · exact h.lists.congr (heq.mono (cells_mono address (Nat.le_succ _)))
  · rw [← h.closed, heq]
    constructor <;> omega
  · exact h.noneCloses

/-- A string stands where it and a zero behind it have been written. -/
theorem write (h : 0 ∉ values) : (memory.write address (values ++ [0])).HoldsString address values := by
  have hwritten : (memory.write address (values ++ [0])).Lists address (values ++ [0]) := lists_write
  have hlists := lists_append.mp hwritten
  exact ⟨hlists.1, hlists.2.1, h⟩

/-- A string that has been reversed is a string. -/
theorem write_reverse (h : memory.HoldsString address values) :
    (memory.write address values.reverse).HoldsString address values.reverse := by
  constructor
  · exact lists_write
  · rw [List.length_reverse, write_of_not_mem, h.closed]
    rw [List.length_reverse]
    intro hcell
    exact lt_irrefl _ hcell.2
  · rw [List.mem_reverse]
    exact h.noneCloses

/-- Reversing a string twice leaves every cell as it was. -/
theorem write_reverse_twice (h : memory.HoldsString address values) :
    (memory.write address values.reverse).write address values = memory := by
  rw [write_write values.length_reverse, h.lists.write_eq]

end HoldsString

end Memory

end MiniC.Machine
