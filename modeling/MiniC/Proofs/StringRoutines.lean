import MiniC.Proofs.Labels
import MiniC.Proofs.Run.Strings

/-!
# String routines

What `strlen`, `strcmp`, `strrev` and `print` do to whoever calls them: on strings of any length that
lie outside of the cells of the routine, each comes back, with its result or with what it writes, and
changes nothing else around its own cells.
-/

namespace MiniC

open Emit Machine

/-- A compiled program offers the library routines that it calls. -/
theorem Compilation.exists_offers {source : String} (c : Compilation source) :
    ∃ names, c.program.code.Offers names ∧
      (codeOf c.sections.initial ++ codeOf c.sections.functions.flatten).routines ⊆ names := by
  obtain ⟨names, session, -, hlibrary, -, hcalled⟩ := c.exists_library
  have hnodup := c.nodup_labels
  rw [c.frames_eq.1, hlibrary] at hnodup
  refine ⟨names, ?_, hcalled⟩
  rw [c.frames_eq.1, hlibrary]
  exact .append hnodup

namespace Machine

variable {program : Code} {names : List String} {caller : Status} {first address : Int}
  {values : List Int}

/-- A string stands at an address, apart from the cells that a routine has to itself. -/
structure Status.HasString (status : Status) (address : Int) (values : List Int) (first : Int)
    (size : Nat) : Prop where
  holds : status.memory.HoldsString address values
  apart : Disjoint (cells address (values.length + 1)) (cells first size)

/-- A string that is reversed, and then once more, leaves the memory as it was. -/
theorem Code.Offers.strrev_twice (h : program.Offers names) (hname : "strrev" ∈ names)
    {status caller' : Status} {first' : Int} (hstring : caller.HasString address values first 10)
    (hback : caller.Returned first 10 none
      { caller.around with memory := caller.memory.write address values.reverse } status)
    (hcall : caller'.Calls program "strrev" [address] first')
    (hapart : Disjoint (cells address (values.length + 1)) (cells first' 10))
    (hkept : ∀ cell ∉ cells first 10 ∪ cells first' 10, caller'.memory cell = status.memory cell) :
    ∃ status', program.Runs caller' status' ∧
      ∀ cell ∉ cells first 10 ∪ cells first' 10, status'.memory cell = caller.memory cell := by
  have hmemory : ∀ cell ∉ cells first 10 ∪ cells first' 10,
      caller'.memory cell = caller.memory.write address values.reverse cell := by
    intro cell hcell
    rw [hkept cell hcell, hback.memory_eq cell fun hmem => hcell (.inl hmem)]
  have hreversed : caller'.memory.HoldsString address values.reverse := by
    apply hstring.holds.write_reverse.congr
    intro cell hcell
    rw [List.length_reverse] at hcell
    refine (hmemory cell ?_).symm
    rintro (hmem | hmem)
    · exact Set.disjoint_left.mp hstring.apart hcell hmem
    · exact Set.disjoint_left.mp hapart hcell hmem
  rw [← values.length_reverse] at hapart
  obtain ⟨status', hruns, hback'⟩ :=
    h.strrev (Routine.named_mem_closure hname rfl) hcall hreversed hapart
  refine ⟨status', hruns, fun cell hcell => ?_⟩
  rw [hback'.memory_eq cell fun hmem => hcell (.inr hmem), List.reverse_reverse,
    ← hstring.holds.write_reverse_twice]
  exact Memory.write_congr (hmemory cell hcell)

/-- The string routines of a program, wherever they stand in it and however their jump targets are
numbered: each comes back from every call with strings that lie outside of its cells. `strlen` counts
the characters, `strcmp` tells equal strings from others, also where they overlap, `strrev` reverses a
string in place, which undoes itself, and `print` writes the characters. -/
theorem string_routines_meet_contracts (h : program.Offers names) :
    ("strlen" ∈ names → caller.Calls program "strlen" [address] first →
      caller.HasString address values first 9 →
      caller.Returns program first 9 (some values.length) caller.around) ∧
    (∀ other values', "strcmp" ∈ names → caller.Calls program "strcmp" [address, other] first →
      caller.HasString address values first 9 → caller.HasString other values' first 9 →
      caller.Returns program first 9 (some (if values = values' then 1 else 0)) caller.around) ∧
    ("strrev" ∈ names → caller.Calls program "strrev" [address] first →
      caller.HasString address values first 10 →
      caller.Returns program first 10 none
        { caller.around with memory := caller.memory.write address values.reverse } ∧
      ∀ status caller' first', caller.Returned first 10 none
          { caller.around with memory := caller.memory.write address values.reverse } status →
        caller'.Calls program "strrev" [address] first' →
        Disjoint (cells address (values.length + 1)) (cells first' 10) →
        (∀ cell ∉ cells first 10 ∪ cells first' 10, caller'.memory cell = status.memory cell) →
        ∃ status', program.Runs caller' status' ∧
          ∀ cell ∉ cells first 10 ∪ cells first' 10, status'.memory cell = caller.memory cell) ∧
    ("print" ∈ names → caller.Calls program "print" [address] first →
      caller.HasString address values first 8 →
      caller.Returns program first 8 none
        { caller.around with output := caller.output ++ values.map (.char, ·) }) := by
  refine ⟨?_, ?_, ?_, ?_⟩
  · intro hname hcall hstring
    exact h.strlen (Routine.named_mem_closure hname rfl) hcall hstring.holds hstring.apart
  · intro other values' hname hcall hstring hother
    exact h.strcmp (Routine.named_mem_closure hname rfl) hcall hstring.holds hother.holds
      hstring.apart hother.apart
  · intro hname hcall hstring
    constructor
    · exact h.strrev (Routine.named_mem_closure hname rfl) hcall hstring.holds hstring.apart
    · intro status caller' first' hback hcall' hapart hkept
      exact h.strrev_twice hname hstring hback hcall' hapart hkept
  · intro hname hcall hstring
    exact h.print (Routine.named_mem_closure hname rfl) hcall hstring.holds hstring.apart

/-- Calls of the string routines, and these. -/
def stringProgram : Code :=
  [.cup 1 (.named "strlen"), .cup 2 (.named "strcmp"), .cup 1 (.named "strrev"),
    .cup 1 (.named "strrev"), .cup 1 (.named "print")] ++
  (Emit.routines {} (Routine.closure ["strlen", "strcmp", "strrev", "print"])).1

theorem stringProgram_offers : stringProgram.Offers ["strlen", "strcmp", "strrev", "print"] := by
  apply Code.Offers.append
  exact (Emit.supplies_closure _ _).nodup

/-- A program at one of its calls, with the strings "ab" at 0 and "b" at 1. -/
def stringStatus (next : Nat) : Status :=
  { next, frame := 0, top := 9, bound := 0, input := [], output := []
    memory := Memory.write (fun _ => 0) 0 [97, 98] }

theorem stringStatus_hasString (next size : Nat) (arguments : List Int) :
    ((stringStatus next).prepared 10 arguments).HasString 0 [97, 98] 10 size ∧
      ((stringStatus next).prepared 10 arguments).HasString 1 [98] 10 size := by
  have hkept : Set.EqOn (stringStatus next).memory ((stringStatus next).prepared 10 arguments).memory
      (cells 0 3) := by
    intro cell hcell
    apply (Status.prepared_memory _).symm
    simp only [cells, Set.mem_ofPred_eq] at hcell ⊢
    omega
  have hstring : (stringStatus next).memory.HoldsString 0 [97, 98] := ⟨⟨rfl, rfl, trivial⟩, rfl, by decide⟩
  have hheld := hstring.congr hkept
  exact ⟨⟨hheld, disjoint_cells (by decide)⟩,
    ⟨(Memory.HoldsString.cons_iff.mp hheld).2.2, disjoint_cells (by decide)⟩⟩

theorem string_routines_meet_contracts_ab :
    ((stringStatus 0).prepared 10 [0]).Returns stringProgram 10 9 (some 2)
      ((stringStatus 0).prepared 10 [0]).around ∧
    ((stringStatus 1).prepared 10 [0, 1]).Returns stringProgram 10 9 (some 0)
      ((stringStatus 1).prepared 10 [0, 1]).around ∧
    (∃ status status', stringProgram.Runs ((stringStatus 2).prepared 10 [0]) status ∧
      status.memory.HoldsString 0 [98, 97] ∧
      stringProgram.Runs (status.prepared 10 [0]) status' ∧ status'.memory.HoldsString 0 [97, 98]) ∧
    ((stringStatus 4).prepared 10 [0]).Returns stringProgram 10 8 none
      { ((stringStatus 4).prepared 10 [0]).around with output := [(.char, 97), (.char, 98)] } := by
  have hoffers := stringProgram_offers
  refine ⟨?_, ?_, ?_, ?_⟩
  · have hstring := stringStatus_hasString 0 9 [0]
    exact (string_routines_meet_contracts hoffers).1 (by simp) (.prepared rfl) hstring.1
  · have hstring := stringStatus_hasString 1 9 [0, 1]
    exact (string_routines_meet_contracts hoffers).2.1 1 [98] (by simp) (.prepared rfl) hstring.1
      hstring.2
  · have hstring := stringStatus_hasString 2 10 [0]
    obtain ⟨⟨status, hruns, hback⟩, htwice⟩ :=
      (string_routines_meet_contracts hoffers).2.2.1 (by simp) (.prepared rfl) hstring.1
    have hout : ∀ cell ∈ cells 0 3, cell ∉ cells 10 10 := Set.disjoint_left.mp hstring.1.apart
    have hcall : (status.prepared 10 [0]).Calls stringProgram "strrev" [0] 10 := by
      apply Status.Calls.prepared
      rw [hback.next_eq]
      rfl
    have hmarked : ∀ cell ∉ cells 10 10 ∪ cells 10 10,
        (status.prepared 10 [0]).memory cell = status.memory cell := by
      intro cell hcell
      apply Status.prepared_memory
      rw [Set.union_self] at hcell
      exact fun hmem => hcell (cells_mono 10 (by decide) hmem)
    obtain ⟨status', hruns', hmemory⟩ :=
      htwice status (status.prepared 10 [0]) 10 hback hcall hstring.1.apart hmarked
    refine ⟨status, status', hruns, ?_, hruns', ?_⟩
    · apply hstring.1.holds.write_reverse.congr
      intro cell hcell
      exact (hback.memory_eq cell (hout cell hcell)).symm
    · apply hstring.1.holds.congr
      intro cell hcell
      have hneither : cell ∉ cells 10 10 ∪ cells 10 10 := by simpa using hout cell hcell
      exact (hmemory cell hneither).symm
  · have hstring := stringStatus_hasString 4 8 [0]
    exact (string_routines_meet_contracts hoffers).2.2.2 (by simp) (.prepared rfl) hstring.1

end Machine

end MiniC
