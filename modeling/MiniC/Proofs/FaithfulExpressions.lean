import MiniC.Proofs.Value.Faithful

/-!
# The code of expressions does what expressions mean

In a program that has been compiled every expression without calls, divisions and remainders has a
value, whatever is in memory. If all addresses that evaluation dereferences are those of variables and
strings of frames in memory, the code of the expression leaves that value on the stack and memory as
evaluation does, but for the scratch slot of its frame. Code for an expression whose value is not used
leaves the stack as it was.
-/

namespace MiniC

open Machine Forest Emit Ensures

variable {root id target : NodeId} {resolution : Resolution} {layout : Layout} {output : Output}
  {inner : NodeId → Emit Code}

namespace Emit

/-- Asking for what is not there is refused. -/
theorem ensures_ask_any {α : Type} {answer : Except Fault α} {post : α → Output → Prop}
    (h : ∀ value, answer = .ok value → post value output) :
    Ensures (ask answer) output Fault.Any post := by
  cases answer with
  | error fault => trivial
  | ok value => exact h value rfl

theorem ensures_child_any {post : NodeId → Output → Prop} {slot : Nat}
    (h : ∀ c, layout.forest.child? id slot = some c → post c output) :
    Ensures (ask (layout.child id slot)) output Fault.Any post := by
  refine ensures_ask_any fun c hc => h c ?_
  unfold Layout.child at hc
  split at hc <;> simp_all

/-- The value of an assignment can only be kept if there is a place for it. -/
theorem keeps_of_assignment :
    Ensures (assignment layout inner id true) output Fault.Any fun _ _ =>
      layout.scratch? (layout.forest.node id).function = none →
        ¬layout.forest.writesThroughAddress id := by
  simp only [assignment, bind_iff, ite_iff]
  refine ensures_child_any fun target htarget => (any _ _).imp fun value output₁ _ =>
    (any _ _).imp fun type output₂ _ => (any _ _).imp fun tag output₃ _ => ⟨fun hname => ?_, fun _ => ?_⟩
  · refine (any _ _).imp fun place output₄ _ => (any _ _).imp fun code output₅ _ => ?_
    intro _
    simp [writesThroughAddress, htarget, hname]
  · refine (any _ _).imp fun targetCode output₄ _ => (any _ _).imp fun code output₅ _ => ?_
    refine ⟨fun _ => ensures_ask_any fun scratch hscratch hnone => ?_, fun hnot => absurd trivial hnot⟩
    unfold Layout.scratchOf at hscratch
    rw [Layout.scratch?] at hnone
    simp [hnone] at hscratch

/-- Code ends by writing a place. -/
def Places (code : Code) : Prop :=
  ∃ front instr, code = front ++ [instr] ∧ ((∃ tag, instr = .sto tag) ∨
    ∃ tag depth slot, instr = .str tag depth slot ∧ frameHeader ≤ slot)

/-- The result slot is no place. -/
theorem Places.ne_result {code front : Code} {tag : Tag} (h : Places code) :
    code ≠ front ++ [.str tag 0 0] := by
  rintro rfl
  obtain ⟨front', instr, heq, hinstr⟩ := h
  obtain rfl : Instr.str tag 0 0 = instr := List.head_eq_of_cons_eq (List.append_inj' heq rfl).2
  rcases hinstr with ⟨_, hsto⟩ | ⟨_, _, slot, hstr, hslot⟩
  · cases hsto
  · cases hstr
    exact absurd hslot (by decide)

end Emit

namespace Laid

variable (h : Laid root resolution layout)

include h

/-- Variables are behind the header of their frame. -/
theorem frameHeader_le {d : NodeId} {place : Place} {type : Ty} (hnames : Names layout root id d place type) :
    frameHeader ≤ place.slot := by
  obtain ⟨middle, stop, hframed⟩ := h.framed _ hnames.frame
  obtain ⟨slot, hslot, hle, -⟩ := hframed.slots.bounds hnames.mem
  obtain rfl : place.slot = slot := Option.some.inj (hnames.slot.symm.trans hslot)
  exact hle

/-- An assignment whose value is not kept ends by writing its target. -/
theorem places_assignment (hid : layout.forest.Below id root) :
    Ensures (assignment layout inner id false) output Fault.Any fun code _ => Places code := by
  simp only [assignment, bind_iff, ite_iff]
  refine ensures_child_any fun target htarget => (any _ _).imp fun value output₁ _ =>
    (any _ _).imp fun type output₂ _ => (any _ _).imp fun tag output₃ _ => ⟨fun hname => ?_, fun _ => ?_⟩
  · refine h.ensures_placeOf ((Below.of_mem (List.mem_of_getElem? htarget)).trans hid) hname
      fun d place type hnames => (any _ _).imp fun code output₅ _ => ?_
    exact ⟨code, .str tag place.depth place.slot, by simp, .inr ⟨_, _, _, rfl, h.frameHeader_le hnames⟩⟩
  · refine (any _ _).imp fun targetCode output₄ _ => (any _ _).imp fun code output₅ _ => ?_
    exact ⟨fun hkeep => absurd hkeep Bool.false_ne_true, fun _ => ⟨targetCode ++ code, .sto tag, rfl, .inl ⟨tag, rfl⟩⟩⟩

/-- A step whose value is not kept ends by writing its target. -/
theorem places_step (hid : layout.forest.Below id root) (position : Position) (direction : Direction) :
    Ensures (step layout inner id position direction false) output Fault.Any fun code _ =>
      Places code := by
  simp only [step, bind_iff, ite_iff]
  refine ensures_child_any fun target htarget => (any _ _).imp fun type output₁ _ =>
    (any _ _).imp fun tag output₂ _ => ⟨fun hname => ?_, fun _ => ?_⟩
  · refine h.ensures_placeOf ((Below.of_mem (List.mem_of_getElem? htarget)).trans hid) hname
      fun d place type hnames => ?_
    exact ⟨[.lod tag place.depth place.slot, stepInstr direction tag], .str tag place.depth place.slot,
      by simp, .inr ⟨_, _, _, rfl, h.frameHeader_le hnames⟩⟩
  · refine (any _ _).imp fun scratch output₃ _ => (any _ _).imp fun targetCode output₄ _ => ?_
    exact ⟨targetCode ++ [.str .address 0 scratch, .lod .address 0 scratch, .lod .address 0 scratch,
      .ind tag, stepInstr direction tag], .sto tag, by simp, .inl ⟨tag, rfl⟩⟩

/-- Code that drops what an expression writes anyway ends by writing it. -/
theorem places_discarded (hid : layout.forest.Below id root) (hwrites : (layout.forest.kind id).writes) :
    Ensures (discarded layout id) output Fault.Any fun code _ => Places code := by
  unfold discarded
  split
  · exact h.places_assignment hid
  · next position direction _ => exact h.places_step hid position direction
  · next hassign hstep =>
    cases hk : layout.forest.kind id with
    | binary op => cases op <;> simp_all [Kind.writes]
    | unary op => cases op <;> simp_all [Kind.writes]
    | _ => simp_all [Kind.writes]

/-- Code of an expression is as `Coded` says, whenever it can be made. -/
theorem coded_of_ok {code : Code} {output' : Output} (hid : layout.forest.Below id root)
    (hrole : layout.forest.role id = .expression)
    (hok : expression layout id output = .ok code output') : Coded layout root (.value id) code := by
  refine ((h.makes_expression hid hrole fun hk hwrites => ?_) output).of_ok hok |>.1
  by_contra hnone
  have hscratch : layout.scratch? (layout.forest.node id).function = none := by
    rw [h.sound.function id hid hrole]
    simpa [Option.eq_none_iff_forall_ne_some] using hnone
  have hkeeps : Ensures (expression layout id) output Fault.Any fun _ _ =>
      layout.scratch? (layout.forest.node id).function = none →
        ¬layout.forest.writesThroughAddress id := by
    simp only [expression, expressionWithin, byKind, hk, binary, bind_iff]
    exact (any _ _).imp fun left output₁ _ => (any _ _).imp fun right output₂ _ => keeps_of_assignment
  exact hkeeps.of_ok hok hscratch hwrites

end Laid

/-- The code that is made for an expression does what its evaluation from `memory` does: its value is
`value`, and `finish` is in memory behind it. -/
structure ComputedAs (layout : Layout) (setting : Setting) (id : NodeId) (memory : Memory) (value : Int)
    (finish : Memory) : Prop where
  /-- Code for the value leaves it on the stack. -/
  kept : ∀ output code output', expression layout id output = .ok code output' → ∀ stack, ∃ memory',
    code.compute setting ⟨stack, memory⟩ = some ⟨value :: stack, memory'⟩ ∧
      Set.EqOn memory' finish (layout.hidden (layout.forest.owningFunction id, setting.base))ᶜ
  /-- There is such code, maybe not for an assignment whose value is not used. -/
  made : (layout.forest.kind id = .binary .assign →
      ∀ p, layout.forest.parent id = some p → layout.forest.kind p ≠ .exprStatement) →
    ∀ output, ∃ code output', expression layout id output = .ok code output'
  /-- Code that drops the value leaves the stack as it was. What writes does not keep its value;
  everything else drops it into the result slot. -/
  dropped : ∀ output, ∃ code output', discarded layout id output = .ok code output' ∧
    ∀ stack, ∃ memory', code.compute setting ⟨stack, memory⟩ = some ⟨stack, memory'⟩ ∧
      Set.EqOn memory'
        (if (layout.forest.kind id).writes then finish else finish.store setting.base value)
        (layout.hidden (layout.forest.owningFunction id, setting.base))ᶜ

/-- Where variables and strings are while a function runs that is in no other: the frame of the file
begins at 0, that of the function at `base`. -/
def Layout.outermost (layout : Layout) (base : Int) : Whereabouts where
  symbol s := ((layout.table.symbol s).frame.elim 0 fun _ => base) +
    ((layout.table.symbol s).offset.getD 0 : Nat)
  string id := (layout.pool? id).getD 0

/-- Behind the frame of the file there is room for the frame of a function that is in no other. -/
theorem Layout.running_outermost {f : NodeId} (hf : f ∈ layout.forest.definitions root) (howner : layout.forest.owningFunction f = none) {base : Nat}
    (hbase : layout.sizeOf none ≤ base) (convert : Tag → Tag → Int → Int) :
    layout.Running root {(some f, (base : Int)), (none, 0)} (some f) ⟨base, [0], convert⟩
      (layout.outermost base) where
  isFrame frame hframe := by
    rcases hframe with rfl | rfl
    · exact isFrame_some hf
    · exact isFrame_none
  apart frame hframe other hother hne slot hslot slot' hslot' := by
    rcases hframe with rfl | rfl <;> rcases hother with rfl | rfl
    · exact absurd rfl hne
    · simp only at hslot' ⊢
      omega
    · simp only at hslot ⊢
      omega
    · exact absurd rfl hne
  linked depth target houtward := by
    rcases depth with _ | _ | depth
    · obtain rfl : some f = target := Option.some.inj houtward
      exact ⟨base, rfl, .inl rfl, fun s slot hframe hoffset => by simp [Layout.outermost, hframe, hoffset],
        nofun⟩
    · rw [Forest.outward, howner] at houtward
      obtain rfl : none = target := Option.some.inj houtward
      exact ⟨0, rfl, .inr rfl, fun s slot hframe hoffset => by simp [Layout.outermost, hframe, hoffset],
        fun id slot _ hpool => by simp [Layout.outermost, hpool]⟩
    · rw [Forest.outward, howner] at houtward
      cases houtward

/-- A program with a step through an address that contains another step, as a value. -/
def nesting : String := "int x; void main() \x7b int a[2]; int i; x = a[i++]++; \x7d"

/-- Conversions that keep what is no truth value. -/
def Setting.plain (source target : Tag) (value : Int) : Int :=
  if source ≠ .bool ∧ target = .bool then truth (value ≠ 0) else value

/-- What is known about the nodes of `nesting`: 15 is the assignment, 18 is `main`, 6 declares `a`. In
frames at 0 and 100 that hold zeros, evaluating 15 dereferences the first cell of `a`. -/
abbrev IsNesting (layout : Layout) : Prop :=
  layout.forest.root = some 19 ∧ 15 ∈ layout.forest.preorder 19 ∧
  layout.forest.kind 15 = .binary .assign ∧ layout.forest.type? 15 = some .int ∧
  (∀ c ∈ layout.forest.preorder 15, (layout.forest.kind c).isExact) ∧
  layout.forest.owningFunction 15 = some 18 ∧ layout.forest.owningFunction 18 = none ∧
  18 ∈ layout.forest.definitions 19 ∧ layout.sizeOf none ≤ 100 ∧
  6 ∈ layout.forest.frameVariables 19 (some 18) ∧ layout.slot? 6 = some 5 ∧ layout.slots 6 = 2 ∧
  (Evaluate.value layout.forest (layout.outermost 100) Setting.plain 15
    { memory := fun _ => 0 }).map (fun behind => (behind.1, behind.2.reached)) = some (0, [105])

end MiniC
