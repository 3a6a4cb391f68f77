import MiniC.Proofs.Value.Frames

/-!
# The code of an expression computes its value

`Leaves` says what a piece of code does while evaluation goes from one state to another: if all
addresses that are dereferenced are those of data, it leaves values on top of the stack, and memory as
evaluation has it, but for the scratch slot. Along the rules for the code of expressions each form
leaves its value, or its address; `Leaves` composes.
-/

namespace MiniC

open Machine Forest Emit

namespace Kind

/-- The kinds with a meaning of their own: no calls, divisions and remainders. -/
def isExact : Kind → Bool
  | call .. | binary .remainder | binary (.arith .div) => false
  | _ => true

end Kind

/-- There are no calls, divisions and remainders in an expression. -/
def Forest.Exact (forest : Forest) (id : NodeId) : Prop :=
  ∀ c, forest.Below c id → (forest.kind c).isExact

theorem Forest.Exact.of_mem {forest : Forest} {id c : NodeId} (h : forest.Exact id)
    (hc : c ∈ forest.children id) : forest.Exact c :=
  fun n hn => h n (hn.trans (.of_mem hc))

/-- What code does while evaluation goes from `start` to `finish`. -/
structure Leaves (setting : Setting) (data hidden : Set Int) (code : Code) (start finish : Evaluation)
    (values : List Int) : Prop where
  reached : start.reached ⊆ finish.reached
  computes : (∀ cell ∈ finish.reached, cell ∈ data) → ∀ stack (memory : Memory),
    Set.EqOn memory start.memory hiddenᶜ → ∃ memory',
      code.compute setting ⟨stack, memory⟩ = some ⟨values ++ stack, memory'⟩ ∧
        Set.EqOn memory' finish.memory hiddenᶜ

namespace Leaves

variable {setting : Setting} {data hidden : Set Int} {code code' : Code}
  {start middle finish : Evaluation} {values values' : List Int}

/-- Code behind code goes on where that leaves off. -/
theorem extend (h : Leaves setting data hidden code start middle values)
    (hreached : middle.reached ⊆ finish.reached)
    (htail : (∀ cell ∈ finish.reached, cell ∈ data) → ∀ stack (memory : Memory),
      Set.EqOn memory middle.memory hiddenᶜ → ∃ memory',
        code'.compute setting ⟨values ++ stack, memory⟩ = some ⟨values' ++ stack, memory'⟩ ∧
          Set.EqOn memory' finish.memory hiddenᶜ) :
    Leaves setting data hidden (code ++ code') start finish values' := by
  refine ⟨List.Subset.trans h.reached hreached, fun hdata stack memory hmemory => ?_⟩
  obtain ⟨memory', hcode, hmemory'⟩ :=
    h.computes (fun cell hcell => hdata cell (hreached hcell)) stack memory hmemory
  obtain ⟨memory'', hcode', hmemory''⟩ := htail hdata stack memory' hmemory'
  exact ⟨memory'', by rw [Code.compute_append, hcode, Option.bind_some, hcode'], hmemory''⟩

/-- Values of code in front stay below those of the code behind it. -/
theorem append (h : Leaves setting data hidden code start middle values)
    (h' : Leaves setting data hidden code' middle finish values') :
    Leaves setting data hidden (code ++ code') start finish (values' ++ values) := by
  refine h.extend h'.reached fun hdata stack memory hmemory => ?_
  obtain ⟨memory', hcode, hmemory'⟩ := h'.computes hdata (values ++ stack) memory hmemory
  exact ⟨memory', by rw [hcode, List.append_assoc], hmemory'⟩

/-- Code that only works on the stack. -/
theorem stacked (h : Leaves setting data hidden code start finish values)
    (htail : ∀ stack (memory : Memory),
      code'.compute setting ⟨values ++ stack, memory⟩ = some ⟨values' ++ stack, memory⟩) :
    Leaves setting data hidden (code ++ code') start finish values' :=
  h.extend (List.Subset.refl _) fun _ stack memory hmemory => ⟨memory, htail stack memory, hmemory⟩

/-- Code that only pushes. -/
theorem pushed (hcode : ∀ stack (memory : Memory),
      code.compute setting ⟨stack, memory⟩ = some ⟨values ++ stack, memory⟩) :
    Leaves setting data hidden code start start values :=
  ⟨List.Subset.refl _, fun _ stack memory hmemory => ⟨memory, hcode stack memory, hmemory⟩⟩

end Leaves

/-- Code leaves the value of a step of evaluation, or nothing if the value is not kept. -/
def Runs (setting : Setting) (data hidden : Set Int) (step : Evaluate Int) (code : Code) (keep : Bool) :
    Prop :=
  ∀ start, ∃ value finish, step start = some (value, finish) ∧
    Leaves setting data hidden code start finish (if keep then [value] else [])

namespace Evaluate

variable {α β : Type} {start middle : Evaluation} {value : α}

/-- A step behind one that has ended. -/
theorem bind_eq {step : Evaluate α} (h : step start = some (value, middle)) (next : α → Evaluate β) :
    (step >>= next) start = next value middle := by
  simp [Bind.bind, StateT.bind, h]

@[simp] theorem ask_some (value : α) : ask (some value) = pure value := rfl

end Evaluate

namespace Runs

open Evaluate

variable {setting : Setting} {data hidden : Set Int} {step step' : Evaluate Int} {code code' tail : Code}
  {forest : Forest} {whereabouts : Whereabouts} {inner : NodeId → Evaluate Int} {id target value : NodeId}

/-- Code for a known value. -/
theorem pure {value : Int} (hcode : ∀ stack (memory : Memory),
    code.compute setting ⟨stack, memory⟩ = some ⟨value :: stack, memory⟩) :
    Runs setting data hidden (Pure.pure value) code true :=
  fun start => ⟨value, start, rfl, .pushed hcode⟩

/-- An operation on a value. -/
theorem map (h : Runs setting data hidden step code true) (f : Int → Int)
    (htail : ∀ value stack memory,
      tail.compute setting ⟨value :: stack, memory⟩ = some ⟨f value :: stack, memory⟩) :
    Runs setting data hidden (step >>= fun value => Pure.pure (f value)) (code ++ tail) true := by
  intro start
  obtain ⟨value, finish, hstep, hcode⟩ := h start
  exact ⟨f value, finish, bind_eq hstep _, hcode.stacked (htail value)⟩

/-- An operation on two values. -/
theorem map₂ (h : Runs setting data hidden step code true)
    (h' : Runs setting data hidden step' code' true) (f : Int → Int → Int) (tail : Code)
    (htail : ∀ left right stack memory,
      tail.compute setting ⟨right :: left :: stack, memory⟩ = some ⟨f left right :: stack, memory⟩) :
    Runs setting data hidden
      (step >>= fun left => step' >>= fun right => Pure.pure (f left right))
      (code ++ code' ++ tail) true := by
  intro start
  obtain ⟨left, middle, hstep, hcode⟩ := h start
  obtain ⟨right, finish, hstep', hcode'⟩ := h' middle
  refine ⟨f left right, finish, ?_, (hcode.append hcode').stacked (htail left right)⟩
  rw [bind_eq hstep, bind_eq hstep']
  rfl

/-- What is reached through an address is loaded from there. -/
theorem content (hdisjoint : Disjoint data hidden) (hname : (forest.kind id).isIdentifier = false)
    (h : Runs setting data hidden (place forest whereabouts inner id) code true) (tag : Tag) :
    Runs setting data hidden (content forest whereabouts inner id) (code ++ [.ind tag]) true := by
  intro start
  obtain ⟨address, middle, hplace, hcode⟩ := h start
  refine ⟨middle.memory address, { middle with reached := middle.reached ++ [address] }, ?_,
    hcode.extend (List.subset_append_left _ _) fun hdata stack memory hmemory => ?_⟩
  · rw [Evaluate.content, bind_eq hplace, access, hname]
    rfl
  · have haddress : address ∉ hidden :=
      Set.disjoint_left.mp hdisjoint (hdata address (by simp))
    refine ⟨memory, ?_, hmemory⟩
    rw [← hmemory haddress]
    rfl

/-- An assignment through an address. To be kept the value goes by way of the scratch slot. -/
theorem assignAddress (hdisjoint : Disjoint data hidden)
    (hname : (forest.kind target).isIdentifier = false)
    (h : Runs setting data hidden (place forest whereabouts inner target) code true)
    (h' : Runs setting data hidden (inner value) code' true) (tag : Tag) {scratch : Nat} (keep : Bool)
    (hscratch : keep = true → setting.base + scratch ∈ hidden) :
    Runs setting data hidden (assign forest whereabouts inner target value)
      (code ++ code' ++ if keep then [.str tag 0 scratch, .lod tag 0 scratch, .sto tag,
        .lod tag 0 scratch] else [.sto tag]) keep := by
  intro start
  obtain ⟨address, middle, hplace, hcode⟩ := h start
  obtain ⟨new, finish, hvalue, hcode'⟩ := h' middle
  refine ⟨new, ⟨finish.memory.store address new, finish.reached ++ [address]⟩, ?_,
    (hcode.append hcode').extend (List.subset_append_left _ _) fun hdata stack memory hmemory => ?_⟩
  · rw [assign, bind_eq hplace, bind_eq hvalue, access, hname]
    rfl
  · cases keep with
    | false => exact ⟨memory.store address new, rfl, Memory.store_congr hmemory⟩
    | true =>
      have hne : setting.base + scratch ≠ address :=
        (ne_of_mem_of_not_mem (hdata address (by simp))
          (Set.disjoint_right.mp hdisjoint (hscratch rfl))).symm
      refine ⟨(memory.store (setting.base + scratch) new).store address new, ?_,
        Memory.store_congr (Memory.store_hidden hmemory (hscratch rfl))⟩
      simp [Instr.compute, Memory.store_of_ne hne]

/-- A step through an address, which waits in the scratch slot. -/
theorem stepAddress (hdisjoint : Disjoint data hidden)
    (hname : (forest.kind target).isIdentifier = false)
    (h : Runs setting data hidden (place forest whereabouts inner target) code true) (tag : Tag)
    {scratch : Nat} (keep : Bool) (hscratch : setting.base + scratch ∈ hidden) (position : Position)
    (direction : Direction) :
    Runs setting data hidden (Evaluate.step forest whereabouts inner target position direction)
      (code ++ [.str .address 0 scratch] ++
        (if keep && position = .after then [.lod .address 0 scratch, .ind tag] else []) ++
        [.lod .address 0 scratch] ++ [.lod .address 0 scratch, .ind tag] ++
        [stepInstr direction tag, .sto tag] ++
        if keep && position = .before then [.lod .address 0 scratch, .ind tag] else []) keep := by
  intro start
  obtain ⟨address, middle, hplace, hcode⟩ := h start
  simp only [List.append_assoc]
  let old := middle.memory address
  refine ⟨if position = .after then old else stepped direction old,
    ⟨middle.memory.store address (stepped direction old), middle.reached ++ [address]⟩, ?_, hcode.extend (List.subset_append_left _ _)
      fun hdata stack memory hmemory => ?_⟩
  · rw [Evaluate.step, bind_eq hplace, access, hname]
    rfl
  · have hdata := hdata address (by simp)
    have hvisible : address ∉ hidden := Set.disjoint_left.mp hdisjoint hdata
    have hne : setting.base + scratch ≠ address := ne_of_mem_of_not_mem hscratch hvisible
    have hold : memory address = old := hmemory hvisible
    refine ⟨(memory.store (setting.base + scratch) address).store address (stepped direction old), ?_,
      Memory.store_congr (Memory.store_hidden hmemory hscratch)⟩
    rw [← hold]
    cases keep <;> cases position <;> cases direction <;>
      simp [Instr.compute, stepInstr, stepped, Memory.store_of_ne hne, Memory.store_of_ne hne.symm]

section Variable

variable {address base : Int} {depth slot : Nat} (hname : (forest.kind target).isIdentifier)
  (hplace : place forest whereabouts inner target = Pure.pure address)
  (hframe : setting.frame? depth = some base) (haddress : address = base + slot)
  (hvisible : address ∉ hidden)

include hname hplace hframe haddress hvisible

/-- The value of a variable. -/
theorem contentVariable (tag : Tag) :
    Runs setting data hidden (Evaluate.content forest whereabouts inner target) [.lod tag depth slot]
      true := by
  intro start
  refine ⟨start.memory address, start, ?_, List.Subset.refl _, fun _ stack memory hmemory =>
    ⟨memory, ?_, hmemory⟩⟩
  · rw [Evaluate.content, hplace, pure_bind, access, if_pos hname]
    rfl
  · rw [← hmemory hvisible, haddress]
    simp [Instr.compute, hframe]

omit hvisible in
/-- An assignment to a variable. -/
theorem assignVariable (h : Runs setting data hidden (inner value) code true) (tag : Tag) (keep : Bool) :
    Runs setting data hidden (assign forest whereabouts inner target value)
      (code ++ [.str tag depth slot] ++ if keep then [.lod tag depth slot] else []) keep := by
  intro start
  obtain ⟨new, finish, hvalue, hcode⟩ := h start
  rw [List.append_assoc]
  refine ⟨new, ⟨finish.memory.store address new, finish.reached⟩, ?_,
    hcode.extend (List.Subset.refl _) fun _ stack memory hmemory =>
      ⟨memory.store address new, ?_, Memory.store_congr hmemory⟩⟩
  · rw [assign, hplace, pure_bind, bind_eq hvalue, access, if_pos hname]
    rfl
  · cases keep <;> simp [Instr.compute, hframe, haddress]

/-- A step of a variable. -/
theorem stepVariable (tag : Tag) (keep : Bool) (position : Position) (direction : Direction) :
    Runs setting data hidden (Evaluate.step forest whereabouts inner target position direction)
      ((if keep && position = .after then [.lod tag depth slot] else []) ++
        [.lod tag depth slot] ++ [stepInstr direction tag, .str tag depth slot] ++
        if keep && position = .before then [.lod tag depth slot] else []) keep := by
  intro start
  let old := start.memory address
  refine ⟨if position = .after then old else stepped direction old,
    ⟨start.memory.store address (stepped direction old), start.reached⟩, ?_, List.Subset.refl _,
    fun _ stack memory hmemory =>
      ⟨memory.store address (stepped direction old), ?_, Memory.store_congr hmemory⟩⟩
  · rw [Evaluate.step, hplace, pure_bind, access, if_pos hname]
    rfl
  · have hold : memory address = old := hmemory hvisible
    rw [← hold, haddress]
    cases keep <;> cases position <;> cases direction <;>
      simp [Instr.compute, stepInstr, stepped, hframe]

end Variable

end Runs

end MiniC
