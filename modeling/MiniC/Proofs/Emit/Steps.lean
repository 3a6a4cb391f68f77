import MiniC.Proofs.Emit.Coded

/-!
# Steps that make code

What code is made for says what is collected on the way (`Extends`): the routines of the library that
the code calls, and a warning for every type without a tag. If values are never void there are no
such types. Each step has an equation for what it ensures.
-/

namespace MiniC

open Machine Forest

/-- The routine of the library that a label stands for. -/
def Machine.Label.routine? : Label → Option String
  | .named name => some name
  | _ => none

/-- The routine of the library that an instruction calls. -/
def Machine.Instr.routine? : Instr → Option String
  | .cup _ target => target.routine?
  | _ => none

namespace Machine.Code

/-- The routines of the library that code calls. -/
def routines (code : Code) : List String := code.filterMap Instr.routine?

@[simp] theorem routines_nil : routines [] = [] := rfl

@[simp] theorem routines_cons (instr : Instr) (code : Code) :
    routines (instr :: code) = instr.routine?.toList ++ routines code := by
  rw [routines, List.filterMap_cons]
  cases instr.routine? <;> rfl

@[simp] theorem routines_append (code code' : Code) :
    routines (code ++ code') = routines code ++ routines code' := List.filterMap_append

end Machine.Code

namespace Emit

/-- No expression is void but a call that is a statement. -/
def VoidFree (forest : Forest) (root : NodeId) : Prop :=
  ∀ e type, forest.Below e root → forest.role e = .expression → forest.type? e = some type →
    type.isVoid → (∃ name s, forest.kind e = .call name s) ∧
      ∃ p, forest.parent e = some p ∧ forest.kind p = .exprStatement

/-- What is collected while `code` is made; nothing is reported in a `quiet` program. -/
structure Extends (quiet : Prop) (output output' : Output) (code : Code) : Prop where
  drawn_eq : output'.session.drawn = output.session.drawn
  session_eq : quiet → output'.session = output.session
  subset : output.used ⊆ output'.used
  known : ∀ name ∈ output'.used, name ∈ output.used ∨ (Routine.find? name).isSome
  called : code.routines ⊆ output'.used
  reported : ∃ more, output'.session.warnings = output.session.warnings ++ more ∧
    ∀ warning ∈ more, ∃ text, warning.concern = .unmappedType text

namespace Extends

variable {quiet : Prop} {output output' output'' : Output} {code code' : Code}

theorem refl (h : code.routines = []) : Extends quiet output output code :=
  ⟨rfl, fun _ => rfl, List.Subset.refl _, fun _ => .inl, by simp [h], [], by simp⟩

theorem trans (h : Extends quiet output output' code) (h' : Extends quiet output' output'' code') :
    Extends quiet output output'' (code ++ code') := by
  refine ⟨h'.drawn_eq.trans h.drawn_eq, fun hq => (h'.session_eq hq).trans (h.session_eq hq),
    List.Subset.trans h.subset h'.subset, fun name hname => ?_, ?_, ?_⟩
  · rcases h'.known name hname with hmem | hsome
    · exact h.known name hmem
    · exact .inr hsome
  · rw [Code.routines_append]
    exact List.append_subset.mpr ⟨List.Subset.trans h.called h'.subset, h'.called⟩
  · obtain ⟨more, heq, hmore⟩ := h.reported
    obtain ⟨more', heq', hmore'⟩ := h'.reported
    refine ⟨more ++ more', by rw [heq', heq, List.append_assoc], ?_⟩
    exact List.forall_mem_append.mpr ⟨hmore, hmore'⟩

/-- Code that calls the same routines extends the output in the same way. -/
theorem congr (h : Extends quiet output output' code) (hcode : code'.routines ⊆ code.routines) :
    Extends quiet output output' code' :=
  ⟨h.drawn_eq, h.session_eq, h.subset, h.known, List.Subset.trans hcode h.called, h.reported⟩

end Extends

section Steps

variable {output : Output} {refusal : Fault → Output → Prop} {layout : Layout}

@[simp] theorem ensures_malformed {α : Type} {post : α → Output → Prop} (message : String)
    (line : Nat) :
    Ensures (malformed message line : Emit α) output refusal post ↔
      refusal (.malformed message line) output := Iff.rfl

/-- Asking for the tag of a type, which is reported if it has none. -/
theorem ensures_tagOf {post : Tag → Output → Prop} {type : Ty} {line : Nat} (quiet : Prop)
    (harray : type.isArray = false) (hvoid : quiet → type.isVoid = false)
    (h : ∀ output', Extends quiet output output' [] → post type.cell output') :
    Ensures (tagOf type line) output refusal post := by
  rw [← Ty.cell_of_not_array harray] at h
  unfold tagOf
  split
  · next tag htag =>
    rw [htag] at h
    exact h output (.refl rfl)
  · next htag =>
    rw [htag] at h
    simp only [Ensures.bind_iff, Ensures.modify_iff, Ensures.pure_iff]
    refine h _ ⟨rfl, fun hq => ?_, List.Subset.refl _, fun _ => .inl, List.nil_subset _,
      [⟨.unmappedType type.text, line⟩], rfl, by simp⟩
    have hsome := Ty.isSome_tag? harray (hvoid hq)
    rw [htag] at hsome
    cases hsome

/-- Noting a call of a routine of the library. -/
theorem ensures_useRoutine {post : Unit → Output → Prop} {name : String} (quiet : Prop)
    (hknown : (Routine.find? name).isSome)
    (h : ∀ output', Extends quiet output output' [.cup 0 (.named name)] → post () output') :
    Ensures (useRoutine name) output refusal post := by
  rw [useRoutine, Ensures.modify_iff]
  refine h _ ?_
  split
  · next hmem =>
    refine ⟨rfl, fun _ => rfl, List.Subset.refl _, fun _ => .inl, ?_, [], by simp⟩
    simpa [Instr.routine?, Label.routine?] using hmem
  · refine ⟨rfl, fun _ => rfl, List.subset_append_left _ _, fun other hother => ?_, ?_, [],
      by simp⟩
    · rcases List.mem_append.mp hother with hmem | hmem
      · exact .inl hmem
      · exact .inr (List.mem_singleton.mp hmem ▸ hknown)
    · simp [Instr.routine?, Label.routine?]

theorem ensures_child {post : NodeId → Output → Prop} {id c : NodeId} {slot : Nat}
    (h : layout.forest.child? id slot = some c) :
    Ensures (ask (layout.child id slot)) output refusal post ↔ post c output :=
  ensures_ask (by simp [Layout.child, h])

theorem ensures_typeOf {post : Ty → Output → Prop} {id : NodeId} {type : Ty}
    (h : layout.forest.type? id = some type) :
    Ensures (ask (layout.typeOf id)) output refusal post ↔ post type output :=
  ensures_ask (by simp [Layout.typeOf, h])

theorem ensures_symbolOf {post : SymbolId → Output → Prop} {id : NodeId} {s : SymbolId}
    (h : (layout.forest.kind id).symbol? = some s) :
    Ensures (ask (layout.symbolOf id)) output refusal post ↔ post s output :=
  ensures_ask (by simp [Layout.symbolOf, h])

theorem ensures_offsetOf {post : Nat → Output → Prop} {s : SymbolId} {line slot : Nat}
    (h : (layout.table.symbol s).offset = some slot) :
    Ensures (ask (layout.offsetOf s line)) output refusal post ↔ post slot output :=
  ensures_ask (by simp [Layout.offsetOf, h])

theorem ensures_scratchOf {post : Nat → Output → Prop} {id : NodeId} {slot : Nat}
    (h : layout.scratch? (layout.forest.node id).function = some slot) :
    Ensures (ask (layout.scratchOf id)) output refusal post ↔ post slot output := by
  rw [Layout.scratch?] at h
  exact ensures_ask (by simp [Layout.scratchOf, h])

/-- The step makes the code of a part, and is never refused. -/
def Makes (layout : Layout) (root : NodeId) (part : Part) (step : Emit Code) : Prop :=
  ∀ output, Ensures step output Fault.Never fun code output' =>
    Coded layout root part code ∧ Extends (VoidFree layout.forest root) output output' code

end Steps

end Emit

end MiniC
