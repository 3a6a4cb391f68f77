import MiniC.Proofs.Build.Trees

/-!
# Steps of construction in any order

A builder need not be driven by a reader. Whatever is asked of it, its nodes stay linked and rising, and
its operands stay different nodes without a parent (`Builder.Orderly`). A step that is refused is
refused before it adds or changes a node, so it has at most taken operands from the top
(`Builder.Drained`): it is `Tidy`. The steps that count their operands before they take them are
`AllOrNone`.
-/

namespace MiniC

/-- The forest of a builder is linked and rising, and the nodes in hand and the operands are different
ones without a parent. -/
structure Builder.Orderly (builder : Builder) (held : List NodeId) : Prop where
  linked : builder.forest.Linked
  rising : builder.forest.Rising
  free : builder.forest.Free (held ++ builder.stack)

/-- A builder has the forest of `base`, and at most some operands on top are gone. -/
structure Builder.Drained (base builder : Builder) : Prop where
  forest_eq : builder.forest = base.forest
  suffix : builder.stack <:+ base.stack

/-- A builder has some operands of `base` in hand and has done nothing else so far. -/
structure Builder.Draws (base builder : Builder) (held : List NodeId) : Prop where
  drained : base.Drained builder
  orderly : builder.Orderly held

namespace Builder

variable {base builder : Builder} {held : List NodeId} {id : NodeId} {change : Node → Node}

theorem Drained.refl (base : Builder) : base.Drained base := ⟨rfl, List.suffix_rfl⟩

theorem orderly_empty : ({} : Builder).Orderly [] :=
  ⟨Forest.raw_empty.linked, Forest.raw_empty.rising, by simp, by simp, .nil⟩

theorem Orderly.draws (h : base.Orderly []) : base.Draws base [] := ⟨.refl base, h⟩

theorem Drained.orderly (h : base.Drained builder) (hbase : base.Orderly []) : builder.Orderly [] := by
  obtain ⟨taken, htaken⟩ := h.suffix
  have hfree := hbase.free
  rw [List.nil_append, ← htaken] at hfree
  refine ⟨?_, ?_, ?_⟩ <;> rw [h.forest_eq]
  · exact hbase.linked
  · exact hbase.rising
  · exact hfree.of_append_right

/-- A node in hand may change as long as it keeps its links. -/
theorem Orderly.update (h : builder.Orderly held) (hchange : Forest.KeepsLinks change) :
    Builder.Orderly { builder with forest := builder.forest.update id change } held := by
  refine ⟨hchange.linked_update h.linked, hchange.rising_update h.rising, fun m hm => ?_,
    fun m hm => ?_, h.free.nodup⟩
  · rw [Forest.size_update]
    exact h.free.lt_size m hm
  · rw [hchange.parent_update]
    exact h.free.parent_eq m hm

/-- A node in hand is put aside. -/
theorem Orderly.tail (h : builder.Orderly (id :: held)) : builder.Orderly held := by
  have hfree : builder.forest.Free ([id] ++ (held ++ builder.stack)) := h.free
  exact ⟨h.linked, h.rising, hfree.of_append_right⟩

/-- The node in hand is put back. -/
theorem Orderly.cons (h : builder.Orderly [id]) :
    Builder.Orderly { builder with stack := id :: builder.stack } [] := ⟨h.linked, h.rising, h.free⟩

end Builder

namespace Build

open Ensures

variable {base builder : Builder} {held : List NodeId} {line : Nat} {step : Build Unit}
  {refusal : Fault → Builder → Prop}

/-! ## Taking operands -/

theorem draws_pop (h : base.Draws builder held) :
    Ensures (pop line) builder (fun _ => base.Drained) fun id builder' =>
      base.Draws builder' (id :: held) := by
  cases hstack : builder.stack with
  | nil =>
    simp only [pop, bind_iff, get_iff, hstack, throw_iff]
    exact h.drained
  | cons id stack =>
    have hsuffix : stack <:+ builder.stack := ⟨[id], by rw [hstack]; rfl⟩
    simp only [pop, bind_iff, get_iff, hstack, modify_iff, pure_iff]
    refine ⟨⟨h.drained.forest_eq, hsuffix.trans h.drained.suffix⟩, h.orderly.linked, h.orderly.rising,
      h.orderly.free.perm ?_⟩
    rw [hstack]
    exact List.perm_middle

/-- The operands are counted before the first of them is taken. -/
theorem draws_popMany {count : Nat} (h : base.Orderly []) :
    Ensures (popMany count line) base (fun _ builder => builder = base) fun ids builder =>
      base.Draws builder ids := by
  simp only [popMany, bind_iff, get_iff, ite_iff, throw_iff, modify_iff, pure_iff]
  refine ⟨fun _ => trivial, fun _ => ⟨⟨rfl, List.drop_suffix ..⟩, h.linked, h.rising, h.free.perm ?_⟩⟩
  have hreverse := (List.reverse_perm (base.stack.take count)).symm.append_right (base.stack.drop count)
  rwa [List.take_append_drop] at hreverse

theorem draws_popType (h : base.Draws builder held) :
    Ensures (popType line) builder (fun _ => base.Drained) fun id builder' =>
      base.Draws builder' (id :: held) := by
  simp only [popType, bind_iff, get_iff]
  refine (draws_pop h).imp fun id builder' h => ?_
  split
  · exact h
  · exact h.drained

theorem draws_popIf {present : Bool} (h : base.Orderly []) :
    Ensures (popIf present line) base (fun _ => base.Drained) fun ids builder =>
      base.Draws builder ids := by
  cases present with
  | false => exact h.draws
  | true =>
    simp only [popIf, if_true, bind_iff, pure_iff]
    exact draws_pop h.draws

/-! ## Changing nodes

Nothing is refused from here on. -/

theorem orderly_push {kind : Kind} (h : builder.Orderly held) :
    Ensures (push kind line held) builder refusal fun _ builder' => builder'.Orderly [] := by
  have hfree := h.free.of_append_left
  show Builder.Orderly ⟨builder.forest.adopt kind line held, builder.forest.size :: builder.stack⟩ []
  exact ⟨Forest.linked_adopt h.linked hfree, Forest.rising_adopt h.rising hfree, Forest.free_adopt h.free⟩

theorem orderly_updateType {id : NodeId} {change : TypePart → TypePart} (h : builder.Orderly held) :
    Ensures (updateType id change) builder refusal fun _ builder' => builder'.Orderly held := by
  simp only [updateType, modify_iff]
  split
  · exact h.update ⟨fun _ => rfl, fun _ => rfl⟩
  · exact h

/-! ## Whole steps -/

/-- An orderly builder stays one behind the step, which is refused only before it changes the forest. -/
def Tidy (step : Build Unit) : Prop :=
  ∀ ⦃base : Builder⦄, base.Orderly [] →
    Ensures step base (fun _ => base.Drained) fun _ builder => builder.Orderly []

/-- An orderly builder stays one behind the step, which is refused only before it does anything. -/
def AllOrNone (step : Build Unit) : Prop :=
  ∀ ⦃base : Builder⦄, base.Orderly [] →
    Ensures step base (fun _ builder => builder = base) fun _ builder => builder.Orderly []

theorem AllOrNone.tidy (h : AllOrNone step) : Tidy step := fun base hbase =>
  (h hbase).mono (fun _ _ h => h) fun _ _ he => he ▸ .refl base

theorem tidy_leaf (kind : Kind) : Tidy (push kind line []) := fun _ h => orderly_push h

/-- A node above the `count` top operands. -/
theorem allOrNone_many (kind : Kind) (count : Nat) :
    AllOrNone (do let parts ← popMany count line; push kind line parts) := by
  intro base h
  simp only [bind_iff]
  exact (draws_popMany h).imp fun ids builder h => orderly_push h.orderly

theorem allOrNone_file (count : Nat) : AllOrNone (file count line) := by
  intro base h
  simp only [file, bind_iff, modify_iff]
  refine (draws_popMany h).imp fun ids builder h => (orderly_push h.orderly).imp fun _ builder h => ?_
  split
  · exact h
  · exact ⟨⟨h.linked.parent_of_mem, h.linked.mem_of_parent, h.linked.nodup⟩, h.rising, h.free.lt_size,
      h.free.parent_eq, h.free.nodup⟩

/-- A node above the operand on top. -/
theorem tidy_unary (kind : Kind) : Tidy (do let id ← pop line; push kind line [id]) := by
  intro base h
  simp only [bind_iff]
  exact (draws_pop h.draws).imp fun id builder h => orderly_push h.orderly

/-- A node above the two top operands. -/
theorem tidy_binary (kind : Kind) :
    Tidy (do let right ← pop line; let left ← pop line; push kind line [left, right]) := by
  intro base h
  simp only [bind_iff]
  exact (draws_pop h.draws).imp fun right builder₁ h => (draws_pop h).imp fun left builder₂ h =>
    orderly_push h.orderly

/-- A node above the type on top. -/
theorem tidy_wrap (kind : Kind) : Tidy (do let id ← popType line; push kind line [id]) := by
  intro base h
  simp only [bind_iff]
  exact (draws_popType h.draws).imp fun id builder h => orderly_push h.orderly

theorem tidy_const : Tidy (const line) := by
  intro base h
  simp only [const, bind_iff, modify_iff]
  exact (draws_popType h.draws).imp fun id builder₁ h =>
    (orderly_updateType h.orderly).imp fun _ builder₂ h => h.cons

/-- The type of a cast is put aside: it stays in the forest, but is no operand any more. -/
theorem tidy_cast : Tidy (cast line) := by
  intro base h
  simp only [cast, bind_iff, get_iff]
  refine (draws_pop h.draws).imp fun expr builder₁ h =>
    (draws_popType h).imp fun id builder₂ h => ?_
  split
  · exact h.drained
  · next type _ =>
    have hkeeps : Forest.KeepsLinks fun node : Node => { node with casts := node.casts ++ [type] } :=
      ⟨fun _ => rfl, fun _ => rfl⟩
    have hadded : Builder.Orderly { builder₂ with forest := builder₂.forest.update expr fun node =>
        { node with casts := node.casts ++ [type] } } [expr] := h.orderly.tail.update hkeeps
    simp only [modify_iff]
    exact hadded.cons

theorem tidy_declaration (name : String) (initialized : Bool) :
    Tidy (declaration name initialized line) := by
  intro base h
  simp only [declaration, bind_iff]
  exact (draws_popIf h).imp fun initial builder₁ h => (draws_popType h).imp fun id builder₂ h =>
    (orderly_updateType h.orderly).imp fun _ builder₃ h => orderly_push h

theorem tidy_parameter (name : String) : Tidy (parameter name line) := by
  intro base h
  simp only [parameter, bind_iff]
  exact (draws_popType h.draws).imp fun id builder₁ h =>
    (orderly_updateType h.orderly).imp fun _ builder₂ h => orderly_push h

theorem tidy_function (name : String) (defined : Bool) : Tidy (function name defined line) := by
  intro base h
  simp only [function, bind_iff]
  exact (draws_popIf h).imp fun body builder₁ h => (draws_pop h).imp fun params builder₂ h =>
    (draws_popType h).imp fun result builder₃ h =>
      (orderly_updateType h.orderly).imp fun _ builder₄ h => orderly_push h

theorem tidy_giveBack (hasValue : Bool) : Tidy (giveBack hasValue line) := by
  intro base h
  simp only [giveBack, bind_iff]
  exact (draws_popIf h).imp fun value builder h => orderly_push h.orderly

end Build

end MiniC
