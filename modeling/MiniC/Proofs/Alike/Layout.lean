import MiniC.Emit.Program
import MiniC.Proofs.Alike.Table
import MiniC.Proofs.Alike.Forest

/-!
# Laying out alike

The place of a variable depends on the types and the order of declarations, not on names. Programs alike
get the same frames.
-/

namespace MiniC

variable {L : Likeness} {forest forest' : Forest} {layout layout' : Layout} {id : NodeId}

namespace Likeness

variable (L) in
/-- Layouts alike. -/
structure SameLayout (layout layout' : Layout) : Prop where
  forest : L.SameForest layout.forest layout'.forest
  lined : L.Lined layout.forest layout'.forest
  table : L.SameTable layout.table layout'.table
  frames : layout'.frames = layout.frames

namespace SameForest

variable (h : L.SameForest forest forest')
include h

theorem locals (id : NodeId) : forest'.locals id = forest.locals id := by
  have hlevels : ∀ levels id, forest'.localsWithin levels id = forest.localsWithin levels id := by
    intro levels
    induction levels with
    | zero => exact fun _ => rfl
    | succ levels ih =>
      intro id
      simp only [Forest.localsWithin, h.children]
      congr 1
      funext child
      have hkind := h.kind child
      rw [ih]
      generalize forest.kind child = k, forest'.kind child = k' at hkind ⊢
      cases hkind <;> rfl
  rw [Forest.locals, Forest.locals, h.size, hlevels]

theorem needsScratch (id : NodeId) : forest'.needsScratch id = forest.needsScratch id := by
  have hwrites : ∀ id, forest'.writesThroughAddress id = forest.writesThroughAddress id := by
    intro id
    simp only [Forest.writesThroughAddress, h.child?, h.decides SameKind.isIdentifier]
  have hat : ∀ parent child, forest'.needsScratchAt parent child = forest.needsScratchAt parent child := by
    intro parent child
    have hkind := h.kind child
    have hiff : forest'.kind parent = .exprStatement ↔ forest.kind parent = .exprStatement :=
      (h.kind parent).eq_iff rfl
    have hne : (forest'.kind parent != .exprStatement) = (forest.kind parent != .exprStatement) := by
      rw [Bool.eq_iff_iff, bne_iff_ne, bne_iff_ne, ne_eq, ne_eq, hiff]
    unfold Forest.needsScratchAt
    rw [hne, hwrites]
    generalize forest.kind child = k, forest'.kind child = k' at hkind ⊢
    cases hkind <;> rfl
  have hlevels : ∀ levels id,
      forest'.needsScratchWithin levels id = forest.needsScratchWithin levels id := by
    intro levels
    induction levels with
    | zero => exact fun _ => rfl
    | succ levels ih =>
      intro id
      simp only [Forest.needsScratchWithin, h.children, h.decides SameKind.isFunction, hat, ih]
  rw [Forest.needsScratch, Forest.needsScratch, h.size, hlevels]

theorem links (source target : Option NodeId) : forest'.links source target = forest.links source target := by
  have hsteps : ∀ steps source, forest'.linksWithin steps source target =
      forest.linksWithin steps source target := by
    intro steps
    induction steps with
    | zero => exact fun _ => rfl
    | succ steps ih =>
      intro source
      unfold Forest.linksWithin
      cases source with
      | none => rfl
      | some function => simp only [(h.node function).function, ih]
  rw [Forest.links, Forest.links, h.size, hsteps]

theorem definitions (root : NodeId) : forest'.definitions root = forest.definitions root := by
  simp only [Forest.definitions, h.preorder, h.decides SameKind.isFunction, h.child?]

end SameForest

namespace SameLayout

variable (h : L.SameLayout layout layout')
include h

theorem symbolOf (id : NodeId) : L.Agree Eq (layout.symbolOf id) (layout'.symbolOf id) := by
  unfold Layout.symbolOf
  rw [(h.forest.kind id).symbol?]
  cases (layout.forest.kind id).symbol? with
  | none => exact .malformed
  | some symbol => exact .ok rfl

theorem typeOf (id : NodeId) : L.Agree Eq (layout.typeOf id) (layout'.typeOf id) := by
  unfold Layout.typeOf
  rw [h.forest.type?]
  cases layout.forest.type? id with
  | none => exact .malformed
  | some type => exact .ok rfl

theorem child (id : NodeId) (slot : Nat) :
    L.Agree Eq (layout.child id slot) (layout'.child id slot) := by
  unfold Layout.child
  rw [h.forest.child?]
  cases layout.forest.child? id slot with
  | none => exact .malformed
  | some child => exact .ok rfl

theorem offsetOf (symbol : SymbolId) (line line' : Nat) :
    L.Agree Eq (layout.offsetOf symbol line) (layout'.offsetOf symbol line') := by
  unfold Layout.offsetOf
  dsimp only
  rw [(h.table.symbol symbol).offset]
  cases (layout.table.symbol symbol).offset with
  | none => exact .malformed
  | some slot => exact .ok rfl

theorem frame? (function : Option NodeId) : layout'.frame? function = layout.frame? function := by
  rw [Layout.frame?, Layout.frame?, h.frames]

theorem scratchOf (id : NodeId) : L.Agree Eq (layout.scratchOf id) (layout'.scratchOf id) := by
  unfold Layout.scratchOf
  rw [h.frame?, (h.forest.node id).function]
  cases (layout.frame? (layout.forest.node id).function).bind (·.scratch) with
  | none => exact .malformed
  | some slot => exact .ok rfl

theorem sizeOf (function : Option NodeId) : layout'.sizeOf function = layout.sizeOf function := by
  rw [Layout.sizeOf, Layout.sizeOf, h.frame?]

theorem depthTo (id : NodeId) (symbol : SymbolId) : layout'.depthTo id symbol = layout.depthTo id symbol := by
  rw [Layout.depthTo, Layout.depthTo, (h.forest.node id).function, (h.table.symbol symbol).frame,
    h.forest.links]

theorem depthToFile (id : NodeId) : layout'.depthToFile id = layout.depthToFile id := by
  rw [Layout.depthToFile, Layout.depthToFile, (h.forest.node id).function, h.forest.links]

/-- Laying out variables. -/
theorem place (next : Nat) (nodes : List NodeId) :
    L.Agree (fun answer answer' => L.SameLayout answer.1 answer'.1 ∧ answer'.2 = answer.2)
      (layout.place next nodes) (layout'.place next nodes) := by
  induction nodes generalizing layout layout' next with
  | nil => exact .ok ⟨h, rfl⟩
  | cons id nodes ih =>
    refine (h.symbolOf id).bind fun symbol symbol' heq => ?_
    subst heq
    dsimp only
    rw [(h.table.symbol symbol).type]
    have hplaced : L.SameLayout
        { layout with table := layout.table.update symbol fun entry => { entry with offset := some next } }
        { layout' with table := layout'.table.update symbol fun entry => { entry with offset := some next } } :=
      ⟨h.forest, h.lined,
        h.table.update symbol (fun _ _ hsame => { hsame with offset := rfl }) fun _ => rfl, h.frames⟩
    exact ih hplaced _

/-- Laying out strings. -/
theorem placeStrings (next : Nat) (nodes : List NodeId) :
    L.SameLayout (layout.placeStrings next nodes).1 (layout'.placeStrings next nodes).1 ∧
      (layout'.placeStrings next nodes).2 = (layout.placeStrings next nodes).2 := by
  induction nodes generalizing layout layout' next with
  | nil => exact ⟨h, rfl⟩
  | cons id nodes ih =>
    have hkind := h.forest.kind id
    unfold Layout.placeStrings
    generalize hk : layout.forest.kind id = k, layout'.forest.kind id = k' at hkind ⊢
    cases hkind with
    | @other k =>
      cases k with
      | string value =>
        have hplaced : L.SameLayout
            { layout with forest := layout.forest.setKind id (.string value (some next)) }
            { layout' with forest := layout'.forest.setKind id (.string value (some next)) } := by
          refine ⟨h.forest.setKind id (.other rfl), ?_, h.table, h.frames⟩
          exact h.lined.update id h.forest.size (fun _ => rfl) (fun _ => rfl) fun _ =>
            h.lined id (.inl (by rw [hk]; rfl))
        exact ih hplaced _
      | _ => exact ih h _
    | _ => exact ih h _

theorem close (function : Option NodeId) (code : NodeId) (next : Nat) :
    L.SameLayout (layout.close function code next) (layout'.close function code next) :=
  { h with frames := by rw [Layout.close, Layout.close, h.frames, h.forest.needsScratch] }

theorem placeFile (root : NodeId) :
    L.Agree L.SameLayout (layout.placeFile root) (layout'.placeFile root) := by
  unfold Layout.placeFile
  simp only [h.forest.children, h.forest.decides SameKind.isDeclaration]
  refine (h.place _ _).bind fun placed placed' hplaced => ?_
  obtain ⟨placed, next⟩ := placed
  obtain ⟨placed', next'⟩ := placed'
  obtain ⟨hplaced, rfl⟩ := hplaced
  dsimp only
  rw [hplaced.forest.preorder]
  obtain ⟨hstrings, hnext⟩ := hplaced.placeStrings next' (placed.forest.preorder root)
  rw [hnext]
  exact .ok (hstrings.close none root _)

theorem placeFunction (function : NodeId) :
    L.Agree L.SameLayout (layout.placeFunction function) (layout'.placeFunction function) := by
  refine (h.child function 1).bind fun params params' heq => ?_
  subst heq
  rw [h.forest.children]
  refine (h.place _ _).bind fun placed placed' hplaced => ?_
  obtain ⟨placed, next⟩ := placed
  obtain ⟨placed', next'⟩ := placed'
  obtain ⟨hplaced, rfl⟩ := hplaced
  refine (hplaced.child function 2).bind fun body body' heq => ?_
  subst heq
  rw [hplaced.forest.locals]
  refine (hplaced.place _ _).bind fun finished finished' hfinished => ?_
  obtain ⟨finished, next⟩ := finished
  obtain ⟨finished', next'⟩ := finished'
  obtain ⟨hfinished, rfl⟩ := hfinished
  exact .ok (hfinished.close _ body _)

theorem placeFunctions (functions : List NodeId) :
    L.Agree L.SameLayout (layout.placeFunctions functions) (layout'.placeFunctions functions) := by
  induction functions generalizing layout layout' with
  | nil => exact .ok h
  | cons function others ih => exact (h.placeFunction function).bind fun _ _ hplaced => ih hplaced

end SameLayout

/-- Programs alike are laid out alike. -/
theorem agree_ofProgram (h : L.SameForest forest forest') (hlined : L.Lined forest forest')
    {table table' : SymbolTable} (htable : L.SameTable table table') (root : NodeId) :
    L.Agree L.SameLayout (Layout.ofProgram forest table root) (Layout.ofProgram forest' table' root) := by
  have hstart : L.SameLayout { forest, table } { forest := forest', table := table' } :=
    ⟨h, hlined, htable, rfl⟩
  refine (hstart.placeFile root).bind fun placed placed' hplaced => ?_
  rw [h.definitions]
  exact hplaced.placeFunctions _

end Likeness

end MiniC
