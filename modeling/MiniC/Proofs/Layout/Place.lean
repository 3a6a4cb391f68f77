import MiniC.Proofs.Layout.Pool
import MiniC.Proofs.Layout.Tiling
import MiniC.Proofs.Tree.Walk

/-!
# Placing variables and strings

`place` gives variables their slots one behind the other, and `placeStrings` does so with strings.
Both say where the next free slot is, and change nothing else.
-/

namespace MiniC

namespace Kind

/-- Whether the kind is a string. -/
def isString : Kind → Bool
  | string .. => true
  | _ => false

/-- The place of a string in the pool. -/
def pool? : Kind → Option Nat
  | string _ pool => pool
  | _ => none

/-- How many slots a string takes: its characters and the one that closes it. -/
def chars : Kind → Nat
  | string value _ => value.length + 1
  | _ => 0

theorem isString_iff {kind : Kind} :
    kind.isString ↔ ∃ value pool, kind = .string value pool := by
  cases kind <;> simp [isString]

theorem SameButPool.isString_eq {kind kind' : Kind} (h : SameButPool kind kind') :
    kind'.isString = kind.isString := by cases h <;> rfl

theorem SameButPool.chars_eq {kind kind' : Kind} (h : SameButPool kind kind') :
    kind'.chars = kind.chars := by cases h <;> rfl

end Kind

namespace Forest.Pooled

variable {forest other : Forest} (h : forest.Pooled other)

include h

theorem preorder_eq (id : NodeId) : other.preorder id = forest.preorder id := by
  have hwalk : ∀ levels level id, other.walk levels level id = forest.walk levels level id := by
    intro levels
    induction levels with
    | zero => intro level id; rfl
    | succ levels ih =>
      intro level id
      simp only [walk, h.children_eq, funext (ih (level + 1))]
  rw [preorder, outline, h.size_eq, hwalk, preorder, outline]

theorem definitions_eq (root : NodeId) : other.definitions root = forest.definitions root := by
  simp only [definitions, h.preorder_eq, h.isFunction_eq, h.child?_eq]

end Forest.Pooled

namespace Layout

/-- The first slot of the variable that a node declares. -/
def slot? (layout : Layout) (d : NodeId) : Option Nat :=
  (layout.forest.kind d).symbol?.bind fun s => (layout.table.symbol s).offset

/-- How many slots the variable that a node declares takes. -/
def slots (layout : Layout) (d : NodeId) : Nat :=
  ((layout.forest.kind d).symbol?.map fun s => (layout.table.symbol s).type.slots).getD 0

/-- The place of a string. -/
def pool? (layout : Layout) (id : NodeId) : Option Nat := (layout.forest.kind id).pool?

/-- How many slots a string takes. -/
def chars (layout : Layout) (id : NodeId) : Nat := (layout.forest.kind id).chars

variable {layout : Layout} {nodes ids : List NodeId} {next stop : Nat}

/-- Nodes that are bound to variables, each to another one. -/
structure Bound (layout : Layout) (nodes : List NodeId) : Prop where
  nodup : nodes.Nodup
  symbol : ∀ d ∈ nodes, ∃ s, (layout.forest.kind d).symbol? = some s ∧ s < layout.table.size
  injective : ∀ d ∈ nodes, ∀ d' ∈ nodes, (layout.forest.kind d).symbol? =
    (layout.forest.kind d').symbol? → d = d'

theorem Bound.tail {d : NodeId} (h : layout.Bound (d :: nodes)) : layout.Bound nodes :=
  ⟨(List.nodup_cons.mp h.nodup).2, fun d' hd' => h.symbol d' (List.mem_cons_of_mem _ hd'),
    fun d' hd' d'' hd'' => h.injective d' (List.mem_cons_of_mem _ hd') d''
      (List.mem_cons_of_mem _ hd'')⟩

/-- Where the symbols end up is all that `place` changes. -/
theorem place_eq (h : layout.Bound nodes) (next : Nat) :
    ∃ table stop, layout.place next nodes = .ok ({ layout with table }, stop) ∧
      layout.table.Moved table ∧ Tiled ({ layout with table } : Layout).slot? layout.slots next nodes stop ∧
      ∀ s, (∀ d ∈ nodes, (layout.forest.kind d).symbol? ≠ some s) →
        table.symbol s = layout.table.symbol s := by
  induction nodes generalizing layout next with
  | nil => exact ⟨layout.table, next, rfl, .refl, rfl, fun _ _ => rfl⟩
  | cons d nodes ih =>
    obtain ⟨s, hs, hlt⟩ := h.symbol d List.mem_cons_self
    have hupdate := layout.table.symbol_update (fun entry => { entry with offset := some next }) hlt
    generalize hmoved : layout.table.update s (fun entry => { entry with offset := some next }) =
      table₁ at hupdate
    have hm : layout.table.Moved table₁ := by
      refine ⟨?_, ?_, ?_, fun id => ?_⟩
      · rw [← hmoved, SymbolTable.size_update]
      · rw [← hmoved]
        rfl
      · rw [← hmoved]
        rfl
      · rw [hupdate]
        split
        · next heq => exact ⟨some next, heq ▸ rfl⟩
        · exact ⟨_, rfl⟩
    have hnodup := List.nodup_cons.mp h.nodup
    have hbound : ({ layout with table := table₁ } : Layout).Bound nodes := by
      refine ⟨hnodup.2, fun d' hd' => ?_, h.tail.injective⟩
      obtain ⟨s', hs', hlt'⟩ := h.tail.symbol d' hd'
      exact ⟨s', hs', hm.size_eq ▸ hlt'⟩
    have hslots : ({ layout with table := table₁ } : Layout).slots = layout.slots := by
      funext d'
      simp only [slots, hm.type_eq]
    obtain ⟨table, stop, hplace, hm', htiled, hothers⟩ :=
      ih hbound (next + (layout.table.symbol s).type.slots)
    refine ⟨table, stop, ?_, hm.trans hm', ⟨?_, ?_⟩, fun s' hs' => ?_⟩
    · rw [← hmoved] at hplace
      simp only [place, symbolOf, hs]
      exact hplace
    · -- The symbol of `d` is none of those that are placed after it.
      have hnew : table.symbol s = table₁.symbol s := by
        refine hothers s fun d' hd' hs' => hnodup.1 ?_
        exact h.injective d List.mem_cons_self d' (List.mem_cons_of_mem _ hd') (hs.trans hs'.symm) ▸ hd'
      simp [slot?, hs, hnew, hupdate]
    · rw [hslots] at htiled
      simpa [slots, hs] using htiled
    · have hne : s' ≠ s := fun heq => hs' d List.mem_cons_self (heq ▸ hs)
      rw [hothers s' fun d' hd' => hs' d' (List.mem_cons_of_mem _ hd'), hupdate, if_neg hne]

/-- Where the strings end up is all that `placeStrings` changes. -/
theorem placeStrings_eq (hnodup : ids.Nodup) (hlt : ∀ id ∈ ids, id < layout.forest.size)
    (next : Nat) :
    ∃ forest stop, layout.placeStrings next ids = ({ layout with forest }, stop) ∧
      layout.forest.Pooled forest ∧
      Tiled ({ layout with forest } : Layout).pool? layout.chars next
        (ids.filter fun id => (layout.forest.kind id).isString) stop ∧
      ∀ id, id ∉ ids → forest.node id = layout.forest.node id := by
  induction ids generalizing layout next with
  | nil => exact ⟨layout.forest, next, rfl, .refl, rfl, fun _ _ => rfl⟩
  | cons id ids ih =>
    obtain ⟨hnot, hnodup⟩ := List.nodup_cons.mp hnodup
    have hid := hlt id List.mem_cons_self
    have hrest : ∀ c ∈ ids, c < layout.forest.size := fun c hc => hlt c (List.mem_cons_of_mem _ hc)
    by_cases hstring : (layout.forest.kind id).isString
    · obtain ⟨value, pool, hkind⟩ := Kind.isString_iff.mp hstring
      generalize hset : layout.forest.setKind id (.string value (some next)) = forest₁
      have hnode : ∀ m, forest₁.node m = if m = id then
          { layout.forest.node id with kind := .string value (some next) }
          else layout.forest.node m := fun m => by
        rw [← hset]
        exact Forest.node_update _ _ _ _ hid
      have hp : layout.forest.Pooled forest₁ := by
        refine ⟨by rw [← hset]; exact Forest.size_update .., by rw [← hset]; rfl, fun m => ?_⟩
        rw [hnode]
        split
        · next heq =>
          subst heq
          exact ⟨_, hkind ▸ .string value pool (some next), rfl⟩
        · exact ⟨_, .refl _, rfl⟩
      have hlt₁ : ∀ c ∈ ids, c < forest₁.size := fun c hc => hp.size_eq ▸ hrest c hc
      obtain ⟨forest, stop, hplace, hp', htiled, hothers⟩ :=
        @ih { layout with forest := forest₁ } hnodup hlt₁ (next + value.length + 1)
      have hchars : ({ layout with forest := forest₁ } : Layout).chars = layout.chars := by
        funext m
        exact (hp.kind_same m).chars_eq
      have hfilter : (ids.filter fun id => (forest₁.kind id).isString) =
          ids.filter fun id => (layout.forest.kind id).isString :=
        List.filter_congr fun m _ => (hp.kind_same m).isString_eq
      refine ⟨forest, stop, ?_, hp.trans hp', ?_, fun m hm => ?_⟩
      · simp only [placeStrings, hkind, hset]
        exact hplace
      · rw [List.filter_cons, if_pos hstring]
        refine ⟨?_, ?_⟩
        · have hnew : forest.kind id = .string value (some next) := by
            rw [Forest.kind, hothers id hnot, hnode, if_pos rfl]
          simp [pool?, Kind.pool?, hnew]
        · rw [hfilter, hchars] at htiled
          simpa [chars, Kind.chars, hkind, Nat.add_assoc] using htiled
      · rw [List.mem_cons, not_or] at hm
        rw [hothers m hm.2, hnode, if_neg hm.1]
    · obtain ⟨forest, stop, hplace, hp, htiled, hothers⟩ := ih hnodup hrest next
      refine ⟨forest, stop, ?_, hp, ?_, fun m hm => hothers m ?_⟩
      · rw [placeStrings]
        split
        · next value pool hkind => exact absurd (Kind.isString_iff.mpr ⟨value, pool, hkind⟩) hstring
        · exact hplace
      · rwa [List.filter_cons, if_neg hstring]
      · exact fun hmem => hm (List.mem_cons_of_mem _ hmem)

end Layout

end MiniC
