import MiniC.Proofs.Compile
import MiniC.Proofs.Emit.Access

/-!
# Static depths

The depth that an instruction is made with is the number of static links from the frame that the
instruction is in to the one that declares what it is for. No other number of links leads there.
-/

namespace MiniC

open Machine Forest Emit

variable {root : NodeId} {layout : Layout} {function target : Option NodeId} {instr : Instr}

/-- The frame that declares a symbol: that of the function around each node that declares it, or that
of the file for a routine of the library. -/
structure Layout.DeclaredIn (layout : Layout) (s : SymbolId) (target : Option NodeId) : Prop where
  node : ∀ d, layout.forest.role d ≠ .expression → (layout.forest.kind d).symbol? = some s →
    layout.forest.owningFunction d = target
  routine : ∀ signature, (layout.table.symbol s).signature? = some signature →
    signature.builtin = true → target = none

/-- The depth of an instruction leads to the frame of what it is for. -/
theorem Emit.Access.outward (h : Access layout root function instr target) {depth : Nat}
    (hdepth : instr.depth? = some depth) :
    layout.forest.outward depth function = some target := by
  cases h with
  | load hnames howner | store hnames howner | address hnames howner =>
    obtain rfl := Option.some.inj hdepth
    exact howner ▸ hnames.depth
  | string _ _ h | remainder _ _ h =>
    obtain rfl := Option.some.inj hdepth
    exact h
  | call hcalls howner =>
    obtain rfl := Option.some.inj hdepth
    exact howner ▸ hcalls.depth
  | fill _ hfile =>
    obtain rfl := Option.some.inj hdepth
    rw [hfile]
    rfl
  | start _ hfile hframe =>
    obtain rfl := Option.some.inj hdepth
    rw [hfile, hframe]
    rfl
  | initializer _ howner =>
    obtain rfl := Option.some.inj hdepth
    rw [howner]
    rfl
  | park | unpark | result =>
    obtain rfl := Option.some.inj hdepth
    rfl

/-- Every symbol has been declared in its frame. -/
theorem Sound.declaredIn {drawn : Nat} {s : SymbolId}
    (h : Sound root layout.forest layout.table drawn) (hs : s < layout.table.size) :
    layout.DeclaredIn s (layout.table.symbol s).frame := by
  refine ⟨fun d hrole hsymbol => ?_, fun signature hsignature hbuiltin => ?_⟩
  · have hvariable : layout.forest.role d = .declaration ∨ layout.forest.role d = .parameter →
        layout.forest.owningFunction d = (layout.table.symbol s).frame := by
      intro hrole
      obtain ⟨-, hkind⟩ := h.declared.bound_variable d s hrole hsymbol
      exact (h.declared.variableAt s hs d hkind).frame.symm
    cases hk : layout.forest.kind d with
    | declaration => exact hvariable (.inl (by rw [role, hk]; rfl))
    | parameter => exact hvariable (.inr (by rw [role, hk]; rfl))
    | function => exact (h.declared.bound_frame d s (by rw [role, hk]; rfl) hsymbol).symm
    | identifier | call => exact absurd (by rw [role, hk]; rfl) hrole
    | _ => simp [hk, Kind.symbol?] at hsymbol
  · rcases (h.declared.function s hs signature hsignature).origin with ⟨-, hframe, -⟩ | ⟨hown, -⟩
    · exact hframe
    · simp [hown] at hbuiltin

end MiniC
