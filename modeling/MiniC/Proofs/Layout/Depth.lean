import MiniC.Proofs.Layout.Frames

/-!
# Static links

A frame links to that of the function around its own. `outward` follows such links, and the depths
that code is made with are the numbers of links that lead to the frame that is meant. The code of a
frame is the part of the program that it owns (`exists_frameCode`), and it needs the scratch slot if
and only if some expression in it does.
-/

namespace MiniC

/-- The roles of what is written in declarations but makes no code. -/
def Role.IsWritten : Role → Prop
  | type | array | parameters | parameter => True
  | _ => False

theorem Role.IsStatement.not_isWritten {role : Role} (h : role.IsStatement) : ¬role.IsWritten := by
  cases role <;> simp_all [Role.IsStatement, Role.IsWritten]

namespace Kind

variable {kind : Kind} {roles : List Role}

/-- The parts of what makes no code make none. -/
theorem isWritten_of_holds (hkind : kind.role.IsWritten) (h : kind.Holds roles) :
    ∀ role ∈ roles, role.IsWritten := by
  intro role hmem
  cases kind with
  | type part => cases hform : part.form <;> simp_all [Holds, Role.IsWritten]
  | parameters =>
    rw [h role hmem]
    trivial
  | _ => simp_all [Kind.role, Holds, Role.IsWritten]

end Kind

namespace Forest

variable {forest : Forest} {root f g id m n : NodeId} {source target : Option NodeId}

/-- The frame that so many static links lead to. -/
def outward (forest : Forest) : Nat → Option NodeId → Option (Option NodeId)
  | 0, source => some source
  | links + 1, some f => forest.outward links (forest.owningFunction f)
  | _ + 1, none => none

theorem eq_none_of_outward {links : Nat} (h : forest.outward links none = some target) :
    links = 0 ∧ target = none := by
  cases links with
  | zero => exact ⟨rfl, (Option.some.inj h).symm⟩
  | succ links => cases h

/-- No function is around itself. -/
theorem owningFunction_ne (hl : forest.Linked) (hr : forest.Ranked) : forest.owningFunction f ≠ some f := by
  intro h
  cases hp : forest.parent f with
  | none =>
    rw [owningFunction, ancestors] at h
    cases hsize : forest.size <;> simp [hsize, ancestorsUpTo, hp] at h
  | some p =>
    have hmem := hl.mem_of_parent hp
    rw [owningFunction_of_mem_children hl hr hmem] at h
    exact Below.not_child hr hmem (below_of_around hl h)

/-- A function is in the ones that static links lead to. -/
theorem below_of_outward (hl : forest.Linked) {links : Nat} :
    ∀ {f g}, forest.outward links (some f) = some (some g) → forest.Below f g := by
  induction links with
  | zero =>
    intro f g h
    rw [outward, Option.some.injEq, Option.some.injEq] at h
    exact h ▸ .refl
  | succ links ih =>
    intro f g h
    rw [outward] at h
    cases howner : forest.owningFunction f with
    | none =>
      rw [howner] at h
      cases (eq_none_of_outward h).2
    | some e =>
      rw [howner] at h
      exact (below_of_owningFunction hl howner).1.trans (ih h)

/-- Only one number of static links leads from a frame to another. -/
theorem outward_injective (hl : forest.Linked) (hr : forest.Ranked) {links : Nat} :
    ∀ {links' source}, forest.outward links source = some target →
      forest.outward links' source = some target → links = links' := by
  -- No static links lead back to a frame.
  have away : ∀ {links source}, forest.outward (links + 1) source ≠ some source := by
    intro links source h
    cases source with
    | none => cases h
    | some f =>
      rw [outward] at h
      cases howner : forest.owningFunction f with
      | none =>
        rw [howner] at h
        cases (eq_none_of_outward h).2
      | some e =>
        rw [howner] at h
        obtain rfl : f = e :=
          Below.antisymm hr (below_of_owningFunction hl howner).1 (below_of_outward hl h)
        exact owningFunction_ne hl hr howner
  induction links with
  | zero =>
    intro links' source h h'
    obtain rfl : source = target := Option.some.inj h
    cases links' with
    | zero => rfl
    | succ => exact absurd h' away
  | succ links ih =>
    intro links' source h h'
    cases links' with
    | zero =>
      obtain rfl : source = target := Option.some.inj h'
      exact absurd h away
    | succ links' =>
      cases source with
      | none => cases h
      | some f => rw [ih h h']

/-- How many nodes are in a frame; none has more than that of the file. -/
noncomputable def extent (forest : Forest) : Option NodeId → Nat
  | none => forest.size
  | some f => forest.weight f

/-- A frame has fewer nodes than the one that it links to. -/
theorem Whole.extent_lt (h : forest.Whole root) (hf : forest.Below f root)
    (hfun : (forest.kind f).isFunction) :
    forest.extent (some f) < forest.extent (forest.owningFunction f) := by
  have hne : f ≠ root := by
    rintro rfl
    rw [h.kind_root] at hfun
    cases hfun
  cases howner : forest.owningFunction f with
  | none =>
    obtain ⟨p, hp, -⟩ := hf.exists_parent h.linked hne
    exact Nat.lt_of_lt_of_le (weight_lt h.ranked (h.linked.mem_of_parent hp)) (weight_le forest p)
  | some g =>
    have hbelow := (below_of_owningFunction h.linked howner).1
    have hfg : f ≠ g := by
      rintro rfl
      exact owningFunction_ne h.linked h.ranked howner
    obtain ⟨p, hp, hpg⟩ := hbelow.exists_parent h.linked hfg
    have hlt := weight_lt h.ranked (h.linked.mem_of_parent hp)
    have hle : forest.weight p ≤ forest.weight g :=
      Below.rank_le (fun hc => weight_lt h.ranked hc) hpg
    exact Nat.lt_of_lt_of_le hlt hle

/-- The function around a node of the program is in the program. -/
theorem Whole.owner (h : forest.Whole root) (hm : forest.Below m root) :
    ∀ f, forest.owningFunction m = some f → forest.Below f root ∧ (forest.kind f).isFunction := by
  intro f hf
  obtain ⟨hbelow, hfun⟩ := below_of_owningFunction h.linked hf
  exact ⟨h.below_root hm hbelow, hfun⟩

theorem extent_le (forest : Forest) (source : Option NodeId) :
    forest.extent source ≤ forest.size := by
  cases source with
  | none => exact Nat.le_refl _
  | some f => exact weight_le forest f

/-- The frame of the file is on every chain. -/
theorem Whole.chain_none (h : forest.Whole root) {room : Nat} : ∀ {source : Option NodeId},
    forest.size ≤ forest.extent source + room →
    (∀ f, source = some f → forest.Below f root ∧ (forest.kind f).isFunction) →
    forest.Chain source none := by
  induction room with
  | zero =>
    intro source hroom hsource
    cases source with
    | none => exact .refl none
    | some f =>
      obtain ⟨hf, hfun⟩ := hsource f rfl
      have := h.extent_lt hf hfun
      have := extent_le forest (forest.owningFunction f)
      omega
  | succ room ih =>
    intro source hroom hsource
    cases source with
    | none => exact .refl none
    | some f =>
      obtain ⟨hf, hfun⟩ := hsource f rfl
      have := h.extent_lt hf hfun
      exact .outer (ih (by omega) (h.owner hf))

/-- What a function owns and makes code is in its body. -/
theorem Whole.exists_frameCode (h : forest.Whole root) (hm : forest.Below m root)
    (hrole : ¬(forest.role m).IsWritten) :
    forest.IsFrame root (forest.owningFunction m) ∧
      ∃ code, forest.frameCode root (forest.owningFunction m) = some code ∧ forest.Below m code ∧
        forest.around code = forest.owningFunction m ∧ forest.role code ≠ .expression := by
  cases howner : forest.owningFunction m with
  | none =>
    refine ⟨isFrame_none, root, rfl, hm, ?_, ?_⟩
    · rw [around_of_not_function (by rw [h.kind_root]; rfl), h.owningFunction_root]
    · rw [role, h.kind_root]
      simp [Kind.role]
  | some f =>
    obtain ⟨hmf, hfun⟩ := below_of_owningFunction h.linked howner
    have hfroot := h.below_root hm hmf
    -- No code is below the types and parameters of a function.
    have hwritten : ∀ {c}, (forest.role c).IsWritten → ¬forest.Below m c := fun hc hmc =>
      hrole (hmc.descend (P := fun n => (forest.role n).IsWritten) hc fun p c _ hc hp =>
        Kind.isWritten_of_holds hp (h.shaped p) _ (List.mem_map_of_mem hc))
    obtain ⟨c, hc, hmc⟩ : ∃ c ∈ forest.children f, forest.Below m c := by
      rcases hmf.eq_or_child with rfl | hchild
      · exact absurd howner (owningFunction_ne h.linked h.ranked)
      · exact hchild
    obtain ⟨hbody, hblock⟩ : forest.child? f 2 = some c ∧ forest.role c = .block := by
      have hholds := h.shaped f
      obtain ⟨slot, hslot, hget⟩ := List.getElem_of_mem hc
      have hget? : (forest.roles f)[slot]? = some (forest.role c) := by
        rw [roles, List.getElem?_map, List.getElem?_eq_getElem hslot, hget]
        rfl
      obtain ⟨name, symbol, hk⟩ : ∃ name symbol, forest.kind f = .function name symbol := by
        cases hk : forest.kind f <;> simp_all [Kind.isFunction]
      rw [hk] at hholds
      obtain ⟨rfl, hblock⟩ : slot = 2 ∧ forest.role c = .block := by
        rcases hholds with hroles | hroles <;> rw [hroles] at hget? <;>
          rcases slot with _ | _ | _ | slot <;>
          simp only [List.getElem?_cons_zero, List.getElem?_cons_succ, List.getElem?_nil,
            Option.some.injEq, reduceCtorEq] at hget?
        case inr.succ.succ.zero => exact ⟨rfl, hget?.symm⟩
        all_goals exact absurd hmc (hwritten (hget? ▸ trivial))
      exact ⟨by rw [child?, List.getElem?_eq_getElem hslot, hget], hblock⟩
    have hcfun : (forest.kind c).isFunction = false := by
      rw [role] at hblock
      cases hk : forest.kind c <;> simp_all [Kind.role, Kind.isFunction]
    refine ⟨isFrame_some ((mem_definitions h.ranked).mpr ⟨hfroot, hfun, by simp [hbody]⟩), c,
      hbody, hmc, ?_, by rw [hblock]; simp⟩
    rw [around_of_not_function hcfun, owningFunction_of_mem_children h.linked h.ranked hc,
      around_of_function hfun]

/-- The scratch slot is needed if and only if an expression in the frame needs it. -/
theorem needsScratchWithin_iff (hl : forest.Linked) (hr : forest.Ranked) {levels : Nat} :
    ∀ {id}, forest.weight id < levels → (forest.needsScratchWithin levels id ↔
      ∃ p c, c ∈ forest.children p ∧ forest.Below p id ∧
        forest.owningFunction c = forest.around id ∧ forest.needsScratchAt p c) := by
  induction levels with
  | zero => intro id h; omega
  | succ levels ih =>
    intro id h
    simp only [needsScratchWithin, List.any_eq_true, Bool.and_eq_true, Bool.not_eq_true',
      Bool.or_eq_true]
    constructor
    · rintro ⟨c, hc, hfun, hneeds | hneeds⟩
      · exact ⟨id, c, hc, .refl, owningFunction_of_mem_children hl hr hc, hneeds⟩
      · have hlt := weight_lt hr hc
        obtain ⟨p, e, he, hbelow, howner, hat⟩ := (ih (by omega)).mp hneeds
        refine ⟨p, e, he, .child hc hbelow, ?_, hat⟩
        rw [howner, around_of_not_function hfun, owningFunction_of_mem_children hl hr hc]
    · rintro ⟨p, e, he, hbelow, howner, hat⟩
      rcases hbelow.eq_or_child with rfl | ⟨c, hc, hbelow⟩
      · refine ⟨e, he, ?_, .inl hat⟩
        cases hk : forest.kind e <;> simp_all [needsScratchAt, Kind.isFunction]
      · have hlt := weight_lt hr hc
        have hec : forest.Below e c := (Below.of_mem he).trans hbelow
        have hfun : (forest.kind c).isFunction = false := by
          by_contra hfun
          rw [Bool.not_eq_false] at hfun
          have hne : e ≠ c := by
            rintro rfl
            cases hk : forest.kind e <;> simp_all [needsScratchAt, Kind.isFunction]
          obtain ⟨g, hg, hgc⟩ := exists_owningFunction hl hr hfun hec hne
          rw [hg] at howner
          refine around_ne hl hr (.child hc hgc) ?_ howner.symm
          rintro rfl
          exact Below.not_child hr hc hgc
        refine ⟨c, hc, hfun, .inr ((ih (by omega)).mpr ⟨p, e, he, hbelow, ?_, hat⟩)⟩
        rw [howner, around_of_not_function hfun, owningFunction_of_mem_children hl hr hc]

theorem needsScratch_iff (hl : forest.Linked) (hr : forest.Ranked) :
    forest.needsScratch id ↔ ∃ p c, c ∈ forest.children p ∧ forest.Below p id ∧
      forest.owningFunction c = forest.around id ∧ forest.needsScratchAt p c :=
  needsScratchWithin_iff hl hr (Nat.lt_succ_of_le (weight_le forest id))

end Forest

open Forest

namespace Sound

variable {root m : NodeId} {forest : Forest} {table : SymbolTable} {drawn : Nat}
  {source target : Option NodeId} (h : Sound root forest table drawn)

include h

/-- Every expression and every statement knows the function that it is in. -/
theorem function_eq (hm : forest.Below m root)
    (hrole : forest.role m = .expression ∨ (forest.role m).IsStatement) :
    (forest.node m).function = forest.owningFunction m := by
  rcases hrole with hrole | hrole
  · exact h.function m hm hrole
  · exact (h.statement m hm hrole).function

theorem outward_linksWithin {steps : Nat} (hchain : forest.Chain source target)
    (hsource : ∀ f, source = some f → forest.Below f root ∧ (forest.kind f).isFunction)
    (hsteps : forest.size < forest.extent source + steps) :
    forest.outward (forest.linksWithin steps source target) source = some target := by
  induction hchain generalizing steps with
  | refl source => cases steps <;> simp [linksWithin, outward]
  | @outer f target _ ih =>
    obtain ⟨hf, hfun⟩ := hsource f rfl
    have hlt := h.whole.extent_lt hf hfun
    cases steps with
    | zero =>
      have := weight_le forest f
      simp only [extent] at hsteps
      omega
    | succ steps =>
      simp only [linksWithin]
      split
      · next heq => rw [outward, heq]
      · have hrole : (forest.role f).IsStatement := by
          rw [role, Kind.role_eq_function.mpr hfun]
          trivial
        rw [outward, h.function_eq hf (.inr hrole)]
        exact ih (h.whole.owner hf) (by omega)

/-- The depth of a frame is how many static links lead to it. -/
theorem outward_links (hchain : forest.Chain source target)
    (hsource : ∀ f, source = some f → forest.Below f root ∧ (forest.kind f).isFunction) :
    forest.outward (forest.links source target) source = some target :=
  h.outward_linksWithin hchain hsource (by omega)

end Sound

end MiniC
