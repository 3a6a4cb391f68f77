import MiniC.Proofs.Tree.Outgrown

/-!
# Jumps and the loops around them

A jump belongs to the nearest loop around it in its function; where there is none it is stray. What
grows out of a parsed forest has the same loops around its statements.
-/

namespace MiniC

namespace Kind

/-- The word that a jump is written with. -/
def jump? : Kind → Option String
  | breakOut _ => some "break"
  | continueOn _ => some "continue"
  | _ => none

variable {kind other : Kind}

@[simp] theorem jump?_plain (kind : Kind) : kind.plain.jump? = kind.jump? := by cases kind <;> rfl

theorem role_of_jump? {word : String} (h : kind.jump? = some word) : kind.role = .statement := by
  cases kind <;> simp_all [jump?, role]

end Kind

namespace Forest

variable {parsed forest : Forest} {n p j loop : NodeId} {word : String}

/-- The node `loop` is a loop around `n`, with no function between them. -/
inductive LoopAround (forest : Forest) (loop : NodeId) : NodeId → Prop
  | parent {n : NodeId} (hparent : forest.parent n = some loop)
      (hloop : (forest.kind loop).isLoop) : LoopAround forest loop n
  | outer {n p : NodeId} (hparent : forest.parent n = some p)
      (hfunction : (forest.kind p).isFunction = false) (h : LoopAround forest loop p) :
      LoopAround forest loop n

/-- The innermost of the loops around a node. -/
structure NearestLoop (forest : Forest) (loop n : NodeId) : Prop where
  around : forest.LoopAround loop n
  nearest : ∀ other, forest.LoopAround other n → forest.Below loop other

theorem below_of_loopAround (hl : forest.Linked) (h : forest.LoopAround loop n) :
    forest.Below n loop := by
  induction h with
  | parent hparent _ => exact .of_mem (hl.mem_of_parent hparent)
  | outer hparent _ _ ih => exact (Below.of_mem (hl.mem_of_parent hparent)).trans ih

theorem enclosingLoop_of_no_parent (h : forest.parent n = none) : forest.enclosingLoop n = none := by
  have hancestors : forest.ancestors n = [] := by
    unfold ancestors
    cases forest.size <;> simp [ancestorsUpTo, h]
  simp [enclosingLoop, hancestors]

/-- The walk towards the root ends at the nearest loop. -/
theorem nearestLoop_of_enclosingLoop (hl : forest.Linked) (hr : forest.Ranked)
    (h : forest.enclosingLoop n = some loop) : forest.NearestLoop loop n := by
  -- By induction on the nodes around `n`, of which the parent is the first.
  generalize hancestors : forest.ancestors n = around
  induction around generalizing n with
  | nil => simp [enclosingLoop, hancestors] at h
  | cons a rest ih =>
    cases hp : forest.parent n with
    | none => simp [enclosingLoop_of_no_parent hp] at h
    | some p =>
      rw [ancestors_of_parent hl hr hp, List.cons.injEq] at hancestors
      rw [enclosingLoop_of_parent hl hr hp] at h
      split at h
      · next hloop =>
        obtain rfl := Option.some.inj h
        refine ⟨.parent hp hloop, fun other hother => ?_⟩
        cases hother with
        | parent hp' _ =>
          obtain rfl := Option.some.inj (hp.symm.trans hp')
          exact .refl
        | outer hp' _ hother =>
          obtain rfl := Option.some.inj (hp.symm.trans hp')
          exact below_of_loopAround hl hother
      · next hloop =>
        split at h
        · cases h
        · next hfunction =>
          have hnearest := ih h hancestors.2
          refine ⟨.outer hp (by simpa using hfunction) hnearest.around, fun other hother => ?_⟩
          cases hother with
          | parent hp' hother =>
            obtain rfl := Option.some.inj (hp.symm.trans hp')
            exact absurd hother hloop
          | outer hp' _ hother =>
            obtain rfl := Option.some.inj (hp.symm.trans hp')
            exact hnearest.nearest other hother

/-- Where there is a loop around a node, the walk ends at one. -/
theorem LoopAround.exists_enclosingLoop (hl : forest.Linked) (hr : forest.Ranked)
    (h : forest.LoopAround loop n) : ∃ nearest, forest.enclosingLoop n = some nearest := by
  induction h with
  | parent hparent hloop => exact ⟨_, by rw [enclosingLoop_of_parent hl hr hparent, if_pos hloop]⟩
  | @outer n p hparent hfunction _ ih =>
    obtain ⟨nearest, hnearest⟩ := ih
    rw [enclosingLoop_of_parent hl hr hparent, hfunction]
    by_cases hloop : (forest.kind p).isLoop
    · exact ⟨p, if_pos hloop⟩
    · exact ⟨nearest, by rw [if_neg hloop]; exact hnearest⟩

theorem enclosingLoop_eq_some_iff (hl : forest.Linked) (hr : forest.Ranked) :
    forest.enclosingLoop n = some loop ↔ forest.NearestLoop loop n := by
  refine ⟨nearestLoop_of_enclosingLoop hl hr, fun h => ?_⟩
  obtain ⟨found, hfound⟩ := h.around.exists_enclosingLoop hl hr
  have hnearest := nearestLoop_of_enclosingLoop hl hr hfound
  rw [hfound, (hnearest.nearest loop h.around).antisymm hr (h.nearest found hnearest.around)]

/-- A jump that no loop of its function is around. -/
structure Stray (forest : Forest) (j : NodeId) (word : String) : Prop where
  jump : (forest.kind j).jump? = some word
  outside : ¬∃ loop, forest.LoopAround loop j

theorem stray_iff (hl : forest.Linked) (hr : forest.Ranked) :
    forest.Stray j word ↔ (forest.kind j).jump? = some word ∧ forest.enclosingLoop j = none := by
  constructor
  · intro h
    refine ⟨h.jump, Option.eq_none_iff_forall_ne_some.mpr fun loop hloop => h.outside ⟨loop, ?_⟩⟩
    exact (nearestLoop_of_enclosingLoop hl hr hloop).around
  · rintro ⟨hjump, hnone⟩
    refine ⟨hjump, ?_⟩
    rintro ⟨loop, hloop⟩
    obtain ⟨found, hfound⟩ := hloop.exists_enclosingLoop hl hr
    rw [hfound] at hnone
    cases hnone

namespace Stray

theorem role (h : forest.Stray j word) : forest.role j = .statement := Kind.role_of_jump? h.jump

theorem lt_size (h : forest.Stray j word) : (j : Nat) < forest.size := by
  by_contra hle
  have hjump := h.jump
  rw [kind, node_of_size_le (Nat.le_of_not_lt hle)] at hjump
  cases hjump

end Stray

namespace Outgrown

variable (h : Outgrown parsed forest) (hraw : parsed.Raw)

include h hraw

/-- The loop around a statement is the one that it was parsed in. -/
theorem enclosingLoop_eq {n : Nat} (hn : n < parsed.size) (hrole : parsed.role n ≠ .expression) :
    forest.enclosingLoop n = parsed.enclosingLoop n :=
  ((h.grown hraw).sameAround hraw hn hrole).enclosingLoop_eq hraw.linked hraw.ranked

end Outgrown

end Forest

end MiniC
