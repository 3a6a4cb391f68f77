import MiniC.Proofs.Tree.Outgrown
import MiniC.Proofs.Tree.Rose

/-!
# Contracting trees

`Rose.contract` replaces every conversion of a tree by the one part that it has. A forest that has
grown out of one without conversions contracts to the tree that was there before.
-/

namespace MiniC

/-- A conversion with one part is replaced by that part, everywhere in the tree. -/
def Rose.contract : Rose Entry → Rose Entry
  | .node entry parts =>
    match entry.kind.isConversion, parts.map fun part => part.contract with
    | true, [part] => part
    | _, parts => .node entry parts

theorem Rose.contract_of_conversion {entry : Entry} (h : entry.kind.isConversion = true)
    (part : Rose Entry) : (Rose.node entry [part]).contract = part.contract := by
  simp [contract, h]

theorem Rose.contract_of_not_conversion {entry : Entry} (h : entry.kind.isConversion = false)
    (parts : List (Rose Entry)) :
    (Rose.node entry parts).contract = .node entry (parts.map contract) := by
  simp [contract, h]

namespace Forest

variable {forest other : Forest} {id : NodeId}

/-- Lists that go along with each other are mapped to the same list by maps that agree on pairs. -/
theorem map_eq_map_of_forall₂ {α β γ : Type} {R : α → β → Prop} {f : α → γ} {g : β → γ}
    {as : List α} {bs : List β} (h : List.Forall₂ R as bs)
    (hfg : ∀ a ∈ as, ∀ b ∈ bs, R a b → f a = g b) : as.map f = bs.map g := by
  induction h with
  | nil => rfl
  | cons hab _ ih =>
    rw [List.map_cons, List.map_cons, hfg _ List.mem_cons_self _ List.mem_cons_self hab]
    rw [ih fun a ha b hb => hfg a (List.mem_cons_of_mem _ ha) b (List.mem_cons_of_mem _ hb)]

namespace Outgrown

theorem entry_eq (h : Outgrown forest other) {m : Nat} (hm : m < forest.size) :
    other.entry m = forest.entry m := by
  rw [entry, entry, h.plain m hm, h.line m hm, h.casts m hm]

/-- Whatever stands in the place of a node, its tree contracts to the one that was there. -/
theorem contract_tree (h : Outgrown forest other) (hw : forest.Woven)
    (hfree : ∀ m, (forest.kind m).isConversion = false) :
    ∀ {top id : Nat}, id < forest.size → Stands other top id →
      (other.tree top).contract = forest.tree id := by
  intro top
  induction hweight : other.weight top using Nat.strong_induction_on generalizing top with
  | h weight ih =>
    intro id hid hstands
    rw [tree_eq h.woven.ranked]
    cases hstands with
    | refl =>
      have hkept : (other.entry top).kind.isConversion = false := by
        rw [h.entry_eq hid, entry, Kind.isConversion_plain]
        exact hfree top
      rw [Rose.contract_of_not_conversion hkept, tree_eq hw.ranked, h.entry_eq hid, List.map_map]
      refine congrArg _ (map_eq_map_of_forall₂ (h.children top hid) fun part hpart whole hwhole => ?_)
      refine ih _ ?_ rfl (hw.linked.lt_size hwhole)
      rw [← hweight]
      exact weight_lt h.woven.ranked hpart
    | @wrap _ inner _ change hkind hchildren hinner =>
      have hconversion : (other.entry top).kind.isConversion = true := by
        rw [entry, hkind]
        rfl
      rw [hchildren, List.map_singleton, Rose.contract_of_conversion hconversion]
      refine ih _ ?_ rfl hid hinner
      rw [← hweight]
      exact weight_lt h.woven.ranked (by simp [hchildren])

end Outgrown

end Forest

end MiniC
