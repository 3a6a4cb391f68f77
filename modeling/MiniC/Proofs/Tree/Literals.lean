import MiniC.Proofs.Build.Texts
import MiniC.Proofs.Layout.Place
import MiniC.Proofs.Tree.Contract
import MiniC.Proofs.Tree.Walk

/-!
# The strings of a program

`literals` lists the strings below a node in the order in which they stand. Growing a parsed forest
splices conversions in between the nodes of a walk, but the walk goes on to meet the parsed nodes in
the same order, so the strings of the program are the ones that were parsed.
-/

namespace MiniC

@[simp] theorem Kind.text?_bare (kind : Kind) : kind.bare.text? = kind.text? := by
  cases kind <;> rfl

theorem Kind.isString_eq (kind : Kind) : kind.isString = kind.text?.isSome := by
  cases kind <;> rfl

namespace Forest

variable {parsed forest : Forest}

/-- The strings below a node, in the order in which they stand. -/
def literals (forest : Forest) (id : NodeId) : List NodeId :=
  (forest.preorder id).filter fun m => (forest.kind m).isString

/-- The literals below a node are the strings below it. -/
theorem mem_literals (hr : forest.Ranked) {id m : NodeId} :
    m ∈ forest.literals id ↔ forest.Below m id ∧ (forest.kind m).isString := by
  rw [literals, List.mem_filter, mem_preorder hr]

/-- The text of a string of the forest. -/
def text (forest : Forest) (id : NodeId) : String := (forest.kind id).text?.getD ""

/-- More levels than there are nodes below make no difference to a walk. -/
theorem map_walk_eq (hr : forest.Ranked) {levels levels' : Nat} :
    ∀ {level level' id}, forest.weight id < levels → forest.weight id < levels' →
      (forest.walk levels level id).map (·.1) = (forest.walk levels' level' id).map (·.1) := by
  induction levels generalizing levels' with
  | zero => intro level level' id h; omega
  | succ levels ih =>
    intro level level' id h h'
    obtain ⟨more, rfl⟩ := Nat.exists_eq_succ_of_ne_zero (Nat.ne_zero_of_lt h')
    rw [map_walk_succ, map_walk_succ, List.flatMap_def, List.flatMap_def]
    refine congrArg (fun parts => id :: parts.flatten) (List.map_congr_left fun c hc => ?_)
    have := weight_lt hr hc
    exact ih (by omega) (by omega)

/-- A walk meets a node, and then what is below its children. -/
theorem preorder_eq (hr : forest.Ranked) (id : NodeId) :
    forest.preorder id = id :: (forest.children id).flatMap forest.preorder := by
  rw [preorder, outline, map_walk_succ, List.flatMap_def, List.flatMap_def]
  refine congrArg (fun parts => id :: parts.flatten) (List.map_congr_left fun c hc => ?_)
  have := weight_lt hr hc
  have := weight_le forest id
  exact map_walk_eq hr (by omega) (by omega)

/-- The literals below a node are the node itself if it is a string, and then those below its
children. -/
theorem literals_cons (hr : forest.Ranked) (id : NodeId) :
    forest.literals id = (if (forest.kind id).isString then [id] else []) ++
      (forest.children id).flatMap forest.literals := by
  rw [literals, preorder_eq hr, List.filter_cons, List.filter_flatMap]
  split <;> rfl

/-- The strings that the tree below a node says are the texts of the literals there. -/
theorem texts_contents (hr : forest.Ranked) (id : NodeId) :
    Tree.texts (forest.contents id) = (forest.literals id).map forest.text := by
  induction hweight : forest.weight id using Nat.strong_induction_on generalizing id with
  | h weight ih =>
    have hbelow : ∀ c ∈ forest.children id,
        Tree.texts (forest.contents c) = (forest.literals c).map forest.text := fun c hc =>
      ih _ (hweight ▸ weight_lt hr hc) c rfl
    have hown : (forest.kind id).text?.toList =
        (if (forest.kind id).isString then [id] else []).map forest.text := by
      rw [Kind.isString_eq]
      cases htext : (forest.kind id).text? <;> simp [text, htext]
    rw [contents_eq hr, Tree.texts_node, literals_cons hr, List.map_append, List.map_flatMap,
      Kind.text?_plain, hown, List.flatMap_def, List.flatMap_def, List.map_map]
    exact congrArg (_ ++ ·) (congrArg List.flatten (List.map_congr_left hbelow))

namespace Grown

/-- Apart from conversions, a walk meets the nodes that it met before the forest grew. -/
theorem filter_preorder (h : Grown parsed forest) (hraw : parsed.Raw) :
    ∀ {top id : Nat}, id < parsed.size → Stands forest top id →
      (forest.preorder top).filter (fun m => !(forest.kind m).isConversion) =
        parsed.preorder id := by
  intro top
  induction hweight : forest.weight top using Nat.strong_induction_on generalizing top with
  | h weight ih =>
    intro id hid hstands
    rw [preorder_eq h.ranked]
    cases hstands with
    | refl =>
      have hkept : (forest.kind top).isConversion = false := by
        cases hkind : forest.kind top with
        | conversion change => exact absurd hkind (h.kind_ne_conversion hraw hid change)
        | _ => rfl
      rw [List.filter_cons, if_pos (by simp [hkept]), preorder_eq hraw.ranked, List.filter_flatMap,
        List.flatMap_def, List.flatMap_def]
      refine congrArg (fun parts : List (List NodeId) => top :: parts.flatten) ?_
      refine map_eq_map_of_forall₂ (h.children top hid) fun part hpart whole hwhole => ?_
      refine ih _ ?_ rfl (hraw.linked.lt_size hwhole)
      rw [← hweight]
      exact weight_lt h.ranked hpart
    | @wrap _ inner _ change hkind hchildren hinner =>
      have hconversion : (forest.kind top).isConversion = true := by rw [hkind]; rfl
      rw [List.filter_cons, if_neg (by simp [hconversion]), hchildren, List.flatMap_cons,
        List.flatMap_nil, List.append_nil]
      refine ih _ ?_ rfl hid hinner
      rw [← hweight]
      exact weight_lt h.ranked (by simp [hchildren])

/-- The strings of a program are the ones that were parsed, in the same order. -/
theorem literals_eq {root : NodeId} (h : Grown parsed forest) (hparsed : parsed.Parsed root) :
    forest.literals root = parsed.literals root := by
  have hraw := hparsed.raw
  have hkind : ∀ m ∈ parsed.preorder root, (forest.kind m).isString = (parsed.kind m).isString := by
    intro m hm
    have hlt := ((mem_preorder hraw.ranked).mp hm).lt_size hraw.linked hparsed.lt_size
    rw [Kind.isString_eq, Kind.isString_eq, ← h.bare m hlt, Kind.text?_bare]
  rw [literals, literals, ← List.filter_congr hkind,
    ← h.filter_preorder hraw hparsed.lt_size (.refl root), List.filter_filter]
  refine List.filter_congr fun m _ => ?_
  cases forest.kind m <;> rfl

/-- Strings keep their texts. -/
theorem text_eq (h : Grown parsed forest) {m : Nat} (hm : m < parsed.size) :
    forest.text m = parsed.text m := by
  rw [text, text, ← h.bare m hm, Kind.text?_bare]

end Grown

end Forest

end MiniC
