import MiniC.Tree.Forest
import Mathlib.Data.Finset.Card
import Mathlib.Data.List.Find
import Mathlib.Data.List.Nodup
import Mathlib.Tactic.Common

/-!
# Links of a forest

A forest is linked if parents and children name each other, and ranked if no node is around itself.
`Below` is the order that the links make. In a linked and ranked forest the parts below two children
of one node are apart, which is what lets a step on one part leave the others alone. In a tree as it
is read every node comes before its parent (`Rising`), so a number bounds how deep it nests.
-/

namespace MiniC.Forest

variable {forest : Forest}

/-- Parents and children name each other, and no node is a child twice. -/
structure Linked (forest : Forest) : Prop where
  parent_of_mem : ∀ {p c}, c ∈ forest.children p → forest.parent c = some p
  mem_of_parent : ∀ {p c}, forest.parent c = some p → c ∈ forest.children p
  nodup : ∀ p, (forest.children p).Nodup

/-- Some rank falls from every node to its children. -/
def Ranked (forest : Forest) : Prop :=
  ∃ rank : NodeId → Nat, ∀ {p c}, c ∈ forest.children p → rank c < rank p

/-- Every node comes before its parent. -/
def Rising (forest : Forest) : Prop := ∀ {p c : Nat}, c ∈ forest.children p → c < p

/-- A node is another one or a node below it. -/
inductive Below (forest : Forest) (id : NodeId) : NodeId → Prop
  | refl : Below forest id id
  | child {p c : NodeId} : c ∈ forest.children p → Below forest id c → Below forest id p

theorem Rising.ranked (h : forest.Rising) : forest.Ranked := ⟨fun id => id, fun hc => h hc⟩

theorem node_of_size_le {id : Nat} (h : forest.size ≤ id) : forest.node id = default := by
  have : forest.nodes.size ≤ id := h
  simp [node, this]

theorem lt_size_of_mem_children {p c : Nat} (h : c ∈ forest.children p) : p < forest.size := by
  by_contra hp
  rw [children, node_of_size_le (Nat.le_of_not_lt hp)] at h
  cases h

theorem Linked.lt_size (hl : forest.Linked) {p c : Nat} (h : c ∈ forest.children p) :
    c < forest.size := by
  by_contra hc
  have hparent := hl.parent_of_mem h
  rw [parent, node_of_size_le (Nat.le_of_not_lt hc)] at hparent
  cases hparent

theorem Linked.isLinked (hl : forest.Linked) : forest.isLinked = true := by
  rw [Forest.isLinked, List.all_eq_true]
  intro id _
  rw [List.all_eq_true]
  intro c hc
  rw [hl.parent_of_mem hc, beq_self_eq_true]

/-- No node is a child twice, of one node or of two. -/
theorem Linked.nodup_flatMap_children (hl : forest.Linked) {ids : List NodeId} (hids : ids.Nodup) :
    (ids.flatMap forest.children).Nodup := by
  refine List.nodup_flatMap.mpr ⟨fun p _ => hl.nodup p, hids.imp fun {p q} hne c hp hq => hne ?_⟩
  exact Option.some.inj ((hl.parent_of_mem hp).symm.trans (hl.parent_of_mem hq))

theorem lt_size_of_parent {p c : Nat} (h : forest.parent c = some p) : c < forest.size := by
  by_contra hc
  rw [parent, node_of_size_le (Nat.le_of_not_lt hc)] at h
  cases h

theorem lt_size_of_type {id : Nat} (h : forest.type? id ≠ none) : id < forest.size := by
  by_contra hid
  exact h (by rw [type?, node_of_size_le (Nat.le_of_not_lt hid)]; rfl)

namespace Below

variable {a b id n p : Nat}

theorem trans (h : forest.Below a b) (hn : forest.Below b n) : forest.Below a n := by
  induction hn with
  | refl => exact h
  | child hc _ ih => exact child hc ih

theorem of_mem (h : a ∈ forest.children p) : forest.Below a p := child h refl

/-- A node below another one is that node or below one of its children. -/
theorem eq_or_child (h : forest.Below id p) :
    id = p ∨ ∃ c ∈ forest.children p, forest.Below id c := by
  cases h with
  | refl => exact .inl rfl
  | child hc h => exact .inr ⟨_, hc, h⟩

/-- What passes from a node to its children holds of everything below. -/
theorem descend {P : NodeId → Prop} (h : forest.Below id n) (htop : P n)
    (hstep : ∀ p c, forest.Below p n → c ∈ forest.children p → P p → P c) : P id := by
  induction h with
  | refl => exact htop
  | @child p c hc _ ih =>
    exact ih (hstep p c .refl hc htop) fun p' c' hp' hc' => hstep p' c' (.child hc hp') hc'

/-- The parent of a node properly below another one is below it too. -/
theorem exists_parent (hl : forest.Linked) (h : forest.Below id n) (hne : id ≠ n) :
    ∃ q, forest.parent id = some q ∧ forest.Below q n := by
  induction h with
  | refl => exact absurd rfl hne
  | @child p c hc _ ih =>
    by_cases hid : id = c
    · exact ⟨p, hid ▸ hl.parent_of_mem hc, refl⟩
    · obtain ⟨q, hq, hbelow⟩ := ih hid
      exact ⟨q, hq, child hc hbelow⟩

/-- Nodes around one node are around each other. -/
theorem comparable (hl : forest.Linked) (ha : forest.Below id a) (hb : forest.Below id b) :
    forest.Below a b ∨ forest.Below b a := by
  induction ha with
  | refl => exact .inl hb
  | @child p c hc _ ih =>
    rcases ih with h | h
    · by_cases hcb : c = b
      · exact .inr (hcb ▸ of_mem hc)
      · obtain ⟨q, hq, hbelow⟩ := h.exists_parent hl hcb
        rw [hl.parent_of_mem hc] at hq
        exact .inl (Option.some.inj hq ▸ hbelow)
    · exact .inr (child hc h)

theorem lt_size (hl : forest.Linked) (h : forest.Below id n) (hn : n < forest.size) :
    id < forest.size := by
  induction h with
  | refl => exact hn
  | child hc _ ih => exact ih (hl.lt_size hc)

theorem le (hr : forest.Rising) (h : forest.Below id n) : id ≤ n := by
  induction h with
  | refl => exact Nat.le_refl _
  | child hc _ ih => exact Nat.le_trans ih (Nat.le_of_lt (hr hc))

theorem rank_le {rank : NodeId → Nat} (hr : ∀ {p c}, c ∈ forest.children p → rank c < rank p)
    (h : forest.Below id n) : rank id ≤ rank n := by
  induction h with
  | refl => exact Nat.le_refl _
  | child hc _ ih => exact Nat.le_trans ih (Nat.le_of_lt (hr hc))

/-- No node is below its child. -/
theorem not_child (hr : forest.Ranked) (hc : a ∈ forest.children p) : ¬forest.Below p a := by
  obtain ⟨rank, hrank⟩ := hr
  intro h
  have := h.rank_le hrank
  have := hrank hc
  omega

theorem antisymm (hr : forest.Ranked) (h : forest.Below a b) (h' : forest.Below b a) : a = b := by
  cases h with
  | refl => rfl
  | child hc hbelow => exact absurd (h'.trans hbelow) (not_child hr hc)

/-- What is below one child of a node is not below another one. -/
theorem apart (hl : forest.Linked) (hr : forest.Ranked) (ha : a ∈ forest.children p)
    (hb : b ∈ forest.children p) (hne : a ≠ b) (h : forest.Below id a) : ¬forest.Below id b := by
  -- One child would be below the other, and then their common parent as well.
  have clash : ∀ {x y}, x ∈ forest.children p → y ∈ forest.children p → x ≠ y →
      ¬forest.Below x y := by
    intro x y hx hy hxy hbelow
    obtain ⟨q, hq, hqy⟩ := hbelow.exists_parent hl hxy
    rw [hl.parent_of_mem hx] at hq
    exact not_child hr hy (Option.some.inj hq ▸ hqy)
  intro h'
  rcases comparable hl h h' with h | h
  · exact clash ha hb hne h
  · exact clash hb ha (Ne.symm hne) h

end Below

/-- No node is a child of its own. -/
theorem Ranked.ne_of_mem (hr : forest.Ranked) {c p : Nat} (hc : c ∈ forest.children p) : c ≠ p :=
  fun he => Below.not_child hr hc (he ▸ .refl)

open Classical in
/-- How many nodes are below a node, itself included. It bounds how deep the node nests. -/
noncomputable def weight (forest : Forest) (id : NodeId) : Nat :=
  ((Finset.range forest.size).filter fun n => forest.Below n id).card

theorem weight_le (forest : Forest) (id : NodeId) : forest.weight id ≤ forest.size := by
  classical
  exact (Finset.card_filter_le _ _).trans (Finset.card_range _).le

/-- Fewer nodes are below a child than below its parent. -/
theorem weight_lt (hr : forest.Ranked) {p c : NodeId}
    (hc : c ∈ forest.children p) : forest.weight c < forest.weight p := by
  classical
  refine Finset.card_lt_card (Finset.ssubset_iff_of_subset ?_ |>.mpr ⟨p, ?_, ?_⟩)
  · exact Finset.monotone_filter_right _ fun _ _ h => h.trans (.of_mem hc)
  · exact Finset.mem_filter.mpr ⟨Finset.mem_range.mpr (lt_size_of_mem_children hc), .refl⟩
  · exact fun h => Below.not_child hr hc (Finset.mem_filter.mp h).2

/-! ## Nodes around a node -/

theorem below_of_mem_ancestorsUpTo (hl : forest.Linked) :
    ∀ {steps : Nat} {id a : NodeId}, a ∈ forest.ancestorsUpTo steps id → forest.Below id a := by
  intro steps
  induction steps with
  | zero => intro id a h; cases h
  | succ steps ih =>
    intro id a h
    simp only [ancestorsUpTo] at h
    split at h
    · cases h
    · next p hp =>
      have hid := Below.of_mem (hl.mem_of_parent hp)
      rcases List.mem_cons.mp h with rfl | h
      · exact hid
      · exact hid.trans (ih h)

/-- In a ranked forest a walk towards the root ends before it has met as many nodes as there are. -/
theorem ancestorsUpTo_add (hl : forest.Linked) (hr : forest.Ranked) (more : Nat) :
    ∀ {steps id : Nat}, forest.size ≤ forest.weight id + steps →
      forest.ancestorsUpTo (steps + more) id = forest.ancestorsUpTo steps id := by
  intro steps
  induction steps with
  | zero =>
    intro id h
    cases more with
    | zero => rfl
    | succ more =>
      simp only [ancestorsUpTo]
      split
      · rfl
      · next p hp =>
        have := weight_lt hr (hl.mem_of_parent hp)
        have := weight_le forest p
        omega
  | succ steps ih =>
    intro id h
    rw [Nat.succ_add]
    simp only [ancestorsUpTo]
    split
    · rfl
    · next p hp =>
      have := weight_lt hr (hl.mem_of_parent hp)
      rw [ih (by omega)]

/-- The nodes around a node are its parent and those around that. -/
theorem ancestors_of_parent (hl : forest.Linked) (hr : forest.Ranked) {p c : Nat}
    (hp : forest.parent c = some p) : forest.ancestors c = p :: forest.ancestors p := by
  have hlt := weight_lt hr (hl.mem_of_parent hp)
  have hsize := lt_size_of_mem_children (hl.mem_of_parent hp)
  obtain ⟨steps, hsteps⟩ : ∃ steps, forest.size = steps + 1 := ⟨forest.size - 1, by omega⟩
  have hrest : forest.ancestorsUpTo (steps + 1) p = forest.ancestorsUpTo steps p :=
    ancestorsUpTo_add hl hr 1 (by omega)
  simp only [ancestors, hsteps] at hrest ⊢
  rw [hrest]
  simp [ancestorsUpTo, hp]

/-- A forest in which the links above a node are the same has the same nodes around it. -/
theorem ancestors_congr {other : Forest} (hl : forest.Linked) (hr : forest.Ranked) {id : NodeId}
    (hsize : forest.size ≤ other.size)
    (hparent : ∀ a, forest.Below id a → other.parent a = forest.parent a) :
    other.ancestors id = forest.ancestors id := by
  have same : ∀ steps id, (∀ a, forest.Below id a → other.parent a = forest.parent a) →
      other.ancestorsUpTo steps id = forest.ancestorsUpTo steps id := by
    intro steps
    induction steps with
    | zero => intro id _; rfl
    | succ steps ih =>
      intro id h
      simp only [ancestorsUpTo, h id .refl]
      split
      · rfl
      · next p hp =>
        rw [ih p fun a ha => h a ((Below.of_mem (hl.mem_of_parent hp)).trans ha)]
  obtain ⟨more, hmore⟩ := Nat.le.dest hsize
  rw [ancestors, same _ _ hparent, ← hmore, ancestors]
  exact ancestorsUpTo_add hl hr more (by omega)

/-- The function around a child is its parent or the one around that. -/
theorem owningFunction_of_parent (hl : forest.Linked) (hr : forest.Ranked) {p c : NodeId}
    (hp : forest.parent c = some p) :
    forest.owningFunction c =
      if (forest.kind p).isFunction then some p else forest.owningFunction p := by
  rw [owningFunction, ancestors_of_parent hl hr hp, List.find?_cons]
  split <;> simp_all [owningFunction]

/-- The loop around a child is its parent or, unless that is a function, the one around that. -/
theorem enclosingLoop_of_parent (hl : forest.Linked) (hr : forest.Ranked) {p c : NodeId}
    (hp : forest.parent c = some p) :
    forest.enclosingLoop c =
      if (forest.kind p).isLoop then some p
      else if (forest.kind p).isFunction then none else forest.enclosingLoop p := by
  simp only [enclosingLoop, ancestors_of_parent hl hr hp, List.find?_cons]
  by_cases hloop : (forest.kind p).isLoop <;> by_cases hfun : (forest.kind p).isFunction <;>
    simp [hloop, hfun]

theorem below_of_owningFunction (hl : forest.Linked) {id f : NodeId}
    (h : forest.owningFunction id = some f) :
    forest.Below id f ∧ (forest.kind f).isFunction := by
  refine ⟨below_of_mem_ancestorsUpTo hl (List.mem_of_find?_eq_some h), ?_⟩
  simpa using List.find?_some h

/-- In a rising forest the nodes around a node come after it. -/
theorem lt_of_mem_ancestors (hl : forest.Linked) (hr : forest.Rising) {id a : Nat}
    (hmem : a ∈ forest.ancestors id) : id < a ∧ a < forest.size := by
  cases hp : forest.parent id with
  | none =>
    unfold ancestors at hmem
    cases hsize : forest.size <;> simp [hsize, ancestorsUpTo, hp] at hmem
  | some p =>
    rw [ancestors_of_parent hl (Rising.ranked hr) hp] at hmem
    have hchild := hl.mem_of_parent hp
    have hbelow : forest.Below p a := by
      rcases List.mem_cons.mp hmem with rfl | hmem
      · exact .refl
      · exact below_of_mem_ancestorsUpTo hl hmem
    refine ⟨Nat.lt_of_lt_of_le (hr hchild) (hbelow.le hr), ?_⟩
    cases hbelow with
    | refl => exact lt_size_of_mem_children hchild
    | child hc _ => exact lt_size_of_mem_children hc

/-- In a rising forest the function around a node comes after it. -/
theorem lt_of_owningFunction (hl : forest.Linked) (hr : forest.Rising) {id f : Nat}
    (h : forest.owningFunction id = some f) : id < f ∧ f < forest.size :=
  lt_of_mem_ancestors hl hr (List.mem_of_find?_eq_some h)

/-- In a rising forest the loop around a node comes after it. -/
theorem lt_of_enclosingLoop (hl : forest.Linked) (hr : forest.Rising) {id loop : Nat}
    (h : forest.enclosingLoop id = some loop) : id < loop ∧ loop < forest.size :=
  lt_of_mem_ancestors hl hr (List.mem_of_find?_eq_some (Option.filter_eq_some_iff.mp h).1)

theorem below_of_enclosingLoop (hl : forest.Linked) {id loop : NodeId}
    (h : forest.enclosingLoop id = some loop) :
    forest.Below id loop ∧ (forest.kind loop).isLoop := by
  obtain ⟨hfind, hloop⟩ := Option.filter_eq_some_iff.mp h
  exact ⟨below_of_mem_ancestorsUpTo hl (List.mem_of_find?_eq_some hfind), hloop⟩

/-- What a node is asked for on the way to the function or the loop around another one. -/
structure SameAround (forest other : Forest) (id : NodeId) : Prop where
  size_le : forest.size ≤ other.size
  parent : ∀ a, forest.Below id a → other.parent a = forest.parent a
  isFunction : ∀ a, forest.Below id a → (other.kind a).isFunction = (forest.kind a).isFunction
  isLoop : ∀ a, forest.Below id a → (other.kind a).isLoop = (forest.kind a).isLoop

namespace SameAround

variable {other : Forest} {id : NodeId}

theorem ancestors_eq (h : SameAround forest other id) (hl : forest.Linked) (hr : forest.Ranked) :
    other.ancestors id = forest.ancestors id := ancestors_congr hl hr h.size_le h.parent

theorem owningFunction_eq (h : SameAround forest other id) (hl : forest.Linked)
    (hr : forest.Ranked) : other.owningFunction id = forest.owningFunction id := by
  rw [owningFunction, h.ancestors_eq hl hr, owningFunction]
  exact List.find?_congr fun a ha => h.isFunction a (below_of_mem_ancestorsUpTo hl ha)

theorem enclosingLoop_eq (h : SameAround forest other id) (hl : forest.Linked)
    (hr : forest.Ranked) : other.enclosingLoop id = forest.enclosingLoop id := by
  have hbarrier : ∀ a ∈ forest.ancestors id,
      ((other.kind a).isLoop || (other.kind a).isFunction) =
        ((forest.kind a).isLoop || (forest.kind a).isFunction) := by
    intro a ha
    have hbelow := below_of_mem_ancestorsUpTo hl ha
    rw [h.isLoop a hbelow, h.isFunction a hbelow]
  rw [enclosingLoop, enclosingLoop, h.ancestors_eq hl hr, List.find?_congr hbarrier]
  cases hfind : (forest.ancestors id).find? fun node =>
      (forest.kind node).isLoop || (forest.kind node).isFunction with
  | none => rfl
  | some a =>
    have ha := below_of_mem_ancestorsUpTo hl (List.mem_of_find?_eq_some hfind)
    simp [Option.filter, h.isLoop a ha]

end SameAround

end MiniC.Forest
