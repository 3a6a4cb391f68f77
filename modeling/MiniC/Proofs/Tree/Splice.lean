import MiniC.Proofs.Tree.Links
import MiniC.Tree.Coerce

/-!
# Splicing conversions in

A conversion takes the place of the expression that it is made for, which becomes its only child.
`Inserted` says exactly what this changes: one new node, the slot of the old parent or the root, and the
link of the expression to its parent. `Spliced` is the same for an expression below another node, with
the nodes named that change. Forests stay linked and ranked.
-/

namespace MiniC.Forest

variable {forest other : Forest}

/-- Puts `new` in the place of `old`. -/
def swap (old new id : NodeId) : NodeId := if id = old then new else id

@[simp] theorem swap_self (old new : NodeId) : swap old new old = new := by simp [swap]

theorem swap_of_ne {old new id : NodeId} (h : id ≠ old) : swap old new id = id := by simp [swap, h]

@[simp] theorem swap_same (id : NodeId) : swap id id = fun other => other := by
  funext other
  by_cases h : other = id
  · rw [h, swap_self]
  · rw [swap_of_ne h]

/-- A list without `new` in which `old` has been swapped for it holds what it held, up to the swap. -/
theorem mem_map_swap {old new id : NodeId} {ids : List NodeId} (hold : old ∈ ids) :
    id ∈ ids.map (swap old new) ↔ id = new ∨ id ∈ ids ∧ id ≠ old := by
  simp only [List.mem_map]
  constructor
  · rintro ⟨c, hc, rfl⟩
    by_cases h : c = old
    · simp [h]
    · simp [swap_of_ne h, hc, h]
  · rintro (rfl | ⟨hid, hne⟩)
    · exact ⟨old, hold, by simp⟩
    · exact ⟨id, hid, swap_of_ne hne⟩

theorem nodup_map_swap {old new : NodeId} {ids : List NodeId} (h : ids.Nodup) (hnew : new ∉ ids) :
    (ids.map (swap old new)).Nodup := by
  refine h.map_on fun a ha b hb hab => ?_
  have ne_new : ∀ c ∈ ids, c ≠ new := fun c hc hcn => hnew (hcn ▸ hc)
  have := ne_new a ha
  have := ne_new b hb
  grind [swap]

theorem map_swap_of_not_mem {old new : NodeId} {ids : List NodeId} (h : old ∉ ids) :
    ids.map (swap old new) = ids := by
  have hid : ∀ c ∈ ids, swap old new c = c := fun c hc => swap_of_ne fun hco => h (hco ▸ hc)
  rw [List.map_congr_left hid]
  exact List.map_id' ids

theorem replace_eq_map_swap {old new : NodeId} {ids : List NodeId} (h : ids.Nodup) :
    ids.replace old new = ids.map (swap old new) := by
  induction ids with
  | nil => rfl
  | cons c ids ih =>
    obtain ⟨hc, hids⟩ := List.nodup_cons.mp h
    by_cases hco : c = old
    · subst hco
      simp [map_swap_of_not_mem hc]
    · have hbeq : (old == c) = false := by simpa using Ne.symm hco
      simp [List.replace_cons, hbeq, swap_of_ne hco, ih hids]

/-! ## Links that change -/

@[simp] theorem size_setRoot {id : NodeId} : (forest.setRoot id).size = forest.size := rfl

@[simp] theorem node_setRoot {id m : NodeId} : (forest.setRoot id).node m = forest.node m := rfl

@[simp] theorem root_setRoot {id : NodeId} : (forest.setRoot id).root = some id := rfl

theorem node_append {parent child : Nat} (hp : parent < forest.size) (hc : child < forest.size)
    (hne : child ≠ parent) (m : NodeId) :
    (forest.append parent child).node m =
      if m = parent then
        { forest.node parent with children := forest.children parent ++ [child] }
      else if m = child then { forest.node child with parent := some parent }
      else forest.node m := by
  simp only [append]
  rw [node_update _ _ _ _ (by simpa using hp), node_update _ _ _ _ hc, node_update _ _ _ _ hc]
  simp [Ne.symm hne, children]

/-- A child gives its slot to another node. -/
theorem exists_replace? {p old new : Nat} (hmem : old ∈ forest.children p)
    (hnodup : (forest.children p).Nodup) (hold : old < forest.size) (hnew : new < forest.size) :
    ∃ other, forest.replace? p old new = some other ∧ other.size = forest.size ∧
      other.root = forest.root ∧ ∀ m, other.node m =
        { forest.node m with
          parent := if m = old then none else if m = new then some p else forest.parent m
          children := if m = p then (forest.children p).map (swap old new) else forest.children m } := by
  have hp : p < forest.size := lt_size_of_mem_children hmem
  refine ⟨_, if_pos hmem, by simp, rfl, fun m => ?_⟩
  simp only [node_update, size_update, hp, hold, hnew, ← replace_eq_map_swap hnodup]
  split_ifs <;> simp_all [parent, children]

/-- Only the parent of a node has it as a child. -/
theorem Linked.map_swap_of_ne {m : NodeId} (hl : forest.Linked) {old new : NodeId}
    (hne : forest.parent old ≠ some m) :
    (forest.children m).map (swap old new) = forest.children m :=
  map_swap_of_not_mem fun hmem => hne (hl.parent_of_mem hmem)

/-- A linked forest in which nothing is around the root. -/
structure Anchored (forest : Forest) : Prop where
  linked : forest.Linked
  lt_size : ∀ root ∈ forest.root, root < forest.size
  parent_root : ∀ root ∈ forest.root, forest.parent root = none

/-! ## Any place -/

/-- What a conversion that is put into the place of `id` changes. -/
structure Inserted (forest other : Forest) (id : NodeId) (change : Conversion) : Prop where
  size_eq : other.size = forest.size + 1
  root_eq : other.root =
    if forest.parent id = none then forest.root.map (swap id forest.size) else forest.root
  node_new : other.node forest.size =
    { kind := .conversion change, line := forest.line id, scope := (forest.node id).scope,
      parent := forest.parent id, children := [id], function := (forest.node id).function,
      type := some change.target }
  node_old : ∀ m < forest.size, other.node m =
    { forest.node m with
      parent := if m = id then some forest.size else forest.parent m
      children := (forest.children m).map (swap id forest.size) }

/-- A node that has just been added gets the place of `id`, which is then nowhere. -/
theorem exists_seated (hl : forest.Linked) {id : Nat} (hid : id < forest.size) {base : Forest}
    (hsize : base.size = forest.size + 1) (hroot : base.root = forest.root)
    (hnew : base.parent forest.size = none) (hold : ∀ m < forest.size, base.node m = forest.node m) :
    ∃ seated : Forest,
      (match forest.parent id with
        | some p => (base.replace? p id forest.size).getD base
        | none => if base.root = some id then base.setRoot forest.size else base) = seated ∧
      seated.size = forest.size + 1 ∧
      seated.root =
        (if forest.parent id = none then forest.root.map (swap id forest.size) else forest.root) ∧
      seated.node forest.size = { base.node forest.size with parent := forest.parent id } ∧
      ∀ m < forest.size, seated.node m =
        { forest.node m with
          parent := if m = id then none else forest.parent m
          children := (forest.children m).map (swap id forest.size) } := by
  have hchildren : ∀ m < forest.size, base.children m = forest.children m := fun m hm => by
    rw [children, hold m hm, children]
  cases hp : forest.parent id with
  | none =>
    refine ⟨_, rfl, by split_ifs <;> simp [hsize], ?_, ?_, fun m hm => ?_⟩
    · rw [hroot]
      cases hforest : forest.root with
      | none => simp [hroot, hforest]
      | some root => by_cases hid : root = id <;> simp [swap, hid, hroot, hforest]
    · split_ifs <;> simp [← hnew, parent]
    · have hnode : (if base.root = some id then base.setRoot forest.size else base).node m =
          forest.node m := by
        rw [← hold m hm]
        split_ifs <;> rfl
      have hparent : (if m = id then none else forest.parent m) = forest.parent m := by
        split_ifs with hmid
        · rw [hmid, hp]
        · rfl
      rw [hl.map_swap_of_ne (by simp [hp]), hparent]
      exact hnode
  | some p =>
    have hplt : p < forest.size := lt_size_of_mem_children (hl.mem_of_parent hp)
    have hmem : id ∈ base.children p := hchildren p hplt ▸ hl.mem_of_parent hp
    have hnodup : (base.children p).Nodup := hchildren p hplt ▸ hl.nodup p
    obtain ⟨seated, hseated, hsize', hroot', hnode⟩ :=
      exists_replace? hmem hnodup (by omega) (by omega : forest.size < base.size)
    refine ⟨seated, by simp [hseated], hsize'.trans hsize, by simp [hroot', hroot], ?_, fun m hm => ?_⟩
    · rw [hnode, if_neg (Nat.ne_of_gt hid), if_pos rfl, if_neg (Nat.ne_of_gt hplt)]
      rfl
    · have hparent : base.parent m = forest.parent m := by rw [parent, hold m hm, parent]
      have hslot : (if m = p then (forest.children p).map (swap id forest.size) else forest.children m) =
          (forest.children m).map (swap id forest.size) := by
        split_ifs with hmp
        · rw [hmp]
        · exact (hl.map_swap_of_ne (by rw [hp]; exact fun h => hmp (Option.some.inj h).symm)).symm
      rw [hnode, hold m hm, hchildren p hplt, hchildren m hm, if_neg (Nat.ne_of_lt hm), hparent, hslot]

/-- A conversion is put into the place of its expression, wherever that is. -/
theorem inserted_of_wrap (hl : forest.Linked) {id : Nat} (hid : id < forest.size)
    (change : Conversion) :
    Inserted forest ((forest.wrap id (.conversion change)).1.setType forest.size change.target) id
      change := by
  set base := (forest.add (.conversion change) (forest.line id)).1.update forest.size fun node =>
    { node with scope := (forest.node id).scope, function := (forest.node id).function } with hbase
  have hsize : base.size = forest.size + 1 := by rw [hbase, size_update, size_add]
  have hnew : base.node forest.size =
      { kind := .conversion change, line := forest.line id, scope := (forest.node id).scope
        function := (forest.node id).function } := by
    have hadded : (forest.add (.conversion change) (forest.line id)).1.node forest.size = _ :=
      node_add_self ..
    rw [hbase, node_update _ _ _ _ (by rw [size_add]; exact Nat.lt_succ_self _), if_pos rfl, hadded]
  have hold : ∀ m < forest.size, base.node m = forest.node m := fun m hm => by
    rw [hbase, node_update_of_ne _ _ (Nat.ne_of_lt hm), node_add_of_lt _ _ _ hm]
  obtain ⟨seated, hseated, hsize', hroot, hnode, hrest⟩ :=
    exists_seated hl hid hsize rfl (by rw [parent, hnew]) hold
  have hwrap : (forest.wrap id (.conversion change)).1 = seated.append forest.size id := by
    rw [← hseated]
    rfl
  have hslt : forest.size < seated.size := by omega
  have happend := node_append hslt (by omega : id < seated.size) (Nat.ne_of_lt hid)
  rw [hwrap]
  refine ⟨by simp [setType, hsize'], hroot, ?_, fun m hm => ?_⟩
  · rw [setType, node_update _ _ _ _ (by simpa using hslt), if_pos rfl, happend, if_pos rfl, hnode,
      hnew, children, hnode, hnew]
    rfl
  · have hne : m ≠ forest.size := Nat.ne_of_lt hm
    rw [setType, node_update_of_ne _ _ hne, happend, if_neg hne]
    by_cases hmid : m = id
    · rw [if_pos hmid, hrest id hid, hmid]
      simp
    · rw [if_neg hmid, hrest m hm, if_neg hmid, if_neg hmid]

/-- Converting an expression that does not have the type yet, if there is a conversion. -/
theorem inserted_of_convert (hl : forest.Linked) {id : NodeId} {source target : Ty} {coercion : Coercion}
    (hs : forest.type? id = some source) (hsame : source.same target = false)
    (hc : source.conversion? target = some coercion) :
    ∃ other, forest.convert id target = .ok (other, forest.size) ∧
      Inserted forest other id ⟨source, target, coercion⟩ := by
  have hid : id < forest.size := lt_size_of_type (by simp [hs])
  refine ⟨_, ?_, inserted_of_wrap hl hid ⟨source, target, coercion⟩⟩
  have hwrapper : (forest.wrap id (.conversion ⟨source, target, coercion⟩)).2 = forest.size := rfl
  simp [convert, hs, hsame, hc, hwrapper]

namespace Inserted

variable {id : Nat} {change : Conversion}

theorem children_new (h : Inserted forest other id change) : other.children forest.size = [id] := by
  rw [children, h.node_new]

theorem children_old (h : Inserted forest other id change) {m : Nat} (hm : m < forest.size) :
    other.children m = (forest.children m).map (swap id forest.size) := by
  rw [children, h.node_old m hm]

theorem parent_new (h : Inserted forest other id change) :
    other.parent forest.size = forest.parent id := by rw [parent, h.node_new]

theorem type_new (h : Inserted forest other id change) :
    other.type? forest.size = some change.target := by rw [type?, h.node_new]

/-- A root that is nobody's child is swapped like a child. -/
theorem root_eq_map (h : Inserted forest other id change)
    (hroot : ∀ root ∈ forest.root, forest.parent root = none) :
    other.root = forest.root.map (swap id forest.size) := by
  rw [h.root_eq]
  split_ifs with hp
  · rfl
  · cases hr : forest.root with
    | none => rfl
    | some root =>
      have hne : root ≠ id := by
        rintro rfl
        exact hp (hroot root hr)
      rw [Option.map_some, swap_of_ne hne]

theorem parent_inner (h : Inserted forest other id change) (hid : id < forest.size) :
    other.parent id = some forest.size := by rw [parent, h.node_old id hid, if_pos rfl]

theorem parent_old (h : Inserted forest other id change) {m : Nat} (hm : m < forest.size)
    (hne : m ≠ id) : other.parent m = forest.parent m := by
  rw [parent, h.node_old m hm, if_neg hne]

/-- A node that is neither the expression nor its parent stays as it is. -/
theorem node_eq (h : Inserted forest other id change) (hl : forest.Linked) {m : Nat}
    (hm : m < forest.size) (hid : m ≠ id) (hp : forest.parent id ≠ some m) :
    other.node m = forest.node m := by
  rw [h.node_old m hm, if_neg hid, hl.map_swap_of_ne hp]
  rfl

theorem mem_children_iff (h : Inserted forest other id change) (hl : forest.Linked) {q c : Nat} :
    c ∈ other.children q ↔
      q = forest.size ∧ c = id ∨
        forest.parent id = some q ∧ c = forest.size ∨ c ∈ forest.children q ∧ c ≠ id := by
  rcases Nat.lt_trichotomy q forest.size with hq | rfl | hq
  · rw [h.children_old hq]
    by_cases hp : forest.parent id = some q
    · simp [mem_map_swap (hl.mem_of_parent hp), hp, Nat.ne_of_lt hq]
    · have hne : c ∈ forest.children q → c ≠ id := by
        rintro hc rfl
        exact hp (hl.parent_of_mem hc)
      rw [hl.map_swap_of_ne hp]
      simp only [hp, Nat.ne_of_lt hq, false_and, false_or]
      exact ⟨fun hc => ⟨hc, hne hc⟩, And.left⟩
  · have hold : forest.children forest.size = [] := by
      rw [children, node_of_size_le (Nat.le_refl _)]
      rfl
    have hp : forest.parent id ≠ some forest.size := fun hp =>
      Nat.lt_irrefl _ (lt_size_of_mem_children (hl.mem_of_parent hp))
    simp [h.children_new, hold, hp]
  · have hold : forest.children q = [] := by
      rw [children, node_of_size_le (Nat.le_of_lt hq)]
      rfl
    have hnew : other.children q = [] := by
      rw [children, node_of_size_le (h.size_eq ▸ hq)]
      rfl
    have hp : forest.parent id ≠ some q := fun hp => by
      have hmem := hl.mem_of_parent hp
      rw [hold] at hmem
      cases hmem
    simp [hnew, hold, hp, Nat.ne_of_gt hq]

theorem linked (h : Inserted forest other id change) (hl : forest.Linked) (hid : id < forest.size) :
    other.Linked := by
  refine ⟨?_, ?_, ?_⟩
  · intro q c hc
    rcases (h.mem_children_iff hl).mp hc with ⟨rfl, rfl⟩ | ⟨hp, rfl⟩ | ⟨hc, hne⟩
    · exact h.parent_inner hid
    · rw [h.parent_new, hp]
    · rw [h.parent_old (hl.lt_size hc) hne]
      exact hl.parent_of_mem hc
  · intro q c hc
    rw [h.mem_children_iff hl]
    by_cases hcid : c = id
    · subst hcid
      rw [h.parent_inner hid] at hc
      exact .inl ⟨(Option.some.inj hc).symm, rfl⟩
    · refine .inr ?_
      have hclt := lt_size_of_parent hc
      rw [h.size_eq] at hclt
      rcases Nat.lt_or_eq_of_le (Nat.le_of_lt_succ hclt) with hclt | rfl
      · rw [h.parent_old hclt hcid] at hc
        exact .inr ⟨hl.mem_of_parent hc, hcid⟩
      · exact .inl ⟨h.parent_new ▸ hc, rfl⟩
  · intro q
    rcases Nat.lt_trichotomy q forest.size with hq | rfl | hq
    · rw [h.children_old hq]
      exact nodup_map_swap (hl.nodup q) fun hmem => Nat.lt_irrefl _ (hl.lt_size hmem)
    · rw [h.children_new]
      exact List.nodup_singleton id
    · rw [children, node_of_size_le (h.size_eq ▸ hq)]
      exact List.nodup_nil

/-- If the expression is the root, its conversion is the new one. -/
theorem anchored (h : Inserted forest other id change) (ha : forest.Anchored) (hid : id < forest.size) :
    other.Anchored := by
  have hlast : ∀ root ∈ other.root, root < other.size ∧ other.parent root = none := by
    intro root hmem
    rw [h.root_eq_map ha.parent_root, Option.mem_def, Option.map_eq_some_iff] at hmem
    obtain ⟨old, hold, rfl⟩ := hmem
    have hlt := ha.lt_size old hold
    rw [h.size_eq]
    by_cases hne : old = id
    · rw [hne, swap_self, h.parent_new, ← hne]
      exact ⟨Nat.lt_succ_self _, ha.parent_root old hold⟩
    · rw [swap_of_ne hne, h.parent_old hlt hne]
      exact ⟨Nat.lt_succ_of_lt hlt, ha.parent_root old hold⟩
  exact ⟨h.linked ha.linked hid, fun root hmem => (hlast root hmem).1,
    fun root hmem => (hlast root hmem).2⟩

/-- The conversion is ranked between the expression and what was around it. -/
theorem ranked (h : Inserted forest other id change) (hl : forest.Linked) (hr : forest.Ranked)
    (hid : id < forest.size) : other.Ranked := by
  obtain ⟨rank, hrank⟩ := hr
  refine ⟨fun m => if m = forest.size then 2 * rank id + 1 else 2 * rank m, ?_⟩
  intro q c hc
  rcases (h.mem_children_iff hl).mp hc with ⟨rfl, rfl⟩ | ⟨hp, rfl⟩ | ⟨hc, -⟩
  · simp [Nat.ne_of_lt hid]
  · have hmem := hl.mem_of_parent hp
    have hq : q ≠ forest.size := Nat.ne_of_lt (lt_size_of_mem_children hmem)
    have := hrank hmem
    simp only [if_true, if_neg hq]
    omega
  · have hq : q ≠ forest.size := Nat.ne_of_lt (lt_size_of_mem_children hc)
    have hcne : c ≠ forest.size := Nat.ne_of_lt (hl.lt_size hc)
    have := hrank hc
    simp only [if_neg hcne, if_neg hq]
    omega

end Inserted

/-! ## Below another node -/

/-- What a conversion made for `id`, a child of `p`, changes. -/
structure Spliced (forest other : Forest) (id p : NodeId) (change : Conversion) : Prop where
  size_eq : other.size = forest.size + 1
  root_eq : other.root = forest.root
  node_new : other.node forest.size =
    { kind := .conversion change, line := forest.line id, scope := (forest.node id).scope,
      parent := some p, children := [id], function := (forest.node id).function,
      type := some change.target }
  node_inner : other.node id = { forest.node id with parent := some forest.size }
  node_outer : other.node p =
    { forest.node p with children := (forest.children p).map (swap id forest.size) }
  node_other : ∀ m, m ≠ forest.size → m ≠ id → m ≠ p → other.node m = forest.node m

/-- Below another node, these are the nodes that change. -/
theorem Inserted.spliced {id p : Nat} {change : Conversion} (h : Inserted forest other id change)
    (hl : forest.Linked) (hr : forest.Ranked) (hp : forest.parent id = some p) :
    Spliced forest other id p change := by
  have hmem := hl.mem_of_parent hp
  have hid : id < forest.size := hl.lt_size hmem
  have hne : p ≠ id := (hr.ne_of_mem hmem).symm
  refine ⟨h.size_eq, by simp [h.root_eq, hp], by rw [h.node_new, hp], ?_, ?_, fun m hm hmid hmp => ?_⟩
  · rw [h.node_old id hid, if_pos rfl, hl.map_swap_of_ne (by simpa [hp] using hne)]
    rfl
  · rw [h.node_old p (lt_size_of_mem_children hmem), if_neg hne]
    rfl
  · by_cases hlt : m < forest.size
    · exact h.node_eq hl hlt hmid (by simpa [hp] using Ne.symm hmp)
    · have hle : other.size ≤ m := by
        rw [h.size_eq]
        exact Nat.lt_of_le_of_ne (Nat.le_of_not_lt hlt) (Ne.symm hm)
      rw [node_of_size_le hle, node_of_size_le (Nat.le_of_not_lt hlt)]

namespace Spliced

variable {id p : Nat} {change : Conversion}

theorem children_new (h : Spliced forest other id p change) :
    other.children forest.size = [id] := by rw [children, h.node_new]

theorem parent_new (h : Spliced forest other id p change) :
    other.parent forest.size = some p := by rw [parent, h.node_new]

theorem type_new (h : Spliced forest other id p change) :
    other.type? forest.size = some change.target := by rw [type?, h.node_new]

/-- Apart from the slot of the old parent, every node keeps its children. -/
theorem children_other (h : Spliced forest other id p change) {m : NodeId} (hp : m ≠ p)
    (hm : m ≠ forest.size) : other.children m = forest.children m := by
  by_cases hid : m = id
  · rw [children, hid, h.node_inner]; rfl
  · rw [children, h.node_other m hm hid hp]; rfl

theorem children_outer (h : Spliced forest other id p change) :
    other.children p = (forest.children p).map (swap id forest.size) := by
  rw [children, h.node_outer]

/-- Apart from the expression and its conversion, every node keeps its parent. -/
theorem parent_other (h : Spliced forest other id p change) {m : NodeId} (hid : m ≠ id)
    (hm : m ≠ forest.size) : other.parent m = forest.parent m := by
  by_cases hp : m = p
  · rw [parent, hp, h.node_outer]; rfl
  · rw [parent, h.node_other m hm hid hp]; rfl

theorem parent_inner (h : Spliced forest other id p change) :
    other.parent id = some forest.size := by rw [parent, h.node_inner]

/-- About the nodes that were there, only links change. -/
theorem node_kept (h : Spliced forest other id p change) {m : NodeId} (hm : m ≠ forest.size) :
    other.node m =
      { forest.node m with parent := other.parent m, children := other.children m } := by
  by_cases hmid : m = id
  · rw [parent, children, hmid, h.node_inner]
  · by_cases hmp : m = p
    · rw [parent, children, hmp, h.node_outer]
    · rw [parent, children, h.node_other m hm hmid hmp]

/-- An expression that a conversion has been spliced in above is not around itself. -/
theorem ne (h : Spliced forest other id p change) (hl : forest.Linked)
    (hp : forest.parent id = some p) : p ≠ id := by
  rintro rfl
  have hmem := hl.mem_of_parent hp
  have hsame : other.children p = forest.children p := by
    rw [children, h.node_inner]
    rfl
  rcases (mem_map_swap hmem).mp (h.children_outer ▸ hsame ▸ hmem) with heq | ⟨-, hne⟩
  · exact Nat.lt_irrefl _ (heq ▸ hl.lt_size hmem)
  · exact hne rfl

theorem inserted (h : Spliced forest other id p change) (hl : forest.Linked)
    (hp : forest.parent id = some p) : Inserted forest other id change := by
  have hne := h.ne hl hp
  refine ⟨h.size_eq, by simp [h.root_eq, hp], by rw [h.node_new, hp], fun m hm => ?_⟩
  by_cases hmid : m = id
  · rw [hmid, h.node_inner, if_pos rfl, hl.map_swap_of_ne (by simpa [hp] using hne)]
    rfl
  · rw [if_neg hmid]
    by_cases hmp : m = p
    · rw [hmp, h.node_outer]
      rfl
    · rw [h.node_other m (Nat.ne_of_lt hm) hmid hmp,
        hl.map_swap_of_ne (by simpa [hp] using Ne.symm hmp)]
      rfl

theorem linked (h : Spliced forest other id p change) (hl : forest.Linked)
    (hp : forest.parent id = some p) : other.Linked :=
  (h.inserted hl hp).linked hl (hl.lt_size (hl.mem_of_parent hp))

theorem ranked (h : Spliced forest other id p change) (hl : forest.Linked) (hr : forest.Ranked)
    (hp : forest.parent id = some p) : other.Ranked :=
  (h.inserted hl hp).ranked hl hr (hl.lt_size (hl.mem_of_parent hp))

end Spliced

/-- What can come of converting a typed expression below another node: it has the type already, it
cannot have it, or a conversion is spliced in. -/
theorem convert_cases (hl : forest.Linked) (hr : forest.Ranked) {id p : Nat} {source : Ty}
    (target : Ty) (hp : forest.parent id = some p) (hs : forest.type? id = some source) :
    source.same target ∧ forest.convert id target = .ok (forest, id) ∨
    source.same target = false ∧ forest.convert id target =
      .error ⟨.noConversion source.text target.text, forest.line id⟩ ∨
    ∃ coercion other, source.same target = false ∧ source.conversion? target = some coercion ∧
      forest.convert id target = .ok (other, forest.size) ∧
      Spliced forest other id p ⟨source, target, coercion⟩ := by
  by_cases hsame : source.same target
  · exact .inl ⟨hsame, convert_of_same hs hsame⟩
  · rw [Bool.not_eq_true] at hsame
    cases hc : source.conversion? target with
    | none => exact .inr (.inl ⟨hsame, by simp [convert, hs, hsame, hc]⟩)
    | some coercion =>
      obtain ⟨other, hconvert, hinserted⟩ := inserted_of_convert hl hs hsame hc
      exact .inr (.inr ⟨coercion, other, hsame, rfl, hconvert, hinserted.spliced hl hr hp⟩)

end MiniC.Forest
