import MiniC.Proofs.Tree.Shape
import MiniC.Proofs.Tree.Splice

/-!
# Adding a node above others

A step of construction adds one node and makes some roots its children. `adopt` is the forest behind
it. Raw forests stay raw if the children play the roles that the kind asks for.
-/

namespace MiniC.Forest

variable {forest : Forest}

/-- Links `children` below a node, in order. -/
def link (forest : Forest) (id : NodeId) (children : List NodeId) : Forest :=
  children.foldl (fun forest child => forest.append id child) forest

/-- A new node above `children`. -/
def adopt (forest : Forest) (kind : Kind) (line : Nat) (children : List NodeId) : Forest :=
  (forest.add kind line).1.link forest.size children

@[simp] theorem size_link (forest : Forest) (id : NodeId) (children : List NodeId) :
    (forest.link id children).size = forest.size := by
  induction children generalizing forest with
  | nil => rfl
  | cons child children ih =>
    show ((forest.append id child).link id children).size = forest.size
    rw [ih, size_append]

@[simp] theorem root_link (forest : Forest) (id : NodeId) (children : List NodeId) :
    (forest.link id children).root = forest.root := by
  induction children generalizing forest with
  | nil => rfl
  | cons child children ih =>
    show ((forest.append id child).link id children).root = forest.root
    rw [ih]
    rfl

theorem line_update {id : NodeId} {change : Node → Node} (h : ∀ node, (change node).line = node.line)
    (m : NodeId) : (forest.update id change).line m = forest.line m := by
  simp only [line, node_update_eq]
  split
  · rename_i hm
    rw [h, hm.1]
  · rfl

/-- Links change no line. -/
theorem line_link (id : NodeId) (children : List NodeId) (m : NodeId) :
    (forest.link id children).line m = forest.line m := by
  induction children generalizing forest with
  | nil => rfl
  | cons child children ih =>
    show ((forest.append id child).link id children).line m = forest.line m
    rw [ih, append, line_update, line_update]
    · exact fun _ => rfl
    · exact fun _ => rfl

theorem node_link {id : Nat} (hid : id < forest.size) {children : List NodeId}
    (hlt : ∀ c : Nat, c ∈ children → c < forest.size) (hnot : id ∉ children)
    (hnodup : children.Nodup) (m : NodeId) :
    (forest.link id children).node m =
      if m = id then { forest.node id with children := forest.children id ++ children }
      else if m ∈ children then { forest.node m with parent := some id }
      else forest.node m := by
  induction children generalizing forest with
  | nil =>
    by_cases hm : m = id
    · simp [link, hm, Forest.children]
    · simp [link, hm]
  | cons child others ih =>
    obtain ⟨hchild, hothers⟩ := List.nodup_cons.mp hnodup
    have hne : child ≠ id := fun h => hnot (h ▸ List.mem_cons_self)
    have hclt : child < forest.size := hlt child List.mem_cons_self
    have hstep := node_append hid hclt hne
    show ((forest.append id child).link id others).node m = _
    rw [ih (by simpa using hid) (fun c hc => by simpa using hlt c (List.mem_cons_of_mem _ hc))
      (fun h => hnot (List.mem_cons_of_mem _ h)) hothers]
    by_cases hm : m = id
    · simp [hm, hstep, Forest.children]
    · by_cases hmc : m = child
      · subst hmc
        simp [hm, hstep, hchild]
      · simp [hm, hmc, hstep]

/-- Some nodes without a parent, none of them twice. -/
structure Free (forest : Forest) (ids : List NodeId) : Prop where
  lt_size : ∀ id : Nat, id ∈ ids → id < forest.size
  parent_eq : ∀ id ∈ ids, forest.parent id = none
  nodup : ids.Nodup

theorem Free.perm {ids others : List NodeId} (h : forest.Free ids) (hp : ids.Perm others) :
    forest.Free others :=
  ⟨fun id hid => h.lt_size id (hp.mem_iff.mpr hid), fun id hid => h.parent_eq id (hp.mem_iff.mpr hid),
    hp.nodup_iff.mp h.nodup⟩

theorem Free.of_append_left {ids others : List NodeId} (h : forest.Free (ids ++ others)) :
    forest.Free ids :=
  ⟨fun id hid => h.lt_size id (List.mem_append_left _ hid),
    fun id hid => h.parent_eq id (List.mem_append_left _ hid), (List.nodup_append.mp h.nodup).1⟩

theorem Free.of_append_right {ids others : List NodeId} (h : forest.Free (ids ++ others)) :
    forest.Free others :=
  ⟨fun id hid => h.lt_size id (List.mem_append_right _ hid),
    fun id hid => h.parent_eq id (List.mem_append_right _ hid), (List.nodup_append.mp h.nodup).2.1⟩

section Adopt

variable {kind : Kind} {line : Nat} {children : List NodeId}

@[simp] theorem size_adopt : (forest.adopt kind line children).size = forest.size + 1 := by
  simp [adopt]

/-- What adding a node above free ones changes. -/
theorem node_adopt (hf : forest.Free children) (m : NodeId) :
    (forest.adopt kind line children).node m =
      if m = forest.size then { kind, line, children }
      else if m ∈ children then { forest.node m with parent := some forest.size }
      else forest.node m := by
  have hnot : forest.size ∉ children := fun h => Nat.lt_irrefl _ (hf.lt_size _ h)
  have hlt : ∀ c : Nat, c ∈ children → c < (forest.add kind line).1.size := fun c hc => by
    rw [size_add]
    exact Nat.lt_succ_of_lt (hf.lt_size c hc)
  have hnew : (forest.add kind line).1.node forest.size = { kind, line } := node_add_self ..
  have hold : ∀ c : Nat, c ≠ forest.size → (forest.add kind line).1.node c = forest.node c := by
    intro c hc
    by_cases hsize : c < forest.size
    · exact node_add_of_lt forest kind line hsize
    · rw [node_of_size_le (by simp; omega), node_of_size_le (by omega)]
  rw [adopt, node_link (by simp) hlt hnot hf.nodup]
  by_cases hm : m = forest.size
  · simp [hm, hnew, Forest.children]
  · simp [hm, hold m hm]

theorem kind_adopt (hf : forest.Free children) (m : NodeId) :
    (forest.adopt kind line children).kind m = if m = forest.size then kind else forest.kind m := by
  simp only [Forest.kind, node_adopt hf]
  split
  · rfl
  · split <;> rfl

theorem children_adopt (hf : forest.Free children) (m : NodeId) :
    (forest.adopt kind line children).children m =
      if m = forest.size then children else forest.children m := by
  simp only [Forest.children, node_adopt hf]
  split
  · rfl
  · split <;> rfl

theorem parent_adopt (hf : forest.Free children) (m : NodeId) :
    (forest.adopt kind line children).parent m =
      if m = forest.size then none
      else if m ∈ children then some forest.size
      else forest.parent m := by
  simp only [parent, node_adopt hf]
  split
  · rfl
  · split <;> rfl

/-- The new node is free in the place of its children. -/
theorem free_adopt {others : List NodeId} (h : forest.Free (children ++ others)) :
    (forest.adopt kind line children).Free (forest.size :: others) := by
  have hnew : forest.size ∉ others := fun hm => Nat.lt_irrefl _ (h.of_append_right.lt_size _ hm)
  refine ⟨fun m hm => ?_, fun m hm => ?_, List.nodup_cons.mpr ⟨hnew, h.of_append_right.nodup⟩⟩
  · rw [size_adopt]
    rcases List.mem_cons.mp hm with rfl | hm
    · exact Nat.lt_succ_self _
    · exact Nat.lt_succ_of_lt (h.of_append_right.lt_size m hm)
  · rw [parent_adopt h.of_append_left]
    rcases List.mem_cons.mp hm with rfl | hm
    · simp
    · have hne : m ≠ forest.size := fun he => hnew (he ▸ hm)
      have hnot : m ∉ children := fun hmem => (List.nodup_append.mp h.nodup).2.2 m hmem m hm rfl
      rw [if_neg hne, if_neg hnot]
      exact h.of_append_right.parent_eq m hm

theorem role_adopt (hf : forest.Free children) {m : Nat} (hm : m < forest.size) :
    (forest.adopt kind line children).role m = forest.role m := by
  have hne : m ≠ forest.size := by omega
  simp [role, kind_adopt hf, hne]

theorem linked_adopt (hl : forest.Linked) (hf : forest.Free children) :
    (forest.adopt kind line children).Linked := by
  have hlt : ∀ {p c : Nat}, c ∈ forest.children p → c ≠ forest.size ∧ p ≠ forest.size := by
    intro p c hc
    have := hl.lt_size hc
    have := lt_size_of_mem_children hc
    omega
  refine ⟨?_, ?_, ?_⟩
  · intro p c hc
    rw [children_adopt hf] at hc
    rw [parent_adopt hf]
    split at hc
    · next hp =>
      have hcne : c ≠ forest.size := fun h => Nat.lt_irrefl _ (h ▸ hf.lt_size c hc)
      simp [hcne, hc, hp]
    · have hparent := hl.parent_of_mem hc
      have hcnot : c ∉ children := fun h => by simp [hf.parent_eq c h] at hparent
      simp [(hlt hc).1, hcnot, hparent]
  · intro p c hc
    rw [parent_adopt hf] at hc
    rw [children_adopt hf]
    split at hc
    · cases hc
    · split at hc
      · next hmem => simpa [(Option.some.inj hc).symm] using hmem
      · have hmem := hl.mem_of_parent hc
        simpa [(hlt hmem).2] using hmem
  · intro p
    rw [children_adopt hf]
    split
    · exact hf.nodup
    · exact hl.nodup p

theorem raw_adopt (h : forest.Raw) (hf : forest.Free children) (hfresh : kind.Fresh)
    (hkind : kind.Holds (children.map forest.role)) : (forest.adopt kind line children).Raw := by
  refine ⟨linked_adopt h.linked hf, ?_, ?_, ?_, ?_⟩
  · intro p c hc
    rw [children_adopt hf] at hc
    split at hc
    · next hp => exact hp ▸ hf.lt_size c hc
    · exact h.rising hc
  · intro id
    have hold := h.fresh id
    rw [node_adopt hf]
    split
    · exact ⟨hfresh, rfl, rfl, rfl⟩
    · split
      · exact ⟨hold.kind, hold.scope, hold.function, hold.type⟩
      · exact hold
  · intro id
    rw [kind_adopt hf, roles, children_adopt hf]
    split
    · rwa [List.map_congr_left fun c hc => role_adopt hf (hf.lt_size c hc)]
    · have hshape := h.shaped id
      rwa [roles, ← List.map_congr_left fun c hc => role_adopt hf (h.linked.lt_size hc)] at hshape
  · intro id
    have hcasts := h.casts id
    rw [node_adopt hf]
    split
    · simp
    · split <;> exact hcasts

end Adopt

end MiniC.Forest
