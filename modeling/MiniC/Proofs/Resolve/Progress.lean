import MiniC.Proofs.Resolve.Convert

/-!
# Resolving the children of a node

While the expressions in the slots of a node are resolved one after the other, the first slots hold
what now stands in the place of its children and the others hold children that have not been touched.
`Progress` says this of a moment, `Evaluated` what the resolution of one child ensures.
-/

namespace MiniC.Resolve

open Forest Ensures

variable {parsed : Forest} {start state state' : Resolution} {n p c top top' : NodeId}
  {done todo : List NodeId} {target : Ty}

/-- What the names in scope stand for can be reached, and is in the same frame if the scope is the
innermost. -/
structure Visible (parsed : Forest) (table : SymbolTable) (function : Option NodeId) : Prop where
  reached : ∀ scope ∈ table.scopes, ∀ entry ∈ scope,
    Reached parsed table function entry.2 ∧ (table.symbol entry.2).name = entry.1
  own : ∀ scope, table.scopes.head? = some scope → ∀ entry ∈ scope,
    (table.symbol entry.2).frame = function

/-- The expression `n` in a slot of `p` can be resolved. -/
structure Awaits (parsed : Forest) (state : Resolution) (n p : NodeId) : Prop where
  consistent : Consistent parsed state
  mem : n ∈ parsed.children p
  role : parsed.role n = .expression
  ready : Ready parsed state.forest n
  visible : Visible parsed state.table (parsed.owningFunction n)
  untyped : state.forest.role p = .expression → state.forest.type? p = none

/-- The expression `n` in a slot of `p` has been resolved, and `top` stands in its place. -/
structure Evaluated (parsed : Forest) (state state' : Resolution) (n p top : NodeId) : Prop where
  replaced : Replaced parsed state.forest state'.forest n p top
  table_eq : state'.table = state.table
  session_eq : state'.session = state.session
  consistent : Consistent parsed state'
  typed : state'.forest.type? top ≠ none
  role : state'.forest.role top = .expression
  function_eq : (state'.forest.node top).function = parsed.owningFunction n

/-- What has been found out about other expressions stays as it is. -/
theorem Evaluated.retains (he : Evaluated parsed state state' n p top) (hraw : parsed.Raw)
    (h : Awaits parsed state n p) : state.forest.Retains state'.forest :=
  Keeps.retains (.of_replaced hraw h.consistent.grown he.consistent.grown h.ready he.replaced
    (hraw.linked.lt_size h.mem)) h.untyped

/-- A resolver that copes with the expressions below `levels`, and carries out their casts. -/
def Resolves (parsed : Forest) (inner : NodeId → Resolve NodeId) (levels : Nat) : Prop :=
  ∀ {state : Resolution} {n p : Nat}, n < levels → Awaits parsed state n p →
    Ensures (inner n) state (Refused parsed) fun top state' =>
      Evaluated parsed state state' n p top ∧ ∃ type, state'.forest.Cast parsed n top type

/-- Since `start`, the children of `n` have been resolved up to those that are still `todo`. -/
structure Progress (parsed : Forest) (start state : Resolution) (n : NodeId)
    (done todo : List NodeId) : Prop where
  lt_size : n < parsed.size
  size_le : parsed.size ≤ start.forest.size
  inside : Inside parsed start.forest state.forest n
  table_eq : state.table = start.table
  session_eq : state.session = start.session
  consistent : Consistent parsed state
  node_eq : state.forest.node n = { start.forest.node n with children := done ++ todo }
  done_new : ∀ d : Nat, d ∈ done → d ∈ parsed.children n ∨ start.forest.size ≤ d
  resolved : ∀ d ∈ done, state.forest.role d = .expression ∧ state.forest.type? d ≠ none ∧
    (state.forest.node d).function = parsed.owningFunction n
  waiting : ∀ c ∈ todo, c ∈ parsed.children n ∧ Ready parsed state.forest c

/-- What is around a child of a node that is no function is what is around the node. -/
theorem owningFunction_of_mem (hraw : parsed.Raw) (hc : c ∈ parsed.children n)
    (hn : (parsed.kind n).isFunction = false) :
    parsed.owningFunction c = parsed.owningFunction n := by
  rw [Forest.owningFunction_of_parent hraw.linked hraw.ranked (hraw.linked.parent_of_mem hc), hn]
  rfl

namespace Progress

theorem children_eq (h : Progress parsed start state n done todo) :
    state.forest.children n = done ++ todo := by rw [children, h.node_eq]

theorem type_eq (h : Progress parsed start state n done todo) :
    state.forest.type? n = start.forest.type? n := by
  rw [type?, h.node_eq]
  rfl

theorem role_eq (h : Progress parsed start state n done todo) :
    state.forest.role n = start.forest.role n := by
  rw [Forest.role, kind, h.node_eq]
  rfl

theorem kind_eq (h : Progress parsed start state n done todo) :
    state.forest.kind n = start.forest.kind n := by
  rw [kind, h.node_eq]
  rfl

theorem nodup (h : Progress parsed start state n done todo) : (done ++ todo).Nodup :=
  h.children_eq ▸ h.consistent.grown.linked.nodup n

theorem of_ready (hconsistent : Consistent parsed start) (hn : n < parsed.size)
    (hchildren : start.forest.children n = parsed.children n)
    (hready : ∀ c ∈ parsed.children n, Ready parsed start.forest c) :
    Progress parsed start start n [] (parsed.children n) where
  lt_size := hn
  size_le := hconsistent.grown.size_le
  inside := .refl
  table_eq := rfl
  session_eq := rfl
  consistent := hconsistent
  node_eq := by rw [List.nil_append, ← hchildren]; rfl
  done_new := nofun
  resolved := nofun
  waiting c hc := ⟨hc, hready c hc⟩

/-- The next child can be resolved. -/
theorem awaits (h : Progress parsed start state n done (c :: todo)) (hraw : parsed.Raw)
    (hrole : parsed.role c = .expression) (hn : (parsed.kind n).isFunction = false)
    (hvisible : Visible parsed start.table (parsed.owningFunction n))
    (huntyped : start.forest.role n = .expression → start.forest.type? n = none) :
    Awaits parsed state c n where
  consistent := h.consistent
  mem := (h.waiting c List.mem_cons_self).1
  role := hrole
  ready := (h.waiting c List.mem_cons_self).2
  visible := by
    rw [owningFunction_of_mem hraw (h.waiting c List.mem_cons_self).1 hn, h.table_eq]
    exact hvisible
  untyped hr := by
    rw [h.role_eq] at hr
    rw [h.type_eq]
    exact huntyped hr

/-- Resolving the next child leaves those that are resolved already as they are. -/
theorem step (h : Progress parsed start state n done (c :: todo)) (hraw : parsed.Raw)
    (hn : (parsed.kind n).isFunction = false)
    (he : Evaluated parsed state state' c n top) :
    Progress parsed start state' n (done ++ [top]) todo ∧
      ∀ d ∈ done, state'.forest.node d = state.forest.node d := by
  obtain ⟨hmem, hready⟩ := h.waiting c List.mem_cons_self
  have hl := h.consistent.grown.linked
  have hsize := h.size_le
  have hne : ∀ m, m ∈ state.forest.children n → m ≠ n :=
    fun _ hm => h.consistent.grown.ranked.ne_of_mem hm
  have hnodup := h.nodup
  have hdone : ∀ d ∈ done, d ≠ c := by
    rintro d hd rfl
    exact (List.nodup_append.mp hnodup).2.2 d hd d List.mem_cons_self rfl
  have htodo : ∀ d ∈ todo, d ≠ c := by
    rintro d hd rfl
    exact (List.nodup_cons.mp (List.nodup_append.mp hnodup).2.1).1 hd
  have hkeep : ∀ d ∈ done, state'.forest.node d = state.forest.node d := by
    intro d hd
    have hchild : d ∈ state.forest.children n := h.children_eq ▸ List.mem_append_left _ hd
    refine he.replaced.outside d (hl.lt_size hchild) ?_ (hne d hchild)
    rcases h.done_new d hd with hd' | hle
    · exact Below.apart hraw.linked hraw.ranked hd' hmem (hdone d hd) .refl
    · intro hbelow
      have := hbelow.lt_size hraw.linked (hraw.linked.lt_size hmem)
      omega
  have hmap : (done ++ c :: todo).map (swap c top) = done ++ [top] ++ todo := by
    have hmap_done : done.map (swap c top) = done :=
      (List.map_congr_left fun d hd => swap_of_ne (hdone d hd)).trans (List.map_id' _)
    have hmap_todo : todo.map (swap c top) = todo :=
      (List.map_congr_left fun d hd => swap_of_ne (htodo d hd)).trans (List.map_id' _)
    rw [List.map_append, List.map_cons, hmap_done, hmap_todo, swap_self, List.append_assoc]
    rfl
  refine ⟨⟨h.lt_size, h.size_le, h.inside.trans (he.replaced.inside hmem), he.table_eq.trans h.table_eq,
    he.session_eq.trans h.session_eq, he.consistent, ?_, ?_, ?_, ?_⟩, hkeep⟩
  · rw [he.replaced.outer, h.children_eq, hmap, h.node_eq]
  · intro d hd
    rcases List.mem_append.mp hd with hd | hd
    · exact h.done_new d hd
    · rw [List.mem_singleton.mp hd]
      rcases he.replaced.top_new with rfl | hle
      · exact .inl hmem
      · exact .inr (Nat.le_trans h.inside.size_le hle)
  · intro d hd
    rcases List.mem_append.mp hd with hd | hd
    · obtain ⟨hrole, htype, hfunction⟩ := h.resolved d hd
      rw [Forest.role, kind, type?, hkeep d hd]
      exact ⟨hrole, htype, hfunction⟩
    · rw [List.mem_singleton.mp hd]
      exact ⟨he.role, he.typed, he.function_eq.trans (owningFunction_of_mem hraw hmem hn)⟩
  · intro d hd
    obtain ⟨hd', hready'⟩ := h.waiting d (List.mem_cons_of_mem _ hd)
    exact ⟨hd', hready'.sibling hraw he.replaced hmem hd' (htodo d hd)⟩

/-- What has been resolved in a slot can be converted. -/
theorem operand (h : Progress parsed start state n done todo) (hmem : top ∈ done)
    (huntyped : start.forest.role n = .expression → start.forest.type? n = none) {type : Ty}
    (htype : state.forest.type? top = some type) : Operand parsed state top n type where
  consistent := h.consistent
  mem := h.children_eq ▸ List.mem_append_left _ hmem
  lt_size := h.lt_size
  role := (h.resolved top hmem).1
  untyped hr := by
    rw [h.role_eq] at hr
    rw [h.type_eq]
    exact huntyped hr
  type := htype

/-- Converting what has been resolved in a slot. -/
theorem converted (h : Progress parsed start state n done todo) (hraw : parsed.Raw)
    (hmem : top ∈ done) (hc : Converted parsed state state' top top' n) {type : Ty}
    (ho : Operand parsed state' top' n type) :
    Progress parsed start state' n (done.map (swap top top')) todo := by
  have hl := h.consistent.grown.linked
  have hsize := h.size_le
  have hnodup := h.nodup
  have hchild : ∀ d, d ∈ done ∨ d ∈ todo → d ∈ state.forest.children n := by
    intro d hd
    rw [h.children_eq]
    exact List.mem_append.mpr hd
  have hne : ∀ d, d ∈ done ∨ d ∈ todo → d ≠ n :=
    fun d hd => h.consistent.grown.ranked.ne_of_mem (hchild d hd)
  have htodo : ∀ d ∈ todo, d ≠ top := by
    rintro d hd rfl
    exact (List.nodup_append.mp hnodup).2.2 d hmem d hd rfl
  have hmap : (done ++ todo).map (swap top top') = done.map (swap top top') ++ todo := by
    rw [List.map_append, (List.map_congr_left fun d hd => swap_of_ne (htodo d hd)).trans
      (List.map_id' _)]
  have hmem_map : ∀ d ∈ done.map (swap top top'), d = top' ∨ d ∈ done ∧ d ≠ top := fun d hd =>
    (mem_map_swap hmem).mp hd
  refine ⟨h.lt_size, h.size_le, ⟨Nat.le_trans h.inside.size_le hc.size_le, ?_⟩,
    hc.table_eq.trans h.table_eq, hc.session_eq.trans h.session_eq, ho.consistent, ?_, ?_, ?_, ?_⟩
  · intro m hm hb
    rw [hc.other m (Nat.lt_of_lt_of_le hm h.inside.size_le) ?_ ?_]
    · exact h.inside.outside m hm hb
    · rintro rfl
      rcases h.done_new m hmem with hm' | hle
      · exact hb (.of_mem hm')
      · exact Nat.not_le.mpr hm hle
    · rintro rfl
      exact hb .refl
  · rw [hc.outer, h.children_eq, hmap, h.node_eq]
  · intro d hd
    rcases hmem_map d hd with rfl | ⟨hd, -⟩
    · rcases hc.new with rfl | hle
      · exact h.done_new _ hmem
      · exact .inr (Nat.le_trans h.inside.size_le hle)
    · exact h.done_new d hd
  · intro d hd
    rcases hmem_map d hd with rfl | ⟨hd, hdtop⟩
    · refine ⟨ho.role, by simp [ho.type], ?_⟩
      rw [hc.function]
      exact (h.resolved top hmem).2.2
    · rw [Forest.role, kind, type?, hc.other d (hl.lt_size (hchild d (.inl hd))) hdtop
        (hne d (.inl hd))]
      exact h.resolved d hd
  · intro c hcmem
    obtain ⟨hc', hready⟩ := h.waiting c hcmem
    refine ⟨hc', hready.of_outer hraw hc' hc.size_le ?_ ?_ ?_⟩
    · rw [parent, hc.outer]
      rfl
    · rw [kind, hc.outer]
      rfl
    · intro m hm hmn hbelow
      refine hc.other m hm ?_ hmn
      rintro rfl
      rcases h.done_new m hmem with hm' | hle
      · have hmc : m ≠ c := (htodo c hcmem).symm
        rcases hbelow with hbelow | hbelow
        · exact Below.apart hraw.linked hraw.ranked hc' hm' hmc.symm hbelow .refl
        · exact Below.apart hraw.linked hraw.ranked hc' hm' hmc.symm .refl hbelow
      · have hlt : m < parsed.size := by
          rcases hbelow with hbelow | hbelow
          · exact hbelow.lt_size hraw.linked (hraw.linked.lt_size hc')
          · cases hbelow with
            | refl => exact hraw.linked.lt_size hc'
            | child hmem _ => exact lt_size_of_mem_children hmem
        omega

/-- Converting what has been resolved last. -/
theorem converted_last (h : Progress parsed start state n (done ++ [top]) todo) (hraw : parsed.Raw)
    (hc : Converted parsed state state' top top' n) {type : Ty}
    (ho : Operand parsed state' top' n type) :
    Progress parsed start state' n (done ++ [top']) todo := by
  have hdone : ∀ d ∈ done, d ≠ top := by
    rintro d hd rfl
    have hnodup := (List.nodup_append.mp h.nodup).1
    exact (List.nodup_append.mp hnodup).2.2 d hd d List.mem_cons_self rfl
  have hmap : (done ++ [top]).map (swap top top') = done ++ [top'] := by
    rw [List.map_append, (List.map_congr_left fun d hd => swap_of_ne (hdone d hd)).trans
      (List.map_id' _), List.map_singleton, swap_self]
  exact hmap ▸ h.converted hraw (List.mem_append_right _ List.mem_cons_self) hc ho

end Progress

end MiniC.Resolve
