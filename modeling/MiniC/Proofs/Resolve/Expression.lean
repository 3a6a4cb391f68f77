import MiniC.Proofs.Resolve.Operators

/-!
# Resolving expressions

Resolving an expression of a parsed forest ends with an ordinary fault, or leaves a judged expression
in its place. Levels never run out, because every child comes before its parent.
-/

namespace MiniC

/-- A conversion of what stands in a slot stands there next. -/
theorem Forest.Replaced.converted {parsed forest : Forest} {state state' : Resolution}
    {n p top top' : NodeId} (h : Replaced parsed forest state.forest n p top)
    (hc : Resolve.Converted parsed state state' top top' p) (hlinked : forest.Linked)
    (hn : n < forest.size) : Replaced parsed forest state'.forest n p top' := by
  have hsize := h.size_le
  have hne : ∀ m : Nat, m < forest.size → m ≠ n → m ≠ top := by
    intro m hm hmn
    rcases h.top_new with rfl | hle
    · exact hmn
    · omega
  refine ⟨Nat.le_trans hsize hc.size_le, ?_, ?_, ?_⟩
  · have hmap : ((forest.children p).map (swap n top)).map (swap top top') =
        (forest.children p).map (swap n top') := by
      rw [List.map_map]
      refine List.map_congr_left fun c hc => ?_
      by_cases hcn : c = n
      · simp [hcn]
      · simp [swap_of_ne hcn, swap_of_ne (hne c (hlinked.lt_size hc) hcn)]
    rw [hc.outer, h.children_outer, hmap, h.outer]
  · intro m hm hb hmp
    have hmn : m ≠ n := fun he => hb (he ▸ .refl)
    rw [hc.other m (Nat.lt_of_lt_of_le hm hsize) (hne m hm hmn) hmp]
    exact h.outside m hm hb hmp
  · rcases hc.new with rfl | hle
    · exact h.top_new
    · exact .inr (Nat.le_trans hsize hle)

namespace Resolve

open Forest Ensures

variable {parsed : Forest} {start state state' : Resolution} {n p top top' : NodeId} {type : Ty}
  {inner : NodeId → Resolve NodeId} {levels : Nat}

theorem ensures_byKind (hraw : parsed.Raw) (hinner : Resolves parsed inner levels)
    (hlevels : n ≤ levels) (h : Begun parsed state n) :
    Ensures (byKind inner n) state (Refused parsed) fun type state' =>
      Founded parsed state state' n type := by
  have hholds := h.holds hraw
  have hrole := h.role_eq
  have hleaf : ∀ {type : Ty}, parsed.roles n = [] → type.Shallow →
      ExpressionRule parsed state.table state.forest n type →
      OperandsRule parsed state.table state.forest n → Founded parsed state state n type := by
    intro type hroles hshallow hrule hoperands
    refine h.founded_of_leaf ?_ hshallow hrule hoperands
    rw [h.children_eq]
    exact List.map_eq_nil_iff.mp hroles
  unfold byKind
  refine (bind_iff ..).mpr (ensures_forest.mpr ?_)
  cases hkind : state.forest.kind n with
  | int =>
    rw [hkind] at hholds
    exact hleaf hholds shallow_int (by simp only [ExpressionRule, hkind])
      (by simp only [OperandsRule, hkind])
  | char | string =>
    rw [hkind] at hholds
    exact hleaf hholds trivial (by simp only [ExpressionRule, hkind])
      (by simp only [OperandsRule, hkind])
  | identifier => exact ensures_identifier hraw h hkind
  | call => exact ensures_call hraw hinner hlevels h hkind
  | binary => exact ensures_binary hraw hinner hlevels h hkind
  | unary => exact ensures_unary hraw hinner hlevels h hkind
  | subscript => exact ensures_subscript hraw hinner hlevels h hkind
  | conversion change =>
    exact absurd hkind (h.consistent.grown.kind_ne_conversion hraw h.lt_size change)
  | type part =>
    rw [Forest.role, hkind] at hrole
    cases hform : part.form <;> simp [Kind.role, hform] at hrole
  | _ => simp [Forest.role, hkind, Kind.role] at hrole

/-- An expression that can be resolved begins by being annotated. -/
theorem begun_of_awaits (hraw : parsed.Raw) (h : Awaits parsed state n p) :
    Begun parsed (annotated state n) n ∧
      Noted state.forest (annotated state n).forest n := by
  have hlt : n < parsed.size := hraw.linked.lt_size h.mem
  obtain ⟨hconsistent, hn, hnode⟩ := h.consistent.annotated hraw hlt h.ready
  refine ⟨⟨hconsistent, hlt, h.role, ?_, ?_, ?_, ?_,
    fun c hc => (h.ready.part hraw hc).noted hraw hn hc, h.visible⟩, hn⟩
  · rw [kind, hnode, kind]
  · rw [children, hnode, children]
  · rw [type?, hnode]
    exact (hraw.fresh n).type
  · rw [hnode]

namespace Evaluated

/-- What stands in the place of an expression can be converted. -/
theorem operand (he : Evaluated parsed start state n p top) (hraw : parsed.Raw)
    (h : Awaits parsed start n p) (htype : state.forest.type? top = some type) :
    Operand parsed state top p type := by
  have hmem : n ∈ start.forest.children p := by
    refine h.consistent.grown.linked.mem_of_parent ?_
    rw [h.ready.parent_eq]
    exact hraw.linked.parent_of_mem h.mem
  refine ⟨he.consistent, ?_, lt_size_of_mem_children h.mem, he.role, ?_, htype⟩
  · rw [he.replaced.children_outer]
    exact List.mem_map.mpr ⟨n, hmem, swap_self ..⟩
  · intro hrole
    rw [Forest.role, kind, he.replaced.outer] at hrole
    rw [type?, he.replaced.outer]
    exact h.untyped hrole

/-- A conversion of what stands in the place of an expression stands there next. -/
theorem converted (he : Evaluated parsed start state n p top) (hraw : parsed.Raw)
    (h : Awaits parsed start n p) (hc : Converted parsed state state' top top' p)
    (ho : Operand parsed state' top' p type) : Evaluated parsed start state' n p top' := by
  have hlt : n < start.forest.size :=
    Nat.lt_of_lt_of_le (hraw.linked.lt_size h.mem) h.consistent.grown.size_le
  refine ⟨he.replaced.converted hc h.consistent.grown.linked hlt, hc.table_eq.trans he.table_eq,
    hc.session_eq.trans he.session_eq, ho.consistent, ?_, ho.role,
    hc.function.trans he.function_eq⟩
  rw [ho.type]
  exact Option.some_ne_none _

end Evaluated

/-- Converting what stands in the place of an expression. -/
theorem ensures_convertTop {target : Ty} (hraw : parsed.Raw) (h : Awaits parsed start n p)
    (he : Evaluated parsed start state n p top) (hcast : state.forest.Cast parsed n top type)
    (htarget : target.Shallow) :
    Ensures (convert top target) state (Refused parsed) fun top' state' =>
      Evaluated parsed start state' n p top' ∧ state'.forest.HasType top' target ∧
        state'.forest.Supplied parsed top' n top type [target] := by
  have hoperand := he.operand hraw h hcast.type
  refine (ensures_convert hraw hoperand htarget).imp ?_
  rintro top' state' ⟨path, hcarried⟩
  exact ⟨he.converted hraw h hcarried.converted hcarried.operand, hcarried.hasType,
    hcarried.supplied hoperand hcast⟩

/-- Casts are carried out in the order in which they are listed. -/
theorem ensures_castThrough {casts : List Ty} (hraw : parsed.Raw)
    (h : Operand parsed state top p type) (hcasts : ∀ cast ∈ casts, cast.Flat) :
    Ensures (castThrough top casts) state (Refused parsed) fun top' state' =>
      ∃ path, Carried parsed state state' top top' p type casts path := by
  induction casts generalizing state top type with
  | nil => exact ⟨[], .refl h⟩
  | cons cast casts ih =>
    simp only [castThrough, bind_iff]
    refine (ensures_convert hraw h (hcasts cast List.mem_cons_self).shallow).imp ?_
    rintro middle state₁ ⟨path, hcarried⟩
    refine (ih hcarried.operand fun cast hcast => hcasts cast (List.mem_cons_of_mem _ hcast)).imp ?_
    rintro top' state' ⟨path', hcarried'⟩
    exact ⟨path ++ path', hcarried.trans h hcarried'⟩

/-- An expression whose casts have been carried out. -/
theorem Carried.cast {path : List Conversion} (hraw : parsed.Raw) (hlt : n < parsed.size)
    (h : Operand parsed state n p type)
    (hc : Carried parsed state state' n top p type (parsed.node n).casts path) :
    state'.forest.Cast parsed n top (type.after path) := by
  have hagrees := hc.converted.retains h.untyped n h.role (by simp [h.type])
  refine ⟨?_, ?_, ⟨type, path, hagrees.type_eq.trans h.type, hc.route, hc.stacked⟩, hc.operand.type⟩
  · rw [Forest.role, hagrees.kind_eq]
    exact h.role
  · have hne := hc.operand.consistent.grown.kind_ne_conversion hraw hlt
    cases hk : state'.forest.kind n with
    | conversion change => exact absurd hk (hne change)
    | _ => rfl

/-- Giving a founded expression its type. -/
theorem evaluated_of_founded (hraw : parsed.Raw) (h : Awaits parsed start n p)
    (hf : Founded parsed state state' n type) (hinside : Inside parsed start.forest state.forest n)
    (htable : state.table = start.table) (hsession : state.session = start.session) :
    Evaluated parsed start { state' with forest := state'.forest.setType n type } n p n := by
  have hlt : n < parsed.size := hraw.linked.lt_size h.mem
  have hlt' : n < state'.forest.size := Nat.lt_of_lt_of_le hlt hf.consistent.grown.size_le
  have hn := noted_setType hlt' type
  have hnode : (state'.forest.setType n type).node n =
      { state'.forest.node n with type := some type } := by
    rw [setType, node_update _ _ _ _ hlt', if_pos rfl]
  have hrole : state'.forest.role n = .expression :=
    (hf.consistent.grown.role_eq hlt).trans h.role
  refine ⟨?_, hf.table_eq.trans htable, hf.session_eq.trans hsession, ?_, ?_, ?_, ?_⟩
  · refine .of_inside ((hinside.trans hf.inside).trans (.of_noted hn)) ?_ ?_
    · exact Nat.lt_of_lt_of_le (lt_size_of_mem_children h.mem) h.consistent.grown.size_le
    · exact Below.not_child hraw.ranked h.mem
  · refine hf.consistent.noted hraw hn (fun _ => ⟨hf.untyped, ?_⟩) (fun hne => absurd hrole hne)
      ?_ ?_
    · intro type' htype
      rw [type?, hnode, Option.some.injEq] at htype
      subst htype
      refine hf.judged.mono (by rw [kind, hnode, kind]) (hn.children n) (by rw [hnode]) ?_ .refl
      intro c hc m hm
      refine .of_node (hn.node_eq m ?_)
      rintro rfl
      exact Below.not_child hf.consistent.grown.ranked hc hm
    · rw [kind, hnode, kind]
    · intro name s hcall
      refine hf.consistent.called n name s ?_
      rw [← hcall, kind, kind, hnode]
  · rw [type?, hnode]
    exact Option.some_ne_none _
  · rw [hn.role]
    exact hrole
  · rw [hnode]
    exact hf.function_eq

/-- Expressions with fewer nodes before them than there are levels are resolved. -/
theorem resolves_expressionWithin (hraw : parsed.Raw) (levels : Nat) :
    Resolves parsed (expressionWithin levels) levels := by
  induction levels with
  | zero =>
    intro state n p hlt
    exact absurd hlt (Nat.not_lt_zero n)
  | succ levels ih =>
    intro state n p hlt h
    have hlt' : n < parsed.size := hraw.linked.lt_size h.mem
    obtain ⟨hbegun, hn⟩ := begun_of_awaits hraw h
    simp only [expressionWithin, bind_iff, ensures_annotate]
    refine (ensures_byKind hraw ih (Nat.le_of_lt_succ hlt) hbegun).imp ?_
    intro type state' hf
    simp only [ensures_onForest, ensures_forest]
    have he := evaluated_of_founded hraw h hf (.of_noted hn) rfl rfl
    obtain ⟨own, hown⟩ := Option.ne_none_iff_exists'.mp he.typed
    have hoperand := he.operand hraw h hown
    rw [he.consistent.grown.casts n hlt']
    refine (ensures_castThrough hraw hoperand (hraw.casts n)).imp ?_
    rintro top state₂ ⟨path, hcarried⟩
    exact ⟨he.converted hraw h hcarried.converted hcarried.operand, own.after path,
      hcarried.cast hraw hlt' hoperand⟩

/-- An expression is resolved, or refused with an ordinary fault. -/
theorem ensures_expression (hraw : parsed.Raw) (h : Awaits parsed state n p) :
    Ensures (expression n) state (Refused parsed) fun top state' =>
      Evaluated parsed state state' n p top ∧ ∃ type, state'.forest.Cast parsed n top type := by
  have hlt : n < state.forest.size + 1 :=
    Nat.lt_succ_of_lt (Nat.lt_of_lt_of_le (hraw.linked.lt_size h.mem) h.consistent.grown.size_le)
  simp only [expression, bind_iff, ensures_forest]
  exact resolves_expressionWithin hraw _ hlt h

/-- An expression whose value is wanted as some type. -/
theorem ensures_coerced {target : Ty} (hraw : parsed.Raw) (h : Awaits parsed state n p)
    (htarget : target.Shallow) :
    Ensures (expression n) state (Refused parsed) fun value state₁ =>
      Ensures (convert value target) state₁ (Refused parsed) fun top state' =>
        Evaluated parsed state state' n p top ∧ state'.forest.HasType top target ∧
          state'.forest.Brought parsed top [target] := by
  refine (ensures_expression hraw h).imp ?_
  rintro value state₁ ⟨he, type, hcast⟩
  refine (ensures_convertTop hraw h he hcast htarget).imp ?_
  rintro top state' ⟨he', htype, hsupplied⟩
  exact ⟨he', htype, n, value, type, hsupplied⟩

end Resolve

end MiniC
