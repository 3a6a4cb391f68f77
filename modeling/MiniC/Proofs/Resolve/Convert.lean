import MiniC.Proofs.Resolve.Consistent
import MiniC.Proofs.Resolve.Refused

/-!
# Converting operands

Converting a typed expression in a slot of a node that is not typed yet either fails with an
ordinary fault, or leaves an expression of the wanted type in the slot and everything else as it was.
-/

namespace MiniC.Resolve

open Forest Ensures

variable {parsed other : Forest} {state state' state'' : Resolution} {id id' id'' p m : NodeId}
  {source target common : Ty}

/-- A typed expression in a slot of a node that has no type yet. -/
structure Operand (parsed : Forest) (state : Resolution) (id p : NodeId) (type : Ty) : Prop where
  consistent : Consistent parsed state
  mem : id ∈ state.forest.children p
  lt_size : p < parsed.size
  role : state.forest.role id = .expression
  untyped : state.forest.role p = .expression → state.forest.type? p = none
  type : state.forest.type? id = some type

/-- The expression `id` stands in its slot of `p` as `id'`, and nothing else is changed. -/
structure Converted (parsed : Forest) (state state' : Resolution) (id id' p : NodeId) : Prop where
  table_eq : state'.table = state.table
  session_eq : state'.session = state.session
  pending_eq : state'.pending = state.pending
  size_le : state.forest.size ≤ state'.forest.size
  outer : state'.forest.node p =
    { state.forest.node p with children := (state.forest.children p).map (swap id id') }
  inner : Agrees state.forest state'.forest id
  other : ∀ m : Nat, m < state.forest.size → m ≠ id → m ≠ p →
    state'.forest.node m = state.forest.node m
  new : id' = id ∨ state.forest.size ≤ id'
  function : (state'.forest.node id').function = (state.forest.node id).function

namespace Converted

theorem refl (id p : NodeId) : Converted parsed state state id id p := by
  refine ⟨rfl, rfl, rfl, Nat.le_refl _, ?_, .of_node rfl, fun _ _ _ _ => rfl, .inl rfl, rfl⟩
  have hid : (state.forest.children p).map (swap id id) = state.forest.children p := by
    refine (List.map_congr_left fun c _ => ?_).trans (List.map_id' _)
    by_cases hc : c = id
    · rw [hc, swap_self]
    · exact swap_of_ne hc
  rw [hid]
  rfl

theorem type_outer (h : Converted parsed state state' id id' p) :
    state'.forest.type? p = state.forest.type? p := by
  rw [type?, h.outer]
  rfl

theorem role_outer (h : Converted parsed state state' id id' p) :
    state'.forest.role p = state.forest.role p := by
  rw [Forest.role, Forest.kind, h.outer]
  rfl

theorem children_outer (h : Converted parsed state state' id id' p) :
    state'.forest.children p = (state.forest.children p).map (swap id id') := by
  rw [children, h.outer]

/-- Another child of the same node keeps what rules look at. -/
theorem agrees (h : Converted parsed state state' id id' p) (hm : m < state.forest.size)
    (hp : m ≠ p) : Agrees state.forest state'.forest m := by
  by_cases hid : m = id
  · exact hid ▸ h.inner
  · exact .of_node (h.other m hm hid hp)

theorem trans (h : Converted parsed state state' id id' p)
    (h' : Converted parsed state' state'' id' id'' p) (hl : state.forest.Linked)
    (hid : id ∈ state.forest.children p) (hne : id ≠ p) :
    Converted parsed state state'' id id'' p := by
  have hidlt : id < state.forest.size := hl.lt_size hid
  have hsize := h.size_le
  refine ⟨h'.table_eq.trans h.table_eq, h'.session_eq.trans h.session_eq,
    h'.pending_eq.trans h.pending_eq, Nat.le_trans hsize h'.size_le, ?_, ?_, ?_, ?_,
    h'.function.trans h.function⟩
  · have hmap : ((state.forest.children p).map (swap id id')).map (swap id' id'') =
        (state.forest.children p).map (swap id id'') := by
      rw [List.map_map]
      refine List.map_congr_left fun c hc => ?_
      have hc : c < state.forest.size := hl.lt_size hc
      by_cases hcid : c = id
      · simp [hcid]
      · have hct : c ≠ id' := by
          rcases h.new with rfl | hle
          · exact hcid
          · exact fun he => Nat.not_le.mpr hc (he ▸ hle)
        simp [swap_of_ne hcid, swap_of_ne hct]
    rw [h'.outer, h.children_outer, hmap, h.outer]
  · have ha := h.inner
    have ha' := h'.agrees (m := id) (Nat.lt_of_lt_of_le hidlt hsize) hne
    exact ⟨ha'.kind_eq.trans ha.kind_eq, ha'.children_eq.trans ha.children_eq,
      ha'.type_eq.trans ha.type_eq, ha'.function_eq.trans ha.function_eq,
      ha'.scope_eq.trans ha.scope_eq⟩
  · intro m hm hmid hmp
    have hmid' : m ≠ id' := by
      rcases h.new with rfl | hle
      · exact hmid
      · exact fun he => Nat.not_le.mpr hm (he ▸ hle)
    rw [h'.other m (Nat.lt_of_lt_of_le hm hsize) hmid' hmp, h.other m hm hmid hmp]
  · rcases h'.new with rfl | hle
    · exact h.new
    · exact .inr (Nat.le_trans hsize hle)

theorem of_spliced {change : Conversion} (hs : Spliced state.forest other id p change) :
    Converted parsed state { state with forest := other } id state.forest.size p := by
  refine ⟨rfl, rfl, rfl, ?_, hs.node_outer, ?_, ?_, .inr (Nat.le_refl _), ?_⟩
  · rw [hs.size_eq]
    exact Nat.le_succ _
  · refine ⟨?_, ?_, ?_, ?_, ?_⟩ <;> simp only [kind, children, type?, hs.node_inner]
  · intro m hm hmid hmp
    exact hs.node_other m (Nat.ne_of_lt hm) hmid hmp
  · rw [hs.node_new]

end Converted

theorem Converted.retains (h : Converted parsed state state' id id' p)
    (hp : state.forest.role p = .expression → state.forest.type? p = none) :
    state.forest.Retains state'.forest := by
  intro m hrole htype
  refine h.agrees (lt_size_of_type htype) ?_
  rintro rfl
  exact htype (hp hrole)

theorem ne_parent (h : Operand parsed state id p source) : id ≠ p :=
  h.consistent.grown.ranked.ne_of_mem h.mem

/-- The expression `id` has been brought to other types in turn: the conversions of the path stand above
it now, and the last of them is in its slot. -/
structure Carried (parsed : Forest) (state state' : Resolution) (id id' p : NodeId) (source : Ty)
    (targets : List Ty) (path : List Conversion) : Prop where
  converted : Converted parsed state state' id id' p
  route : source.route? targets = some path
  stacked : state'.forest.Stacked id path id'
  operand : Operand parsed state' id' p (source.after path)

namespace Carried

variable {targets targets' : List Ty} {path path' : List Conversion}

theorem refl (h : Operand parsed state id p source) : Carried parsed state state id id p source [] [] :=
  ⟨.refl id p, rfl, .refl id, h⟩

theorem trans (h : Operand parsed state id p source)
    (hc : Carried parsed state state' id id' p source targets path)
    (hc' : Carried parsed state' state'' id' id'' p (source.after path) targets' path') :
    Carried parsed state state'' id id'' p source (targets ++ targets') (path ++ path') := by
  refine ⟨?_, Ty.route?_append hc.route hc'.route, ?_, ?_⟩
  · exact hc.converted.trans hc'.converted h.consistent.grown.linked h.mem (ne_parent h)
  · have hr := hc'.converted.retains hc.operand.untyped
    exact (hc.stacked.mono fun m _ => hr m).trans hc'.stacked
  · rw [Ty.after_append]
    exact hc'.operand

/-- What has come of an expression by its casts has been brought to what is wanted in its slot. -/
theorem supplied {e : NodeId} (hc : Carried parsed state state' id id' p source targets path)
    (h : Operand parsed state id p source) (hcast : state.forest.Cast parsed e id source) :
    state'.forest.Supplied parsed id' e id source targets := by
  have hr := hc.converted.retains h.untyped
  exact ⟨hcast.mono fun m _ => hr m, path, hc.route, hc.stacked⟩

/-- Up to constness the expression has the last of the types. -/
theorem hasType (hc : Carried parsed state state' id id' p source [target] path) :
    state'.forest.HasType id' target :=
  ⟨source.after path, hc.operand.type, Ty.after_same (show source.route? ([] ++ [target]) = _ from hc.route)⟩

end Carried

/-- What converting an operand ensures. -/
theorem convert_cases (hraw : parsed.Raw) (h : Operand parsed state id p source)
    (htarget : target.Shallow) :
    (∃ fault, state.forest.convert id target = .error fault ∧ fault.cause.isPlain) ∨
      ∃ other id' path, state.forest.convert id target = .ok (other, id') ∧
        Carried parsed state { state with forest := other } id id' p source [target] path := by
  have hl := h.consistent.grown.linked
  have hparent := hl.parent_of_mem h.mem
  rcases Forest.convert_cases hl h.consistent.grown.ranked target hparent h.type with
    ⟨hsame, hok⟩ | ⟨hsame, herror⟩ | ⟨coercion, other, hsame, hconversion, hok, hs⟩
  · refine .inr ⟨state.forest, id, [], hok, .refl id p, ?_, .refl id, h⟩
    rw [Ty.route?_of_same hsame, Ty.route?_nil]
  · exact .inl ⟨_, herror, rfl⟩
  · have hconverted : Converted parsed state { state with forest := other } id
        state.forest.size p := .of_spliced hs
    have hkind : other.kind state.forest.size = .conversion ⟨source, target, coercion⟩ := by
      rw [kind, hs.node_new]
    refine .inr ⟨other, _, _, hok, hconverted, ?_, .single hkind hs.children_new hs.type_new, ?_⟩
    · rw [Ty.route?_of_conversion hsame hconversion, Ty.route?_nil, Option.map_some]
    refine ⟨?_, ?_, h.lt_size, ?_, ?_, hs.type_new⟩
    · exact h.consistent.spliced hraw hs hparent h.lt_size h.role h.untyped h.type htarget hsame
        hconversion
    · show _ ∈ other.children p
      rw [hs.children_outer]
      exact List.mem_map.mpr ⟨id, h.mem, swap_self ..⟩
    · show other.role _ = _
      rw [role, hkind]
      rfl
    · intro hrole
      rw [hconverted.role_outer] at hrole
      rw [hconverted.type_outer]
      exact h.untyped hrole

theorem ensures_convert (hraw : parsed.Raw) (h : Operand parsed state id p source)
    (htarget : target.Shallow) :
    Ensures (convert id target) state (Refused parsed) fun id' state' =>
      ∃ path, Carried parsed state state' id id' p source [target] path := by
  simp only [convert, bind_iff, ensures_forest]
  rcases convert_cases hraw h htarget with ⟨fault, herror, hfault⟩ | ⟨other, id', path, hok, hcarried⟩
  · simp only [herror, throw_iff]
    exact .of_plain hfault
  · simp only [hok, bind_iff, ensures_onForest, pure_iff]
    exact ⟨path, hcarried⟩

theorem shallow_int : Ty.int.Shallow := trivial

/-- What bringing an operand to the common type ensures. -/
theorem promote_cases (hraw : parsed.Raw) (h : Operand parsed state id p source)
    (hcommon : common.Shallow) :
    (∃ fault, state.forest.promote id common = .error fault ∧ fault.cause.isPlain) ∨
      ∃ other id' path, state.forest.promote id common = .ok (other, id') ∧
        Carried parsed state { state with forest := other } id id' p source (source.stops common)
          path := by
  unfold Forest.promote Ty.stops
  rw [h.type, Option.any_some]
  split
  · rcases convert_cases hraw h shallow_int with
      ⟨fault, herror, hfault⟩ | ⟨widened, middle, path, hok, hcarried⟩
    · rw [herror]
      exact .inl ⟨fault, rfl, hfault⟩
    · rw [hok]
      rcases convert_cases hraw hcarried.operand hcommon with
        ⟨fault, herror, hfault⟩ | ⟨other, id', path', hok', hcarried'⟩
      · exact .inl ⟨fault, herror, hfault⟩
      · exact .inr ⟨other, id', path ++ path', hok', hcarried.trans h hcarried'⟩
  · exact convert_cases hraw h hcommon

theorem ensures_promote (hraw : parsed.Raw) (h : Operand parsed state id p source)
    (hcommon : common.Shallow) :
    Ensures (promote id common) state (Refused parsed) fun id' state' =>
      ∃ path, Carried parsed state state' id id' p source (source.stops common) path := by
  simp only [promote, bind_iff, ensures_forest]
  rcases promote_cases hraw h hcommon with ⟨fault, herror, hfault⟩ | ⟨other, id', path, hok, hcarried⟩
  · simp only [herror, throw_iff]
    exact .of_plain hfault
  · simp only [hok, bind_iff, ensures_onForest, pure_iff]
    exact ⟨path, hcarried⟩

end MiniC.Resolve
