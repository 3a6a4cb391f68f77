import MiniC.Proofs.Resolve.Leads
import MiniC.Proofs.Tree.Outgrown

/-!
# What resolving an expression changes

While the expression `e` is resolved, the forest grows, scopes are noted below `e`, and names and calls
there are bound to what the open scopes say. The symbol table stays as it is, so all of them are looked
up in the same scopes. This is so wherever the resolution of the expression stops, which it does for
other reasons than a jump.
-/

namespace MiniC

/-- The name that a node of the kind has looked up. -/
def Kind.use? : Kind → Option String
  | identifier name _ | call name _ => some name
  | _ => none

@[simp] theorem Kind.use?_plain (kind : Kind) : kind.plain.use? = kind.use? := by
  cases kind <;> rfl

theorem Kind.use?_of_plain {kind other : Kind} (h : kind.plain = other.plain) :
    kind.use? = other.use? := by rw [← use?_plain, h, use?_plain]

@[simp] theorem Kind.bind_bind (kind : Kind) (s s' : SymbolId) :
    (kind.bind s).bind s' = kind.bind s' := by cases kind <;> rfl

namespace Resolve

open Forest

variable {α : Type} {base : Forest} {state next : Resolution} {e id : NodeId}

/-- Of the nodes of `state`, only names and calls below `e` have been bound, as the scopes say, and
besides conversions only nodes below `e` have been noted on. -/
structure Consults (base : Forest) (e : NodeId) (state next : Resolution) : Prop where
  base_woven : base.Woven
  base_grown : Outgrown base state.forest
  grown : Outgrown state.forest next.forest
  table_eq : next.table = state.table
  scope : ∀ u : Nat, u < state.forest.size →
    (next.forest.node u).scope = (state.forest.node u).scope ∨
      base.Below u e ∨ (state.forest.kind u).isConversion
  kind : ∀ u : Nat, u < state.forest.size → next.forest.kind u = state.forest.kind u ∨
    base.Below u e ∧ ∃ name s, (state.forest.kind u).use? = some name ∧
      state.table.lookup name = some s ∧ next.forest.kind u = (state.forest.kind u).bind s

theorem Consults.refl (hbase : base.Woven) (h : Outgrown base state.forest) :
    Consults base e state state :=
  ⟨hbase, h, .refl h.woven, rfl, fun _ _ => .inl rfl, fun _ _ => .inl rfl⟩

theorem Consults.trans {last : Resolution} (h : Consults base e state next)
    (h' : Consults base e next last) : Consults base e state last := by
  refine ⟨h.base_woven, h.base_grown, h.grown.trans h'.grown, h'.table_eq.trans h.table_eq, ?_, ?_⟩
  · intro u hu
    rcases h.scope u hu with heq | hnoted
    · rcases h'.scope u (Nat.lt_of_lt_of_le hu h.grown.size_le) with heq' | hnoted
      · exact .inl (heq'.trans heq)
      · rw [Kind.isConversion_of_plain (h.grown.plain u hu)] at hnoted
        exact .inr hnoted
    · exact .inr hnoted
  intro u hu
  have huse := Kind.use?_of_plain (h.grown.plain u hu)
  rcases h.kind u hu with heq | ⟨hbelow, name, s, hname, hlookup, hbind⟩ <;>
    rcases h'.kind u (Nat.lt_of_lt_of_le hu h.grown.size_le) with
      heq' | ⟨hbelow', name', s', hname', hlookup', hbind'⟩
  · exact .inl (heq'.trans heq)
  · rw [heq] at hname' hbind'
    rw [h.table_eq] at hlookup'
    exact .inr ⟨hbelow', name', s', hname', hlookup', hbind'⟩
  · exact .inr ⟨hbelow, name, s, hname, hlookup, heq'.trans hbind⟩
  · rw [huse] at hname'
    rw [hbind, Kind.bind_bind] at hbind'
    rw [h.table_eq] at hlookup'
    exact .inr ⟨hbelow', name', s', hname', hlookup', hbind'⟩

/-- No expression is refused for a jump. -/
structure ConsultsUntil (base : Forest) (e : NodeId) (fault : Fault) (state next : Resolution) :
    Prop where
  cause : fault.cause.isJump = false
  consults : Consults base e state next

instance : Leading (Consults base e) (ConsultsUntil base e) where
  trans h h' := h.trans h'
  start h := .refl h.base_woven (h.base_grown.trans h.grown)
  stop hcause h := ⟨hcause, h⟩
  stop_after h h' := ⟨h'.cause, h.trans h'.consults⟩

/-- A step that changes the forest only, and neither kinds nor scopes of the nodes that are there. -/
theorem Consults.of_forest (h : Consults base e state state) (hgrown : Outgrown state.forest next.forest)
    (htable : next.table = state.table)
    (hscope : ∀ u : Nat, u < state.forest.size →
      (next.forest.node u).scope = (state.forest.node u).scope)
    (hkind : ∀ u : Nat, u < state.forest.size → next.forest.kind u = state.forest.kind u) :
    Consults base e state next :=
  ⟨h.base_woven, h.base_grown, hgrown, htable, fun u hu => .inl (hscope u hu),
    fun u hu => .inl (hkind u hu)⟩

/-- The step leads to what resolving the expression `e` may change. -/
abbrev Consulting (base : Forest) (e : NodeId) (step : Resolve α) (state : Resolution)
    (post : α → Resolution → Prop) : Prop :=
  Leads (Consults base e) (ConsultsUntil base e) step state post

/-- The node stands in the place of one below `e`. -/
structure Visited (base : Forest) (e : NodeId) (forest : Forest) (id : NodeId) : Prop where
  owned : forest.Owned id
  stands : ∃ c : Nat, c < base.size ∧ Stands forest id c ∧ base.Below c e

namespace Visited

variable {forest other : Forest}

theorem outgrown (h : Visited base e forest id) (hgrown : Outgrown forest other) :
    Visited base e other id := by
  obtain ⟨c, hc, hstands, hbelow⟩ := h.stands
  exact ⟨hgrown.owned _ h.owned, c, hc, hgrown.stands hstands, hbelow⟩

theorem mono {e' : NodeId} (h : Visited base e forest id) (he : base.Below e e') :
    Visited base e' forest id := by
  obtain ⟨c, hc, hstands, hbelow⟩ := h.stands
  exact ⟨h.owned, c, hc, hstands, hbelow.trans he⟩

/-- A node that is no conversion stands in its own place. -/
theorem below (h : Visited base e forest id) (hkind : (forest.kind id).isConversion = false) :
    id < base.size ∧ base.Below id e := by
  obtain ⟨c, hc, hstands, hbelow⟩ := h.stands
  cases hstands with
  | refl => exact ⟨hc, hbelow⟩
  | wrap hconversion =>
    rw [hconversion] at hkind
    cases hkind

/-- What stands in the slots of a visited node is visited with it. -/
theorem child (h : Visited base e forest id) (hkind : (forest.kind id).isConversion = false)
    (hbase : base.Woven) (hgrown : Outgrown base forest) {c : NodeId}
    (hc : c ∈ forest.children id) : Visited base e forest c := by
  obtain ⟨hid, hbelow⟩ := h.below hkind
  obtain ⟨part, hpart, hstands⟩ : ∃ part ∈ base.children id, Stands forest c part := by
    have hall := hgrown.children id hid
    obtain ⟨slot, hslot, rfl⟩ := List.getElem_of_mem hc
    have hslot' : slot < (base.children id).length := hall.length_eq ▸ hslot
    exact ⟨_, List.getElem_mem hslot', List.Forall₂.get hall hslot hslot'⟩
  exact ⟨hgrown.woven.owned_of_mem hc, part, hbase.linked.lt_size hpart, hstands,
    (Below.of_mem hpart).trans hbelow⟩

end Visited

/-! ## Primitive steps -/

theorem consulting_annotate (hid : Visited base e state.forest id) :
    Consulting base e (annotate id) state fun _ _ => True := by
  refine Leads.table <| (Leads.onForest fun h => ?_).imp fun _ _ _ _ => trivial
  refine ⟨h.base_woven, h.base_grown, .update h.grown.woven ⟨rfl, rfl, rfl, rfl, rfl⟩, rfl,
    fun u _ => ?_, fun u _ => .inl (kind_update rfl u)⟩
  by_cases hu : u = id
  · subst hu
    cases hkind : (state.forest.kind u).isConversion with
    | false => exact .inr (.inl (hid.below hkind).2)
    | true => exact .inr (.inr rfl)
  · refine .inl ?_
    change ((state.forest.update id _).node u).scope = _
    rw [node_update_of_ne _ _ hu]

theorem consulting_setType (type : Ty) :
    Consulting base e (onForest (·.setType id type)) state fun _ _ => True :=
  (Leads.onForest fun h =>
    h.of_forest (.update h.grown.woven ⟨rfl, rfl, rfl, rfl, rfl⟩) rfl
      (fun u _ => scope_update rfl u) fun u _ => kind_update rfl u).imp fun _ _ _ _ => trivial

/-- A name or a call is bound to what it has looked up. -/
theorem consulting_bind {name : String} {symbol : SymbolId}
    (hid : Visited base e state.forest id) (hname : (state.forest.kind id).use? = some name)
    (hlookup : state.table.lookup name = some symbol) :
    Consulting base e (onForest (·.bind id symbol)) state fun _ _ => True := by
  refine (Leads.onForest fun h => ?_).imp fun _ _ _ _ => trivial
  refine ⟨h.base_woven, h.base_grown, .bind h.grown.woven symbol, rfl,
    fun u _ => .inl (scope_update rfl u), fun u hu => ?_⟩
  by_cases hu' : u = id
  · subst hu'
    have hplain : (state.forest.kind u).isConversion = false := by
      cases hkind : state.forest.kind u <;> simp_all [Kind.use?, Kind.isConversion]
    refine .inr ⟨(hid.below hplain).2, name, symbol, hname, hlookup, ?_⟩
    change (state.forest.update u _).kind u = _
    rw [kind, node_update _ _ _ _ hu, if_pos rfl]
    rfl
  · refine .inl ?_
    change (state.forest.update id _).kind u = _
    rw [kind, node_update_of_ne _ _ hu', kind]

theorem consulting_wrapped {other : Forest} {top : NodeId}
    (h : state.forest.Woven → Wrapped state.forest other top) :
    Consulting base e (do
      onForest fun _ => other
      return top) state fun top next => next.forest.Wrappable top := by
  refine Leads.assume fun hstart => ?_
  have hwrapped := h hstart.grown.woven
  refine (Leads.onForest fun h =>
    h.of_forest hwrapped.grown rfl hwrapped.scope hwrapped.kind).bind ?_
  rintro _ _ - rfl
  exact Leads.pure hwrapped.top

theorem isJump_of_convert {forest : Forest} {target : Ty} {fault : Fault}
    (h : forest.convert id target = .error fault) : fault.cause.isJump = false := by
  unfold Forest.convert at h
  split at h
  · cases h
    rfl
  · split at h
    · cases h
    · split at h
      · cases h
        rfl
      · cases h

theorem isJump_of_promote {forest : Forest} {common : Ty} {fault : Fault}
    (h : forest.promote id common = .error fault) : fault.cause.isJump = false := by
  unfold Forest.promote at h
  split at h
  · split at h
    · next hconvert =>
      cases h
      exact isJump_of_convert hconvert
    · exact isJump_of_convert h
  · exact isJump_of_convert h

theorem consulting_convert (h : state.forest.Wrappable id) (target : Ty) :
    Consulting base e (convert id target) state fun top next => next.forest.Wrappable top := by
  refine Leads.forest ?_
  cases hc : state.forest.convert id target with
  | error fault => exact Leads.fault (isJump_of_convert hc)
  | ok result => exact consulting_wrapped fun hw => wrapped_of_convert hw h hc

theorem consulting_promote (h : state.forest.Wrappable id) (common : Ty) :
    Consulting base e (promote id common) state fun top next => next.forest.Wrappable top := by
  refine Leads.forest ?_
  cases hc : state.forest.promote id common with
  | error fault => exact Leads.fault (isJump_of_promote hc)
  | ok result => exact consulting_wrapped fun hw => wrapped_of_promote hw h hc

/-- Converting an operand, whatever stands in its place then. -/
theorem consulting_convert_done (h : state.forest.Wrappable id) (target type : Ty) :
    Consulting base e (do
      let _ ← convert id target
      return type) state fun _ _ => True :=
  (consulting_convert h target).bind fun _ _ _ _ => Leads.pure trivial

/-! ## Names and operators -/

section Forms

variable {name : String}

theorem consulting_identifier {symbol : Option SymbolId} (hid : Visited base e state.forest id)
    (hkind : state.forest.kind id = .identifier name symbol) :
    Consulting base e (identifier id name) state fun _ _ => True := by
  refine Leads.forest <| Leads.table ?_
  cases hlookup : state.table.lookup name with
  | none => exact Leads.refuse rfl
  | some symbol =>
    exact Leads.check rfl <| (consulting_bind hid (by rw [hkind]; rfl) hlookup).bind
      fun _ _ _ _ => Leads.pure trivial

variable {inner : NodeId → Resolve NodeId}
  (hinner : ∀ id state, Visited base e state.forest id →
    Consulting base e (inner id) state fun top next => next.forest.Wrappable top)

include hinner

theorem consulting_argumentsFrom {arguments : List NodeId} :
    ∀ {params state}, (∀ argument ∈ arguments, Visited base e state.forest argument) →
      Consulting base e (argumentsFrom inner params arguments) state fun _ _ => True := by
  induction arguments with
  | nil => exact fun _ => Leads.pure trivial
  | cons argument others ih =>
    intro params state hvisited
    refine (hinner _ _ (hvisited _ List.mem_cons_self)).bind fun argument after hdone htop => ?_
    have hrest : ∀ last : Resolution, Consults base e after last →
        Consulting base e (argumentsFrom inner params.tail others) last fun _ _ => True :=
      fun last hlast => ih fun other hother =>
        ((hvisited _ (List.mem_cons_of_mem _ hother)).outgrown hdone.grown).outgrown hlast.grown
    cases params with
    | cons param params =>
      exact (consulting_convert htop param).bind fun _ last hlast _ => hrest last hlast
    | nil =>
      refine leads_typeOf.bind ?_
      rintro type _ hstart rfl
      by_cases harray : type.isArray
      · simp only [harray]
        exact (consulting_convert htop _).bind fun _ last hlast _ => hrest last hlast
      · simp only [harray]
        exact hrest _ hstart

theorem consulting_call {symbol : Option SymbolId} (hid : Visited base e state.forest id)
    (hkind : state.forest.kind id = .call name symbol) :
    Consulting base e (call inner id name) state fun _ _ => True := by
  refine Leads.forest <| Leads.table ?_
  cases hlookup : state.table.lookup name with
  | none => exact Leads.refuse rfl
  | some s =>
    simp only
    cases (state.table.symbol s).signature? with
    | none => exact Leads.refuse rfl
    | some signature =>
      refine Leads.forest ?_
      refine Leads.check rfl <| Leads.assume fun hstart => ?_
      have hchild : ∀ c ∈ state.forest.children id, Visited base e state.forest c := fun c hc =>
        hid.child (by rw [hkind]; rfl) hstart.base_woven hstart.base_grown hc
      refine (consulting_argumentsFrom hinner hchild).bind fun _ after hafter _ => ?_
      refine Leads.whenever (fun _ => Leads.modify fun h =>
          h.of_forest h.grown rfl (fun _ _ => rfl) fun _ _ => rfl)
        fun last hlast => ?_
      have hdone := hafter.trans hlast
      obtain ⟨p, hp⟩ := Option.isSome_iff_exists.mp hid.owned
      have hname : (last.forest.kind id).use? = some name := by
        rw [Kind.use?_of_plain (hdone.grown.plain id (lt_size_of_parent hp)), hkind]
        rfl
      rw [← hdone.table_eq] at hlookup
      exact (consulting_bind (hid.outgrown hdone.grown) hname hlookup).bind
        fun _ _ _ _ => Leads.pure trivial

omit hinner

theorem consulting_writable {target : NodeId} :
    Consulting base e (writable target) state fun _ next => next = state := by
  refine Leads.forest <| Leads.check rfl <| leads_typeOf.bind ?_
  rintro type _ - rfl
  exact Leads.check rfl <| Leads.check rfl <| Leads.pure rfl

theorem consulting_bothToInt {left right : NodeId} (hleft : state.forest.Wrappable left)
    (hright : state.forest.Wrappable right) :
    Consulting base e (bothToInt left right) state fun _ _ => True :=
  (consulting_convert hleft _).bind fun _ _ hdone _ =>
    consulting_convert_done (hdone.grown.wrappable hright) _ _

theorem consulting_bothToCommon {op : BinaryOp} {line : Nat} {left right : NodeId}
    {leftType rightType : Ty} (hleft : state.forest.Wrappable left)
    (hright : state.forest.Wrappable right) :
    Consulting base e (bothToCommon op line left right leftType rightType) state
      fun _ _ => True := by
  unfold bothToCommon
  cases leftType.common? rightType with
  | none => exact Leads.refuse rfl
  | some common =>
    exact (consulting_promote hleft _).bind fun _ _ hdone _ =>
      (consulting_promote (hdone.grown.wrappable hright) _).bind fun _ _ _ _ => Leads.pure trivial

include hinner

/-- The child in a slot of a visited node is resolved before other steps. -/
theorem consulting_part {next : NodeId → Resolve α} {post : α → Resolution → Prop}
    (hid : Visited base e state.forest id)
    (hkind : (state.forest.kind id).isConversion = false) (slot : Nat)
    (hnext : ∀ top after, Consults base e state after → after.forest.Wrappable top →
      Consulting base e (next top) after post) :
    Consulting base e (do
      let top ← inner (← child id slot)
      next top) state post := by
  refine (leads_child slot).bind ?_
  rintro c _ hstart ⟨rfl, hc⟩
  have hvisited := hid.child hkind hstart.base_woven hstart.base_grown (List.mem_of_getElem? hc)
  exact (hinner c _ hvisited).bind hnext

theorem consulting_binary {op : BinaryOp} (hid : Visited base e state.forest id)
    (hkind : state.forest.kind id = .binary op) :
    Consulting base e (binary inner id op) state fun _ _ => True := by
  obtain ⟨p, hp⟩ := Option.isSome_iff_exists.mp hid.owned
  have hplain : (state.forest.kind id).isConversion = false := by rw [hkind]; rfl
  refine Leads.forest <| consulting_part hinner hid hplain 0 fun left atLeft hdone hleft => ?_
  have hplain' : (atLeft.forest.kind id).isConversion = false := by
    rw [Kind.isConversion_of_plain (hdone.grown.plain id (lt_size_of_parent hp)), hplain]
  refine consulting_part hinner (hid.outgrown hdone.grown) hplain' 1
    fun right atRight hdone' hright => ?_
  have hleft' := hdone'.grown.wrappable hleft
  refine leads_typeOf.bind ?_
  rintro leftType _ - rfl
  refine leads_typeOf.bind ?_
  rintro rightType _ - rfl
  cases op with
  | assign =>
    refine consulting_writable.bind ?_
    rintro target _ - rfl
    exact consulting_convert_done hright _ _
  | logic => exact consulting_bothToInt hleft' hright
  | remainder => exact Leads.check rfl <| Leads.check rfl <| consulting_bothToInt hleft' hright
  | arith => exact consulting_bothToCommon hleft' hright
  | compare =>
    exact (consulting_bothToCommon hleft' hright).bind fun _ _ _ _ => Leads.pure trivial

theorem consulting_unary {op : UnaryOp} (hid : Visited base e state.forest id)
    (hkind : state.forest.kind id = .unary op) :
    Consulting base e (unary inner id op) state fun _ _ => True := by
  have hplain : (state.forest.kind id).isConversion = false := by rw [hkind]; rfl
  refine Leads.forest <| consulting_part hinner hid hplain 0 fun operand after _ hoperand => ?_
  refine leads_typeOf.bind ?_
  rintro type _ - rfl
  cases op with
  | negate => exact Leads.check rfl <| Leads.pure trivial
  | not => exact consulting_convert_done hoperand _ _
  | deref =>
    simp only
    cases type.decay.pointee? with
    | none => exact Leads.refuse rfl
    | some target => exact consulting_convert_done hoperand _ _
  | addressOf => exact Leads.forest <| Leads.check rfl <| Leads.pure trivial
  | step => exact Leads.check rfl <| consulting_writable.imp fun _ _ _ _ => trivial

theorem consulting_subscript (hid : Visited base e state.forest id)
    (hkind : state.forest.kind id = .subscript) :
    Consulting base e (subscript inner id) state fun _ _ => True := by
  obtain ⟨p, hp⟩ := Option.isSome_iff_exists.mp hid.owned
  have hplain : (state.forest.kind id).isConversion = false := by rw [hkind]; rfl
  refine Leads.forest <| consulting_part hinner hid hplain 0 fun array atArray hdone _ => ?_
  have hplain' : (atArray.forest.kind id).isConversion = false := by
    rw [Kind.isConversion_of_plain (hdone.grown.plain id (lt_size_of_parent hp)), hplain]
  refine Leads.forest ?_
  split
  · refine leads_typeOf.bind ?_
    rintro type _ - rfl
    cases elements? type with
    | none => exact Leads.refuse rfl
    | some element =>
      refine consulting_part hinner (hid.outgrown hdone.grown) hplain' 1
        fun index atIndex _ hindex => ?_
      refine leads_typeOf.bind ?_
      rintro indexType _ - rfl
      refine Leads.check rfl <| Leads.forest ?_
      split
      · exact Leads.check rfl <| consulting_convert_done hindex _ _
      · exact consulting_convert_done hindex _ _
  · exact Leads.forest (Leads.refuse rfl)

/-- Finding the type of an expression; only expressions have one. -/
theorem consulting_byKind (hid : Visited base e state.forest id) :
    Consulting base e (byKind inner id) state fun _ _ => state.forest.role id = .expression := by
  have htyped : ∀ {step : Resolve Ty}, Consulting base e step state (fun _ _ => True) →
      state.forest.role id = .expression →
      Consulting base e step state fun _ _ => state.forest.role id = .expression :=
    fun h hrole => h.imp fun _ _ _ _ => hrole
  refine Leads.forest ?_
  cases hkind : state.forest.kind id with
  | int | char | string | conversion => exact Leads.pure (by rw [role, hkind]; rfl)
  | identifier => exact htyped (consulting_identifier hid hkind) (by rw [role, hkind]; rfl)
  | call => exact htyped (consulting_call hinner hid hkind) (by rw [role, hkind]; rfl)
  | binary => exact htyped (consulting_binary hinner hid hkind) (by rw [role, hkind]; rfl)
  | unary => exact htyped (consulting_unary hinner hid hkind) (by rw [role, hkind]; rfl)
  | subscript => exact htyped (consulting_subscript hinner hid hkind) (by rw [role, hkind]; rfl)
  | _ => exact Leads.malformed

end Forms

/-! ## Expressions -/

theorem consulting_castThrough {casts : List Ty} :
    ∀ {id state}, state.forest.Wrappable id →
      Consulting base e (castThrough id casts) state fun top next => next.forest.Wrappable top := by
  induction casts with
  | nil => exact fun h => Leads.pure h
  | cons type others ih =>
    exact fun h => (consulting_convert h type).bind fun _ _ _ htop => ih htop

theorem consulting_expressionWithin {levels : Nat} :
    ∀ {id state}, Visited base e state.forest id → Consulting base e (expressionWithin levels id)
      state fun top next => next.forest.Wrappable top := by
  induction levels with
  | zero => exact fun _ => Leads.exhausted
  | succ levels ih =>
    intro id state hid
    refine (consulting_annotate hid).bind fun _ noted hnoted _ => ?_
    have hid' := hid.outgrown hnoted.grown
    refine (consulting_byKind (fun _ _ => ih) hid').bind fun type typed htyped hrole => ?_
    have hwrappable := htyped.grown.wrappable ⟨hid'.owned, hrole⟩
    refine (consulting_setType type).bind fun _ last hlast _ => Leads.forest ?_
    exact consulting_castThrough (hlast.grown.wrappable hwrappable)

/-- Resolving an expression below `e` binds names and calls below `e` only, as the scopes say. -/
theorem consulting_expression (hid : Visited base e state.forest id) :
    Consulting base e (expression id) state fun top next => next.forest.Wrappable top :=
  Leads.forest (consulting_expressionWithin hid)

/-- Resolving an expression and bringing it to a type. -/
theorem consulting_coerced (hid : Visited base e state.forest id) (target : Ty) :
    Consulting base e (do let _ ← convert (← expression id) target) state fun _ _ => True :=
  (consulting_expression hid).bind fun _ _ _ htop =>
    (consulting_convert htop target).bind fun _ _ _ _ => Leads.pure trivial

theorem consulting_giveBack
    (h : ∀ value, state.forest.child? id 0 = some value → Visited base e state.forest value) :
    Consulting base e (giveBack id) state fun _ _ => True := by
  refine Leads.forest ?_
  split
  · exact Leads.refuse rfl
  · split
    · refine leads_typeOf.bind ?_
      rintro result _ - rfl
      cases hc : Forest.child? _ id 0 with
      | none => exact Leads.ite (fun _ => Leads.refuse rfl) fun _ => Leads.pure trivial
      | some value => exact Leads.check rfl <| consulting_coerced (h value hc) _
    · exact Leads.malformed

/-! ## Initializers -/

section Initializers

variable {name : String} {line : Nat} {type : Ty} {size : Option (Option Nat)}

theorem consulting_initializerList {list : NodeId} (hid : Visited base e state.forest list)
    (hkind : (state.forest.kind list).isConversion = false) :
    Consulting base e (initializerList name line type size list) state fun _ _ => True := by
  obtain ⟨p, hp⟩ := Option.isSome_iff_exists.mp hid.owned
  unfold initializerList
  cases type.element? with
  | none => exact Leads.refuse rfl
  | some element =>
    refine (consulting_annotate hid).bind fun _ listed hlisted _ => Leads.forest ?_
    have hkind' : (listed.forest.kind list).isConversion = false := by
      rw [Kind.isConversion_of_plain (hlisted.grown.plain list (lt_size_of_parent hp)), hkind]
    have hitems : ∀ item ∈ listed.forest.children list, Visited base e listed.forest item :=
      fun _ hitem => (hid.outgrown hlisted.grown).child hkind' hlisted.base_woven
        (hlisted.base_grown.trans hlisted.grown) hitem
    refine (leads_each (P := fun state item => Visited base e state.forest item)
      (fun hdone hitem => hitem.outgrown hdone.grown)
      (fun item _ hitem => consulting_coerced hitem element) hitems).bind fun _ after _ _ => ?_
    have hdone : ∀ type state, Consulting base e (do
        onForest (·.setType list type)
        return type) state fun _ _ => True := fun type _ =>
      (consulting_setType type).bind fun _ _ _ _ => Leads.pure trivial
    split
    · exact Leads.check rfl <| hdone _ _
    · exact Leads.check rfl <| hdone _ _
    · exact hdone _ _

theorem consulting_initializer
    (h : ∀ initial, state.forest.child? id 1 = some initial → Visited base e state.forest initial) :
    Consulting base e (initializer id name line type size) state fun _ _ => True := by
  refine Leads.forest ?_
  cases hc : state.forest.child? id 1 with
  | none => exact Leads.check rfl <| Leads.pure trivial
  | some initial =>
    refine Leads.ite (fun hlist => ?_) fun _ => Leads.check rfl ?_
    · exact consulting_initializerList (h initial hc) (by rw [hlist]; rfl)
    · exact (consulting_expression (h initial hc)).bind fun value _ _ hvalue =>
        consulting_convert_done hvalue type type

end Initializers

end Resolve

end MiniC
