import MiniC.Proofs.Ensures
import MiniC.Proofs.Resolve.Passes
import MiniC.Proofs.Tree.Loops

/-!
# Jumps outside loops

Resolution notes on every node that it comes to how many scopes are open there. So the notes say which
nodes it has reached, wherever it stops. A stray jump is refused as soon as it is reached: as long as
resolution goes on, none has been. And nothing but a stray jump is refused for being one.
-/

namespace MiniC.Resolve

open Forest

variable {α : Type} {parsed : Forest} {state next : Resolution} {post : α → Resolution → Prop}
  {id p e : NodeId}

/-! ## What is reached -/

/-- The step is in a scope, and it has reached no stray jump of the parsed forest. -/
structure Avoids (parsed : Forest) (state next : Resolution) : Prop where
  opened : 0 < state.table.depth
  depth_eq : next.table.depth = state.table.depth
  before : Outgrown parsed state.forest
  after : Outgrown parsed next.forest
  scope_eq : ∀ j word, parsed.Stray j word →
    (next.forest.node j).scope = (state.forest.node j).scope

/-- The step is refused, at a stray jump that it has just reached, or for something else and without
having reached any. -/
inductive Halts (parsed : Forest) (fault : Fault) (state next : Resolution) : Prop
  | clear (hcause : fault.cause.isJump = false)
      (hscope : ∀ j word, parsed.Stray j word →
        (next.forest.node j).scope = (state.forest.node j).scope)
  | stray {j : NodeId} {word : String} (hstray : parsed.Stray j word)
      (hfault : fault = ⟨.jumpOutsideLoop word, parsed.line j⟩)
      (hreached : (next.forest.node j).scope ≠ 0)
      (hothers : ∀ k word, parsed.Stray k word → k ≠ j →
        (next.forest.node k).scope = (state.forest.node k).scope)

/-- Only the forest matters. -/
theorem Halts.of_table {fault : Fault} {table : SymbolTable}
    (h : Halts parsed fault { state with table } next) : Halts parsed fault state next := by
  cases h with
  | clear hcause hscope => exact .clear hcause hscope
  | stray hstray hfault hreached hothers => exact .stray hstray hfault hreached hothers

instance : Leading (Avoids parsed) (Halts parsed) where
  trans h h' := ⟨h.opened, h'.depth_eq.trans h.depth_eq, h.before, h'.after,
    fun j word hj => (h'.scope_eq j word hj).trans (h.scope_eq j word hj)⟩
  start h := ⟨h.depth_eq ▸ h.opened, rfl, h.after, h.after, fun _ _ _ => rfl⟩
  stop hcause _ := .clear hcause fun _ _ _ => rfl
  stop_after h h' := by
    cases h' with
    | clear hcause hscope =>
      exact .clear hcause fun j word hj => (hscope j word hj).trans (h.scope_eq j word hj)
    | stray hstray hfault hreached hothers =>
      exact .stray hstray hfault hreached fun k word hk hne =>
        (hothers k word hk hne).trans (h.scope_eq k word hk)

/-- The step reaches no stray jump unless it is refused for it. -/
abbrev Avoiding (parsed : Forest) (step : Resolve α) (state : Resolution) : Prop :=
  Leads (Avoids parsed) (Halts parsed) step state fun _ _ => True

/-! ## Primitive steps -/

theorem avoids_of_forest (hstart : Avoids parsed state state) {forest : Forest}
    (hgrown : Outgrown state.forest forest)
    (hscope : ∀ j word, parsed.Stray j word →
      (forest.node j).scope = (state.forest.node j).scope) :
    Avoids parsed state { state with forest } :=
  ⟨hstart.opened, rfl, hstart.before, hstart.before.trans hgrown, hscope⟩

theorem avoiding_onForest {change : Forest → Forest}
    (hgrown : state.forest.Woven → Outgrown state.forest (change state.forest))
    (hscope : ∀ m, ((change state.forest).node m).scope = (state.forest.node m).scope) :
    Avoiding parsed (onForest change) state :=
  (Leads.onForest fun hstart =>
    avoids_of_forest hstart (hgrown hstart.after.woven) fun j _ _ => hscope j).imp
    fun _ _ _ _ => trivial

theorem avoiding_setKind {kind : Kind} (h : kind.plain = (state.forest.kind id).plain) :
    Avoiding parsed (onForest (·.setKind id kind)) state :=
  avoiding_onForest (fun hw => .setKind hw h) (scope_update rfl)

/-- Any other node may be reached. -/
theorem avoiding_annotate (hid : ∀ word, ¬parsed.Stray id word) :
    Avoiding parsed (annotate id) state := by
  refine Leads.table <| (Leads.onForest fun hstart => ?_).imp fun _ _ _ _ => trivial
  refine avoids_of_forest hstart (.update hstart.after.woven ⟨rfl, rfl, rfl, rfl, rfl⟩)
    fun j word hj => ?_
  have hne : j ≠ id := by
    rintro rfl
    exact hid word hj
  rw [node_update_of_ne _ _ hne]

theorem avoiding_jumpLabel {next : Machine.Label → Resolve α}
    (h : ∀ label session,
      Leads (Avoids parsed) (Halts parsed) (next label) { state with session } post) :
    Leads (Avoids parsed) (Halts parsed) (jumpLabel >>= next) state post :=
  .jumpLabel (fun _ hstart => { hstart with }) h

theorem avoiding_declare (symbol : Symbol) : Avoiding parsed (declare symbol) state :=
  .declare fun _ _ hdeclare hstart =>
    { hstart with depth_eq := (SymbolTable.accepted_of_declare hdeclare).depth_eq }

/-- Steps in a scope of their own. -/
theorem avoiding_inScope {steps : Resolve Unit}
    (h : Avoiding parsed steps { state with table := state.table.enter }) :
    Avoiding parsed (inScope steps) state := by
  refine .inScope h
    (fun hstart => ⟨Nat.succ_pos _, rfl, hstart.before, hstart.before, fun _ _ _ => rfl⟩)
    (fun last hstart hlast => ⟨hstart.opened, ?_, hstart.before, hlast.after, hlast.scope_eq⟩)
    fun _ _ => Halts.of_table
  have hdepth := hlast.depth_eq
  simp only [SymbolTable.depth_enter] at hdepth
  simp [hdepth]

/-! ## Expressions -/

section Expressions

variable (hraw : parsed.Raw)

include hraw

/-- No jump is below an expression or anything else that holds no statements. -/
theorem not_below_of_silent (he : (parsed.role e).IsSilent) :
    ∀ j word, parsed.Stray j word → ¬parsed.Below j e := by
  intro j word hj hbelow
  refine hraw.not_isStatement he hbelow ?_
  rw [hj.role]
  trivial

/-- No jump is below a node with such parts, unless it is one itself. -/
theorem not_below_of_silent_parts (he : (parsed.kind e).jump? = none)
    (hsilent : ∀ role ∈ parsed.roles e, role.IsSilent) :
    ∀ j word, parsed.Stray j word → ¬parsed.Below j e := by
  intro j word hj hbelow
  rcases hbelow.eq_or_child with rfl | ⟨c, hc, hbelow⟩
  · rw [hj.jump] at he
    cases he
  · exact not_below_of_silent hraw (hsilent _ (List.mem_map_of_mem hc)) j word hj hbelow

/-- Where no jump is below, what expressions consult reaches none. -/
theorem avoiding_of_consulting (he : ∀ j word, parsed.Stray j word → ¬parsed.Below j e)
    {step : Resolve α} (h : Consulting parsed e step state post) :
    Leads (Avoids parsed) (Halts parsed) step state post := by
  have hscope : ∀ {next}, Consults parsed e state next → ∀ j word, parsed.Stray j word →
      (next.forest.node j).scope = (state.forest.node j).scope := by
    intro next hconsults j word hj
    have hlt := Nat.lt_of_lt_of_le hj.lt_size hconsults.base_grown.size_le
    rcases hconsults.scope j hlt with heq | hbelow | hconversion
    · exact heq
    · exact absurd hbelow (he j word hj)
    · have hjump := hj.jump
      rw [hconsults.base_grown.kind_eq hraw hj.lt_size, Kind.jump?_plain] at hjump
      cases hk : state.forest.kind j <;> simp_all [Kind.isConversion, Kind.jump?]
  refine Leads.assume fun hstart => h.mono (fun _ => .refl ⟨hraw.linked, hraw.ranked⟩ hstart.after)
    (fun _ next hdone hpost => ⟨?_, hpost⟩) fun fault next hstopped => ?_
  · exact ⟨hstart.opened, congrArg SymbolTable.depth hdone.table_eq, hstart.before,
      hstart.after.trans hdone.grown, hscope hdone⟩
  · exact .clear hstopped.cause (hscope hstopped.consults)

omit hraw in
/-- What stands in a slot is visited for the part that was parsed there. -/
theorem exists_visited (hl : parsed.Linked) (h : Outgrown parsed state.forest) {p : Nat}
    (hp : p < parsed.size) {slot : Nat} {top : NodeId}
    (htop : state.forest.child? p slot = some top) :
    ∃ c, parsed.child? p slot = some c ∧ Visited parsed c state.forest top := by
  obtain ⟨c, hc, hmem, hstands⟩ := h.exists_child hp htop
  exact ⟨c, hc, h.woven.owned_of_mem (List.mem_of_getElem? htop), c, hl.lt_size hmem, hstands, .refl⟩

/-- Resolving the expression in a slot. -/
theorem avoiding_slot {p : Nat} (hp : p < parsed.size) {slot : Nat}
    (hsilent : ∀ role, (parsed.roles p)[slot]? = some role → role.IsSilent)
    {step : NodeId → Resolve α}
    (h : ∀ top c, Visited parsed c state.forest top → Consulting parsed c (step top) state post) :
    Leads (Avoids parsed) (Halts parsed) (child p slot >>= step) state post := by
  refine (leads_child slot).bind ?_
  rintro top _ hstart ⟨rfl, htop⟩
  obtain ⟨c, hc, hvisited⟩ := exists_visited hraw.linked hstart.after hp htop
  exact avoiding_of_consulting hraw (not_below_of_silent hraw (hsilent _ (roles_of_child? hc)))
    (h top c hvisited)

theorem avoiding_condition {p : Nat} (hp : p < parsed.size) {slot : Nat}
    (hsilent : ∀ role, (parsed.roles p)[slot]? = some role → role.IsSilent) :
    Avoiding parsed (condition p slot) state :=
  avoiding_slot hraw hp hsilent fun _ _ htop => consulting_coerced htop .int

/-- Resolving the statement in a slot. -/
theorem avoiding_part {p : Nat} (hp : p < parsed.size) {slot : Nat}
    (hrole : ∀ role, (parsed.roles p)[slot]? = some role → role ≠ .expression)
    {step : NodeId → Resolve α}
    (h : ∀ c : Nat, c < parsed.size → parsed.child? p slot = some c →
      Leads (Avoids parsed) (Halts parsed) (step c) state post) :
    Leads (Avoids parsed) (Halts parsed) (child p slot >>= step) state post := by
  refine (leads_child slot).bind ?_
  rintro c _ hstart ⟨rfl, htop⟩
  have hc := hstart.after.child?_parsed hraw hp (fun _ hc => hrole _ (roles_of_child? hc)) htop
  exact h c (hraw.linked.lt_size (List.mem_of_getElem? hc)) hc

/-- Resolving a node below which there are no jumps. -/
theorem avoiding_silent {p : Nat} (hp : p < parsed.size) (hjump : (parsed.kind p).jump? = none)
    (hsilent : ∀ role ∈ parsed.roles p, role.IsSilent) {step : Resolve α}
    (h : (∀ slot top, state.forest.child? p slot = some top → Visited parsed p state.forest top) →
      Consulting parsed p step state post) :
    Leads (Avoids parsed) (Halts parsed) step state post := by
  refine Leads.assume fun hstart =>
    avoiding_of_consulting hraw (not_below_of_silent_parts hraw hjump hsilent) (h fun slot top htop => ?_)
  obtain ⟨c, hc, hvisited⟩ := exists_visited hraw.linked hstart.after hp htop
  exact hvisited.mono (.of_mem (List.mem_of_getElem? hc))

end Expressions

/-! ## Declarations -/

section Declarations

variable {name : String} {line : Nat} {result : Ty} {types : List Ty} {hasBody : Bool}

theorem avoiding_setType (type : Ty) : Avoiding parsed (onForest (·.setType id type)) state :=
  avoiding_onForest (fun hw => .setType hw type) (scope_update rfl)

theorem avoiding_bind (symbol : SymbolId) : Avoiding parsed (onForest (·.bind id symbol)) state :=
  avoiding_onForest (fun hw => .bind hw symbol) (scope_update rfl)

theorem avoiding_functionSymbol :
    Avoiding parsed (functionSymbol id name line result types hasBody) state := by
  refine Leads.table ?_
  cases state.table.lookupCurrent name with
  | none =>
    exact (Leads.functionLabel fun _ hstart => { hstart with }).bind fun _ _ _ _ =>
      Leads.forest (avoiding_declare _)
  | some earlier =>
    simp only
    cases (state.table.symbol earlier).signature? with
    | none => exact Leads.refuse rfl
    | some signature =>
      exact Leads.check rfl <| Leads.check rfl <| Leads.whenever
        (fun _ => Leads.modify fun hstart => { hstart with }) fun _ _ => Leads.pure trivial

theorem avoiding_declareParameter {function param : NodeId} {type : Ty}
    (hparam : parsed.role param ≠ .statement) :
    Avoiding parsed (declareParameter function param type) state := by
  refine (avoiding_annotate fun _ hj => hparam hj.role).bind fun _ _ _ _ => Leads.forest ?_
  split
  · refine (avoiding_declare _).bind fun symbol after _ _ =>
      avoiding_onForest (fun hw => ?_) fun m => (scope_update rfl m).trans (scope_update rfl m)
    have htyped : Outgrown after.forest (after.forest.setType param type) := .setType hw type
    exact htyped.trans (.bind htyped.woven symbol)
  · exact Leads.pure trivial

theorem avoiding_declareParameters {function : NodeId} {params : List NodeId} :
    ∀ {types state}, (∀ param ∈ params, parsed.role param ≠ .statement) →
      Avoiding parsed (declareParameters function params types) state := by
  induction params with
  | nil => exact fun _ => Leads.pure trivial
  | cons param others ih =>
    intro types state hparams
    cases types with
    | nil => exact Leads.pure trivial
    | cons type types =>
      exact (avoiding_declareParameter (hparams param List.mem_cons_self)).bind fun _ _ _ _ =>
        ih fun other hother => hparams other (List.mem_cons_of_mem _ hother)

end Declarations

/-! ## Statements -/

section Statements

variable {name : String} (hraw : parsed.Raw) (hid : (id : Nat) < parsed.size)

include hraw hid

/-- The parts of a node have the roles that its kind asks for, whenever the kind is looked at. -/
theorem holds_of_kind (h : Outgrown parsed state.forest) {kind : Kind}
    (hkind : state.forest.kind id = kind) :
    parsed.kind id = kind.plain ∧ kind.plain.Holds (parsed.roles id) := by
  have hparsed := h.kind_eq hraw hid
  rw [hkind] at hparsed
  exact ⟨hparsed, hparsed ▸ hraw.shaped id⟩

theorem avoiding_declaration {symbol : Option SymbolId}
    (hkind : state.forest.kind id = .declaration name symbol) :
    Avoiding parsed (declaration id name) state := by
  refine Leads.assume fun hstart => ?_
  obtain ⟨hparsed, written, hwritten, hroles⟩ := holds_of_kind hraw hid hstart.after hkind
  have hsilent : ∀ role ∈ parsed.roles id, role.IsSilent := by
    rcases hwritten with rfl | rfl <;> rcases hroles with h | h | h <;> simp [h, Role.IsSilent]
  refine Leads.forest <| (leads_child 0).bind ?_
  rintro written _ - ⟨rfl, -⟩
  refine (leads_writtenType 0).bind ?_
  rintro declared _ - rfl
  refine Leads.check rfl <| Leads.forest <| Leads.check rfl ?_
  refine (avoiding_silent hraw hid (by rw [hparsed]; rfl) hsilent fun hslots =>
    consulting_initializer fun _ => hslots 1 _).bind fun type _ _ _ => ?_
  refine (avoiding_setType type).bind fun _ _ _ _ => Leads.forest ?_
  exact (avoiding_declare _).bind fun symbol _ _ _ => avoiding_bind symbol

theorem avoiding_giveBack (hkind : state.forest.kind id = .giveBack) :
    Avoiding parsed (giveBack id) state := by
  refine Leads.assume fun hstart => ?_
  obtain ⟨hparsed, hroles⟩ := holds_of_kind hraw hid hstart.after hkind
  have hsilent : ∀ role ∈ parsed.roles id, role.IsSilent := by
    rcases hroles with h | h <;> simp [h, Role.IsSilent]
  exact avoiding_silent hraw hid (by rw [hparsed]; rfl) hsilent fun hslots =>
    consulting_giveBack fun _ => hslots 0 _

theorem avoiding_exprStatement (hkind : state.forest.kind id = .exprStatement) :
    Avoiding parsed (do let _ ← expression (← child id 0)) state := by
  refine Leads.assume fun hstart => ?_
  obtain ⟨hparsed, hroles⟩ := holds_of_kind hraw hid hstart.after hkind
  have hsilent : ∀ role, (parsed.roles id)[0]? = some role → role.IsSilent := by
    simp [show parsed.roles id = [.expression] from hroles, Role.IsSilent]
  exact avoiding_slot hraw hid hsilent fun _ _ htop =>
    (consulting_expression htop).bind fun _ _ _ _ => Leads.pure trivial

variable {inner : NodeId → Resolve Unit}
  (hinner : ∀ (id : Nat) state, id < parsed.size → Avoiding parsed (inner id) state)

include hinner

theorem avoiding_whileLoop {labels : Option WhileLabels}
    (hkind : state.forest.kind id = .whileLoop labels) :
    Avoiding parsed (whileLoop inner id) state := by
  refine Leads.assume fun hstart => ?_
  obtain ⟨-, body, hbody, hroles⟩ := holds_of_kind hraw hid hstart.after hkind
  refine avoiding_jumpLabel fun _ _ => avoiding_jumpLabel fun _ _ => ?_
  refine (avoiding_setKind (by rw [hkind]; rfl)).bind fun _ _ _ _ => ?_
  refine (avoiding_condition hraw hid (by simp [hroles, Role.IsSilent])).bind fun _ _ _ _ => ?_
  exact avoiding_part hraw hid (by simp [hroles, Role.ne_of_isStatement hbody])
    fun body hbody _ => avoiding_inScope (hinner body _ hbody)

theorem avoiding_ifElse {labels : Option IfLabels} (hkind : state.forest.kind id = .ifElse labels) :
    Avoiding parsed (ifElse inner id) state := by
  refine Leads.assume fun hstart => ?_
  obtain ⟨-, yes, hyes, hroles⟩ := holds_of_kind hraw hid hstart.after hkind
  -- There may be a second branch.
  obtain ⟨others, hroles, hothers⟩ : ∃ others, parsed.roles id = .expression :: yes :: others ∧
      ∀ role ∈ others, role.IsStatement := by
    rcases hroles with hroles | ⟨no, hno, hroles⟩
    · exact ⟨[], hroles, by simp⟩
    · exact ⟨[no], hroles, by simpa using hno⟩
  refine avoiding_jumpLabel fun _ _ => avoiding_jumpLabel fun _ _ => ?_
  refine (avoiding_setKind (by rw [hkind]; rfl)).bind fun _ _ _ _ => ?_
  refine (avoiding_condition hraw hid (by simp [hroles, Role.IsSilent])).bind fun _ _ _ _ => ?_
  refine avoiding_part hraw hid (by simp [hroles, Role.ne_of_isStatement hyes]) fun yes hyes _ => ?_
  refine (hinner yes _ hyes).bind fun _ after hafter _ => Leads.forest ?_
  split
  · next no hno =>
    have hslot := hafter.after.child?_parsed hraw hid (fun c hc => ?_) hno
    · exact hinner no _ (hraw.linked.lt_size (List.mem_of_getElem? hslot))
    · have hrole := roles_of_child? hc
      rw [hroles] at hrole
      exact Role.ne_of_isStatement (hothers _ (List.mem_of_getElem? (i := 0) hrole))
  · exact Leads.pure trivial

theorem avoiding_forLoop {labels : Option ForLabels}
    (hkind : state.forest.kind id = .forLoop labels) :
    Avoiding parsed (forLoop inner id) state := by
  refine Leads.assume fun hstart => ?_
  obtain ⟨-, start, test, next, body, hbegin, htest, hnext, hbody, hroles⟩ :=
    holds_of_kind hraw hid hstart.after hkind
  have hstatement : ∀ {role : Role}, role.IsStatement → role ≠ .expression := Role.ne_of_isStatement
  refine avoiding_jumpLabel fun _ _ => avoiding_jumpLabel fun _ _ => avoiding_jumpLabel fun _ _ => ?_
  refine (avoiding_setKind (by rw [hkind]; rfl)).bind fun _ _ _ _ => avoiding_inScope ?_
  have hrest : ∀ state, Avoiding parsed (do
      inner (← child id 2)
      inner (← child id 3)) state := fun _ =>
    avoiding_part hraw hid (by simp [hroles, hstatement hnext.isStatement]) fun next hnext _ =>
      (hinner next _ hnext).bind fun _ _ _ _ =>
        avoiding_part hraw hid (by simp [hroles, hstatement hbody]) fun body hbody _ =>
          hinner body _ hbody
  refine avoiding_part hraw hid (by simp [hroles, hstatement hbegin.isStatement])
    fun start hstart _ => ?_
  refine (hinner start _ hstart).bind fun _ _ _ _ => ?_
  refine (leads_child 1).bind ?_
  rintro test after hafter ⟨rfl, htop⟩
  refine Leads.forest <| Leads.ite (fun hnothing => ?_) fun hsome => ?_
  · refine (avoiding_annotate fun word hj => ?_).bind fun _ _ _ _ => hrest _
    have hjump := hj.jump
    rw [hafter.after.kind_eq hraw hj.lt_size, hnothing] at hjump
    cases hjump
  · refine (avoiding_condition hraw hid ?_).bind fun _ _ _ _ => hrest _
    rcases htest with rfl | rfl
    · simp [hroles, Role.IsSilent]
    · -- An absent condition is nothing.
      have habsent : ∀ c, parsed.child? id 1 = some c → parsed.role c = .absent := fun c hc => by
        simpa [hroles, eq_comm] using roles_of_child? hc
      have hslot := hafter.after.child?_parsed hraw hid (fun c hc => by simp [habsent c hc]) htop
      refine absurd (Kind.eq_nothing ?_) hsome
      rw [← Kind.role_plain, ← hafter.after.kind_eq hraw
        (hraw.linked.lt_size (List.mem_of_getElem? hslot))]
      exact habsent test hslot

omit hraw hid in
theorem avoiding_each {nodes : List NodeId} (hnodes : ∀ node ∈ nodes, (node : Nat) < parsed.size) :
    Avoiding parsed (each nodes inner) state :=
  leads_each (P := fun _ (node : Nat) => node < parsed.size) (fun _ h => h)
    (fun node state h => hinner node state h) hnodes

/-- Resolving statements that are the parts of a node. -/
theorem avoiding_parts {forest : Forest} (h : Outgrown parsed forest)
    (hroles : ∀ role ∈ parsed.roles id, role.IsStatement) :
    Avoiding parsed (each (forest.children id) inner) state := by
  rw [h.children_parsed hraw hid fun c hc =>
    Role.ne_of_isStatement (hroles _ (List.mem_map_of_mem hc))]
  exact avoiding_each hinner fun c hc => hraw.linked.lt_size hc

omit hid in
/-- The parameters of a function and its body share a scope. -/
theorem avoiding_body {function list body : NodeId} {params : List NodeId} {types : List Ty}
    (hlist : parsed.role list = .parameters)
    (hparams : ∀ param ∈ params, parsed.role param ≠ .statement)
    (hbody : (body : Nat) < parsed.size) (hblock : parsed.role body = .block) :
    Avoiding parsed (inScope do
      annotate list
      declareParameters function params types
      annotate body
      each ((← Resolve.forest).children body) inner) state := by
  refine avoiding_inScope <| (avoiding_annotate fun _ hj => ?_).bind fun _ _ _ _ => ?_
  · exact absurd hj.role (by simp [hlist])
  refine (avoiding_declareParameters hparams).bind fun _ _ _ _ => ?_
  refine (avoiding_annotate fun _ hj => ?_).bind fun _ _ hnoted _ => Leads.forest ?_
  · exact absurd hj.role (by simp [hblock])
  exact avoiding_parts hraw hbody hinner hnoted.after (hraw.roles_block hblock)

theorem avoiding_function {symbol : Option SymbolId}
    (hkind : state.forest.kind id = .function name symbol) :
    Avoiding parsed (function inner id name) state := by
  refine Leads.assume fun hstart => ?_
  -- There may be no body.
  obtain ⟨others, hroles, hothers⟩ : ∃ others, parsed.roles id = .type :: .parameters :: others ∧
      ∀ role ∈ others, role = .block := by
    rcases (holds_of_kind hraw hid hstart.after hkind).2 with hroles | hroles
    · exact ⟨[], hroles, by simp⟩
    · exact ⟨[.block], hroles, by simp⟩
  refine Leads.forest <| (leads_writtenType 0).bind ?_
  rintro result _ - rfl
  refine avoiding_part hraw hid (by simp [hroles]) fun list hlist hslot => ?_
  have hlistRole : parsed.role list = .parameters := by
    simpa [hroles, eq_comm] using roles_of_child? hslot
  have hparams := hraw.roles_parameters hlistRole
  refine Leads.forest <| leads_parameterTypes.bind ?_
  rintro types _ hlooked rfl
  refine Leads.forest <| avoiding_functionSymbol.bind fun symbol bound _ _ => ?_
  refine (avoiding_onForest (fun hw => ?_) fun m => ?_).bind fun _ _ _ _ => ?_
  · have hbound : Outgrown bound.forest (bound.forest.bind id symbol) := .bind hw symbol
    exact hbound.trans (.setType hbound.woven result)
  · exact (scope_update rfl m).trans (scope_update rfl m)
  split
  · exact avoiding_annotate fun _ hj => absurd hj.role (by simp [hlistRole])
  · next body hbody =>
    have hblock : ∀ c, parsed.child? id 2 = some c → parsed.role c = .block := fun c hc => by
      have hrole := roles_of_child? hc
      rw [hroles] at hrole
      exact hothers _ (List.mem_of_getElem? (i := 0) hrole)
    have hbody := hlooked.after.child?_parsed hraw hid (fun c hc => by simp [hblock c hc]) hbody
    refine avoiding_body hraw hinner hlistRole (fun param hparam => ?_)
      (hraw.linked.lt_size (List.mem_of_getElem? hbody)) (hblock body hbody)
    rw [hlooked.after.children_parsed hraw hlist fun c hc => by
      simp [hparams _ (List.mem_map_of_mem hc)]] at hparam
    simp [hparams _ (List.mem_map_of_mem hparam)]

omit hinner in
/-- A jump that is reached has a loop around it, unless it is stray. -/
theorem avoiding_jump {leaving : Bool} {word : String} (hstray : ¬parsed.Stray id word)
    (hjump : (state.forest.kind id).jump? = some word)
    (hkind : ∀ target, (if leaving then Kind.breakOut target else .continueOn target).plain =
      (state.forest.kind id).plain) :
    Avoiding parsed (jump id leaving) state := by
  refine Leads.assume fun hstart => Leads.forest ?_
  have hparsed : (parsed.kind id).jump? = some word := by
    rw [hstart.after.kind_eq hraw hid, Kind.jump?_plain, hjump]
  cases hloop : state.forest.enclosingLoop id with
  | none =>
    have hne : parsed.role id ≠ .expression := by simp [role, Kind.role_of_jump? hparsed]
    rw [hstart.after.enclosingLoop_eq hraw hid hne] at hloop
    exact absurd ((stray_iff hraw.linked hraw.ranked).mpr ⟨hparsed, hloop⟩) hstray
  | some loop => exact avoiding_setKind (hkind _)

end Statements

/-! ## The refusal of a jump -/

theorem annotate_bind (next : Unit → Resolve α) :
    (annotate id >>= next) state = next () (annotated state id) := rfl

theorem forest_bind (next : Forest → Resolve α) :
    (Resolve.forest >>= next) state = next state.forest state := rfl

/-- Resolving a stray jump notes on it where it is, and then refuses it. -/
theorem statementWithin_of_stray {levels : Nat} (hraw : parsed.Raw) {word : String}
    (hstray : parsed.Stray id word) (h : Outgrown parsed state.forest) :
    statementWithin (levels + 1) id state =
      .error ⟨.jumpOutsideLoop word, parsed.line id⟩ (annotated state id) := by
  have hnoted : Outgrown parsed (annotated state id).forest :=
    h.trans (.update h.woven ⟨rfl, rfl, rfl, rfl, rfl⟩)
  have hline := hnoted.line id hstray.lt_size
  have hloop : (annotated state id).forest.enclosingLoop id = none := by
    rw [hnoted.enclosingLoop_eq hraw hstray.lt_size (by simp [hstray.role])]
    exact ((stray_iff hraw.linked hraw.ranked).mp hstray).2
  have hjump := hstray.jump
  rw [hnoted.kind_eq hraw hstray.lt_size, Kind.jump?_plain] at hjump
  rw [statementWithin, annotate_bind, forest_bind]
  cases hkind : (annotated state id).forest.kind id <;> rw [hkind] at hjump <;> cases hjump
  · change jump id true _ = _
    rw [jump, forest_bind, hloop, ← hline]
    rfl
  · change jump id false _ = _
    rw [jump, forest_bind, hloop, ← hline]
    rfl

/-- Resolving a statement reaches no stray jump, or it is refused for one. -/
theorem avoiding_statementWithin (hraw : parsed.Raw) {levels : Nat} :
    ∀ {id : Nat} {state}, id < parsed.size → Avoiding parsed (statementWithin levels id) state := by
  induction levels with
  | zero => exact fun _ => Leads.exhausted
  | succ levels ih =>
    intro id state hid
    by_cases hstray : ∃ word, parsed.Stray id word
    · obtain ⟨word, hstray⟩ := hstray
      refine ⟨fun hstart => ?_⟩
      rw [statementWithin_of_stray hraw hstray hstart.after]
      refine .stray hstray rfl ?_ fun k _ _ hne => ?_
      · have hlt := Nat.lt_of_lt_of_le hid hstart.after.size_le
        rw [annotated, node_update _ _ _ _ hlt, if_pos rfl]
        exact hstart.opened.ne'
      · rw [annotated, node_update_of_ne _ _ hne]
    · have hquiet : ∀ word, ¬parsed.Stray id word := fun word hj => hstray ⟨word, hj⟩
      have hinner : ∀ (id : Nat) state, id < parsed.size →
          Avoiding parsed (statementWithin levels id) state := fun _ _ => ih
      refine (avoiding_annotate hquiet).bind fun _ noted hnoted _ => Leads.forest ?_
      split
      · next hkind => exact avoiding_declaration hraw hid hkind
      · next hkind => exact avoiding_function hraw hid hinner hkind
      · next hkind =>
        exact avoiding_inScope <| avoiding_parts hraw hid hinner hnoted.after
          (holds_of_kind hraw hid hnoted.after hkind).2
      · next hkind => exact avoiding_exprStatement hraw hid hkind
      · next hkind => exact avoiding_ifElse hraw hid hinner hkind
      · next hkind => exact avoiding_whileLoop hraw hid hinner hkind
      · next hkind => exact avoiding_forLoop hraw hid hinner hkind
      · next hkind => exact avoiding_giveBack hraw hid hkind
      · next hkind =>
        exact avoiding_jump hraw hid (hquiet "break") (by rw [hkind]; rfl) fun _ => by
          rw [hkind]
          rfl
      · next hkind =>
        exact avoiding_jump hraw hid (hquiet "continue") (by rw [hkind]; rfl) fun _ => by
          rw [hkind]
          rfl
      · exact Leads.pure trivial
      · exact Leads.malformed

/-! ## Programs -/

theorem avoiding_declareRoutines {routines : List Machine.Routine} :
    ∀ {state}, Avoiding parsed (declareRoutines routines) state := by
  induction routines with
  | nil => exact Leads.pure trivial
  | cons routine others ih => exact (avoiding_declare _).bind fun _ _ _ _ => ih

/-- The resolution of a parsed program reaches no stray jump, or it is refused for one. -/
theorem file_cases {root : NodeId} (hparsed : parsed.Parsed root) (session : Session) :
    (∃ last, file root { forest := parsed, session } = .ok () last ∧
      ∀ j word, parsed.Stray j word → (last.forest.node j).scope = 0) ∨
    ∃ fault last, file root { forest := parsed, session } = .error fault last ∧
      Halts parsed fault { forest := parsed, session } last := by
  have hraw := hparsed.raw
  have hfresh : ∀ j, (parsed.node j).scope = 0 := fun j => (hraw.fresh j).scope
  have hgrown : Outgrown parsed parsed := .refl ⟨hraw.linked, hraw.ranked⟩
  have hstatements : ∀ role ∈ parsed.roles root, role.IsStatement := by
    intro role hrole
    rcases hparsed.roles_root role hrole with rfl | rfl <;> trivial
  -- The catalog stays a name here: it is long, and nothing depends on what is in it.
  unfold file
  generalize Machine.Routine.catalog = routines
  have hsteps : Avoiding parsed (do
      annotate root
      declareRoutines routines
      each ((← Resolve.forest).children root) statement
      checkPending (← Resolve.table) (← get).pending
      modify fun state => { state with pending := [] })
      { forest := parsed, session, table := SymbolTable.enter {} } := by
    refine (avoiding_annotate fun _ hj => absurd hj.role (by simp [hparsed.role_root])).bind
      fun _ _ _ _ => avoiding_declareRoutines.bind fun _ _ hstocked _ => Leads.forest ?_
    refine (avoiding_parts hraw hparsed.lt_size
      (fun _ _ hid => Leads.forest (avoiding_statementWithin hraw hid)) hstocked.after
      hstatements).bind fun _ _ _ _ => ?_
    refine Leads.table <| Leads.get <| leads_checkPending.bind ?_
    rintro _ _ - rfl
    exact (Leads.modify fun hstart => { hstart with }).imp fun _ _ _ _ => trivial
  have hstart : Avoids parsed { forest := parsed, session, table := SymbolTable.enter {} }
      { forest := parsed, session, table := SymbolTable.enter {} } :=
    ⟨Nat.succ_pos _, rfl, hgrown, hgrown, fun _ _ _ => rfl⟩
  rcases inScope_cases _ { forest := parsed, session } with
    ⟨last, hrun, houter⟩ | ⟨fault, last, hrun, houter⟩
  · refine .inl ⟨_, houter, fun j word hj => ?_⟩
    exact ((hsteps.done hstart hrun).1.scope_eq j word hj).trans (hfresh j)
  · exact .inr ⟨fault, last, houter, (hsteps.stopped hstart hrun).of_table⟩

end MiniC.Resolve
