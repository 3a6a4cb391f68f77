import MiniC.Proofs.Resolve.Consults
import MiniC.Proofs.SymbolTable

/-!
# What resolving statements changes

However far a statement is resolved, the forest has only grown. If its resolution ends, the scopes are
the ones that were open before, and only the innermost of them may have got more names.
-/

namespace MiniC

/-- The same scopes, the innermost perhaps with names that it did not have. -/
inductive Widened : List Scope → List Scope → Prop
  | none : Widened [] []
  | innermost {scope gained : Scope} {outer : List Scope}
      (hnew : ∀ entry ∈ gained, scope.lookup entry.1 = none) :
      Widened (scope :: outer) ((gained ++ scope) :: outer)

namespace Widened

variable {scopes scopes' scopes'' : List Scope}

theorem refl (scopes : List Scope) : Widened scopes scopes := by
  cases scopes with
  | nil => exact none
  | cons scope outer =>
    have h : Widened (scope :: outer) (([] ++ scope) :: outer) := innermost (by simp)
    exact h

theorem trans (h : Widened scopes scopes') (h' : Widened scopes' scopes'') :
    Widened scopes scopes'' := by
  cases h with
  | none => exact h'
  | @innermost scope gained outer hnew =>
    cases h' with
    | @innermost _ gained' _ hnew' =>
      rw [← List.append_assoc]
      refine .innermost fun entry hentry => ?_
      rcases List.mem_append.mp hentry with hentry | hentry
      · have hnone := hnew' entry hentry
        rw [List.lookup_append, Option.or_eq_none_iff] at hnone
        exact hnone.2
      · exact hnew entry hentry

/-- What a scope is opened for closes it again. -/
theorem of_enter {table table' : SymbolTable} (h : Widened table.enter.scopes table'.scopes) :
    table'.leave.scopes = table.scopes := by
  obtain ⟨gained, hscopes⟩ : ∃ gained, table'.scopes = gained :: table.scopes := by
    change Widened ([] :: table.scopes) _ at h
    generalize table'.scopes = scopes at h
    cases h
    exact ⟨_, rfl⟩
  unfold SymbolTable.leave
  split
  · next heq => cases heq.symm.trans hscopes
  · next heq => exact (List.cons.inj (heq.symm.trans hscopes)).2
  · next heq => exact (List.cons.inj (heq.symm.trans hscopes)).2

end Widened

namespace Resolve

open Forest

variable {α : Type} {state : Resolution} {post : α → Resolution → Prop} {id : NodeId}

/-- The forest has grown, and the same scopes are open. -/
structure Passes (state next : Resolution) : Prop where
  grown : Outgrown state.forest next.forest
  scopes : Widened state.table.scopes next.table.scopes

/-- The forest has grown, whatever the fault is. -/
def Stops (_ : Fault) (state next : Resolution) : Prop := Outgrown state.forest next.forest

instance : Leading Passes Stops where
  trans h h' := ⟨h.grown.trans h'.grown, h.scopes.trans h'.scopes⟩
  start h := ⟨.refl h.grown.woven, .refl _⟩
  stop _ h := h.grown
  stop_after h h' := h.grown.trans h'

/-- The step leads to a forest that has grown, and if it has a result, to the same scopes. -/
abbrev Passing (step : Resolve α) (state : Resolution) : Prop :=
  Leads Passes Stops step state fun _ _ => True

theorem passes_of_forest {next : Resolution} (h : Outgrown state.forest next.forest)
    (htable : next.table = state.table) : Passes state next :=
  ⟨h, htable ▸ .refl _⟩

/-- What expressions consult may be resolved among statements. -/
theorem passing_of_consulting {step : Resolve α}
    (h : Consulting state.forest id step state post) : Leads Passes Stops step state post :=
  h.mono (fun hstart => .refl hstart.grown.woven hstart.grown)
    (fun _ _ hdone hpost => ⟨passes_of_forest hdone.grown hdone.table_eq, hpost⟩)
    fun _ _ hstopped => hstopped.consults.grown

theorem visited_self (h : state.forest.Owned id) : Visited state.forest id state.forest id := by
  obtain ⟨p, hp⟩ := Option.isSome_iff_exists.mp h
  exact ⟨h, id, lt_size_of_parent hp, .refl id, .refl⟩

theorem visited_child (hw : state.forest.Woven) {slot : Nat} {c : NodeId}
    (hc : state.forest.child? id slot = some c) : Visited state.forest id state.forest c := by
  have hmem := List.mem_of_getElem? hc
  exact ⟨hw.owned_of_mem hmem, c, hw.linked.lt_size hmem, .refl c, .of_mem hmem⟩

theorem passing_expression (h : state.forest.Owned id) : Passing (expression id) state :=
  (passing_of_consulting (consulting_expression (visited_self h))).imp fun _ _ _ _ => trivial

theorem passing_coerced (h : state.forest.Owned id) (target : Ty) :
    Passing (do let _ ← convert (← expression id) target) state :=
  passing_of_consulting (consulting_coerced (visited_self h) target)

/-! ## Primitive steps -/

theorem passing_onForest {change : Forest → Forest}
    (h : state.forest.Woven → Outgrown state.forest (change state.forest)) :
    Passing (onForest change) state :=
  (Leads.onForest fun hstart => passes_of_forest (h hstart.grown.woven) rfl).imp
    fun _ _ _ _ => trivial

theorem passing_annotate : Passing (annotate id) state :=
  Leads.table <| passing_onForest fun hw => .update hw ⟨rfl, rfl, rfl, rfl, rfl⟩

theorem passing_setType (type : Ty) : Passing (onForest (·.setType id type)) state :=
  passing_onForest fun hw => .setType hw type

theorem passing_bind (symbol : SymbolId) : Passing (onForest (·.bind id symbol)) state :=
  passing_onForest fun hw => .bind hw symbol

theorem passing_setKind {kind : Kind} (h : kind.plain = (state.forest.kind id).plain) :
    Passing (onForest (·.setKind id kind)) state := passing_onForest fun hw => .setKind hw h

/-- A change of what is neither the forest nor the scopes. -/
theorem passing_modify {change : Resolution → Resolution}
    (hforest : (change state).forest = state.forest)
    (hscopes : (change state).table.scopes = state.table.scopes) : Passing (modify change) state := by
  refine (Leads.modify fun hstart => ⟨?_, ?_⟩).imp fun _ _ _ _ => trivial
  · rw [hforest]
    exact hstart.grown
  · rw [hscopes]
    exact .refl _

theorem passing_jumpLabel {next : Machine.Label → Resolve α}
    (h : ∀ label session, Leads Passes Stops (next label) { state with session } post) :
    Leads Passes Stops (jumpLabel >>= next) state post :=
  .jumpLabel (fun _ hstart => passes_of_forest hstart.grown rfl) h

theorem passing_functionLabel (name : String) : Passing (functionLabel name) state :=
  .functionLabel fun _ hstart => passes_of_forest hstart.grown rfl

theorem passing_declare (symbol : Symbol) : Passing (declare symbol) state := by
  refine .declare fun table s hdeclare hstart => ⟨hstart.grown, ?_⟩
  change Widened state.table.scopes table.scopes
  obtain ⟨scope, outer, hscopes, hnew, hscopes'⟩ := (SymbolTable.accepted_of_declare hdeclare).scopes_eq
  rw [hscopes, hscopes']
  refine Widened.innermost (fun entry hentry => ?_ : ∀ entry ∈ [(symbol.name, state.table.size)], _)
  rw [List.mem_singleton.mp hentry]
  exact hnew

/-- Steps in a scope of their own leave the scopes as they were. -/
theorem passing_inScope {steps : Resolve Unit}
    (h : Passing steps { state with table := state.table.enter }) :
    Passing (inScope steps) state := by
  refine .inScope h (fun hstart => ⟨hstart.grown, .refl _⟩) (fun last _ hlast => ⟨hlast.grown, ?_⟩)
    fun _ _ hstopped => hstopped
  change Widened state.table.scopes last.table.leave.scopes
  rw [hlast.scopes.of_enter]
  exact .refl _

/-- The child in a slot is resolved before other steps. -/
theorem passing_child {next : NodeId → Resolve α} (slot : Nat)
    (h : ∀ c, state.forest.child? id slot = some c → state.forest.Owned c →
      Leads Passes Stops (next c) state post) :
    Leads Passes Stops (child id slot >>= next) state post := by
  refine (leads_child slot).bind ?_
  rintro c _ hstart ⟨rfl, hc⟩
  exact h c hc (hstart.grown.woven.owned_of_mem (List.mem_of_getElem? hc))

theorem passing_each {steps : NodeId → Resolve Unit} {nodes : List NodeId}
    (hsteps : ∀ node state, Passing (steps node) state) : Passing (each nodes steps) state :=
  leads_each (P := fun _ _ => True) (fun _ _ => trivial) (fun node state _ => hsteps node state)
    fun _ _ => trivial

/-! ## Declarations -/

section Declarations

variable {name : String} {line : Nat} {type : Ty} {size : Option (Option Nat)}

theorem passing_initializer : Passing (initializer id name line type size) state :=
  Leads.assume fun hstart => passing_of_consulting
    (consulting_initializer fun _ => visited_child hstart.grown.woven)

theorem passing_declaration : Passing (declaration id name) state := by
  refine Leads.forest <| passing_child 0 fun written _ _ => (leads_writtenType 0).bind ?_
  rintro declared _ - rfl
  refine Leads.check rfl <| Leads.forest <| Leads.check rfl ?_
  refine passing_initializer.bind fun type _ _ _ => ?_
  refine (passing_setType type).bind fun _ _ _ _ => Leads.forest ?_
  exact (passing_declare _).bind fun symbol _ _ _ => passing_bind symbol

theorem passing_functionSymbol {result : Ty} {params : List Ty} {hasBody : Bool} :
    Passing (functionSymbol id name line result params hasBody) state := by
  refine Leads.table ?_
  cases state.table.lookupCurrent name with
  | none =>
    exact (passing_functionLabel name).bind fun _ _ _ _ => Leads.forest (passing_declare _)
  | some earlier =>
    simp only
    cases (state.table.symbol earlier).signature? with
    | none => exact Leads.refuse rfl
    | some signature =>
      exact Leads.check rfl <| Leads.check rfl <| Leads.whenever (fun _ => passing_modify rfl rfl)
        fun _ _ => Leads.pure trivial

theorem passing_declareParameter {function param : NodeId} :
    Passing (declareParameter function param type) state := by
  refine passing_annotate.bind fun _ after _ _ => Leads.forest ?_
  split
  · refine (passing_declare _).bind fun symbol after _ _ => passing_onForest fun hw => ?_
    have htyped : Outgrown after.forest (after.forest.setType param type) := .setType hw type
    exact htyped.trans (.bind htyped.woven symbol)
  · exact Leads.pure trivial

theorem passing_declareParameters {function : NodeId} {params : List NodeId} :
    ∀ {types state}, Passing (declareParameters function params types) state := by
  induction params with
  | nil => exact Leads.pure trivial
  | cons param params ih =>
    intro types state
    cases types with
    | nil => exact Leads.pure trivial
    | cons type types => exact passing_declareParameter.bind fun _ _ _ _ => ih

end Declarations

/-! ## Statements -/

section Statements

variable {name : String}

theorem passing_condition {slot : Nat} : Passing (condition id slot) state :=
  passing_child slot fun _ _ hc => passing_coerced hc .int

variable {inner : NodeId → Resolve Unit} (hinner : ∀ id state, Passing (inner id) state)

include hinner

theorem passing_function : Passing (function inner id name) state := by
  refine Leads.forest <| (leads_writtenType 0).bind ?_
  rintro result _ - rfl
  refine passing_child 1 fun list _ _ => Leads.forest <| leads_parameterTypes.bind ?_
  rintro types _ - rfl
  refine Leads.forest <| passing_functionSymbol.bind fun symbol bound _ _ => ?_
  refine (passing_onForest fun hw => ?_).bind fun _ after _ _ => ?_
  · have hbound : Outgrown bound.forest (bound.forest.bind id symbol) := .bind hw symbol
    exact hbound.trans (.setType hbound.woven result)
  · split
    · exact passing_annotate
    · exact passing_inScope <| passing_annotate.bind fun _ _ _ _ =>
        passing_declareParameters.bind fun _ _ _ _ => passing_annotate.bind fun _ _ _ _ =>
          Leads.forest <| passing_each hinner

theorem passing_ifElse {labels : Option IfLabels} (h : state.forest.kind id = .ifElse labels) :
    Passing (ifElse inner id) state := by
  refine passing_jumpLabel fun _ _ => passing_jumpLabel fun _ _ => ?_
  refine (passing_setKind (by rw [h]; rfl)).bind fun _ _ _ _ => passing_condition.bind
    fun _ _ _ _ => passing_child 1 fun _ _ _ => (hinner _ _).bind fun _ _ _ _ => Leads.forest ?_
  split
  · exact hinner _ _
  · exact Leads.pure trivial

theorem passing_whileLoop {labels : Option WhileLabels}
    (h : state.forest.kind id = .whileLoop labels) : Passing (whileLoop inner id) state := by
  refine passing_jumpLabel fun _ _ => passing_jumpLabel fun _ _ => ?_
  exact (passing_setKind (by rw [h]; rfl)).bind fun _ _ _ _ => passing_condition.bind
    fun _ _ _ _ => passing_child 1 fun body _ _ => passing_inScope (hinner body _)

theorem passing_forLoop {labels : Option ForLabels} (h : state.forest.kind id = .forLoop labels) :
    Passing (forLoop inner id) state := by
  refine passing_jumpLabel fun _ _ => passing_jumpLabel fun _ _ => passing_jumpLabel fun _ _ => ?_
  refine (passing_setKind (by rw [h]; rfl)).bind fun _ _ _ _ => passing_inScope ?_
  have hrest : ∀ state, Passing (do
      inner (← child id 2)
      inner (← child id 3)) state := fun _ =>
    passing_child 2 fun _ _ _ => (hinner _ _).bind fun _ _ _ _ =>
      passing_child 3 fun _ _ _ => hinner _ _
  refine passing_child 0 fun _ _ _ => (hinner _ _).bind fun _ _ _ _ =>
    passing_child 1 fun test _ _ => Leads.forest ?_
  exact Leads.ite (fun _ => passing_annotate.bind fun _ _ _ _ => hrest _)
    fun _ => passing_condition.bind fun _ _ _ _ => hrest _

omit hinner

theorem passing_giveBack : Passing (giveBack id) state :=
  Leads.assume fun hstart => passing_of_consulting
    (consulting_giveBack fun _ => visited_child hstart.grown.woven)

theorem passing_jump {leaving : Bool}
    (h : ∀ target, (if leaving then Kind.breakOut target else .continueOn target).plain =
      (state.forest.kind id).plain) : Passing (jump id leaving) state := by
  refine Leads.forest ?_
  cases state.forest.enclosingLoop id with
  | none => exact ⟨fun hstart => hstart.grown⟩
  | some loop => exact passing_setKind (h _)

theorem passing_statementWithin {levels : Nat} :
    ∀ {id state}, Passing (statementWithin levels id) state := by
  induction levels with
  | zero => exact Leads.exhausted
  | succ levels ih =>
    intro id state
    refine passing_annotate.bind fun _ _ _ _ => Leads.forest ?_
    have hinner : ∀ id state, Passing (statementWithin levels id) state := fun _ _ => ih
    split
    · exact passing_declaration
    · exact passing_function hinner
    · exact passing_inScope (passing_each hinner)
    · exact passing_child 0 fun _ _ hc =>
        (passing_expression hc).bind fun _ _ _ _ => Leads.pure trivial
    · next hkind => exact passing_ifElse hinner hkind
    · next hkind => exact passing_whileLoop hinner hkind
    · next hkind => exact passing_forLoop hinner hkind
    · exact passing_giveBack
    · next hkind => exact passing_jump fun _ => by rw [hkind]; rfl
    · next hkind => exact passing_jump fun _ => by rw [hkind]; rfl
    · exact Leads.pure trivial
    · exact Leads.malformed

theorem passing_statement : Passing (statement id) state := Leads.forest passing_statementWithin

end Statements

/-! ## Programs -/

theorem passing_declareRoutines {routines : List Machine.Routine} :
    ∀ {state}, Passing (declareRoutines routines) state := by
  induction routines with
  | nil => exact Leads.pure trivial
  | cons routine others ih => exact (passing_declare _).bind fun _ _ _ _ => ih

/-- However far a file is resolved, its forest has only grown. -/
theorem passing_file (root : NodeId) (state : Resolution) : Passing (file root) state := by
  -- The catalog stays a name here: it is long, and nothing depends on what is in it.
  unfold file
  generalize Machine.Routine.catalog = routines
  refine passing_inScope <| passing_annotate.bind fun _ _ _ _ => ?_
  refine passing_declareRoutines.bind fun _ _ _ _ => Leads.forest ?_
  refine (passing_each fun _ _ => passing_statement).bind fun _ _ _ _ => ?_
  refine Leads.table <| Leads.get <| leads_checkPending.bind ?_
  rintro _ _ - rfl
  exact passing_modify rfl rfl

end Resolve

end MiniC
