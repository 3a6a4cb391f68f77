import MiniC.Proofs.Alike.Statement
import MiniC.Proofs.Machine.Library

/-!
# Resolving programs alike

The scope of the file starts with the routines of the library, under the same names in every program.
Their lines are no lines of a source, so nothing may be reported about them: their names are all
different, and none of them is refused.
-/

namespace MiniC.Likeness

open Resolve

variable {L : Likeness} {known : Set NodeId} {forest forest' : Forest} {state state' : Resolution}

/-- Declaring a symbol under a new name. -/
theorem declare_eq (symbol : Symbol) {scope : Scope} {scopes : List Scope}
    (hscopes : state.table.scopes = scope :: scopes) (hfree : scope.lookup symbol.name = none) :
    declare symbol state = .ok state.table.size
      { state with table :=
        { state.table with
          symbols := state.table.symbols.push { symbol with depth := state.table.depth }
          scopes := ((symbol.name, state.table.size) :: scope) :: scopes } } := by
  have hdeclare : state.table.declare symbol = .ok
      ({ state.table with
        symbols := state.table.symbols.push { symbol with depth := state.table.depth }
        scopes := ((symbol.name, state.table.size) :: scope) :: scopes }, state.table.size) := by
    rw [SymbolTable.declare, hscopes]
    simp only [hfree]
  unfold declare
  simp only [Bind.bind, EStateM.bind, show table state = .ok state.table state from rfl, hdeclare]
  rfl

theorem sameSymbol_routine {routine : Machine.Routine} (h : routine ∈ Machine.Routine.catalog) :
    L.SameSymbol (routineSymbol routine) (routineSymbol routine) :=
  ⟨rfl, .function ⟨rfl, .named (List.mem_map_of_mem h), rfl, rfl, rfl⟩, rfl, rfl, rfl, fun _ => rfl⟩

/-- Routines under names that are new and all different are declared without a refusal. -/
theorem sameResult_declareRoutines {routines : List Machine.Routine} {scope : Scope} {scopes : List Scope}
    (h : L.SameResolution known state state') (hscopes : state.table.scopes = scope :: scopes)
    (hmem : ∀ routine ∈ routines, routine ∈ Machine.Routine.catalog)
    (hnodup : (routines.map (·.name)).Nodup)
    (hfree : ∀ routine ∈ routines, scope.lookup routine.name = none) :
    L.SameResult (L.SameResolution known) Eq (declareRoutines routines state)
      (declareRoutines routines state') := by
  induction routines generalizing state state' scope with
  | nil => exact .ok rfl h
  | cons routine others ih =>
    have hroutine := hmem routine List.mem_cons_self
    have hopen := h.table.scopes
    rw [hscopes, List.forall₂_cons_left_iff] at hopen
    obtain ⟨scope', scopes', hscope, -, hscopes'⟩ := hopen
    have hfree' : scope'.lookup routine.name = none := by
      rw [hscope.lookup (L.routine routine hroutine)]
      exact hfree routine List.mem_cons_self
    have hstep : ∀ {state state' : Resolution} {id}, declare (routineSymbol routine) state = .ok id state' →
        declareRoutines (routine :: others) state = declareRoutines others state' := by
      intro state state' id hok
      rw [declareRoutines]
      simp only [Bind.bind, EStateM.bind, hok]
    rw [hstep (declare_eq (routineSymbol routine) hscopes (hfree routine List.mem_cons_self)),
      hstep (declare_eq (routineSymbol routine) hscopes' hfree')]
    rw [List.map_cons, List.nodup_cons] at hnodup
    refine ih { h with table := ?_ } rfl (fun other hother => hmem other (List.mem_cons_of_mem _ hother))
      hnodup.2 fun other hother => ?_
    · have hsame : L.SameSymbol { routineSymbol routine with depth := state.table.depth }
          { routineSymbol routine with depth := state'.table.depth } :=
        { sameSymbol_routine hroutine with depth := h.table.depth }
      exact h.table.push hsame (L.routine routine hroutine) (.inr (List.mem_map_of_mem hroutine)) ⟨rfl⟩ ⟨rfl⟩
        hscopes hscopes' rfl rfl rfl rfl
    · have hne : other.name ≠ routine.name := by
        intro heq
        exact hnodup.1 (heq ▸ List.mem_map_of_mem hother)
      rw [List.lookup_cons]
      simp only [routineSymbol, beq_eq_false_iff_ne.mpr hne]
      exact hfree other (List.mem_cons_of_mem _ hother)

theorem resolves_checkPending {table table' : SymbolTable} (h : L.SameTable table table')
    {pending pending' : List (SymbolId × Nat)}
    (hpending : List.Forall₂ (fun call call' => call'.1 = call.1 ∧ L.line call.2 call'.2) pending pending') :
    L.Resolves known Eq (checkPending table pending) (checkPending table' pending') := by
  induction hpending with
  | nil => exact .pure rfl
  | @cons call call' _ _ hcall _ ih =>
    obtain ⟨id, line⟩ := call
    obtain ⟨id', line'⟩ := call'
    obtain ⟨rfl, hline⟩ := hcall
    have hsignature := (h.symbol id').signature?
    have hdefined : (table'.symbol id').signature?.any (!·.defined) =
        (table.symbol id').signature?.any (!·.defined) := by
      generalize (table.symbol id').signature? = signature, (table'.symbol id').signature? = signature'
        at hsignature ⊢
      cases hsignature with
      | none => rfl
      | some hsame => rw [Option.any_some, Option.any_some, hsame.defined]
    unfold checkPending
    dsimp only
    rw [hdefined]
    exact .when (V := Eq) (fun _ => resolves_refuse ⟨rfl, rfl⟩ hline) ih

/-- What follows the declarations of the library. -/
theorem resolves_declarations (root : NodeId) :
    L.Resolves known Eq
      (do
        each ((← Resolve.forest).children root) statement
        checkPending (← Resolve.table) (← get).pending
        modify fun state => { state with pending := [] })
      (do
        each ((← Resolve.forest).children root) statement
        checkPending (← Resolve.table) (← get).pending
        modify fun state => { state with pending := [] }) := by
  refine resolves_forest.bind fun forest forest' h => ?_
  rw [h.children]
  refine (resolves_each _ resolves_statement).next fun _ => resolves_table.bind fun table table' htable =>
    Tracks.get.bind fun state state' hstate => ?_
  exact (resolves_checkPending htable hstate.pending).next fun _ =>
    .modify fun _ _ h => { h with pending := .nil }

/-- The start of a resolution. -/
theorem sameResolution_start (h : L.SameForest forest forest') (hlined : L.Lined forest forest') :
    L.SameResolution ∅ { forest } { forest := forest' } := by
  refine ⟨⟨h, hlined, fun _ hid => hid.elim⟩, ⟨rfl, fun id => ?_, .nil, .none⟩, ⟨rfl, .nil⟩, .nil⟩
  exact .default

/-- Files alike are resolved alike. -/
theorem sameResult_file (h : L.SameResolution ∅ state state') (hscopes : state.table.scopes = [])
    (root : NodeId) : L.SameResult (L.SameResolution ∅) Eq (file root state) (file root state') := by
  have hopened : L.SameResolution ∅ { state with table := state.table.enter }
      { state' with table := state'.table.enter } := { h with table := h.table.enter }
  have hnoted : L.SameResolution ∅ (annotated { state with table := state.table.enter } root)
      (annotated { state' with table := state'.table.enter } root) :=
    SameResult.of_ok (resolves_annotate root hopened)
  have hroutines := sameResult_declareRoutines hnoted
    (congrArg (List.cons []) hscopes) (fun _ hmem => hmem) Machine.Routine.nodup_catalog fun _ _ => rfl
  have hbody := (hroutines.bind fun _ _ _ => resolves_declarations root).bind fun _ _ _ =>
    resolves_onTable fun _ _ h => h.leave
  -- the steps in front leave the routines as they are
  have hfront : ∀ (routines rest : Resolve Unit) (state : Resolution),
      inScope (annotate root >>= fun _ => routines >>= fun _ => rest) state =
        ((routines >>= fun _ => rest) >>= fun _ => onTable (·.leave))
          (annotated { state with table := state.table.enter } root) := fun _ _ _ => rfl
  unfold file
  rwa [hfront, hfront]

/-- Programs alike are resolved alike. -/
theorem agree_program (h : L.SameForest forest forest') (hlined : L.Lined forest forest') :
    L.Agree (L.SameResolution ∅) (program forest {}) (program forest' {}) := by
  have hstart := sameResolution_start h hlined
  have hscopes : ({ forest } : Resolution).table.scopes = [] := rfl
  unfold program
  rw [h.root]
  generalize ({ forest } : Resolution) = state, ({ forest := forest' } : Resolution) = state'
    at hstart hscopes ⊢
  cases forest.root with
  | none => exact .malformed
  | some root =>
    have hfile := sameResult_file hstart hscopes root
    dsimp only
    generalize file root state = result, file root state' = result' at hfile ⊢
    cases hfile with
    | ok _ h => exact .ok h
    | error h => exact .error h

section Returns

theorem surelyReturns_eq (h : L.SameForest forest forest') (id : NodeId) :
    forest'.surelyReturns id = forest.surelyReturns id := by
  have hlevels : ∀ levels id, forest'.returnsWithin levels id = forest.returnsWithin levels id := by
    intro levels
    induction levels with
    | zero => exact fun _ => rfl
    | succ levels ih =>
      intro id
      have hbelow : forest'.returnsWithin levels = forest.returnsWithin levels :=
        funext fun child => ih child
      simp only [Forest.returnsWithin, h.child?, h.children, hbelow]
      have hkind := h.kind id
      generalize forest.kind id = k, forest'.kind id = k' at hkind ⊢
      cases hkind <;> rfl
  rw [Forest.surelyReturns, Forest.surelyReturns, h.size, hlevels]

/-- The same functions owe a return. -/
theorem owesReturn?_rel (h : L.SameForest forest forest') (id : NodeId) :
    Option.Rel L.name (forest.owesReturn? id) (forest'.owesReturn? id) := by
  unfold Forest.owesReturn?
  rw [h.child?, h.type?]
  have hkind := h.kind id
  generalize forest.kind id = k, forest'.kind id = k' at hkind ⊢
  cases forest.child? id 2 with
  | none =>
    cases hkind with
    | @other k => cases k <;> exact .none
    | _ => exact .none
  | some body =>
    cases hkind with
    | function hname =>
      dsimp only
      rw [surelyReturns_eq h]
      split
      · exact .some hname
      · exact .none
    | @other k =>
      cases k with
      | function => contradiction
      | _ => exact .none
    | _ => exact .none

theorem isSilent_of_owesReturn? {id : NodeId} {name : String} (h : forest.owesReturn? id = some name) :
    (forest.kind id).isSilent = false := by
  unfold Forest.owesReturn? at h
  split at h
  · rename_i hkind _
    rw [hkind]
    rfl
  · cases h

theorem sameSession_warnReturns (h : L.SameForest forest forest') (hlined : L.Lined forest forest')
    {session session' : Session} (hsession : L.SameSession session session') :
    L.SameSession (forest.warnReturns session) (forest'.warnReturns session') := by
  unfold Forest.warnReturns
  rw [h.root]
  cases forest.root with
  | none => exact hsession
  | some root =>
    dsimp only
    rw [h.preorder]
    generalize forest.preorder root = ids
    induction ids generalizing session session' with
    | nil => exact hsession
    | cons id ids ih =>
      refine ih ?_
      have howes := owesReturn?_rel h id
      have hline : ∀ {name}, forest.owesReturn? id = some name → L.line (forest.line id) (forest'.line id) :=
        fun hname => hlined id (.inl (isSilent_of_owesReturn? hname))
      dsimp only
      generalize forest.owesReturn? id = owed, forest'.owesReturn? id = owed' at howes hline ⊢
      cases howes with
      | none => exact hsession
      | some hname =>
        exact ⟨hsession.drawn, List.rel_append hsession.warnings (.cons ⟨.missingReturn hname, hline rfl⟩ .nil)⟩

end Returns

end MiniC.Likeness
