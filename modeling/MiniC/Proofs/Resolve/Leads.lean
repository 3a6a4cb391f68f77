import MiniC.Resolve.Program

/-!
# Where steps of resolution lead

A step of resolution has a result or is refused, and a refused step keeps the state that it has
reached. `Leads` says of both ends how they are related to the state that the step was started in, and
of a refusal with which fault. A `Leading` pair of relations goes along with any sequence of steps, so
what a step leads to is put together from what its parts lead to.

Only a jump is refused for being outside a loop. The rules for refusals ask for another cause, so each
step of another form is seen to have one.
-/

namespace MiniC

/-- Whether the cause is a jump that no loop is around. -/
def Cause.isJump : Cause → Bool
  | jumpOutsideLoop _ => true
  | _ => false

theorem SymbolTable.isJump_of_declare {table : SymbolTable} {symbol : Symbol} {fault : Fault}
    (h : table.declare symbol = .error fault) : fault.cause.isJump = false := by
  unfold declare at h
  split at h
  · cases h
    rfl
  · split at h
    · cases h
      rfl
    · cases h

namespace Resolve

variable {α β : Type}

/-- One relation for steps that have a result and one for steps that are refused, such that steps can
be taken one after the other. A state that is related to itself is one to start from, and to stop in
if it is not for a jump. -/
class Leading (Done : Resolution → Resolution → Prop)
    (Stopped : Fault → Resolution → Resolution → Prop) : Prop where
  trans {a b c : Resolution} : Done a b → Done b c → Done a c
  start {a b : Resolution} : Done a b → Done b b
  stop {fault : Fault} {a : Resolution} :
    fault.cause.isJump = false → Done a a → Stopped fault a a
  stop_after {fault : Fault} {a b c : Resolution} : Done a b → Stopped fault b c → Stopped fault a c

/-- Steps in a scope of their own are refused inside it, or the scope is closed behind them. -/
theorem inScope_cases (steps : Resolve Unit) (state : Resolution) :
    (∃ last, steps { state with table := state.table.enter } = .ok () last ∧
      inScope steps state = .ok () { last with table := last.table.leave }) ∨
    ∃ fault last, steps { state with table := state.table.enter } = .error fault last ∧
      inScope steps state = .error fault last := by
  have honTable : ∀ change (other : Resolution), onTable change other =
      .ok () { other with table := change other.table } := fun _ _ => rfl
  simp only [inScope, Bind.bind, EStateM.bind, honTable]
  cases steps { state with table := state.table.enter } with
  | ok value last => exact .inl ⟨last, rfl, rfl⟩
  | error fault last => exact .inr ⟨fault, last, rfl, rfl⟩

/-- From a state to start from, the step leads to a state that is done, with a result that satisfies
`post` there, or it is stopped. -/
structure Leads (Done : Resolution → Resolution → Prop)
    (Stopped : Fault → Resolution → Resolution → Prop) (step : Resolve α) (state : Resolution)
    (post : α → Resolution → Prop) : Prop where
  leads : Done state state →
    match step state with
    | .ok value next => Done state next ∧ post value next
    | .error fault next => Stopped fault state next

namespace Leads

variable {Done : Resolution → Resolution → Prop}
  {Stopped : Fault → Resolution → Resolution → Prop} {state : Resolution}
  {post : α → Resolution → Prop}

theorem done {step : Resolve α} {value : α} {next : Resolution}
    (h : Leads Done Stopped step state post) (hstart : Done state state)
    (hrun : step state = .ok value next) : Done state next ∧ post value next := by
  have hstep := h.leads hstart
  rwa [hrun] at hstep

theorem stopped {step : Resolve α} {fault : Fault} {next : Resolution}
    (h : Leads Done Stopped step state post) (hstart : Done state state)
    (hrun : step state = .error fault next) : Stopped fault state next := by
  have hstep := h.leads hstart
  rwa [hrun] at hstep

/-- A step may count on the state that it starts in. -/
theorem assume {step : Resolve α} (h : Done state state → Leads Done Stopped step state post) :
    Leads Done Stopped step state post := ⟨fun hstart => (h hstart).leads hstart⟩

theorem pure {value : α} (h : post value state) :
    Leads Done Stopped (Pure.pure value) state post := ⟨fun hstart => ⟨hstart, h⟩⟩

theorem imp {step : Resolve α} {post' : α → Resolution → Prop}
    (h : Leads Done Stopped step state post)
    (hpost : ∀ value next, Done state next → post value next → post' value next) :
    Leads Done Stopped step state post' := by
  refine ⟨fun hstart => ?_⟩
  have hstep := h.leads hstart
  split at hstep
  · exact ⟨hstep.1, hpost _ _ hstep.1 hstep.2⟩
  · exact hstep

/-- What a step leads to may be said with other relations. -/
theorem mono {Done' : Resolution → Resolution → Prop}
    {Stopped' : Fault → Resolution → Resolution → Prop} {step : Resolve α}
    {post' : α → Resolution → Prop} (h : Leads Done Stopped step state post)
    (hstart : Done' state state → Done state state)
    (hdone : ∀ value next, Done state next → post value next → Done' state next ∧ post' value next)
    (hstopped : ∀ fault next, Stopped fault state next → Stopped' fault state next) :
    Leads Done' Stopped' step state post' := by
  refine ⟨fun hstart' => ?_⟩
  have hstep := h.leads (hstart hstart')
  split at hstep
  · exact hdone _ _ hstep.1 hstep.2
  · exact hstopped _ _ hstep

theorem ite {c : Prop} [Decidable c] {yes no : Resolve α}
    (hyes : c → Leads Done Stopped yes state post) (hno : ¬c → Leads Done Stopped no state post) :
    Leads Done Stopped (if c then yes else no) state post := by
  by_cases h : c
  · rw [if_pos h]
    exact hyes h
  · rw [if_neg h]
    exact hno h

/-- Looking at the forest. -/
theorem forest {next : Forest → Resolve α} (h : Leads Done Stopped (next state.forest) state post) :
    Leads Done Stopped (Resolve.forest >>= next) state post := ⟨h.leads⟩

/-- Looking at the whole state. -/
theorem get {next : Resolution → Resolve α} (h : Leads Done Stopped (next state) state post) :
    Leads Done Stopped (MonadState.get >>= next) state post := ⟨h.leads⟩

/-- Looking at the symbol table. -/
theorem table {next : SymbolTable → Resolve α}
    (h : Leads Done Stopped (next state.table) state post) :
    Leads Done Stopped (Resolve.table >>= next) state post := ⟨h.leads⟩

theorem modify {change : Resolution → Resolution} (h : Done state state → Done state (change state)) :
    Leads Done Stopped (modify change) state fun _ next => next = change state :=
  ⟨fun hstart => ⟨h hstart, rfl⟩⟩

theorem onForest {change : Forest → Forest}
    (h : Done state state → Done state { state with forest := change state.forest }) :
    Leads Done Stopped (Resolve.onForest change) state fun _ next =>
      next = { state with forest := change state.forest } :=
  ⟨fun hstart => ⟨h hstart, rfl⟩⟩

/-- Steps in a scope of their own. -/
theorem inScope {steps : Resolve Unit}
    (hsteps : Leads Done Stopped steps { state with table := state.table.enter } fun _ _ => True)
    (henter : Done state state → Done { state with table := state.table.enter }
      { state with table := state.table.enter })
    (hleave : ∀ last, Done state state → Done { state with table := state.table.enter } last →
      Done state { last with table := last.table.leave })
    (hstopped : ∀ fault last, Stopped fault { state with table := state.table.enter } last →
      Stopped fault state last) :
    Leads Done Stopped (Resolve.inScope steps) state fun _ _ => True := by
  refine ⟨fun hstart => ?_⟩
  have hinside := hsteps.leads (henter hstart)
  rcases inScope_cases steps state with ⟨last, hrun, houter⟩ | ⟨fault, last, hrun, houter⟩
  · rw [hrun] at hinside
    rw [houter]
    exact ⟨hleave last hstart hinside.1, trivial⟩
  · rw [hrun] at hinside
    rw [houter]
    exact hstopped fault last hinside

theorem functionLabel {name : String}
    (hsession : ∀ session, Done state state → Done state { state with session }) :
    Leads Done Stopped (Resolve.functionLabel name) state fun _ _ => True :=
  ⟨fun hstart => ⟨hsession _ hstart, trivial⟩⟩

variable [hleading : Leading Done Stopped]

include hleading

theorem fault {fault : Fault} (h : fault.cause.isJump = false) :
    Leads Done Stopped (throw fault) state post := ⟨fun hstart => hleading.stop h hstart⟩

theorem refuse {cause : Cause} {line : Nat} (h : cause.isJump = false) :
    Leads Done Stopped (Resolve.refuse cause line) state post := fault h

theorem malformed {message : String} {line : Nat} :
    Leads Done Stopped (Resolve.malformed message line) state post := fault rfl

theorem exhausted {id : NodeId} : Leads Done Stopped (Resolve.exhausted id) state post :=
  forest malformed

/-- A step after another one starts where that one leads. -/
theorem bind {step : Resolve α} {next : α → Resolve β} {post' : β → Resolution → Prop}
    (h : Leads Done Stopped step state post)
    (hnext : ∀ value after, Done state after → post value after →
      Leads Done Stopped (next value) after post') :
    Leads Done Stopped (step >>= next) state post' := by
  refine ⟨fun hstart => ?_⟩
  have hstep := h.leads hstart
  simp only [Bind.bind, EStateM.bind]
  cases hs : step state with
  | error fault after =>
    rw [hs] at hstep
    exact hstep
  | ok value after =>
    rw [hs] at hstep
    obtain ⟨hdone, hpost⟩ := hstep
    have hthen := (hnext value after hdone hpost).leads (hleading.start hdone)
    simp only
    cases hn : next value after with
    | error fault last =>
      rw [hn] at hthen
      exact hleading.stop_after hdone hthen
    | ok value last =>
      rw [hn] at hthen
      exact ⟨hleading.trans hdone hthen.1, hthen.2⟩

/-- Drawing a label before other steps. -/
theorem jumpLabel {next : Machine.Label → Resolve α}
    (hsession : ∀ session, Done state state → Done state { state with session })
    (hnext : ∀ label session, Leads Done Stopped (next label) { state with session } post) :
    Leads Done Stopped (Resolve.jumpLabel >>= next) state post := by
  have hdraw : Leads Done Stopped Resolve.jumpLabel state fun _ after =>
      ∃ session, after = { state with session } := ⟨fun hstart => ⟨hsession _ hstart, _, rfl⟩⟩
  refine hdraw.bind ?_
  rintro label _ - ⟨session, rfl⟩
  exact hnext label session

theorem declare {symbol : Symbol}
    (htable : ∀ table s, state.table.declare symbol = .ok (table, s) → Done state state →
      Done state { state with table }) :
    Leads Done Stopped (Resolve.declare symbol) state fun _ _ => True := by
  refine table ?_
  cases hdeclare : state.table.declare symbol with
  | error fault => exact Leads.fault (SymbolTable.isJump_of_declare hdeclare)
  | ok result => exact ⟨fun hstart => ⟨htable _ _ hdeclare hstart, trivial⟩⟩

/-- A check that may refuse the program changes nothing. -/
theorem check {c : Prop} [Decidable c] {cause : Cause} {line : Nat} {next : Resolve α}
    (hcause : cause.isJump = false) (h : Leads Done Stopped next state post) :
    Leads Done Stopped (do
      if c then Resolve.refuse cause line
      next) state post := by
  by_cases hc : c
  · simp only [if_pos hc]
    exact ⟨fun hstart => hleading.stop hcause hstart⟩
  · simp only [if_neg hc]
    exact h

/-- A step that may be left out before another one. -/
theorem whenever {c : Prop} [Decidable c] {extra : Resolve Unit} {next : Resolve α}
    {post' : Unit → Resolution → Prop} (hextra : c → Leads Done Stopped extra state post')
    (hnext : ∀ after, Done state after → Leads Done Stopped next after post) :
    Leads Done Stopped (do
      if c then extra
      next) state post := by
  by_cases hc : c
  · simp only [if_pos hc]
    exact (hextra hc).bind fun _ after hdone _ => hnext after hdone
  · simp only [if_neg hc]
    exact assume fun hstart => hnext state hstart

end Leads

/-! ## Steps that only look -/

variable {Done : Resolution → Resolution → Prop}
  {Stopped : Fault → Resolution → Resolution → Prop} [Leading Done Stopped]
  {state : Resolution} {id : NodeId}

theorem leads_child (slot : Nat) :
    Leads Done Stopped (child id slot) state fun c next =>
      next = state ∧ state.forest.child? id slot = some c := by
  refine Leads.forest ?_
  cases hc : state.forest.child? id slot with
  | none => exact Leads.malformed
  | some c => exact Leads.pure ⟨rfl, rfl⟩

theorem leads_typeOf : Leads Done Stopped (typeOf id) state fun _ next => next = state := by
  refine Leads.forest ?_
  cases state.forest.type? id with
  | none => exact Leads.malformed
  | some type => exact Leads.pure rfl

theorem leads_writtenType (slot : Nat) :
    Leads Done Stopped (writtenType id slot) state fun _ next => next = state := by
  refine (leads_child slot).bind ?_
  rintro written _ - ⟨rfl, -⟩
  refine Leads.forest ?_
  cases Forest.typeOf? _ written with
  | none => exact Leads.malformed
  | some type => exact Leads.pure rfl

theorem leads_parameterType {param : NodeId} :
    Leads Done Stopped (parameterType param) state fun _ next => next = state := by
  refine Leads.forest ?_
  split
  · refine (leads_writtenType 0).bind ?_
    rintro type _ - rfl
    exact Leads.check rfl <| Leads.pure rfl
  · exact Leads.malformed

theorem leads_parameterTypes {params : List NodeId} :
    Leads Done Stopped (parameterTypes params) state fun _ next => next = state := by
  induction params with
  | nil => exact Leads.pure rfl
  | cons param others ih =>
    refine leads_parameterType.bind ?_
    rintro type _ - rfl
    refine ih.bind ?_
    rintro types _ - rfl
    exact Leads.pure rfl

theorem leads_checkPending {table : SymbolTable} {pending : List (SymbolId × Nat)} :
    Leads Done Stopped (checkPending table pending) state fun _ next => next = state := by
  induction pending with
  | nil => exact Leads.pure rfl
  | cons call others ih => exact Leads.check rfl ih

/-- Steps for each of some nodes, all with a property that no step takes away. -/
theorem leads_each {P : Resolution → NodeId → Prop} {steps : NodeId → Resolve Unit}
    {nodes : List NodeId} (hkeep : ∀ {a b node}, Done a b → P a node → P b node)
    (hsteps : ∀ node state, P state node → Leads Done Stopped (steps node) state fun _ _ => True) :
    ∀ {state}, (∀ node ∈ nodes, P state node) →
      Leads Done Stopped (each nodes steps) state fun _ _ => True := by
  induction nodes with
  | nil => exact fun _ => Leads.pure trivial
  | cons node others ih =>
    intro state hnodes
    refine (hsteps _ _ (hnodes _ List.mem_cons_self)).bind fun _ after hdone _ => ?_
    exact ih fun other hother => hkeep hdone (hnodes _ (List.mem_cons_of_mem _ hother))

end Resolve

end MiniC
