import MiniC.Emit.Expression
import MiniC.Grammar.Parser
import MiniC.Resolve.Resolution

/-!
# What steps ensure

Reading, resolving and making code are steps that change a state and may be refused. `Ensures` says
of a step, started in a state, what holds of its result and the state behind it, and which faults it
may be refused with in which states. Each kind of step has an equation, so that a run is followed by
rewriting.
-/

namespace MiniC

/-- A fault of the program that is compiled, not of a tree whose parts do not fit together. -/
def Fault.Ordinary (fault : Fault) : Prop := ∀ message, fault.cause ≠ .malformedTree message

theorem Fault.ordinary_of_cause {cause : Cause} {line : Nat}
    (h : ∀ message, cause ≠ .malformedTree message) : Fault.Ordinary ⟨cause, line⟩ := h

/-- No fault in any state. -/
def Fault.Never {σ : Type} (_ : Fault) (_ : σ) : Prop := False

/-- Any fault in any state. -/
def Fault.Any {σ : Type} (_ : Fault) (_ : σ) : Prop := True

/-- Started in `state`, the step ends with `post` or is refused with a fault and in a state that
`refusal` allows. -/
def Ensures {σ α : Type} (step : EStateM Fault σ α) (state : σ) (refusal : Fault → σ → Prop)
    (post : α → σ → Prop) : Prop :=
  match step state with
  | .ok value state => post value state
  | .error fault state => refusal fault state

namespace Ensures

variable {σ α β : Type} {state : σ} {refusal refusal' : Fault → σ → Prop}

/-- What a step ensures may be weakened. -/
theorem mono {step : EStateM Fault σ α} {post post' : α → σ → Prop}
    (h : Ensures step state refusal post) (hpost : ∀ value state, post value state → post' value state)
    (hrefusal : ∀ fault state, refusal fault state → refusal' fault state) :
    Ensures step state refusal' post' := by
  unfold Ensures at h ⊢
  split
  · exact hpost _ _ (by simpa [*] using h)
  · exact hrefusal _ _ (by simpa [*] using h)

/-- What a step ensures of its result and the state behind it may be weakened. -/
theorem imp {step : EStateM Fault σ α} {post post' : α → σ → Prop}
    (h : Ensures step state refusal post)
    (hpost : ∀ value state, post value state → post' value state) :
    Ensures step state refusal post' := h.mono hpost fun _ _ => id

theorem of_ok {step : EStateM Fault σ α} {post : α → σ → Prop} {value : α} {state' : σ}
    (h : Ensures step state refusal post) (hok : step state = .ok value state') :
    post value state' := by simpa [Ensures, hok] using h

theorem of_error {step : EStateM Fault σ α} {post : α → σ → Prop} {fault : Fault} {state' : σ}
    (h : Ensures step state refusal post) (herror : step state = .error fault state') :
    refusal fault state' := by simpa [Ensures, herror] using h

/-- Whatever a step does, it ends or is refused. -/
theorem any (step : EStateM Fault σ α) (state : σ) :
    Ensures step state Fault.Any fun _ _ => True := by
  unfold Ensures
  split <;> trivial

/-- A step that is never refused has a result. -/
theorem exists_ok {step : EStateM Fault σ α} {post : α → σ → Prop}
    (h : Ensures step state Fault.Never post) :
    ∃ value state', step state = .ok value state' ∧ post value state' := by
  unfold Ensures at h
  split at h
  · exact ⟨_, _, by assumption, h⟩
  · exact h.elim

/-- A step that has no result is refused. -/
theorem exists_error {step : EStateM Fault σ α}
    (h : Ensures step state refusal fun _ _ => False) :
    ∃ fault state', step state = .error fault state' ∧ refusal fault state' := by
  unfold Ensures at h
  split at h
  · exact h.elim
  · exact ⟨_, _, by assumption, h⟩

@[simp] theorem pure_iff {post : α → σ → Prop} (value : α) :
    Ensures (pure value) state refusal post ↔ post value state := Iff.rfl

@[simp] theorem bind_iff {post : β → σ → Prop} (step : EStateM Fault σ α)
    (next : α → EStateM Fault σ β) :
    Ensures (step >>= next) state refusal post ↔
      Ensures step state refusal fun value state => Ensures (next value) state refusal post := by
  simp only [Ensures, bind, EStateM.bind]
  cases step state <;> rfl

@[simp] theorem map_iff {post : β → σ → Prop} (step : EStateM Fault σ α) (f : α → β) :
    Ensures (f <$> step) state refusal post ↔
      Ensures step state refusal fun value state => post (f value) state := by
  simp only [Ensures, Functor.map, EStateM.map]
  cases step state <;> rfl

@[simp] theorem get_iff {post : σ → σ → Prop} :
    Ensures get state refusal post ↔ post state state := Iff.rfl

@[simp] theorem set_iff {post : PUnit → σ → Prop} (next : σ) :
    Ensures (set next) state refusal post ↔ post ⟨⟩ next := Iff.rfl

@[simp] theorem modify_iff {post : PUnit → σ → Prop} (change : σ → σ) :
    Ensures (modify change) state refusal post ↔ post ⟨⟩ (change state) := Iff.rfl

@[simp] theorem modifyGet_iff {post : α → σ → Prop} (change : σ → α × σ) :
    Ensures (modifyGet change) state refusal post ↔ post (change state).1 (change state).2 :=
  Iff.rfl

@[simp] theorem throw_iff {post : α → σ → Prop} (fault : Fault) :
    Ensures (throw fault) state refusal post ↔ refusal fault state := Iff.rfl

@[simp] theorem ite_iff {post : α → σ → Prop} (c : Prop) [Decidable c]
    (yes no : EStateM Fault σ α) :
    Ensures (if c then yes else no) state refusal post ↔
      (c → Ensures yes state refusal post) ∧ (¬c → Ensures no state refusal post) := by
  by_cases h : c <;> simp [h]

end Ensures

/-- A step that asks for the state goes on with it. -/
theorem get_bind_apply {σ α : Type} (next : σ → EStateM Fault σ α) (state : σ) :
    (get >>= next) state = next state state := rfl

/-! ## Steps in any order -/

section Behind

variable {σ α : Type} {state : σ} {P : σ → Prop}

/-- The state behind a step, which may be refused. -/
def behind (step : EStateM Fault σ α) (state : σ) : σ :=
  match step state with
  | .ok _ state | .error _ state => state

/-- The state behind some steps. One that is refused does not end the list. -/
def behindAll (steps : List (EStateM Fault σ α)) (state : σ) : σ :=
  steps.foldl (fun state step => behind step state) state

@[simp] theorem behindAll_nil : behindAll ([] : List (EStateM Fault σ α)) state = state := rfl

@[simp] theorem behindAll_cons (step : EStateM Fault σ α) (steps : List (EStateM Fault σ α)) :
    behindAll (step :: steps) state = behindAll steps (behind step state) := rfl

@[simp] theorem behindAll_append (steps more : List (EStateM Fault σ α)) :
    behindAll (steps ++ more) state = behindAll more (behindAll steps state) := List.foldl_append

theorem Ensures.behind {step : EStateM Fault σ α}
    (h : Ensures step state (fun _ => P) fun _ => P) : P (behind step state) := by
  unfold Ensures at h
  unfold MiniC.behind
  split <;> simp_all

/-- What every step keeps holds behind all of them. -/
theorem behindAll_induction {steps : List (EStateM Fault σ α)} (h : P state)
    (hstep : ∀ step ∈ steps, ∀ state, P state → P (behind step state)) : P (behindAll steps state) := by
  induction steps generalizing state with
  | nil => exact h
  | cons step steps ih =>
    rw [behindAll_cons]
    exact ih (hstep step List.mem_cons_self state h) fun step hmem =>
      hstep step (List.mem_cons_of_mem _ hmem)

end Behind

namespace Parse

variable {parser : Parser} {refusal : Fault → Parser → Prop}

@[simp] theorem ensures_build {α : Type} {post : α → Parser → Prop} (step : Build α) :
    Ensures (build step) parser refusal post ↔
      Ensures step parser.builder (fun fault builder => refusal fault { parser with builder })
        fun value builder => post value { parser with builder } := by
  simp only [Ensures, build]
  cases step parser.builder <;> rfl

end Parse

namespace Resolve

variable {state : Resolution} {refusal : Fault → Resolution → Prop}

@[simp] theorem ensures_forest {post : Forest → Resolution → Prop} :
    Ensures forest state refusal post ↔ post state.forest state := Iff.rfl

@[simp] theorem ensures_table {post : SymbolTable → Resolution → Prop} :
    Ensures table state refusal post ↔ post state.table state := Iff.rfl

@[simp] theorem ensures_onForest {post : Unit → Resolution → Prop} (change : Forest → Forest) :
    Ensures (onForest change) state refusal post ↔
      post () { state with forest := change state.forest } := Iff.rfl

@[simp] theorem ensures_onTable {post : Unit → Resolution → Prop}
    (change : SymbolTable → SymbolTable) :
    Ensures (onTable change) state refusal post ↔
      post () { state with table := change state.table } := Iff.rfl

@[simp] theorem ensures_refuse {α : Type} {post : α → Resolution → Prop} (cause : Cause)
    (line : Nat) : Ensures (refuse cause line) state refusal post ↔
    refusal ⟨cause, line⟩ state := Iff.rfl

@[simp] theorem ensures_malformed {α : Type} {post : α → Resolution → Prop} (message : String)
    (line : Nat) :
    Ensures (malformed message line) state refusal post ↔
      refusal (.malformed message line) state := Iff.rfl

/-- The resolution with a note on a node of where it is. -/
def annotated (state : Resolution) (id : NodeId) : Resolution :=
  { state with forest := state.forest.update id fun node =>
    { node with scope := state.table.depth, function := state.forest.owningFunction id } }

@[simp] theorem ensures_annotate {post : Unit → Resolution → Prop} (id : NodeId) :
    Ensures (annotate id) state refusal post ↔ post () (annotated state id) := Iff.rfl

theorem ensures_child {post : NodeId → Resolution → Prop} {id child : NodeId} {slot : Nat}
    (h : state.forest.child? id slot = some child) :
    Ensures (Resolve.child id slot) state refusal post ↔ post child state := by
  simp [Resolve.child, h]

theorem ensures_typeOf {post : Ty → Resolution → Prop} {id : NodeId} {type : Ty}
    (h : state.forest.type? id = some type) :
    Ensures (typeOf id) state refusal post ↔ post type state := by simp [typeOf, h]

theorem ensures_writtenType {post : Ty → Resolution → Prop} {id written : NodeId} {slot : Nat}
    {type : Ty} (h : state.forest.child? id slot = some written)
    (ht : state.forest.typeOf? written = some type) :
    Ensures (writtenType id slot) state refusal post ↔ post type state := by
  simp [writtenType, Resolve.child, h, ht]

@[simp] theorem ensures_jumpLabel {post : Machine.Label → Resolution → Prop} :
    Ensures jumpLabel state refusal post ↔
      post (.jump state.session.drawn)
        { state with session := { state.session with drawn := state.session.drawn + 1 } } := Iff.rfl

@[simp] theorem ensures_functionLabel {post : Machine.Label → Resolution → Prop} (name : String) :
    Ensures (functionLabel name) state refusal post ↔
      post (.function name state.session.drawn)
        { state with session := { state.session with drawn := state.session.drawn + 1 } } := Iff.rfl

end Resolve

namespace Emit

variable {output : Output} {refusal : Fault → Output → Prop}

theorem ensures_ask {α : Type} {post : α → Output → Prop} {answer : Except Fault α} {value : α}
    (h : answer = .ok value) :
    Ensures (ask answer) output refusal post ↔ post value output := by simp [ask, h]

end Emit

end MiniC
