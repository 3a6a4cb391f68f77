import MiniC.Proofs.Alike.Relation

/-!
# Steps that go along

Two steps track each other if they go along from all states alike: both end, in states alike and with
results alike, or both are refused, with faults alike. `Agree` says the same of answers without a state.
Rules for sequences and choices carry this from the parts of a step to the whole of it.
-/

namespace MiniC.Likeness

variable {L : Likeness} {σ α α' β β' : Type}

variable (L) in
/-- Both are answers, and alike, or both are faults, and alike. -/
inductive Agree (V : α → α' → Prop) : Except Fault α → Except Fault α' → Prop
  | ok {value : α} {value' : α'} (h : V value value') : Agree V (.ok value) (.ok value')
  | error {fault fault' : Fault} (h : L.SameFault fault fault') : Agree V (.error fault) (.error fault')

variable (L) in
/-- Both have ended, in states alike with results alike, or both have been refused with faults alike. -/
inductive SameResult (S : σ → σ → Prop) (V : α → α' → Prop) :
    EStateM.Result Fault σ α → EStateM.Result Fault σ α' → Prop
  | ok {value : α} {value' : α'} {state state' : σ} (h : V value value') (hstate : S state state') :
      SameResult S V (.ok value state) (.ok value' state')
  | error {fault fault' : Fault} {state state' : σ} (h : L.SameFault fault fault') :
      SameResult S V (.error fault state) (.error fault' state')

variable (L) in
/-- From states alike, both steps have results alike. -/
def Tracks (S : σ → σ → Prop) (V : α → α' → Prop) (step : EStateM Fault σ α)
    (step' : EStateM Fault σ α') : Prop :=
  ∀ ⦃state state'⦄, S state state' → L.SameResult S V (step state) (step' state')

/-- A fault that is not about a token, whatever its lines. -/
theorem SameFault.malformed {message message' : String} {line line' : Nat} :
    L.SameFault (.malformed message line) (.malformed message' line') :=
  ⟨rfl, nofun, nofun⟩

theorem SameFault.of_line {cause cause' : Cause} {line line' : Nat} (h : cause.Alike cause')
    (hline : L.line line line') : L.SameFault ⟨cause, line⟩ ⟨cause', line'⟩ := by
  refine ⟨h.name, fun _ => hline, ?_⟩
  rintro rfl
  cases h.token

namespace Agree

variable {V : α → α' → Prop} {W : β → β' → Prop}

theorem bind {answer : Except Fault α} {answer' : Except Fault α'} {next : α → Except Fault β}
    {next' : α' → Except Fault β'} (h : L.Agree V answer answer')
    (hnext : ∀ value value', V value value' → L.Agree W (next value) (next' value')) :
    L.Agree W (answer >>= next) (answer' >>= next') := by
  cases h with
  | ok h => exact hnext _ _ h
  | error h => exact .error h

theorem malformed {message message' : String} {line line' : Nat} :
    L.Agree V (.error (.malformed message line)) (.error (.malformed message' line')) :=
  .error .malformed

theorem of_line {cause cause' : Cause} {line line' : Nat} (h : cause.Alike cause')
    (hline : L.line line line') : L.Agree V (.error ⟨cause, line⟩) (.error ⟨cause', line'⟩) :=
  .error (.of_line h hline)

end Agree

theorem SameResult.of_ok {S : σ → σ → Prop} {V : α → α' → Prop} {value : α} {value' : α'}
    {state state' : σ} (h : L.SameResult S V (.ok value state) (.ok value' state')) : S state state' := by
  cases h with
  | ok _ hstate => exact hstate

/-- A step from one state alike, and what goes along behind it. -/
theorem SameResult.bind {S : σ → σ → Prop} {V : α → α' → Prop} {W : β → β' → Prop}
    {step : EStateM Fault σ α} {step' : EStateM Fault σ α'} {next : α → EStateM Fault σ β}
    {next' : α' → EStateM Fault σ β'} {state state' : σ}
    (h : L.SameResult S V (step state) (step' state'))
    (hnext : ∀ value value', V value value' → L.Tracks S W (next value) (next' value')) :
    L.SameResult S W ((step >>= next) state) ((step' >>= next') state') := by
  simp only [Bind.bind, EStateM.bind]
  generalize step state = result, step' state' = result' at h ⊢
  cases h with
  | ok h hstate => exact hnext _ _ h hstate
  | error h => exact .error h

namespace Tracks

variable {S : σ → σ → Prop} {V : α → α' → Prop} {W : β → β' → Prop}

theorem pure {value : α} {value' : α'} (h : V value value') :
    L.Tracks S V (pure value) (pure value') := fun _ _ hS => .ok h hS

theorem throw {fault fault' : Fault} (h : L.SameFault fault fault') :
    L.Tracks S V (throw fault) (throw fault') := fun _ _ _ => .error h

theorem get : L.Tracks S S get get := fun _ _ hS => .ok hS hS

theorem modify {change change' : σ → σ}
    (h : ∀ state state', S state state' → S (change state) (change' state')) :
    L.Tracks S Eq (modify change : EStateM Fault σ PUnit) (modify change') :=
  fun _ _ hS => .ok rfl (h _ _ hS)

/-- One step after another. -/
theorem bind {step : EStateM Fault σ α} {step' : EStateM Fault σ α'} {next : α → EStateM Fault σ β}
    {next' : α' → EStateM Fault σ β'} (h : L.Tracks S V step step')
    (hnext : ∀ value value', V value value' → L.Tracks S W (next value) (next' value')) :
    L.Tracks S W (step >>= next) (step' >>= next') := fun _ _ hS => (h hS).bind hnext

/-- One step after another, if the first has the same result both times. -/
theorem next {step step' : EStateM Fault σ α} {next : α → EStateM Fault σ β}
    {next' : α → EStateM Fault σ β'} (h : L.Tracks S Eq step step')
    (hnext : ∀ value, L.Tracks S W (next value) (next' value)) :
    L.Tracks S W (step >>= next) (step' >>= next') := by
  refine h.bind fun value value' heq => ?_
  subst heq
  exact hnext value

theorem ite {c : Prop} [Decidable c] {yes no : EStateM Fault σ α} {yes' no' : EStateM Fault σ α'}
    (hyes : c → L.Tracks S V yes yes') (hno : ¬c → L.Tracks S V no no') :
    L.Tracks S V (if c then yes else no) (if c then yes' else no') := by
  split
  · exact hyes ‹_›
  · exact hno ‹_›

/-- A step on one condition, and then what comes after. -/
theorem when {c : Prop} [Decidable c] {step : EStateM Fault σ α} {step' : EStateM Fault σ α'}
    {next : EStateM Fault σ β} {next' : EStateM Fault σ β'} (h : c → L.Tracks S V step step')
    (hnext : L.Tracks S W next next') :
    L.Tracks S W (if c then step >>= fun _ => next else next)
      (if c then step' >>= fun _ => next' else next') :=
  ite (fun hc => (h hc).bind fun _ _ _ => hnext) fun _ => hnext

end Tracks

variable (L) in
/-- Steps of construction that go along. -/
abbrev Builds (V : α → α' → Prop) : Build α → Build α' → Prop := L.Tracks L.SameBuilder V

variable (L) in
/-- Steps of parsing that go along. -/
abbrev Parses (V : α → α' → Prop) : Parse α → Parse α' → Prop := L.Tracks L.SameParser V

variable (L) in
/-- Steps of resolution that go along. -/
abbrev Resolves (known : Set NodeId) (V : α → α' → Prop) : Resolve α → Resolve α' → Prop :=
  L.Tracks (L.SameResolution known) V

variable (L) in
/-- The same names, with any lines. -/
def anywhere : Likeness := { L with line := fun _ _ => True }

theorem SameFault.anywhere {fault fault' : Fault} (h : L.SameFault fault fault') :
    L.anywhere.SameFault fault fault' := ⟨h.name, fun _ => trivial, h.start⟩

theorem SameFault.of_name {cause cause' : Cause} {line line' : Nat} (h : cause.Alike cause') :
    L.anywhere.SameFault ⟨cause, line⟩ ⟨cause', line'⟩ := .of_line h trivial

theorem Agree.anywhere {V : α → α' → Prop} {answer : Except Fault α} {answer' : Except Fault α'}
    (h : L.Agree V answer answer') : L.anywhere.Agree V answer answer' := by
  cases h with
  | ok h => exact .ok h
  | error h => exact .error h.anywhere

variable (L) in
/-- Steps of making code that go along. Their lines are compared in warnings only: a program that has
been resolved is not refused any more when its code is made. -/
abbrev Emits (V : α → α' → Prop) : Emit α → Emit α' → Prop := L.anywhere.Tracks L.SameOutput V

end MiniC.Likeness
