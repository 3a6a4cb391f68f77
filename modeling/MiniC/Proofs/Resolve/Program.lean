import MiniC.Proofs.Resolve.Function

/-!
# Resolving programs

Resolving a statement of a parsed forest ends with an ordinary fault, or settles the statement and all
below it. Levels never run out, because every child comes before its parent.

Resolving a parsed program ends with an ordinary fault, or with a program that is `Resolved`: its
expressions are judged, its statements settled, its symbols declared, and every function that is
called has a body or is a routine of the library.
-/

namespace MiniC

open Forest

namespace Resolve

/-! ## Statements -/

open Ensures

variable {parsed : Forest} {state : Resolution} {n : NodeId}

theorem settles_statementWithin (hraw : parsed.Raw) (levels : Nat) :
    Settles parsed (statementWithin levels) levels := by
  induction levels with
  | zero =>
    intro state n hlt
    exact absurd hlt (Nat.not_lt_zero n)
  | succ levels ih =>
    intro state n hlt h
    obtain ⟨hentered, hn⟩ := h.entered hraw
    have hlevels : n ≤ levels := Nat.le_of_lt_succ hlt
    have hafter : ∀ {state'}, Advanced parsed (annotated state n) state' n →
        Advanced parsed state state' n := fun ha => ha.after (.of_noted hn) (.of_eq rfl rfl) rfl
    simp only [statementWithin, bind_iff, ensures_annotate, ensures_forest, hentered.kind_eq]
    have hrole := h.role
    split
    · next hkind => exact (ensures_declaration hraw hentered hkind).imp fun _ _ => hafter
    · next hkind => exact (ensures_function hraw ih hlevels hentered hkind).imp fun _ _ => hafter
    · next hkind => exact (ensures_block hraw ih hlevels hentered hkind).imp fun _ _ => hafter
    · next hkind => exact (ensures_exprStatement hraw hentered hkind).imp fun _ _ => hafter
    · next hkind => exact (ensures_ifElse hraw ih hlevels hentered hkind).imp fun _ _ => hafter
    · next hkind => exact (ensures_whileLoop hraw ih hlevels hentered hkind).imp fun _ _ => hafter
    · next hkind => exact (ensures_forLoop hraw ih hlevels hentered hkind).imp fun _ _ => hafter
    · next hkind => exact (ensures_giveBack hraw hentered hkind).imp fun _ _ => hafter
    · next hkind => exact (ensures_jump hraw hentered true hkind).imp fun _ _ => hafter
    · next hkind => exact (ensures_jump hraw hentered false hkind).imp fun _ _ => hafter
    · next hkind => exact hafter (advanced_nothing hraw hentered hkind)
    · rw [role] at hrole
      cases hk : parsed.kind n with
      | type part => cases hform : part.form <;> simp [hk, Kind.role, hform, Role.IsStatement] at hrole
      | _ => simp_all [Kind.role, Role.IsStatement]

/-- A statement is resolved, or refused with an ordinary fault. -/
theorem ensures_statement (hraw : parsed.Raw) (h : Due parsed state n) :
    Ensures (statement n) state (Refused parsed) fun _ state' => Advanced parsed state state' n := by
  have hlt : n < state.forest.size + 1 :=
    Nat.lt_succ_of_lt (Nat.lt_of_lt_of_le h.lt_size h.consistent.grown.size_le)
  simp only [statement, bind_iff, ensures_forest]
  exact settles_statementWithin hraw _ hlt h

end Resolve

/-! ## Programs -/

variable {parsed forest : Forest} {table table' : SymbolTable} {symbol : Symbol} {root : NodeId}
  {drawn : Nat}

/-- A resolved program. -/
structure Resolved (parsed : Forest) (root : NodeId) (resolution : Resolution) : Prop where
  inside : Inside parsed parsed resolution.forest root
  grown : Grown parsed resolution.forest
  typed : Typed parsed resolution.table resolution.forest
  labelled : Labelled resolution.forest resolution.session.drawn
  declared : Declared parsed resolution.forest resolution.table resolution.session.drawn
  settled : ∀ m, parsed.Below m root → (parsed.role m).IsStatement →
    Settled parsed resolution.table resolution.forest m
  called : ∀ id name s, resolution.forest.kind id = .call name (some s) →
    ∀ signature, (resolution.table.symbol s).signature? = some signature → signature.defined = true
  file : ∀ name s, resolution.table.lookupFile name = some s →
    s < resolution.table.size ∧ (resolution.table.symbol s).name = name ∧
      (resolution.table.symbol s).frame = none

/-- Nothing has been declared before a program is resolved. -/
theorem Consistent.of_parsed (hraw : parsed.Raw) (session : Session) (htable : table.size = 0) :
    Consistent parsed { forest := parsed, session, table } := by
  have hsymbol : ∀ id s, (parsed.kind id).symbol? ≠ some s := by
    intro id s hs
    have hfresh := (hraw.fresh id).kind
    cases hkind : (parsed.node id).kind <;> simp_all [kind, Kind.Fresh, Kind.symbol?]
  have hlabels : ∀ id, (parsed.kind id).ownLabels = [] := by
    intro id
    have hfresh := (hraw.fresh id).kind
    cases hkind : (parsed.node id).kind <;> simp_all [kind, Kind.Fresh, Kind.ownLabels]
  have hno : ∀ {id}, ¬id < table.size := fun hid => by simp [htable] at hid
  refine ⟨.of_parsed hraw, ?_, ⟨?_, ?_, ?_⟩, ⟨?_, ?_, ?_, ?_, ?_, ?_, ?_⟩, ?_⟩
  · intro id type _ htype
    rw [type?, (hraw.fresh id).type] at htype
    cases htype
  · intro id label hlabel
    rw [hlabels] at hlabel
    cases hlabel
  · intro id
    rw [hlabels]
    exact List.nodup_nil
  · intro id id' label hlabel
    rw [hlabels] at hlabel
    cases hlabel
  · exact fun id hid => absurd hid hno
  · exact fun id hid => absurd hid hno
  · exact fun d id _ hs => absurd hs (hsymbol d id)
  · exact fun f id _ hs => absurd hs (hsymbol f id)
  · exact fun f id _ hs => absurd hs (hsymbol f id)
  · exact fun f _ id _ _ hs => absurd hs (hsymbol f id)
  · exact fun id _ _ _ _ _ _ hid => absurd hid hno
  · intro id name s hkind
    exact absurd (by rw [hkind]; rfl) (hsymbol id s)

/-- A symbol that no node is bound to may be added if it is a function that is right. -/
theorem Declared.routine {signature : Signature} (h : Declared parsed forest table drawn)
    (hp : table.Pushed table' symbol) (hs : symbol.signature? = some signature)
    (hrule : FunctionRule forest drawn table.size symbol signature)
    (hlabel : ∀ name number, signature.label ≠ .function name number) :
    Declared parsed forest table' drawn := by
  refine ⟨?_, ?_, ?_, ?_, ?_, h.body_unique, ?_⟩
  · intro id hid d hd
    rcases hp.lt_or_eq hid with hlt | rfl
    · rw [hp.symbol_old hlt] at hd ⊢
      exact h.variableAt id hlt d hd
    · rw [hp.symbol_new] at hd
      rw [Symbol.signature?_of_variableAt hd] at hs
      cases hs
  · intro id hid signature' hsignature
    rcases hp.lt_or_eq hid with hlt | rfl
    · rw [hp.symbol_old hlt] at hsignature ⊢
      exact h.function id hlt signature' hsignature
    · rw [hp.symbol_new] at hsignature ⊢
      rw [hs, Option.some.injEq] at hsignature
      exact hsignature ▸ hrule
  · intro d id hrole hsymbol
    obtain ⟨hlt, hkind⟩ := h.bound_variable d id hrole hsymbol
    exact ⟨Nat.lt_of_lt_of_le hlt hp.grew.size_le, hp.symbol_old hlt ▸ hkind⟩
  · intro f id hrole hsymbol
    obtain ⟨hlt, hfunction⟩ := h.bound_function f id hrole hsymbol
    exact ⟨Nat.lt_of_lt_of_le hlt hp.grew.size_le, hp.symbol_old hlt ▸ hfunction⟩
  · intro f id hrole hsymbol
    rw [hp.symbol_old (h.bound_function f id hrole hsymbol).1]
    exact h.bound_frame f id hrole hsymbol
  · intro id id' s s' name name' number hid hid' hs₁ hs₂ hlabel₁ hlabel₂
    rcases hp.lt_or_eq hid with hlt | rfl
    · rcases hp.lt_or_eq hid' with hlt' | rfl
      · rw [hp.symbol_old hlt] at hs₁
        rw [hp.symbol_old hlt'] at hs₂
        exact h.label_unique id id' s s' name name' number hlt hlt' hs₁ hs₂ hlabel₁ hlabel₂
      · rw [hp.symbol_new, hs, Option.some.injEq] at hs₂
        exact absurd (hs₂ ▸ hlabel₂) (hlabel name' number)
    · rw [hp.symbol_new, hs, Option.some.injEq] at hs₁
      exact absurd (hs₁ ▸ hlabel₁) (hlabel name number)

/-- The types in the signatures of the library are those of values. -/
theorem Machine.Routine.flat_of_mem {routine : Machine.Routine} (h : routine ∈ catalog) :
    routine.result.Flat ∧ ∀ param ∈ routine.params, param.Flat ∧ param.isVoid = false := by
  have hall : ∀ routine ∈ catalog,
      routine.result.Flat ∧ ∀ param ∈ routine.params, param.Flat ∧ param.isVoid = false := by
    simp [catalog, Ty.Flat, Ty.isVoid, Ty.kind]
  exact hall routine h

/-- No function is around the root. -/
theorem Forest.Parsed.owningFunction_root (h : parsed.Parsed root) :
    parsed.owningFunction root = none := by
  cases hf : parsed.owningFunction root with
  | none => rfl
  | some f =>
    have hlt := (lt_of_owningFunction h.raw.linked h.raw.rising hf).1
    obtain ⟨p, hparent, -⟩ :=
      (below_of_owningFunction h.raw.linked hf).1.exists_parent h.raw.linked (Nat.ne_of_lt hlt)
    rw [h.parent_root] at hparent
    cases hparent

theorem Forest.Parsed.enclosingLoop_root (h : parsed.Parsed root) :
    parsed.enclosingLoop root = none := by
  cases hl : parsed.enclosingLoop root with
  | none => rfl
  | some l =>
    have hlt := (lt_of_enclosingLoop h.raw.linked h.raw.rising hl).1
    obtain ⟨p, hparent, -⟩ :=
      (below_of_enclosingLoop h.raw.linked hl).1.exists_parent h.raw.linked (Nat.ne_of_lt hlt)
    rw [h.parent_root] at hparent
    cases hparent

/-- Code of the file reaches the frame of the file only. -/
theorem Forest.Chain.eq_none {target : Option NodeId} (h : parsed.Chain none target) :
    target = none := by
  cases h with
  | refl => rfl

namespace Resolve

open Ensures

variable {state start state' : Resolution}

/-- Declaring routines of the library keeps a resolution consistent. -/
theorem ensures_declareRoutines {routines : List Machine.Routine} {scope : Scope}
    (hconsistent : Consistent parsed state) (hscopes : state.table.scopes = [scope])
    (hvisible : Visible parsed state.table none)
    (hroutines : ∀ routine ∈ routines, routine ∈ Machine.Routine.catalog) :
    Ensures (declareRoutines routines) state (Refused parsed) fun _ state' =>
      ∃ table scope', state' = { state with table } ∧ state.table.Grew table ∧
        table.scopes = [scope'] ∧ Consistent parsed state' ∧ Visible parsed table none := by
  induction routines generalizing state scope with
  | nil => exact ⟨state.table, scope, rfl, .refl, hscopes, hconsistent, hvisible⟩
  | cons routine routines ih =>
    have hmem := hroutines routine List.mem_cons_self
    obtain ⟨hresult, hparams⟩ := Machine.Routine.flat_of_mem hmem
    simp only [declareRoutines, bind_iff]
    refine Ensures.imp (ensures_declare hscopes) ?_
    rintro _ _ ⟨rfl, table, rfl, hpushed, hscopes'⟩
    have hdeclared := hconsistent.declared.routine hpushed rfl
      ⟨hresult, hparams, .inl ⟨rfl, rfl, rfl, routine, hmem, rfl, rfl, rfl, rfl, rfl⟩⟩ (by simp)
    have hconsistent' : Consistent parsed { state with table } :=
      ⟨hconsistent.grown, hconsistent.typed.grew hpushed.grew, hconsistent.labelled, hdeclared,
        hconsistent.called.grew hpushed.grew⟩
    refine Ensures.imp (ih hconsistent' hscopes'
      (hvisible.declared hscopes hpushed hscopes' rfl)
      fun other hother => hroutines other (List.mem_cons_of_mem _ hother)) ?_
    rintro _ _ ⟨table', scope', rfl, hgrew, hrest⟩
    exact ⟨table', scope', rfl, hpushed.grew.trans hgrew, hrest⟩

/-- No function that is pending is left without a body. -/
theorem ensures_checkPending (parsed : Forest) (table : SymbolTable)
    (pending : List (SymbolId × Nat)) :
    Ensures (checkPending table pending) state (Refused parsed) fun _ state' =>
      state' = state ∧ ∀ entry ∈ pending, ∀ signature,
        (table.symbol entry.1).signature? = some signature → signature.defined = true := by
  induction pending with
  | nil => exact ⟨rfl, (by simp)⟩
  | cons entry pending ih =>
    obtain ⟨s, line⟩ := entry
    simp only [checkPending, bind_iff, ite_iff, ensures_refuse]
    refine ⟨fun _ => Refused.of_plain rfl, fun hdefined => ih.imp ?_⟩
    rintro _ _ ⟨rfl, hpending⟩
    refine ⟨rfl, List.forall_mem_cons.mpr ⟨fun signature hs => ?_, hpending⟩⟩
    simpa [hs] using hdefined

/-- What holds once the routines of the library have been declared. -/
theorem walked_root (hparsed : parsed.Parsed root) (hconsistent : Consistent parsed state)
    (hready : Ready parsed state.forest root) {table : SymbolTable} {scope : Scope}
    (hconsistent' : Consistent parsed { annotated state root with table })
    (hscopes : table.scopes = [scope]) (hvisible : Visible parsed table none) :
    Walked parsed { annotated state root with table } { annotated state root with table } root []
      (parsed.children root) := by
  have hraw := hparsed.raw
  have hfunction : (parsed.kind root).isFunction = false ∧ (parsed.kind root).isLoop = false := by
    rw [hparsed.kind_root]
    exact ⟨rfl, rfl⟩
  obtain ⟨-, hn, -⟩ := hconsistent.annotated hraw hparsed.lt_size hready
  refine .of_ready hconsistent' hparsed.lt_size ?_ hfunction.1 ?_ ?_ ?_ fun c hc => ⟨?_, ?_⟩
  · rw [hparsed.role_root]
    simp
  · exact (hn.children root).trans hready.children_eq
  · rw [hscopes]
    exact List.cons_ne_nil _ _
  · rw [hparsed.owningFunction_root]
    exact hvisible
  · exact (hready.part hraw hc).noted hraw hn hc
  · refine Surrounded.child ⟨fun f hf => ?_, fun l hl => ?_⟩ hraw hc hfunction.1 fun he => ?_
    · rw [hparsed.owningFunction_root] at hf
      cases hf
    · rw [hparsed.enclosingLoop_root] at hl
      cases hl
    · rw [hfunction.2] at he
      cases he

/-- The names of the file are left when its scope is closed. -/
theorem lookupFile_leave {scope : Scope} {name : String} {s : SymbolId}
    (hscopes : table.scopes = [scope]) (h : table.leave.lookupFile name = some s) :
    (name, s) ∈ scope := by
  have hleave : table.leave = { table with scopes := [], fileScope := some scope } := by
    rw [SymbolTable.leave, hscopes]
  rw [hleave, SymbolTable.lookupFile] at h
  obtain ⟨before, after, rfl, -⟩ := List.lookup_eq_some_iff.mp h
  exact List.mem_append_right _ List.mem_cons_self

/-- The scope of the file is filled with the routines of the library. -/
theorem ensures_catalog (hconsistent : Consistent parsed state) {scope : Scope}
    (hscopes : state.table.scopes = [scope]) (hvisible : Visible parsed state.table none) :
    Ensures (declareRoutines Machine.Routine.catalog) state (Refused parsed) fun _ state' =>
      ∃ table scope', state' = { state with table } ∧ table.scopes = [scope'] ∧
        Consistent parsed state' ∧ Visible parsed table none := by
  refine (ensures_declareRoutines hconsistent hscopes hvisible fun _ hmem => hmem).imp ?_
  rintro _ _ ⟨table, scope', rfl, -, hrest⟩
  exact ⟨table, scope', rfl, hrest⟩

/-- The steps within the scope of the file. -/
theorem ensures_declarations (hparsed : parsed.Parsed root) (hconsistent : Consistent parsed state)
    (hready : Ready parsed state.forest root) (hscopes : state.table.scopes = [[]]) :
    Ensures (do
        annotate root
        declareRoutines Machine.Routine.catalog
        each ((← Resolve.forest).children root) statement) state (Refused parsed) fun _ state' =>
      Inside parsed state.forest state'.forest root ∧
        ∃ scope, state'.table.scopes = [scope] ∧ Consistent parsed state' ∧
        Visible parsed state'.table none ∧ state'.session.warnings = state.session.warnings ∧
        ∀ m, parsed.Below m root → (parsed.role m).IsStatement →
          Settled parsed state'.table state'.forest m := by
  have hraw := hparsed.raw
  have hsettles : Settles parsed statement parsed.size := fun _ hdue => ensures_statement hraw hdue
  have hstatements : ∀ c ∈ parsed.children root, (parsed.role c).IsStatement := by
    intro c hc
    have hholds := hraw.shaped root
    rw [hparsed.kind_root] at hholds
    rcases hholds _ (List.mem_map_of_mem hc) with hrole | hrole <;> rw [hrole] <;> trivial
  obtain ⟨hnoted, hn, -⟩ := hconsistent.annotated hraw hparsed.lt_size hready
  have hempty : Visible parsed state.table none := by
    refine ⟨fun scope hscope entry hentry => ?_, fun scope hscope entry hentry => ?_⟩
    · rw [hscopes, List.mem_singleton] at hscope
      rw [hscope] at hentry
      cases hentry
    · rw [hscopes, List.head?_cons, Option.some.injEq] at hscope
      rw [← hscope] at hentry
      cases hentry
  simp only [bind_iff, ensures_annotate, ensures_forest]
  refine Ensures.imp (ensures_catalog hnoted hscopes hempty) ?_
  rintro _ _ ⟨table, scope, rfl, hscopes', hconsistent', hvisible⟩
  have hw := walked_root hparsed hconsistent hready hconsistent' hscopes' hvisible
  simp only [(hn.children root).trans hready.children_eq]
  refine (ensures_each hraw hsettles hw hstatements fun c hc => hraw.linked.lt_size hc).imp ?_
  intro _ state' hw'
  obtain ⟨scope', others, hscope⟩ := List.exists_cons_of_ne_nil hw'.scopes
  have houter := hw'.outer
  simp only [hscope, hscopes', List.tail_cons] at houter
  rw [houter] at hscope
  refine ⟨.trans (.of_noted hn) hw'.inside, scope', hscope, hw'.consistent, hparsed.owningFunction_root ▸ hw'.visible,
    hw'.later.warnings_eq, fun m hm hrole => ?_⟩
  have hne : m ≠ root := by
    rintro rfl
    rw [hparsed.role_root] at hrole
    exact hrole
  rcases hw'.settled m hm hne hrole with ⟨d, hd, -⟩ | hsettled
  · cases hd
  · exact hsettled

/-- A file whose declarations have been resolved is resolved if no call is left pending. -/
theorem resolved_of_checked {scope : Scope} (hinside : Inside parsed parsed state.forest root)
    (hscopes : state.table.scopes = [scope])
    (hconsistent : Consistent parsed state) (hvisible : Visible parsed state.table none)
    (hsettled : ∀ m, parsed.Below m root → (parsed.role m).IsStatement →
      Settled parsed state.table state.forest m)
    (hpending : ∀ entry ∈ state.pending, ∀ signature,
      (state.table.symbol entry.1).signature? = some signature → signature.defined = true) :
    Resolved parsed root { state with table := state.table.leave, pending := [] } := by
  have hleave : state.table.leave.symbols = state.table.symbols := by
    rw [SymbolTable.leave, hscopes]
  have hsymbol : ∀ s, state.table.leave.symbol s = state.table.symbol s := fun s => by
    rw [SymbolTable.symbol, hleave, SymbolTable.symbol]
  have hcalled : ∀ id name s, state.forest.kind id = .call name (some s) →
      ∀ signature, (state.table.symbol s).signature? = some signature →
        signature.defined = true := by
    intro id name s hkind signature hs
    rcases hconsistent.called id name s hkind with hdefined | ⟨line, hmem⟩
    · simpa [hs] using hdefined
    · exact hpending (s, line) hmem signature hs
  have hconsistent' := hconsistent.of_symbols hleave
  refine ⟨hinside, hconsistent'.grown, hconsistent'.typed, hconsistent'.labelled, hconsistent'.declared,
    ?_, ?_, ?_⟩
  · exact fun m hm hrole => (hsettled m hm hrole).grew (.of_symbols hleave)
  · intro id name s hkind signature hs
    exact hcalled id name s hkind signature (hsymbol s ▸ hs)
  · intro name s hlookup
    obtain ⟨hreached, hname⟩ := hvisible.reached scope (hscopes ▸ List.mem_cons_self) (name, s)
      (lookupFile_leave hscopes hlookup)
    rw [hsymbol, SymbolTable.size_leave]
    refine ⟨hreached.lt_size, hname, ?_⟩
    exact hreached.chain.eq_none

-- The routines do not matter any more, and looking into their code takes long.
seal Machine.Routine.catalog

/-- A file is resolved, or refused with an ordinary fault. -/
theorem ensures_file (hparsed : parsed.Parsed root) (session : Session) :
    Ensures (file root) { forest := parsed, session } (Refused parsed) fun _ state' =>
      Resolved parsed root state' ∧ state'.session.warnings = session.warnings := by
  have hfirst : Consistent parsed
      { forest := parsed, session, table := SymbolTable.enter {} } :=
    .of_parsed hparsed.raw session rfl
  have hdeclarations := ensures_declarations hparsed hfirst (.of_parsed hparsed.included) rfl
  simp only [file, ensures_inScope, bind_iff, ensures_annotate, ensures_forest, ensures_table,
    get_iff, modify_iff] at hdeclarations ⊢
  refine Ensures.imp hdeclarations ?_
  intro _ state₁ h₁
  refine Ensures.imp h₁ ?_
  rintro _ state₂ ⟨hinside, scope, hscopes, hconsistent, hvisible, hwarnings, hsettled⟩
  refine Ensures.imp (ensures_checkPending parsed _ _) ?_
  rintro _ _ ⟨rfl, hpending⟩
  exact ⟨resolved_of_checked hinside hscopes hconsistent hvisible hsettled hpending, hwarnings⟩

/-- What is known of a refusal is known of the program, in the state in which resolution has stopped. -/
theorem refused_of_program (hparsed : parsed.Parsed root) {session : Session} {fault : Fault}
    (h : program parsed session = .error fault) :
    ∃ stopped, file root { forest := parsed, session } = .error fault stopped ∧
      Refused parsed fault stopped := by
  have hfile := ensures_file hparsed session
  rw [program, hparsed.root_eq] at h
  cases hrun : file root { forest := parsed, session } with
  | ok value resolution => simp [hrun] at h
  | error fault' stopped =>
    obtain rfl : fault' = fault := by simpa [hrun] using h
    exact ⟨stopped, rfl, hfile.of_error hrun⟩

/-- Resolving a parsed program is refused with an ordinary fault only, and what it ends with is
resolved. -/
theorem program_cases (hparsed : parsed.Parsed root) (session : Session) :
    (∃ resolution, program parsed session = .ok resolution ∧ Resolved parsed root resolution ∧
      resolution.session.warnings = session.warnings) ∨
    ∃ fault, program parsed session = .error fault ∧ fault.Ordinary := by
  have hfile := ensures_file hparsed session
  rw [program, hparsed.root_eq]
  cases hrun : file root { forest := parsed, session } with
  | ok value resolution => exact .inl ⟨resolution, by simp [hrun], hfile.of_ok hrun⟩
  | error fault resolution => exact .inr ⟨fault, by simp [hrun], (hfile.of_error hrun).ordinary⟩

end Resolve

end MiniC
