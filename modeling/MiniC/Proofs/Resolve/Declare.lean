import MiniC.Proofs.Resolve.Advance
import MiniC.Proofs.SymbolTable

/-!
# Declaring symbols

A declaration adds a symbol to the table and binds the node that declares it. Both changes together
keep a resolution consistent; between them it is not.
-/

namespace MiniC

open Forest

variable {parsed forest other : Forest} {table table' : SymbolTable} {symbol : Symbol} {n : NodeId}
  {id s : SymbolId} {drawn drawn' : Nat} {state : Resolution}

theorem SymbolTable.Pushed.grew (h : table.Pushed table' symbol) : table.Grew table' := by
  refine ⟨?_, fun id hid => h.symbol_old hid ▸ .refl⟩
  rw [h.size_eq]
  exact Nat.le_succ _

theorem Symbol.signature?_of_variableAt {d : NodeId} (h : symbol.kind = .variableAt d) :
    symbol.signature? = none := by rw [signature?, h]

/-- A node that is bound for the first time plays no part in the rules so far. -/
theorem VariableRule.noted {d : NodeId} (h : VariableRule parsed forest id symbol d)
    (hn : Noted forest other n) (hnone : (forest.kind n).symbol? = none) :
    VariableRule parsed other id symbol d := by
  have hd : d ≠ n := by
    rintro rfl
    exact absurd h.symbol_eq (by simp [hnone])
  refine ⟨h.lt_size, ?_, ?_, ?_, h.frame, h.type, h.body⟩
  · rw [hn.role]
    exact h.role
  · rw [hn.kind_eq hd]
    exact h.symbol_eq
  · rw [hn.type_eq hd]
    exact h.type_eq

theorem FunctionRule.noted {signature : Signature} (h : FunctionRule forest drawn id symbol signature)
    (hn : Noted forest other n) (hnone : (forest.kind n).symbol? = none) (hdrawn : drawn ≤ drawn') :
    FunctionRule other drawn' id symbol signature := by
  refine ⟨h.result, h.params, h.origin.imp_right ?_⟩
  rintro ⟨hbuiltin, hvariadic, ⟨number, hnumber, hlabel⟩, hbody⟩
  refine ⟨hbuiltin, hvariadic, ⟨number, Nat.lt_of_lt_of_le hnumber hdrawn, hlabel⟩,
    fun hdefined => ?_⟩
  obtain ⟨f, hrole, hsymbol, hlength⟩ := hbody hdefined
  have hf : f ≠ n := by
    rintro rfl
    exact absurd hsymbol (by simp [hnone])
  exact ⟨f, (hn.role f).trans hrole, hn.kind_eq hf ▸ hsymbol, hn.children f ▸ hlength⟩

/-- A declared variable is right if its node is bound and typed. -/
theorem Declared.variable (h : Declared parsed forest table drawn) (hn : Noted forest other n)
    (hnone : (forest.kind n).symbol? = none) (hp : table.Pushed table' symbol)
    (hkind : symbol.kind = .variableAt n) (hrule : VariableRule parsed other table.size symbol n) :
    Declared parsed other table' drawn := by
  have hold : ∀ {m}, forest.role m = .function → m ≠ n := by
    rintro m hm rfl
    have hrole := hrule.role
    rw [hn.role, hm] at hrole
    simp at hrole
  refine ⟨?_, ?_, ?_, ?_, ?_, ?_, ?_⟩
  · intro id hid d hd
    rcases hp.lt_or_eq hid with hlt | rfl
    · rw [hp.symbol_old hlt] at hd ⊢
      exact (h.variableAt id hlt d hd).noted hn hnone
    · rw [hp.symbol_new, hkind] at hd
      cases hd
      rw [hp.symbol_new]
      exact hrule
  · intro id hid signature hsignature
    rcases hp.lt_or_eq hid with hlt | rfl
    · rw [hp.symbol_old hlt] at hsignature ⊢
      exact (h.function id hlt signature hsignature).noted hn hnone (Nat.le_refl _)
    · rw [hp.symbol_new, Symbol.signature?_of_variableAt hkind] at hsignature
      cases hsignature
  · intro d id hrole hsymbol
    by_cases hd : d = n
    · rw [hd, hrule.symbol_eq, Option.some.injEq] at hsymbol
      rw [← hsymbol, hp.symbol_new, hp.size_eq, hd]
      exact ⟨Nat.lt_succ_self _, hkind⟩
    · rw [hn.role] at hrole
      rw [hn.kind_eq hd] at hsymbol
      obtain ⟨hlt, hvariable⟩ := h.bound_variable d id hrole hsymbol
      exact ⟨Nat.lt_of_lt_of_le hlt hp.grew.size_le, hp.symbol_old hlt ▸ hvariable⟩
  · intro f id hrole hsymbol
    rw [hn.role] at hrole
    rw [hn.kind_eq (hold hrole)] at hsymbol
    obtain ⟨hlt, hfunction⟩ := h.bound_function f id hrole hsymbol
    rw [hp.symbol_old hlt, hn.children]
    exact ⟨Nat.lt_of_lt_of_le hlt hp.grew.size_le, hfunction⟩
  · intro f id hrole hsymbol
    rw [hn.role] at hrole
    rw [hn.kind_eq (hold hrole)] at hsymbol
    rw [hp.symbol_old (h.bound_function f id hrole hsymbol).1]
    exact h.bound_frame f id hrole hsymbol
  · intro f f' id hrole hrole' hsymbol hsymbol' hlength hlength'
    rw [hn.role] at hrole hrole'
    rw [hn.kind_eq (hold hrole)] at hsymbol
    rw [hn.kind_eq (hold hrole')] at hsymbol'
    rw [hn.children] at hlength hlength'
    exact h.body_unique f f' id hrole hrole' hsymbol hsymbol' hlength hlength'
  · intro id id' signature signature' name name' number hid hid' hs hs' hlabel hlabel'
    rcases hp.lt_or_eq hid with hlt | rfl
    · rcases hp.lt_or_eq hid' with hlt' | rfl
      · rw [hp.symbol_old hlt] at hs
        rw [hp.symbol_old hlt'] at hs'
        exact h.label_unique id id' signature signature' name name' number hlt hlt' hs hs' hlabel
          hlabel'
      · rw [hp.symbol_new, Symbol.signature?_of_variableAt hkind] at hs'
        cases hs'
    · rw [hp.symbol_new, Symbol.signature?_of_variableAt hkind] at hs
      cases hs

/-- What has to be true of the symbol that a function is bound to. -/
structure Binds (parsed forest other : Forest) (table table' : SymbolTable) (drawn drawn' : Nat)
    (n : NodeId) (s : SymbolId) : Prop where
  grew : table.Grew table'
  drawn_le : drawn ≤ drawn'
  frame : (table'.symbol s).frame = parsed.owningFunction n
  others : ∀ id, id < table'.size → id ≠ s → id < table.size ∧ table'.symbol id = table.symbol id
  signature : ∃ signature, (table'.symbol s).signature? = some signature ∧
    FunctionRule other drawn' s (table'.symbol s) signature ∧
    (2 < (forest.children n).length → signature.builtin = false ∧ signature.defined = true)
  first_body : 2 < (forest.children n).length → ∀ signature, s < table.size →
    (table.symbol s).signature? = some signature → signature.defined = false
  label : ∀ id signature signature' name name' number, id ≠ s →
    (table.symbol id).signature? = some signature →
    (table'.symbol s).signature? = some signature' → signature.label = .function name number →
    signature'.label ≠ .function name' number

/-- A function may be bound to a symbol that it has just been given, or that it shares with an earlier
declaration. -/
theorem Declared.binds (h : Declared parsed forest table drawn) (hn : Noted forest other n)
    (hrole : forest.role n = .function) (hnone : (forest.kind n).symbol? = none)
    (hsome : (other.kind n).symbol? = some s)
    (hb : Binds parsed forest other table table' drawn drawn' n s) :
    Declared parsed other table' drawn' := by
  obtain ⟨own, hown, hrule, hdefines⟩ := hb.signature
  have hlt : s < table'.size := SymbolTable.lt_size_of_signature hown
  have hold : ∀ {m}, forest.role m = .declaration ∨ forest.role m = .parameter → m ≠ n := by
    rintro m hm rfl
    simp [hrole] at hm
  refine ⟨?_, ?_, ?_, ?_, ?_, ?_, ?_⟩
  · intro id hid d hd
    have hne : id ≠ s := by
      rintro rfl
      rw [Symbol.signature?_of_variableAt hd] at hown
      cases hown
    obtain ⟨hid, heq⟩ := hb.others id hid hne
    rw [heq] at hd ⊢
    exact (h.variableAt id hid d hd).noted hn hnone
  · intro id hid signature hsignature
    by_cases hne : id = s
    · rw [hne, hown, Option.some.injEq] at hsignature
      rw [hne, ← hsignature]
      exact hrule
    · obtain ⟨hid, heq⟩ := hb.others id hid hne
      rw [heq] at hsignature ⊢
      exact (h.function id hid signature hsignature).noted hn hnone hb.drawn_le
  · intro d id hd hsymbol
    rw [hn.role] at hd
    rw [hn.kind_eq (hold hd)] at hsymbol
    obtain ⟨hid, hvariable⟩ := h.bound_variable d id hd hsymbol
    exact ⟨Nat.lt_of_lt_of_le hid hb.grew.size_le, (hb.grew.variable_iff hid d).mpr hvariable⟩
  · intro f id hf hsymbol
    rw [hn.children]
    by_cases hfn : f = n
    · rw [hfn, hsome, Option.some.injEq] at hsymbol
      rw [hfn, ← hsymbol]
      exact ⟨hlt, own, hown, hdefines⟩
    · rw [hn.role] at hf
      rw [hn.kind_eq hfn] at hsymbol
      obtain ⟨hid, signature, hsignature, hbody⟩ := h.bound_function f id hf hsymbol
      obtain ⟨defined, hsignature', hstill⟩ := hb.grew.signature_eq hid hsignature
      exact ⟨Nat.lt_of_lt_of_le hid hb.grew.size_le, _, hsignature',
        fun hlength => ⟨(hbody hlength).1, hstill (hbody hlength).2⟩⟩
  · intro f id hf hsymbol
    by_cases hfn : f = n
    · rw [hfn, hsome, Option.some.injEq] at hsymbol
      rw [hfn, ← hsymbol]
      exact hb.frame
    · rw [hn.role] at hf
      rw [hn.kind_eq hfn] at hsymbol
      rw [hb.grew.frame_eq (h.bound_function f id hf hsymbol).1]
      exact h.bound_frame f id hf hsymbol
  · -- Two bodies of one symbol: the second one would have been refused.
    have hclash : ∀ {f}, f ≠ n → forest.role f = .function → (forest.kind f).symbol? = some s →
        2 < (forest.children f).length → 2 < (forest.children n).length → False := by
      intro f hfn hf hsymbol hlength hlength'
      obtain ⟨hid, signature, hsignature, hbody⟩ := h.bound_function f s hf hsymbol
      have hfirst := hb.first_body hlength' signature hid hsignature
      rw [(hbody hlength).2] at hfirst
      cases hfirst
    intro f f' id hf hf' hsymbol hsymbol' hlength hlength'
    rw [hn.role] at hf hf'
    rw [hn.children] at hlength hlength'
    by_cases hfn : f = n <;> by_cases hfn' : f' = n
    · rw [hfn, hfn']
    · rw [hfn, hsome, Option.some.injEq] at hsymbol
      rw [hn.kind_eq hfn', ← hsymbol] at hsymbol'
      exact (hclash hfn' hf' hsymbol' hlength' (hfn ▸ hlength)).elim
    · rw [hfn', hsome, Option.some.injEq] at hsymbol'
      rw [hn.kind_eq hfn, ← hsymbol'] at hsymbol
      exact (hclash hfn hf hsymbol hlength (hfn' ▸ hlength')).elim
    · rw [hn.kind_eq hfn] at hsymbol
      rw [hn.kind_eq hfn'] at hsymbol'
      exact h.body_unique f f' id hf hf' hsymbol hsymbol' hlength hlength'
  · intro id id' signature signature' name name' number hid hid' hs hs' hlabel hlabel'
    by_cases hne : id = s <;> by_cases hne' : id' = s
    · rw [hne, hne']
    · rw [(hb.others id' hid' hne').2] at hs'
      exact absurd hlabel (hb.label id' _ _ _ _ _ hne' hs' (hne ▸ hs) hlabel')
    · rw [(hb.others id hid hne).2] at hs
      exact absurd hlabel' (hb.label id _ _ _ _ _ hne hs (hne' ▸ hs') hlabel)
    · obtain ⟨hid, heq⟩ := hb.others id hid hne
      obtain ⟨hid', heq'⟩ := hb.others id' hid' hne'
      exact h.label_unique id id' signature signature' name name' number hid hid' (heq ▸ hs)
        (heq' ▸ hs') hlabel hlabel'

namespace Consistent

/-- Binding a node that is no expression keeps a resolution consistent if the declarations stay
right. -/
theorem declare {session : Session} (h : Consistent parsed state) (hraw : parsed.Raw)
    (hn : Noted state.forest other n) (hrole : state.forest.role n ≠ .expression)
    (hlabels : (other.kind n).ownLabels = (state.forest.kind n).ownLabels)
    (hg : state.table.Grew table') (hdrawn : state.session.drawn ≤ session.drawn)
    (hd : Declared parsed other table' session.drawn) :
    Consistent parsed { state with forest := other, table := table', session } where
  grown := h.grown.noted hn
  typed := (h.typed.noted h.grown hraw hn fun hexpression => absurd hexpression hrole).grew hg
  labelled := by
    refine h.labelled.of_same (fun m => ?_) hdrawn
    by_cases hm : m = n
    · exact hm ▸ hlabels
    · rw [hn.kind_eq hm]
  declared := hd
  called := by
    refine Called.grew (fun m name s hkind => ?_) hg
    by_cases hm : m = n
    · refine absurd (hn.role n) fun he => hrole ?_
      rw [← he, role, ← hm, hkind]
      rfl
    · rw [hn.kind_eq hm] at hkind
      exact h.called m name s hkind

/-- Declaring a variable at a node that has not been bound yet keeps a resolution consistent. -/
theorem bindVariable (h : Consistent parsed state) (hraw : parsed.Raw) (hlt : n < parsed.size)
    (hnone : (state.forest.kind n).symbol? = none)
    (hrole : state.forest.role n = .declaration ∨
      state.forest.role n = .parameter ∧ symbol.type.Flat)
    (hp : state.table.Pushed table' symbol) (hkind : symbol.kind = .variableAt n)
    (htype : symbol.type.OfVariable) (hframe : symbol.frame = parsed.owningFunction n)
    (hbody : parsed.OfBody n) :
    Noted state.forest ((state.forest.setType n symbol.type).bind n state.table.size) n ∧
      ((state.forest.setType n symbol.type).bind n state.table.size).node n =
        { state.forest.node n with
          kind := (state.forest.kind n).bind state.table.size, type := some symbol.type } ∧
      Consistent parsed { state with
        forest := (state.forest.setType n symbol.type).bind n state.table.size
        table := table' } := by
  have hlt' : n < state.forest.size := Nat.lt_of_lt_of_le hlt h.grown.size_le
  have hlt'' : n < (state.forest.setType n symbol.type).size := by rwa [setType, size_update]
  have hn : Noted state.forest ((state.forest.setType n symbol.type).bind n state.table.size) n :=
    (Resolve.noted_setType hlt' symbol.type).trans (Resolve.noted_bind hlt'' _)
  have hnode : ((state.forest.setType n symbol.type).bind n state.table.size).node n =
      { state.forest.node n with
        kind := (state.forest.kind n).bind state.table.size, type := some symbol.type } := by
    rw [Resolve.node_bind hlt'', kind, setType, node_update _ _ _ _ hlt', if_pos rfl]
    rfl
  refine ⟨hn, hnode, ?_⟩
  generalize (state.forest.setType n symbol.type).bind n state.table.size = other at hn hnode ⊢
  have hbound : (other.kind n).symbol? = some state.table.size ∧
      (other.kind n).ownLabels = (state.forest.kind n).ownLabels := by
    rw [kind, hnode]
    have hrole' : (state.forest.kind n).role = .declaration ∨
        (state.forest.kind n).role = .parameter := hrole.imp_right (·.1)
    cases hk : state.forest.kind n with
    | type part => cases hform : part.form <;> simp [hk, Kind.role, hform] at hrole'
    | _ => simp_all [Kind.role, Kind.bind, Kind.symbol?, Kind.ownLabels]
  have hrule : VariableRule parsed other state.table.size symbol n := by
    refine ⟨hlt, ?_, hbound.1, by rw [type?, hnode], hframe, htype, hbody⟩
    rw [hn.role]
    exact hrole
  refine h.declare hraw hn ?_ hbound.2 hp.grew (Nat.le_refl _)
    (h.declared.variable hn hnone hp hkind hrule)
  rcases hrole with hrole | ⟨hrole, -⟩ <;> simp [hrole]

end Consistent

namespace Resolve

open Ensures

/-- Declaring a symbol adds it to the table and its name to the innermost scope. -/
theorem ensures_declare {scope : Scope} {scopes : List Scope}
    (hscopes : state.table.scopes = scope :: scopes) :
    Ensures (declare symbol) state (Refused parsed) fun id state' =>
      id = state.table.size ∧ ∃ table', state' = { state with table := table' } ∧
        state.table.Pushed table' { symbol with depth := state.table.depth } ∧
        table'.scopes = ((symbol.name, id) :: scope) :: scopes := by
  simp only [declare, bind_iff, ensures_table, SymbolTable.declare, hscopes]
  cases scope.lookup symbol.name with
  | some earlier => exact Refused.of_plain rfl
  | none =>
    simp only [bind_iff, ensures_onTable, pure_iff]
    exact ⟨trivial, _, rfl, ⟨rfl⟩, rfl⟩

/-- A new name is visible if its symbol is in the frame. -/
theorem Visible.declared {function : Option NodeId} {scope : Scope} {scopes : List Scope}
    (h : Visible parsed table function) (hscopes : table.scopes = scope :: scopes)
    (hp : table.Pushed table' symbol)
    (hscopes' : table'.scopes = ((symbol.name, table.size) :: scope) :: scopes)
    (hframe : symbol.frame = function) : Visible parsed table' function := by
  have hold : ∀ scope' ∈ scope :: scopes, ∀ entry ∈ scope',
      Reached parsed table' function entry.2 ∧ (table'.symbol entry.2).name = entry.1 := by
    intro scope' hscope entry hentry
    obtain ⟨hreached, hname⟩ := h.reached scope' (hscopes ▸ hscope) entry hentry
    exact ⟨hreached.grew hp.grew, (hp.grew.name_eq hreached.lt_size).trans hname⟩
  refine ⟨fun scope' hscope entry hentry => ?_, fun scope' hscope entry hentry => ?_⟩
  · rw [hscopes'] at hscope
    rcases List.mem_cons.mp hscope with rfl | hscope
    · rcases List.mem_cons.mp hentry with rfl | hentry
      · refine ⟨⟨?_, ?_⟩, ?_⟩
        · rw [hp.size_eq]
          exact Nat.lt_succ_self _
        · rw [hp.symbol_new, hframe]
          exact .refl _
        · rw [hp.symbol_new]
      · exact hold scope List.mem_cons_self entry hentry
    · exact hold scope' (List.mem_cons_of_mem _ hscope) entry hentry
  · rw [hscopes', List.head?_cons, Option.some.injEq] at hscope
    subst hscope
    rcases List.mem_cons.mp hentry with rfl | hentry
    · rw [hp.symbol_new, hframe]
    · have hmem : scope ∈ table.scopes := hscopes ▸ List.mem_cons_self
      rw [hp.symbol_old (h.reached scope hmem entry hentry).1.lt_size]
      exact h.own scope (by rw [hscopes, List.head?_cons]) entry hentry

end Resolve

end MiniC
