import MiniC.Proofs.Resolve.Variable

/-!
# Resolving signatures

The parameters of a function are types that a variable can have, and its symbol is either new or that
of an earlier declaration in the same scope that agrees with it. In both cases the function may be
bound to the symbol.
-/

namespace MiniC

open Forest

variable {parsed forest other : Forest} {table : SymbolTable} {n c : NodeId} {s : SymbolId}

namespace SymbolTable

theorem symbol_update (table : SymbolTable) {id : SymbolId} (change : Symbol → Symbol)
    (h : id < table.size) (m : SymbolId) :
    (table.update id change).symbol m = if m = id then change (table.symbol id) else table.symbol m := by
  unfold symbol update
  simp only [Array.getElem?_modify]
  by_cases hm : id = m
  · subst hm
    have : table.symbols[id]? = some table.symbols[id] := Array.getElem?_eq_getElem h
    simp [this]
  · simp [hm, Ne.symm hm]

@[simp] theorem size_update (table : SymbolTable) (id : SymbolId) (change : Symbol → Symbol) :
    (table.update id change).size = table.size := by simp [size, update]

/-- A function that has got a body. -/
theorem grew_setDefined (h : s < table.size) : table.Grew (table.update s (·.setDefined true)) := by
  refine ⟨?_, fun id hid => ?_⟩
  · rw [size_update]
  · rw [symbol_update _ _ h]
    by_cases hs : id = s
    · rw [if_pos hs, hs]
      exact .setDefined
    · rw [if_neg hs]
      exact .refl

end SymbolTable

theorem Symbol.signature?_setDefined {symbol : Symbol} {signature : Signature}
    (h : symbol.signature? = some signature) :
    (symbol.setDefined true).signature? = some { signature with defined := true } := by
  unfold signature? at h
  split at h
  · next signature' hkind =>
    obtain rfl := Option.some.inj h
    simp [setDefined, signature?, hkind]
  · cases h

theorem Symbol.name_setDefined (symbol : Symbol) : (symbol.setDefined true).name = symbol.name := by
  unfold setDefined
  split <;> rfl

theorem Symbol.type_setDefined (symbol : Symbol) : (symbol.setDefined true).type = symbol.type := by
  unfold setDefined
  split <;> rfl

namespace Resolve

open Ensures

variable {state state' : Resolution} {name : String} {line : Nat} {result : Ty} {params : List Ty}
  {nodes : List NodeId}

/-- A type that a parameter can have. -/
def ParameterType (type : Ty) : Prop := type.Flat ∧ type.isVoid = false

theorem ensures_parameterType (hraw : parsed.Raw) (h : Ready parsed state.forest c)
    (hrole : parsed.role c = .parameter)
    (hsize : parsed.size ≤ state.forest.size) :
    Ensures (parameterType c) state (Refused parsed) fun type state' =>
      state' = state ∧ ParameterType type := by
  obtain ⟨name, symbol, hkind⟩ : ∃ name symbol, parsed.kind c = .parameter name symbol := by
    rw [role] at hrole
    cases hk : parsed.kind c with
    | type part => cases hform : part.form <;> simp [hk, Kind.role, hform] at hrole
    | _ => simp_all [Kind.role]
  have hholds := hraw.shaped c
  rw [hkind] at hholds
  obtain ⟨written, hchildren, hwritten⟩ := exists_single hholds
  have hmem : written ∈ parsed.children c := by simp [hchildren]
  have hready := h.part hraw hmem
  have hchild : state.forest.child? c 0 = some written := by
    rw [child?, h.children_eq, hchildren]
    rfl
  have hlevels : written < state.forest.size + 1 :=
    Nat.lt_succ_of_lt (Nat.lt_of_lt_of_le (hraw.linked.lt_size hmem) hsize)
  obtain ⟨type, htype, hflat⟩ := hraw.exists_typeWithin hlevels hwritten
  have htype' : state.forest.typeOf? written = some type := by rw [typeOf?, hready.typeWithin_eq, htype]
  simp only [parameterType, bind_iff, ensures_forest, h.kind_eq, hkind,
    ensures_writtenType hchild htype', ite_iff, ensures_refuse, pure_iff]
  refine ⟨fun _ => Refused.of_plain rfl, fun hvoid => ⟨trivial, hflat, ?_⟩⟩
  simpa using hvoid

theorem ensures_parameterTypes (hraw : parsed.Raw)
    (h : ∀ c ∈ nodes, Ready parsed state.forest c ∧ parsed.role c = .parameter) (hsize : parsed.size ≤ state.forest.size) :
    Ensures (parameterTypes nodes) state (Refused parsed) fun types state' =>
      state' = state ∧ types.length = nodes.length ∧ ∀ type ∈ types, ParameterType type := by
  induction nodes with
  | nil =>
    rw [parameterTypes, pure_iff]
    exact ⟨rfl, rfl, (by simp)⟩
  | cons c nodes ih =>
    obtain ⟨hready, hrole⟩ := h c List.mem_cons_self
    simp only [parameterTypes, bind_iff, pure_iff]
    refine (ensures_parameterType hraw hready hrole hsize).imp ?_
    rintro type _ ⟨rfl, htype⟩
    refine (ih fun d hd => h d (List.mem_cons_of_mem _ hd)).imp ?_
    rintro types _ ⟨rfl, hlength, htypes⟩
    refine ⟨rfl, by rw [List.length_cons, hlength, List.length_cons], fun type' hmem => ?_⟩
    rcases List.mem_cons.mp hmem with rfl | hmem
    · exact htype
    · exact htypes type' hmem

/-- The function `n` may be bound to the symbol `s`, which has been found or declared for it. -/
structure Signed (parsed : Forest) (state state' : Resolution) (n : NodeId) (result : Ty)
    (params : List Ty) (s : SymbolId) : Prop where
  forest_eq : state'.forest = state.forest
  pending_eq : state'.pending = state.pending
  warnings_eq : state'.session.warnings = state.session.warnings
  scopes : state'.table.scopes ≠ []
  outer : state'.table.scopes.tail = state.table.scopes.tail
  visible : Visible parsed state'.table (parsed.owningFunction n)
  binds : ∀ other, Noted state.forest other n → (other.kind n).symbol? = some s →
    Binds parsed state.forest other state.table state'.table state.session.drawn state'.session.drawn n s
  type_same : (state'.table.symbol s).type.same result
  params_same : ∃ signature, (state'.table.symbol s).signature? = some signature ∧
    sameTypes signature.params params

theorem sameTypes_refl (types : List Ty) : sameTypes types types := by
  induction types with
  | nil => rfl
  | cons type types ih => simpa [sameTypes] using ih

/-- What the innermost scope has a name for is in the frame. -/
theorem frame_of_lookupCurrent {table : SymbolTable} {function : Option NodeId}
    (hvisible : Visible parsed table function) (h : table.lookupCurrent name = some s) :
    (table.symbol s).frame = function := by
  obtain ⟨scope, hscope, hlookup⟩ := Option.bind_eq_some_iff.mp h
  obtain ⟨before, after, rfl, -⟩ := List.lookup_eq_some_iff.mp hlookup
  exact hvisible.own _ hscope (name, s) (List.mem_append_right _ List.mem_cons_self)

/-- Labels of other functions have other numbers than that of an earlier one. -/
theorem label_ne {signature : Signature} (h : Consistent parsed state) (hlt : s < state.table.size)
    (hs : (state.table.symbol s).signature? = some signature) :
    ∀ id other name name' number, id ≠ s → (state.table.symbol id).signature? = some other →
      other.label = .function name number → signature.label ≠ .function name' number := by
  intro id other name name' number hid hother hlabel hlabel'
  exact hid (h.declared.label_unique id s other signature name name' number
    (SymbolTable.lt_size_of_signature hother) hlt hother hs hlabel hlabel')

/-- A declaration without a body shares the symbol of an earlier one. -/
theorem signed_of_declaration {signature : Signature} (h : Entered parsed state n)
    (hframe : (state.table.symbol s).frame = parsed.owningFunction n)
    (hnone : (state.forest.kind n).symbol? = none)
    (hs : (state.table.symbol s).signature? = some signature)
    (hlength : ¬2 < (state.forest.children n).length)
    (htype : (state.table.symbol s).type.same result) (hparams : sameTypes signature.params params) :
    Signed parsed state state n result params s := by
  have hlt := SymbolTable.lt_size_of_signature hs
  refine ⟨rfl, rfl, rfl, h.scopes, rfl, h.visible, fun other hn _ => ?_, htype, signature, hs,
    hparams⟩
  have hrule := h.consistent.declared.function s hlt signature hs
  refine ⟨.refl, Nat.le_refl _, hframe, fun id hid _ => ⟨hid, rfl⟩, ⟨signature, hs, ?_, ?_⟩, ?_, ?_⟩
  · exact hrule.noted hn hnone (Nat.le_refl _)
  · exact fun hbody => absurd hbody hlength
  · exact fun hbody => absurd hbody hlength
  · intro id other signature' name name' number hid hother hs' hlabel
    rw [hs, Option.some.injEq] at hs'
    exact hs' ▸ label_ne h.consistent hlt hs id other name name' number hid hother hlabel

/-- The first body gives the symbol of an earlier declaration its definition. -/
theorem signed_of_definition {signature : Signature} (h : Entered parsed state n)
    (hframe : (state.table.symbol s).frame = parsed.owningFunction n)
    (hrole : state.forest.role n = .function)
    (hs : (state.table.symbol s).signature? = some signature)
    (hlength : 2 < (state.forest.children n).length) (hdefined : signature.defined = false)
    (htype : (state.table.symbol s).type.same result) (hparams : sameTypes signature.params params) :
    Signed parsed state { state with table := state.table.update s (·.setDefined true) } n result
      params s := by
  have hlt := SymbolTable.lt_size_of_signature hs
  have hg := SymbolTable.grew_setDefined hlt
  have hnew : (state.table.update s (·.setDefined true)).symbol s =
      (state.table.symbol s).setDefined true := by
    rw [SymbolTable.symbol_update _ _ hlt, if_pos rfl]
  have hs' := Symbol.signature?_setDefined hs
  refine ⟨rfl, rfl, rfl, h.scopes, rfl, h.visible.grew hg rfl, fun other hn hsome => ?_, ?_,
    { signature with defined := true }, by rw [hnew, hs'], hparams⟩
  · have hrule := h.consistent.declared.function s hlt signature hs
    obtain ⟨hbuiltin, hvariadic, hlabel, -⟩ := hrule.origin.resolve_left fun horigin => by
      rw [hdefined] at horigin
      simp at horigin
    refine ⟨hg, Nat.le_refl _, (hg.frame_eq hlt).trans hframe, fun id hid hne => ?_,
      ⟨{ signature with defined := true }, by rw [hnew, hs'], ?_, fun _ => ⟨hbuiltin, rfl⟩⟩, ?_, ?_⟩
    · rw [SymbolTable.size_update] at hid
      rw [SymbolTable.symbol_update _ _ hlt, if_neg hne]
      exact ⟨hid, rfl⟩
    · rw [hnew]
      refine ⟨?_, hrule.params, .inr ⟨hbuiltin, hvariadic, ?_, fun _ => ⟨n, ?_, hsome, ?_⟩⟩⟩
      · rw [Symbol.type_setDefined]
        exact hrule.result
      · rw [Symbol.name_setDefined]
        exact hlabel
      · rw [hn.role, hrole]
      · rw [hn.children]
        exact hlength
    · intro _ signature' _ hs''
      rw [hs, Option.some.injEq] at hs''
      exact hs'' ▸ hdefined
    · intro id other' signature' name name' number hid hother hs'' hlabel'
      rw [hnew, hs', Option.some.injEq] at hs''
      exact hs'' ▸ label_ne h.consistent hlt hs id other' name name' number hid hother hlabel'
  · rw [hnew, Symbol.type_setDefined]
    exact htype

/-- A function that is declared for the first time gets a symbol with a label of its own. -/
theorem signed_of_new {table' : SymbolTable} {symbol : Symbol} {scope : Scope} {scopes : List Scope}
    {defined : Bool} (h : Entered parsed state n) (hrole : state.forest.role n = .function)
    (hresult : result.Flat) (hparams : ∀ param ∈ params, ParameterType param)
    (hlength : defined = true ↔ 2 < (state.forest.children n).length)
    (hscopes : state.table.scopes = scope :: scopes) (hp : state.table.Pushed table' symbol)
    (hscopes' : table'.scopes = ((symbol.name, state.table.size) :: scope) :: scopes)
    (hframe : symbol.frame = parsed.owningFunction n) (htype : symbol.type = result)
    (hkind : symbol.kind = .function
      { params, label := .function symbol.name state.session.drawn, defined }) :
    Signed parsed state { state with
        table := table', session := { state.session with drawn := state.session.drawn + 1 } }
      n result params state.table.size := by
  have hs : (table'.symbol state.table.size).signature? = some
      { params, label := .function symbol.name state.session.drawn, defined } := by
    rw [hp.symbol_new, Symbol.signature?, hkind]
  refine ⟨rfl, rfl, rfl, ?_, ?_, ?_, fun other hn hsome => ?_, ?_, _, hs, sameTypes_refl params⟩
  · rw [hscopes']
    exact List.cons_ne_nil _ _
  · rw [hscopes', hscopes]
    rfl
  · exact h.visible.declared hscopes hp hscopes' hframe
  · refine ⟨hp.grew, Nat.le_succ _, by rw [hp.symbol_new, hframe], fun id hid hne => ?_, ⟨_, hs, ?_, fun hbody =>
      ⟨rfl, hlength.mpr hbody⟩⟩, ?_, ?_⟩
    · have hid := (hp.lt_or_eq hid).resolve_right hne
      exact ⟨hid, hp.symbol_old hid⟩
    · rw [hp.symbol_new]
      refine ⟨htype ▸ hresult, hparams, .inr ⟨rfl, rfl, ⟨_, Nat.lt_succ_self _, rfl⟩, ?_⟩⟩
      refine fun hdefined => ⟨n, ?_, hsome, ?_⟩
      · rw [hn.role, hrole]
      · rw [hn.children]
        exact hlength.mp hdefined
    · exact fun _ signature hlt => absurd hlt (Nat.lt_irrefl _)
    · intro id signature signature' name name' number _ hid hs' hlabel hlabel'
      rw [hs, Option.some.injEq] at hs'
      subst hs'
      obtain ⟨-, rfl⟩ := Machine.Label.function.inj hlabel'
      have hrule := h.consistent.declared.function id (SymbolTable.lt_size_of_signature hid)
        signature hid
      rcases hrule.origin with ⟨-, -, -, routine, -, -, hnamed, -⟩ | ⟨-, -, ⟨number, hlt, heq⟩, -⟩
      · cases hlabel.symm.trans hnamed
      · obtain ⟨-, rfl⟩ := Machine.Label.function.inj (hlabel.symm.trans heq)
        exact Nat.lt_irrefl _ hlt
  · rw [hp.symbol_new, htype]
    exact Ty.same_refl _

theorem ensures_functionSymbol {hasBody : Bool} (hraw : parsed.Raw) (h : Entered parsed state n)
    (hrole : state.forest.role n = .function) (hnone : (state.forest.kind n).symbol? = none)
    (hresult : result.Flat) (hparams : ∀ param ∈ params, ParameterType param)
    (hbody : hasBody = true ↔ 2 < (state.forest.children n).length) :
    Ensures (functionSymbol n name line result params hasBody) state (Refused parsed) fun s state' =>
      Signed parsed state state' n result params s := by
  simp only [functionSymbol, bind_iff, ensures_table]
  cases hlookup : state.table.lookupCurrent name with
  | some earlier =>
    simp only
    split
    · exact Refused.of_plain rfl
    · next signature hs =>
      simp only [bind_iff, ite_iff, ensures_refuse, ensures_onTable, pure_iff]
      refine ⟨fun _ => Refused.of_plain rfl, fun hagree => ⟨fun _ =>
        Refused.of_plain rfl, fun hfirst => ⟨fun htrue => ?_, fun hfalse => ?_⟩⟩⟩
      all_goals
        have hframe := frame_of_lookupCurrent h.visible hlookup
        simp only [Bool.or_eq_true, Bool.not_eq_true', not_or, Bool.not_eq_false] at hagree
      · refine signed_of_definition h hframe hrole hs (hbody.mp htrue) ?_ hagree.1 hagree.2
        simpa [htrue] using hfirst
      · exact signed_of_declaration h hframe hnone hs (fun hlt => hfalse (hbody.mpr hlt)) hagree.1 hagree.2
  | none =>
    obtain ⟨scope, scopes, hscopes⟩ := List.exists_cons_of_ne_nil h.scopes
    simp only [bind_iff, ensures_functionLabel, ensures_forest,
      h.around.owningFunction_eq hraw.linked hraw.ranked]
    refine Ensures.imp (ensures_declare hscopes) ?_
    rintro id _ ⟨rfl, table', rfl, hp, hscopes'⟩
    exact signed_of_new h hrole hresult hparams hbody hscopes hp hscopes' rfl rfl rfl

end Resolve

end MiniC
