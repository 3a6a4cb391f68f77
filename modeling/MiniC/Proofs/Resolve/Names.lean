import MiniC.Proofs.Resolve.Progress

/-!
# Resolving names and calls

An expression is `Begun` when it has been annotated, and `Founded` once its parts are resolved and a
type has been found for it that is right. A name and a call look up a symbol, which is visible only
where the code of the expression can reach it.
-/

namespace MiniC.Resolve

open Forest Ensures

variable {parsed : Forest} {start state state' : Resolution} {n p c top top' : NodeId}
  {done todo : List NodeId} {type target : Ty} {inner : NodeId → Resolve NodeId} {levels : Nat}

/-- The expression `n` has been annotated, and nothing else has happened to it. -/
structure Begun (parsed : Forest) (state : Resolution) (n : NodeId) : Prop where
  consistent : Consistent parsed state
  lt_size : n < parsed.size
  role : parsed.role n = .expression
  kind_eq : state.forest.kind n = parsed.kind n
  children_eq : state.forest.children n = parsed.children n
  untyped : state.forest.type? n = none
  function_eq : (state.forest.node n).function = parsed.owningFunction n
  ready : ∀ c ∈ parsed.children n, Ready parsed state.forest c
  visible : Visible parsed state.table (parsed.owningFunction n)

/-- The expression `n` has got all but its type, which is right. -/
structure Founded (parsed : Forest) (start state : Resolution) (n : NodeId) (type : Ty) : Prop where
  inside : Inside parsed start.forest state.forest n
  table_eq : state.table = start.table
  session_eq : state.session = start.session
  consistent : Consistent parsed state
  untyped : state.forest.type? n = none
  function_eq : (state.forest.node n).function = parsed.owningFunction n
  judged : Judged parsed state.table state.forest n type

namespace Begun

theorem not_function (h : Begun parsed start n) : (parsed.kind n).isFunction = false := by
  have hrole := h.role
  rw [Forest.role] at hrole
  cases hk : parsed.kind n <;> simp_all [Kind.role, Kind.isFunction]

theorem role_eq (h : Begun parsed start n) : start.forest.role n = .expression := by
  rw [Forest.role, h.kind_eq]
  exact h.role

/-- The roles of the children of a node that is to be resolved. -/
theorem holds (h : Begun parsed start n) (hraw : parsed.Raw) :
    (start.forest.kind n).Holds (parsed.roles n) := by
  rw [h.kind_eq]
  exact hraw.shaped n

theorem progress (h : Begun parsed start n) : Progress parsed start start n [] (parsed.children n) :=
  .of_ready h.consistent h.lt_size h.children_eq h.ready

/-- An expression without parts is typed at once. -/
theorem founded_of_leaf (h : Begun parsed start n) (hchildren : start.forest.children n = [])
    (hshallow : type.Shallow) (hrule : ExpressionRule parsed start.table start.forest n type)
    (hoperands : OperandsRule parsed start.table start.forest n) :
    Founded parsed start start n type := by
  refine ⟨.refl, rfl, rfl, h.consistent, h.untyped, h.function_eq, hshallow, ?_, ?_, hrule,
    hoperands⟩ <;> simp [hchildren]

/-- An expression is typed once its parts have been resolved. -/
theorem founded (h : Begun parsed start n) (hp : Progress parsed start state n done [])
    (hshallow : type.Shallow) (hrule : ExpressionRule parsed state.table state.forest n type)
    (hoperands : OperandsRule parsed state.table state.forest n) :
    Founded parsed start state n type := by
  have hfunction : (state.forest.node n).function = parsed.owningFunction n := by
    rw [hp.node_eq]
    exact h.function_eq
  have hdone : state.forest.children n = done := by rw [hp.children_eq, List.append_nil]
  refine ⟨hp.inside, hp.table_eq, hp.session_eq, hp.consistent, hp.type_eq.trans h.untyped,
    hfunction, hshallow, ?_, ?_, hrule, hoperands⟩
  · intro c hc
    exact (hp.resolved c (hdone ▸ hc)).2.1
  · intro c hc
    rw [hfunction]
    exact (hp.resolved c (hdone ▸ hc)).2.2

/-- Resolving the next part. -/
theorem ensures_next (h : Begun parsed start n) (hraw : parsed.Raw)
    (hinner : Resolves parsed inner levels) (hlevels : n ≤ levels)
    (hp : Progress parsed start state n done (c :: todo)) (hrole : parsed.role c = .expression) :
    Ensures (inner c) state (Refused parsed) fun top state' =>
      Progress parsed start state' n (done ++ [top]) todo ∧
        state.forest.Retains state'.forest ∧ ∃ type, state'.forest.Cast parsed c top type := by
  have hlt := hraw.rising (hp.waiting c List.mem_cons_self).1
  have hawaits := hp.awaits hraw hrole h.not_function h.visible fun _ => h.untyped
  refine (hinner (Nat.lt_of_lt_of_le hlt hlevels) hawaits).imp ?_
  rintro top state' ⟨he, hcast⟩
  exact ⟨(hp.step hraw h.not_function he).1, he.retains hraw hawaits, hcast⟩

end Begun

/-! ## Names -/

theorem lookup_visible {table : SymbolTable} {function : Option NodeId} {name : String}
    {symbol : SymbolId} (hvisible : Visible parsed table function)
    (h : table.lookup name = some symbol) :
    Reached parsed table function symbol ∧ (table.symbol symbol).name = name := by
  obtain ⟨scope, hscope, hfound⟩ := List.exists_of_findSome?_eq_some h
  have hmem : (name, symbol) ∈ scope := by
    obtain ⟨before, after, rfl, -⟩ := List.lookup_eq_some_iff.mp hfound
    simp
  exact hvisible.reached scope hscope (name, symbol) hmem

theorem isFunction_eq_false_iff {symbol : Symbol} :
    symbol.isFunction = false ↔ ∃ d, symbol.kind = .variableAt d := by
  unfold Symbol.isFunction Symbol.signature?
  cases symbol.kind <;> simp

theorem noted_setType {forest : Forest} (hn : n < forest.size) (type : Ty) :
    Noted forest (forest.setType n type) n :=
  .update hn (fun _ => rfl) (fun _ => rfl) (fun _ => rfl) (fun _ => rfl) (fun _ => rfl)

theorem noted_bind {forest : Forest} (hn : n < forest.size) (symbol : SymbolId) :
    Noted forest (forest.bind n symbol) n :=
  .update hn (fun _ => Kind.bare_bind symbol) (fun _ => rfl) (fun _ => rfl) (fun _ => rfl)
    (fun _ => rfl)

theorem node_bind {forest : Forest} (hn : n < forest.size) (symbol : SymbolId) :
    (forest.bind n symbol).node n =
      { forest.node n with kind := (forest.kind n).bind symbol } := by
  rw [Forest.bind, node_update _ _ _ _ hn, if_pos rfl]
  rfl

/-- Binding an expression whose parts have been resolved founds its type. -/
theorem founded_of_bind {symbol : SymbolId} (hraw : parsed.Raw) (h : Begun parsed start n)
    (hp : Progress parsed start state n done [])
    (hshallow : type.Shallow)
    (hrule : ExpressionRule parsed state.table (state.forest.bind n symbol) n type)
    (hoperands : OperandsRule parsed state.table (state.forest.bind n symbol) n)
    (hcalled : ∀ name, (state.forest.kind n).bind symbol = .call name (some symbol) →
      (state.table.symbol symbol).signature?.any (·.defined) ∨
        ∃ line, (symbol, line) ∈ state.pending) :
    Founded parsed start { state with forest := state.forest.bind n symbol } n type := by
  have hlt : n < state.forest.size := Nat.lt_of_lt_of_le h.lt_size hp.consistent.grown.size_le
  have hn := noted_bind hlt symbol
  have hnode := node_bind hlt symbol
  have hrole : state.forest.role n = .expression := hp.role_eq.trans h.role_eq
  have hkind : ∀ c ∈ state.forest.children n,
      (state.forest.bind n symbol).node c = state.forest.node c := by
    intro c hc
    exact hn.node_eq c (hp.consistent.grown.ranked.ne_of_mem hc)
  have huntyped : state.forest.type? n = none := hp.type_eq.trans h.untyped
  have huntyped' : (state.forest.bind n symbol).type? n = none := by
    rw [type?, hnode]
    exact huntyped
  have hfunction : ((state.forest.bind n symbol).node n).function = parsed.owningFunction n := by
    rw [hnode]
    show (state.forest.node n).function = _
    rw [hp.node_eq]
    exact h.function_eq
  have hdone : ∀ c ∈ state.forest.children n, c ∈ done := by
    intro c hc
    rwa [hp.children_eq, List.append_nil] at hc
  refine ⟨hp.inside.trans (.of_noted hn), hp.table_eq, hp.session_eq, ?_, huntyped', hfunction,
    hshallow, ?_, ?_, hrule, hoperands⟩
  · refine hp.consistent.noted hraw hn (fun _ => ⟨huntyped, ?_⟩) (fun hne => absurd hrole hne) ?_ ?_
    · intro type htype
      rw [huntyped'] at htype
      cases htype
    · rw [kind, hnode]
      cases hk : state.forest.kind n <;> rfl
    · intro name s hcall
      rw [kind, hnode] at hcall
      have hs : s = symbol := by
        revert hcall
        cases state.forest.kind n <;> simp [Kind.bind]
        exact fun _ => Eq.symm
      exact hs ▸ hcalled name (hs ▸ hcall)
  · intro c hc
    rw [hn.children] at hc
    rw [type?, hkind c hc]
    exact (hp.resolved c (hdone c hc)).2.1
  · intro c hc
    rw [hn.children] at hc
    rw [hkind c hc, hfunction]
    exact (hp.resolved c (hdone c hc)).2.2

theorem ensures_identifier {name : String} {symbol : Option SymbolId} (hraw : parsed.Raw)
    (h : Begun parsed state n) (hkind : state.forest.kind n = .identifier name symbol) :
    Ensures (identifier n name) state (Refused parsed) fun type state' =>
      Founded parsed state state' n type := by
  simp only [identifier, bind_iff, ensures_forest, ensures_table]
  split
  · exact Refused.of_plain rfl
  · next s hlookup =>
    obtain ⟨hreached, -⟩ := lookup_visible h.visible hlookup
    simp only [bind_iff, ite_iff, ensures_refuse, ensures_onForest, pure_iff]
    refine ⟨fun _ => Refused.of_plain rfl, fun hvariable => ?_⟩
    obtain ⟨d, hd⟩ := isFunction_eq_false_iff.mp (by simpa using hvariable)
    have hlt : n < state.forest.size := Nat.lt_of_lt_of_le h.lt_size h.consistent.grown.size_le
    have hleaf : parsed.children n = [] := by
      have hholds := h.holds hraw
      rw [hkind] at hholds
      exact List.map_eq_nil_iff.mp hholds
    refine founded_of_bind hraw h (hleaf ▸ h.progress)
      (h.consistent.declared.variableAt s hreached.lt_size d hd).type.shallow ?_ ?_ ?_
    · rw [ExpressionRule, kind, node_bind hlt, hkind]
      exact ⟨s, d, rfl, h.function_eq.symm ▸ hreached, hd, rfl⟩
    · rw [OperandsRule, kind, node_bind hlt, hkind]
      trivial
    · simp [hkind, Kind.bind]

/-! ## Calls -/

theorem isArray_eq_false_of_decay {other : Ty} (h : other.same type.decay) :
    other.isArray = false := by
  rw [Ty.isArray, Ty.kind_eq_of_same h]
  cases type with
  | base name => cases name <;> rfl
  | pointer | array => rfl

theorem ensures_argumentsFrom (hraw : parsed.Raw) (hinner : Resolves parsed inner levels)
    (hlevels : n ≤ levels) (h : Begun parsed start n) {params : List Ty} {others : List NodeId}
    (hparams : ∀ param ∈ params, param.Flat) (hp : Progress parsed start state n done others)
    (hroles : ∀ c ∈ others, parsed.role c = .expression) :
    Ensures (argumentsFrom inner params others) state (Refused parsed) fun _ state' =>
      ∃ tops, tops.length = others.length ∧ Progress parsed start state' n (done ++ tops) [] ∧
        ArgumentsFit state'.forest params tops ∧
        ArgumentsBrought parsed state'.forest params tops ∧
        state.forest.Retains state'.forest := by
  induction others generalizing state params done with
  | nil =>
    rw [argumentsFrom, pure_iff]
    refine ⟨[], rfl, by rwa [List.append_nil], ?_, ?_, .refl⟩
    · cases params <;> trivial
    · trivial
  | cons argument others ih =>
    have hothers : ∀ c ∈ others, parsed.role c = .expression :=
      fun c hc => hroles c (List.mem_cons_of_mem _ hc)
    -- What is left to do once the argument has its final form.
    have hrest : ∀ {state₁ : Resolution} {top : NodeId} {params' : List Ty},
        Progress parsed start state₁ n (done ++ [top]) others →
        (∀ param ∈ params', param.Flat) → state.forest.Retains state₁.forest →
        Ensures (argumentsFrom inner params' others) state₁ (Refused parsed) fun _ state' =>
          ∃ tops, (top :: tops).length = (argument :: others).length ∧
            Progress parsed start state' n (done ++ top :: tops) [] ∧
            Agrees state₁.forest state'.forest top ∧ ArgumentsFit state'.forest params' tops ∧
            ArgumentsBrought parsed state'.forest params' tops ∧
            state₁.forest.Retains state'.forest ∧ state.forest.Retains state'.forest := by
      intro state₁ top params' hp₁ hparams' hr
      obtain ⟨hrole, htyped, -⟩ :=
        hp₁.resolved top (List.mem_append_right _ List.mem_cons_self)
      refine (ih hparams' hp₁ hothers).imp ?_
      rintro _ state' ⟨tops, hlength, hp', hfit, hbrought, hr'⟩
      exact ⟨tops, by simp [hlength], by simpa using hp', hr' top hrole htyped, hfit, hbrought, hr',
        hr.trans hr'⟩
    simp only [argumentsFrom, bind_iff]
    refine (h.ensures_next hraw hinner hlevels hp (hroles argument List.mem_cons_self)).imp ?_
    rintro top state₁ ⟨hp₁, hr₁, type, hcast⟩
    have hmem : top ∈ done ++ [top] := List.mem_append_right _ List.mem_cons_self
    have htype := hcast.type
    have hoperand := hp₁.operand hmem (fun _ => h.untyped) htype
    cases params with
    | cons param params =>
      simp only [bind_iff]
      refine (ensures_convert hraw hoperand (hparams param List.mem_cons_self).shallow).imp ?_
      rintro top' state₂ ⟨path, hcarried⟩
      have hp₂ := hp₁.converted_last hraw hcarried.converted hcarried.operand
      refine (hrest hp₂ (fun param hparam => hparams param (List.mem_cons_of_mem _ hparam))
        (hr₁.trans (hcarried.converted.retains hoperand.untyped))).imp ?_
      rintro _ state' ⟨tops, hlength, hp', hagrees, hfit, hbrought, hr₂, hr⟩
      have hsupplied := (hcarried.supplied hoperand hcast).mono fun m _ => hr₂ m
      exact ⟨top' :: tops, hlength, hp', ⟨hcarried.hasType.agrees hagrees, hfit⟩,
        ⟨⟨argument, top, type, hsupplied⟩, hbrought⟩, hr⟩
    | nil =>
      have hshallow := (hp₁.consistent.typed top type hoperand.role htype).shallow
      simp only [bind_iff, ensures_typeOf htype, ite_iff]
      refine ⟨fun harray => ?_, fun harray => ?_⟩
      · refine (ensures_convert hraw hoperand hshallow.decay.shallow).imp ?_
        rintro top' state₂ ⟨path, hcarried⟩
        have hp₂ := hp₁.converted_last hraw hcarried.converted hcarried.operand
        refine (hrest hp₂ hparams
          (hr₁.trans (hcarried.converted.retains hoperand.untyped))).imp ?_
        rintro _ state' ⟨tops, hlength, hp', hagrees, hfit, hbrought, hr₂, hr⟩
        obtain ⟨type', htype', hsame⟩ := hcarried.hasType
        have hsupplied := (hcarried.supplied hoperand hcast).mono fun m _ => hr₂ m
        refine ⟨top' :: tops, hlength, hp', ⟨⟨type', hagrees.type_eq.trans htype',
          isArray_eq_false_of_decay hsame⟩, hfit⟩, ⟨⟨argument, top, type, ?_⟩, hbrought⟩, hr⟩
        simpa only [Ty.argumentWanted, List.head?_nil, if_pos harray] using hsupplied
      · refine (hrest hp₁ hparams hr₁).imp ?_
        rintro _ state' ⟨tops, hlength, hp', hagrees, hfit, hbrought, hr₂, hr⟩
        have hsupplied := hcast.supplied.mono fun m _ => hr₂ m
        refine ⟨top :: tops, hlength, hp',
          ⟨⟨type, hagrees.type_eq.trans htype, by simpa using harray⟩, hfit⟩,
          ⟨⟨argument, top, type, ?_⟩, hbrought⟩, hr⟩
        simpa only [Ty.argumentWanted, List.head?_nil, if_neg harray] using hsupplied

theorem Progress.pending (h : Progress parsed start state n done todo)
    (extra : List (SymbolId × Nat)) :
    Progress parsed start { state with pending := state.pending ++ extra } n done todo :=
  { h with consistent := h.consistent.pending extra }

theorem ensures_call {name : String} {symbol : Option SymbolId} (hraw : parsed.Raw)
    (hinner : Resolves parsed inner levels) (hlevels : n ≤ levels) (h : Begun parsed state n)
    (hkind : state.forest.kind n = .call name symbol) :
    Ensures (call inner n name) state (Refused parsed) fun type state' =>
      Founded parsed state state' n type := by
  simp only [call, bind_iff, ensures_forest, ensures_table]
  split
  · exact Refused.of_plain rfl
  · next s hlookup =>
    obtain ⟨hreached, -⟩ := lookup_visible h.visible hlookup
    split
    · exact Refused.of_plain rfl
    · next signature hsignature =>
      have hrule := h.consistent.declared.function s hreached.lt_size signature hsignature
      have hroles : ∀ c ∈ parsed.children n, parsed.role c = .expression := by
        intro c hc
        have hholds := h.holds hraw
        rw [hkind] at hholds
        exact hholds _ (List.mem_map_of_mem hc)
      -- Once the arguments fit, binding the call founds its type.
      have hbind : ∀ {state' : Resolution} {tops : List NodeId},
          Progress parsed state state' n tops [] → tops.length = (parsed.children n).length →
          fits signature (parsed.children n).length →
          ArgumentsFit state'.forest signature.params tops →
          ArgumentsBrought parsed state'.forest signature.params tops →
          (signature.defined = true ∨ ∃ line, (s, line) ∈ state'.pending) →
          Founded parsed state { state' with forest := state'.forest.bind n s } n
            (state.table.symbol s).type := by
        intro state' tops hp hlength hfits hfit hbrought hcalled
        have hlt : n < state'.forest.size :=
          Nat.lt_of_lt_of_le h.lt_size hp.consistent.grown.size_le
        have hn := noted_bind hlt s
        have hchildren : (state'.forest.bind n s).children n = tops := by
          rw [hn.children, hp.children_eq, List.append_nil]
        have hfunction : ((state'.forest.bind n s).node n).function =
            parsed.owningFunction n := by
          rw [node_bind hlt]
          show (state'.forest.node n).function = _
          rw [hp.node_eq]
          exact h.function_eq
        have hbound : (state'.forest.bind n s).kind n = .call name (some s) := by
          rw [kind, node_bind hlt, hp.kind_eq, hkind]
          rfl
        refine founded_of_bind hraw h hp hrule.result.shallow ?_ ?_ ?_
        · simp only [ExpressionRule, hbound, hp.table_eq, hfunction, hchildren, hlength]
          refine ⟨s, signature, rfl, hreached, hsignature, rfl, hfits, hfit.agrees ?_⟩
          intro c hc
          rw [← List.append_nil tops, ← hp.children_eq] at hc
          exact .of_node (hn.node_eq c (hp.consistent.grown.ranked.ne_of_mem hc))
        · simp only [OperandsRule, hbound, hp.table_eq, hchildren]
          refine ⟨s, signature, rfl, hreached.lt_size, hsignature, hbrought.imp ?_⟩
          intro c hc e top type wanted hs
          refine hs.mono fun m hm _ _ => .of_node (hn.node_eq m ?_)
          -- The call is below none of its arguments.
          rintro rfl
          rw [← List.append_nil tops, ← hp.children_eq] at hc
          exact Below.not_child hp.consistent.grown.ranked hc hm
        · intro _ _
          refine hcalled.imp_left fun hdefined => ?_
          rw [hp.table_eq, hsignature]
          exact hdefined
      simp only [bind_iff, ite_iff, ensures_refuse, ensures_onForest, modify_iff, pure_iff,
        ensures_forest, h.children_eq]
      refine ⟨fun _ => Refused.of_plain rfl, fun hfits => ?_⟩
      refine (ensures_argumentsFrom hraw hinner hlevels h (fun param hparam =>
        (hrule.params param hparam).1) h.progress hroles).imp ?_
      rintro _ state' ⟨tops, hlength, hp, hfit, hbrought, -⟩
      rw [List.nil_append] at hp
      have hfits : fits signature (parsed.children n).length := by simpa using hfits
      refine ⟨fun _ => ?_, fun hdefined => ?_⟩
      · refine hbind (hp.pending [(s, state.forest.line n)]) hlength hfits hfit hbrought (.inr ?_)
        exact ⟨state.forest.line n, List.mem_append_right _ List.mem_cons_self⟩
      · exact hbind hp hlength hfits hfit hbrought (.inl (by simpa using hdefined))

end MiniC.Resolve
