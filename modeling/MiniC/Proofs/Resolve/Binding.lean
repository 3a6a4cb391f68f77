import MiniC.Proofs.Resolve.Lexical
import MiniC.Proofs.Resolve.Program

/-!
# Declarations and the scopes of the tree

A declaration is bound behind its initializer and a function at its header, both in the scope that
the tree says they are in. With the other statements, this takes a whole program from the moment at
its beginning to the one at its end.
-/

namespace MiniC

open Forest

theorem SymbolTable.Pushed.plain {before after : SymbolTable} {symbol : Symbol}
    (h : before.Pushed after symbol)
    (hsymbol : ∀ signature, symbol.signature? = some signature → signature.builtin = false) :
    before.Plain after := by
  intro s signature hle hs
  have hlt := SymbolTable.lt_size_of_signature hs
  rw [h.size_eq] at hlt
  obtain rfl : s = before.size := Nat.le_antisymm (Nat.le_of_lt_succ hlt) hle
  rw [h.symbol_new] at hs
  exact hsymbol signature hs

namespace Resolve

open Ensures

variable {parsed : Forest} {state next : Resolution} {scopes left right nodes : List NodeId}
  {past : NodeId → Prop} {n d f list : NodeId} {name : String} {s : SymbolId} {table' : SymbolTable}

/-! ## New names -/

/-- A new name is listed besides the others. -/
theorem Gains.of_new {scope : Scope} {outer : List Scope} (hnew : scope.lookup name = none) :
    Gains name s (scope :: outer) (((name, s) :: scope) :: outer) := by
  refine ⟨scope, _, outer, rfl, rfl, fun name' s' => ?_⟩
  rw [List.lookup_cons]
  by_cases hname : name' = name
  · subst hname
    simp [hnew, eq_comm]
  · simp [beq_eq_false_iff_ne.mpr hname, hname]

/-- A name that is listed for the symbol already. -/
theorem Gains.of_old {scope : Scope} {outer : List Scope} (hold : scope.lookup name = some s) :
    Gains name s (scope :: outer) (scope :: outer) := by
  refine ⟨scope, scope, outer, rfl, rfl, fun name' s' => ⟨.inl, ?_⟩⟩
  rintro (hlookup | ⟨rfl, rfl⟩)
  · exact hlookup
  · exact hold

/-- A symbol that has just been added is new. -/
theorem Enters.of_pushed {before after : SymbolTable} {symbol : Symbol}
    (hpushed : before.Pushed after symbol)
    (hgains : Gains name before.size before.scopes after.scopes) :
    Enters name before.size before after where
  grew := hpushed.grew
  gains := hgains
  lt_size := by
    rw [hpushed.size_eq]
    exact Nat.lt_succ_self _
  known := .inr rfl

/-- A symbol that can be declared has a name that is new in the innermost scope. -/
theorem ensures_declare_of {symbol : Symbol} {post : SymbolId → Resolution → Prop}
    (h : ∀ table', state.table.Pushed table' { symbol with depth := state.table.depth } →
      Enters symbol.name state.table.size state.table table' →
      post state.table.size { state with table := table' }) :
    Ensures (declare symbol) state Fault.Any post := by
  simp only [declare, bind_iff, ensures_table]
  cases hdeclare : state.table.declare symbol with
  | error fault => exact trivial
  | ok result =>
    simp only [bind_iff, ensures_onTable, pure_iff]
    obtain ⟨hid, hpushed, ⟨scope, outer, hscopes, hnew, hscopes'⟩, -⟩ :=
      SymbolTable.accepted_of_declare hdeclare
    rw [hid]
    refine h _ hpushed (.of_pushed hpushed ?_)
    rw [hscopes, hscopes']
    exact .of_new hnew

/-- Binding a declaration in the scope that it is in makes it a part of the past. -/
theorem Moment.bindTo (hraw : parsed.Raw) (h : Moment parsed state scopes past)
    (hd : parsed.Declares d name) (henclosed : parsed.Enclosed d scopes) (hpast : ¬past d)
    (hentered : Enters name s state.table table') (hplain : state.table.Plain table')
    (hsigned : (parsed.kind d).isFunction → Prototyped parsed table' d s) (session : Session) :
    Moment parsed { state with forest := state.forest.bind d s, table := table', session } scopes
      fun m => past m ∨ m = d := by
  obtain ⟨scope, outer, rfl⟩ : ∃ scope outer, scopes = scope :: outer := by
    obtain ⟨_, _, _, hscopes, -⟩ := hentered.gains
    have hlisted := h.listed
    rw [hscopes] at hlisted
    cases hlisted
    exact ⟨_, _, rfl⟩
  have hlt := Nat.lt_of_lt_of_le hd.lt_size h.grown.size_le
  have hkind : (state.forest.bind d s).kind d = (state.forest.kind d).bind s := by
    rw [Forest.bind, kind, node_update _ _ _ _ hlt, if_pos rfl]
    rfl
  refine h.bind hraw ⟨.bind h.grown.woven s, ?_, fun m hm hne => ?_, hentered, hplain, hsigned⟩ hd
    henclosed hpast
  · have hplain := h.kind_eq hraw hd.lt_size
    rw [symbol?, hkind]
    cases hk : state.forest.kind d <;> cases hd <;> simp_all [Kind.plain, Kind.bind, Kind.symbol?]
  · rw [symbol?, Forest.bind, kind, node_update_of_ne _ _ hne, symbol?, kind]

section Declarations

variable (hraw : parsed.Raw) (h : Upcoming parsed state n scopes)

include hraw h

theorem Upcoming.of_declaration {symbol : Option SymbolId}
    (hkind : state.forest.kind n = .declaration name symbol) :
    Ensures (declaration n name) state Fault.Any fun _ next =>
      Moment parsed next scopes (parsed.Behind n) := by
  have hkind' : parsed.kind n = .declaration name none := h.kind_eq hraw hkind
  have hfunction : (parsed.kind n).isFunction = false := by rw [hkind']; rfl
  have hmute : ∀ c ∈ parsed.children n, (parsed.role c).IsMute := by
    intro c hc
    have hholds := hraw.shaped n
    rw [hkind'] at hholds
    obtain ⟨written, hwritten, hroles⟩ := hholds
    have hmem : parsed.role c ∈ parsed.roles n := List.mem_map_of_mem hc
    rcases hroles with hroles | hroles | hroles <;> rcases hwritten with rfl | rfl <;>
      rw [hroles] at hmem <;> revert hmem <;> generalize parsed.role c = role <;>
      cases role <;> simp [Role.IsMute]
  simp only [declaration, bind_iff, ensures_forest, ite_iff, ensures_refuse]
  refine ensures_child_of fun written hwritten => ensures_writtenType_of fun _ type _ _ => ?_
  refine ⟨fun _ => trivial, fun _ => ⟨fun _ => trivial, fun _ => ?_⟩⟩
  refine (h.consulting hraw hmute (by simp [Opens, hkind']) hfunction
    (consulting_initializer fun _ => h.visited hraw)).imp fun type state₁ hm₁ => ?_
  simp only [ensures_onForest]
  refine ensures_declare_of fun table' hpushed hentered => ?_
  have hdeclares : parsed.Declares n name := .declaration hkind'
  have hnone : ¬parsed.InSight n n := fun hsight => hsight.not_below hraw.linked hraw.ranked .refl
  have hm₂ := (hm₁.setType n type).bindTo hraw hdeclares h.enclosed hnone hentered
    (hpushed.plain (by simp [Symbol.signature?])) (by simp [hfunction]) state₁.session
  refine hm₂.congr fun d name' hd => or_congr_right ⟨?_, fun hbelow => ?_⟩
  · rintro rfl
    exact .refl
  · rcases hbelow.eq_or_child with rfl | ⟨c, hc, hbelow⟩
    · rfl
    · exact absurd hd (hraw.not_declares (hmute c hc) hbelow)

end Declarations

/-! ## Signatures -/

theorem ensures_parameterTypes_of :
    Ensures (parameterTypes nodes) state Fault.Any fun types next =>
      next = state ∧ List.Forall₂ state.forest.Writes nodes types := by
  induction nodes with
  | nil => exact ⟨rfl, .nil⟩
  | cons param nodes ih =>
    simp only [parameterTypes, parameterType, bind_iff, ensures_forest]
    split
    · simp only [bind_iff, ite_iff, ensures_refuse, pure_iff]
      refine ensures_writtenType_of fun written type hwritten htype => ⟨fun _ => trivial, fun _ => ?_⟩
      refine ih.imp ?_
      rintro types _ ⟨rfl, htypes⟩
      exact ⟨rfl, .cons ⟨written, hwritten, htype⟩ htypes⟩
    · simp [Fault.Any]

/-- The symbol of a function is a new one, or that of a declaration in the same scope that has the
same types. -/
theorem ensures_functionSymbol_of {line : Nat} {result : Ty} {types : List Ty} {hasBody : Bool}
    (hprototype : parsed.HasPrototype n result types) {post : SymbolId → Resolution → Prop}
    (h : ∀ s table' session, Enters name s state.table table' → state.table.Plain table' → Prototyped parsed table' n s →
      post s { state with table := table', session }) :
    Ensures (functionSymbol n name line result types hasBody) state Fault.Any post := by
  simp only [functionSymbol, bind_iff, ensures_table]
  cases hcurrent : state.table.lookupCurrent name with
  | none =>
    simp only [bind_iff, ensures_functionLabel, ensures_forest]
    refine ensures_declare_of fun table' hpushed hentered => h _ table' _ hentered
      (hpushed.plain (by simp [Symbol.signature?])) ?_
    have hnew := hpushed.symbol_new
    refine ⟨{ params := types, label := .function name state.session.drawn, defined := hasBody },
      result, types, ?_, hprototype, ?_, ?_⟩
    · rw [hnew]
      rfl
    · rw [hnew]
      exact Ty.same_refl _
    · exact sameTypes_iff.mpr rfl
  | some earlier =>
    simp only
    cases hsignature : (state.table.symbol earlier).signature? with
    | none => simp [Fault.Any]
    | some signature =>
      have hlt := SymbolTable.lt_size_of_signature hsignature
      obtain ⟨scope, outer, hscopes, hlookup⟩ := SymbolTable.exists_of_lookupCurrent hcurrent
      have hgains : Gains name earlier state.table.scopes state.table.scopes :=
        hscopes ▸ .of_old hlookup
      simp only [bind_iff, ite_iff, ensures_refuse, ensures_onTable, pure_iff]
      refine ⟨fun _ => trivial, fun hmatches => ⟨fun _ => trivial, fun _ => ?_⟩⟩
      have hsame : Prototyped parsed state.table n earlier := by
        simp only [Bool.or_eq_true, Bool.not_eq_true', not_or, Bool.not_eq_false] at hmatches
        exact ⟨signature, result, types, hsignature, hprototype, hmatches.1, hmatches.2⟩
      refine ⟨fun _ => ?_, fun _ => h earlier _ _
        ⟨.refl, hgains, hlt, .inl hcurrent⟩ (.of_size_le (Nat.le_refl _)) hsame⟩
      have hgrew := SymbolTable.grew_setDefined hlt
      have hlt' := Nat.lt_of_lt_of_le hlt hgrew.size_le
      have hplain := SymbolTable.Plain.of_size_le
        (Nat.le_of_eq (SymbolTable.size_update state.table earlier (·.setDefined true)))
      exact h earlier _ _ ⟨hgrew, hgains, hlt', .inl hcurrent⟩ hplain (hsame.grew hgrew)

/-- What is written at a node has been written there from the beginning. -/
theorem Moment.writes (hraw : parsed.Raw) (h : Moment parsed state scopes past) {type : Ty}
    (hn : n < parsed.size) (hrole : ∀ c, parsed.child? n 0 = some c → parsed.role c = .type)
    (hwrites : state.forest.Writes n type) : parsed.Writes n type := by
  have hfree := fun m => Kind.isConversion_of_fresh (hraw.fresh m).kind
  obtain ⟨top, htop, htype⟩ := hwrites
  obtain ⟨c, hc, hmem, hstands⟩ := h.grown.exists_child hn htop
  have hrole := hrole c hc
  obtain rfl := h.grown.eq_of_stands ⟨hraw.linked, hraw.ranked⟩ hfree hmem (by simp [hrole]) hstands
  exact ⟨top, hc, (h.grown.typeOf?_eq hraw (hraw.linked.lt_size hmem) (.inl hrole)).symm.trans htype⟩

/-! ## Functions -/

/-- A parameter is written with a type and nothing else. -/
theorem exists_parameter (hraw : parsed.Raw) (hrole : parsed.role n = .parameter) :
    ∃ name written, parsed.kind n = .parameter name none ∧ parsed.children n = [written] ∧
      parsed.role written = .type := by
  obtain ⟨name, hkind⟩ : ∃ name, parsed.kind n = .parameter name none := by
    have hfresh := (hraw.fresh n).kind
    rw [role, kind] at hrole
    rw [kind]
    cases hk : (parsed.node n).kind with
    | type part => cases hform : part.form <;> simp [hk, Kind.role, hform] at hrole
    | _ => simp_all [Kind.role, Kind.Fresh]
  have hholds := hraw.shaped n
  rw [hkind] at hholds
  obtain ⟨written, hchildren, hwritten⟩ := exists_single hholds
  exact ⟨name, written, hkind, hchildren, hwritten⟩

section Parameters

variable (hraw : parsed.Raw) (hlist : list ∈ parsed.children f) (hparams : parsed.role list = .parameters)

include hraw hparams

theorem role_of_mem_parameters {c : NodeId} (hc : c ∈ parsed.children list) :
    parsed.role c = .parameter := hraw.roles_parameters hparams _ (List.mem_map_of_mem hc)

include hlist

/-- The parameters of a function without a body declare nothing. -/
theorem not_declares_of_prototype (hnone : parsed.child? f 2 = none) {d : NodeId}
    (hbelow : parsed.Below d list) : ¬parsed.Declares d name := by
  intro hd
  rcases hbelow.eq_or_child with rfl | ⟨c, hc, hbelow⟩
  · have hdeclaring := hd.isDeclaring
    rw [hparams] at hdeclaring
    exact hdeclaring
  · have hrole := role_of_mem_parameters hraw hparams hc
    rcases hbelow.eq_or_child with rfl | ⟨written, hwritten, hbelow⟩
    · obtain ⟨name', written, hkind, -⟩ := exists_parameter hraw hrole
      cases hd with
      | declaration h | function h => simp [hkind] at h
      | parameter _ hlist' hf hbody =>
        rw [hraw.linked.parent_of_mem hc, Option.some.injEq] at hlist'
        subst hlist'
        rw [hraw.linked.parent_of_mem hlist, Option.some.injEq] at hf
        subst hf
        simp [hnone] at hbody
    · obtain ⟨name', written', -, hchildren, htype⟩ := exists_parameter hraw hrole
      obtain rfl : written = written' := by simpa [hchildren] using hwritten
      exact hraw.not_declares (by rw [htype]; trivial) hbelow hd

/-- A parameter of a function with a body is bound in the scope of the body. -/
theorem ensures_declareParameter_of (hsome : (parsed.child? f 2).isSome) {param : NodeId} {type : Ty}
    (hsplit : parsed.children list = left ++ param :: right) (henclosed : parsed.Enclosed param scopes)
    (h : Moment parsed state scopes (parsed.Met list left)) :
    Ensures (declareParameter f param type) state Fault.Any fun _ next =>
      Moment parsed next scopes (parsed.Met list (left ++ [param])) := by
  have hmem : param ∈ parsed.children list := by simp [hsplit]
  obtain ⟨name, written, hkind, hchildren, hwritten⟩ :=
    exists_parameter hraw (role_of_mem_parameters hraw hparams hmem)
  have hdeclares : parsed.Declares param name :=
    .parameter hkind (hraw.linked.parent_of_mem hmem) (hraw.linked.parent_of_mem hlist) hsome
  have hnoted := h.annotated param
  have hplain := hnoted.kind_eq hraw hdeclares.lt_size
  simp only [declareParameter, bind_iff, ensures_annotate, ensures_forest]
  split
  · next name' symbol hnow =>
    rw [hkind, hnow, Kind.plain, Kind.parameter.injEq] at hplain
    obtain rfl : name = name' := hplain.1
    simp only [bind_iff, ensures_onForest]
    refine ensures_declare_of fun table' hpushed hentered => ?_
    have hsight := fun {d} => inSight_child_iff hraw.linked hraw.ranked (d := d) hsplit
    have hpast : ¬parsed.Met list left param := fun hmet =>
      (hsight.mpr hmet).not_below hraw.linked hraw.ranked .refl
    refine ((hnoted.setType param type).bindTo hraw hdeclares henclosed hpast hentered
      (hpushed.plain (by simp [Symbol.signature?])) (by simp [hkind, Kind.isFunction]) _).congr fun d name' hd => ?_
    rw [met_behind_iff hraw.linked hraw.ranked hsplit, hsight]
    refine or_congr_right ⟨?_, fun hbelow => ?_⟩
    · rintro rfl
      exact .refl
    · rcases hbelow.eq_or_child with rfl | ⟨c, hc, hbelow⟩
      · rfl
      · obtain rfl : c = written := by simpa [hchildren] using hc
        exact absurd hd (hraw.not_declares (by rw [hwritten]; trivial) hbelow)
  · next hother =>
    rw [hkind] at hplain
    cases hnow : (Resolve.annotated state param).forest.kind param <;>
      simp_all [Kind.plain]

theorem ensures_declareParameters_of (hsome : (parsed.child? f 2).isSome)
    (henclosed : ∀ c ∈ parsed.children list, parsed.Enclosed c scopes) :
    ∀ {nodes left types state}, parsed.children list = left ++ nodes → types.length = nodes.length →
      Moment parsed state scopes (parsed.Met list left) →
      Ensures (declareParameters f nodes types) state Fault.Any fun _ next =>
        Moment parsed next scopes (parsed.Met list (parsed.children list)) := by
  intro nodes
  induction nodes with
  | nil =>
    intro left types state hsplit hlength h
    obtain rfl := List.eq_nil_of_length_eq_zero hlength
    rw [List.append_nil] at hsplit
    exact hsplit ▸ h
  | cons param nodes ih =>
    intro left types state hsplit hlength h
    obtain ⟨type, types, rfl⟩ := List.exists_cons_of_length_eq_add_one hlength
    simp only [declareParameters, bind_iff]
    refine (ensures_declareParameter_of hraw hlist hparams hsome hsplit
      (henclosed param (by simp [hsplit])) h).imp fun _ _ hm => ?_
    exact ih (by rw [hsplit, List.append_assoc]; rfl) (Nat.succ.inj hlength) hm

end Parameters

section Function

variable {inner : NodeId → Resolve Unit} (hraw : parsed.Raw) (hinner : Handles parsed inner)
  (h : Upcoming parsed state n scopes)

include hraw h

/-- The prototype of a function is what it has been written with. -/
theorem Upcoming.hasPrototype {written : NodeId} {others : List NodeId} {result : Ty}
    {types : List Ty} {top : NodeId} (hchildren : parsed.children n = written :: list :: others)
    (hwritten : parsed.role written = .type) (hparams : parsed.role list = .parameters)
    (hresult : state.forest.Writes n result) (htop : state.forest.child? n 1 = some top)
    (htypes : List.Forall₂ state.forest.Writes (state.forest.children top) types) :
    top = list ∧ state.forest.children list = parsed.children list ∧
      parsed.HasPrototype n result types := by
  have hw : parsed.Woven := ⟨hraw.linked, hraw.ranked⟩
  have hfree := fun m => Kind.isConversion_of_fresh (hraw.fresh m).kind
  have hmem : list ∈ parsed.children n := by simp [hchildren]
  have hlist : parsed.child? n 1 = some list := by simp [child?, hchildren]
  have hroles := fun c hc => role_of_mem_parameters hraw hparams (c := c) hc
  obtain rfl : top = list := Option.some.inj (htop.symm.trans
    (h.moment.grown.child?_eq hw hfree hlist (by simp [hparams])))
  have hsame : state.forest.children top = parsed.children top :=
    h.moment.grown.children_eq hw hfree (hraw.linked.lt_size hmem) fun c hc => by simp [hroles c hc]
  refine ⟨rfl, hsame, h.moment.writes hraw h.lt_size ?_ hresult, top, hlist, ?_⟩
  · intro c hc
    obtain rfl : written = c := by simpa [child?, hchildren] using hc
    exact hwritten
  · rw [hsame] at htypes
    refine ((List.forall₂_and_left _ _).mpr ⟨fun c hc => hc, htypes⟩).imp ?_
    rintro c type ⟨hc, hwrites⟩
    refine h.moment.writes hraw (hraw.linked.lt_size hc) (fun written' hwritten' => ?_) hwrites
    obtain ⟨_, written, -, hparts, hrole⟩ := exists_parameter hraw (hroles c hc)
    obtain rfl : written = written' := by simpa [child?, hparts] using hwritten'
    exact hrole

include hinner

/-- The parameters and the body of a function share its scope. -/
theorem Handles.body {written body : NodeId} {types : List Ty} {after : Resolution}
    (hfunction : (parsed.kind n).isFunction)
    (hchildren : parsed.children n = [written, list, body]) (hwritten : parsed.role written = .type)
    (hparams : parsed.role list = .parameters) (hbody : parsed.role body = .block)
    (hlength : types.length = (parsed.children list).length)
    (hm : Moment parsed after scopes (parsed.Met n [])) :
    Ensures (inScope do
      annotate list
      declareParameters n (parsed.children list) types
      annotate body
      each ((← forest).children body) inner) after Fault.Any fun _ next =>
        Moment parsed next scopes (parsed.Met n (parsed.children n)) := by
  have hw : parsed.Woven := ⟨hraw.linked, hraw.ranked⟩
  have hfree := fun m => Kind.isConversion_of_fresh (hraw.fresh m).kind
  obtain ⟨name, symbol, hkind⟩ : ∃ name symbol, parsed.kind n = .function name symbol := by
    cases hk : parsed.kind n <;> simp_all [Kind.isFunction]
  have hmem : list ∈ parsed.children n := by simp [hchildren]
  have hmemBody : body ∈ parsed.children n := by simp [hchildren]
  have hkindBody : parsed.kind body = .block := Kind.eq_block hbody
  have hopens : ∀ c, parsed.Opens n c := fun c => by simp [Opens, hkind]
  have henclosed : ∀ c ∈ parsed.children list, parsed.Enclosed c (n :: scopes) := fun c hc =>
    .through hc (by simp [Opens, Kind.eq_parameters hparams]) (.inside hmem (hopens _) h.enclosed)
  have henclosedBody : ∀ c ∈ parsed.children body, parsed.Enclosed c (n :: scopes) := by
    refine fun c hc => .through hc ?_ (.inside hmemBody (hopens _) h.enclosed)
    simp only [Opens, hkindBody, hraw.linked.parent_of_mem hmemBody]
    exact fun hnot => by simpa [hfunction] using hnot n rfl
  have hrolesBody : ∀ c ∈ parsed.children body, (parsed.role c).IsStatement := fun c hc =>
    hraw.roles_block hbody _ (List.mem_map_of_mem hc)
  -- Nothing that is in the scope of the function has been met yet.
  have henter : Moment parsed { after with table := after.table.enter } (n :: scopes)
      (parsed.Met n []) := by
    refine hm.enter (by simp [hkind]) fun d name hd hmet => ?_
    obtain ⟨hbelow, hne⟩ := hd.below hraw.ranked
    rcases hmet with hsight | ⟨b, hb, -⟩ | ⟨he, -⟩
    · exact hsight.not_below hraw.linked hraw.ranked hbelow
    · cases hb
    · exact hne he
  have hplain : (parsed.kind list).isFunction = false := by rw [Kind.eq_parameters hparams]; rfl
  have hfirst : Moment parsed { after with table := after.table.enter } (n :: scopes)
      (parsed.Met list []) :=
    (Moment.first hplain).mpr (((Moment.skip_mute [] hraw (by rw [hwritten]; trivial)).mpr
      henter).before [written] hraw hchildren)
  have hquiet : ¬(parsed.role list).IsDeclaring := by rw [hparams]; exact id
  have hquietBody : ¬(parsed.role body).IsDeclaring := by rw [hbody]; exact id
  simp only [ensures_inScope, bind_iff, ensures_annotate, ensures_forest]
  refine (ensures_declareParameters_of hraw hmem hparams (by simp [child?, hchildren]) henclosed
    rfl hlength (hfirst.annotated list)).imp fun _ _ hm₁ => ?_
  have hm₂ := ((Moment.last_quiet hquiet hm₁).behind [written] hraw hchildren).annotated body
  have hplainBody : (parsed.kind body).isFunction = false := by rw [hkindBody]; rfl
  rw [hm₂.grown.children_eq hw hfree (hraw.linked.lt_size hmemBody) fun c hc =>
    Role.ne_of_isStatement (hrolesBody c hc)]
  refine (hinner.inTurn hraw hplainBody hrolesBody henclosedBody rfl ((Moment.first hplainBody).mpr
    (hm₂.before [written, list] hraw hchildren))).imp fun _ _ hm₃ => ?_
  have hm₄ := (Moment.last_quiet hquietBody hm₃).behind [written, list] hraw hchildren
  exact hchildren ▸ hm₄.leave

theorem Handles.of_function {symbol : Option SymbolId}
    (hkind : state.forest.kind n = .function name symbol) :
    Ensures (function inner n name) state Fault.Any fun _ next =>
      Moment parsed next scopes (parsed.Behind n) := by
  have hkind' : parsed.kind n = .function name none := h.kind_eq hraw hkind
  have hholds := hraw.shaped n
  rw [hkind'] at hholds
  obtain ⟨written, list, others, hchildren, hwritten, hparams, hothers⟩ := exists_signature hholds
  have hfunction : (parsed.kind n).isFunction := by rw [hkind']; rfl
  have hmem : list ∈ parsed.children n := by simp [hchildren]
  simp only [function, bind_iff, ensures_forest]
  refine ensures_writtenType_of fun top result htop hresult => ensures_child_of fun slot hslot => ?_
  refine ensures_parameterTypes_of.imp ?_
  rintro types _ ⟨hunchanged, htypes⟩
  rw [hunchanged]
  obtain ⟨rfl, hsame, hprototype⟩ :=
    h.hasPrototype hraw hchildren hwritten hparams ⟨top, htop, hresult⟩ hslot htypes
  have hlength := htypes.length_eq
  rw [hsame] at hlength
  simp only [hsame]
  refine ensures_functionSymbol_of hprototype fun s table' session hentered hplain hsigned => ?_
  have hnone : ¬parsed.InSight n n := fun hsight => hsight.not_below hraw.linked hraw.ranked .refl
  have hm : ∀ session, Moment parsed
      { state with forest := (state.forest.bind n s).setType n result, table := table', session }
      scopes (parsed.Met n []) := fun session =>
    ((h.moment.bindTo hraw (.function hkind') h.enclosed hnone hentered hplain (fun _ => hsigned)
      session).setType n result).congr fun d _ _ => by simp [Met, hfunction]
  have hlast : ∀ {next : Resolution}, Moment parsed next scopes (parsed.Met n (parsed.children n)) →
      Moment parsed next scopes (parsed.Behind n) := fun hm => hm.last fun _ _ => hfunction
  simp only [ensures_onForest]
  rcases hothers with rfl | ⟨body, rfl, hbody⟩
  · have hnobody : state.forest.child? n 2 = none := by
      have hsome := h.moment.grown.isSome_child? h.lt_size 2
      simpa [child?, hchildren] using hsome
    simp only [hnobody, ensures_annotate]
    refine hlast (hchildren ▸ ?_)
    refine (Moment.skip [written] fun d name => not_declares_of_prototype hraw hmem hparams
      (by simp [child?, hchildren])).mpr ?_
    exact (Moment.skip_mute [] hraw (by rw [hwritten]; trivial)).mpr
      ((hm session).annotated slot)
  · have hfree := fun m => Kind.isConversion_of_fresh (hraw.fresh m).kind
    have hbody' : state.forest.child? n 2 = some body :=
      h.moment.grown.child?_eq ⟨hraw.linked, hraw.ranked⟩ hfree (by simp [child?, hchildren])
        (by simp [hbody])
    simp only [hbody']
    exact (hinner.body hraw h hfunction hchildren hwritten hparams hbody hlength.symm
      (hm session)).imp fun _ _ => hlast

end Function

/-- Resolving a statement takes the moment before it to the one behind it. -/
theorem handles_statementWithin (hraw : parsed.Raw) (levels : Nat) :
    Handles parsed (statementWithin levels) := by
  induction levels with
  | zero => exact fun _ => trivial
  | succ levels ih =>
    intro n state scopes h
    have h := h.annotated
    simp only [statementWithin, bind_iff, ensures_annotate, ensures_forest]
    split
    all_goals rename_i hkind
    · exact h.of_declaration hraw hkind
    · exact ih.of_function hraw h hkind
    · exact ih.of_block hraw h hkind
    · exact h.of_exprStatement hraw hkind
    · exact ih.of_ifElse hraw h hkind
    · exact ih.of_whileLoop hraw h hkind
    · exact ih.of_forLoop hraw h hkind
    · exact h.of_giveBack hraw hkind
    · exact h.of_jump hraw true hkind
    · exact h.of_jump hraw false hkind
    · exact h.of_nothing hraw hkind
    · exact trivial

theorem handles_statement (hraw : parsed.Raw) : Handles parsed statement := by
  intro n state scopes h
  simp only [statement, bind_iff, ensures_forest]
  exact handles_statementWithin hraw _ h

/-! ## Programs -/

/-- The innermost scope lists routines for the symbols from `first` on, besides what it listed
before. -/
structure Stocks (routines : List Machine.Routine) (before after : SymbolTable) : Prop where
  scopes : ∃ scope scope' outer, before.scopes = scope :: outer ∧ after.scopes = scope' :: outer ∧
    ∀ name s, scope'.lookup name = some s ↔ scope.lookup name = some s ∨
      ∃ i routine, routines[i]? = some routine ∧ routine.name = name ∧ s = before.size + i
  size : after.size = before.size + routines.length
  old : before.size ≤ after.size ∧ ∀ s, s < before.size → after.symbol s = before.symbol s
  symbol : ∀ i routine, routines[i]? = some routine → before.size + i < after.size ∧
    ∃ depth, after.symbol (before.size + i) = { routineSymbol routine with depth }

theorem ensures_declareRoutines_of {routines : List Machine.Routine} :
    ∀ {state : Resolution} {scope : Scope} {outer : List Scope},
      state.table.scopes = scope :: outer →
      Ensures (declareRoutines routines) state Fault.Any fun _ next =>
        ∃ table, next = { state with table } ∧ Stocks routines state.table table := by
  induction routines with
  | nil =>
    intro state scope outer hscopes
    exact ⟨state.table, rfl, ⟨scope, scope, outer, hscopes, hscopes, by simp⟩, rfl, ⟨Nat.le_refl _,
      fun _ _ => rfl⟩, by simp⟩
  | cons routine routines ih =>
    intro state scope outer hscopes
    simp only [declareRoutines, bind_iff]
    refine ensures_declare_of fun table' hpushed hentered => ?_
    obtain ⟨head, head', outer', hbefore, hafter, hlookup⟩ := hentered.gains
    refine (ih hafter).imp ?_
    rintro _ _ ⟨table, rfl, ⟨first, last, outer'', hfirst, hlast, hlist⟩, htotal, ⟨hsize, hold⟩, hnew⟩
    have hsize' := hpushed.size_eq
    simp only [hsize'] at htotal hsize hold hnew hlist
    rw [hafter] at hfirst
    obtain ⟨rfl, rfl⟩ := List.cons.inj hfirst
    refine ⟨table, rfl, ⟨head, last, outer', hbefore, hlast, fun name s => ?_⟩, ?_, ⟨?_, ?_⟩, ?_⟩
    · rw [hlist, hlookup, or_assoc]
      refine or_congr_right ⟨?_, ?_⟩
      · rintro (⟨rfl, rfl⟩ | ⟨i, other, hi, rfl, rfl⟩)
        · exact ⟨0, routine, rfl, rfl, rfl⟩
        · exact ⟨i + 1, other, hi, rfl, Nat.add_right_comm ..⟩
      · rintro ⟨i, other, hi, rfl, rfl⟩
        cases i with
        | zero =>
          obtain rfl : routine = other := Option.some.inj hi
          exact .inl ⟨rfl, rfl⟩
        | succ i => exact .inr ⟨i, other, hi, rfl, Nat.add_right_comm state.table.size i 1⟩
    · rw [htotal, List.length_cons]
      omega
    · omega
    · intro s hs
      rw [hold s (by omega), hpushed.symbol_old hs]
    · intro i other hi
      cases i with
      | zero =>
        obtain rfl : routine = other := Option.some.inj hi
        refine ⟨by omega, state.table.depth, ?_⟩
        rw [Nat.add_zero, hold _ (by omega), hpushed.symbol_new]
      | succ i =>
        obtain ⟨hlt, depth, hsymbol⟩ := hnew i other hi
        rw [Nat.add_right_comm] at hlt hsymbol
        exact ⟨hlt, depth, hsymbol⟩

section Program

variable {root : NodeId} (hparsed : parsed.Parsed root)

include hparsed

/-- Nothing comes before the root. -/
theorem not_inSight_root : ¬parsed.InSight d root := by
  have hnoparent : ∀ {n}, parsed.Below root n → root = n := by
    intro n hbelow
    by_contra hne
    obtain ⟨p, hparent, -⟩ := hbelow.exists_parent hparsed.raw.linked hne
    rw [hparsed.parent_root] at hparent
    cases hparent
  rintro (⟨p, left, c, right, hchildren, -, hbelow⟩ | ⟨-, hbelow, hne⟩)
  · obtain rfl := hnoparent hbelow
    have hparent := hparsed.raw.linked.parent_of_mem (p := p) (c := root) (by simp [hchildren])
    rw [hparsed.parent_root] at hparent
    cases hparent
  · exact hne (hnoparent hbelow)

/-- The moment at the beginning: the routines of the library have been declared, nothing else. -/
theorem Moment.of_stocks {table table' : SymbolTable} (session : Session)
    (hempty : table.scopes = [[]]) (hsize : table.size = 0)
    (hstocks : Stocks Machine.Routine.catalog table table') :
    Moment parsed { forest := parsed, table := table', session } [root] (parsed.Met root []) := by
  have hraw := hparsed.raw
  have hnone : ∀ d, parsed.symbol? d = none := by
    intro d
    have hfresh := (hraw.fresh d).kind
    rw [symbol?, kind]
    cases hk : (parsed.node d).kind <;> simp_all [Kind.Fresh, Kind.symbol?]
  obtain ⟨scope, scope', outer, hbefore, hafter, hlookup⟩ := hstocks.scopes
  rw [hempty] at hbefore
  obtain ⟨rfl, rfl⟩ := List.cons.inj hbefore
  refine ⟨.refl ⟨hraw.linked, hraw.ranked⟩, ?_, ?_, ?_, ?_, ?_, ?_, ?_, ?_, ?_⟩
  · rw [hafter]
    refine .cons (fun name s => ?_) .nil
    simp only [hlookup, hnone, hsize, IsRoutine, hparsed.kind_root, List.lookup_nil, reduceCtorEq,
      and_false, exists_false, false_or, true_and]
    constructor
    · rintro ⟨i, routine, hi, hname, rfl⟩
      exact ⟨routine, by rwa [Nat.zero_add], hname⟩
    · rintro ⟨routine, hs, hname⟩
      exact ⟨s, routine, hs, hname, (Nat.zero_add s).symm⟩
  · intro d name hd
    simp only [hnone, Option.isSome_none, Bool.false_eq_true, false_iff]
    rintro (hsight | ⟨b, hb, -⟩ | ⟨rfl, hfunction⟩)
    · exact not_inSight_root hparsed hsight
    · cases hb
    · rw [hparsed.kind_root] at hfunction
      cases hfunction
  · intro _ d _ _ s _ _ _ hs
    rw [hnone] at hs
    cases hs
  · intro _ d _ _ s _ _ hs
    rw [hnone] at hs
    cases hs
  · intro u _ s _ hs
    rw [hnone] at hs
    cases hs
  · intro f s _ hs
    rw [hnone] at hs
    cases hs
  · intro s routine hroutine
    obtain ⟨hlt, depth, hsymbol⟩ := hstocks.symbol s routine hroutine
    rw [hsize, Nat.zero_add] at hsymbol
    rw [hsymbol]
    exact ⟨_, rfl, rfl, rfl, rfl⟩
  · intro s signature hsignature _
    have hlt := SymbolTable.lt_size_of_signature hsignature
    rw [hstocks.size, hsize, Nat.zero_add] at hlt
    exact ⟨_, List.getElem?_eq_getElem hlt⟩
  · constructor
    · intro d _ _ _ hs
      rw [hnone] at hs
      cases hs
    · intro _ d _ _ _ _ hs
      rw [hnone] at hs
      cases hs
    · intro _ _ d _ _ _ _ _ _ hs
      rw [hnone] at hs
      cases hs

/-- Resolving a file ends with the moment at which all of its declarations are past. -/
theorem ensures_file_of (session : Session) :
    Ensures (file root) { forest := parsed, session } Fault.Any fun _ next =>
      Moment parsed next [] fun d => parsed.Below d root := by
  have hraw := hparsed.raw
  have hkind := hparsed.kind_root
  have hholds := hraw.shaped root
  rw [hkind] at hholds
  have hfree := fun m => Kind.isConversion_of_fresh (hraw.fresh m).kind
  have hplain : (parsed.kind root).isFunction = false := by rw [hkind]; rfl
  have hroles : ∀ c ∈ parsed.children root, (parsed.role c).IsStatement := by
    intro c hc
    rcases hholds _ (List.mem_map_of_mem hc) with hrole | hrole <;> rw [hrole] <;> trivial
  have henclosed : ∀ c ∈ parsed.children root, parsed.Enclosed c [root] := fun c hc =>
    .inside hc (by simp [Opens, hkind]) (.top hparsed.parent_root)
  have hquiet : ¬(parsed.role root).IsDeclaring := by rw [hparsed.role_root]; exact id
  have hfirst := fun table' (hstocks : Stocks Machine.Routine.catalog (SymbolTable.enter {}) table') =>
    Moment.of_stocks hparsed session rfl rfl hstocks
  unfold file
  simp only [ensures_inScope, bind_iff, ensures_annotate, ensures_forest, ensures_table,
    get_iff, modify_iff]
  refine (ensures_declareRoutines_of rfl).imp ?_
  rintro _ _ ⟨table', rfl, hstocks⟩
  -- Noting the root changes nothing that the moment is about.
  have hm : Moment parsed { annotated { forest := parsed, table := SymbolTable.enter {}, session } root
      with table := table' } [root] (parsed.Met root []) :=
    (hfirst table' hstocks).update ⟨rfl, rfl, rfl, rfl, rfl⟩ rfl
  rw [hm.grown.children_eq ⟨hraw.linked, hraw.ranked⟩ hfree hparsed.lt_size fun c hc =>
    Role.ne_of_isStatement (hroles c hc)]
  have hhandles : Handles parsed statement := handles_statement hraw
  refine (hhandles.inTurn hraw hplain hroles henclosed rfl hm).imp
    fun _ state₂ hm₂ => ?_
  refine (ensures_checkPending parsed _ _).mono ?_ fun _ _ _ => trivial
  rintro _ _ ⟨rfl, -⟩
  refine ((Moment.last_quiet hquiet hm₂).leave.pending []).congr fun d _ _ => ?_
  exact or_iff_right (not_inSight_root hparsed)

-- The routines do not matter any more, and looking into their code takes long.
seal Machine.Routine.catalog

/-- What is true at the end of a resolution that succeeds. -/
theorem moment_of_program {session : Session} {resolution : Resolution}
    (h : program parsed session = .ok resolution) :
    Moment parsed resolution [] fun d => parsed.Below d root := by
  have hfile := ensures_file_of hparsed session
  simp only [program, hparsed.root_eq] at h
  split at h
  · next hrun =>
    cases h
    exact hfile.of_ok hrun
  · cases h

end Program

end Resolve

end MiniC
