import MiniC.Proofs.Resolve.Control

/-!
# Resolving variables

The type of a variable is the written one, with the size of the initializer list if the brackets are
empty. The initializer is resolved before the name is declared, and what it holds has the type of the
variable or of its elements.
-/

namespace MiniC.Resolve

open Forest Ensures

variable {parsed : Forest} {state start state' : Resolution} {n list : NodeId}
  {done todo : List NodeId} {type element : Ty}

/-- The type that a variable is written with. -/
theorem exists_written {written : NodeId} (hraw : parsed.Raw) (h : Ready parsed state.forest written)
    (hlt : written < parsed.size) (hsize : parsed.size ≤ state.forest.size)
    (hrole : parsed.role written = .type ∨ parsed.role written = .array) :
    ∃ type, state.forest.typeOf? written = some type ∧ type.Shallow ∧
      (type.isArray = false ∧ writtenSize (state.forest.kind written) = none ∨
        ∃ element size constant, type = .array element (size.getD 0) constant ∧
          writtenSize (state.forest.kind written) = some size) := by
  have hlevels : written < state.forest.size + 1 := Nat.lt_succ_of_lt (Nat.lt_of_lt_of_le hlt hsize)
  rw [typeOf?, h.typeWithin_eq, h.kind_eq]
  rcases hrole with hrole | hrole
  · obtain ⟨type, htype, hflat⟩ := hraw.exists_typeWithin hlevels hrole
    refine ⟨type, htype, hflat.shallow, .inl ⟨?_, ?_⟩⟩
    · cases type with
      | base name => cases name <;> rfl
      | pointer => rfl
      | array => exact hflat.elim
    · rw [role] at hrole
      unfold writtenSize
      split
      · next part hpart =>
        cases hform : part.form <;> simp_all [Kind.role]
      · rfl
  · obtain ⟨part, size, element, hkind, hform, htype, hflat⟩ :=
      hraw.exists_arrayWithin hlevels hrole
    refine ⟨_, htype, hflat, .inr ⟨element, size, part.constant, rfl, ?_⟩⟩
    simp [writtenSize, hkind, hform]

/-- Initializers brought to the type of the elements one after the other. -/
theorem ensures_items (hraw : parsed.Raw) (hrole : parsed.role list = .initializers)
    (helement : element.Shallow) (hvisible : Visible parsed start.table (parsed.owningFunction list))
    (hp : Progress parsed start state list done todo)
    (hitems : ∀ c ∈ todo, parsed.role c = .expression)
    (hdone : ∀ d ∈ done, state.forest.HasType d element ∧ state.forest.Brought parsed d [element]) :
    Ensures (each todo fun item => do
        let item ← expression item
        let _ ← convert item element) state (Refused parsed) fun _ state' =>
      ∃ tops, tops.length = (done ++ todo).length ∧ Progress parsed start state' list tops [] ∧
        ∀ d ∈ tops, state'.forest.HasType d element ∧ state'.forest.Brought parsed d [element] := by
  have hplain : (parsed.kind list).isFunction = false := by
    rw [role] at hrole
    cases hk : parsed.kind list <;> simp_all [Kind.role, Kind.isFunction]
  induction todo generalizing state done with
  | nil =>
    rw [each, pure_iff]
    exact ⟨done, by rw [List.append_nil], hp, hdone⟩
  | cons c todo ih =>
    have hc := hitems c List.mem_cons_self
    have hawaits : Awaits parsed state c list := by
      refine hp.awaits hraw hc hplain hvisible fun he => ?_
      rw [← hp.role_eq, hp.consistent.grown.role_eq hp.lt_size, hrole] at he
      cases he
    simp only [each, bind_iff, pure_iff]
    refine (ensures_coerced hraw hawaits helement).imp fun _ _ hboth => hboth.imp ?_
    rintro top state₁ ⟨he, hitem⟩
    obtain ⟨hp₁, hkeep⟩ := hp.step hraw hplain he
    have hr := he.retains hraw hawaits
    refine (ih hp₁ (fun d hd => hitems d (List.mem_cons_of_mem _ hd)) ?_).imp ?_
    · intro d hd
      rcases List.mem_append.mp hd with hd | hd
      · obtain ⟨htype, hbrought⟩ := hdone d hd
        exact ⟨htype.agrees (.of_node (hkeep d hd)), hbrought.mono fun m _ => hr m⟩
      · exact List.mem_singleton.mp hd ▸ hitem
    · rintro _ state' ⟨tops, hlength, hp', htops⟩
      refine ⟨tops, ?_, hp', htops⟩
      simpa using hlength

/-- What a list of initializers ensures of the type of the variable, and what is in the list. -/
structure ListFits (parsed forest : Forest) (function : Option NodeId) (list : NodeId) (type : Ty) :
    Prop where
  typed : forest.type? list ≠ none
  fits : ∃ element size constant, type = .array element size constant ∧
    (forest.children list).length ≤ size ∧
    ∀ item ∈ forest.children list,
      forest.HasType item element ∧ (forest.node item).function = function
  brought : ∃ element size constant, type = .array element size constant ∧
    ∀ item ∈ forest.children list, forest.Brought parsed item [element]

/-- Types of variables whose elements are the same can be exchanged. -/
theorem ofVariable_array {size size' : Nat} {constant constant' : Bool}
    (h : (Ty.array element size constant).OfVariable) :
    (Ty.array element size' constant').OfVariable :=
  ⟨h.shallow, rfl, fun _ he => h.element_not_void _ he⟩

theorem ensures_initializerList {name : String} {line : Nat} {size : Option (Option Nat)}
    (hraw : parsed.Raw) (h : Walked parsed start state n done (list :: todo))
    (hrole : parsed.role list = .initializers) (htype : type.OfVariable)
    (hsize : type.isArray = false ∨ ∃ element size' constant,
      type = .array element (size'.getD 0) constant ∧ size = some size') :
    Ensures (initializerList name line type size list) state (Refused parsed) fun type' state' =>
      Walked parsed start state' n (done ++ [list]) todo ∧ type'.OfVariable ∧
        ListFits parsed state'.forest (parsed.owningFunction n) list type' := by
  obtain ⟨hmem, hready, -⟩ := h.waiting list List.mem_cons_self
  have hlt : list < parsed.size := hraw.linked.lt_size hmem
  obtain ⟨hconsistent, hn, hnode⟩ := h.consistent.annotated hraw hlt hready
  have howner := owningFunction_of_mem hraw hmem h.plain
  have hholds := hraw.shaped list
  have hkind : parsed.kind list = .initializers := by
    rw [role] at hrole
    cases hk : parsed.kind list with
    | type part => cases hform : part.form <;> simp [hk, Kind.role, hform] at hrole
    | _ => simp_all [Kind.role]
  rw [hkind] at hholds
  simp only [initializerList]
  split
  · exact Refused.of_plain rfl
  · next element' helement =>
    obtain ⟨element, size', constant, rfl, rfl⟩ := hsize.resolve_left fun harray => by
      cases type with
      | array => cases harray
      | base | pointer => cases helement
    obtain rfl : element = element' := Option.some.inj helement
    have hflat : element.Flat := htype.shallow
    have hchildren : (annotated state list).forest.children list = parsed.children list := by
      rw [children, hnode, children]
    have hvisible : Visible parsed (annotated state list).table (parsed.owningFunction list) := by
      rw [howner]
      exact h.visible
    have hp : Progress parsed (annotated state list) (annotated state list) list []
        (parsed.children list) :=
      .of_ready hconsistent hlt hchildren fun c hc => (hready.part hraw hc).noted hraw hn hc
    -- What is left to do once the size of the variable is known.
    have hrest : ∀ {state₁ : Resolution} {tops : List NodeId} {size : Nat} {constant : Bool},
        Progress parsed (annotated state list) state₁ list tops [] →
        (∀ d ∈ tops, state₁.forest.HasType d element ∧
          state₁.forest.Brought parsed d [element]) → tops.length ≤ size →
        Walked parsed start
            { state₁ with forest := state₁.forest.setType list (.array element size constant) } n
            (done ++ [list]) todo ∧
          (Ty.array element size constant).OfVariable ∧
          ListFits parsed (state₁.forest.setType list (.array element size constant))
            (parsed.owningFunction n) list (.array element size constant) := by
      intro state₁ tops size constant hp₁ hitems hlength
      have hlt₁ : list < state₁.forest.size :=
        Nat.lt_of_lt_of_le hlt hp₁.consistent.grown.size_le
      have hnode₁ : (state₁.forest.setType list (.array element size constant)).node list =
          { state₁.forest.node list with type := some (.array element size constant) } := by
        rw [setType, node_update _ _ _ _ hlt₁, if_pos rfl]
      have hn₁ := noted_setType hlt₁ (.array element size constant)
      have hkind₁ : state₁.forest.kind list = .initializers := by
        rw [hp₁.kind_eq, kind, hnode, ← hkind, kind]
      have hkind₂ : (state₁.forest.setType list (.array element size constant)).kind list =
          .initializers := by rw [kind, hnode₁, ← hkind₁, kind]
      have hconsistent₁ : Consistent parsed { state₁ with
          forest := state₁.forest.setType list (.array element size constant) } := by
        refine hp₁.consistent.noted hraw hn₁ (fun he => ?_) (fun _ => ?_) (by rw [hkind₁, hkind₂])
          fun name s hcall => ?_
        · rw [Forest.role, hkind₁] at he
          cases he
        · rw [hkind₁, hkind₂]
          exact ⟨rfl, fun hne => absurd rfl hne⟩
        · rw [hkind₂] at hcall
          cases hcall
      have hadvanced : Advanced parsed state { state₁ with
          forest := state₁.forest.setType list (.array element size constant) } list := by
        have htable : state₁.table = state.table := hp₁.table_eq
        have hinside : Inside parsed state.forest state₁.forest list :=
          (Inside.of_noted hn).trans hp₁.inside
        refine ⟨hinside.trans (.of_noted hn₁), .of_eq htable hp₁.session_eq,
          hconsistent₁, ?_, ?_, ?_, ?_⟩
        · exact htable ▸ h.scopes
        · rw [htable]
        · rw [htable]
          exact hvisible
        · refine fun m hm hstatement => absurd hstatement (hraw.not_isStatement ?_ hm)
          rw [hrole]
          trivial
      have hitem : ∀ d ∈ tops,
          (state₁.forest.setType list (.array element size constant)).node d =
            state₁.forest.node d := by
        intro d hd
        refine hn₁.node_eq d (hp₁.consistent.grown.ranked.ne_of_mem ?_)
        rwa [hp₁.children_eq, List.append_nil]
      have hr := hn₁.retains fun he => by rw [Forest.role, hkind₁] at he; cases he
      refine ⟨(h.advance hraw (by simp [hrole]) hadvanced).1, ofVariable_array htype, ?_,
        ⟨element, size, constant, rfl, ?_, ?_⟩, ⟨element, size, constant, rfl, ?_⟩⟩
      · rw [type?, hnode₁]
        exact Option.some_ne_none _
      · rwa [hn₁.children, hp₁.children_eq, List.append_nil]
      · intro d hd
        rw [hn₁.children, hp₁.children_eq, List.append_nil] at hd
        rw [hitem d hd, ← howner]
        exact ⟨(hitems d hd).1.agrees (.of_node (hitem d hd)), (hp₁.resolved d hd).2.2⟩
      · intro d hd
        rw [hn₁.children, hp₁.children_eq, List.append_nil] at hd
        exact (hitems d hd).2.mono fun m _ => hr m
    simp only [bind_iff, ensures_annotate, ensures_forest, hchildren]
    refine (ensures_items hraw hrole hflat.shallow hvisible hp
      (fun c hc => hholds _ (List.mem_map_of_mem hc)) (by simp)).imp ?_
    rintro _ state₁ ⟨tops, hlength, hp₁, hitems⟩
    rw [List.nil_append] at hlength
    cases size' with
    | none =>
      simp only [bind_iff, ite_iff, ensures_refuse, ensures_onForest, pure_iff]
      refine ⟨fun _ => Refused.of_plain rfl, fun _ => ?_⟩
      exact hrest hp₁ hitems (Nat.le_of_eq hlength)
    | some size =>
      simp only [bind_iff, ite_iff, ensures_refuse, ensures_onForest, pure_iff]
      refine ⟨fun _ => Refused.of_plain rfl, fun hfits => ?_⟩
      exact hrest hp₁ hitems (hlength ▸ Nat.le_of_not_lt hfits)

/-- What the initializer of a variable ensures, once the written type has been looked at. -/
theorem ensures_initializer {name : String} {line : Nat} {size : Option (Option Nat)}
    {written : NodeId} (hraw : parsed.Raw) (h : Walked parsed start state n [written] todo)
    (htodo : todo = [] ∨ ∃ initial, todo = [initial] ∧
      (parsed.role initial = .expression ∨ parsed.role initial = .initializers))
    (htype : type.OfVariable)
    (hsize : type.isArray = false ∨ ∃ element size' constant,
      type = .array element (size'.getD 0) constant ∧ size = some size') :
    Ensures (initializer n name line type size) state (Refused parsed) fun type' state' =>
      ∃ done, Walked parsed start state' n done [] ∧ type'.OfVariable ∧
        InitialRule state'.forest (parsed.owningFunction n) type' done ∧
        InitialSlots parsed state'.forest type' done := by
  simp only [initializer, bind_iff, ensures_forest]
  rcases htodo with rfl | ⟨initial, rfl, hrole⟩
  · have hnone : state.forest.child? n 1 = none := by
      rw [child?, h.children_eq]
      rfl
    simp only [hnone, ite_iff, pure_iff]
    exact ⟨fun _ => Refused.of_plain rfl, fun _ => ⟨_, h, htype, trivial, trivial⟩⟩
  · have hchild : state.forest.child? n 1 = some initial := h.child?_eq
    obtain ⟨hmem, hready, -⟩ := h.waiting initial List.mem_cons_self
    have hlt : initial < parsed.size := hraw.linked.lt_size hmem
    have hkind : state.forest.kind initial = .initializers ↔
        parsed.role initial = .initializers := by
      rw [hready.kind_eq, role]
      cases hk : parsed.kind initial with
      | type part => cases hform : part.form <;> simp [Kind.role, hform]
      | _ => simp [Kind.role]
    simp only [hchild, ite_iff, hkind]
    refine ⟨fun hlist => ?_, fun hlist => ?_⟩
    · refine (ensures_initializerList hraw h hlist htype hsize).imp ?_
      rintro type' state' ⟨hw, htype', htyped, hfits, hbrought⟩
      refine ⟨_, hw, htype', ?_⟩
      have hrole' : state'.forest.role initial = .initializers :=
        (hw.consistent.grown.role_eq hlt).trans hlist
      simp only [List.cons_append, List.nil_append, InitialRule, InitialSlots, hrole', reduceCtorEq,
        if_false]
      exact ⟨⟨htyped, hfits⟩, htyped, hbrought⟩
    · have hexpression := hrole.resolve_right hlist
      simp only [bind_iff, ensures_refuse, pure_iff]
      refine ⟨fun _ => Refused.of_plain rfl, fun harray => ?_⟩
      refine (ensures_coerced hraw (h.awaits hraw hexpression) htype.shallow).imp
        fun _ _ hboth => hboth.imp ?_
      rintro top state' ⟨he, htop, hbrought⟩
      obtain ⟨hw, -⟩ := h.evaluate hraw hexpression he
      refine ⟨_, hw, htype, ?_⟩
      simp only [List.cons_append, List.nil_append, InitialRule, InitialSlots, he.role, if_true]
      exact ⟨⟨by simpa using harray, htop⟩, hbrought⟩

/-- No statement is below a variable. -/
theorem not_isStatement_of_declaration {name : String} {symbol : Option SymbolId} {m : NodeId}
    (hraw : parsed.Raw) (hkind : parsed.kind n = .declaration name symbol) (hm : parsed.Below m n)
    (hne : m ≠ n) : ¬(parsed.role m).IsStatement := by
  obtain ⟨c, hc, hbelow⟩ := hm.eq_or_child.resolve_left hne
  refine hraw.not_isStatement ?_ hbelow
  have hholds := hraw.shaped n
  rw [hkind] at hholds
  obtain ⟨written, hwritten, hroles⟩ := hholds
  have hmem : parsed.role c ∈ parsed.roles n := List.mem_map_of_mem hc
  rcases hroles with hroles | hroles | hroles <;> rcases hwritten with rfl | rfl <;>
    simp only [hroles, List.mem_cons, List.not_mem_nil, or_false] at hmem
  · exact hmem ▸ trivial
  · exact hmem ▸ trivial
  all_goals
    rcases hmem with hmem | hmem
    · exact hmem ▸ trivial
    · exact hmem ▸ trivial

/-- A variable is settled when its symbol is in the table and the node is bound. -/
theorem advanced_of_variable {name : String} {bound : Option SymbolId} {symbol : Symbol}
    {table' : SymbolTable} {scope : Scope} {scopes : List Scope} (hraw : parsed.Raw)
    (h : Entered parsed state n) (hkind : parsed.kind n = .declaration name bound)
    (hw : Walked parsed state state' n done []) (htype : type.OfVariable)
    (hinitial : InitialRule state'.forest (parsed.owningFunction n) type done)
    (hslots : InitialSlots parsed state'.forest type done)
    (hscopes : state'.table.scopes = scope :: scopes) (hp : state'.table.Pushed table' symbol)
    (hscopes' : table'.scopes = ((symbol.name, state'.table.size) :: scope) :: scopes)
    (hsymbol : symbol.kind = .variableAt n) (hsymbolType : symbol.type = type)
    (hframe : symbol.frame = parsed.owningFunction n) :
    Advanced parsed state { state' with
      forest := (state'.forest.setType n type).bind n state'.table.size, table := table' } n := by
  obtain ⟨depth, hdepth, hnode⟩ := h.node_eq
  have hnode' : state'.forest.node n = { parsed.node n with
      scope := depth, function := parsed.owningFunction n, children := done } := by
    rw [hw.node_eq, hnode, List.append_nil]
  have hkind' : state'.forest.kind n = .declaration name bound := by
    rw [kind, hnode', ← hkind, kind]
  have hnone : bound = none := by
    have hfresh := (hraw.fresh n).kind
    rwa [show (parsed.node n).kind = _ from hkind] at hfresh
  have hrole : state'.forest.role n = .declaration := by
    rw [role, hkind']
    rfl
  obtain ⟨hn, hfinal, hconsistent⟩ := hw.consistent.bindVariable hraw h.lt_size
    (by rw [hkind', hnone]; rfl) (.inl hrole) hp hsymbol (hsymbolType ▸ htype) hframe
    (fun hparameter => by rw [role, hkind] at hparameter; cases hparameter)
  rw [hsymbolType] at hn hfinal hconsistent
  generalize (state'.forest.setType n type).bind n state'.table.size = other
    at hn hfinal hconsistent ⊢
  rw [hkind', hnode'] at hfinal
  have hbound : other.kind n = .declaration name (some state'.table.size) := by
    rw [kind, hfinal]
    rfl
  have hlater : Later state' { state' with forest := other, table := table' } :=
    ⟨hp.grew, Nat.le_refl _, rfl⟩
  have htail : state'.table.scopes.tail = state.table.scopes.tail := hw.outer
  refine ⟨hw.inside.trans (.of_noted hn), hw.later.trans hlater, hconsistent, ?_, ?_, ?_, ?_⟩
  · rw [hscopes']
    exact List.cons_ne_nil _ _
  · rw [hscopes', ← htail, hscopes]
    rfl
  · exact hw.visible.declared hscopes hp hscopes' hframe
  · intro m hm hstatement
    obtain rfl : m = n := by
      by_contra hne
      exact not_isStatement_of_declaration hraw hkind hm hne hstatement
    have htyped : ∀ d, state'.forest.type? d ≠ none → d ≠ m := by
      rintro d hd rfl
      rw [type?, hnode'] at hd
      exact hd (hraw.fresh d).type
    refine ⟨?_, ?_, ?_, ?_, ?_⟩
    · rw [hfinal]
      exact hdepth
    · rw [hfinal]
    · intro d hd hexpression
      have hd' : d ∈ done := by rwa [children, hfinal] at hd
      rw [hn.role] at hexpression
      obtain ⟨hdtyped, hfunction⟩ := hw.parts d hd' hexpression
      rw [type?, hn.node_eq d (htyped d hdtyped), hfinal]
      exact ⟨hdtyped, hfunction⟩
    · simp only [StatementRule, hbound, type?, hfinal, children]
      refine ⟨_, type, rfl, rfl, hinitial.mono (fun d _ => hn.role d) (fun d _ _ => hn.children d)
        (fun d hd => hn.type_eq (htyped d hd)) fun d hd => by rw [hn.node_eq d (htyped d hd)]⟩
    · simp only [SlotsRule, hbound, type?, hfinal, children]
      have hr : state'.forest.Retains other := hn.retains fun he => by rw [hrole] at he; cases he
      exact ⟨type, rfl, hslots.imp (fun d _ => hn.role d)
        (fun d _ hd => ⟨hn.children d, hn.type_eq (htyped d hd)⟩)
        fun hs => hs.mono fun m _ => hr m⟩

/-- A variable is settled once it has been declared. -/
theorem ensures_declaration {name : String} {symbol : Option SymbolId} (hraw : parsed.Raw)
    (h : Entered parsed state n) (hkind : parsed.kind n = .declaration name symbol) :
    Ensures (declaration n name) state (Refused parsed) fun _ state' =>
      Advanced parsed state state' n := by
  have hholds := hraw.shaped n
  rw [hkind] at hholds
  obtain ⟨writtenRole, hwritten, hroles⟩ := hholds
  obtain ⟨written, others, hchildren, rfl, hothers⟩ : ∃ written others,
      parsed.children n = written :: others ∧ parsed.role written = writtenRole ∧
        (others = [] ∨ ∃ initial, others = [initial] ∧
          (parsed.role initial = .expression ∨ parsed.role initial = .initializers)) := by
    rcases hroles with hroles | hroles | hroles
    · obtain ⟨written, hchildren, hrole⟩ := exists_single hroles
      exact ⟨written, [], hchildren, hrole, .inl rfl⟩
    · obtain ⟨written, initial, hchildren, hrole, hinitial⟩ := exists_pair hroles
      exact ⟨written, [initial], hchildren, hrole, .inr ⟨initial, rfl, .inl hinitial⟩⟩
    · obtain ⟨written, initial, hchildren, hrole, hinitial⟩ := exists_pair hroles
      exact ⟨written, [initial], hchildren, hrole, .inr ⟨initial, rfl, .inr hinitial⟩⟩
  have hkind' : (parsed.kind n).isFunction = false ∧ (parsed.kind n).isLoop = false := by
    rw [hkind]
    exact ⟨rfl, rfl⟩
  have hw := (h.started hraw hkind'.1 hkind'.2).walked
  rw [hchildren] at hw
  obtain ⟨hmem, hready, -⟩ := hw.waiting written List.mem_cons_self
  have hw₁ := hw.skip hraw (by rcases hwritten with he | he <;> simp [he])
    (by rcases hwritten with he | he <;> rw [he] <;> trivial)
  have hchild : state.forest.child? n 0 = some written := hw.child?_eq
  obtain ⟨type, htype, hshallow, hsize⟩ := exists_written hraw hready
    (hraw.linked.lt_size hmem) h.consistent.grown.size_le hwritten
  simp only [declaration, bind_iff, ensures_forest, ensures_child hchild,
    ensures_writtenType hchild htype, ite_iff, ensures_refuse]
  refine ⟨fun _ => Refused.of_plain rfl, fun hvoid => ⟨fun _ =>
    Refused.of_plain rfl, fun _ => ?_⟩⟩
  have hvariable : type.OfVariable := by
    simp only [Bool.or_eq_true, not_or, Bool.not_eq_true] at hvoid
    refine ⟨hshallow, hvoid.1, fun element helement => ?_⟩
    simpa [helement] using hvoid.2
  refine (ensures_initializer hraw hw₁ hothers hvariable ?_).imp ?_
  · refine hsize.imp (·.1) ?_
    rintro ⟨element, size, constant, rfl, hwrittenSize⟩
    exact ⟨element, size, constant, rfl, hwrittenSize⟩
  · rintro type' state' ⟨done, hw', htype', hinitial, hslots⟩
    obtain ⟨scope, scopes, hscopes⟩ := List.exists_cons_of_ne_nil hw'.scopes
    have hn := noted_setType hw'.size_lt type'
    have howner : (state'.forest.setType n type').owningFunction n = parsed.owningFunction n :=
      ((hw'.around hraw h.around).noted hn).owningFunction_eq hraw.linked hraw.ranked
    simp only [ensures_onForest, howner]
    refine Ensures.imp (ensures_declare hscopes) ?_
    rintro id _ ⟨rfl, table', rfl, hp, hscopes'⟩
    exact advanced_of_variable hraw h hkind hw' htype' hinitial hslots hscopes hp hscopes' rfl rfl rfl

end MiniC.Resolve
