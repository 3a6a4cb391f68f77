import MiniC.Proofs.Resolve.Signature

/-!
# Resolving functions

A function is bound before its body is resolved, so its body can call it. Its parameters are declared
in the scope of the body, in the frame of the function.
-/

namespace MiniC.Resolve

open Forest Ensures

variable {parsed : Forest} {state start state' : Resolution} {n c list body : NodeId}
  {s : SymbolId} {result type : Ty} {params types : List Ty} {nodes : List NodeId}
  {inner : NodeId → Resolve Unit} {levels : Nat}

/-- Inside a function the names around it can be reached over its static link. -/
theorem Visible.inside (h : Visible parsed state.table (parsed.owningFunction n)) :
    Visible parsed state.table.enter (some n) := by
  have hg : state.table.Grew state.table.enter := .of_symbols rfl
  refine ⟨fun scope hscope entry hentry => ?_, fun scope hscope entry hentry => ?_⟩
  · rcases List.mem_cons.mp hscope with rfl | hscope
    · cases hentry
    · obtain ⟨hreached, hname⟩ := h.reached scope hscope entry hentry
      exact ⟨⟨hreached.lt_size, .outer (hreached.grew hg).chain⟩, hname⟩
  · obtain rfl : [] = scope := Option.some.inj hscope
    cases hentry

/-- A parameter that is bound to a symbol and has its type. -/
def Bound (forest : Forest) (param : NodeId) (type : Ty) : Prop :=
  (∃ name s, forest.kind param = .parameter name (some s)) ∧ forest.HasType param type

/-- What declaring parameters below `list` in the scope of the function `n` ensures. -/
structure Parametrized (parsed : Forest) (start state : Resolution) (n : NodeId)
    (nodes : List NodeId) (types : List Ty) : Prop where
  consistent : Consistent parsed state
  later : Later start state
  scopes : state.table.scopes ≠ []
  outer : state.table.scopes.tail = start.table.scopes.tail
  visible : Visible parsed state.table (some n)
  size_eq : state.forest.size = start.forest.size
  others : ∀ m, m ∉ nodes → state.forest.node m = start.forest.node m
  bound : List.Forall₂ (Bound state.forest) nodes types

theorem ensures_declareParameter (hraw : parsed.Raw) (hconsistent : Consistent parsed state)
    (hlt : c < parsed.size) (hready : Ready parsed state.forest c)
    (hrole : parsed.role c = .parameter) (howner : parsed.owningFunction c = some n)
    (hbody : 2 < (parsed.children n).length) (hscopes : state.table.scopes ≠ [])
    (hvisible : Visible parsed state.table (some n)) (htype : ParameterType type) :
    Ensures (declareParameter n c type) state (Refused parsed) fun _ state' =>
      Parametrized parsed state state' n [c] [type] ∧ Noted state.forest state'.forest c := by
  obtain ⟨hconsistent₁, hn₁, hnode₁⟩ := hconsistent.annotated hraw hlt hready
  obtain ⟨name, hkind⟩ : ∃ name, parsed.kind c = .parameter name none := by
    have hfresh := (hraw.fresh c).kind
    rw [role] at hrole
    rw [show (parsed.node c).kind = parsed.kind c from rfl] at hfresh
    cases hk : parsed.kind c with
    | type part => cases hform : part.form <;> simp [hk, Kind.role, hform] at hrole
    | _ => simp_all [Kind.role, Kind.Fresh]
  have hkind₁ : (annotated state c).forest.kind c = .parameter name none := by
    rw [kind, hnode₁, ← hkind, kind]
  have hrole₁ : (annotated state c).forest.role c = .parameter := by
    rw [role, hkind₁]
    rfl
  obtain ⟨scope, scopes, hstack⟩ := List.exists_cons_of_ne_nil hscopes
  simp only [declareParameter, bind_iff, ensures_annotate, ensures_forest, hkind₁, ensures_onForest]
  refine Ensures.imp (ensures_declare hstack) ?_
  rintro id _ ⟨rfl, table', rfl, hp, hscopes'⟩
  have hvariable : type.OfVariable := by
    refine ⟨htype.1.shallow, htype.2, fun element helement => ?_⟩
    cases type with
    | array => exact htype.1.elim
    | base | pointer => cases helement
  obtain ⟨hn₂, hnode₂, hconsistent₂⟩ := hconsistent₁.bindVariable hraw hlt (by rw [hkind₁]; rfl)
    (.inr ⟨hrole₁, htype.1⟩) hp rfl hvariable howner.symm
    fun _ => ⟨n, howner, hbody⟩
  have hn := hn₁.trans hn₂
  refine ⟨⟨hconsistent₂, ⟨hp.grew, Nat.le_refl _, rfl⟩, ?_, ?_, ?_, hn.size_eq, fun m hm => ?_, ?_⟩, hn⟩
  · rw [hscopes']
    exact List.cons_ne_nil _ _
  · rw [hscopes', hstack]
    rfl
  · exact hvisible.declared hstack hp hscopes' rfl
  · exact hn.node_eq m (by simpa using hm)
  · refine .cons ⟨⟨name, state.table.size, ?_⟩, type, ?_, Ty.same_refl _⟩ .nil
    · rw [kind, hnode₂, hkind₁]
      rfl
    · rw [type?, hnode₂]

/-- Parameters are declared one after the other. -/
theorem ensures_declareParameters (hraw : parsed.Raw) (hlist : list ∈ parsed.children n)
    (hfunction : (parsed.kind n).isFunction) (hbody : 2 < (parsed.children n).length)
    (hparams : parsed.role list = .parameters) (hnodup : nodes.Nodup)
    (hnodes : ∀ c ∈ nodes, c ∈ parsed.children list ∧ Ready parsed state.forest c)
    (hlength : types.length = nodes.length) (htypes : ∀ type ∈ types, ParameterType type)
    (hconsistent : Consistent parsed state) (hscopes : state.table.scopes ≠ [])
    (hvisible : Visible parsed state.table (some n)) :
    Ensures (declareParameters n nodes types) state (Refused parsed) fun _ state' =>
      Parametrized parsed state state' n nodes types := by
  induction nodes generalizing state types with
  | nil =>
    obtain rfl := List.eq_nil_of_length_eq_zero hlength
    rw [declareParameters, pure_iff]
    · exact ⟨hconsistent, .refl, hscopes, rfl, hvisible, rfl, fun _ _ => rfl, .nil⟩
    · simp
  | cons c nodes ih =>
    obtain ⟨type, types, rfl⟩ := List.exists_cons_of_length_eq_add_one hlength
    obtain ⟨hmem, hready⟩ := hnodes c List.mem_cons_self
    obtain ⟨hc, hnodup⟩ := List.nodup_cons.mp hnodup
    have hplain : (parsed.kind list).isFunction = false := by
      rw [role] at hparams
      cases hk : parsed.kind list <;> simp_all [Kind.role, Kind.isFunction]
    have hholds := hraw.shaped list
    have hrole : parsed.role c = .parameter := by
      have hkind : parsed.kind list = .parameters := by
        rw [role] at hparams
        cases hk : parsed.kind list with
        | type part => cases hform : part.form <;> simp [hk, Kind.role, hform] at hparams
        | _ => simp_all [Kind.role]
      rw [hkind] at hholds
      exact hholds _ (List.mem_map_of_mem hmem)
    have howner : parsed.owningFunction c = some n := by
      rw [owningFunction_of_mem hraw hmem hplain,
        owningFunction_of_parent hraw.linked hraw.ranked (hraw.linked.parent_of_mem hlist),
        if_pos hfunction]
    simp only [declareParameters, bind_iff]
    refine (ensures_declareParameter hraw hconsistent (hraw.linked.lt_size hmem) hready hrole howner
      hbody hscopes hvisible (htypes type List.mem_cons_self)).imp ?_
    rintro _ state₁ ⟨h₁, hn₁⟩
    refine (ih hnodup (fun d hd => ?_) (Nat.succ.inj hlength)
      (fun type hmem => htypes type (List.mem_cons_of_mem _ hmem)) h₁.consistent h₁.scopes
      h₁.visible).imp ?_
    · obtain ⟨hmem', hready'⟩ := hnodes d (List.mem_cons_of_mem _ hd)
      have hne : d ≠ c := fun he => hc (he ▸ hd)
      refine ⟨hmem', hready'.sibling hraw (.of_inside (.of_noted hn₁) ?_ ?_) hmem hmem' hne⟩
      · exact Nat.lt_of_lt_of_le (lt_size_of_mem_children hmem) hconsistent.grown.size_le
      · exact Below.not_child hraw.ranked hmem
    · rintro _ state' h'
      refine ⟨h'.consistent, h₁.later.trans h'.later, h'.scopes, h'.outer.trans h₁.outer, h'.visible,
        h'.size_eq.trans h₁.size_eq, fun m hm => ?_, .cons ?_ h'.bound⟩
      · rw [h'.others m fun hmem => hm (List.mem_cons_of_mem _ hmem),
          h₁.others m fun hmem => hm (List.mem_singleton.mp hmem ▸ List.mem_cons_self)]
      · obtain ⟨⟨name, s, hkind⟩, found, hfound, hsame⟩ := (List.forall₂_cons.mp h₁.bound).1
        have hnode := h'.others c hc
        exact ⟨⟨name, s, by rw [kind, hnode, ← hkind, kind]⟩, found,
          by rw [type?, hnode, ← hfound, type?], hsame⟩

/-- Types that are the same in pairs can be exchanged for what has them. -/
theorem bound_of_sameTypes {forest : Forest} {types params : List Ty} (h : sameTypes params types)
    (hbound : List.Forall₂ (Bound forest) nodes types) : List.Forall₂ (Bound forest) nodes params := by
  induction hbound generalizing params with
  | nil => cases params <;> simp_all [sameTypes]
  | @cons c type nodes types hc _ ih =>
    cases params with
    | nil => simp [sameTypes] at h
    | cons param params =>
      simp only [sameTypes, Bool.and_eq_true] at h
      obtain ⟨hbound, found, hfound, hsame⟩ := hc
      exact .cons ⟨hbound, found, hfound, Ty.same_trans hsame (Ty.same_comm param type ▸ h.1)⟩ (ih h.2)

/-- The statements of a body, resolved in the scope of the parameters. -/
theorem ensures_body (hraw : parsed.Raw) (hinner : Settles parsed inner levels) (hlevels : body ≤ levels)
    (h : Due parsed state body) (hkind : parsed.kind body = .block) :
    Ensures (do annotate body; each ((← forest).children body) inner) state (Refused parsed)
      fun _ state' => Advanced parsed state state' body := by
  obtain ⟨hentered, hn⟩ := h.entered hraw
  have hholds := hraw.shaped body
  rw [hkind] at hholds
  have hs := hentered.started hraw (by rw [hkind]; rfl) (by rw [hkind]; rfl)
  simp only [bind_iff, ensures_annotate, ensures_forest, hentered.children_eq]
  refine (ensures_each hraw hinner hs.walked (fun c hc => hholds _ (List.mem_map_of_mem hc))
    fun c hc => Nat.lt_of_lt_of_le (hraw.rising hc) hlevels).imp fun _ state' hw => ?_
  refine (hs.finish hw ?_ ?_).after (.of_noted hn) (.of_eq rfl rfl) rfl
  · simp only [StatementRule, hw.kind_eq, hentered.kind_eq, hkind]
  · simp only [SlotsRule, hw.kind_eq, hentered.kind_eq, hkind]

/-- Binding a function to the symbol that has been found for it. -/
theorem consistent_of_signed {name : String} (hraw : parsed.Raw) (h : Entered parsed state n)
    (hkind : parsed.kind n = .function name none) (hs : Signed parsed state state' n result params s) :
    Noted state.forest ((state'.forest.bind n s).setType n result) n ∧
      ((state'.forest.bind n s).setType n result).node n =
        { state.forest.node n with kind := .function name (some s), type := some result } ∧
      Consistent parsed { state' with forest := (state'.forest.bind n s).setType n result } := by
  obtain ⟨forest, table, session, pending⟩ := state'
  obtain rfl : forest = state.forest := hs.forest_eq
  obtain rfl : pending = state.pending := hs.pending_eq
  have hkind' : state.forest.kind n = .function name none := h.kind_eq.trans hkind
  have hlt : n < (state.forest.bind n s).size := by
    rw [Forest.bind, size_update]
    exact h.lt_size'
  have hn : Noted state.forest ((state.forest.bind n s).setType n result) n :=
    (noted_bind h.lt_size' s).trans (noted_setType hlt result)
  have hnode : ((state.forest.bind n s).setType n result).node n =
      { state.forest.node n with kind := .function name (some s), type := some result } := by
    rw [setType, node_update _ _ _ _ hlt, if_pos rfl, node_bind h.lt_size', hkind']
    rfl
  have hbound : ((state.forest.bind n s).setType n result).kind n = .function name (some s) := by
    rw [kind, hnode]
  have hb := hs.binds _ hn (by rw [hbound]; rfl)
  have hrole : state.forest.role n = .function := by
    rw [role, hkind']
    rfl
  refine ⟨hn, hnode, h.consistent.declare hraw hn (by simp [hrole]) (by rw [hbound, hkind']; rfl)
    hb.grew hb.drawn_le ?_⟩
  exact h.consistent.declared.binds hn hrole (by rw [hkind']; rfl) (by rw [hbound]; rfl) hb

/-- A function is settled when it is bound, its parameters are right and its body is settled. -/
theorem advanced_of_function {name : String} {last : Resolution} (hraw : parsed.Raw)
    (h : Entered parsed state n) (hkind : parsed.kind n = .function name none)
    (hs : Signed parsed state state' n result params s) (hinside : Inside parsed state.forest last.forest n)
    (hlater : Later state last) (hg : state'.table.Grew last.table)
    (hconsistent : Consistent parsed last) (hscopes : last.table.scopes = state'.table.scopes)
    (hnode : last.forest.node n =
      { state.forest.node n with kind := .function name (some s), type := some result })
    (hparams : ∀ signature, (state'.table.symbol s).signature? = some signature →
      ParametersRule last.forest signature.params (parsed.children n))
    (hsettled : ∀ m, parsed.Below m n → m ≠ n → (parsed.role m).IsStatement →
      Settled parsed last.table last.forest m) : Advanced parsed state last n := by
  obtain ⟨depth, hdepth, hnode₀⟩ := h.node_eq
  refine ⟨hinside, hlater, hconsistent, hscopes ▸ hs.scopes, by rw [hscopes, hs.outer],
    hs.visible.grew hg hscopes, fun m hm hrole => ?_⟩
  by_cases hmn : m = n
  · subst hmn
    have hchildren : last.forest.children m = parsed.children m := by
      rw [children, hnode, ← h.children_eq, children]
    have hkindLast : last.forest.kind m = .function name (some s) := by rw [kind, hnode]
    refine ⟨by rw [hnode, hnode₀]; exact hdepth, by rw [hnode, hnode₀], ?_, ?_,
      by simp only [SlotsRule, hkindLast]⟩
    · intro c hc hexpression
      rw [hchildren] at hc
      have hholds := hraw.shaped m
      rw [hkind] at hholds
      have hmem : parsed.role c ∈ parsed.roles m := List.mem_map_of_mem hc
      rw [hconsistent.grown.role_eq (hraw.linked.lt_size hc)] at hexpression
      rw [hexpression] at hmem
      rcases hholds with hroles | hroles <;> simp [hroles] at hmem
    · obtain ⟨signature, hsignature, -⟩ := hs.params_same
      have hlt := SymbolTable.lt_size_of_signature hsignature
      obtain ⟨defined, hsignature', -⟩ := hg.signature_eq hlt hsignature
      simp only [StatementRule, hkindLast, hchildren, type?, hnode]
      exact ⟨s, { signature with defined }, result, rfl, Nat.lt_of_lt_of_le hlt hg.size_le, hsignature',
        rfl, by rw [hg.type_eq hlt]; exact hs.type_same, hparams signature hsignature⟩
  · exact hsettled m hm hmn hrole

/-- A function without a body. -/
theorem advanced_of_prototype {name : String} {written : NodeId} (hraw : parsed.Raw)
    (h : Entered parsed state n) (hkind : parsed.kind n = .function name none)
    (hs : Signed parsed state state' n result params s)
    (hchildren : parsed.children n = [written, list]) (hwritten : parsed.role written = .type)
    (hlist : parsed.role list = .parameters) :
    Advanced parsed state
      (annotated { state' with forest := (state'.forest.bind n s).setType n result } list) n := by
  obtain ⟨hn, hnode, hconsistent⟩ := consistent_of_signed hraw h hkind hs
  have hmem : list ∈ parsed.children n := by simp [hchildren]
  have hlt : list < parsed.size := hraw.linked.lt_size hmem
  obtain ⟨hconsistent', hn', -⟩ :=
    hconsistent.annotated hraw hlt ((h.ready list hmem).noted hraw hn hmem)
  have hb := hs.binds _ hn (by rw [kind, hnode]; rfl)
  have hne : n ≠ list := (hraw.ranked.ne_of_mem hmem).symm
  refine advanced_of_function hraw h hkind hs ?_ ⟨hb.grew, hb.drawn_le, hs.warnings_eq⟩ .refl
    hconsistent' rfl ?_ ?_ ?_
  · exact (Inside.of_noted hn).trans ((Inside.of_noted hn').of_child hmem)
  · exact (hn'.node_eq n hne).trans hnode
  · intro signature _
    rw [hchildren]
    trivial
  · intro m hm hmn hrole
    obtain ⟨c, hc, hbelow⟩ := hm.eq_or_child.resolve_left hmn
    refine absurd hrole (hraw.not_isStatement ?_ hbelow)
    rw [hchildren] at hc
    rcases List.mem_cons.mp hc with rfl | hc
    · rw [hwritten]
      trivial
    · rw [List.mem_singleton.mp hc, hlist]
      trivial

/-- A function with a body, once its parameters have been declared and its body has been resolved. -/
theorem advanced_of_definition {name : String} {written : NodeId} {opened last : Resolution}
    (hraw : parsed.Raw) (h : Entered parsed state n) (hkind : parsed.kind n = .function name none)
    (hs : Signed parsed state state' n result params s)
    (hchildren : parsed.children n = [written, list, body]) (hwritten : parsed.role written = .type)
    (hlist : parsed.role list = .parameters) (hbody : parsed.role body = .block)
    (hopened : Inside parsed ((state'.forest.bind n s).setType n result) opened.forest list)
    (hlater : Later { state' with table := state'.table.enter } opened)
    (houter : opened.table.scopes.tail = state'.table.scopes)
    (hready : Ready parsed opened.forest body) (hgrown : Grown parsed opened.forest)
    (hparams : ∀ signature, (state'.table.symbol s).signature? = some signature →
      ParametersRule opened.forest signature.params (parsed.children n))
    (ha : Advanced parsed opened last body) :
    Advanced parsed state { last with table := last.table.leave } n := by
  obtain ⟨hn, hnode, hconsistent⟩ := consistent_of_signed hraw h hkind hs
  have hb := hs.binds _ hn (by rw [kind, hnode]; rfl)
  have hmem : body ∈ parsed.children n := by simp [hchildren]
  have hmemList : list ∈ parsed.children n := by simp [hchildren]
  have houtside : ∀ {c}, c ∈ parsed.children n → ¬parsed.Below n c :=
    fun hc => Below.not_child hraw.ranked hc
  have hlt₁ : n < ((state'.forest.bind n s).setType n result).size :=
    Nat.lt_of_lt_of_le h.lt_size hconsistent.grown.size_le
  have hlt₂ : n < opened.forest.size := Nat.lt_of_lt_of_le h.lt_size hgrown.size_le
  have htail : last.table.scopes.tail = state'.table.scopes := ha.outer.trans houter
  have hleave := SymbolTable.scopes_leave ha.scopes htail hs.scopes
  have hgleave : last.table.Grew last.table.leave := .of_symbols hleave.2
  have henter : state'.table.Grew state'.table.enter := .of_symbols rfl
  have hg : state'.table.Grew last.table.leave :=
    ((henter.trans hlater.grew).trans ha.later.grew).trans hgleave
  refine advanced_of_function hraw h hkind hs ?_ ?_ hg (ha.consistent.of_symbols hleave.2) hleave.1
    ?_ ?_ ?_
  · exact (Inside.of_noted hn).trans ((hopened.of_child hmemList).trans (ha.inside.of_child hmem))
  · refine ⟨hb.grew.trans hg, ?_, ?_⟩
    · exact Nat.le_trans hb.drawn_le (Nat.le_trans hlater.drawn_le ha.later.drawn_le)
    · exact (ha.later.warnings_eq.trans hlater.warnings_eq).trans hs.warnings_eq
  · show last.forest.node n = _
    rw [ha.inside.outside n hlt₂ (houtside hmem), hopened.outside n hlt₁ (houtside hmemList), hnode]
  · intro signature hsignature
    have hk : Keeps opened.forest last.forest n :=
      .of_inside hraw hgrown ha.consistent.grown hready ha.inside (hraw.linked.lt_size hmem) hlt₂
        (houtside hmem)
    exact (hparams signature hsignature).keeps hk fun hc => hraw.ranked.ne_of_mem hc rfl
  · intro m hm hmn hrole
    obtain ⟨c, hc, hbelow⟩ := hm.eq_or_child.resolve_left hmn
    rw [hchildren] at hc
    simp only [List.mem_cons, List.not_mem_nil, or_false] at hc
    rcases hc with rfl | rfl | rfl
    · refine absurd hrole (hraw.not_isStatement ?_ hbelow)
      rw [hwritten]
      trivial
    · refine absurd hrole (hraw.not_isStatement ?_ hbelow)
      rw [hlist]
      trivial
    · exact (ha.settled m hbelow hrole).grew hgleave

theorem ensures_function {name : String} {symbol : Option SymbolId} (hraw : parsed.Raw)
    (hinner : Settles parsed inner levels) (hlevels : n ≤ levels) (h : Entered parsed state n)
    (hkind : parsed.kind n = .function name symbol) :
    Ensures (function inner n name) state (Refused parsed) fun _ state' =>
      Advanced parsed state state' n := by
  have hholds := hraw.shaped n
  rw [hkind] at hholds
  have hnone : symbol = none := by
    have hfresh := (hraw.fresh n).kind
    rwa [show (parsed.node n).kind = _ from hkind] at hfresh
  subst hnone
  obtain ⟨written, list, others, hchildren, hwritten, hlist, hothers⟩ := exists_signature hholds
  have hmemWritten : written ∈ parsed.children n := by simp [hchildren]
  have hmemList : list ∈ parsed.children n := by simp [hchildren]
  have hreadyList := h.ready list hmemList
  have hlevelsWritten : written < state.forest.size + 1 := Nat.lt_succ_of_lt
    (Nat.lt_of_lt_of_le (hraw.linked.lt_size hmemWritten) h.consistent.grown.size_le)
  obtain ⟨result, hresult, hflat⟩ := hraw.exists_typeWithin hlevelsWritten hwritten
  have hresult' : state.forest.typeOf? written = some result := by
    rw [typeOf?, (h.ready written hmemWritten).typeWithin_eq, hresult]
  have hchild : ∀ slot, state.forest.child? n slot = (written :: list :: others)[slot]? := by
    intro slot
    rw [child?, h.children_eq, hchildren]
  have hrole : state.forest.role n = .function := by
    rw [role, h.kind_eq, hkind]
    rfl
  simp only [function, bind_iff, ensures_forest, ensures_writtenType (hchild 0) hresult',
    ensures_child (hchild 1), hreadyList.children_eq]
  have hparameters : ∀ c ∈ parsed.children list,
      Ready parsed state.forest c ∧ parsed.role c = .parameter := by
    intro c hc
    refine ⟨hreadyList.part hraw hc, ?_⟩
    have hholds := hraw.shaped list
    rw [role] at hlist
    cases hk : parsed.kind list with
    | type part => cases hform : part.form <;> simp [hk, Kind.role, hform] at hlist
    | parameters =>
      rw [hk] at hholds
      exact hholds _ (List.mem_map_of_mem hc)
    | _ => simp [hk, Kind.role] at hlist
  refine (ensures_parameterTypes hraw hparameters h.consistent.grown.size_le).imp ?_
  rintro types _ ⟨rfl, hlength, htypes⟩
  simp only [hchild 2]
  refine (ensures_functionSymbol hraw h hrole (by rw [h.kind_eq, hkind]; rfl) hflat htypes ?_).imp ?_
  · rw [h.children_eq, hchildren]
    rcases hothers with rfl | ⟨body, rfl, -⟩ <;> simp
  intro s state₁ hs
  obtain ⟨hn, hnode, hconsistent⟩ := consistent_of_signed hraw h hkind hs
  have hb := hs.binds _ hn (by rw [kind, hnode]; rfl)
  simp only [ensures_onForest]
  rcases hothers with rfl | ⟨body, rfl, hbody⟩
  · simp only [List.getElem?_cons_succ, List.getElem?_nil, ensures_annotate]
    exact advanced_of_prototype hraw h hkind hs hchildren hwritten hlist
  · have hmemBody : body ∈ parsed.children n := by simp [hchildren]
    have hlt : list < parsed.size := hraw.linked.lt_size hmemList
    have hlt' : n < parsed.size := h.lt_size
    -- The list is annotated in the scope of the body.
    have hentered : Consistent parsed { state₁ with
        forest := (state₁.forest.bind n s).setType n result, table := state₁.table.enter } :=
      hconsistent.of_symbols rfl
    have hreadyList' := hreadyList.noted hraw hn hmemList
    obtain ⟨hconsistent₂, hn₂, hnode₂⟩ := hentered.annotated hraw hlt hreadyList'
    simp only [List.getElem?_cons_succ, List.getElem?_cons_zero, bind_iff, ensures_inScope,
      ensures_annotate]
    refine (ensures_declareParameters hraw hmemList (by rw [hkind]; rfl)
      (by rw [hchildren]; exact Nat.lt_succ_self 2) hlist
      (hraw.linked.nodup list) (fun c hc => ⟨hc, (hreadyList'.part hraw hc).noted hraw hn₂ hc⟩) hlength htypes
      hconsistent₂ (List.cons_ne_nil _ _) hs.visible.inside).imp ?_
    intro _ opened hp
    have hopened : Inside parsed ((state₁.forest.bind n s).setType n result) opened.forest list := by
      refine (Inside.of_noted hn₂).trans ⟨Nat.le_of_eq hp.size_eq.symm, fun m _ hm => ?_⟩
      exact hp.others m fun hmem => hm (.of_mem hmem)
    have hnbody : body ≠ list := by
      rintro rfl
      rw [hbody] at hlist
      cases hlist
    have houtside : ¬parsed.Below n list := Below.not_child hraw.ranked hmemList
    have hlt₁ : n < ((state₁.forest.bind n s).setType n result).size :=
      Nat.lt_of_lt_of_le hlt' hconsistent.grown.size_le
    have hreadyBody : Ready parsed opened.forest body :=
      ((h.ready body hmemBody).noted hraw hn hmemBody).sibling hraw
        (.of_inside hopened hlt₁ houtside) hmemList hmemBody hnbody
    have hnodeN : opened.forest.node n = _ := (hopened.outside n hlt₁ houtside).trans hnode
    have howner : parsed.owningFunction body = some n := by
      rw [owningFunction_of_parent hraw.linked hraw.ranked (hraw.linked.parent_of_mem hmemBody),
        if_pos (by rw [hkind]; rfl)]
    have hdue : Due parsed opened body := by
      refine ⟨hp.consistent, hraw.linked.lt_size hmemBody, by rw [hbody]; trivial, hreadyBody,
        .of_function hraw hmemBody (by rw [hkind]; rfl) (by rw [type?, hnodeN]) hflat, hp.scopes,
        howner ▸ hp.visible⟩
    have hkindBody : parsed.kind body = .block := by
      rw [role] at hbody
      cases hk : parsed.kind body with
      | type part => cases hform : part.form <;> simp [hk, Kind.role, hform] at hbody
      | _ => simp_all [Kind.role]
    have hlevelsBody : body ≤ levels := Nat.le_trans (Nat.le_of_lt (hraw.rising hmemBody)) hlevels
    have hlast := ensures_body hraw hinner hlevelsBody hdue hkindBody
    simp only [bind_iff, ensures_annotate, ensures_forest] at hlast ⊢
    refine hlast.imp fun _ last ha => ?_
    refine advanced_of_definition hraw h hkind hs hchildren hwritten hlist hbody hopened ?_ hp.outer
      hreadyBody hp.consistent.grown ?_ ha
    · exact ⟨hp.later.grew, hp.later.drawn_le, hp.later.warnings_eq⟩
    · intro signature hsignature
      have hself : list ∉ parsed.children list := fun hc => hraw.ranked.ne_of_mem hc rfl
      have hnodeList := (hp.others list hself).trans hnode₂
      rw [hchildren]
      refine ⟨by rw [hnodeList]; exact Nat.succ_ne_zero _, ?_⟩
      obtain ⟨signature', hsignature', hsame⟩ := hs.params_same
      obtain rfl := Option.some.inj (hsignature.symm.trans hsignature')
      rw [children, hnodeList]
      exact bound_of_sameTypes hsame hp.bound

end MiniC.Resolve
