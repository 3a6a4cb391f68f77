import MiniC.Proofs.Resolve.Expression

/-!
# Resolving statements, one after the other

`Due` says that a statement can be resolved, and `Advanced` what its resolution ensures. `Walked` is
a moment within a statement: the slots up to those that are still to do hold statements that are
settled and expressions that are typed.
-/

namespace MiniC

/-- Only calls of functions look at the symbols, and they look at what does not change. -/
theorem Settled.grew {parsed forest : Forest} {table table' : SymbolTable} {id : NodeId}
    (h : Settled parsed table forest id) (hg : table.Grew table') :
    Settled parsed table' forest id := by
  refine ⟨h.noted, h.function, h.parts, ?_, h.slots⟩
  have hrule := h.rule
  unfold StatementRule at hrule ⊢
  split
  all_goals rename_i hkind; simp only [hkind] at hrule
  case h_2 =>
    obtain ⟨s, signature, result, rfl, hs, hsignature, htype, hsame, hparams⟩ := hrule
    obtain ⟨defined, hsignature', -⟩ := hg.signature_eq hs hsignature
    exact ⟨s, { signature with defined }, result, rfl, Nat.lt_of_lt_of_le hs hg.size_le,
      hsignature', htype, hg.type_eq hs ▸ hsame, hparams⟩
  all_goals exact hrule

namespace Resolve

open Forest Ensures

variable {parsed forest other : Forest} {start state state' third : Resolution}
  {n p c top top' : NodeId} {done todo : List NodeId} {levels : Nat}

/-- What never goes back: symbols and labels are added, and warnings are left alone. -/
structure Later (start state : Resolution) : Prop where
  grew : start.table.Grew state.table
  drawn_le : start.session.drawn ≤ state.session.drawn
  warnings_eq : state.session.warnings = start.session.warnings

namespace Later

theorem refl : Later state state := ⟨.refl, Nat.le_refl _, rfl⟩

theorem trans (h : Later start state) (h' : Later state third) : Later start third :=
  ⟨h.grew.trans h'.grew, Nat.le_trans h.drawn_le h'.drawn_le, h'.warnings_eq.trans h.warnings_eq⟩

theorem of_eq (htable : state.table = start.table) (hsession : state.session = start.session) :
    Later start state := by
  refine ⟨?_, ?_, ?_⟩
  · rw [htable]
    exact .refl
  · rw [hsession]
  · rw [hsession]

end Later

/-- The function around a node has its result type, and the loop around it has its labels. -/
structure Surrounded (parsed forest : Forest) (id : NodeId) : Prop where
  function : ∀ f, parsed.owningFunction id = some f →
    ∃ result, forest.type? f = some result ∧ result.Flat
  loop : ∀ l, parsed.enclosingLoop id = some l →
    ∀ leaving, ∃ label, jumpTarget? (forest.kind l) leaving = some label

namespace Surrounded

theorem keeps (h : Surrounded parsed forest c) (hk : Keeps forest other p) :
    Surrounded parsed other c := by
  refine ⟨fun f hf => ?_, fun l hl leaving => ?_⟩
  · obtain ⟨result, hresult, hflat⟩ := h.function f hf
    exact ⟨result, (hk.type_eq (by simp [hresult])).trans hresult, hflat⟩
  · obtain ⟨label, hlabel⟩ := h.loop l hl leaving
    exact ⟨label, by rwa [hk.kind_eq (not_fresh_of_jumpTarget? hlabel)]⟩

/-- What is noted on a node does not matter to what is around it. -/
theorem noted (h : Surrounded parsed forest n) (hraw : parsed.Raw) (hn : Noted forest other n) :
    Surrounded parsed other n := by
  refine ⟨fun f hf => ?_, fun l hl leaving => ?_⟩
  · have hlt := (lt_of_owningFunction hraw.linked hraw.rising hf).1
    rw [hn.type_eq (Nat.ne_of_gt hlt)]
    exact h.function f hf
  · have hlt := (lt_of_enclosingLoop hraw.linked hraw.rising hl).1
    rw [hn.kind_eq (Nat.ne_of_gt hlt)]
    exact h.loop l hl leaving

/-- What is around a child of a node that is no function is the node, if it is a loop, and what is
around the node. -/
theorem child (h : Surrounded parsed forest n) (hraw : parsed.Raw) (hc : c ∈ parsed.children n)
    (hn : (parsed.kind n).isFunction = false)
    (hloop : (parsed.kind n).isLoop → ∀ leaving, ∃ label,
      jumpTarget? (forest.kind n) leaving = some label) : Surrounded parsed forest c := by
  have hparent := hraw.linked.parent_of_mem hc
  refine ⟨fun f hf => ?_, fun l hl leaving => ?_⟩
  · rw [owningFunction_of_parent hraw.linked hraw.ranked hparent, hn] at hf
    exact h.function f hf
  · rw [enclosingLoop_of_parent hraw.linked hraw.ranked hparent, hn] at hl
    by_cases hkind : (parsed.kind n).isLoop
    · rw [if_pos hkind] at hl
      exact Option.some.inj hl ▸ hloop hkind leaving
    · rw [if_neg hkind] at hl
      exact h.loop l hl leaving

/-- What is around a child of a function is the function. -/
theorem of_function {result : Ty} (hraw : parsed.Raw) (hc : c ∈ parsed.children n)
    (hn : (parsed.kind n).isFunction) (hresult : forest.type? n = some result)
    (hflat : result.Flat) : Surrounded parsed forest c := by
  have hparent := hraw.linked.parent_of_mem hc
  have hloop : (parsed.kind n).isLoop = false := by
    cases hk : parsed.kind n <;> simp_all [Kind.isFunction, Kind.isLoop]
  refine ⟨fun f hf => ?_, fun l hl leaving => ?_⟩
  · rw [owningFunction_of_parent hraw.linked hraw.ranked hparent, if_pos hn] at hf
    exact Option.some.inj hf ▸ ⟨result, hresult, hflat⟩
  · rw [enclosingLoop_of_parent hraw.linked hraw.ranked hparent, hloop, if_pos hn] at hl
    cases hl

end Surrounded

theorem Visible.grew {table table' : SymbolTable} {function : Option NodeId}
    (h : Visible parsed table function) (hg : table.Grew table')
    (hscopes : table'.scopes = table.scopes) : Visible parsed table' function := by
  refine ⟨fun scope hscope entry hentry => ?_, fun scope hscope entry hentry => ?_⟩
  · rw [hscopes] at hscope
    obtain ⟨hreached, hname⟩ := h.reached scope hscope entry hentry
    exact ⟨hreached.grew hg, (hg.name_eq hreached.lt_size).trans hname⟩
  · rw [hscopes] at hscope
    rw [hg.frame_eq (h.reached scope (List.mem_of_head? hscope) entry hentry).1.lt_size]
    exact h.own scope hscope entry hentry

/-- No name is in a scope that has just been opened. -/
theorem Visible.enter {table : SymbolTable} {function : Option NodeId}
    (h : Visible parsed table function) : Visible parsed table.enter function := by
  have hg : table.Grew table.enter := .of_symbols rfl
  refine ⟨fun scope hscope entry hentry => ?_, fun scope hscope entry hentry => ?_⟩
  · rcases List.mem_cons.mp hscope with rfl | hscope
    · cases hentry
    · obtain ⟨hreached, hname⟩ := h.reached scope hscope entry hentry
      exact ⟨hreached.grew hg, hname⟩
  · obtain rfl : [] = scope := Option.some.inj hscope
    cases hentry

/-- The statement `n` can be resolved. -/
structure Due (parsed : Forest) (state : Resolution) (n : NodeId) : Prop where
  consistent : Consistent parsed state
  lt_size : n < parsed.size
  role : (parsed.role n).IsStatement
  ready : Ready parsed state.forest n
  surrounded : Surrounded parsed state.forest n
  scopes : state.table.scopes ≠ []
  visible : Visible parsed state.table (parsed.owningFunction n)

/-- The part below `n` has been resolved, as the last thing in the innermost scope. -/
structure Advanced (parsed : Forest) (start state : Resolution) (n : NodeId) : Prop where
  inside : Inside parsed start.forest state.forest n
  later : Later start state
  consistent : Consistent parsed state
  scopes : state.table.scopes ≠ []
  outer : state.table.scopes.tail = start.table.scopes.tail
  visible : Visible parsed state.table (parsed.owningFunction n)
  settled : ∀ m, parsed.Below m n → (parsed.role m).IsStatement →
    Settled parsed state.table state.forest m

/-- A resolver that copes with the statements below `levels`. -/
def Settles (parsed : Forest) (inner : NodeId → Resolve Unit) (levels : Nat) : Prop :=
  ∀ {state : Resolution} {n : Nat}, n < levels → Due parsed state n →
    Ensures (inner n) state (Refused parsed) fun _ state' => Advanced parsed state state' n

/-- Since `start`, the parts of `n` have been resolved up to those that are still `todo`. -/
structure Walked (parsed : Forest) (start state : Resolution) (n : NodeId)
    (done todo : List NodeId) : Prop where
  lt_size : n < parsed.size
  role : parsed.role n ≠ .expression
  plain : (parsed.kind n).isFunction = false
  inside : Inside parsed start.forest state.forest n
  later : Later start state
  consistent : Consistent parsed state
  scopes : state.table.scopes ≠ []
  outer : state.table.scopes.tail = start.table.scopes.tail
  visible : Visible parsed state.table (parsed.owningFunction n)
  node_eq : state.forest.node n = { start.forest.node n with children := done ++ todo }
  parts : ∀ d ∈ done, state.forest.role d = .expression → state.forest.type? d ≠ none ∧
    (state.forest.node d).function = parsed.owningFunction n
  waiting : ∀ d ∈ todo, d ∈ parsed.children n ∧ Ready parsed state.forest d ∧
    Surrounded parsed state.forest d
  settled : ∀ m, parsed.Below m n → m ≠ n → (parsed.role m).IsStatement →
    (∃ d ∈ todo, parsed.Below m d) ∨ Settled parsed state.table state.forest m

namespace Walked

theorem children_eq (h : Walked parsed start state n done todo) :
    state.forest.children n = done ++ todo := by rw [children, h.node_eq]

theorem kind_eq (h : Walked parsed start state n done todo) :
    state.forest.kind n = start.forest.kind n := by
  rw [kind, h.node_eq]
  rfl

/-- What is around the node stays as it is. -/
theorem around (h : Walked parsed start state n done todo) (hraw : parsed.Raw)
    (ha : parsed.SameAround start.forest n) : parsed.SameAround state.forest n := by
  have hsame : ∀ a : Nat, parsed.Below n a → state.forest.parent a = start.forest.parent a ∧
      state.forest.kind a = start.forest.kind a := by
    intro a hbelow
    by_cases hne : n = a
    · rw [← hne, parent, kind, h.node_eq]
      exact ⟨rfl, rfl⟩
    · have hlt : a < start.forest.size := by
        refine Nat.lt_of_lt_of_le ?_ ha.size_le
        cases hbelow with
        | refl => exact absurd rfl hne
        | child hmem _ => exact lt_size_of_mem_children hmem
      have hout : ¬parsed.Below a n := fun hb => hne (hbelow.antisymm hraw.ranked hb)
      rw [parent, kind, h.inside.outside a hlt hout]
      exact ⟨rfl, rfl⟩
  refine ⟨Nat.le_trans ha.size_le h.inside.size_le, fun a hbelow => ?_, fun a hbelow => ?_,
    fun a hbelow => ?_⟩
  · rw [(hsame a hbelow).1]
    exact ha.parent a hbelow
  · rw [(hsame a hbelow).2]
    exact ha.isFunction a hbelow
  · rw [(hsame a hbelow).2]
    exact ha.isLoop a hbelow

theorem size_lt (h : Walked parsed start state n done todo) : n < state.forest.size :=
  Nat.lt_of_lt_of_le h.lt_size h.consistent.grown.size_le

theorem of_ready (hconsistent : Consistent parsed start) (hn : n < parsed.size)
    (hrole : parsed.role n ≠ .expression) (hplain : (parsed.kind n).isFunction = false)
    (hchildren : start.forest.children n = parsed.children n) (hscopes : start.table.scopes ≠ [])
    (hvisible : Visible parsed start.table (parsed.owningFunction n))
    (hready : ∀ c ∈ parsed.children n, Ready parsed start.forest c ∧
      Surrounded parsed start.forest c) :
    Walked parsed start start n [] (parsed.children n) where
  lt_size := hn
  role := hrole
  plain := hplain
  inside := .refl
  later := .refl
  consistent := hconsistent
  scopes := hscopes
  outer := rfl
  visible := hvisible
  node_eq := by rw [List.nil_append, ← hchildren]; rfl
  parts := nofun
  waiting c hc := ⟨hc, hready c hc⟩
  settled m hm hne _ := .inl (hm.eq_or_child.resolve_left hne)

/-- The next part can be resolved, if it is a statement. -/
theorem due (h : Walked parsed start state n done (c :: todo)) (hraw : parsed.Raw)
    (hrole : (parsed.role c).IsStatement) : Due parsed state c := by
  obtain ⟨hmem, hready, hsurrounded⟩ := h.waiting c List.mem_cons_self
  refine ⟨h.consistent, hraw.linked.lt_size hmem, hrole, hready, hsurrounded, h.scopes, ?_⟩
  rw [owningFunction_of_mem hraw hmem h.plain]
  exact h.visible

/-- The next part can be resolved, if it is an expression. -/
theorem awaits (h : Walked parsed start state n done (c :: todo)) (hraw : parsed.Raw)
    (hrole : parsed.role c = .expression) : Awaits parsed state c n := by
  obtain ⟨hmem, hready, -⟩ := h.waiting c List.mem_cons_self
  refine ⟨h.consistent, hmem, hrole, hready, ?_, fun hn => ?_⟩
  · rw [owningFunction_of_mem hraw hmem h.plain]
    exact h.visible
  · rw [h.consistent.grown.role_eq h.lt_size] at hn
    exact absurd hn h.role

/-- What a step on the next part has to ensure. -/
theorem next (h : Walked parsed start state n done (c :: todo)) (hraw : parsed.Raw)
    (hk : Keeps state.forest state'.forest n)
    (hinside : Inside parsed state.forest state'.forest n) (hlater : Later state state')
    (hconsistent : Consistent parsed state') (hscopes : state'.table.scopes ≠ [])
    (houter : state'.table.scopes.tail = state.table.scopes.tail)
    (hvisible : Visible parsed state'.table (parsed.owningFunction n))
    (hchildren : state'.forest.children n = done ++ top :: todo)
    (hready : ∀ d ∈ todo, Ready parsed state'.forest d)
    (hpart : state'.forest.role top = .expression → state'.forest.type? top ≠ none ∧
      (state'.forest.node top).function = parsed.owningFunction n)
    (hsettled : ∀ m, parsed.Below m c → (parsed.role m).IsStatement →
      Settled parsed state'.table state'.forest m) :
    Walked parsed start state' n (done ++ [top]) todo := by
  have hl := h.consistent.grown.linked
  refine ⟨h.lt_size, h.role, h.plain, h.inside.trans hinside, h.later.trans hlater, hconsistent,
    hscopes, houter.trans h.outer, hvisible, ?_, ?_, ?_, ?_⟩
  · rw [hk.outer, hchildren, h.node_eq, List.append_assoc]
    rfl
  · intro d hd hrole
    rcases List.mem_append.mp hd with hd | hd
    · have hlt : d < state.forest.size := hl.lt_size (p := n) <| by
        rw [h.children_eq]
        exact List.mem_append_left _ hd
      rw [hk.role d hlt] at hrole
      obtain ⟨htyped, hfunction⟩ := h.parts d hd hrole
      exact ⟨hk.type_eq htyped ▸ htyped,
        (hk.function_eq (not_fresh_of_type htyped)).trans hfunction⟩
    · rw [List.mem_singleton.mp hd] at hrole ⊢
      exact hpart hrole
  · intro d hd
    obtain ⟨hmem, -, hsurrounded⟩ := h.waiting d (List.mem_cons_of_mem _ hd)
    exact ⟨hmem, hready d hd, hsurrounded.keeps hk⟩
  · intro m hm hne hrole
    rcases h.settled m hm hne hrole with ⟨d, hd, hbelow⟩ | hdone
    · rcases List.mem_cons.mp hd with rfl | hd
      · exact .inr (hsettled m hbelow hrole)
      · exact .inl ⟨d, hd, hbelow⟩
    · have hnrole : state.forest.role n ≠ .expression := by
        rw [h.consistent.grown.role_eq h.lt_size]
        exact h.role
      refine .inr (hdone.keeps hk hl hne ?_ hnrole hlater.grew)
      intro hmem
      rw [h.consistent.grown.mem_children_iff hraw hnrole] at hmem
      exact Below.not_child hraw.ranked hmem hm

/-- The next part is no expression, and has been resolved. -/
theorem advance (h : Walked parsed start state n done (c :: todo)) (hraw : parsed.Raw)
    (hrole : parsed.role c ≠ .expression) (ha : Advanced parsed state state' c) :
    Walked parsed start state' n (done ++ [c]) todo ∧
      Keeps state.forest state'.forest n := by
  obtain ⟨hmem, hready, -⟩ := h.waiting c List.mem_cons_self
  have hlt : c < parsed.size := hraw.linked.lt_size hmem
  have hn : ¬parsed.Below n c := Below.not_child hraw.ranked hmem
  have hk : Keeps state.forest state'.forest n :=
    .of_inside hraw h.consistent.grown ha.consistent.grown hready ha.inside hlt h.size_lt hn
  have hreplaced : Replaced parsed state.forest state'.forest c n c :=
    .of_inside ha.inside h.size_lt hn
  have hnodup : (done ++ c :: todo).Nodup := h.children_eq ▸ h.consistent.grown.linked.nodup n
  refine ⟨h.next hraw hk (ha.inside.of_child hmem) ha.later ha.consistent ha.scopes ha.outer ?_ ?_
    ?_ ?_ ha.settled, hk⟩
  · rw [← owningFunction_of_mem hraw hmem h.plain]
    exact ha.visible
  · rw [children, ha.inside.outside n h.size_lt hn]
    exact h.children_eq
  · intro d hd
    obtain ⟨hmem', hready', -⟩ := h.waiting d (List.mem_cons_of_mem _ hd)
    refine hready'.sibling hraw hreplaced hmem hmem' ?_
    rintro rfl
    exact (List.nodup_cons.mp (List.nodup_append.mp hnodup).2.1).1 hd
  · intro he
    rw [ha.consistent.grown.role_eq hlt] at he
    exact absurd he hrole

/-- Nothing has to be done for a part without statements. -/
theorem skip (h : Walked parsed start state n done (c :: todo)) (hraw : parsed.Raw)
    (hrole : parsed.role c ≠ .expression) (hsilent : (parsed.role c).IsSilent) :
    Walked parsed start state n (done ++ [c]) todo := by
  obtain ⟨hmem, -⟩ := h.waiting c List.mem_cons_self
  refine (h.advance hraw hrole ⟨.refl, .refl, h.consistent, h.scopes, rfl, ?_, ?_⟩).1
  · rw [owningFunction_of_mem hraw hmem h.plain]
    exact h.visible
  · exact fun m hm hstatement => absurd hstatement (hraw.not_isStatement hsilent hm)

/-- The next part is an expression that has been resolved. -/
theorem evaluate (h : Walked parsed start state n done (c :: todo)) (hraw : parsed.Raw)
    (hrole : parsed.role c = .expression) (he : Evaluated parsed state state' c n top) :
    Walked parsed start state' n (done ++ [top]) todo ∧
      Keeps state.forest state'.forest n := by
  obtain ⟨hmem, hready, -⟩ := h.waiting c List.mem_cons_self
  have hlt : c < parsed.size := hraw.linked.lt_size hmem
  have hk : Keeps state.forest state'.forest n :=
    .of_replaced hraw h.consistent.grown he.consistent.grown hready he.replaced hlt
  have hnodup : (done ++ c :: todo).Nodup := h.children_eq ▸ h.consistent.grown.linked.nodup n
  have hdone : c ∉ done := fun hc =>
    (List.nodup_append.mp hnodup).2.2 c hc c List.mem_cons_self rfl
  have htodo : c ∉ todo := (List.nodup_cons.mp (List.nodup_append.mp hnodup).2.1).1
  refine ⟨h.next hraw hk (he.replaced.inside hmem) (.of_eq he.table_eq he.session_eq) he.consistent
    ?_ ?_ ?_ ?_ ?_ ?_ ?_, hk⟩
  · rw [he.table_eq]
    exact h.scopes
  · rw [he.table_eq]
  · rw [he.table_eq]
    exact h.visible
  · rw [he.replaced.children_outer, h.children_eq, List.map_append, List.map_cons, swap_self,
      map_swap_of_not_mem hdone, map_swap_of_not_mem htodo]
  · intro d hd
    obtain ⟨hmem', hready', -⟩ := h.waiting d (List.mem_cons_of_mem _ hd)
    exact hready'.sibling hraw he.replaced hmem hmem' fun heq => htodo (heq ▸ hd)
  · exact fun _ => ⟨he.typed, he.function_eq.trans (owningFunction_of_mem hraw hmem h.plain)⟩
  · intro m hm hstatement
    refine absurd hstatement (hraw.not_isStatement ?_ hm)
    rw [hrole]
    trivial

/-- What has been found out about expressions stays when the next part is resolved. -/
theorem retains (h : Walked parsed start state n done todo)
    (hk : Keeps state.forest state'.forest n) : state.forest.Retains state'.forest := by
  refine hk.retains fun he => absurd he ?_
  rw [h.consistent.grown.role_eq h.lt_size]
  exact h.role

theorem child?_eq (h : Walked parsed start state n done (c :: todo)) :
    state.forest.child? n done.length = some c := by
  simp [child?, h.children_eq]

/-- Once all its parts have been resolved, the node itself is settled by its rule. -/
theorem settled_self (h : Walked parsed start state n done [])
    (hscope : (start.forest.node n).scope ≠ 0)
    (hfunction : (start.forest.node n).function = parsed.owningFunction n)
    (hrule : StatementRule parsed state.table state.forest n)
    (hslots : SlotsRule parsed state.forest n) : Settled parsed state.table state.forest n := by
  have hfunction' : (state.forest.node n).function = parsed.owningFunction n := by
    rw [h.node_eq]
    exact hfunction
  refine ⟨?_, hfunction', ?_, hrule, hslots⟩
  · rw [h.node_eq]
    exact hscope
  · intro d hd hrole
    rw [h.children_eq, List.append_nil] at hd
    rw [hfunction']
    exact h.parts d hd hrole

theorem advanced (h : Walked parsed start state n done [])
    (hself : (parsed.role n).IsStatement → Settled parsed state.table state.forest n) :
    Advanced parsed start state n := by
  refine ⟨h.inside, h.later, h.consistent, h.scopes, h.outer, h.visible, ?_⟩
  intro m hm hrole
  by_cases hmn : m = n
  · exact hmn ▸ hself (hmn ▸ hrole)
  · rcases h.settled m hm hmn hrole with ⟨d, hd, -⟩ | hdone
    · cases hd
    · exact hdone

end Walked

namespace Advanced

/-- Something may have been noted on the node before. -/
theorem after (h : Advanced parsed start state n) {base : Resolution}
    (hinside : Inside parsed base.forest start.forest n) (hlater : Later base start)
    (hscopes : start.table.scopes = base.table.scopes) : Advanced parsed base state n := by
  refine ⟨hinside.trans h.inside, hlater.trans h.later, h.consistent, h.scopes, ?_, h.visible,
    h.settled⟩
  rw [h.outer, hscopes]

/-- Leaving the scope that was opened for a part. -/
theorem leave (h : Advanced parsed { start with table := start.table.enter } state n)
    (hscopes : start.table.scopes ≠ [])
    (hvisible : Visible parsed start.table (parsed.owningFunction n)) :
    Advanced parsed start { state with table := state.table.leave } n := by
  have htail : state.table.scopes.tail = start.table.scopes := h.outer
  have hleave := SymbolTable.scopes_leave h.scopes htail hscopes
  have hg : state.table.Grew state.table.leave := .of_symbols hleave.2
  have henter : start.table.Grew start.table.enter := .of_symbols rfl
  have hlater : Later start { state with table := state.table.leave } :=
    ⟨(henter.trans h.later.grew).trans hg, h.later.drawn_le, h.later.warnings_eq⟩
  refine ⟨h.inside, hlater, h.consistent.of_symbols hleave.2, ?_, ?_, ?_, ?_⟩
  · rw [hleave.1]
    exact hscopes
  · rw [hleave.1]
  · exact hvisible.grew hlater.grew hleave.1
  · exact fun m hm hrole => (h.settled m hm hrole).grew hg

end Advanced

/-- Steps in a scope of their own. -/
theorem ensures_inScope {steps : Resolve Unit} {refusal : Fault → Resolution → Prop}
    {post : Unit → Resolution → Prop} :
    Ensures (inScope steps) state refusal post ↔
      Ensures steps { state with table := state.table.enter } refusal fun _ state' =>
        post () { state' with table := state'.table.leave } := by
  simp only [inScope, bind_iff, ensures_onTable]

/-- Resolving the statements that are left one after the other. -/
theorem ensures_each {inner : NodeId → Resolve Unit} (hraw : parsed.Raw)
    (hinner : Settles parsed inner levels) (h : Walked parsed start state n done todo)
    (hstatements : ∀ c ∈ todo, (parsed.role c).IsStatement)
    (hlevels : ∀ c : Nat, c ∈ todo → c < levels) :
    Ensures (each todo inner) state (Refused parsed) fun _ state' =>
      Walked parsed start state' n (done ++ todo) [] := by
  induction todo generalizing state done with
  | nil =>
    rw [each, pure_iff, List.append_nil]
    exact h
  | cons c todo ih =>
    have hrole := hstatements c List.mem_cons_self
    simp only [each, bind_iff]
    refine (hinner (hlevels c List.mem_cons_self) (h.due hraw hrole)).imp ?_
    intro _ state₁ ha
    have hrest := ih (h.advance hraw (Role.ne_of_isStatement hrole) ha).1
      (fun d hd => hstatements d (List.mem_cons_of_mem _ hd))
      (fun d hd => hlevels d (List.mem_cons_of_mem _ hd))
    rwa [List.append_assoc] at hrest

end Resolve

end MiniC
