import MiniC.Proofs.Resolve.Declare

/-!
# Resolving control statements

Blocks, choices, loops, jumps and returns. Each is `Entered` by being annotated, gets its labels if it
needs some (`Started`), and then has its parts resolved in turn.
-/

namespace MiniC

namespace Resolve

open Forest Ensures

variable {parsed : Forest} {state start state' : Resolution} {n c : NodeId}
  {done todo : List NodeId} {inner : NodeId → Resolve Unit} {levels : Nat}

/-- The statement `n` has been annotated. -/
structure Entered (parsed : Forest) (state : Resolution) (n : NodeId) : Prop where
  consistent : Consistent parsed state
  lt_size : n < parsed.size
  role : (parsed.role n).IsStatement
  node_eq : ∃ depth, depth ≠ 0 ∧ state.forest.node n =
    { parsed.node n with scope := depth, function := parsed.owningFunction n }
  ready : ∀ c ∈ parsed.children n, Ready parsed state.forest c
  around : parsed.SameAround state.forest n
  surrounded : Surrounded parsed state.forest n
  scopes : state.table.scopes ≠ []
  visible : Visible parsed state.table (parsed.owningFunction n)

/-- A statement is entered by annotating it. -/
theorem Due.entered (h : Due parsed state n) (hraw : parsed.Raw) :
    Entered parsed (annotated state n) n ∧ Noted state.forest (annotated state n).forest n := by
  obtain ⟨hconsistent, hn, hnode⟩ := h.consistent.annotated hraw h.lt_size h.ready
  exact ⟨⟨hconsistent, h.lt_size, h.role,
    ⟨_, fun hdepth => h.scopes (List.eq_nil_of_length_eq_zero hdepth), hnode⟩,
    fun c hc => (h.ready.part hraw hc).noted hraw hn hc, h.ready.around.noted hn,
    h.surrounded.noted hraw hn, h.scopes, h.visible⟩, hn⟩

namespace Entered

theorem role_ne (h : Entered parsed state n) : parsed.role n ≠ .expression :=
  Role.ne_of_isStatement h.role

theorem kind_eq (h : Entered parsed state n) : state.forest.kind n = parsed.kind n := by
  obtain ⟨depth, -, hnode⟩ := h.node_eq
  rw [kind, hnode, kind]

theorem children_eq (h : Entered parsed state n) :
    state.forest.children n = parsed.children n := by
  obtain ⟨depth, -, hnode⟩ := h.node_eq
  rw [children, hnode, children]

theorem lt_size' (h : Entered parsed state n) : n < state.forest.size :=
  Nat.lt_of_lt_of_le h.lt_size h.consistent.grown.size_le

/-- The statement stays as it is when a scope is opened. -/
theorem enter (h : Entered parsed state n) :
    Entered parsed { state with table := state.table.enter } n := by
  refine ⟨h.consistent.of_symbols rfl, h.lt_size, h.role, h.node_eq, h.ready, h.around, h.surrounded,
    List.cons_ne_nil _ _, h.visible.enter⟩

end Entered

theorem Due.enter (h : Due parsed state n) :
    Due parsed { state with table := state.table.enter } n := by
  refine ⟨h.consistent.of_symbols rfl, h.lt_size, h.role, h.ready, h.surrounded,
    List.cons_ne_nil _ _, h.visible.enter⟩

/-- From `start` on the parts of the statement `n` can be resolved, which was entered in `state`. -/
structure Started (parsed : Forest) (state start : Resolution) (n : NodeId) : Prop where
  walked : Walked parsed start start n [] (parsed.children n)
  inside : Inside parsed state.forest start.forest n
  later : Later state start
  table_eq : start.table = state.table
  scope : (start.forest.node n).scope ≠ 0
  function : (start.forest.node n).function = parsed.owningFunction n

/-- A statement all of whose parts have been resolved is settled by its rule. -/
theorem Started.finish (h : Started parsed state start n)
    (hw : Walked parsed start state' n done [])
    (hrule : StatementRule parsed state'.table state'.forest n)
    (hslots : SlotsRule parsed state'.forest n) : Advanced parsed state state' n :=
  (hw.advanced fun _ => hw.settled_self h.scope h.function hrule hslots).after h.inside h.later
    (by rw [h.table_eq])

/-- A statement without labels starts at once. -/
theorem Entered.started (h : Entered parsed state n) (hraw : parsed.Raw)
    (hplain : (parsed.kind n).isFunction = false) (hloop : (parsed.kind n).isLoop = false) :
    Started parsed state state n := by
  obtain ⟨depth, hdepth, hnode⟩ := h.node_eq
  refine ⟨.of_ready h.consistent h.lt_size h.role_ne hplain h.children_eq h.scopes h.visible ?_,
    .refl, .refl, rfl, ?_, ?_⟩
  · intro c hc
    refine ⟨h.ready c hc, h.surrounded.child hraw hc hplain fun he => ?_⟩
    rw [hloop] at he
    cases he
  · rw [hnode]
    exact hdepth
  · rw [hnode]

/-- A statement starts with the labels that are drawn for it. -/
theorem Entered.started_labels (h : Entered parsed state n) (hraw : parsed.Raw) (kind : Kind)
    (count : Nat) (hplain : (parsed.kind n).isFunction = false)
    (hbare : kind.bare = (parsed.kind n).bare) (hsymbol : kind.symbol? = (parsed.kind n).symbol?)
    (hlabels : kind.ownLabels = (List.range' state.session.drawn count).map .jump)
    (hloop : (parsed.kind n).isLoop → ∀ leaving, ∃ label, jumpTarget? kind leaving = some label) :
    Started parsed state { state with
      forest := state.forest.setKind n kind
      session := { state.session with drawn := state.session.drawn + count } } n ∧
      (state.forest.setKind n kind).kind n = kind := by
  obtain ⟨depth, hdepth, hnode⟩ := h.node_eq
  have hnode' : (state.forest.setKind n kind).node n =
      { parsed.node n with kind, scope := depth, function := parsed.owningFunction n } := by
    rw [setKind, node_update _ _ _ _ h.lt_size', if_pos rfl, hnode]
  have hkind : (state.forest.setKind n kind).kind n = kind := by rw [Forest.kind, hnode']
  have hn : Noted state.forest (state.forest.setKind n kind) n := by
    refine ⟨size_update .., rfl, ?_, ?_, ?_, ?_, ?_, fun m hm => node_update_of_ne _ _ hm⟩
    · rw [hkind, h.kind_eq, hbare]
    · rw [line, hnode', line, hnode]
    · rw [parent, hnode', parent, hnode]
    · rw [children, hnode', children, hnode]
    · rw [hnode', hnode]
  have hrole : state.forest.role n ≠ .expression := by
    rw [h.consistent.grown.role_eq h.lt_size]
    exact h.role_ne
  have hdrawn : state.session.drawn ≤ state.session.drawn + count := Nat.le_add_right ..
  have hconsistent := h.consistent.labels hraw hn hrole (by rw [hkind, hsymbol, h.kind_eq])
    (by rw [type?, hnode', type?, hnode]) hdrawn
    (by
      intro label hlabel
      rw [hkind, hlabels] at hlabel
      obtain ⟨number, hnumber, rfl⟩ := List.mem_map.mp hlabel
      exact ⟨number, (List.mem_range'_1.mp hnumber).1, (List.mem_range'_1.mp hnumber).2, rfl⟩)
    (by
      rw [hkind, hlabels]
      exact List.Nodup.map (fun _ _ heq => Machine.Label.jump.inj heq) List.nodup_range')
  refine ⟨⟨.of_ready hconsistent h.lt_size h.role_ne hplain ?_ h.scopes h.visible ?_, .of_noted hn,
    ⟨.refl, hdrawn, rfl⟩, rfl, ?_, ?_⟩, hkind⟩
  · rw [hn.children, h.children_eq]
  · intro c hc
    refine ⟨(h.ready c hc).noted hraw hn hc, ?_⟩
    refine (h.surrounded.noted hraw hn).child hraw hc hplain fun he leaving => ?_
    rw [hkind]
    exact hloop he leaving
  · rw [hnode']
    exact hdepth
  · rw [hnode']

/-! ## Parts -/

/-- The next part is a statement. -/
theorem ensures_inner (hraw : parsed.Raw) (hinner : Settles parsed inner levels) (hlevels : n ≤ levels)
    (h : Walked parsed start state n done (c :: todo)) (hrole : (parsed.role c).IsStatement) :
    Ensures (inner c) state (Refused parsed) fun _ state' =>
      Walked parsed start state' n (done ++ [c]) todo ∧ Keeps state.forest state'.forest n := by
  have hlt := hraw.rising (h.waiting c List.mem_cons_self).1
  refine (hinner (Nat.lt_of_lt_of_le hlt hlevels) (h.due hraw hrole)).imp fun _ _ ha => ?_
  exact h.advance hraw (Role.ne_of_isStatement hrole) ha

/-- The next part is a condition. -/
theorem ensures_condition (hraw : parsed.Raw) (h : Walked parsed start state n done (c :: todo))
    (hrole : parsed.role c = .expression) {slot : Nat} (hslot : slot = done.length) :
    Ensures (condition n slot) state (Refused parsed) fun _ state' =>
      ∃ top, Walked parsed start state' n (done ++ [top]) todo ∧
        state'.forest.HasType top .int ∧ state'.forest.Brought parsed top [.int] := by
  subst hslot
  simp only [condition, bind_iff, ensures_child h.child?_eq, pure_iff]
  refine (ensures_coerced hraw (h.awaits hraw hrole) shallow_int).imp fun _ _ hboth => hboth.imp ?_
  rintro top state' ⟨he, htype, hbrought⟩
  exact ⟨top, (h.evaluate hraw hrole he).1, htype, hbrought⟩

/-! ## Statements -/

theorem advanced_nothing (hraw : parsed.Raw) (h : Entered parsed state n)
    (hkind : parsed.kind n = .nothing) : Advanced parsed state state n := by
  have hholds := hraw.shaped n
  rw [hkind] at hholds
  have hchildren : parsed.children n = [] := List.map_eq_nil_iff.mp hholds
  have hs := h.started hraw (by rw [hkind]; rfl) (by rw [hkind]; rfl)
  refine hs.finish (hchildren ▸ hs.walked) ?_ ?_
  · simp only [StatementRule, h.kind_eq, hkind]
  · simp only [SlotsRule, h.kind_eq, hkind]

theorem ensures_exprStatement (hraw : parsed.Raw) (h : Entered parsed state n)
    (hkind : parsed.kind n = .exprStatement) :
    Ensures (do let _ ← expression (← child n 0)) state (Refused parsed) fun _ state' =>
      Advanced parsed state state' n := by
  have hholds := hraw.shaped n
  rw [hkind] at hholds
  obtain ⟨c, hchildren, hrole⟩ := exists_single hholds
  have hs := h.started hraw (by rw [hkind]; rfl) (by rw [hkind]; rfl)
  have hw := hs.walked
  rw [hchildren] at hw
  have hchild : state.forest.child? n 0 = some c := hw.child?_eq
  simp only [bind_iff, ensures_child hchild, pure_iff]
  refine (ensures_expression hraw (hw.awaits hraw hrole)).imp ?_
  rintro top state' ⟨he, type, hcast⟩
  obtain ⟨hw', -⟩ := hw.evaluate hraw hrole he
  refine hs.finish hw' ?_ ?_
  · simp only [StatementRule, hw'.kind_eq, h.kind_eq, hkind]
  · simp only [SlotsRule, hw'.kind_eq, h.kind_eq, hkind, child?, hw'.children_eq]
    intro value hvalue
    obtain rfl : top = value := Option.some.inj hvalue
    exact ⟨c, top, type, hcast.supplied⟩

theorem ensures_block (hraw : parsed.Raw) (hinner : Settles parsed inner levels) (hlevels : n ≤ levels)
    (h : Entered parsed state n) (hkind : parsed.kind n = .block) :
    Ensures (inScope (each (state.forest.children n) inner)) state (Refused parsed) fun _ state' =>
      Advanced parsed state state' n := by
  have hholds := hraw.shaped n
  rw [hkind] at hholds
  have hs := h.enter.started hraw (by rw [hkind]; rfl) (by rw [hkind]; rfl)
  rw [ensures_inScope, h.children_eq]
  refine (ensures_each hraw hinner hs.walked (fun c hc => hholds _ (List.mem_map_of_mem hc))
    fun c hc => Nat.lt_of_lt_of_le (hraw.rising hc) hlevels).imp fun _ state' hw => ?_
  refine (hs.finish hw ?_ ?_).leave h.scopes h.visible
  · simp only [StatementRule, hw.kind_eq, h.enter.kind_eq, hkind]
  · simp only [SlotsRule, hw.kind_eq, h.enter.kind_eq, hkind]

theorem ensures_ifElse {labels : Option IfLabels} (hraw : parsed.Raw)
    (hinner : Settles parsed inner levels) (hlevels : n ≤ levels) (h : Entered parsed state n)
    (hkind : parsed.kind n = .ifElse labels) :
    Ensures (ifElse inner n) state (Refused parsed) fun _ state' =>
      Advanced parsed state state' n := by
  have hholds := hraw.shaped n
  rw [hkind] at hholds
  simp only [ifElse, bind_iff, ensures_jumpLabel, ensures_onForest]
  obtain ⟨hs, hkind'⟩ := h.started_labels hraw
    (.ifElse (some ⟨.jump state.session.drawn, .jump (state.session.drawn + 1)⟩)) 2
    (by rw [hkind]; rfl) (by rw [hkind]; rfl) (by rw [hkind]; rfl) rfl (by simp [hkind, Kind.isLoop])
  have hw := hs.walked
  obtain ⟨test, yes, others, hchildren, htest, hyes, hothers⟩ := exists_branches hholds
  rw [hchildren] at hw
  refine (ensures_condition hraw hw htest rfl).imp ?_
  rintro _ state₂ ⟨top, hw₂, htype, hbrought⟩
  have hchild₂ : state₂.forest.child? n 1 = some yes := hw₂.child?_eq
  simp only [ensures_child hchild₂]
  refine (ensures_inner hraw hinner hlevels hw₂ hyes).imp ?_
  rintro _ state₃ ⟨hw₃, hk₃⟩
  have hr₃ := hw₂.retains hk₃
  have hrule : ∀ {start state' : Resolution} {labels : IfLabels} {done : List NodeId},
      start.forest.kind n = .ifElse (some labels) → Walked parsed start state' n (top :: done) [] →
      state'.forest.HasType top .int → state'.forest.Brought parsed top [.int] →
      StatementRule parsed state'.table state'.forest n ∧ SlotsRule parsed state'.forest n := by
    intro start state' labels done hstart hw' htype' hbrought'
    simp only [StatementRule, SlotsRule, hw'.kind_eq, hstart, child?, hw'.children_eq]
    exact ⟨⟨(by simp), fun test htest => Option.some.inj htest ▸ htype'⟩,
      fun test htest => Option.some.inj htest ▸ hbrought'⟩
  have hbrought₃ : state₃.forest.Brought parsed top [.int] := hbrought.mono fun m _ => hr₃ m
  rcases hothers with rfl | ⟨no, rfl, hno⟩
  · have hnone : state₃.forest.child? n 2 = none := by
      rw [child?, hw₃.children_eq]
      rfl
    simp only [ensures_forest, hnone, pure_iff]
    obtain ⟨hstatement, hslots⟩ := hrule hkind' hw₃ (hk₃.hasType htype) hbrought₃
    exact hs.finish hw₃ hstatement hslots
  · have hchild₃ : state₃.forest.child? n 2 = some no := hw₃.child?_eq
    simp only [ensures_forest, hchild₃]
    refine (ensures_inner hraw hinner hlevels hw₃ hno).imp ?_
    rintro _ state' ⟨hw₄, hk₄⟩
    have hr₄ := hw₃.retains hk₄
    obtain ⟨hstatement, hslots⟩ := hrule hkind' hw₄ (hk₄.hasType (hk₃.hasType htype))
      (hbrought₃.mono fun m _ => hr₄ m)
    exact hs.finish hw₄ hstatement hslots

theorem ensures_whileLoop {labels : Option WhileLabels} (hraw : parsed.Raw)
    (hinner : Settles parsed inner levels) (hlevels : n ≤ levels) (h : Entered parsed state n)
    (hkind : parsed.kind n = .whileLoop labels) :
    Ensures (whileLoop inner n) state (Refused parsed) fun _ state' =>
      Advanced parsed state state' n := by
  have hholds := hraw.shaped n
  rw [hkind] at hholds
  obtain ⟨_, hbody, hroles⟩ := hholds
  obtain ⟨test, body, hchildren, htest, rfl⟩ := exists_pair hroles
  simp only [whileLoop, bind_iff, ensures_jumpLabel, ensures_onForest]
  obtain ⟨hs, hkind'⟩ := h.started_labels hraw
    (.whileLoop (some ⟨.jump state.session.drawn, .jump (state.session.drawn + 1)⟩)) 2
    (by rw [hkind]; rfl) (by rw [hkind]; rfl) (by rw [hkind]; rfl) rfl fun _ _ => ⟨_, rfl⟩
  have hw := hs.walked
  rw [hchildren] at hw
  refine (ensures_condition hraw hw htest rfl).imp ?_
  rintro _ state₂ ⟨top, hw₂, htype, hbrought⟩
  have hchild₂ : state₂.forest.child? n 1 = some body := hw₂.child?_eq
  have hlt := hraw.rising (hw₂.waiting body List.mem_cons_self).1
  have hdue := hw₂.due hraw hbody
  simp only [ensures_child hchild₂, ensures_inScope]
  refine (hinner (Nat.lt_of_lt_of_le hlt hlevels) hdue.enter).imp fun _ state₃ ha => ?_
  obtain ⟨hw₃, hk₃⟩ :=
    hw₂.advance hraw (Role.ne_of_isStatement hbody) (ha.leave hdue.scopes hdue.visible)
  have hr₃ := hw₂.retains hk₃
  refine hs.finish hw₃ ?_ ?_
  · simp only [StatementRule, hw₃.kind_eq, hkind', child?, hw₃.children_eq]
    exact ⟨(by simp), fun test htest => Option.some.inj htest ▸ hk₃.hasType htype⟩
  · simp only [SlotsRule, hw₃.kind_eq, hkind', child?, hw₃.children_eq]
    exact fun test htest => Option.some.inj htest ▸ hbrought.mono fun m _ => hr₃ m

/-- An absent clause is settled by being annotated. -/
theorem ensures_absent (hraw : parsed.Raw) (h : Due parsed state n)
    (hkind : parsed.kind n = .nothing) :
    Ensures (annotate n) state (Refused parsed) fun _ state' => Advanced parsed state state' n := by
  obtain ⟨hentered, hn⟩ := h.entered hraw
  rw [ensures_annotate]
  exact (advanced_nothing hraw hentered hkind).after (.of_noted hn) (.of_eq rfl rfl) rfl

theorem kind_eq_nothing_iff {kind : Kind} : kind.role = .absent ↔ kind = .nothing := by
  refine ⟨Kind.eq_nothing, ?_⟩
  rintro rfl
  rfl

theorem ensures_forLoop {labels : Option ForLabels} (hraw : parsed.Raw)
    (hinner : Settles parsed inner levels) (hlevels : n ≤ levels) (h : Entered parsed state n)
    (hkind : parsed.kind n = .forLoop labels) :
    Ensures (forLoop inner n) state (Refused parsed) fun _ state' =>
      Advanced parsed state state' n := by
  have hholds := hraw.shaped n
  rw [hkind] at hholds
  obtain ⟨_, testRole, _, _, hfirst, htest, hnext, hbody, hroles⟩ := hholds
  obtain ⟨first, test, next, body, hchildren, rfl, rfl, rfl, rfl⟩ := exists_four hroles
  simp only [forLoop, bind_iff, ensures_jumpLabel, ensures_onForest, ensures_inScope]
  obtain ⟨hs, hkind'⟩ := h.enter.started_labels hraw
    (.forLoop (some ⟨.jump state.session.drawn, .jump (state.session.drawn + 1),
      .jump (state.session.drawn + 2)⟩)) 3
    (by rw [hkind]; rfl) (by rw [hkind]; rfl) (by rw [hkind]; rfl) rfl
    (fun _ leaving => by cases leaving <;> exact ⟨_, rfl⟩)
  have hw := hs.walked
  rw [hchildren] at hw
  have hchild : child? _ n 0 = some first := hw.child?_eq
  simp only [ensures_child hchild]
  refine (ensures_inner hraw hinner hlevels hw hfirst.isStatement).imp ?_
  rintro _ state₂ ⟨hw₂, -⟩
  have hchild₂ : state₂.forest.child? n 1 = some test := hw₂.child?_eq
  have hready := (hw₂.waiting test List.mem_cons_self).2.1
  -- The step and the body follow, whether there is a condition or not.
  have hrest : ∀ {start state₃ : Resolution} {labels : ForLabels} {top : NodeId},
      Started parsed { state with table := state.table.enter } start n →
      start.forest.kind n = .forLoop (some labels) →
      Walked parsed start state₃ n [first, top] [next, body] →
      (state₃.forest.role top = .expression → state₃.forest.HasType top .int ∧
        state₃.forest.Brought parsed top [.int]) →
      Ensures (do inner (← child n 2); inner (← child n 3)) state₃ (Refused parsed) fun _ state' =>
        Advanced parsed state { state' with table := state'.table.leave } n := by
    intro start state₃ labels top hs hstart hw₃ htype
    have hchild₃ : state₃.forest.child? n 2 = some next := hw₃.child?_eq
    have htop : top < state₃.forest.size := hw₃.consistent.grown.linked.lt_size (p := n) <| by
      simp [hw₃.children_eq]
    simp only [bind_iff, ensures_child hchild₃]
    refine (ensures_inner hraw hinner hlevels hw₃ hnext.isStatement).imp ?_
    rintro _ state₄ ⟨hw₄, hk₄⟩
    have hchild₄ : state₄.forest.child? n 3 = some body := hw₄.child?_eq
    have htop' : top < state₄.forest.size := hw₄.consistent.grown.linked.lt_size (p := n) <| by
      simp [hw₄.children_eq]
    simp only [ensures_child hchild₄]
    refine (ensures_inner hraw hinner hlevels hw₄ hbody).imp ?_
    rintro _ state' ⟨hw₅, hk₅⟩
    have hr := (hw₃.retains hk₄).trans (hw₄.retains hk₅)
    have hrole : state'.forest.role top = state₃.forest.role top := by
      rw [hk₅.role top htop', hk₄.role top htop]
    refine (hs.finish hw₅ ?_ ?_).leave h.scopes h.visible
    · simp only [StatementRule, hw₅.kind_eq, hstart, child?, hw₅.children_eq]
      refine ⟨(by simp), fun test htest hexpression => ?_⟩
      obtain rfl : top = test := Option.some.inj htest
      rw [hrole] at hexpression
      exact hk₅.hasType (hk₄.hasType (htype hexpression).1)
    · simp only [SlotsRule, hw₅.kind_eq, hstart, child?, hw₅.children_eq]
      intro test htest hexpression
      obtain rfl : top = test := Option.some.inj htest
      rw [hrole] at hexpression
      exact (htype hexpression).2.mono fun m _ => hr m
  simp only [bind_iff, ensures_child hchild₂, ensures_forest, ite_iff] at hrest ⊢
  rw [hready.kind_eq]
  refine ⟨fun hnothing => ?_, fun hnothing => ?_⟩
  · have habsent : parsed.role test = .absent := kind_eq_nothing_iff.mpr hnothing
    have hstatement : (parsed.role test).IsStatement := by
      rw [habsent]
      trivial
    refine (ensures_absent hraw (hw₂.due hraw hstatement) hnothing).imp fun _ state₃ ha => ?_
    obtain ⟨hw₃, -⟩ := hw₂.advance hraw (by simp [habsent]) ha
    refine hrest hs hkind' hw₃ fun hrole => ?_
    rw [hw₃.consistent.grown.role_eq (hraw.linked.lt_size (p := n) (by simp [hchildren])),
      habsent] at hrole
    cases hrole
  · have hexpression : parsed.role test = .expression :=
      htest.resolve_right fun habsent => hnothing (kind_eq_nothing_iff.mp habsent)
    refine (ensures_condition hraw hw₂ hexpression rfl).imp ?_
    rintro _ state₃ ⟨top, hw₃, htype, hbrought⟩
    exact hrest hs hkind' hw₃ fun _ => ⟨htype, hbrought⟩

/-! ## Jumps and returns -/

theorem ensures_jump {target : Option Machine.Label} (hraw : parsed.Raw)
    (h : Entered parsed state n) (leaving : Bool)
    (hkind : parsed.kind n = if leaving then .breakOut target else .continueOn target) :
    Ensures (jump n leaving) state (Refused parsed) fun _ state' =>
      Advanced parsed state state' n := by
  simp only [jump, bind_iff, ensures_forest, h.around.enclosingLoop_eq hraw.linked hraw.ranked]
  cases hloop : parsed.enclosingLoop n with
  | none => exact Refused.of_plain rfl
  | some loop =>
    obtain ⟨label, hlabel⟩ := h.surrounded.loop loop hloop leaving
    simp only [ensures_onForest, hlabel]
    obtain ⟨hs, hkind'⟩ := h.started_labels hraw
      (if leaving then .breakOut (some label) else .continueOn (some label)) 0
      (by rw [hkind]; cases leaving <;> rfl) (by rw [hkind]; cases leaving <;> rfl)
      (by rw [hkind]; cases leaving <;> rfl) (by cases leaving <;> rfl)
      (by rw [hkind]; cases leaving <;> intros <;> contradiction)
    have hholds := hraw.shaped n
    have hchildren : parsed.children n = [] := by
      rw [hkind] at hholds
      cases leaving <;> exact List.map_eq_nil_iff.mp hholds
    refine hs.finish (hchildren ▸ hs.walked) ?_ ?_
    swap
    · unfold SlotsRule
      rw [hkind']
      cases leaving <;> trivial
    have hne : loop ≠ n :=
      Nat.ne_of_gt (lt_of_enclosingLoop hraw.linked hraw.rising hloop).1
    have hlabel' : jumpTarget? ((state.forest.setKind n
        (if leaving then .breakOut (some label) else .continueOn (some label))).kind loop)
          leaving = some label := by
      rwa [kind, setKind, node_update_of_ne _ _ hne]
    unfold StatementRule
    rw [hkind']
    cases leaving <;> simp only [Bool.false_eq_true, if_false, if_true] at hlabel' ⊢ <;>
      exact ⟨loop, label, hloop, hlabel', rfl⟩

theorem ensures_giveBack (hraw : parsed.Raw) (h : Entered parsed state n)
    (hkind : parsed.kind n = .giveBack) :
    Ensures (giveBack n) state (Refused parsed) fun _ state' =>
      Advanced parsed state state' n := by
  have hholds := hraw.shaped n
  rw [hkind] at hholds
  have hs := h.started hraw (by rw [hkind]; rfl) (by rw [hkind]; rfl)
  have hw := hs.walked
  simp only [giveBack, bind_iff, ensures_forest, h.around.owningFunction_eq hraw.linked hraw.ranked]
  cases howner : parsed.owningFunction n with
  | none => exact Refused.of_plain rfl
  | some f =>
    obtain ⟨result, hresult, hflat⟩ := h.surrounded.function f howner
    have hlt := (lt_of_owningFunction hraw.linked hraw.rising howner).2
    have hfunction := (below_of_owningFunction hraw.linked howner).2
    rw [← h.consistent.grown.bare f hlt, Kind.isFunction_bare] at hfunction
    obtain ⟨name, symbol, hf⟩ : ∃ name symbol, state.forest.kind f = .function name symbol := by
      cases hk : state.forest.kind f <;> simp_all [Kind.isFunction]
    simp only [hf, bind_iff, ensures_typeOf hresult]
    rcases hholds with hroles | hroles
    · have hchildren : parsed.children n = [] := List.map_eq_nil_iff.mp hroles
      rw [hchildren] at hw
      have hnone : state.forest.child? n 0 = none := by
        rw [child?, hw.children_eq]
        rfl
      simp only [hnone, ite_iff, ensures_refuse, pure_iff]
      refine ⟨fun _ => Refused.of_plain rfl, fun hvoid => ?_⟩
      refine hs.finish hw ?_ ?_
      · simp only [StatementRule, h.kind_eq, hkind, hnone, hw.children_eq]
        exact ⟨f, result, howner, hresult, fun _ => by simpa using hvoid, (by simp)⟩
      · simp only [SlotsRule, h.kind_eq, hkind, hnone]
        intro value hvalue
        cases hvalue
    · obtain ⟨c, hchildren, hrole⟩ := exists_single hroles
      rw [hchildren] at hw
      have hchild : state.forest.child? n 0 = some c := hw.child?_eq
      simp only [hchild, bind_iff, ite_iff, ensures_refuse, pure_iff]
      refine ⟨fun _ => Refused.of_plain rfl, fun hvoid => ?_⟩
      have hshallow : (result.withConst false).Shallow :=
        (Ty.shallow_withConst _).mpr hflat.shallow
      refine (ensures_coerced hraw (hw.awaits hraw hrole) hshallow).imp
        fun _ _ hboth => hboth.imp ?_
      rintro top state' ⟨he, ⟨found, hfound, hsame⟩, hbrought⟩
      obtain ⟨hw', hk⟩ := hw.evaluate hraw hrole he
      have hresult' := (hk.type_eq (by simp [hresult])).trans hresult
      refine hs.finish hw' ?_ ?_
      · simp only [StatementRule, hw'.kind_eq, h.kind_eq, hkind, child?, hw'.children_eq]
        refine ⟨f, result, howner, hresult', (by simp), ?_⟩
        intro value hvalue
        obtain rfl : top = value := Option.some.inj hvalue
        exact ⟨by simpa using hvoid, found, hfound, Ty.same_trans hsame (Ty.withConst_same ..)⟩
      · simp only [SlotsRule, hw'.kind_eq, h.kind_eq, hkind, child?, hw'.children_eq]
        intro value hvalue
        obtain rfl : top = value := Option.some.inj hvalue
        exact ⟨f, result, howner, hresult', hbrought⟩

end Resolve

end MiniC
