import MiniC.Proofs.Emit.Lowered

/-!
# Code of statements can be made

In a laid-out program making the code of a statement is never refused, and gives items as `Lowered`
says. Labels are there since resolution has drawn them, and the slots of variables since they have
been laid out.
-/

namespace MiniC

open Machine Forest Emit Ensures

namespace Emit

/-- The step makes the items of a statement or of several, and is never refused. -/
def Lays (layout : Layout) (root : NodeId) (piece : Piece) (step : Emit Code) : Prop :=
  ∀ output, Ensures step output Fault.Never fun code output' =>
    ∃ items, code = codeOf items ∧ Lowered layout root piece items ∧
      Extends (VoidFree layout.forest root) output output' code

/-- The code of statements one behind the other. -/
theorem lays_inOrder {layout : Layout} {root : NodeId} {inner : NodeId → Emit Code} {ids : List NodeId}
    (hinner : ∀ c ∈ ids, Lays layout root (.statement c) (inner c)) :
    Lays layout root (.statements ids) (inOrder inner ids) := by
  induction ids with
  | nil => exact fun output => ⟨[], rfl, .nil, .refl rfl⟩
  | cons c ids ih =>
    obtain ⟨hc, hids⟩ := List.forall_mem_cons.mp hinner
    intro output
    simp only [inOrder, bind_iff, pure_iff]
    refine (hc output).imp ?_
    rintro _ output₁ ⟨items, rfl, hitems, hout₁⟩
    refine (ih hids output₁).imp ?_
    rintro _ output₂ ⟨rest, rfl, hrest, hout₂⟩
    exact ⟨items ++ rest, by simp, .cons hitems hrest, hout₁.trans hout₂⟩

end Emit

namespace Ty

theorem isArray_eq_of_same {a b : Ty} (h : a.same b) : a.isArray = b.isArray := by
  rw [isArray, kind_eq_of_same h, isArray]

theorem isVoid_eq_of_same {a b : Ty} (h : a.same b) : a.isVoid = b.isVoid := by
  rw [isVoid, kind_eq_of_same h, isVoid]

end Ty

namespace Laid

variable {root id c p : NodeId} {resolution : Resolution} {layout : Layout}
  (h : Laid root resolution layout)

include h

/-- A part of a statement is an expression whose value is used. -/
theorem makes_part {kind : Kind} (hid : layout.forest.Below id root)
    (hk : layout.forest.kind id = kind) (hne : kind ≠ .exprStatement)
    (hc : c ∈ layout.forest.children id) (hrole : layout.forest.role c = .expression) :
    Makes layout root (.value c) (expression layout c) :=
  h.makes_expression ((Below.of_mem hc).trans hid) hrole (h.keeps_of_mem hid hc (hk ▸ hne))

/-- The slot of a declared variable. -/
theorem initializes {d : NodeId} (hd : layout.forest.Below d root)
    (hdecl : (layout.forest.kind d).isDeclaration) :
    ∃ s slot type, (layout.forest.kind d).symbol? = some s ∧
      (layout.table.symbol s).offset = some slot ∧ (layout.table.symbol s).type = type ∧
      Initializes layout root d slot type := by
  have hrule := (h.sound.statement d hd (Kind.isStatement_of_isDeclaration hdecl)).rule
  unfold StatementRule at hrule
  cases hk : layout.forest.kind d with
  | declaration name symbol =>
    simp only [hk] at hrule
    obtain ⟨s, type, rfl, htype, -⟩ := hrule
    have hsymbol : (layout.forest.kind d).symbol? = some s := by
      rw [hk]
      rfl
    have hrole := Kind.role_eq_declaration.mpr hdecl
    obtain ⟨hlt, hvariable⟩ := h.sound.declared.bound_variable d s (.inl hrole) hsymbol
    have hdeclared := h.sound.declared.variableAt s hlt d hvariable
    obtain ⟨hframe, hmem⟩ := h.sound.mem_variables hlt hvariable
    obtain ⟨middle, stop, hframed⟩ := h.framed _ hframe
    obtain ⟨slot, hslot, -⟩ := hframed.slots.bounds hmem
    refine ⟨s, slot, _, rfl, ?_, rfl, hd, hdecl, hdeclared.type_eq, hdeclared.type, hframe, hmem,
      hslot, ?_⟩
    · simpa [Layout.slot?, hsymbol] using hslot
    · simp [Layout.slots, hsymbol]
  | _ => simp [hk, Kind.isDeclaration] at hdecl

/-- The code that stores values into elements. -/
theorem ensures_initializers {list : NodeId} {tag : Tag} {size : Nat}
    (hlist : layout.forest.kind list = .initializers) (hbelow : layout.forest.Below list root)
    {items : List NodeId} (hitems : ∀ c ∈ items, c ∈ layout.forest.children list) :
    ∀ {slot output}, Ensures (initializers layout tag size slot items) output Fault.Never
      fun code output' => Filled layout root tag size slot items code ∧
        Extends (VoidFree layout.forest root) output output' code := by
  induction items with
  | nil => exact fun {slot output} => ⟨.nil slot, .refl rfl⟩
  | cons item items ih =>
    intro slot output
    obtain ⟨hitem, hitems⟩ := List.forall_mem_cons.mp hitems
    have hrole : layout.forest.role item = .expression := by
      have hholds := h.sound.whole.shaped list
      rw [hlist] at hholds
      exact hholds _ (List.mem_map_of_mem hitem)
    simp only [initializers, bind_iff, pure_iff]
    refine (h.makes_part hbelow hlist (by simp) hitem hrole output).imp ?_
    rintro code output₁ ⟨hcode, hout₁⟩
    refine (ih hitems).imp ?_
    rintro rest output₂ ⟨hrest, hout₂⟩
    refine ⟨.cons hcode hrest, (hout₁.trans hout₂).congr ?_⟩
    simp [Instr.routine?]

/-- The code of a declaration. -/
theorem lays_declaration {d : NodeId} (hd : layout.forest.Below d root)
    (hdecl : (layout.forest.kind d).isDeclaration) :
    Lays layout root (.statement d) (declaration layout d) := by
  intro output
  obtain ⟨s, slot, type, hs, hslot, rfl, hinit⟩ := h.initializes hd hdecl
  simp only [declaration]
  cases hchild : layout.forest.child? d 1 with
  | none => exact ⟨[], rfl, .declared hd hdecl hchild, .refl rfl⟩
  | some initial =>
    have hmem : initial ∈ layout.forest.children d := List.mem_of_getElem? hchild
    have hrule := (h.sound.statement d hd (Kind.isStatement_of_isDeclaration hdecl)).rule
    obtain ⟨name, symbol, hk⟩ : ∃ name symbol, layout.forest.kind d = .declaration name symbol := by
      cases hk : layout.forest.kind d <;> simp_all [Kind.isDeclaration]
    have hholds := h.sound.whole.shaped d
    unfold StatementRule at hrule
    simp only [hk] at hrule
    rw [hk] at hholds
    obtain ⟨s', type', rfl, htype', hrule⟩ := hrule
    obtain rfl : (layout.table.symbol s).type = type' := by
      rw [hinit.type_eq] at htype'
      exact Option.some.inj htype'
    obtain ⟨written, -, hroles⟩ := hholds
    obtain ⟨typeNode, hchildren⟩ : ∃ typeNode, layout.forest.children d = [typeNode, initial] := by
      rcases hroles with hroles | hroles | hroles
      · obtain ⟨a, hchildren, -⟩ := exists_single hroles
        simp [child?, hchildren] at hchild
      all_goals
        obtain ⟨a, b, hchildren, -⟩ := exists_pair hroles
        obtain rfl : b = initial := by simpa [child?, hchildren] using hchild
        exact ⟨a, hchildren⟩
    rw [hchildren, InitialRule] at hrule
    simp only [bind_iff]
    rw [ensures_symbolOf hs, ensures_offsetOf hslot, ite_iff]
    refine ⟨fun hlist => ?_, fun hlist => ?_⟩
    · rw [if_neg (by simp [role, hlist, Kind.role])] at hrule
      obtain ⟨-, element, size, constant, htypes, hlength, hitems⟩ := hrule
      rw [htypes] at hinit
      have hflat : element.Flat := hinit.ofVariable.shallow
      simp only [htypes, Ty.element?, bind_iff]
      refine ensures_tagOf (VoidFree layout.forest root) hflat.not_array
        (fun _ => hinit.ofVariable.element_not_void element rfl) fun output₁ hout₁ => ?_
      refine (h.ensures_initializers hlist ((Below.of_mem hmem).trans hd) fun _ hc => hc).imp ?_
      rintro code output₂ ⟨hfilled, hout₂⟩
      refine ⟨[.event (.initializer d) code], by simp [Item.code], .listed hinit hchild hlist hlength
        (fun item hitem => (hitems item hitem).1) hfilled, (hout₁.trans hout₂).congr ?_⟩
      simp
    · have hrole : layout.forest.role initial = .expression := by
        rcases hroles with hroles | hroles | hroles
        · obtain ⟨a, hsingle, -⟩ := exists_single hroles
          simp [hchildren] at hsingle
        · obtain ⟨a, b, hpair, -, hb⟩ := exists_pair hroles
          have heq : initial = b := by simpa using (List.cons.inj (hchildren.symm.trans hpair)).2
          exact heq ▸ hb
        · obtain ⟨a, b, hpair, -, hb⟩ := exists_pair hroles
          have heq : initial = b := by simpa using (List.cons.inj (hchildren.symm.trans hpair)).2
          refine absurd (Kind.eq_initializers (heq ▸ hb)) hlist
      rw [if_pos hrole] at hrule
      obtain ⟨harray, given, hgiven, hsame⟩ := hrule
      simp only [bind_iff, pure_iff]
      refine (h.makes_part hd hk (by simp) hmem hrole output).imp ?_
      rintro code output₁ ⟨hcode, hout₁⟩
      refine ensures_tagOf (VoidFree layout.forest root) harray (fun _ => hinit.ofVariable.not_void)
        fun output₂ hout₂ => ?_
      refine ⟨[.event (.initializer d) (code ++ [.str (layout.table.symbol s).type.cell 0 slot])],
        by simp [Item.code], .initialized hinit hchild harray hgiven hsame hcode,
        (hout₁.trans hout₂).congr ?_⟩
      simp [Instr.routine?]

/-- The code of a condition and of the jump behind it. -/
theorem ensures_jumpUnless {kind : Kind} {slot : Nat} {test : NodeId} {target : Label}
    (hid : layout.forest.Below id root) (hk : layout.forest.kind id = kind)
    (hne : kind ≠ .exprStatement) (hchild : layout.forest.child? id slot = some test)
    (hrole : layout.forest.role test = .expression) (htype : layout.forest.HasType test .int)
    (output : Output) :
    Ensures (jumpUnless layout id slot target) output Fault.Never fun code output' =>
      ∃ value, Tests layout root test value ∧ code = codeOf (jumpItems test value target) ∧
        Extends (VoidFree layout.forest root) output output' code := by
  have hmem := List.mem_of_getElem? hchild
  simp only [jumpUnless, bind_iff, pure_iff]
  rw [ensures_child hchild]
  refine (h.makes_part hid hk hne hmem hrole output).imp ?_
  rintro value output₁ ⟨hvalue, hout₁⟩
  refine ⟨value, ⟨(Below.of_mem hmem).trans hid, htype, hvalue⟩, by simp [jumpItems, Item.code],
    hout₁.congr ?_⟩
  simp [Instr.routine?]

/-- Steps that go on with the code in front of the body of a loop with three clauses. -/
theorem ensures_guard {kind : Kind} {slot : Nat} {test : NodeId} {target : Label} {output : Output}
    {rest : Code → Emit Code} {post : Code → Output → Prop}
    (hid : layout.forest.Below id root) (hk : layout.forest.kind id = kind)
    (hne : kind ≠ .exprStatement) (hchild : layout.forest.child? id slot = some test)
    (hrole : layout.forest.role test = .absent ∨ layout.forest.role test = .expression)
    (htype : layout.forest.role test = .expression → layout.forest.HasType test .int)
    (hrest : ∀ items output', Guards layout root test target items →
      Extends (VoidFree layout.forest root) output output' (codeOf items) →
      Ensures (rest (codeOf items)) output' Fault.Never post) :
    Ensures (if layout.forest.kind test = .nothing then pure [] >>= rest
      else jumpUnless layout id slot target >>= rest) output Fault.Never post := by
  rw [ite_iff]
  refine ⟨fun hnothing => hrest [] output (.always hnothing) (.refl rfl), fun hnothing => ?_⟩
  have htest := hrole.resolve_left fun habsent => hnothing (Kind.eq_nothing habsent)
  rw [bind_iff]
  refine (h.ensures_jumpUnless hid hk hne hchild htest (htype htest) output).imp ?_
  rintro _ output₁ ⟨value, hvalue, rfl, hout₁⟩
  exact hrest _ output₁ (.tested htest hvalue) hout₁

/-- The result of a function is a value. -/
theorem flat_result {f : NodeId} {result : Ty} (hid : layout.forest.Below id root)
    (howner : layout.forest.owningFunction id = some f)
    (hresult : layout.forest.type? f = some result) : result.isArray = false := by
  obtain ⟨hbelow, hfun⟩ := below_of_owningFunction h.sound.whole.linked howner
  obtain ⟨name, symbol, hk⟩ : ∃ name symbol, layout.forest.kind f = .function name symbol := by
    cases hk : layout.forest.kind f <;> simp_all [Kind.isFunction]
  have hrule := (h.sound.statement f (h.sound.whole.below_root hid hbelow)
    (by rw [role, hk]; trivial)).rule
  unfold StatementRule at hrule
  simp only [hk] at hrule
  obtain ⟨s, signature, found, rfl, hs, hsignature, hfound, hsame, -⟩ := hrule
  obtain rfl : result = found := Option.some.inj (hresult.symm.trans hfound)
  rw [← Ty.isArray_eq_of_same hsame]
  exact (h.sound.declared.function s hs signature hsignature).result.not_array

/-- The code of a return. -/
theorem lays_giveBack (hid : layout.forest.Below id root)
    (hk : layout.forest.kind id = .giveBack) :
    Lays layout root (.statement id) (giveBack layout id) := by
  intro output
  have hrule := (h.sound.statement id hid (by rw [role, hk]; trivial)).rule
  have hholds := h.sound.whole.shaped id
  unfold StatementRule at hrule
  simp only [hk] at hrule
  rw [hk] at hholds
  rcases hholds with hroles | hroles
  · have hchildren : layout.forest.children id = [] := List.map_eq_nil_iff.mp hroles
    simp only [giveBack, show layout.forest.child? id 0 = none by simp [child?, hchildren]]
    exact ⟨[.leave true .retp], rfl, .leave hk hchildren, .refl rfl⟩
  · obtain ⟨value, hchildren, hvalue⟩ := exists_single hroles
    have hchild : layout.forest.child? id 0 = some value := by simp [child?, hchildren]
    have hmem : value ∈ layout.forest.children id := by simp [hchildren]
    obtain ⟨f, result, howner, hresult, -, hgiven⟩ := hrule
    obtain ⟨hvoid, type, htype, hsame⟩ := hgiven value hchild
    have harray := h.flat_result hid howner hresult
    rw [← Ty.isVoid_eq_of_same hsame] at hvoid
    rw [← Ty.isArray_eq_of_same hsame] at harray
    simp only [giveBack, hchild, bind_iff, pure_iff]
    refine (h.makes_part hid hk (by simp) hmem hvalue output).imp ?_
    rintro code output₁ ⟨hcode, hout₁⟩
    rw [ensures_typeOf htype]
    refine ensures_tagOf (VoidFree layout.forest root) harray (fun _ => hvoid) fun output₂ hout₂ => ?_
    exact ⟨_, by simp [Item.code], .giveBack hk hchildren ((Below.of_mem hmem).trans hid) howner
      hresult htype hsame hvoid hcode, (hout₁.trans hout₂).congr (by simp [Instr.routine?])⟩

/-- The code of an expression whose value is not used. -/
theorem lays_exprStatement (hid : layout.forest.Below id root)
    (hk : layout.forest.kind id = .exprStatement) :
    Lays layout root (.statement id) (do discarded layout (← ask (layout.child id 0))) := by
  intro output
  have hholds := h.sound.whole.shaped id
  rw [hk] at hholds
  obtain ⟨e, hchildren, he⟩ := exists_single hholds
  have hbelow : layout.forest.Below e root := (Below.of_mem (by simp [hchildren])).trans hid
  rw [bind_iff, ensures_child (c := e) (by simp [child?, hchildren])]
  refine (h.makes_discarded hbelow he output).imp ?_
  rintro code output₁ ⟨hcode, hout₁⟩
  exact ⟨_, by simp [Item.code], .exprStatement hk hchildren hbelow hcode, hout₁⟩

section Inner

variable {inner : NodeId → Emit Code} (hid : layout.forest.Below id root)
  (hinner : ∀ c ∈ layout.forest.children id, (layout.forest.role c).IsStatement →
    Lays layout root (.statement c) (inner c))

include hid hinner

/-- The code of a choice. -/
theorem lays_ifElse {labels : IfLabels} (hk : layout.forest.kind id = .ifElse (some labels)) :
    Lays layout root (.statement id) (ifElse layout inner id labels) := by
  intro output
  have hrule := (h.sound.statement id hid (by rw [role, hk]; trivial)).rule
  have hholds := h.sound.whole.shaped id
  unfold StatementRule at hrule
  simp only [hk] at hrule
  rw [hk] at hholds
  obtain ⟨yes, hyes, hroles | ⟨no, hno, hroles⟩⟩ := hholds
  · obtain ⟨test, first, hchildren, htest, rfl⟩ := exists_pair hroles
    have hchild : layout.forest.child? id 0 = some test := by simp [child?, hchildren]
    simp only [ifElse, show layout.forest.child? id 2 = none by simp [child?, hchildren],
      bind_iff, pure_iff]
    refine (h.ensures_jumpUnless hid hk (by simp) hchild htest (hrule.2 test hchild) output).imp ?_
    rintro _ output₁ ⟨value, hvalue, rfl, hout₁⟩
    rw [ensures_child (c := first) (by simp [child?, hchildren])]
    refine (hinner first (by simp [hchildren]) hyes output₁).imp ?_
    rintro _ output₂ ⟨items, rfl, hitems, hout₂⟩
    exact ⟨_, by simp [Item.code], .ifThen hk hchildren hvalue hitems,
      (hout₁.trans hout₂).congr (by simp [Instr.routine?])⟩
  · obtain ⟨test, first, second, hchildren, htest, rfl, rfl⟩ := exists_three hroles
    have hchild : layout.forest.child? id 0 = some test := by simp [child?, hchildren]
    simp only [ifElse, show layout.forest.child? id 2 = some second by simp [child?, hchildren],
      bind_iff, pure_iff]
    refine (h.ensures_jumpUnless hid hk (by simp) hchild htest (hrule.2 test hchild) output).imp ?_
    rintro _ output₁ ⟨value, hvalue, rfl, hout₁⟩
    rw [ensures_child (c := first) (by simp [child?, hchildren])]
    refine (hinner first (by simp [hchildren]) hyes output₁).imp ?_
    rintro _ output₂ ⟨items, rfl, hitems, hout₂⟩
    refine (hinner second (by simp [hchildren]) hno output₂).imp ?_
    rintro _ output₃ ⟨others, rfl, hothers, hout₃⟩
    exact ⟨_, by simp [Item.code], .ifElse hk hchildren hvalue hitems hothers,
      ((hout₁.trans hout₂).trans hout₃).congr (by simp [Instr.routine?])⟩

/-- The code of a loop with a condition. -/
theorem lays_whileLoop {labels : WhileLabels}
    (hk : layout.forest.kind id = .whileLoop (some labels)) :
    Lays layout root (.statement id) (whileLoop layout inner id labels) := by
  intro output
  have hrule := (h.sound.statement id hid (by rw [role, hk]; trivial)).rule
  have hholds := h.sound.whole.shaped id
  unfold StatementRule at hrule
  simp only [hk] at hrule
  rw [hk] at hholds
  obtain ⟨_, hbody, hroles⟩ := hholds
  obtain ⟨test, body, hchildren, htest, rfl⟩ := exists_pair hroles
  have hchild : layout.forest.child? id 0 = some test := by simp [child?, hchildren]
  simp only [whileLoop, bind_iff, pure_iff]
  refine (h.ensures_jumpUnless hid hk (by simp) hchild htest (hrule.2 test hchild) output).imp ?_
  rintro _ output₁ ⟨value, hvalue, rfl, hout₁⟩
  rw [ensures_child (c := body) (by simp [child?, hchildren])]
  refine (hinner body (by simp [hchildren]) hbody output₁).imp ?_
  rintro _ output₂ ⟨items, rfl, hitems, hout₂⟩
  exact ⟨_, by simp [Item.code], .whileLoop hk hchildren hvalue hitems,
    (hout₁.trans hout₂).congr (by simp [Instr.routine?])⟩

/-- The code of a loop with three clauses. -/
theorem lays_forLoop {labels : ForLabels} (hk : layout.forest.kind id = .forLoop (some labels)) :
    Lays layout root (.statement id) (forLoop layout inner id labels) := by
  intro output
  have hrule := (h.sound.statement id hid (by rw [role, hk]; trivial)).rule
  have hholds := h.sound.whole.shaped id
  unfold StatementRule at hrule
  simp only [hk] at hrule
  rw [hk] at hholds
  obtain ⟨_, written, _, _, hstart, hwritten, hnext, hbody, hroles⟩ := hholds
  obtain ⟨start, test, next, body, hchildren, rfl, rfl, rfl, rfl⟩ := exists_four hroles
  have hchild : layout.forest.child? id 1 = some test := by simp [child?, hchildren]
  simp only [forLoop, bind_iff]
  rw [ensures_child (c := start) (by simp [child?, hchildren])]
  refine (hinner start (by simp [hchildren]) hstart.isStatement output).imp ?_
  rintro _ output₁ ⟨first, rfl, hfirst, hout₁⟩
  rw [ensures_child hchild]
  refine h.ensures_guard hid hk (by simp) hchild hwritten.symm (hrule.2 test hchild)
    fun guard output₂ hguard hout₂ => ?_
  simp only [bind_iff, pure_iff]
  rw [ensures_child (c := body) (by simp [child?, hchildren])]
  refine (hinner body (by simp [hchildren]) hbody output₂).imp ?_
  rintro _ output₃ ⟨items, rfl, hitems, hout₃⟩
  rw [ensures_child (c := next) (by simp [child?, hchildren])]
  refine (hinner next (by simp [hchildren]) hnext.isStatement output₃).imp ?_
  rintro _ output₄ ⟨others, rfl, hothers, hout₄⟩
  exact ⟨_, by simp [Item.code], .forLoop hk hchildren ⟨hstart, hnext⟩ hguard hfirst hitems hothers,
    (((hout₁.trans hout₂).trans hout₃).trans hout₄).congr (by simp [Instr.routine?])⟩

end Inner

/-- The code of a statement can be made, and is as `Lowered` says. -/
theorem lays_statementWithin {levels : Nat} : ∀ {id}, layout.forest.weight id < levels →
    layout.forest.Below id root → (layout.forest.role id).IsStatement →
    Lays layout root (.statement id) (statementWithin layout levels id) := by
  induction levels with
  | zero => intro id hlevels; omega
  | succ levels ih =>
    intro id hlevels hid hrole output
    have hinner : ∀ c ∈ layout.forest.children id, (layout.forest.role c).IsStatement →
        Lays layout root (.statement c) (statementWithin layout levels c) := by
      intro c hc hstatement
      have hlt := weight_lt h.sound.whole.ranked hc
      exact ih (by omega) ((Below.of_mem hc).trans hid) hstatement
    have hrule := (h.sound.statement id hid hrole).rule
    have hholds := h.sound.whole.shaped id
    unfold StatementRule at hrule
    cases hk : layout.forest.kind id with
    | declaration name symbol =>
      simp only [statementWithin, hk]
      exact h.lays_declaration hid (by rw [hk]; rfl) output
    | function name symbol =>
      simp only [statementWithin, hk]
      exact ⟨[], rfl, .function (by rw [hk]; rfl), .refl rfl⟩
    | block =>
      rw [hk] at hholds
      have hstatements : ∀ c ∈ layout.forest.children id, (layout.forest.role c).IsStatement :=
        fun c hc => hholds _ (List.mem_map_of_mem hc)
      simp only [statementWithin, hk]
      refine (lays_inOrder (fun c hc => hinner c hc (hstatements c hc)) output).imp ?_
      rintro _ output₁ ⟨items, rfl, hitems, hout₁⟩
      exact ⟨items, rfl, .block hk hitems, hout₁⟩
    | exprStatement =>
      simp only [statementWithin, hk]
      exact h.lays_exprStatement hid hk output
    | ifElse labels =>
      simp only [hk] at hrule
      obtain ⟨labels, rfl⟩ := Option.ne_none_iff_exists'.mp hrule.1
      simp only [statementWithin, hk]
      exact h.lays_ifElse hid hinner hk output
    | whileLoop labels =>
      simp only [hk] at hrule
      obtain ⟨labels, rfl⟩ := Option.ne_none_iff_exists'.mp hrule.1
      simp only [statementWithin, hk]
      exact h.lays_whileLoop hid hinner hk output
    | forLoop labels =>
      simp only [hk] at hrule
      obtain ⟨labels, rfl⟩ := Option.ne_none_iff_exists'.mp hrule.1
      simp only [statementWithin, hk]
      exact h.lays_forLoop hid hinner hk output
    | giveBack =>
      simp only [statementWithin, hk]
      exact h.lays_giveBack hid hk output
    | breakOut target =>
      simp only [hk] at hrule
      obtain ⟨loop, label, hloop, htarget, rfl⟩ := hrule
      simp only [statementWithin, hk]
      exact ⟨[.control (.ujp label)], rfl, .jump (show JumpsTo _ _ true _ _ from ⟨hk, hloop, htarget⟩), .refl rfl⟩
    | continueOn target =>
      simp only [hk] at hrule
      obtain ⟨loop, label, hloop, htarget, rfl⟩ := hrule
      simp only [statementWithin, hk]
      exact ⟨[.control (.ujp label)], rfl, .jump (show JumpsTo _ _ false _ _ from ⟨hk, hloop, htarget⟩), .refl rfl⟩
    | nothing =>
      simp only [statementWithin, hk]
      exact ⟨[], rfl, .nothing hk, .refl rfl⟩
    | _ => simp only [hk] at hrule

theorem lays_statement (hid : layout.forest.Below id root)
    (hrole : (layout.forest.role id).IsStatement) :
    Lays layout root (.statement id) (statement layout id) :=
  h.lays_statementWithin (Nat.lt_succ_of_le (weight_le layout.forest id)) hid hrole

end Laid

end MiniC
