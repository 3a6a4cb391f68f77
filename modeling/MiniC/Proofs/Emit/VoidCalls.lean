import MiniC.Proofs.Emit.Heights

/-!
# Void calls that are used

Resolution lets a void call stand as a statement, as an argument of a call whose types are not fixed, and
on the right of an assignment to what a pointer to void points at. In the last two places its code leaves
less than what is around it takes. Other void values leave a cell that nothing takes if they are discarded.
-/

namespace MiniC

open Machine Forest Emit

/-! ## Where void calls stand -/

/-- A conversion to another type starts from no void value. -/
theorem Ty.not_void_of_conversion? {source target : Ty} {change : Coercion}
    (h : source.conversion? target = some change) (hsame : source.same target = false) :
    source.isVoid = false := by
  rw [conversion?, hsame] at h
  cases source with
  | base name => cases name <;> simp_all [kind, isVoid]
  | pointer | array => rfl

namespace Sound

variable {root e p : NodeId} {forest : Forest} {table : SymbolTable} {drawn : Nat} {type : Ty}

/-- A variable is not void, and neither are its elements. -/
theorem ofVariable {d : NodeId} (h : Sound root forest table drawn) (hd : forest.Below d root)
    (hdecl : (forest.kind d).isDeclaration) (htype : forest.type? d = some type) : type.OfVariable := by
  have hrule := (h.statement d hd (Kind.isStatement_of_isDeclaration hdecl)).rule
  unfold StatementRule at hrule
  cases hk : forest.kind d with
  | declaration name symbol =>
    simp only [hk] at hrule
    obtain ⟨s, type', rfl, -, -⟩ := hrule
    have hsymbol : (forest.kind d).symbol? = some s := by
      rw [hk]
      rfl
    obtain ⟨hlt, hvariable⟩ := h.declared.bound_variable d s (.inl (Kind.role_eq_declaration.mpr hdecl))
      hsymbol
    have hdeclared := h.declared.variableAt s hlt d hvariable
    rw [← Option.some.inj (hdeclared.type_eq.symm.trans htype)]
    exact hdeclared.type
  | _ => simp [hk, Kind.isDeclaration] at hdecl

/-- What a statement computes with is not void. -/
theorem not_void_of_statement (h : Sound root forest table drawn) (hp : forest.Below p root)
    (hrole : (forest.role p).IsStatement) (hne : forest.kind p ≠ .exprStatement)
    (he : e ∈ forest.children p) (hexpression : forest.role e = .expression)
    (htype : forest.type? e = some type) : type.isVoid = false := by
  have hrule := (h.statement p hp hrole).rule
  have hholds := h.whole.shaped p
  have hof : ∀ {wanted : Ty}, forest.HasType e wanted → wanted.isVoid = false →
      type.isVoid = false := by
    rintro wanted ⟨found, hfound, hsame⟩ hwanted
    obtain rfl := Option.some.inj (hfound.symm.trans htype)
    rw [Ty.isVoid_of_same hsame, hwanted]
  obtain ⟨slot, hslot⟩ := List.getElem?_of_mem he
  have hget : (forest.roles p)[slot]? = some .expression := hexpression ▸ roles_of_child? hslot
  unfold StatementRule at hrule
  cases hk : forest.kind p with
  | declaration name symbol =>
    simp only [hk] at hrule
    rw [hk] at hholds
    obtain ⟨s, declared, -, hdeclared, hinitial⟩ := hrule
    have hvariable := h.ofVariable hp (by rw [hk]; rfl) hdeclared
    obtain ⟨written, hwritten, hroles | hroles | hroles⟩ := hholds
    · rcases hwritten with rfl | rfl <;> rcases slot with _ | _ <;> simp [hroles] at hget
    · obtain ⟨a, b, hchildren, rfl, hb⟩ := exists_pair hroles
      rw [hchildren, InitialRule, if_pos hb] at hinitial
      obtain rfl : b = e := by
        rcases slot with _ | _ | slot
        · rcases hwritten with hwritten | hwritten <;> simp [hroles, hwritten] at hget
        · simpa [hchildren] using hslot
        · simp [hroles] at hget
      exact hof hinitial.2 hvariable.not_void
    · rcases hwritten with rfl | rfl <;> rcases slot with _ | _ | _ <;> simp [hroles] at hget
  | ifElse labels =>
    simp only [hk] at hrule
    rw [hk] at hholds
    obtain rfl : slot = 0 := by
      obtain ⟨yes, hyes, hroles | ⟨no, hno, hroles⟩⟩ := hholds <;>
        rcases slot with _ | _ | _ | slot <;> simp [hroles] at hget ⊢
      · exact Role.ne_of_isStatement hyes hget
      · exact Role.ne_of_isStatement hyes hget
      · exact Role.ne_of_isStatement hno hget
    exact hof (hrule.2 e hslot) rfl
  | whileLoop labels =>
    simp only [hk] at hrule
    rw [hk] at hholds
    obtain rfl : slot = 0 := by
      obtain ⟨body, hbody, hroles⟩ := hholds
      rcases slot with _ | _ | slot <;> simp [hroles] at hget ⊢
      exact Role.ne_of_isStatement hbody hget
    exact hof (hrule.2 e hslot) rfl
  | forLoop labels =>
    simp only [hk] at hrule
    rw [hk] at hholds
    obtain rfl : slot = 1 := by
      obtain ⟨start, test, next, body, hstart, -, hnext, hbody, hroles⟩ := hholds
      rcases slot with _ | _ | _ | _ | slot <;> simp [hroles] at hget ⊢
      · exact Role.ne_of_isStatement hstart.isStatement hget
      · exact Role.ne_of_isStatement hnext.isStatement hget
      · exact Role.ne_of_isStatement hbody hget
    exact hof (hrule.2 e hslot hexpression) rfl
  | giveBack =>
    simp only [hk] at hrule
    rw [hk] at hholds
    obtain rfl : slot = 0 := by
      rcases hholds with hroles | hroles <;> rcases slot with _ | slot <;> simp [hroles] at hget ⊢
    obtain ⟨f, result, -, -, -, hgiven⟩ := hrule
    obtain ⟨hresult, htyped⟩ := hgiven e hslot
    exact hof htyped hresult
  | exprStatement => exact absurd hk hne
  | block =>
    rw [hk] at hholds
    exact absurd rfl (Role.ne_of_isStatement (hholds _ (List.mem_of_getElem? hget)))
  | function name symbol =>
    rw [hk] at hholds
    rcases hholds with hroles | hroles <;> rcases slot with _ | _ | _ | slot <;> simp [hroles] at hget
  | _ => simp_all [Kind.Holds, role, Kind.role, Role.IsStatement]

/-- What is in the list of an array is not void. -/
theorem not_void_of_initializers (h : Sound root forest table drawn) (hp : forest.Below p root)
    (hrole : forest.role p = .initializers) (he : e ∈ forest.children p)
    (htype : forest.type? e = some type) : type.isVoid = false := by
  have hwhole := h.whole
  have hne : p ≠ root := by
    rintro rfl
    rw [role, hwhole.kind_root] at hrole
    cases hrole
  obtain ⟨d, hd, hdroot⟩ := hp.exists_parent hwhole.linked hne
  have hpd := hwhole.linked.mem_of_parent hd
  obtain ⟨hdecl, written, hwritten, hroles⟩ :=
    Kind.of_initializers (hwhole.shaped d) (show Role.initializers ∈ forest.roles d from
      hrole ▸ List.mem_map_of_mem hpd)
  obtain ⟨typeNode, list, hchildren, hwrites, element, size, constant, hdtype, -, hitems⟩ :=
    (h.statement d hdroot (Kind.isStatement_of_isDeclaration hdecl)).items hdecl hroles
  rw [hchildren, List.mem_pair] at hpd
  rcases hpd with rfl | rfl
  · exact absurd (hwrites.symm.trans hrole) hwritten
  · obtain ⟨⟨found, hfound, hsame⟩, -⟩ := hitems e he
    obtain rfl := Option.some.inj (hfound.symm.trans htype)
    rw [Ty.isVoid_of_same hsame]
    exact (h.ofVariable hdroot hdecl hdtype).element_not_void _ rfl

/-- An operand is not void unless it is a place, or what is passed to a call or assigned. -/
theorem not_void_of_operand (h : Sound root forest table drawn) (hp : forest.Below p root)
    (hrole : forest.role p = .expression) (hcall : ∀ name s, forest.kind p ≠ .call name s)
    (hassign : forest.kind p ≠ .binary .assign) (he : e ∈ forest.children p)
    (hplace : (forest.kind e).isPlace = false) (htype : forest.type? e = some type) :
    type.isVoid = false := by
  obtain ⟨judged, -, hjudged⟩ := h.expression p hp hrole
  have hrule := hjudged.rule
  have hholds := h.whole.shaped p
  have hof : ∀ {found wanted : Ty}, forest.type? e = some found → found.same wanted →
      wanted.isVoid = false → type.isVoid = false := by
    intro found wanted hfound hsame hwanted
    obtain rfl := Option.some.inj (hfound.symm.trans htype)
    rw [Ty.isVoid_of_same hsame, hwanted]
  unfold ExpressionRule at hrule
  cases hk : forest.kind p with
  | call name s => exact absurd hk (hcall name s)
  | binary op =>
    simp only [hk] at hrule
    obtain ⟨left, right, l, r, hchildren, hl, hr, hop⟩ := hrule
    have hside : e = left ∨ e = right := by simpa [hchildren] using he
    cases op with
    | assign => exact absurd hk hassign
    | logic | remainder =>
      rcases hside with rfl | rfl
      · exact hof hl hop.1 rfl
      · exact hof hr hop.2.1 rfl
    | arith =>
      obtain ⟨hlsame, hrsame, hscalar⟩ := hop
      rcases hside with rfl | rfl
      · exact hof hl hlsame (Ty.not_void_of_isScalar hscalar)
      · exact hof hr hrsame (Ty.not_void_of_isScalar hscalar)
    | compare =>
      obtain ⟨hsame, hscalar, -⟩ := hop
      rcases hside with rfl | rfl
      · exact hof hl (Ty.same_refl l) (Ty.not_void_of_isScalar hscalar)
      · exact hof hr ((Ty.same_comm _ _).trans hsame) (Ty.not_void_of_isScalar hscalar)
  | unary op =>
    simp only [hk] at hrule
    obtain ⟨operand, o, hchildren, ho, hop⟩ := hrule
    obtain rfl : e = operand := by simpa [hchildren] using he
    cases op with
    | negate => exact hof ho (Ty.same_refl o) (Ty.not_void_of_isIntegral hop.1)
    | not => exact hof ho hop.1 rfl
    | deref => exact hof ho (Ty.same_refl o) (Ty.cell_of_pointee? hop).2
    | addressOf | step =>
      rw [hop.1] at hplace
      cases hplace
  | subscript =>
    simp only [hk] at hrule
    obtain ⟨base, index, b, size, hchildren, -, hb, helements, found, hfound, hsame⟩ := hrule
    have hside : e = base ∨ e = index := by simpa [hchildren] using he
    rcases hside with rfl | rfl
    · exact hof hb (Ty.same_refl b) (Ty.cell_of_elements? helements).2
    · exact hof hfound hsame rfl
  | conversion change =>
    simp only [hk] at hrule
    obtain ⟨inner, hchildren, hinner, rfl, hsame, hchange⟩ := hrule
    obtain rfl : e = inner := by simpa [hchildren] using he
    exact hof hinner (Ty.same_refl _) (Ty.not_void_of_conversion? hchange hsame)
  | _ => simp_all [Kind.Holds, roles]

/-- A void call is a statement, an argument of a call or what is assigned to a place. -/
theorem cases_of_void_call {name : String} {s : Option SymbolId} (h : Sound root forest table drawn)
    (he : forest.Below e root) (hkind : forest.kind e = .call name s)
    (htype : forest.type? e = some type) (hvoid : type.isVoid) (hparent : forest.parent e = some p) :
    forest.kind p = .exprStatement ∨ (∃ name s, forest.kind p = .call name s) ∨
      ∃ target, forest.kind p = .binary .assign ∧ forest.children p = [target, e] := by
  have hmem := h.whole.linked.mem_of_parent hparent
  have hp := h.whole.below_root he (.of_mem hmem)
  have hexpression : forest.role e = .expression := by
    rw [role, hkind]
    rfl
  have hplace : (forest.kind e).isPlace = false := by
    rw [hkind]
    rfl
  have hnot : type.isVoid ≠ false := by simp [hvoid]
  rcases Kind.cases_of_expression (h.whole.shaped p) (hexpression ▸ List.mem_map_of_mem hmem) with
    hprole | hlist | ⟨hstatement, -⟩
  · by_cases hcall : ∃ name s, forest.kind p = .call name s
    · exact .inr (.inl hcall)
    by_cases hassign : forest.kind p = .binary .assign
    · obtain ⟨judged, -, hjudged⟩ := h.expression p hp hprole
      have hrule := hjudged.rule
      rw [ExpressionRule, hassign] at hrule
      obtain ⟨left, right, l, r, hchildren, -, -, hleft, -⟩ := hrule
      have hside : e = left ∨ e = right := by simpa [hchildren] using hmem
      rcases hside with rfl | rfl
      · cases hleft.symm.trans hplace
      · exact .inr (.inr ⟨left, hassign, hchildren⟩)
    · exact absurd (h.not_void_of_operand hp hprole (fun name s hk => hcall ⟨name, s, hk⟩) hassign
        hmem hplace htype) hnot
  · exact absurd (h.not_void_of_initializers hp hlist hmem htype) hnot
  · by_cases hk : forest.kind p = .exprStatement
    · exact .inl hk
    · exact absurd (h.not_void_of_statement hp hstatement hk hmem hexpression htype) hnot

end Sound

namespace Emit

variable {layout : Layout} {root id e p target : NodeId} {code : Code} {ids : List NodeId} {drawn : Nat}
  {type : Ty} {part : Part} {height : Nat} {outer : List Nat}

/-! ## What they leave -/

/-- The code of every expression leaves the cells that are counted for it. -/
def Exact (layout : Layout) (root : NodeId) : Prop :=
  ∀ e code, Coded layout root (.value e) code → ∀ height outer,
    code.shift layout.callee? (height :: outer) =
      some ((height + cellCount layout.forest e) :: outer)

namespace Exact

theorem arguments (h : Exact layout root) (hcode : Coded layout root (.arguments ids) code) :
    code.shift layout.callee? (height :: outer) =
      some ((height + (ids.map (cellCount layout.forest)).sum) :: outer) := by
  generalize hpart : Part.arguments ids = part at hcode
  induction hcode generalizing ids height with
  | nil =>
    cases hpart
    rfl
  | cons hvalue _ _ ih =>
    cases hpart
    simp [h _ _ hvalue, ih rfl, Nat.add_assoc]
  | assignVariable keep | assignAddress keep | stepVariable keep | stepAddress keep =>
    cases keep <;> cases hpart
  | _ => cases hpart

theorem place (h : Exact layout root) (hcode : Coded layout root (.place id) code) :
    code.shift layout.callee? (height :: outer) = some ((height + 1) :: outer) := by
  generalize hpart : Part.place id = part at hcode
  cases hcode with
  | named => simp [Instr.shift, exchange]
  | element _ _ hb helements hi hbase hindex =>
    obtain ⟨found, hfound, hsame⟩ := hi
    have hbaseCount := cellCount_of_not_void hb (Ty.cell_of_elements? helements).2
    have hindexCount := cellCount_of_not_void hfound (Ty.isVoid_of_same hsame)
    simp [h _ _ hbase, h _ _ hindex, hbaseCount, hindexCount, Instr.shift, exchange]
  | pointee _ _ ho hpointee hoperand =>
    have hcount := cellCount_of_not_void ho (Ty.cell_of_pointee? hpointee).2
    simp [h _ _ hoperand, hcount]
  | assignVariable keep | assignAddress keep | stepVariable keep | stepAddress keep =>
    cases keep <;> cases hpart
  | _ => cases hpart

/-- A call with a void call among its arguments does not find as many as it takes. -/
theorem call_none {name : String} {s : Option SymbolId} (h : Exact layout root)
    (hcode : Coded layout root (.value p) code) (hkind : layout.forest.kind p = .call name s)
    (he : e ∈ layout.forest.children p) (hcount : cellCount layout.forest e = 0) :
    code.shift layout.callee? [0] = none := by
  have hle : ∀ id, cellCount layout.forest id ≤ 1 := by
    intro id
    unfold cellCount
    split
    · split <;> omega
    · omega
  have hlt : ((layout.forest.children p).map (cellCount layout.forest)).sum <
      (layout.forest.children p).length := by
    obtain ⟨front, rest, hchildren⟩ := List.append_of_mem he
    have hbound : ∀ ids : List NodeId, (ids.map (cellCount layout.forest)).sum ≤ ids.length := by
      intro ids
      induction ids with
      | nil => rfl
      | cons id ids ih =>
        have hid := hle id
        simp only [List.map_cons, List.sum_cons, List.length_cons]
        omega
    have hfront := hbound front
    have hrest := hbound rest
    simp only [hchildren, List.map_append, List.map_cons, List.sum_append, List.sum_cons, hcount,
      List.length_append, List.length_cons]
    omega
  generalize hpart : Part.value p = part at hcode
  cases hcode with
  | @call _ _ signature _ _ hcalls harguments =>
    cases hpart
    cases hvariadic : signature.variadic <;>
      simp [h.arguments harguments, Instr.shift, exchange] <;> omega
  | scalar hnames | array hnames =>
    cases hpart
    simpa [hkind, Kind.isIdentifier] using hnames.isIdentifier
  | assignVariable keep his | assignAddress keep his | stepVariable keep his | stepAddress keep his =>
    cases keep <;> cases hpart
    cases his.kind_eq.symm.trans hkind
  | int his | char his | string his | remainder his | logic his | compare his | arith his
  | negate his | not his | deref his | addressOf his | subscript his | conversion his =>
    cases hpart
    cases his.kind_eq.symm.trans hkind
  | _ => cases hpart

/-- A void call leaves nothing to assign. -/
theorem assign_none (h : Exact layout root) (hcode : Coded layout root part code)
    (hpart : part = .value p ∨ part = .effect p) (hkind : layout.forest.kind p = .binary .assign)
    (hchildren : layout.forest.children p = [target, e]) (htype : layout.forest.type? e = some type)
    (hvoid : type.isVoid) (hcount : cellCount layout.forest e = 0) :
    code.shift layout.callee? [0] = none := by
  induction hcode with
  | assignVariable keep his hchildren' hnames _ hgiven hsame _ =>
    obtain rfl : _ = p := by cases keep <;> simpa [Part.of] using hpart
    obtain ⟨-, rfl⟩ : _ = target ∧ _ = e := by simpa [hchildren] using hchildren'.symm
    obtain rfl := Option.some.inj (hgiven.symm.trans htype)
    rw [Ty.isVoid_of_same hsame, hnames.ofVariable.not_void] at hvoid
    cases hvoid
  | assignAddress keep his hchildren' _ _ _ _ _ _ hplace hvalue =>
    obtain rfl : _ = p := by cases keep <;> simpa [Part.of] using hpart
    obtain ⟨-, rfl⟩ : _ = target ∧ _ = e := by simpa [hchildren] using hchildren'.symm
    cases keep <;> simp [h.place hplace, h _ _ hvalue, hcount, Instr.shift, exchange]
  | drop _ _ _ _ ih | run _ _ _ _ ih =>
    obtain rfl : _ = p := by simpa using hpart
    simp [ih (.inl rfl)]
  | scalar hnames | array hnames =>
    obtain rfl : _ = p := by simpa using hpart
    simpa [hkind, Kind.isIdentifier] using hnames.isIdentifier
  | call hcalls =>
    obtain rfl : _ = p := by simpa using hpart
    obtain ⟨name, hcall⟩ := hcalls.kind_eq
    cases hcall.symm.trans hkind
  | stepVariable keep his | stepAddress keep his =>
    obtain rfl : _ = p := by cases keep <;> simpa [Part.of] using hpart
    cases his.kind_eq.symm.trans hkind
  | int his | char his | string his | remainder his | logic his | compare his | arith his
  | negate his | not his | deref his | addressOf his | subscript his | conversion his =>
    obtain rfl : _ = p := by simpa using hpart
    cases his.kind_eq.symm.trans hkind
  | _ => simp at hpart

end Exact

/-- A void value that is discarded stays on the stack, unless it is that of a call or an assignment. -/
theorem Coded.shift_discarded (h : Coded layout root (.effect id) code)
    (hstand : VoidCallsStand layout.forest root) (hsound : Sound root layout.forest layout.table drawn)
    (htype : layout.forest.type? id = some type) (hvoid : type.isVoid)
    (hcall : ∀ name s, layout.forest.kind id ≠ .call name s)
    (hassign : layout.forest.kind id ≠ .binary .assign) :
    code.shift layout.callee? (height :: outer) = some ((height + 1) :: outer) := by
  generalize hpart : Part.effect id = part at h
  cases h with
  | assignVariable keep his | assignAddress keep his =>
    cases keep <;> cases hpart
    exact absurd his.kind_eq hassign
  | stepVariable keep his _ _ hscalar | stepAddress keep his _ _ _ hscalar =>
    cases keep <;> cases hpart
    obtain rfl := Option.some.inj (his.type_eq.symm.trans htype)
    rw [Ty.not_void_of_isScalar hscalar] at hvoid
    cases hvoid
  | drop _ htype' hnot =>
    cases hpart
    obtain rfl := Option.some.inj (htype'.symm.trans htype)
    rw [hnot] at hvoid
    cases hvoid
  | run _ _ _ hvalue =>
    cases hpart
    rw [hvalue.shift hstand hsound trivial, Part.cellCount, cellCount_of_not_call hcall]
  | _ => cases hpart

end Emit

end MiniC
