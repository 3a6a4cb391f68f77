import MiniC.Proofs.Emit.Tags
import MiniC.Proofs.Machine.Heights
import Mathlib.Algebra.GroupWithZero.Nat

/-!
# Heights in the code of expressions and statements

If no void call is used for a value, and nothing void but calls is thrown away, then the code of an
expression leaves one cell, or none if it is a void call, and every call in it finds its arguments and
nothing else. The code of a statement leaves nothing, on whatever way control takes through it.
-/

namespace MiniC

open Machine Forest

namespace Emit

/-- No void call is used for a value: each one is a statement of its own. -/
def VoidCallsStand (forest : Forest) (root : NodeId) : Prop :=
  ∀ e name s type p, forest.Below e root → forest.kind e = .call name s →
    forest.type? e = some type → type.isVoid → forest.parent e = some p →
    forest.kind p = .exprStatement

/-- A void expression that is a statement. -/
def DiscardsVoid (forest : Forest) (e : NodeId) : Prop :=
  ∃ type p, forest.type? e = some type ∧ type.isVoid ∧ forest.parent e = some p ∧
    forest.kind p = .exprStatement

/-- Where a void expression is a statement, it is a call. -/
def DiscardsCalls (forest : Forest) (root : NodeId) : Prop :=
  ∀ e, forest.Below e root → DiscardsVoid forest e → ∃ name s, forest.kind e = .call name s

theorem VoidFree.voidCallsStand {forest : Forest} {root : NodeId} (h : VoidFree forest root) :
    VoidCallsStand forest root := by
  intro e name s type p hbelow hkind htype hvoid hparent
  have hrole : forest.role e = .expression := by
    rw [role, hkind]
    rfl
  obtain ⟨-, p', hparent', hkindp⟩ := h e type hbelow hrole htype hvoid
  obtain rfl := Option.some.inj (hparent'.symm.trans hparent)
  exact hkindp

theorem VoidFree.discardsCalls {forest : Forest} {root : NodeId} (h : VoidFree forest root)
    (hwhole : forest.Whole root) : DiscardsCalls forest root := by
  rintro e hbelow ⟨type, p, htype, hvoid, hparent, hkind⟩
  have hholds := hwhole.shaped p
  rw [hkind] at hholds
  have hrole : forest.role e ∈ [Role.expression] :=
    hholds ▸ List.mem_map_of_mem (hwhole.linked.mem_of_parent hparent)
  exact (h e type hbelow (List.mem_singleton.mp hrole) htype hvoid).1

variable {layout : Layout} {root id c : NodeId} {kind : Kind} {type : Ty} {part : Part} {code : Code}
  {height drawn : Nat} {outer : List Nat}

/-! ## Expressions -/

/-- The cells that an expression leaves. -/
def cellCount (forest : Forest) (id : NodeId) : Nat :=
  match forest.kind id with
  | .call .. => if (forest.type? id).any Ty.isVoid then 0 else 1
  | _ => 1

theorem cellCount_of_not_call {forest : Forest} (h : ∀ name s, forest.kind id ≠ .call name s) :
    cellCount forest id = 1 := by
  unfold cellCount
  split
  · next name s hkind => exact absurd hkind (h name s)
  · rfl

theorem cellCount_of_not_void {forest : Forest} (h : forest.type? id = some type)
    (hvoid : type.isVoid = false) : cellCount forest id = 1 := by
  unfold cellCount
  split <;> simp [h, hvoid]

theorem Is.cellCount_eq (h : Is layout root id kind type) (hcall : ∀ name s, kind ≠ .call name s) :
    cellCount layout.forest id = 1 :=
  cellCount_of_not_call (h.kind_eq ▸ hcall)

theorem Names.cellCount_eq {d : NodeId} {place : Place} (h : Names layout root id d place type) :
    cellCount layout.forest id = 1 :=
  cellCount_of_not_void h.type_eq h.ofVariable.not_void

/-- Every part of an expression leaves one cell. -/
theorem VoidCallsStand.cellCount_part (h : VoidCallsStand layout.forest root)
    (hwhole : layout.forest.Whole root) (hbelow : layout.forest.Below id root)
    (hrole : layout.forest.role id = .expression) (hc : c ∈ layout.forest.children id) :
    cellCount layout.forest c = 1 := by
  unfold cellCount
  split
  · next name s hkind =>
    refine if_neg fun hvoid => ?_
    obtain ⟨type, htype, hvoid⟩ := (Option.any_eq_true ..).mp hvoid
    have hstatement := h c name s type id ((Below.of_mem hc).trans hbelow) hkind htype hvoid
      (hwhole.linked.parent_of_mem hc)
    rw [role, hstatement] at hrole
    cases hrole
  · rfl

/-- The cells that code leaves above those that were there before. -/
def Part.cellCount (forest : Forest) : Part → Nat
  | value id => Emit.cellCount forest id
  | effect _ => 0
  | place _ => 1
  | arguments ids => (ids.map (Emit.cellCount forest)).sum

/-- What is void and has no use is a call. -/
def Part.Stated (forest : Forest) : Part → Prop
  | effect id => ∀ type, forest.type? id = some type → type.isVoid →
    ∃ name s, forest.kind id = .call name s
  | _ => True

/-- The code of an expression leaves one cell, or none if it is a void call. -/
theorem Coded.shift (h : Coded layout root part code) (hstand : VoidCallsStand layout.forest root)
    (hsound : Sound root layout.forest layout.table drawn) (hstated : part.Stated layout.forest) :
    code.shift layout.callee? (height :: outer) =
      some ((height + part.cellCount layout.forest) :: outer) := by
  have hpart₁ : ∀ {id c others kind type}, Is layout root id kind type → kind.role = .expression →
      layout.forest.children id = c :: others → Emit.cellCount layout.forest c = 1 :=
    fun his hrole hchildren => hstand.cellCount_part hsound.whole his.below
      (by rw [role, his.kind_eq, hrole]) (by simp [hchildren])
  have hpart₂ : ∀ {id b c kind type}, Is layout root id kind type → kind.role = .expression →
      layout.forest.children id = [b, c] → Emit.cellCount layout.forest c = 1 :=
    fun his hrole hchildren => hstand.cellCount_part hsound.whole his.below
      (by rw [role, his.kind_eq, hrole]) (by simp [hchildren])
  induction h generalizing height outer with
  | int his | char his | string his =>
    simp [Part.cellCount, Instr.shift, exchange, his.cellCount_eq]
  | scalar hnames | array hnames =>
    simp [Part.cellCount, Instr.shift, exchange, hnames.cellCount_eq]
  | @call id s signature depth code hcalls _ ih =>
    have hcallee := Layout.callee?_label hsound hcalls.signature_eq
    obtain ⟨name, hkind⟩ := hcalls.kind_eq
    have hrole : layout.forest.role id = .expression := by
      rw [role, hkind]
      rfl
    have hsum : (Part.arguments (layout.forest.children id)).cellCount layout.forest =
        (layout.forest.children id).length := by
      have hmap : (layout.forest.children id).map (Emit.cellCount layout.forest) =
          (layout.forest.children id).map fun _ => 1 :=
        List.map_congr_left fun c hc => hstand.cellCount_part hsound.whole hcalls.below hrole hc
      simp [Part.cellCount, hmap]
    have hresult : (Callee.of (layout.table.symbol s).type signature.params
        signature.variadic).result.length = Emit.cellCount layout.forest id := by
      simp only [Callee.of, Ty.cells, Emit.cellCount, hkind, hcalls.type_eq, Option.any_some]
      split <;> rfl
    rw [hsum] at ih
    cases hvariadic : signature.variadic <;> rw [hvariadic] at hresult hcallee <;>
      simp [Part.cellCount, Instr.shift, exchange, ih trivial, hcallee, hresult, Nat.add_comm]
  | assignVariable keep his hchildren hnames _ _ _ _ ih =>
    have hvalue := hpart₂ his rfl hchildren
    have hid := his.cellCount_eq (by simp)
    cases keep <;> simp [Part.of, Part.cellCount, Instr.shift, exchange, ih trivial, hvalue, hid]
  | assignAddress keep his hchildren _ _ _ _ _ _ _ _ ihplace ihvalue =>
    have hvalue := hpart₂ his rfl hchildren
    have hid := his.cellCount_eq (by simp)
    cases keep <;>
      simp [Part.of, Part.cellCount, Instr.shift, exchange, ihplace trivial, ihvalue trivial, hvalue, hid]
  | @stepVariable _ _ _ _ _ position direction keep his =>
    have hid := his.cellCount_eq (by simp)
    cases keep <;> cases position <;> cases direction <;>
      simp [Part.of, Part.cellCount, Instr.shift, exchange, hid, stepInstr]
  | @stepAddress _ _ _ position direction _ _ keep his _ _ _ _ _ _ ih =>
    have hid := his.cellCount_eq (by simp)
    cases keep <;> cases position <;> cases direction <;>
      simp [Part.of, Part.cellCount, Instr.shift, exchange, ih trivial, hid, stepInstr]
  | remainder his hchildren _ _ _ _ _ ihleft ihright =>
    have hmod : layout.callee? (.named "mod") =
        some { params := [.int, .int], variadic := false, result := [.int] } := by rfl
    have hid := his.cellCount_eq (by simp)
    have hleft := hpart₁ his rfl hchildren
    have hright := hpart₂ his rfl hchildren
    simp [Part.cellCount, Instr.shift, exchange, ihleft trivial, ihright trivial, hleft, hright, hmod,
      hid]
  | logic his hchildren _ _ _ _ ihleft ihright
  | compare his hchildren _ _ _ _ _ _ ihleft ihright
  | arith his hchildren _ _ _ _ _ _ _ ihleft ihright =>
    have hid := his.cellCount_eq (by simp)
    have hleft := hpart₁ his rfl hchildren
    have hright := hpart₂ his rfl hchildren
    simp [Part.cellCount, Instr.shift, exchange, ihleft trivial, ihright trivial, hleft, hright, hid]
  | negate his hchildren _ _ _ ih | not his hchildren _ _ ih =>
    have hid := his.cellCount_eq (by simp)
    have hoperand := hpart₁ his rfl hchildren
    simp [Part.cellCount, Instr.shift, exchange, ih trivial, hoperand, hid]
  | deref his _ _ ih | subscript his _ _ ih | addressOf his _ _ _ ih =>
    have hid := his.cellCount_eq (by simp)
    simp [Part.cellCount, Instr.shift, exchange, ih trivial, hid]
  | @conversion id inner change code his hchildren _ _ _ ih =>
    have hid := his.cellCount_eq (by simp)
    have hinner := hpart₁ his rfl hchildren
    cases change.coercion <;>
      simp [Part.cellCount, Instr.shift, exchange, ih trivial, hinner, hid]
  | named => simp [Part.cellCount, Instr.shift, exchange]
  | element his hchildren _ _ _ _ _ ihbase ihindex =>
    have hbase := hpart₁ his rfl hchildren
    have hindex := hpart₂ his rfl hchildren
    simp [Part.cellCount, Instr.shift, exchange, ihbase trivial, ihindex trivial, hbase, hindex]
  | pointee his hchildren _ _ _ ih =>
    have hoperand := hpart₁ his rfl hchildren
    simp [Part.cellCount, ih trivial, hoperand]
  | drop _ htype hnot _ ih =>
    simp [Part.cellCount, Instr.shift, exchange, ih trivial, cellCount_of_not_void htype hnot]
  | @run id type code _ htype hisVoid _ ih =>
    obtain ⟨name, s, hcall⟩ := hstated type htype hisVoid
    have hnone : Emit.cellCount layout.forest id = 0 := by
      simp [Emit.cellCount, hcall, htype, hisVoid]
    simp [Part.cellCount, ih trivial, hnone]
  | nil => simp [Part.cellCount]
  | cons _ _ ihvalue ihothers =>
    simp [Part.cellCount, ihvalue trivial, ihothers trivial, Nat.add_assoc]

/-! ## Statements -/

/-- Code that takes an empty stack to an empty stack, from its start and from behind every label, every
jump and every way out in it. -/
structure Neutral (callee? : Label → Option Callee) (code : Code) : Prop where
  whole : code.shift callee? [0] = some [0]
  rest : ∀ before instr (rest : Code), code = before ++ instr :: rest → instr.isPlain = false →
    rest.shift callee? [0] = some [0]

namespace Neutral

variable {callee? : Label → Option Callee} {code' : Code}

theorem plain (hplain : ∀ instr ∈ code, instr.isPlain) (h : code.shift callee? [0] = some [0]) :
    Neutral callee? code := by
  refine ⟨h, fun before instr rest hcode hnot => ?_⟩
  rw [hplain instr (by simp [hcode])] at hnot
  cases hnot

theorem nil : Neutral callee? [] := plain (List.forall_mem_nil _) rfl

theorem append (h : Neutral callee? code) (h' : Neutral callee? code') :
    Neutral callee? (code ++ code') := by
  refine ⟨by rw [Code.shift_append, h.whole]; exact h'.whole, fun before instr rest hcode hnot => ?_⟩
  rcases List.append_eq_append_iff.mp hcode with ⟨inside, -, hinside⟩ | ⟨inside, hfront, hinside⟩
  · exact h'.rest inside instr rest hinside hnot
  · cases inside with
    | nil => exact h'.rest [] instr rest hinside.symm hnot
    | cons first inside =>
      obtain ⟨rfl, hrest⟩ := List.cons.inj hinside
      rw [show rest = inside ++ code' from hrest, Code.shift_append,
        h.rest before instr inside hfront hnot]
      exact h'.whole

/-- Only the last instruction is a label, a jump or a way out. -/
theorem last {instr : Instr} (hplain : ∀ instr ∈ code, instr.isPlain)
    (h : (code ++ [instr]).shift callee? [0] = some [0]) : Neutral callee? (code ++ [instr]) := by
  refine ⟨h, fun before other rest hcode hnot => ?_⟩
  rcases List.eq_nil_or_concat rest with rfl | ⟨inside, final, rfl⟩
  · rfl
  · have heq : code ++ [instr] = (before ++ other :: inside) ++ [final] := by simpa using hcode
    obtain ⟨hfront, -⟩ := List.append_inj' heq rfl
    rw [hplain other (by simp [hfront])] at hnot
    cases hnot

theorem control {instr : Instr} (h : Code.shift callee? [instr] [0] = some [0]) :
    Neutral callee? [instr] :=
  last (List.forall_mem_nil _) h

theorem cons {instr : Instr} (h : Code.shift callee? [instr] [0] = some [0])
    (h' : Neutral callee? code) : Neutral callee? (instr :: code) :=
  (control h).append h'

end Neutral

theorem Tests.shift {test : NodeId} (h : Tests layout root test code)
    (hstand : VoidCallsStand layout.forest root) (hsound : Sound root layout.forest layout.table drawn) :
    code.shift layout.callee? (height :: outer) = some ((height + 1) :: outer) := by
  obtain ⟨type, htype, hsame⟩ := h.type
  have hcount := cellCount_of_not_void htype (Ty.isVoid_of_same hsame)
  rw [h.value.shift hstand hsound trivial, Part.cellCount, hcount]

/-- A condition with the jump that tests it. -/
theorem Tests.neutral {test : NodeId} (h : Tests layout root test code)
    (hstand : VoidCallsStand layout.forest root) (hsound : Sound root layout.forest layout.table drawn)
    (target : Label) : Neutral layout.callee? (codeOf (jumpItems test code target)) := by
  have hplain : ∀ instr ∈ code ++ [.conv .int .bool], instr.isPlain :=
    List.forall_mem_append.mpr ⟨h.value.plain, List.forall_mem_singleton.mpr rfl⟩
  have hlast : Neutral layout.callee? (code ++ [.conv .int .bool] ++ [.fjp target]) :=
    .last hplain (by simp [h.shift hstand hsound, Instr.shift, exchange])
  simpa [jumpItems, Item.code] using hlast

theorem Guards.neutral {test : NodeId} {target : Label} {items : List Item}
    (h : Guards layout root test target items) (hstand : VoidCallsStand layout.forest root)
    (hsound : Sound root layout.forest layout.table drawn) :
    Neutral layout.callee? (codeOf items) := by
  cases h with
  | always => exact .nil
  | tested _ htest => exact htest.neutral hstand hsound target

/-- Values that are stored leave nothing. -/
theorem Filled.shift {tag : Tag} {element : Ty} {size slot : Nat} {list : List NodeId}
    (h : Filled layout root tag size slot list code)
    (hlist : ∀ item ∈ list, layout.forest.HasType item element) (helement : element.isVoid = false)
    (hstand : VoidCallsStand layout.forest root) (hsound : Sound root layout.forest layout.table drawn) :
    code.shift layout.callee? (height :: outer) = some (height :: outer) := by
  induction h with
  | nil => rfl
  | cons hvalue _ ih =>
    obtain ⟨⟨type, htype, hsame⟩, hlist⟩ := List.forall_mem_cons.mp hlist
    have hcount := cellCount_of_not_void htype ((Ty.isVoid_of_same hsame).trans helement)
    simp [hvalue.shift hstand hsound trivial, Part.cellCount, hcount, Instr.shift, exchange, ih hlist]

/-- The code of a statement that is an expression. -/
theorem Lowered.of_exprStatement {p e : NodeId} {items : List Item}
    (h : Lowered layout root (.statement p) items) (hkind : layout.forest.kind p = .exprStatement)
    (he : e ∈ layout.forest.children p) :
    ∃ code, items = [.event (.discarded e) code] ∧ Coded layout root (.effect e) code := by
  cases h with
  | exprStatement _ hchildren _ hcode =>
    rw [hchildren, List.mem_singleton] at he
    exact ⟨_, by rw [he], he ▸ hcode⟩
  | declared _ hk => simp [hkind, Kind.isDeclaration] at hk
  | initialized hd | listed hd => simpa [hkind, Kind.isDeclaration] using hd.isDeclaration
  | function hk => simp [hkind, Kind.isFunction] at hk
  | @jump _ _ leaving _ hjump => cases leaving <;> cases hkind.symm.trans hjump.kind_eq
  | block hk | ifThen hk | ifElse hk | whileLoop hk | forLoop hk | leave hk | giveBack hk
  | nothing hk => simp [hkind] at hk

/-- The code of a statement leaves nothing on the stack. -/
theorem Lowered.neutral {piece : Piece} {items : List Item} (h : Lowered layout root piece items)
    (hstand : VoidCallsStand layout.forest root) (hcalls : DiscardsCalls layout.forest root)
    (hsound : Sound root layout.forest layout.table drawn) :
    Neutral layout.callee? (codeOf items) := by
  have label : ∀ name, Neutral layout.callee? [.label name] := fun _ => .control rfl
  have jump : ∀ name, Neutral layout.callee? [.ujp name] := fun _ => .control rfl
  have stores : ∀ {code : Code} {tag depth slot}, (∀ instr ∈ code, instr.isPlain) →
      ∀ instr ∈ code ++ [.str tag depth slot], instr.isPlain := fun hplain =>
    List.forall_mem_append.mpr ⟨hplain, List.forall_mem_singleton.mpr rfl⟩
  have stored : ∀ {e type code slot}, Coded layout root (.value e) code →
      layout.forest.type? e = some type → type.isVoid = false → ∀ tag depth,
      Code.shift layout.callee? (code ++ [.str tag depth slot]) [0] = some [0] := by
    intro e type code slot hcode htype hnot tag depth
    simp [hcode.shift hstand hsound trivial, Part.cellCount, cellCount_of_not_void htype hnot,
      Instr.shift, exchange]
  have leave : ∀ returned instr, instr = .retp ∨ instr = .retf →
      Neutral layout.callee? (codeOf [.leave returned instr]) := by
    rintro returned instr (rfl | rfl) <;> exact .control rfl
  induction h with
  | declared | function | nothing | nil => exact .nil
  | initialized hd _ _ hgiven hsame hvalue =>
    have hnot := (Ty.isVoid_of_same hsame).trans hd.ofVariable.not_void
    rw [codeOf_cons, codeOf_nil, List.append_nil]
    exact .plain (stores hvalue.plain) (stored hvalue hgiven hnot _ _)
  | listed hd _ _ _ hitems hfilled =>
    rw [codeOf_cons, codeOf_nil, List.append_nil]
    exact .plain hfilled.plain
      (hfilled.shift hitems (hd.ofVariable.element_not_void _ rfl) hstand hsound)
  | exprStatement hkind hchildren hbelow hcode =>
    have hparent := hsound.whole.linked.parent_of_mem (hchildren ▸ List.mem_singleton_self _)
    rw [codeOf_cons, codeOf_nil, List.append_nil]
    exact .plain hcode.plain (hcode.shift hstand hsound fun type htype hvoid =>
      hcalls _ hbelow ⟨type, _, htype, hvoid, hparent, hkind⟩)
  | leave => exact leave _ _ (.inl rfl)
  | giveBack _ _ _ _ _ htype _ hnot hvalue =>
    exact .append (.plain (stores hvalue.plain) (stored hvalue htype hnot _ _)) (leave true _ (.inr rfl))
  | jump => exact jump _
  | block _ _ ih => exact ih
  | ifThen _ _ htest _ ih =>
    simp only [codeOf_append]
    exact ((htest.neutral hstand hsound _).append ih).append (label _)
  | ifElse _ _ htest _ _ ihyes ihno =>
    simp only [codeOf_append]
    exact ((((htest.neutral hstand hsound _).append ihyes).append
      ((jump _).append (label _))).append ihno).append (label _)
  | whileLoop _ _ htest _ ih =>
    simp only [codeOf_append]
    exact (((label _).append (htest.neutral hstand hsound _)).append ih).append
      ((jump _).append (label _))
  | forLoop _ _ _ hguard _ _ _ ihstart ihbody ihnext =>
    simp only [codeOf_append]
    exact (((((ihstart.append (label _)).append (hguard.neutral hstand hsound)).append ihbody).append
      (label _)).append ihnext).append ((jump _).append (label _))
  | cons _ _ ihitems ihothers =>
    rw [codeOf_append]
    exact ihitems.append ihothers

/-! ## Statements in statements -/

/-- The code of a statement is part of other code, and what is behind it there is neutral. -/
def Stands (layout : Layout) (root s : NodeId) (code : Code) : Prop :=
  ∃ before mine after, code = before ++ codeOf mine ++ after ∧
    Lowered layout root (.statement s) mine ∧ Neutral layout.callee? after

namespace Stands

variable {s : NodeId} {code' : Code} {items : List Item}

theorem self (h : Lowered layout root (.statement s) items) : Stands layout root s (codeOf items) :=
  ⟨[], items, [], by simp, h, .nil⟩

theorem behind (h : Stands layout root s code) (front : Code) :
    Stands layout root s (front ++ code) := by
  obtain ⟨before, mine, after, rfl, hmine, hafter⟩ := h
  exact ⟨front ++ before, mine, after, by simp, hmine, hafter⟩

theorem before (h : Stands layout root s code) (h' : Neutral layout.callee? code') :
    Stands layout root s (code ++ code') := by
  obtain ⟨before, mine, after, rfl, hmine, hafter⟩ := h
  exact ⟨before, mine, after ++ code', by simp, hmine, hafter.append h'⟩

end Stands

/-- Only the statement itself is a statement in it if all its parts are silent. -/
theorem eq_of_silent {forest : Forest} {s : NodeId} (hwhole : forest.Whole root)
    (hs : (forest.role s).IsStatement) (h : forest.Below s id)
    (hsilent : ∀ c ∈ forest.children id, (forest.role c).IsSilent) : s = id := by
  rcases h.eq_or_child with heq | ⟨c, hc, hbelow⟩
  · exact heq
  · exact absurd hs (hwhole.not_isStatement (hsilent c hc) hbelow)

theorem not_below_expression {forest : Forest} {s e : NodeId} (hwhole : forest.Whole root)
    (hs : (forest.role s).IsStatement) (he : forest.role e = .expression) : ¬forest.Below s e :=
  fun hbelow => hwhole.not_isStatement (by rw [he]; trivial) hbelow hs

/-- The code of a statement contains that of every statement in it that is in the same frame. -/
theorem Lowered.stands {piece : Piece} {items : List Item} {s : NodeId} {function : Option NodeId}
    (h : Lowered layout root piece items) (hstand : VoidCallsStand layout.forest root)
    (hcalls : DiscardsCalls layout.forest root)
    (hsound : Sound root layout.forest layout.table drawn) (hs : (layout.forest.role s).IsStatement)
    (howner : layout.forest.owningFunction s = function) (hpiece : piece.In layout.forest function)
    (habove : piece.Above layout.forest s) : Stands layout root s (codeOf items) := by
  have hwhole := hsound.whole
  have hdeclaration : ∀ {d}, (layout.forest.kind d).isDeclaration → layout.forest.Below s d →
      s = d := fun hdecl hbelow => eq_of_silent hwhole hs hbelow fun c hc =>
    Kind.isSilent_of_isDeclaration hdecl (hwhole.shaped _) _ (List.mem_map_of_mem hc)
  have hleaf : ∀ {id kind}, layout.forest.kind id = kind → kind.Holds = (· = []) →
      layout.forest.Below s id → s = id := fun hkind hholds hbelow =>
    hbelow.eq_or_child.resolve_right (not_above_leaf hwhole fun h => by rwa [hkind, hholds] at h)
  have htested : ∀ {test code}, Tests layout root test code → ¬layout.forest.Below s test :=
    fun htest => not_below_expression hwhole hs (htest.value.role_eq (.inl rfl))
  have label : ∀ name, Neutral layout.callee? (codeOf [.control (.label name)]) := fun _ => .control rfl
  have neutral : ∀ {piece items}, Lowered layout root piece items → Neutral layout.callee? (codeOf items) :=
    fun h => h.neutral hstand hcalls hsound
  have repeats : ∀ start finish, Neutral layout.callee?
      (codeOf [.control (.ujp start), .control (.label finish)]) := fun start _ =>
    .cons rfl (.control rfl)
  induction h with
  | declared hbelow hkind hnone =>
    obtain rfl := hdeclaration hkind habove
    exact .self (.declared hbelow hkind hnone)
  | initialized hd hinitial harray hgiven hsame hvalue =>
    obtain rfl := hdeclaration hd.isDeclaration habove
    exact .self (.initialized hd hinitial harray hgiven hsame hvalue)
  | listed hd hinitial hlist hlength hitems hfilled =>
    obtain rfl := hdeclaration hd.isDeclaration habove
    exact .self (.listed hd hinitial hlist hlength hitems hfilled)
  | function hkind =>
    obtain rfl := eq_of_owner hwhole hkind hpiece howner habove
    exact .self (.function hkind)
  | @block id items hkind hitems ih =>
    rcases habove.eq_or_child with rfl | ⟨c, hc, hbelow⟩
    · exact .self (.block hkind hitems)
    · exact ih (fun c hc => owner_of_mem hwhole (by rw [hkind]; rfl) hpiece hc) ⟨c, hc, hbelow⟩
  | exprStatement hkind hchildren hbelow hcode =>
    obtain rfl := eq_of_silent hwhole hs habove (by
      rw [hchildren, List.forall_mem_singleton, hcode.role_eq (.inr (.inl rfl))]
      trivial)
    exact .self (.exprStatement hkind hchildren hbelow hcode)
  | @ifThen id test yes labels code items hkind hchildren htest hyes ih =>
    rcases habove.eq_or_child with rfl | ⟨c, hc, hbelow⟩
    · exact .self (.ifThen hkind hchildren htest hyes)
    have hin := owner_of_mem hwhole (by rw [hkind]; rfl) hpiece hc
    simp only [hchildren, List.mem_cons, List.not_mem_nil, or_false] at hc
    simp only [codeOf_append]
    rcases hc with rfl | rfl
    · exact absurd hbelow (htested htest)
    · exact ((ih hin hbelow).behind _).before (label _)
  | @ifElse id test yes no labels code items others hkind hchildren htest hyes hno ihyes ihno =>
    rcases habove.eq_or_child with rfl | ⟨c, hc, hbelow⟩
    · exact .self (.ifElse hkind hchildren htest hyes hno)
    have hin := owner_of_mem hwhole (by rw [hkind]; rfl) hpiece hc
    simp only [hchildren, List.mem_cons, List.not_mem_nil, or_false] at hc
    simp only [codeOf_append]
    rcases hc with rfl | rfl | rfl
    · exact absurd hbelow (htested htest)
    · exact ((((ihyes hin hbelow).behind _).before (repeats _ _)).before (neutral hno)).before (label _)
    · exact ((ihno hin hbelow).behind _).before (label _)
  | @whileLoop id test body labels code items hkind hchildren htest hbody ih =>
    rcases habove.eq_or_child with rfl | ⟨c, hc, hbelow⟩
    · exact .self (.whileLoop hkind hchildren htest hbody)
    have hin := owner_of_mem hwhole (by rw [hkind]; rfl) hpiece hc
    simp only [hchildren, List.mem_cons, List.not_mem_nil, or_false] at hc
    simp only [codeOf_append]
    rcases hc with rfl | rfl
    · exact absurd hbelow (htested htest)
    · exact ((ih hin hbelow).behind _).before (repeats _ _)
  | @forLoop id start test next body labels first guard items others hkind hchildren hclauses hguard
      hstart hbody hnext ihstart ihbody ihnext =>
    rcases habove.eq_or_child with rfl | ⟨c, hc, hbelow⟩
    · exact .self (.forLoop hkind hchildren hclauses hguard hstart hbody hnext)
    have hin := owner_of_mem hwhole (by rw [hkind]; rfl) hpiece hc
    simp only [hchildren, List.mem_cons, List.not_mem_nil, or_false] at hc
    simp only [codeOf_append]
    rcases hc with rfl | rfl | rfl | rfl
    · exact ((((((ihstart hin hbelow).before (label _)).before (hguard.neutral hstand hsound)).before
        (neutral hbody)).before (label _)).before (neutral hnext)).before (repeats _ _)
    · refine ((((Stands.behind ?_ _).before (neutral hbody)).before (label _)).before
        (neutral hnext)).before (repeats _ _)
      cases hguard with
      | always hnothing =>
        obtain rfl := hleaf hnothing rfl hbelow
        exact .self (.nothing hnothing)
      | tested hrole => exact absurd hbelow (not_below_expression hwhole hs hrole)
    · exact ((ihnext hin hbelow).behind _).before (repeats _ _)
    · exact ((((ihbody hin hbelow).behind _).before (label _)).before (neutral hnext)).before (repeats _ _)
  | leave hkind hchildren =>
    obtain rfl := eq_of_silent hwhole hs habove (by simp [hchildren])
    exact .self (.leave hkind hchildren)
  | giveBack hkind hchildren hbelow hin hresult htype hsame hnot hvalue =>
    obtain rfl := eq_of_silent hwhole hs habove (by
      rw [hchildren, List.forall_mem_singleton, hvalue.role_eq (.inl rfl)]
      trivial)
    exact .self (.giveBack hkind hchildren hbelow hin hresult htype hsame hnot hvalue)
  | @jump id loop leaving label hjump =>
    obtain rfl : s = id := by cases leaving <;> exact hleaf hjump.kind_eq rfl habove
    exact .self (.jump hjump)
  | nothing hkind =>
    obtain rfl := hleaf hkind rfl habove
    exact .self (.nothing hkind)
  | nil =>
    obtain ⟨id, hid, -⟩ := habove
    cases hid
  | cons hitems hothers ihitems ihothers =>
    obtain ⟨id, hid, hbelow⟩ := habove
    obtain ⟨hfirst, hrest⟩ := List.forall_mem_cons.mp (show ∀ c ∈ _ :: _, _ from hpiece)
    rw [codeOf_append]
    rcases List.mem_cons.mp hid with rfl | hid
    · exact (ihitems hfirst hbelow).before (neutral hothers)
    · exact (ihothers hrest ⟨id, hid, hbelow⟩).behind _

end Emit

end MiniC
