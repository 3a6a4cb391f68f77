import MiniC.Proofs.Emit.VoidCalls
import MiniC.Proofs.Tags

/-!
# Stack balance

The code of a program keeps the stack balanced: on every path each statement leaves the stack as high as
it finds it, and each call finds just its arguments. Two kinds of programs are apart: in those that use
the result of a void call a cell is missing, and in those that throw away a void value that no call gives,
such as what a pointer to void points at, a cell is left over.
-/

namespace MiniC

open Machine Forest Emit

namespace Machine

variable {callee? : Label → Option Callee} {code start front rest : Code} {heights heights' : List Nat}

theorem Instr.goesOn_of_isPlain {instr : Instr} (h : instr.isPlain) : instr.goesOn := by
  cases instr <;> first | rfl | cases h

/-- A run goes through code without jumps from its first to its last instruction. -/
theorem Climbs.straight (h : Climbs callee? code start (front ++ rest) heights)
    (hplain : ∀ instr ∈ front, instr.isPlain) (hshift : front.shift callee? heights = some heights') :
    Climbs callee? code start rest heights' := by
  induction front generalizing heights with
  | nil => exact Option.some.inj hshift ▸ h
  | cons instr front ih =>
    obtain ⟨hinstr, hplain⟩ := List.forall_mem_cons.mp hplain
    obtain ⟨next, hstep, hshift⟩ := Option.bind_eq_some_iff.mp hshift
    exact ih (h.next (Instr.goesOn_of_isPlain hinstr) hstep) hplain hshift

end Machine

namespace Emit

variable {callee? : Label → Option Callee} {code start rest : Code} {heights : List Nat}

/-- Wherever a run of neutral code comes to, what is left of the code takes the heights there to those of
an empty stack. -/
theorem Neutral.shift_of_climbs (h : Neutral callee? code) (hstart : start <:+ code)
    (hneutral : start.shift callee? [0] = some [0]) (hclimb : Climbs callee? code start rest heights) :
    rest <:+ code ∧ rest.shift callee? heights = some [0] := by
  induction hclimb with
  | start => exact ⟨hstart, hneutral⟩
  | next _ _ hstep ih =>
    obtain ⟨hsuffix, hshift⟩ := ih
    rw [Code.shift_cons, hstep] at hshift
    exact ⟨(List.suffix_cons _ _).trans hsuffix, hshift⟩
  | @jump instr rest after heights heights' target _ hjump hstep hplace ih =>
    obtain ⟨⟨before, hcode⟩, hshift⟩ := ih
    obtain ⟨before', hcode'⟩ := hplace
    rw [Code.shift_cons, hstep] at hshift
    have hplain : instr.isPlain = false := by cases instr <;> first | rfl | cases hjump
    obtain rfl := Code.shift_injective hshift (h.rest _ _ _ hcode.symm hplain)
    have hafter := h.rest before' (.label target) after hcode'.symm rfl
    exact ⟨⟨before', hcode'⟩, by simpa [Instr.shift, exchange] using hafter⟩

section Program

variable {layout : Layout} {root f s : NodeId} {items : List Item} {drawn : Nat}

theorem shift_storeChars (slot : Nat) (cs : List Char) :
    (storeChars slot cs).shift callee? [0] = some [0] := by
  induction cs generalizing slot with
  | nil => rfl
  | cons c cs ih => rw [storeChars, Code.shift_append]; exact ih (slot + 1)

theorem shift_strings (layout : Layout) (root : NodeId) :
    (strings layout root).shift callee? [0] = some [0] := by
  unfold strings
  induction layout.forest.preorder root with
  | nil => rfl
  | cons id ids ih =>
    rw [List.flatMap_cons, Code.shift_append]
    split
    · rw [shift_storeChars]
      exact ih
    · exact ih

/-- What stands around the statements of a function is neutral. -/
theorem Sectioned.exists_body (h : Sectioned layout root f items) (hwhole : layout.forest.Whole root) :
    ∃ body front inner last, layout.forest.role body = .block ∧
      (∀ c ∈ layout.forest.children f, c = body ∨ (layout.forest.role c).IsSilent) ∧
      body ∈ layout.forest.children f ∧ Lowered layout root (.statement body) inner ∧
      codeOf items = front ++ codeOf inner ++ last ∧
      Neutral layout.callee? front ∧ Neutral layout.callee? last := by
  obtain ⟨hf, -, -, hchildren, hbody⟩ := h
  next s signature result params body items =>
  obtain ⟨result', params', body', hchildren', hresult, hparams, hblock⟩ := hwhole.exists_body hf
  obtain ⟨rfl, rfl, rfl⟩ : result = result' ∧ params = params' ∧ body = body' := by simp_all
  refine ⟨body, [.label signature.label, .ssp (layout.sizeOf (some f))], items,
    [if (layout.table.symbol s).type.isVoid then .retp else .retf], hblock, ?_, by simp [hchildren],
    .block (Kind.eq_block hblock) hbody, by simp [Item.code], ?_, ?_⟩
  · simp [hchildren, hresult, hparams, Role.IsSilent]
  · exact .cons rfl (.control rfl)
  · cases (layout.table.symbol s).type.isVoid <;> exact .control rfl

end Program

end Emit

/-- The frame of a function has the code of the statements in it, and that of the file the code of the
global variables. -/
def Compilation.Runs {source : String} (c : Compilation source) : Option NodeId → NodeId → Prop
  | none, s => s ∈ c.layout.forest.frameVariables c.root none
  | some f, s => (c.layout.forest.role s).IsStatement ∧ c.layout.forest.owningFunction s = some f

/-- On every path through code from `start` on, each instruction finds the cells that it takes and each
call just its arguments, and the stack is as high as at the start whenever the path is at `finish`. -/
def Compilation.Level {source : String} (c : Compilation source) (code start finish : Code) : Prop :=
  ∀ rest heights, Climbs c.layout.callee? code start rest heights →
    (∀ instr others, rest = instr :: others → (instr.shift c.layout.callee? heights).isSome) ∧
      (rest = finish → heights = [0])

/-- The code of a program keeps the stack balanced. -/
structure Compilation.Balanced {source : String} (c : Compilation source) : Prop where
  frame : ∀ frame ∈ c.frames, c.Level frame.2 frame.2 []
  /-- Every statement leaves the stack as high as it finds it. -/
  statement : ∀ frame ∈ c.frames, ∀ s, c.Runs frame.1 s → ∃ before mine after,
    frame.2 = before ++ codeOf mine ++ after ∧ Lowered c.layout c.root (.statement s) mine ∧
      c.Level frame.2 (codeOf mine ++ after) after
  /-- Every expression leaves one cell, a void call none. -/
  expression : Exact c.layout c.root
  result : ∀ s signature, (c.layout.table.symbol s).signature? = some signature →
    (c.layout.callee? signature.label).map (·.result.length) =
      some (if (c.layout.table.symbol s).type.isVoid then 0 else 1)

namespace Compilation

variable {source : String} (c : Compilation source) {frame : Option NodeId × Code} {f s : NodeId}

theorem level_of_neutral {code start finish : Code} (h : Neutral c.layout.callee? code)
    (hstart : start <:+ code) (hneutral : start.shift c.layout.callee? [0] = some [0])
    (hfinish : finish.shift c.layout.callee? [0] = some [0]) : c.Level code start finish := by
  intro rest heights hclimb
  obtain ⟨-, hshift⟩ := h.shift_of_climbs hstart hneutral hclimb
  refine ⟨?_, ?_⟩
  · rintro instr others rfl
    obtain ⟨next, hnext, -⟩ := Option.bind_eq_some_iff.mp hshift
    rw [hnext]
    rfl
  · rintro rfl
    exact Code.shift_injective hshift hfinish

/-- The call of the main function and the end of the program. -/
theorem neutral_main : Neutral c.layout.callee? [.mst 0, .cup 0 c.sections.main, .hlt] := by
  show Neutral c.layout.callee? ([.mst 0, .cup 0 c.sections.main] ++ [.hlt])
  exact .last (by simp [Instr.isPlain]) (by simp [Instr.shift, exchange, c.callee?_main])

section Frames

variable (hstand : VoidCallsStand c.layout.forest c.root) (hcalls : DiscardsCalls c.layout.forest c.root)

include hstand hcalls

theorem neutral_initial : Neutral c.layout.callee? (codeOf c.sections.initial) :=
  c.isRight.initial.neutral hstand hcalls c.isLaid.sound

/-- The code of the file and of every function is neutral. -/
theorem neutral_frame (hframe : frame ∈ c.frames) : Neutral c.layout.callee? frame.2 := by
  rcases c.isRight.cases_of_mem hframe with rfl | ⟨f, items, rfl, hsectioned⟩
  · refine .append (.append (.append (.control rfl) ?_) (c.neutral_initial hstand hcalls)) c.neutral_main
    exact .plain (fun instr hinstr => (plain_strings _ _ instr hinstr).1) (shift_strings _ _)
  · obtain ⟨body, front, inner, last, -, -, -, hbody, hcode, hfront, hlast⟩ :=
      hsectioned.exists_body c.isLaid.sound.whole
    rw [hcode]
    exact (hfront.append (hbody.neutral hstand hcalls c.isLaid.sound)).append hlast

/-- A statement has its code in that of its frame. -/
theorem stands (hframe : frame ∈ c.frames) (hs : c.Runs frame.1 s) :
    Stands c.layout c.root s frame.2 := by
  have hsound := c.isLaid.sound
  have hwhole := hsound.whole
  rcases c.isRight.cases_of_mem hframe with rfl | ⟨f, items, rfl, hsectioned⟩
  · obtain ⟨-, -, howner⟩ := hwhole.mem_variables_none.mp hs
    have hdecl := (List.mem_filter.mp hs).2
    have hglobals : (Piece.statements (c.layout.forest.frameVariables c.root none)).In
        c.layout.forest none := fun d hd => (hwhole.mem_variables_none.mp hd).2.2
    exact ((c.isRight.initial.stands hstand hcalls hsound (Kind.isStatement_of_isDeclaration hdecl)
      howner hglobals ⟨s, hs, .refl⟩).behind _).before c.neutral_main
  · obtain ⟨hrole, howner⟩ := hs
    obtain ⟨body, front, inner, last, hblock, hparts, hmem, hbody, hcode, -, hlast⟩ :=
      hsectioned.exists_body hwhole
    obtain ⟨hbelow, hfun⟩ := below_of_owningFunction hwhole.linked howner
    have hinner : c.layout.forest.owningFunction body = some f := by
      rw [owningFunction_of_mem_children hwhole.linked hwhole.ranked hmem, around_of_function hfun]
    obtain ⟨part, hpart, hbelow⟩ : ∃ part ∈ c.layout.forest.children f,
        c.layout.forest.Below s part := by
      refine above_of_below hbelow ?_
      rintro rfl
      exact owningFunction_ne hwhole.linked hwhole.ranked howner
    rcases hparts part hpart with rfl | hsilent
    · show Stands c.layout c.root s (codeOf items)
      rw [hcode]
      exact ((hbody.stands hstand hcalls hsound hrole howner hinner hbelow).behind _).before hlast
    · exact absurd hrole (hwhole.not_isStatement hsilent hbelow)

/-- If no void call is used and nothing else that is void is thrown away, the stack is balanced. -/
theorem balanced : c.Balanced where
  frame frame hframe := by
    have hneutral := c.neutral_frame hstand hcalls hframe
    exact c.level_of_neutral hneutral List.suffix_rfl hneutral.whole rfl
  statement frame hframe s hs := by
    have hneutral := c.neutral_frame hstand hcalls hframe
    obtain ⟨before, mine, after, hcode, hmine, hafter⟩ := c.stands hstand hcalls hframe hs
    refine ⟨before, mine, after, hcode, hmine, c.level_of_neutral hneutral ?_ ?_ hafter.whole⟩
    · exact ⟨before, by rw [hcode, List.append_assoc]⟩
    · exact ((hmine.neutral hstand hcalls c.isLaid.sound).append hafter).whole
  expression _ _ hcode _ _ := hcode.shift hstand c.isLaid.sound trivial
  result s signature hsignature := by
    rw [Layout.callee?_label c.isLaid.sound hsignature]
    cases hvoid : (c.layout.table.symbol s).type.isVoid <;> simp [Callee.of, Ty.cells, hvoid]

end Frames

/-- An expression that is a statement is in a function with a body. -/
theorem exists_function {p : NodeId} (hbelow : c.layout.forest.Below p c.root)
    (hkind : c.layout.forest.kind p = .exprStatement) :
    ∃ f ∈ c.layout.forest.definitions c.root, c.layout.forest.owningFunction p = some f := by
  have hwhole := c.isLaid.sound.whole
  have hrole : (c.layout.forest.role p).IsStatement := by
    rw [role, hkind]
    trivial
  have hframe := (hwhole.exists_frameCode hbelow hrole.not_isWritten).1
  cases howner : c.layout.forest.owningFunction p with
  | some f => exact ⟨f, hframe f howner, rfl⟩
  | none =>
    -- All that is in no function is a global variable.
    exfalso
    rcases hbelow.eq_or_child with rfl | ⟨d, hd, hbelow⟩
    · rw [hwhole.kind_root] at hkind
      cases hkind
    have hholds := hwhole.shaped c.root
    rw [hwhole.kind_root] at hholds
    rcases hholds _ (List.mem_map_of_mem hd) with hdrole | hdrole
    · obtain rfl := eq_of_silent hwhole hrole hbelow fun part hpart =>
        Kind.isSilent_of_isDeclaration (Kind.role_eq_declaration.mp hdrole) (hwhole.shaped d) _
          (List.mem_map_of_mem hpart)
      rw [role, hkind] at hdrole
      cases hdrole
    · have hne : p ≠ d := by
        rintro rfl
        rw [role, hkind] at hdrole
        cases hdrole
      obtain ⟨g, hg, -⟩ := exists_owningFunction hwhole.linked hwhole.ranked
        (Kind.role_eq_function.mp hdrole) hbelow hne
      rw [hg] at howner
      cases howner

variable {c}

/-- Where instructions find the cells that they take, so does code without jumps. -/
theorem Level.shift_isSome {code start finish front rest : Code} {heights : List Nat}
    (h : c.Level code start finish) (hclimb : Climbs c.layout.callee? code start (front ++ rest) heights)
    (hplain : ∀ instr ∈ front, instr.isPlain) : (front.shift c.layout.callee? heights).isSome := by
  induction front generalizing heights with
  | nil => rfl
  | cons instr front ih =>
    obtain ⟨hinstr, hplain⟩ := List.forall_mem_cons.mp hplain
    obtain ⟨next, hnext⟩ := Option.isSome_iff_exists.mp ((h _ _ hclimb).1 instr _ rfl)
    have hone := hclimb.next (Instr.goesOn_of_isPlain hinstr) hnext
    rw [Code.shift_cons, hnext]
    exact ih hone hplain

/-- The code of an expression that is a statement, in that of its frame. -/
theorem Balanced.exists_discarded {p e : NodeId} (h : c.Balanced)
    (hp : c.layout.forest.Below p c.root) (hkind : c.layout.forest.kind p = .exprStatement)
    (he : e ∈ c.layout.forest.children p) :
    ∃ frame code after : Code, Coded c.layout c.root (.effect e) code ∧
      c.Level frame (code ++ after) after := by
  obtain ⟨f, hf, howner⟩ := c.exists_function hp hkind
  obtain ⟨items, hframe, -⟩ := c.mem_frames hf
  have hrole : (c.layout.forest.role p).IsStatement := by
    rw [role, hkind]
    trivial
  obtain ⟨before, mine, after, -, hmine, hlevel⟩ := h.statement _ hframe p ⟨hrole, howner⟩
  obtain ⟨code, rfl, hcode⟩ := hmine.of_exprStatement hkind he
  exact ⟨_, code, after, hcode, by simpa [Item.code] using hlevel⟩

/-- In a program that keeps the stack balanced no void call is used for a value. -/
theorem Balanced.voidCallsStand (h : c.Balanced) : VoidCallsStand c.layout.forest c.root := by
  have hsound := c.isLaid.sound
  intro e name s type p hbelow hkind htype hvoid hparent
  have hcount : cellCount c.layout.forest e = 0 := by simp [cellCount, hkind, htype, hvoid]
  have hmem := hsound.whole.linked.mem_of_parent hparent
  have hp := hsound.whole.below_root hbelow (.of_mem hmem)
  have hmade : c.layout.forest.role p = .expression →
      (c.layout.forest.kind p = .binary .assign → c.layout.Keeps p) →
      ∃ code, Coded c.layout c.root (.value p) code := by
    intro hrole hkeep
    obtain ⟨code, output, -, hcode, -⟩ := (c.isLaid.makes_expression hp hrole hkeep default).exists_ok
    exact ⟨code, hcode⟩
  rcases hsound.cases_of_void_call hbelow hkind htype hvoid hparent with
    hstatement | ⟨name', s', hcall⟩ | ⟨target, hassign, hchildren⟩
  · exact hstatement
  · obtain ⟨code, hcode⟩ := hmade (by rw [role, hcall]; rfl) (by simp [hcall])
    have hnone := h.expression.call_none hcode hcall hmem hcount
    rw [h.expression _ _ hcode] at hnone
    cases hnone
  · have hrole : c.layout.forest.role p = .expression := by
      rw [role, hassign]
      rfl
    obtain ⟨q, hq, hpq⟩ := c.isLaid.exists_parent hp hrole
    by_cases hdiscarded : c.layout.forest.kind q = .exprStatement
    · obtain ⟨frame, code, after, hcode, hlevel⟩ := h.exists_discarded hq hdiscarded hpq
      have hnone := h.expression.assign_none hcode (.inr rfl) hassign hchildren htype hvoid hcount
      have hsome := hlevel.shift_isSome .start hcode.plain
      rw [hnone] at hsome
      cases hsome
    · obtain ⟨code, hcode⟩ := hmade hrole (c.isLaid.keeps_of_mem hq hpq hdiscarded)
      have hnone := h.expression.assign_none hcode (.inl rfl) hassign hchildren htype hvoid hcount
      rw [h.expression _ _ hcode] at hnone
      cases hnone

/-- In a program that keeps the stack balanced no void value is discarded but that of a call or an
assignment: any other would stay on the stack. -/
theorem Balanced.isCall_or_isAssign {e : NodeId} (h : c.Balanced)
    (hbelow : c.layout.forest.Below e c.root) (hdiscards : DiscardsVoid c.layout.forest e) :
    (∃ name s, c.layout.forest.kind e = .call name s) ∨ c.layout.forest.kind e = .binary .assign := by
  have hsound := c.isLaid.sound
  by_contra hneither
  obtain ⟨hcall, hassign⟩ := not_or.mp hneither
  obtain ⟨type, p, htype, hvoid, hparent, hkind⟩ := hdiscards
  have hmem := hsound.whole.linked.mem_of_parent hparent
  obtain ⟨frame, code, after, hcode, hlevel⟩ :=
    h.exists_discarded (hsound.whole.below_root hbelow (.of_mem hmem)) hkind hmem
  have hkept : code.shift c.layout.callee? [0] = some [0 + 1] :=
    hcode.shift_discarded h.voidCallsStand hsound htype hvoid
      (fun name s hname => hcall ⟨name, s, hname⟩) hassign
  simpa using (hlevel after _ (Climbs.start.straight hcode.plain hkept)).2 rfl

end Compilation

/-- A program keeps the stack balanced if its void calls are statements of their own, and no other void
value is a statement. If it does, then its void calls are such statements, and no other void value is one
unless it is assigned. -/
theorem stack_balanced {source : String} (c : Compilation source) :
    (VoidCallsStand c.layout.forest c.root → DiscardsCalls c.layout.forest c.root → c.Balanced) ∧
    (c.Balanced → VoidCallsStand c.layout.forest c.root ∧
      ∀ e, c.layout.forest.Below e c.root → DiscardsVoid c.layout.forest e →
        (∃ name s, c.layout.forest.kind e = .call name s) ∨
          c.layout.forest.kind e = .binary .assign) :=
  ⟨c.balanced, fun h => ⟨h.voidCallsStand, fun _ => h.isCall_or_isAssign⟩⟩

/-- A program with a void call, a remainder and an assignment. -/
def balancing : String :=
  "void f(int n) \x7b\x7d void main() \x7b int x; x = 5 % 2; f(x); \x7d"

theorem stack_balanced_balancing : ∃ c : Compilation balancing, c.Balanced := by
  obtain ⟨c, hrun⟩ := exists_compilation_of_any balancing
    (fun compiled => compiled.layout.forest.root.any (isVoidFree compiled.layout.forest))
    (by decide +kernel)
  have hwhole := c.isLaid.sound.whole
  have hvoid : VoidFree c.layout.forest c.root :=
    voidFree_of_isVoidFree hwhole.ranked (by simpa [hwhole.root_eq] using hrun)
  exact ⟨c, (stack_balanced c).1 hvoid.voidCallsStand (hvoid.discardsCalls hwhole)⟩

/-- Whether a pointer to void is followed, and what it points at thrown away. -/
def Emit.throwsPointee (forest : Forest) (e : NodeId) : Bool :=
  forest.kind e = .unary .deref && (forest.type? e).any Ty.isVoid &&
    (forest.parent e).any fun p => forest.kind p = .exprStatement

/-- A program that throws away what a pointer to void points at. -/
def discarding : String := "void main() \x7b void *p; *p; \x7d"

/-- The cell of the pointer stays on the stack. -/
theorem discarded_void_unbalanced : ∃ c : Compilation discarding, ¬c.Balanced := by
  obtain ⟨c, hrun⟩ := exists_compilation_of_any discarding
    (fun compiled => compiled.layout.forest.root.any fun root =>
      (compiled.layout.forest.preorder root).any (throwsPointee compiled.layout.forest))
    (by decide +kernel)
  have hwhole := c.isLaid.sound.whole
  have hthrows : ∃ e ∈ c.layout.forest.preorder c.root, c.layout.forest.kind e = .unary .deref ∧
      (∃ type, c.layout.forest.type? e = some type ∧ type.isVoid) ∧
      ∃ p, c.layout.forest.parent e = some p ∧ c.layout.forest.kind p = .exprStatement := by
    simpa [throwsPointee, hwhole.root_eq, Option.any_eq_true, and_assoc] using hrun
  obtain ⟨e, he, hkind, ⟨type, htype, hvoid⟩, p, hparent, hp⟩ := hthrows
  refine ⟨c, fun hbalanced => ?_⟩
  rcases hbalanced.isCall_or_isAssign ((mem_preorder hwhole.ranked).mp he)
    ⟨type, p, htype, hvoid, hparent, hp⟩ with ⟨name, s, hcall⟩ | hassign
  · cases hkind.symm.trans hcall
  · cases hkind.symm.trans hassign

end MiniC
