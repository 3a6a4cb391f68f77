import MiniC.Proofs.Flow.Simulation
import MiniC.Proofs.Machine.Tags
import MiniC.Returns
import Mathlib.Logic.Relation

/-!
# The control-flow graph of code

A place in a program is the rest of its code from there on. `Leads` has an edge to the place that
control may go to next: behind an instruction that lets it go on, and at the label of a jump. A
conditional jump has both. `Misses` says of a place that no path of some length leads to another one.

Two statements about the code of a statement outside of every loop carry the analysis of missing
returns: one that surely returns is not left at its end (`misses_of_lowered`), and any other is
(`reaches_of_lowered`) if every loop in it has a condition.
-/

namespace MiniC

open Machine Forest Emit

namespace Machine

/-- Control may go from one place of a program to another in one step. -/
inductive Leads (program : Code) : Code → Code → Prop
  | next {instr : Instr} {rest : Code} (hgoes : instr.goesOn) : Leads program (instr :: rest) rest
  | jump {instr : Instr} {rest rest' : Code} {target : Label} (hjump : instr.jump? = some target)
      (hplace : .label target :: rest' <:+ program) :
      Leads program (instr :: rest) (.label target :: rest')

/-- Control may come from one place of a program to another. -/
abbrev Reaches (program : Code) : Code → Code → Prop := Relation.ReflTransGen (Leads program)

/-- Fewer than `steps` steps do not lead from a place to `finish`. -/
def Misses (program finish : Code) : Nat → Code → Prop
  | 0, _ => True
  | steps + 1, place =>
    place ≠ finish ∧ ∀ next, Leads program place next → Misses program finish steps next

/-- A label that is defined once stands at one place. -/
theorem Code.place_eq {program rest rest' : Code} {name : Label} (hnodup : program.labels.Nodup)
    (h : .label name :: rest <:+ program) (h' : .label name :: rest' <:+ program) :
    rest = rest' := by
  -- The place that is nearer to the end is not inside of the other one.
  have hinside : ∀ {near far : Code}, .label name :: far <:+ program →
      .label name :: near <:+ .label name :: far → near = far := by
    intro near far hfar hnear
    rcases List.suffix_cons_iff.mp hnear with heq | hbehind
    · exact (List.cons.inj heq).2
    · have hlabels := (hfar.sublist.filterMap Instr.defined?).nodup hnodup
      exact absurd (mem_labels.mpr (hbehind.subset List.mem_cons_self))
        (List.nodup_cons.mp hlabels).1
  rcases List.suffix_or_suffix_of_suffix h h' with hsuffix | hsuffix
  · exact hinside h' hsuffix
  · exact (hinside h hsuffix).symm

namespace Misses

variable {program finish place rest : Code} {instr : Instr} {steps : Nat} {target : Label}

theorem of_succ (h : Misses program finish (steps + 1) place) : Misses program finish steps place := by
  induction steps generalizing place with
  | zero => trivial
  | succ steps ih => exact ⟨h.1, fun next hnext => ih (h.2 next hnext)⟩

theorem mono {few : Nat} (h : Misses program finish steps place) (hle : few ≤ steps) :
    Misses program finish few place := by
  induction hle with
  | refl => exact h
  | step _ ih => exact ih h.of_succ

/-- What no path of any length leads to is not reached. -/
theorem not_reaches (h : ∀ steps, Misses program finish steps place) :
    ¬Reaches program place finish := by
  intro hreaches
  induction hreaches using Relation.ReflTransGen.head_induction_on with
  | refl => exact (h 1).1 rfl
  | head hfirst _ ih => exact ih fun steps => (h (steps + 1)).2 _ hfirst

/-- An instruction in front of places that are missed. -/
theorem cons (hle : finish.length ≤ rest.length)
    (hnext : instr.goesOn → Misses program finish steps rest)
    (hjump : ∀ target, instr.jump? = some target → ∀ rest', .label target :: rest' <:+ program →
      Misses program finish steps (.label target :: rest')) :
    Misses program finish (steps + 1) (instr :: rest) := by
  refine ⟨fun heq => ?_, fun next hleads => ?_⟩
  · rw [← heq, List.length_cons] at hle
    omega
  · cases hleads with
    | next hgoes => exact hnext hgoes
    | jump hinstr hplace => exact hjump _ hinstr _ hplace

/-- An instruction that only goes on. -/
theorem pass (hle : finish.length ≤ rest.length) (hstill : instr.jump? = none)
    (h : Misses program finish steps rest) : Misses program finish (steps + 1) (instr :: rest) :=
  cons hle (fun _ => h) fun target htarget => by simp [hstill] at htarget

/-- Code that runs from its first to its last instruction. -/
theorem plain {code : Code} (hplain : ∀ instr ∈ code, instr.isPlain)
    (hle : finish.length ≤ rest.length) (h : Misses program finish steps rest) :
    Misses program finish steps (code ++ rest) := by
  induction code with
  | nil => exact h
  | cons instr code ih =>
    obtain ⟨hinstr, hcode⟩ := List.forall_mem_cons.mp hplain
    refine (pass ?_ ?_ (ih hcode)).of_succ
    · rw [List.length_append]
      omega
    · cases instr <;> simp_all [Instr.isPlain, Instr.jump?]

/-- A jump to a place that is missed. -/
theorem ujp {rest' : Code} (hnodup : program.labels.Nodup) (hle : finish.length ≤ rest.length)
    (hplace : .label target :: rest' <:+ program)
    (h : Misses program finish steps (.label target :: rest')) :
    Misses program finish steps (.ujp target :: rest) := by
  refine (cons hle (by simp [Instr.goesOn]) fun other hother rest'' hplace' => ?_).of_succ
  obtain rfl := Option.some.inj hother
  rwa [Code.place_eq hnodup hplace' hplace]

/-- A conditional jump, both ways of which lead to places that are missed. -/
theorem fjp {rest' : Code} (hnodup : program.labels.Nodup) (hle : finish.length ≤ rest.length)
    (hplace : .label target :: rest' <:+ program)
    (hyes : Misses program finish steps rest)
    (hno : Misses program finish steps (.label target :: rest')) :
    Misses program finish steps (.fjp target :: rest) := by
  refine (cons hle (fun _ => hyes) fun other hother rest'' hplace' => ?_).of_succ
  obtain rfl := Option.some.inj hother
  rwa [Code.place_eq hnodup hplace' hplace]

end Misses

namespace Reaches

variable {program rest rest' code : Code} {target : Label}

/-- Code that runs from its first to its last instruction. -/
theorem plain (hplain : ∀ instr ∈ code, instr.isPlain) : Reaches program (code ++ rest) rest := by
  induction code with
  | nil => exact .refl
  | cons instr code ih =>
    obtain ⟨hinstr, hcode⟩ := List.forall_mem_cons.mp hplain
    refine .head (.next ?_) (ih hcode)
    cases instr <;> simp_all [Instr.isPlain, Instr.goesOn]

theorem label : Reaches program (.label target :: rest) rest := .single (.next rfl)

/-- A jump and its label. -/
theorem ujp (hplace : .label target :: rest' <:+ program) :
    Reaches program (.ujp target :: rest) rest' := .head (.jump rfl hplace) label

theorem fjp (hplace : .label target :: rest' <:+ program) :
    Reaches program (.fjp target :: rest) rest' := .head (.jump rfl hplace) label

end Reaches

end Machine

namespace Forest

variable {forest : Forest} {id : NodeId} {levels : Nat}

/-- A block surely returns if a statement in it does. -/
theorem returnsWithin_block (h : forest.kind id = .block) (levels : Nat) :
    forest.returnsWithin levels id =
      (forest.children id).any (forest.returnsWithin (levels - 1)) := by
  cases levels with
  | zero => simp [returnsWithin]
  | succ levels => simp [returnsWithin, h]

/-- A choice surely returns if both branches do. -/
theorem returnsWithin_ifElse {labels : Option IfLabels} {test yes no : NodeId}
    (h : forest.kind id = .ifElse labels) (hchildren : forest.children id = [test, yes, no])
    (levels : Nat) : forest.returnsWithin levels id =
      (forest.returnsWithin (levels - 1) yes && forest.returnsWithin (levels - 1) no) := by
  cases levels with
  | zero => rfl
  | succ levels => simp [returnsWithin, h, child?, hchildren]

/-- A loop with three clauses has a condition. -/
def HasCondition (forest : Forest) (id : NodeId) : Prop :=
  ∀ labels test, forest.kind id = .forLoop labels → forest.child? id 1 = some test →
    forest.kind test ≠ .nothing

end Forest

namespace Emit

/-- The code of a clause runs from its first to its last instruction. -/
theorem Lowered.plain_of_clause {layout : Layout} {root id : NodeId} {items : List Item}
    (h : Lowered layout root (.statement id) items)
    (hclause : (layout.forest.role id).IsClause) : ∀ instr ∈ codeOf items, instr.isPlain := by
  rw [role] at hclause
  cases h with
  | declared | function | nothing => exact List.forall_mem_nil _
  | initialized _ _ _ _ _ hvalue =>
    simpa [Item.code, Instr.isPlain, or_imp, forall_and] using hvalue.plain
  | listed _ _ _ _ _ hfilled => simpa [Item.code] using hfilled.plain
  | exprStatement _ _ _ hcode => simpa [Item.code] using hcode.plain
  | jump hjump =>
    rw [hjump.kind_eq] at hclause
    split at hclause <;> exact hclause.elim
  | block hk | ifThen hk | ifElse hk | whileLoop hk | forLoop hk | leave hk | giveBack hk =>
    rw [hk] at hclause
    exact hclause.elim

end Emit

namespace Flow

variable {layout : Layout} {root : NodeId} {piece : Piece} {items : List Item} {after finish : Code}
  {program : Code} {levels steps : Nat} {loop function : Option NodeId}

/-- Statements that surely return, or one of which does. -/
def surely (forest : Forest) (levels : Nat) : Piece → Bool
  | .statement id => forest.returnsWithin levels id
  | .statements ids => ids.any (forest.returnsWithin levels)

/-- A condition, and the two ways behind it. -/
theorem misses_jumpItems {test : NodeId} {code rest rest' : Code} {target : Label}
    (htest : Tests layout root test code) (hnodup : program.labels.Nodup)
    (hle : finish.length ≤ rest.length) (hplace : .label target :: rest' <:+ program)
    (hyes : Misses program finish steps rest)
    (hno : Misses program finish steps (.label target :: rest')) :
    Misses program finish steps (codeOf (jumpItems test code target) ++ rest) := by
  have hplain : ∀ instr ∈ code ++ [.conv .int .bool], instr.isPlain := by
    simpa [Instr.isPlain, or_imp, forall_and] using htest.value.plain
  simp only [jumpItems, codeOf_cons, codeOf_nil, Item.code, List.append_nil, List.append_assoc,
    List.cons_append, List.nil_append]
  simpa using Misses.plain hplain (by simp; omega) (.fjp hnodup hle hplace hyes hno)

/-- The place at which every round of a loop begins, if a round that comes back to it takes a step. -/
theorem misses_loop {start : Code}
    (h : ∀ few < steps, Misses program finish few start → Misses program finish (few + 1) start) :
    Misses program finish steps start := by
  have hfew : ∀ few ≤ steps, Misses program finish few start := by
    intro few hle
    induction few with
    | zero => trivial
    | succ few ih => exact h few hle (ih (Nat.le_of_succ_le hle))
  exact hfew steps (Nat.le_refl _)

/-- Control misses what it misses from behind a statement and from behind the jumps out of it. Behind a
statement that surely returns it does not come. The induction is on the code of the statement; a loop
is entered anew with one step less. -/
theorem misses_of_lowered (h : Lowered layout root piece items) (hwhole : layout.forest.Whole root)
    (hnodup : program.labels.Nodup) (hsuffix : codeOf items ++ after <:+ program)
    (hinside : piece.Inside layout.forest loop) (hle : finish.length ≤ after.length)
    (hafter : surely layout.forest levels piece = false → Misses program finish steps after)
    (hexit : ∀ label rest, JumpsOut layout.forest loop label → .label label :: rest <:+ program →
      Misses program finish steps (.label label :: rest)) :
    Misses program finish steps (codeOf items ++ after) := by
  have hdeclaration : ∀ {d levels}, (layout.forest.kind d).isDeclaration →
      layout.forest.returnsWithin levels d = false := by
    intro d levels hkind
    cases levels with
    | zero => rfl
    | succ levels => cases hk : layout.forest.kind d <;> simp_all [Kind.isDeclaration, returnsWithin]
  have hnot : ∀ {id loop}, (layout.forest.kind id).isFunction = false ∧
      (layout.forest.kind id).isLoop = false → layout.forest.enclosingLoop id = loop →
      ∀ c ∈ layout.forest.children id, layout.forest.enclosingLoop c = loop :=
    fun hkind hid c hc => enclosingLoop_of_mem hwhole hkind.1 hkind.2 hid hc
  have hstore : ∀ {steps tag depth slot rest}, finish.length ≤ rest.length →
      Misses program finish steps rest → Misses program finish steps (.str tag depth slot :: rest) :=
    fun hle hrest => (Misses.pass hle rfl hrest).of_succ
  induction h generalizing loop levels after steps with
  | declared _ hkind => exact hafter (hdeclaration hkind)
  | initialized hd _ _ _ _ hvalue =>
    have hbehind := hafter (hdeclaration hd.isDeclaration)
    simpa [Item.code] using
      Misses.plain hvalue.plain (by simp; omega) (hstore hle hbehind)
  | listed hd _ _ _ _ hfilled =>
    simpa [Item.code] using Misses.plain hfilled.plain hle (hafter (hdeclaration hd.isDeclaration))
  | @function f hkind =>
    refine hafter ?_
    cases levels with
    | zero => rfl
    | succ levels =>
      cases hk : layout.forest.kind f <;> simp_all [Kind.isFunction, surely, returnsWithin]
  | nothing hk => exact hafter (by cases levels <;> simp [surely, returnsWithin, hk])
  | exprStatement hk _ _ hcode =>
    simpa [Item.code] using Misses.plain hcode.plain hle
      (hafter (by cases levels <;> simp [surely, returnsWithin, hk]))
  | leave =>
    refine (Misses.cons hle (by simp [Instr.goesOn]) fun target htarget => ?_).of_succ
    cases htarget
  | giveBack hk _ _ _ _ _ _ _ hvalue =>
    have hleave : Misses program finish steps (.retf :: after) := by
      refine (Misses.cons hle (by simp [Instr.goesOn]) fun target htarget => ?_).of_succ
      cases htarget
    simpa [Item.code] using Misses.plain hvalue.plain (by simp; omega) (hstore (by simp; omega) hleave)
  | @jump id around leaving label hjump =>
    have hout : JumpsOut layout.forest loop label :=
      ⟨around, leaving, hinside.symm.trans hjump.loop_eq, hjump.target_eq⟩
    refine (Misses.cons hle (by simp [Instr.goesOn]) fun target htarget rest hplace => ?_).of_succ
    obtain rfl := Option.some.inj htarget
    exact hexit _ rest hout hplace
  | block hk _ ih =>
    refine ih hsuffix (hnot ⟨by rw [hk]; rfl, by rw [hk]; rfl⟩ hinside) hle
      (fun hnone : surely layout.forest (levels - 1) _ = false => hafter ?_) hexit
    rwa [surely, returnsWithin_block hk]
  | @ifThen id test yes labels code items hk hchildren htest _ ih =>
    have hloop := hnot ⟨by rw [hk]; rfl, by rw [hk]; rfl⟩ hinside yes (by simp [hchildren])
    have hbehind : Misses program finish steps after :=
      hafter (by cases levels <;> simp [surely, returnsWithin, hk, child?, hchildren])
    have hfinish : Misses program finish steps (.label labels.finish :: after) :=
      (Misses.pass hle rfl hbehind).of_succ
    simp only [codeOf_append, codeOf_cons, codeOf_nil, Item.code, List.append_nil, List.append_assoc,
      List.cons_append, List.nil_append] at hsuffix ⊢
    have hitems := (List.suffix_append _ _).trans hsuffix
    have hplace := (List.suffix_append _ _).trans hitems
    refine misses_jumpItems htest hnodup (by simp; omega) hplace ?_ hfinish
    exact ih hitems hloop (by simp; omega) (fun _ : surely layout.forest 0 _ = false => hfinish) hexit
  | @ifElse id test yes no labels code items others hk hchildren htest _ _ ihyes ihno =>
    have hloop := hnot ⟨by rw [hk]; rfl, by rw [hk]; rfl⟩ hinside
    simp only [codeOf_append, codeOf_cons, codeOf_nil, Item.code, List.append_nil, List.append_assoc,
      List.cons_append, List.nil_append] at hsuffix ⊢
    simp only [surely, returnsWithin_ifElse hk hchildren, Bool.and_eq_false_iff] at hafter
    have hitems := (List.suffix_append _ _).trans hsuffix
    have hotherwise := (List.suffix_cons _ _).trans ((List.suffix_append _ _).trans hitems)
    have hothers := (List.suffix_cons _ _).trans hotherwise
    have hplace := (List.suffix_append _ _).trans hothers
    have hfinish : Misses program finish steps after →
        Misses program finish steps (.label labels.finish :: after) :=
      fun h => (Misses.pass hle rfl h).of_succ
    refine misses_jumpItems htest hnodup (by simp; omega) hotherwise ?_ ?_
    · refine ihyes hitems (hloop yes (by simp [hchildren])) (by simp; omega)
        (fun hno : surely layout.forest (levels - 1) _ = false => ?_) hexit
      exact .ujp hnodup (by simp; omega) hplace (hfinish (hafter (.inl hno)))
    · refine (Misses.pass (by simp; omega) rfl ?_).of_succ
      exact ihno hothers (hloop no (by simp [hchildren])) (by simp; omega)
        (fun hno : surely layout.forest (levels - 1) _ = false => hfinish (hafter (.inr hno))) hexit
  | @whileLoop id test body labels code items hk hchildren htest _ ih =>
    have hloop : layout.forest.enclosingLoop body = some id :=
      enclosingLoop_of_loop hwhole (by rw [hk]; rfl) (by simp [hchildren])
    have hbehind : Misses program finish steps after :=
      hafter (by cases levels <;> simp [surely, returnsWithin, hk])
    simp only [codeOf_append, codeOf_cons, codeOf_nil, Item.code, List.append_nil, List.append_assoc,
      List.cons_append, List.nil_append] at hsuffix ⊢
    have hitems := (List.suffix_append _ _).trans ((List.suffix_cons _ _).trans hsuffix)
    have hback := (List.suffix_append _ _).trans hitems
    have hplace := (List.suffix_cons _ _).trans hback
    refine misses_loop fun few hfew hstart => .pass (by simp; omega) rfl ?_
    have hfinish : Misses program finish few (.label labels.finish :: after) :=
      (Misses.pass hle rfl (hbehind.mono (Nat.le_of_lt hfew))).of_succ
    refine misses_jumpItems htest hnodup (by simp; omega) hplace ?_ hfinish
    refine ih hitems hloop (by simp; omega)
      (fun _ : surely layout.forest 0 _ = false => .ujp hnodup (by simp; omega) hsuffix hstart)
      fun label rest hout hlabel => ?_
    obtain ⟨around, leaving, heq, htarget⟩ := hout
    obtain rfl := Option.some.inj heq
    cases leaving with
    | true =>
      obtain rfl : labels.finish = label := by simpa [hk, Resolve.jumpTarget?] using htarget
      rwa [Code.place_eq hnodup hlabel hplace]
    | false =>
      obtain rfl : labels.start = label := by simpa [hk, Resolve.jumpTarget?] using htarget
      rwa [Code.place_eq hnodup hlabel hsuffix]
  | @forLoop id start test next body labels first guard items others hk hchildren hclauses hguard
      hfirst _ hlast _ ihbody _ =>
    have hloop : layout.forest.enclosingLoop body = some id :=
      enclosingLoop_of_loop hwhole (by rw [hk]; rfl) (by simp [hchildren])
    have hbehind : Misses program finish steps after :=
      hafter (by cases levels <;> simp [surely, returnsWithin, hk])
    simp only [codeOf_append, codeOf_cons, codeOf_nil, Item.code, List.append_nil, List.append_assoc,
      List.cons_append, List.nil_append] at hsuffix ⊢
    have htop := (List.suffix_append _ _).trans hsuffix
    have hitems := (List.suffix_append _ _).trans ((List.suffix_cons _ _).trans htop)
    have hcontinue := (List.suffix_append _ _).trans hitems
    have hback := (List.suffix_append _ _).trans ((List.suffix_cons _ _).trans hcontinue)
    have hplace := (List.suffix_cons _ _).trans hback
    have hfinish : ∀ few ≤ steps, Misses program finish few (.label labels.finish :: after) :=
      fun few hfew => (Misses.pass hle rfl (hbehind.mono hfew)).of_succ
    refine .plain (hfirst.plain_of_clause hclauses.1) (by simp; omega)
      (misses_loop fun few hfew hstart => .pass (by simp; omega) rfl ?_)
    have hstep : Misses program finish few (.label labels.next ::
        (codeOf others ++ .ujp labels.start :: .label labels.finish :: after)) :=
      (Misses.pass (by simp; omega) rfl (.plain (hlast.plain_of_clause hclauses.2) (by simp; omega)
        (.ujp hnodup (by simp; omega) htop hstart))).of_succ
    have hround : Misses program finish few (codeOf items ++ .label labels.next ::
        (codeOf others ++ .ujp labels.start :: .label labels.finish :: after)) := by
      refine ihbody hitems hloop (by simp; omega) (fun _ : surely layout.forest 0 _ = false => hstep)
        fun label rest hout hlabel => ?_
      obtain ⟨around, leaving, heq, htarget⟩ := hout
      obtain rfl := Option.some.inj heq
      cases leaving with
      | true =>
        obtain rfl : labels.finish = label := by simpa [hk, Resolve.jumpTarget?] using htarget
        rw [Code.place_eq hnodup hlabel hplace]
        exact hfinish few (Nat.le_of_lt hfew)
      | false =>
        obtain rfl : labels.next = label := by simpa [hk, Resolve.jumpTarget?] using htarget
        rwa [Code.place_eq hnodup hlabel hcontinue]
    cases hguard with
    | always => exact hround
    | tested _ htest =>
      exact misses_jumpItems htest hnodup (by simp; omega) hplace hround (hfinish few (Nat.le_of_lt hfew))
  | nil => exact hafter rfl
  | @cons id others items rest _ _ ihitems ihothers =>
    obtain ⟨hid, hothers⟩ := List.forall_mem_cons.mp (show ∀ c ∈ _ :: _, _ from hinside)
    simp only [codeOf_append, List.append_assoc] at hsuffix ⊢
    simp only [surely, List.any_cons, Bool.or_eq_false_iff] at hafter
    refine ihitems hsuffix hid (by simp; omega)
      (fun hfirst : layout.forest.returnsWithin levels id = false => ?_) hexit
    exact ihothers ((List.suffix_append _ _).trans hsuffix) hothers hle
      (fun hrest : surely layout.forest levels (.statements others) = false => hafter ⟨hfirst, hrest⟩) hexit

/-- A condition that holds. -/
theorem reaches_yes {test : NodeId} {code rest : Code} {target : Label}
    (htest : Tests layout root test code) :
    Reaches program (codeOf (jumpItems test code target) ++ rest) rest := by
  have hfjp : Reaches program (.fjp target :: rest) rest := .single (.next rfl)
  have hconv : Reaches program (.conv .int .bool :: .fjp target :: rest) rest := .head (.next rfl) hfjp
  simpa [jumpItems, Item.code] using (Reaches.plain htest.value.plain).trans hconv

/-- A condition that does not hold. -/
theorem reaches_no {test : NodeId} {code rest rest' : Code} {target : Label}
    (htest : Tests layout root test code) (hplace : .label target :: rest' <:+ program) :
    Reaches program (codeOf (jumpItems test code target) ++ rest) rest' := by
  have hconv : Reaches program (.conv .int .bool :: .fjp target :: rest) rest' :=
    .head (.next rfl) (Reaches.fjp hplace)
  simpa [jumpItems, Item.code] using (Reaches.plain htest.value.plain).trans hconv

/-- Every loop in statements, as far as it belongs to a function, has a condition. -/
def Conditional (forest : Forest) (function : Option NodeId) : Piece → Prop
  | .statement id => ∀ n, forest.Below n id → forest.owningFunction n = function → forest.HasCondition n
  | .statements ids => ∀ id ∈ ids, ∀ n, forest.Below n id → forest.owningFunction n = function →
    forest.HasCondition n

/-- Control comes to the end of a statement that does not surely return, if it is in no loop and every
loop in it has a condition. -/
theorem reaches_of_lowered (h : Lowered layout root piece items) (hwhole : layout.forest.Whole root)
    (hsuffix : codeOf items ++ after <:+ program) (hinside : piece.Inside layout.forest none)
    (hlevels : Shallow layout.forest levels piece) (hreturns : surely layout.forest levels piece = false)
    (hpiece : piece.In layout.forest function) (hloops : Conditional layout.forest function piece) :
    Reaches program (codeOf items ++ after) after := by
  have hnot : ∀ {id}, (layout.forest.kind id).isFunction = false ∧
      (layout.forest.kind id).isLoop = false → layout.forest.enclosingLoop id = none →
      ∀ c ∈ layout.forest.children id, layout.forest.enclosingLoop c = none :=
    fun hkind hid c hc => enclosingLoop_of_mem hwhole hkind.1 hkind.2 hid hc
  have hpart : ∀ {id}, (layout.forest.kind id).isFunction = false →
      Conditional layout.forest function (.statement id) → ∀ c ∈ layout.forest.children id,
      Conditional layout.forest function (.statement c) :=
    fun _ hid c hc n hn => hid n (.child hc hn)
  have hparts : ∀ {id c n}, Shallow layout.forest n (.statement id) →
      c ∈ layout.forest.children id → Shallow layout.forest (n - 1) (.statement c) := by
    intro id c n hid hc
    have := weight_lt hwhole.ranked hc
    simp only [Shallow] at hid ⊢
    omega
  have howner : ∀ {id}, (layout.forest.kind id).isFunction = false →
      layout.forest.owningFunction id = function → ∀ c ∈ layout.forest.children id,
      layout.forest.owningFunction c = function :=
    fun hkind hid c hc => owner_of_mem hwhole hkind hid hc
  induction h generalizing levels after with
  | declared | function | nothing | nil => exact .refl
  | initialized hd _ _ _ _ hvalue =>
    have hstore {tag slot} : Leads program (.str tag 0 slot :: after) after := .next rfl
    simpa [Item.code] using (Reaches.plain hvalue.plain).tail hstore
  | listed _ _ _ _ _ hfilled => simpa [Item.code] using Reaches.plain hfilled.plain
  | exprStatement _ _ _ hcode => simpa [Item.code] using Reaches.plain hcode.plain
  | leave hk | giveBack hk =>
    obtain ⟨n, rfl⟩ : ∃ n, levels = n + 1 := ⟨levels - 1, by simp only [Shallow] at hlevels; omega⟩
    simp [surely, returnsWithin, hk] at hreturns
  | jump hjump => cases hinside.symm.trans hjump.loop_eq
  | block hk _ ih =>
    rw [surely, returnsWithin_block hk] at hreturns
    exact ih hsuffix (hnot ⟨by rw [hk]; rfl, by rw [hk]; rfl⟩ hinside)
      (fun c hc => hparts hlevels hc) hreturns (howner (by rw [hk]; rfl) hpiece)
      (hpart (by rw [hk]; rfl) hloops)
  | @ifThen id test yes labels code items hk hchildren htest _ _ =>
    simp only [codeOf_append, codeOf_cons, codeOf_nil, Item.code, List.append_nil, List.append_assoc,
      List.cons_append, List.nil_append] at hsuffix ⊢
    exact reaches_no htest ((List.suffix_append _ _).trans ((List.suffix_append _ _).trans hsuffix))
  | @ifElse id test yes no labels code items others hk hchildren htest _ _ ihyes ihno =>
    have hloop := hnot ⟨by rw [hk]; rfl, by rw [hk]; rfl⟩ hinside
    have hinner := howner (by rw [hk]; rfl) hpiece
    have hconditional := hpart (by rw [hk]; rfl) hloops
    simp only [codeOf_append, codeOf_cons, codeOf_nil, Item.code, List.append_nil, List.append_assoc,
      List.cons_append, List.nil_append] at hsuffix ⊢
    have hitems := (List.suffix_append _ _).trans hsuffix
    have hotherwise := (List.suffix_cons _ _).trans ((List.suffix_append _ _).trans hitems)
    have hothers := (List.suffix_cons _ _).trans hotherwise
    have hplace := (List.suffix_append _ _).trans hothers
    rw [surely, returnsWithin_ifElse hk hchildren, Bool.and_eq_false_iff] at hreturns
    rcases hreturns with hyes | hno
    · have hbranch := ihyes hitems (hloop yes (by simp [hchildren]))
        (hparts hlevels (by simp [hchildren])) hyes (hinner yes (by simp [hchildren]))
        (hconditional yes (by simp [hchildren]))
      exact (reaches_yes htest).trans (hbranch.trans (Reaches.ujp hplace))
    · have hbranch := ihno hothers (hloop no (by simp [hchildren]))
        (hparts hlevels (by simp [hchildren])) hno (hinner no (by simp [hchildren]))
        (hconditional no (by simp [hchildren]))
      exact (reaches_no htest hotherwise).trans (hbranch.trans Reaches.label)
  | @whileLoop id test body labels code items hk hchildren htest _ _ =>
    simp only [codeOf_append, codeOf_cons, codeOf_nil, Item.code, List.append_nil, List.append_assoc,
      List.cons_append, List.nil_append] at hsuffix ⊢
    have hback := (List.suffix_append _ _).trans
      ((List.suffix_append _ _).trans ((List.suffix_cons _ _).trans hsuffix))
    exact Reaches.label.trans (reaches_no htest ((List.suffix_cons _ _).trans hback))
  | @forLoop id start test next body labels first guard items others hk hchildren hclauses hguard hfirst _
      _ _ _ _ =>
    have hcondition : layout.forest.kind test ≠ .nothing :=
      hloops id .refl hpiece (some labels) test hk (by simp [child?, hchildren])
    simp only [codeOf_append, codeOf_cons, codeOf_nil, Item.code, List.append_nil, List.append_assoc,
      List.cons_append, List.nil_append] at hsuffix ⊢
    have htop := (List.suffix_append _ _).trans hsuffix
    have hcontinue := (List.suffix_append _ _).trans
      ((List.suffix_append _ _).trans ((List.suffix_cons _ _).trans htop))
    have hback := (List.suffix_append _ _).trans ((List.suffix_cons _ _).trans hcontinue)
    have htest : ∀ rest, Reaches program (codeOf guard ++ rest) after := by
      intro rest
      cases hguard with
      | always hnothing => exact absurd hnothing hcondition
      | tested _ htest => exact reaches_no htest ((List.suffix_cons _ _).trans hback)
    exact (Reaches.plain (hfirst.plain_of_clause hclauses.1)).trans (Reaches.label.trans (htest _))
  | @cons id others items rest _ _ ihitems ihothers =>
    obtain ⟨hid, hothers⟩ := List.forall_mem_cons.mp (show ∀ c ∈ _ :: _, _ from hinside)
    obtain ⟨hlevel, hlevels⟩ := List.forall_mem_cons.mp (show ∀ c ∈ _ :: _, _ from hlevels)
    obtain ⟨hin, hins⟩ := List.forall_mem_cons.mp (show ∀ c ∈ _ :: _, _ from hpiece)
    obtain ⟨hcondition, hconditions⟩ := List.forall_mem_cons.mp (show ∀ c ∈ _ :: _, _ from hloops)
    simp only [codeOf_append, List.append_assoc] at hsuffix ⊢
    simp only [surely, List.any_cons, Bool.or_eq_false_iff] at hreturns
    exact (ihitems hsuffix hid hlevel hreturns.1 hin hcondition).trans
      (ihothers ((List.suffix_append _ _).trans hsuffix) hothers hlevels hreturns.2 hins hconditions)
end Flow

end MiniC
