import MiniC.Proofs.Alike.Layout
import MiniC.Proofs.Labels

/-!
# Making code alike

The code of a program mentions its names in the labels of functions only. Programs alike have code alike,
instruction by instruction.
-/

namespace MiniC.Likeness

open Emit Machine

variable {L : Likeness} {layout layout' : Layout} {id : NodeId} {line line' : Nat} {α : Type}
  {V : α → α → Prop}

section Code

/-- Jump targets are the same in programs alike. -/
theorem SameLabel.self {label : Label} (h : label.isJump) : L.SameLabel label label := by
  cases label with
  | jump number => exact .jump number
  | _ => cases h

/-- Code without labels is alike to itself. -/
theorem SameCode.self {code : Code} (h : ∀ instr ∈ code, instr.defined? = none ∧ instr.target? = none) :
    L.SameCode code code :=
  List.forall₂_same.mpr fun instr hinstr => .other (h instr hinstr).1 (h instr hinstr).2

theorem SameCode.one {instr : Instr} (hdefined : instr.defined? = none) (htarget : instr.target? = none) :
    L.SameCode [instr] [instr] := .cons (.other hdefined htarget) .nil

theorem SameCode.append {code code' rest rest' : Code} (h : L.SameCode code code')
    (hrest : L.SameCode rest rest') : L.SameCode (code ++ rest) (code' ++ rest') :=
  List.rel_append h hrest

/-- Code is alike to itself if it has no labels of functions. -/
theorem SameCode.of_labels {code : Code} (hlabels : ∀ label ∈ code.labels, L.SameLabel label label)
    (htargets : ∀ label ∈ code.targets, L.SameLabel label label) : L.SameCode code code := by
  refine List.forall₂_same.mpr fun instr hinstr => ?_
  have hdefined := fun label (hlabel : instr.defined? = some label) =>
    hlabels label (List.mem_filterMap.mpr ⟨instr, hinstr, hlabel⟩)
  have htarget := fun label (hlabel : instr.target? = some label) =>
    htargets label (List.mem_filterMap.mpr ⟨instr, hinstr, hlabel⟩)
  cases instr with
  | label label => exact .label (hdefined label rfl)
  | ujp label => exact .ujp (htarget label rfl)
  | fjp label => exact .fjp (htarget label rfl)
  | cup count label => exact .cup count (htarget label rfl)
  | _ => exact .other rfl rfl

end Code

section Expression

theorem emits_ask {answer answer' : Except Fault α} (h : L.Agree V answer answer') :
    L.Emits V (ask answer) (ask answer') := by
  cases h with
  | ok h => exact .pure h
  | error h => exact .throw h.anywhere

theorem emits_malformed {message message' : String} :
    L.Emits V (malformed message line) (malformed message' line') := .throw .malformed

theorem emits_tagOf (type : Ty) (hline : L.line line line') :
    L.Emits Eq (tagOf type line) (tagOf type line') := by
  unfold tagOf
  cases type.tag? with
  | some tag => exact .pure rfl
  | none =>
    refine Tracks.next (.modify fun output output' h => ?_) fun _ => .pure rfl
    exact ⟨⟨h.session.drawn, List.rel_append h.session.warnings (.cons ⟨.unmappedType _, hline⟩ .nil)⟩, h.used⟩

theorem emits_useRoutine (name : String) : L.Emits Eq (useRoutine name) (useRoutine name) := by
  refine .modify fun output output' h => ?_
  rw [h.used]
  split
  · exact h
  · exact ⟨h.session, rfl⟩

section Inner

variable {inner inner' : NodeId → Emit Code} (hinner : ∀ id, L.Emits L.SameCode (inner id) (inner' id))
include hinner

theorem emits_inOrder (ids : List NodeId) :
    L.Emits L.SameCode (inOrder inner ids) (inOrder inner' ids) := by
  induction ids with
  | nil => exact .pure .nil
  | cons id others ih => exact (hinner id).bind fun _ _ hcode => ih.bind fun _ _ hrest => .pure (hcode.append hrest)

variable (h : L.SameLayout layout layout')
include h

omit hinner in
theorem emits_placeOf (id : NodeId) (line line' : Nat) :
    L.Emits Eq (placeOf layout id line) (placeOf layout' id line') := by
  refine (emits_ask (h.symbolOf id)).next fun symbol =>
    (emits_ask (h.offsetOf symbol line line')).next fun slot => ?_
  rw [h.depthTo]
  exact .pure rfl

theorem emits_address (id : NodeId) :
    L.Emits L.SameCode (address layout inner id) (address layout' inner' id) := by
  have hkind := h.forest.kind id
  unfold address
  generalize layout.forest.kind id = k, layout'.forest.kind id = k' at hkind ⊢
  cases hkind with
  | identifier =>
    exact (emits_placeOf h id _ _).next fun _ => .pure (.one rfl rfl)
  | @other k =>
    cases k with
    | identifier => contradiction
    | subscript =>
      refine (emits_ask (h.child id 0)).next fun base => (emits_ask (h.child id 1)).next fun index =>
        (emits_ask (h.typeOf id)).next fun element => (hinner base).bind fun _ _ hbase =>
          (hinner index).bind fun _ _ hindex => .pure ?_
      exact (hbase.append hindex).append (.one rfl rfl)
    | unary op =>
      cases op with
      | deref => exact (emits_ask (h.child id 0)).next fun operand => hinner operand
      | _ => exact .throw (.of_name ⟨rfl, rfl⟩)
    | _ => exact .throw (.of_name ⟨rfl, rfl⟩)
  | _ => exact .throw (.of_name ⟨rfl, rfl⟩)

omit hinner in
theorem emits_identifier (hline : L.line (layout.forest.line id) (layout'.forest.line id)) :
    L.Emits L.SameCode (identifier layout id) (identifier layout' id) := by
  refine (emits_placeOf h id _ _).next fun place => (emits_ask (h.typeOf id)).next fun type => ?_
  refine .ite (fun _ => .pure (.one rfl rfl)) fun _ => (emits_tagOf type hline).next fun tag => ?_
  exact .pure (.one rfl rfl)

theorem emits_call (id : NodeId) : L.Emits L.SameCode (call layout inner id) (call layout' inner' id) := by
  refine (emits_ask (h.symbolOf id)).next fun symbol => ?_
  have hsymbol := h.table.symbol symbol
  have hsignature := hsymbol.signature?
  have hname := hsymbol.name
  dsimp only
  rw [h.depthTo, h.forest.children]
  generalize (layout.table.symbol symbol).signature? = signature,
    (layout'.table.symbol symbol).signature? = signature' at hsignature hname ⊢
  cases hsignature with
  | none => exact .throw (.of_name ⟨rfl, rfl⟩)
  | @some signature signature' hsame =>
    refine (emits_inOrder hinner _).bind fun code code' hcode => ?_
    rw [hsame.builtin, hsame.variadic]
    have hrest : L.Emits L.SameCode
        (if signature.variadic then
          Pure.pure (([.mst (layout.depthTo id symbol), .ldc (.int (layout.forest.children id).length)] : Code) ++
            code ++ ([.cup ((layout.forest.children id).length + 1) signature.label] : Code))
        else Pure.pure (([.mst (layout.depthTo id symbol)] : Code) ++ code ++
          ([.cup (layout.forest.children id).length signature.label] : Code)))
        (if signature.variadic then
          Pure.pure (([.mst (layout.depthTo id symbol), .ldc (.int (layout.forest.children id).length)] : Code) ++
            code' ++ ([.cup ((layout.forest.children id).length + 1) signature'.label] : Code))
        else Pure.pure (([.mst (layout.depthTo id symbol)] : Code) ++ code' ++
          ([.cup (layout.forest.children id).length signature'.label] : Code))) := by
      refine .ite (fun _ => .pure ?_) fun _ => .pure ?_
      · exact (SameCode.append (.self (by simp [Instr.defined?, Instr.target?])) hcode).append
          (.cons (.cup _ hsame.label) .nil)
      · exact (SameCode.append (.one rfl rfl) hcode).append (.cons (.cup _ hsame.label) .nil)
    refine .ite (fun hbuiltin => ?_) fun _ => hrest
    rw [hname ⟨signature, rfl, hbuiltin⟩]
    exact (emits_useRoutine _).next fun _ => hrest

theorem emits_assignment (id : NodeId) (hline : L.line (layout.forest.line id) (layout'.forest.line id))
    (keep : Bool) :
    L.Emits L.SameCode (assignment layout inner id keep) (assignment layout' inner' id keep) := by
  refine (emits_ask (h.child id 0)).next fun target => (emits_ask (h.child id 1)).next fun value =>
    (emits_ask (h.typeOf target)).next fun type => (emits_tagOf type hline).next fun tag => ?_
  rw [(h.forest.kind target).isIdentifier]
  refine .ite (fun _ => ?_) fun _ => ?_
  · refine (emits_placeOf h target _ _).next fun place => (hinner value).bind fun _ _ hcode => .pure ?_
    refine (hcode.append (.one rfl rfl)).append ?_
    cases keep with
    | true => exact .one rfl rfl
    | false => exact .nil
  · refine (emits_address hinner h target).bind fun _ _ htarget => (hinner value).bind fun _ _ hcode => ?_
    refine .ite (fun _ => (emits_ask (h.scratchOf id)).next fun scratch => .pure ?_) fun _ => .pure ?_
    · exact (htarget.append hcode).append (.self (by simp [Instr.defined?, Instr.target?]))
    · exact (htarget.append hcode).append (.one rfl rfl)

theorem emits_step (id : NodeId) (hline : L.line (layout.forest.line id) (layout'.forest.line id))
    (position : Position) (direction : Direction) (keep : Bool) :
    L.Emits L.SameCode (step layout inner id position direction keep)
      (step layout' inner' id position direction keep) := by
  refine (emits_ask (h.child id 0)).next fun target =>
    (emits_ask (h.typeOf target)).next fun type => (emits_tagOf type hline).next fun tag => ?_
  rw [(h.forest.kind target).isIdentifier]
  refine .ite (fun _ => ?_) fun _ => ?_
  · refine (emits_placeOf h target _ _).next fun place => .pure (.self ?_)
    cases keep <;> cases position <;> cases direction <;> simp [stepInstr, Instr.defined?, Instr.target?]
  · refine (emits_ask (h.scratchOf id)).next fun scratch => (emits_address hinner h target).bind
      fun _ _ htarget => .pure ?_
    simp only [List.append_assoc]
    refine htarget.append (.self ?_)
    cases keep <;> cases position <;> cases direction <;> simp [stepInstr, Instr.defined?, Instr.target?]

theorem emits_binary (id : NodeId) (hline : L.line (layout.forest.line id) (layout'.forest.line id))
    (op : BinaryOp) : L.Emits L.SameCode (binary layout inner id op) (binary layout' inner' id op) := by
  refine (emits_ask (h.child id 0)).next fun left => (emits_ask (h.child id 1)).next fun right => ?_
  cases op with
  | assign => exact emits_assignment hinner h id hline true
  | remainder =>
    refine (hinner left).bind fun _ _ hleft => (hinner right).bind fun _ _ hright =>
      (emits_useRoutine "mod").next fun _ => ?_
    rw [h.depthToFile]
    exact .pure (((SameCode.one rfl rfl).append hleft).append hright |>.append (.cons (.cup _ (.named (by decide +kernel))) .nil))
  | logic op =>
    refine (hinner left).bind fun _ _ hleft => (hinner right).bind fun _ _ hright => .pure ?_
    exact ((hleft.append (.one rfl rfl)).append hright).append (.self (by simp [Instr.defined?, Instr.target?]))
  | compare op =>
    refine (hinner left).bind fun _ _ hleft => (hinner right).bind fun _ _ hright =>
      (emits_ask (h.typeOf left)).next fun type => (emits_tagOf type hline).next fun tag => .pure ?_
    exact (hleft.append hright).append (.self (by simp [Instr.defined?, Instr.target?]))
  | arith op =>
    refine (hinner left).bind fun _ _ hleft => (hinner right).bind fun _ _ hright =>
      (emits_ask (h.typeOf id)).next fun type => (emits_tagOf type hline).next fun tag => .pure ?_
    exact (hleft.append hright).append (.one rfl rfl)

theorem emits_unary (id : NodeId) (hline : L.line (layout.forest.line id) (layout'.forest.line id))
    (op : UnaryOp) : L.Emits L.SameCode (unary layout inner id op) (unary layout' inner' id op) := by
  refine (emits_ask (h.child id 0)).next fun operand => ?_
  cases op with
  | negate =>
    exact (hinner operand).bind fun _ _ hcode => (emits_ask (h.typeOf id)).next fun type =>
      (emits_tagOf type hline).next fun tag => .pure (hcode.append (.one rfl rfl))
  | not =>
    exact (hinner operand).bind fun _ _ hcode =>
      .pure (hcode.append (.self (by simp [Instr.defined?, Instr.target?])))
  | deref =>
    exact (hinner operand).bind fun _ _ hcode => (emits_ask (h.typeOf id)).next fun type =>
      (emits_tagOf type hline).next fun tag => .pure (hcode.append (.one rfl rfl))
  | addressOf => exact emits_address hinner h operand
  | step position direction => exact emits_step hinner h id hline position direction true

theorem emits_byKind (id : NodeId) :
    L.Emits L.SameCode (byKind layout inner id) (byKind layout' inner' id) := by
  have hline : (layout.forest.kind id).isSilent = false →
      L.line (layout.forest.line id) (layout'.forest.line id) := fun hkind => h.lined id (.inl hkind)
  have hkind := h.forest.kind id
  unfold byKind
  generalize layout.forest.kind id = k, layout'.forest.kind id = k' at hkind hline ⊢
  cases hkind with
  | identifier => exact emits_identifier h (hline rfl)
  | call => exact emits_call hinner h id
  | @other k =>
    cases k with
    | identifier | call => contradiction
    | int | char => exact .pure (.one rfl rfl)
    | string value pool =>
      cases pool with
      | none => exact emits_malformed
      | some slot =>
        dsimp only
        rw [h.depthToFile]
        exact .pure (.one rfl rfl)
    | binary op => exact emits_binary hinner h id (hline rfl) op
    | unary op => exact emits_unary hinner h id (hline rfl) op
    | subscript =>
      exact (emits_address hinner h id).bind fun _ _ hcode => (emits_ask (h.typeOf id)).next fun type =>
        (emits_tagOf type (hline rfl)).next fun tag => .pure (hcode.append (.one rfl rfl))
    | conversion change =>
      refine (emits_ask (h.child id 0)).next fun operand => (hinner operand).bind fun _ _ hcode => ?_
      cases change.coercion with
      | none => exact .pure hcode
      | some tags => exact .pure (hcode.append (.one rfl rfl))
    | _ => exact emits_malformed
  | _ => exact emits_malformed

end Inner

variable (h : L.SameLayout layout layout')
include h

theorem emits_expression (id : NodeId) :
    L.Emits L.SameCode (expression layout id) (expression layout' id) := by
  have hlevels : ∀ levels id,
      L.Emits L.SameCode (expressionWithin layout levels id) (expressionWithin layout' levels id) := by
    intro levels
    induction levels with
    | zero => exact fun _ => emits_malformed
    | succ levels ih => exact fun id => emits_byKind ih h id
  rw [expression, expression, h.forest.size]
  exact hlevels _ id

theorem emits_discarded (id : NodeId) :
    L.Emits L.SameCode (discarded layout id) (discarded layout' id) := by
  have hline : (layout.forest.kind id).isSilent = false ∨ (layout.forest.type? id).isSome →
      L.line (layout.forest.line id) (layout'.forest.line id) := h.lined id
  have hother : L.Emits L.SameCode
      (do
        let code ← expression layout id
        let type ← ask (layout.typeOf id)
        if type.isVoid then return code
        else return code ++ [.str (← tagOf type.decay (layout.forest.line id)) 0 0])
      (do
        let code ← expression layout' id
        let type ← ask (layout'.typeOf id)
        if type.isVoid then return code
        else return code ++ [.str (← tagOf type.decay (layout'.forest.line id)) 0 0]) := by
    refine (emits_expression h id).bind fun _ _ hcode => ?_
    unfold Layout.typeOf
    rw [h.forest.type?]
    cases htype : layout.forest.type? id with
    | none => exact .throw .malformed
    | some type =>
      refine (Tracks.pure rfl).next fun type => .ite (fun _ => .pure hcode) fun _ => ?_
      exact (emits_tagOf type.decay (hline (.inr (by rw [htype]; rfl)))).next fun tag =>
        .pure (hcode.append (.one rfl rfl))
  have hkind := h.forest.kind id
  unfold discarded
  generalize layout.forest.kind id = k, layout'.forest.kind id = k' at hkind hline ⊢
  cases hkind with
  | @other k =>
    cases k with
    | binary op =>
      cases op with
      | assign => exact emits_assignment (emits_expression h) h id (hline (.inl rfl)) false
      | _ => exact hother
    | unary op =>
      cases op with
      | step position direction =>
        exact emits_step (emits_expression h) h id (hline (.inl rfl)) position direction false
      | _ => exact hother
    | _ => exact hother
  | _ => exact hother

end Expression

section Statement

variable (h : L.SameLayout layout layout')
include h

omit h in
/-- Labels that a node has. -/
theorem emits_drawn {α β : Type} {W : β → β → Prop} (labels : Option α) {next next' : α → Emit β}
    (hnext : ∀ drawn, labels = some drawn → L.Emits W (next drawn) (next' drawn)) :
    L.Emits W (drawn labels line >>= next) (drawn labels line' >>= next') := by
  cases labels with
  | none => exact (emits_malformed (V := fun _ _ => False)).bind fun _ _ h => h.elim
  | some labels => exact fun _ _ houtput => hnext labels rfl houtput

theorem emits_jumpUnless (id : NodeId) (slot : Nat) {target target' : Label}
    (htarget : L.SameLabel target target') :
    L.Emits L.SameCode (jumpUnless layout id slot target) (jumpUnless layout' id slot target') :=
  (emits_ask (h.child id slot)).next fun test => (emits_expression h test).bind fun _ _ hcode =>
    .pure (hcode.append (.cons (.other rfl rfl) (.cons (.fjp htarget) .nil)))

theorem emits_initializers (tag : Tag) (size slot : Nat) (items : List NodeId) :
    L.Emits L.SameCode (initializers layout tag size slot items) (initializers layout' tag size slot items) := by
  induction items generalizing slot with
  | nil => exact .pure .nil
  | cons item others ih =>
    exact (emits_expression h item).bind fun _ _ hcode => (ih _).bind fun _ _ hrest =>
      .pure ((hcode.append (.one rfl rfl)).append hrest)

theorem emits_declaration (id : NodeId)
    (hline : L.line (layout.forest.line id) (layout'.forest.line id)) :
    L.Emits L.SameCode (declaration layout id) (declaration layout' id) := by
  unfold declaration
  rw [h.forest.child?]
  cases layout.forest.child? id 1 with
  | none => exact .pure .nil
  | some initial =>
    refine (emits_ask (h.symbolOf id)).next fun symbol =>
      (emits_ask (h.offsetOf symbol _ _)).next fun slot => ?_
    simp only [(h.forest.kind initial).eq_iff (rfl : Kind.isNamed .initializers = false), (h.table.symbol symbol).type,
      h.forest.children]
    refine .ite (fun _ => ?_) fun _ => ?_
    · cases (layout.table.symbol symbol).type.element? with
      | none => exact emits_malformed
      | some element =>
        exact (emits_tagOf element hline).next fun tag => emits_initializers h tag _ slot _
    · exact (emits_expression h initial).bind fun _ _ hcode => (emits_tagOf _ hline).next fun tag =>
        .pure (hcode.append (.one rfl rfl))

theorem emits_giveBack (id : NodeId) (hline : L.line (layout.forest.line id) (layout'.forest.line id)) :
    L.Emits L.SameCode (giveBack layout id) (giveBack layout' id) := by
  unfold giveBack
  rw [h.forest.child?]
  cases layout.forest.child? id 0 with
  | none => exact .pure (.one rfl rfl)
  | some value =>
    exact (emits_expression h value).bind fun _ _ hcode => (emits_ask (h.typeOf value)).next fun type =>
      (emits_tagOf type hline).next fun tag =>
        .pure (hcode.append (.self (by simp [Instr.defined?, Instr.target?])))

section Inner

variable {inner inner' : NodeId → Emit Code} (hinner : ∀ id, L.Emits L.SameCode (inner id) (inner' id))
include hinner

theorem emits_ifElse (id : NodeId) {labels : IfLabels} (hotherwise : labels.otherwise.isJump)
    (hfinish : labels.finish.isJump) :
    L.Emits L.SameCode (ifElse layout inner id labels) (ifElse layout' inner' id labels) := by
  have hend : L.SameCode [.label labels.finish] [.label labels.finish] := .cons (.label (.self hfinish)) .nil
  unfold ifElse
  rw [h.forest.child?]
  cases layout.forest.child? id 2 with
  | none =>
    exact (emits_jumpUnless h id 0 (.self hfinish)).bind fun _ _ htest => (emits_ask (h.child id 1)).next
      fun yes => (hinner yes).bind fun _ _ hyes => .pure ((htest.append hyes).append hend)
  | some other =>
    refine (emits_jumpUnless h id 0 (.self hotherwise)).bind fun _ _ htest => (emits_ask (h.child id 1)).next
      fun yes => (hinner yes).bind fun _ _ hyes => (hinner other).bind fun _ _ hno => .pure ?_
    refine (((htest.append hyes).append ?_).append hno).append hend
    exact .cons (.ujp (.self hfinish)) (.cons (.label (.self hotherwise)) .nil)

theorem emits_whileLoop (id : NodeId) {labels : WhileLabels} (hstart : labels.start.isJump)
    (hfinish : labels.finish.isJump) :
    L.Emits L.SameCode (whileLoop layout inner id labels) (whileLoop layout' inner' id labels) := by
  refine (emits_jumpUnless h id 0 (.self hfinish)).bind fun _ _ htest => (emits_ask (h.child id 1)).next
    fun body => (hinner body).bind fun _ _ hbody => .pure ?_
  refine ((SameCode.append (.cons (.label (.self hstart)) .nil) htest).append hbody).append ?_
  exact .cons (.ujp (.self hstart)) (.cons (.label (.self hfinish)) .nil)

theorem emits_forLoop (id : NodeId) {labels : ForLabels} (hstart : labels.start.isJump)
    (hnext : labels.next.isJump) (hfinish : labels.finish.isJump) :
    L.Emits L.SameCode (forLoop layout inner id labels) (forLoop layout' inner' id labels) := by
  refine (emits_ask (h.child id 0)).next fun start => (hinner start).bind fun first first' hfirst =>
    (emits_ask (h.child id 1)).next fun condition => ?_
  have hrest : ∀ {test test'}, L.SameCode test test' → L.Emits L.SameCode
      (do
        let body ← inner (← ask (layout.child id 3))
        let next ← inner (← ask (layout.child id 2))
        return first ++ ([.label labels.start] : Code) ++ test ++ body ++ ([.label labels.next] : Code) ++
          next ++ ([.ujp labels.start, .label labels.finish] : Code))
      (do
        let body ← inner' (← ask (layout'.child id 3))
        let next ← inner' (← ask (layout'.child id 2))
        return first' ++ ([.label labels.start] : Code) ++ test' ++ body ++ ([.label labels.next] : Code) ++
          next ++ ([.ujp labels.start, .label labels.finish] : Code)) := by
    intro test test' htest
    refine (emits_ask (h.child id 3)).next fun body => (hinner body).bind fun _ _ hbody =>
      (emits_ask (h.child id 2)).next fun next => (hinner next).bind fun _ _ hlast => .pure ?_
    have htop := (hfirst.append (.cons (.label (.self hstart)) .nil)).append htest
    refine (((htop.append hbody).append (.cons (.label (.self hnext)) .nil)).append hlast).append ?_
    exact .cons (.ujp (.self hstart)) (.cons (.label (.self hfinish)) .nil)
  simp only [(h.forest.kind condition).eq_iff (rfl : Kind.isNamed .nothing = false)]
  refine .ite (fun _ => ?_) fun _ => ?_
  · exact (Tracks.pure .nil).bind fun _ _ htest => hrest htest
  · exact (emits_jumpUnless h id 1 (.self hfinish)).bind fun _ _ htest => hrest htest

end Inner

theorem emits_statement (id : NodeId) : L.Emits L.SameCode (statement layout id) (statement layout' id) := by
  have hlevels : ∀ levels id,
      L.Emits L.SameCode (statementWithin layout levels id) (statementWithin layout' levels id) := by
    intro levels
    induction levels with
    | zero => exact fun _ => emits_malformed
    | succ levels ih =>
      intro id
      have hline : (layout.forest.kind id).isSilent = false →
          L.line (layout.forest.line id) (layout'.forest.line id) := fun hkind => h.lined id (.inl hkind)
      have hkind := h.forest.kind id
      unfold statementWithin
      rw [h.forest.children]
      generalize layout.forest.kind id = k, layout'.forest.kind id = k' at hkind hline ⊢
      cases hkind with
      | declaration => exact emits_declaration h id (hline rfl)
      | function => exact .pure .nil
      | @other k hnamed =>
        cases k with
        | declaration | function => contradiction
        | block => exact emits_inOrder ih _
        | exprStatement => exact (emits_ask (h.child id 0)).next fun expr => emits_discarded h expr
        | ifElse labels =>
          refine emits_drawn labels fun drawn hdrawn => ?_
          subst hdrawn
          simp only [Kind.isNamed, Bool.not_eq_false', Bool.and_eq_true] at hnamed
          exact emits_ifElse h ih id hnamed.1 hnamed.2
        | whileLoop labels =>
          refine emits_drawn labels fun drawn hdrawn => ?_
          subst hdrawn
          simp only [Kind.isNamed, Bool.not_eq_false', Bool.and_eq_true] at hnamed
          exact emits_whileLoop h ih id hnamed.1 hnamed.2
        | forLoop labels =>
          refine emits_drawn labels fun drawn hdrawn => ?_
          subst hdrawn
          simp only [Kind.isNamed, Bool.not_eq_false', Bool.and_eq_true] at hnamed
          exact emits_forLoop h ih id hnamed.1.1 hnamed.1.2 hnamed.2
        | giveBack => exact emits_giveBack h id (hline rfl)
        | breakOut target | continueOn target =>
          refine emits_drawn target fun label hlabel => .pure (.cons (.ujp (.self ?_)) .nil)
          subst hlabel
          simpa only [Kind.isNamed, Bool.not_eq_false'] using hnamed
        | nothing => exact .pure .nil
        | _ => exact emits_malformed
      | _ => exact emits_malformed
  rw [statement, statement, h.forest.size]
  exact hlevels _ id

end Statement

section Program

theorem routines_alike (rs : List Routine) : ∀ {session session' : Session}, L.SameSession session session' →
    (routines session' rs).1 = (routines session rs).1 ∧
      L.SameSession (routines session rs).2 (routines session' rs).2 := by
  induction rs with
  | nil => exact fun h => ⟨rfl, h⟩
  | cons routine rs ih =>
    intro session session' h
    have hnext : L.SameSession (routine.instantiate session).2 (routine.instantiate session').2 :=
      { h with drawn := congrArg (· + Routine.targetCount routine.code) h.drawn }
    refine ⟨?_, (ih hnext).2⟩
    have hfirst : (routine.instantiate session').1 = (routine.instantiate session).1 := by
      rw [Routine.instantiate, Routine.instantiate, h.drawn]
    exact congrArg₂ (· ++ ·) hfirst (ih hnext).1

/-- The library mentions none of the program's own functions. -/
theorem sameCode_library (names : List String) (session : Session) :
    L.SameCode (routines session (Routine.closure names)).1 (routines session (Routine.closure names)).1 := by
  have hsupplies := supplies_closure names session
  have hlabels : ∀ label ∈ (routines session (Routine.closure names)).1.labels,
      L.SameLabel label label := by
    intro label hlabel
    rcases hsupplies.numbered label hlabel with ⟨routine, hroutine, rfl⟩ | ⟨number, -, -, rfl⟩
    · exact .named (List.mem_map_of_mem (Routine.closureIn_subset hroutine))
    · exact .jump number
  exact .of_labels hlabels fun label hlabel => hlabels label (library_defined hlabel)

theorem emits_library : L.Emits L.SameCode library library := by
  intro output output' h
  have halike := routines_alike (Routine.closure output.used) h.session
  have hcode := sameCode_library (L := L) output.used output.session
  refine .ok ?_ ⟨?_, h.used⟩
  · rw [h.used, halike.1]
    exact hcode
  · simp only [h.used]
    exact halike.2

variable (h : L.SameLayout layout layout')
include h

theorem strings_alike (root : NodeId) : strings layout' root = strings layout root := by
  unfold strings
  rw [h.forest.preorder]
  congr 1
  funext id
  have hkind := h.forest.kind id
  generalize layout.forest.kind id = k, layout'.forest.kind id = k' at hkind ⊢
  cases hkind <;> rfl

theorem emits_globals (root : NodeId) : L.Emits L.SameCode (globals layout root) (globals layout' root) := by
  unfold globals
  simp only [h.forest.children, h.forest.decides SameKind.isDeclaration]
  exact emits_inOrder (emits_statement h) _

theorem emits_function (id : NodeId) : L.Emits L.SameCode (function layout id) (function layout' id) := by
  refine (emits_ask (h.symbolOf id)).next fun symbol => ?_
  have hsymbol := h.table.symbol symbol
  have hsignature := hsymbol.signature?
  dsimp only
  rw [hsymbol.type]
  generalize (layout.table.symbol symbol).signature? = signature,
    (layout'.table.symbol symbol).signature? = signature' at hsignature ⊢
  cases hsignature with
  | none => exact emits_malformed
  | @some signature signature' hsame =>
    refine (emits_ask (h.child id 2)).next fun body => ?_
    rw [h.forest.children, h.sizeOf]
    refine (emits_inOrder (emits_statement h) _).bind fun _ _ hcode => .pure ?_
    have hhead : L.SameCode [.label signature.label, .ssp (layout.sizeOf (some id))]
        [.label signature'.label, .ssp (layout.sizeOf (some id))] :=
      .cons (.label hsame.label) (.cons (.other rfl rfl) .nil)
    exact (hhead.append hcode).append (.self (by split <;> simp [Instr.defined?, Instr.target?]))

theorem emits_program (root : NodeId) {main main' : Label} (hmain : L.SameLabel main main') :
    L.Emits L.SameCode (program layout root main) (program layout' root main') := by
  refine (emits_globals h root).bind fun _ _ hinitial => ?_
  rw [h.forest.definitions]
  refine (emits_inOrder (emits_function h) _).bind fun _ _ hfunctions =>
    emits_library.bind fun _ _ hlibrary => .pure ?_
  rw [h.sizeOf, strings_alike h]
  have hstrings : L.SameCode (strings layout root) (strings layout root) := by
    have hplain := plain_strings layout root
    have hlabels : (strings layout root).labels = [] := labels_plain fun instr hinstr => (hplain instr hinstr).1
    have htargets : (strings layout root).targets = [] :=
      List.filterMap_eq_nil_iff.mpr fun instr hinstr => (hplain instr hinstr).2
    exact .of_labels (hlabels ▸ List.forall_mem_nil _) (htargets ▸ List.forall_mem_nil _)
  have hcall : L.SameCode [.mst 0, .cup 0 main, .hlt] [.mst 0, .cup 0 main', .hlt] :=
    .cons (.other rfl rfl) (.cons (.cup 0 hmain) (SameCode.one rfl rfl))
  have hstart : L.SameCode [.ssp (layout.sizeOf none)] [.ssp (layout.sizeOf none)] := .one rfl rfl
  have hhead := (hstart.append hstrings).append hinitial
  exact ((hhead.append hcall).append hfunctions).append hlibrary

end Program

section Compile

variable {forest forest' : Forest} {table table' : SymbolTable} {session session' : Session}

/-- The `main` of programs alike. -/
theorem agree_mainLabel (htable : L.SameTable table table') {root : NodeId} (hline : forest.line root = 1) :
    L.Agree L.SameLabel (mainLabel forest table root) (mainLabel forest' table' root) := by
  have hmain : "main" ∉ Routine.catalog.map (·.name) := by decide +kernel
  unfold mainLabel
  rw [htable.lookupFile L.main]
  cases hfound : table.lookupFile "main" with
  | none => exact .error ⟨rfl, nofun, fun _ => hline⟩
  | some symbol =>
    have hline := htable.line_of_lookupFile hfound hmain
    have hsymbol := htable.symbol symbol
    have hsignature := hsymbol.signature?
    dsimp only
    rw [hsymbol.type]
    generalize (table.symbol symbol).signature? = signature,
      (table'.symbol symbol).signature? = signature' at hsignature ⊢
    cases hsignature with
    | none => exact .of_line ⟨rfl, rfl⟩ hline
    | some hsame =>
      dsimp only
      rw [hsame.params, hsame.defined]
      split_ifs
      · exact .of_line ⟨rfl, rfl⟩ hline
      · exact .of_line ⟨rfl, rfl⟩ hline
      · exact .of_line ⟨rfl, rfl⟩ hline
      · exact .ok hsame.label

/-- The code of programs alike. Where both are refused this says nothing of the lines. -/
theorem agree_compile (h : L.SameForest forest forest') (hlined : L.Lined forest forest')
    (htable : L.SameTable table table') (hsession : L.SameSession session session')
    (hline : ∀ root, forest.root = some root → forest.line root = 1) :
    L.anywhere.Agree
      (fun compiled compiled' => L.SameCode compiled.code compiled'.code ∧
        L.SameSession compiled.session compiled'.session)
      (Emit.compile forest table session) (Emit.compile forest' table' session') := by
  unfold Emit.compile
  rw [h.root]
  cases hroot : forest.root with
  | none => exact .malformed
  | some root =>
    refine (agree_mainLabel htable (hline root hroot)).anywhere.bind fun main main' hmain =>
      (agree_ofProgram h hlined htable root).anywhere.bind fun layout layout' hlayout => ?_
    have hprogram := emits_program hlayout root hmain
      (show L.SameOutput { session } { session := session' } from ⟨hsession, rfl⟩)
    generalize program layout root main { session } = result,
      program layout' root main' { session := session' } = result' at hprogram ⊢
    cases hprogram with
    | ok hcode houtput => exact .ok ⟨hcode, houtput.session⟩
    | error hfault => exact .error hfault

end Compile

end MiniC.Likeness
