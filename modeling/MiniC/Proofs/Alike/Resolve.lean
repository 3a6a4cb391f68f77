import MiniC.Proofs.Alike.Table
import MiniC.Proofs.Alike.Forest

/-!
# Resolving expressions alike

Resolution looks names up and compares types. From states alike it finds the same symbols and the same
types, and puts conversions into the same places. Reading the forest shows lines to be alike; they stay
so, whatever is resolved in between.
-/

namespace MiniC.Likeness

open Resolve

variable {L : Likeness} {known : Set NodeId} {forest forest' : Forest} {id : NodeId} {α β : Type}
  {V : α → α → Prop} {W : β → β → Prop}

section Steps

theorem agree_convert (h : L.SameTree known forest forest') (expr : NodeId) (target : Ty) :
    L.Agree (fun answer answer' => L.SameTree known answer.1 answer'.1 ∧ answer.2 = answer'.2)
      (forest.convert expr target) (forest'.convert expr target) := by
  unfold Forest.convert
  rw [h.type?]
  cases htype : forest.type? expr with
  | none => exact .malformed
  | some source =>
    have hsome : (forest.type? expr).isSome := by rw [htype]; rfl
    by_cases hsame : source.same target
    · simp only [if_pos hsame]
      exact .ok ⟨h, rfl⟩
    · simp only [if_neg hsame]
      cases source.conversion? target with
      | none => exact .of_line ⟨rfl, rfl⟩ (h.line_of_type hsome)
      | some coercion =>
        have hkind : L.SameKind (.conversion { source, target, coercion })
            (.conversion { source, target, coercion }) := .other rfl
        obtain ⟨hwrap, hid⟩ := h.wrap hsome hkind
        dsimp only
        rw [hid]
        exact .ok ⟨(hwrap.setType (Set.mem_insert _ _) target).mono (Set.subset_insert _ _), rfl⟩

theorem agree_promote (h : L.SameTree known forest forest') (expr : NodeId) (common : Ty) :
    L.Agree (fun answer answer' => L.SameTree known answer.1 answer'.1 ∧ answer.2 = answer'.2)
      (forest.promote expr common) (forest'.promote expr common) := by
  unfold Forest.promote
  rw [h.type?]
  split
  · have hint := agree_convert h expr .int
    generalize forest.convert expr .int = answer, forest'.convert expr .int = answer' at hint ⊢
    cases hint with
    | error h => exact .error h
    | @ok converted converted' hint =>
      obtain ⟨widened, middle⟩ := converted
      obtain ⟨widened', middle'⟩ := converted'
      obtain ⟨hwidened, rfl⟩ := hint
      exact agree_convert hwidened middle common
  · exact agree_convert h expr common

theorem resolves_forest : L.Resolves known (L.SameTree known) Resolve.forest Resolve.forest :=
  fun _ _ h => .ok h.forest h

theorem resolves_table : L.Resolves known L.SameTable Resolve.table Resolve.table :=
  fun _ _ h => .ok h.table h

theorem resolves_onForest {change change' : Forest → Forest}
    (hchange : ∀ forest forest', L.SameTree known forest forest' →
      L.SameTree known (change forest) (change' forest')) :
    L.Resolves known Eq (onForest change) (onForest change') :=
  .modify fun _ _ h => { h with forest := hchange _ _ h.forest }

theorem resolves_onTable {change change' : SymbolTable → SymbolTable}
    (hchange : ∀ table table', L.SameTable table table' → L.SameTable (change table) (change' table')) :
    L.Resolves known Eq (onTable change) (onTable change') :=
  .modify fun _ _ h => { h with table := hchange _ _ h.table }

theorem resolves_refuse {cause cause' : Cause} {line line' : Nat} (hcause : cause.Alike cause')
    (hline : L.line line line') : L.Resolves known V (refuse cause line) (refuse cause' line') :=
  .throw (.of_line hcause hline)

theorem resolves_malformed {message message' : String} {line line' : Nat} :
    L.Resolves known V (malformed message line) (malformed message' line') := .throw .malformed

theorem resolves_exhausted : L.Resolves known V (exhausted id) (exhausted id) :=
  resolves_forest.bind fun _ _ _ => resolves_malformed

theorem SameResolution.know {state state' : Resolution} (h : L.SameResolution known state state')
    (hline : L.line (state.forest.line id) (state'.forest.line id)) :
    L.SameResolution (insert id known) state state' := by
  refine { h with forest := { h.forest with line := fun other hother => ?_ } }
  rcases hother with rfl | hother
  · exact hline
  · exact h.forest.line other hother

/-- Steps that go along wherever more lines are known go along. -/
theorem Resolves.mono_known {fewer : Set NodeId} {step step' : Resolve α}
    (h : L.Resolves known V step step') {state state' : Resolution}
    (hstate : L.SameResolution known state state') (hsubset : fewer ⊆ known) :
    L.SameResult (L.SameResolution fewer) V (step state) (step' state') := by
  have hstep := h hstate
  generalize step state = result, step' state' = result' at hstep ⊢
  cases hstep with
  | ok h hnext => exact .ok h { hnext with forest := hnext.forest.mono hsubset }
  | error h => exact .error h

variable (L) in
/-- The nodes whose lines are alike. -/
def linesOf (forest forest' : Forest) : Set NodeId := {id | L.line (forest.line id) (forest'.line id)}

/-- Reading the forest, after which all lines that are alike are known to be. -/
theorem resolves_look {next next' : Forest → Resolve β}
    (hnext : ∀ forest forest', L.SameTree known forest forest' →
      L.Resolves (L.linesOf forest forest') W (next forest) (next' forest')) :
    L.Resolves known W (Resolve.forest >>= next) (Resolve.forest >>= next') := by
  intro state state' h
  change L.SameResult _ W (next state.forest state) (next' state'.forest state')
  have hknown : L.SameResolution (L.linesOf state.forest state'.forest) state state' :=
    { h with forest := { h.forest with line := fun _ hid => hid } }
  exact Resolves.mono_known (hnext _ _ h.forest) hknown h.forest.line

/-- Asking for the type of a node, after which its line is known. -/
theorem resolves_typeOf (id : NodeId) {next next' : Ty → Resolve β}
    (hnext : ∀ type, L.Resolves (insert id known) W (next type) (next' type)) :
    L.Resolves known W (typeOf id >>= next) (typeOf id >>= next') := by
  intro state state' h
  have hforest : ∀ state : Resolution, Resolve.forest state = .ok state.forest state := fun _ => rfl
  simp only [typeOf, Bind.bind, EStateM.bind, hforest, h.forest.type?]
  cases htype : state.forest.type? id with
  | none => exact .error .malformed
  | some type =>
    have hline := h.forest.line_of_type (by rw [htype]; rfl)
    exact Resolves.mono_known (hnext type) (h.know hline) (Set.subset_insert _ _)

theorem resolves_annotate (id : NodeId) : L.Resolves known Eq (annotate id) (annotate id) := by
  refine resolves_table.bind fun table table' htable => resolves_onForest fun forest forest' h => ?_
  dsimp only
  rw [htable.depth, h.owningFunction]
  refine h.relink id (fun hnode => { hnode with scope := rfl, function := rfl }) (fun _ => ⟨rfl, rfl, rfl⟩)
    fun _ => rfl

theorem resolves_child (id : NodeId) (slot : Nat) :
    L.Resolves known Eq (child id slot) (child id slot) := by
  refine resolves_forest.bind fun forest forest' h => ?_
  rw [h.child?]
  cases forest.child? id slot with
  | none => exact resolves_malformed
  | some child => exact .pure rfl

theorem resolves_writtenType (id : NodeId) (slot : Nat) :
    L.Resolves known Eq (writtenType id slot) (writtenType id slot) := by
  refine (resolves_child id slot).next fun written => resolves_forest.bind fun forest forest' h => ?_
  rw [h.typeOf?]
  cases forest.typeOf? written with
  | none => exact resolves_malformed
  | some type => exact .pure rfl

theorem resolves_convert (id : NodeId) (target : Ty) :
    L.Resolves known Eq (convert id target) (convert id target) := by
  refine resolves_forest.bind fun forest forest' h => ?_
  have hconvert := agree_convert h id target
  generalize forest.convert id target = answer, forest'.convert id target = answer' at hconvert ⊢
  cases hconvert with
  | error h => exact .throw h
  | @ok answer answer' h =>
    obtain ⟨converted, place⟩ := answer
    obtain ⟨converted', place'⟩ := answer'
    obtain ⟨hconverted, rfl⟩ := h
    exact (resolves_onForest fun _ _ _ => hconverted).next fun _ => .pure rfl

theorem resolves_promote (id : NodeId) (common : Ty) :
    L.Resolves known Eq (promote id common) (promote id common) := by
  refine resolves_forest.bind fun forest forest' h => ?_
  have hpromote := agree_promote h id common
  generalize forest.promote id common = answer, forest'.promote id common = answer' at hpromote ⊢
  cases hpromote with
  | error h => exact .throw h
  | @ok answer answer' h =>
    obtain ⟨converted, place⟩ := answer
    obtain ⟨converted', place'⟩ := answer'
    obtain ⟨hconverted, rfl⟩ := h
    exact (resolves_onForest fun _ _ _ => hconverted).next fun _ => .pure rfl

theorem resolves_declare {symbol symbol' : Symbol} (hsymbol : L.SameSymbol symbol symbol')
    (hname : L.name symbol.name symbol'.name) (hline : L.line symbol.line symbol'.line) :
    L.Resolves known Eq (declare symbol) (declare symbol') := by
  refine resolves_table.bind fun table table' h => ?_
  have hdeclare := h.declare hsymbol hname hline
  generalize table.declare symbol = answer, table'.declare symbol' = answer' at hdeclare ⊢
  cases hdeclare with
  | error h => exact .throw h
  | @ok answer answer' h =>
    obtain ⟨declared, place⟩ := answer
    obtain ⟨declared', place'⟩ := answer'
    obtain ⟨hdeclared, rfl⟩ := h
    exact (resolves_onTable fun _ _ _ => hdeclared).next fun _ => .pure rfl

theorem resolves_jumpLabel {next next' : Machine.Label → Resolve β}
    (hnext : ∀ label : Machine.Label, label.isJump → L.Resolves known W (next label) (next' label)) :
    L.Resolves known W (jumpLabel >>= next) (jumpLabel >>= next') := by
  have hdrawn : L.Resolves known (fun label label' => label' = label ∧ label.isJump) jumpLabel jumpLabel :=
    fun _ _ h => .ok ⟨congrArg Machine.Label.jump h.session.drawn, rfl⟩
      { h with session := ⟨congrArg (· + 1) h.session.drawn, h.session.warnings⟩ }
  refine hdrawn.bind fun label label' hlabel => ?_
  rw [hlabel.1]
  exact hnext label hlabel.2

theorem resolves_functionLabel {name name' : String} (hname : L.name name name') :
    L.Resolves known L.SameLabel (functionLabel name) (functionLabel name') := by
  intro state state' h
  refine .ok ?_ { h with session := ⟨congrArg (· + 1) h.session.drawn, h.session.warnings⟩ }
  rw [h.session.drawn]
  exact .function hname _

end Steps

section Expression

theorem constant?_eq (h : L.SameForest forest forest') (id : NodeId) :
    forest'.constant? id = forest.constant? id := by
  have hlevels : ∀ levels id, forest'.constantWithin levels id = forest.constantWithin levels id := by
    intro levels
    induction levels with
    | zero => exact fun _ => rfl
    | succ levels ih =>
      intro id
      have hbelow : forest'.constantWithin levels = forest.constantWithin levels :=
        funext fun child => ih child
      simp only [Forest.constantWithin, h.child?, hbelow]
      have hkind := h.kind id
      generalize forest.kind id = k, forest'.kind id = k' at hkind ⊢
      cases hkind <;> rfl
  rw [Forest.constant?, Forest.constant?, h.size, hlevels]

theorem resolves_bind (hid : id ∈ known) (symbol : SymbolId) :
    L.Resolves known Eq (onForest (·.bind id symbol)) (onForest (·.bind id symbol)) :=
  resolves_onForest fun _ _ h => h.bind hid symbol

theorem resolves_setType (hid : id ∈ known) (type : Ty) :
    L.Resolves known Eq (onForest (·.setType id type)) (onForest (·.setType id type)) :=
  resolves_onForest fun _ _ h => h.setType hid type

theorem resolves_identifier (hid : id ∈ known) {name name' : String} (hname : L.name name name') :
    L.Resolves known Eq (identifier id name) (identifier id name') := by
  refine resolves_forest.bind fun forest forest' hforest => resolves_table.bind fun table table' h => ?_
  have hline := hforest.line id hid
  rw [h.lookup hname]
  cases table.lookup name with
  | none => exact resolves_refuse ⟨rfl, rfl⟩ hline
  | some symbol =>
    have hsymbol := h.symbol symbol
    dsimp only
    rw [hsymbol.isFunction, hsymbol.type]
    exact .when (V := Eq) (fun _ => resolves_refuse ⟨rfl, rfl⟩ hline)
      ((resolves_bind hid symbol).next fun _ => .pure rfl)

theorem resolves_writable (target : NodeId) (htarget : target ∈ known) :
    L.Resolves known Eq (writable target) (writable target) := by
  refine resolves_forest.bind fun forest forest' h => ?_
  have hline := h.line target htarget
  have hkind := (h.kind target).isPlace
  dsimp only
  rw [hkind]
  refine .when (V := Eq) (fun _ => resolves_refuse ⟨rfl, rfl⟩ hline) (resolves_typeOf target fun type => ?_)
  refine .when (V := Eq) (fun _ => resolves_refuse ⟨rfl, rfl⟩ hline) ?_
  exact .when (V := Eq) (fun _ => resolves_refuse ⟨rfl, rfl⟩ hline) (.pure rfl)

theorem resolves_bothToInt (left right : NodeId) :
    L.Resolves known Eq (bothToInt left right) (bothToInt left right) :=
  (resolves_convert left .int).next fun _ => (resolves_convert right .int).next fun _ => .pure rfl

theorem resolves_bothToCommon (op : BinaryOp) {line line' : Nat} (hline : L.line line line')
    (left right : NodeId) (leftType rightType : Ty) :
    L.Resolves known Eq (bothToCommon op line left right leftType rightType)
      (bothToCommon op line' left right leftType rightType) := by
  unfold bothToCommon
  cases leftType.common? rightType with
  | none => exact resolves_refuse ⟨rfl, rfl⟩ hline
  | some common =>
    exact (resolves_promote left common).next fun _ => (resolves_promote right common).next fun _ => .pure rfl

section Inner

variable {inner : NodeId → Resolve NodeId} (hinner : ∀ known id, L.Resolves known Eq (inner id) (inner id))
include hinner

theorem resolves_argumentsFrom (params : List Ty) (arguments : List NodeId) :
    L.Resolves known Eq (argumentsFrom inner params arguments) (argumentsFrom inner params arguments) := by
  induction arguments generalizing known params with
  | nil => exact .pure rfl
  | cons argument others ih =>
    refine (hinner _ argument).next fun argument => ?_
    cases params with
    | cons param params => exact (resolves_convert _ _).next fun _ => ih _
    | nil =>
      refine resolves_typeOf argument fun type => ?_
      exact .when (fun _ => resolves_convert _ _) (ih _)

theorem resolves_call (hid : id ∈ known) {name name' : String} (hname : L.name name name') :
    L.Resolves known Eq (call inner id name) (call inner id name') := by
  refine resolves_forest.bind fun forest forest' hforest => resolves_table.bind fun table table' h => ?_
  have hline := hforest.line id hid
  rw [h.lookup hname]
  cases table.lookup name with
  | none => exact resolves_refuse ⟨rfl, rfl⟩ hline
  | some symbol =>
    have hsymbol := h.symbol symbol
    have hsignature := hsymbol.signature?
    dsimp only
    rw [hsymbol.type]
    generalize (table.symbol symbol).signature? = signature, (table'.symbol symbol).signature? = signature'
      at hsignature ⊢
    cases hsignature with
    | none => exact resolves_refuse ⟨rfl, rfl⟩ hline
    | @some signature signature' hsame =>
      refine resolves_forest.bind fun forest forest' hforest => ?_
      have hfits : ∀ count, fits signature' count = fits signature count :=
        fun count => by rw [fits, fits, hsame.variadic, hsame.params]
      rw [hforest.children, hfits, hsame.params, hsame.defined]
      refine .when (V := Eq) (fun _ => resolves_refuse ⟨rfl, rfl⟩ hline) ?_
      refine (resolves_argumentsFrom hinner _ _).next fun _ => .when (V := Eq) (fun _ => ?_)
        ((resolves_bind hid symbol).next fun _ => .pure rfl)
      exact .modify fun _ _ hstate =>
        { hstate with pending := List.rel_append hstate.pending (.cons ⟨rfl, hline⟩ .nil) }

theorem resolves_binary (hid : id ∈ known) (op : BinaryOp) :
    L.Resolves known Eq (binary inner id op) (binary inner id op) := by
  refine resolves_forest.bind fun forest forest' h => ?_
  have hline := h.line id hid
  refine (resolves_child id 0).next fun left => (hinner _ left).next fun left =>
    (resolves_child id 1).next fun right => (hinner _ right).next fun right =>
      resolves_typeOf left fun leftType => resolves_typeOf right fun rightType => ?_
  cases op with
  | assign =>
    refine (resolves_writable left (by simp)).next fun target => ?_
    exact (resolves_convert right target).next fun _ => .pure rfl
  | logic op => exact resolves_bothToInt left right
  | remainder =>
    refine .when (V := Eq) (fun _ => resolves_refuse ⟨rfl, rfl⟩ hline) ?_
    exact .when (V := Eq) (fun _ => resolves_refuse ⟨rfl, rfl⟩ hline) (resolves_bothToInt left right)
  | arith op => exact resolves_bothToCommon _ hline left right leftType rightType
  | compare op =>
    exact (resolves_bothToCommon _ hline left right leftType rightType).next fun _ => .pure rfl

theorem resolves_unary (hid : id ∈ known) (op : UnaryOp) :
    L.Resolves known Eq (unary inner id op) (unary inner id op) := by
  refine resolves_forest.bind fun forest forest' h => ?_
  have hline := h.line id hid
  refine (resolves_child id 0).next fun operand => (hinner _ operand).next fun operand =>
    resolves_typeOf operand fun type => ?_
  cases op with
  | negate => exact .when (V := Eq) (fun _ => resolves_refuse ⟨rfl, rfl⟩ hline) (.pure rfl)
  | not => exact (resolves_convert operand .int).next fun _ => .pure rfl
  | deref =>
    dsimp only
    cases type.decay.pointee? with
    | none => exact resolves_refuse ⟨rfl, rfl⟩ hline
    | some target => exact (resolves_convert operand type.decay).next fun _ => .pure rfl
  | addressOf =>
    refine resolves_forest.bind fun forest forest' h => ?_
    rw [(h.kind operand).isPlace]
    exact .when (V := Eq) (fun _ => resolves_refuse ⟨rfl, rfl⟩ hline) (.pure rfl)
  | step =>
    exact .when (V := Eq) (fun _ => resolves_refuse ⟨rfl, rfl⟩ hline) (resolves_writable operand (by simp))

theorem resolves_subscript (hid : id ∈ known) :
    L.Resolves known Eq (subscript inner id) (subscript inner id) := by
  refine resolves_forest.bind fun forest forest' h => ?_
  have hline := h.line id hid
  refine (resolves_child id 0).next fun base => (hinner _ base).next fun base =>
    resolves_forest.bind fun forest forest' h => ?_
  have hkind := h.kind base
  generalize forest.kind base = k, forest'.kind base = k' at hkind ⊢
  cases hkind with
  | identifier hname symbol =>
    refine resolves_typeOf base fun baseType => ?_
    cases elements? baseType with
    | none => exact resolves_refuse ⟨rfl, rfl⟩ hline
    | some found =>
      refine (resolves_child id 1).next fun index => (hinner _ index).next fun index =>
        resolves_typeOf index fun indexType => ?_
      refine .when (V := Eq) (fun _ => resolves_refuse ⟨rfl, rfl⟩ hline) (resolves_forest.bind fun forest forest' h => ?_)
      have hconvert {known : Set NodeId} : L.Resolves known Eq
          (convert index .int >>= fun _ => Pure.pure found.1) (convert index .int >>= fun _ => Pure.pure found.1) :=
        (resolves_convert index .int).next fun _ => .pure rfl
      rw [constant?_eq h.toSameForest]
      cases forest.constant? index with
      | none => exact hconvert
      | some value =>
        cases found.2 with
        | none => exact hconvert
        | some size => exact .when (V := Eq) (fun _ => resolves_refuse ⟨rfl, rfl⟩ hline) hconvert
  | @other k =>
    cases k with
    | identifier => contradiction
    | _ => exact resolves_forest.bind fun _ _ h => resolves_refuse ⟨rfl, rfl⟩ hline
  | _ => exact resolves_forest.bind fun _ _ h => resolves_refuse ⟨rfl, rfl⟩ hline

/-- Finding the type of an expression and noting it. Once its kind is known, so is its line. -/
theorem resolves_byKind (id : NodeId) {next : Resolve β} (hnext : ∀ known, L.Resolves known W next next) :
    L.Resolves known W (byKind inner id >>= fun type => onForest (·.setType id type) >>= fun _ => next)
      (byKind inner id >>= fun type => onForest (·.setType id type) >>= fun _ => next) := by
  have hnote : ∀ {known} {step step' : Resolve Ty}, id ∈ known → L.Resolves known Eq step step' →
      L.Resolves known W (step >>= fun type => onForest (·.setType id type) >>= fun _ => next)
        (step' >>= fun type => onForest (·.setType id type) >>= fun _ => next) :=
    fun hid h => h.next fun type => (resolves_setType hid type).next fun _ => hnext _
  have hrefused : ∀ {known message message' line line'}, L.Resolves known W
      (malformed message line >>= fun type => onForest (·.setType id type) >>= fun _ => next)
      (malformed message' line' >>= fun type => onForest (·.setType id type) >>= fun _ => next) := by
    intro known message message' line line'
    exact (resolves_malformed (V := fun _ _ => False)).bind fun _ _ h => h.elim
  unfold byKind
  rw [bind_assoc]
  refine resolves_look fun forest forest' h => ?_
  have hid : (forest.kind id).isSilent = false → id ∈ L.linesOf forest forest' := h.line_of_kind
  have hkind := h.kind id
  generalize forest.kind id = k, forest'.kind id = k' at hkind hid ⊢
  cases hkind with
  | identifier hname => exact hnote (hid rfl) (resolves_identifier (hid rfl) hname)
  | call hname => exact hnote (hid rfl) (resolves_call hinner (hid rfl) hname)
  | @other k =>
    cases k with
    | int | char | string | conversion => exact hnote (hid rfl) (.pure rfl)
    | binary op => exact hnote (hid rfl) (resolves_binary hinner (hid rfl) op)
    | unary op => exact hnote (hid rfl) (resolves_unary hinner (hid rfl) op)
    | subscript => exact hnote (hid rfl) (resolves_subscript hinner (hid rfl))
    | identifier | call => contradiction
    | _ => exact hrefused
  | _ => exact hrefused

omit hinner in
theorem resolves_castThrough (id : NodeId) (types : List Ty) :
    L.Resolves known Eq (castThrough id types) (castThrough id types) := by
  induction types generalizing id with
  | nil => exact .pure rfl
  | cons type others ih => exact (resolves_convert id type).next fun _ => ih _

end Inner

theorem resolves_expressionWithin (levels : Nat) (known : Set NodeId) (id : NodeId) :
    L.Resolves known Eq (expressionWithin levels id) (expressionWithin levels id) := by
  induction levels generalizing known id with
  | zero => exact resolves_exhausted
  | succ levels ih =>
    refine (resolves_annotate id).next fun _ => resolves_byKind ih id fun known => ?_
    refine resolves_forest.bind fun forest forest' h => ?_
    rw [(h.node id).casts]
    exact resolves_castThrough id _

theorem resolves_expression (id : NodeId) : L.Resolves known Eq (expression id) (expression id) := by
  refine resolves_forest.bind fun forest forest' h => ?_
  rw [h.size]
  exact resolves_expressionWithin _ _ _

end Expression

end MiniC.Likeness
