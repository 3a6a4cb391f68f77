import MiniC.Proofs.Alike.Resolve
import MiniC.Returns

/-!
# Resolving statements and programs alike

Declarations alike enter their names alike, and labels are drawn in the same order. So programs alike
are resolved alike, and the same functions owe a return.
-/

namespace MiniC.Likeness

open Resolve

variable {L : Likeness} {known : Set NodeId} {forest forest' : Forest} {id : NodeId} {α β : Type}
  {V : α → α → Prop} {name name' : String} {line line' : Nat}

section Statement

theorem resolves_inScope {steps steps' : Resolve Unit} (h : L.Resolves known Eq steps steps') :
    L.Resolves known Eq (inScope steps) (inScope steps') :=
  (resolves_onTable fun _ _ htable => htable.enter).next fun _ => h.next fun _ =>
    resolves_onTable fun _ _ htable => htable.leave

theorem resolves_each (nodes : List NodeId) {steps steps' : NodeId → Resolve Unit}
    (h : ∀ id, L.Resolves known Eq (steps id) (steps' id)) :
    L.Resolves known Eq (each nodes steps) (each nodes steps') := by
  induction nodes with
  | nil => exact .pure rfl
  | cons node others ih => exact (h node).next fun _ => ih

theorem resolves_initializerList (hline : L.line line line') (type : Ty) (size : Option (Option Nat))
    {list : NodeId} (hlist : list ∈ known) :
    L.Resolves known Eq (initializerList name line type size list)
      (initializerList name' line' type size list) := by
  unfold initializerList
  cases type.element? with
  | none => exact resolves_refuse ⟨rfl, rfl⟩ hline
  | some element =>
    refine (resolves_annotate list).next fun _ => resolves_forest.bind fun forest forest' h => ?_
    rw [h.children]
    refine (resolves_each _ fun item => (resolves_expression item).next fun item =>
      (resolves_convert item element).next fun _ => .pure rfl).next fun _ => ?_
    have hnote : ∀ type, L.Resolves known Eq
        (onForest (·.setType list type) >>= fun _ => Pure.pure type)
        (onForest (·.setType list type) >>= fun _ => Pure.pure type) :=
      fun type => (resolves_setType hlist type).next fun _ => .pure rfl
    cases size with
    | none => exact hnote type
    | some size =>
      cases size with
      | none => exact .when (V := Eq) (fun _ => resolves_refuse ⟨rfl, rfl⟩ hline) (hnote _)
      | some size => exact .when (V := Eq) (fun _ => resolves_refuse ⟨rfl, rfl⟩ hline) (hnote type)

theorem resolves_initializer (id : NodeId) (hline : L.line line line') (type : Ty)
    (size : Option (Option Nat)) :
    L.Resolves known Eq (initializer id name line type size) (initializer id name' line' type size) := by
  refine resolves_look fun forest forest' h => ?_
  rw [h.child?]
  cases forest.child? id 1 with
  | none => exact .when (V := Eq) (fun _ => resolves_refuse ⟨rfl, rfl⟩ hline) (.pure rfl)
  | some initial =>
    have hiff := (h.kind initial).eq_iff (rfl : Kind.isNamed .initializers = false)
    dsimp only
    simp only [hiff]
    refine .ite (fun hlist => ?_) fun _ => ?_
    · exact resolves_initializerList hline type size (h.line_of_kind (by rw [hlist]; rfl))
    · refine .when (V := Eq) (fun _ => resolves_refuse ⟨rfl, rfl⟩ hline) ?_
      exact (resolves_expression initial).next fun value => (resolves_convert value type).next fun _ => .pure rfl

theorem writtenSize_eq {k k' : Kind} (h : L.SameKind k k') : writtenSize k' = writtenSize k := by
  cases h <;> rfl

theorem resolves_declaration (hid : id ∈ known) (hname : L.name name name') :
    L.Resolves known Eq (declaration id name) (declaration id name') := by
  refine resolves_forest.bind fun forest forest' h => ?_
  have hline := h.line id hid
  refine (resolves_child id 0).next fun written => (resolves_writtenType id 0).next fun type => ?_
  refine .when (V := Eq) (fun _ => resolves_refuse ⟨rfl, rfl⟩ hline) (resolves_forest.bind fun forest forest' h => ?_)
  rw [writtenSize_eq (h.kind written)]
  refine .when (V := Eq) (fun _ => resolves_refuse ⟨rfl, rfl⟩ hline) ?_
  refine (resolves_initializer id hline type _).next fun type => (resolves_setType hid type).next fun _ =>
    resolves_forest.bind fun forest forest' h => ?_
  rw [h.owningFunction]
  refine (resolves_declare ?_ hname hline).next fun symbol => resolves_bind hid symbol
  exact ⟨rfl, .variableAt id, rfl, rfl, rfl, fun hfunction => by cases hfunction.choose_spec.1⟩

theorem resolves_parameterType (param : NodeId) :
    L.Resolves known Eq (parameterType param) (parameterType param) := by
  refine resolves_forest.bind fun forest forest' h => ?_
  have hline : (forest.kind param).isSilent = false → L.line (forest.line param) (forest'.line param) :=
    h.line_of_kind
  have hkind := h.kind param
  generalize forest.kind param = k, forest'.kind param = k' at hkind hline ⊢
  cases hkind with
  | parameter hname =>
    refine (resolves_writtenType param 0).next fun type => ?_
    exact .when (V := Eq) (fun _ => resolves_refuse ⟨rfl, rfl⟩ (hline rfl)) (.pure rfl)
  | @other k =>
    cases k with
    | parameter => contradiction
    | _ => exact resolves_malformed
  | _ => exact resolves_malformed

theorem resolves_parameterTypes (params : List NodeId) :
    L.Resolves known Eq (parameterTypes params) (parameterTypes params) := by
  induction params with
  | nil => exact .pure rfl
  | cons param others ih => exact (resolves_parameterType param).next fun _ => ih.next fun _ => .pure rfl

theorem resolves_functionSymbol (hname : L.name name name') (hline : L.line line line') (result : Ty)
    (params : List Ty) (hasBody : Bool) :
    L.Resolves known Eq (functionSymbol id name line result params hasBody)
      (functionSymbol id name' line' result params hasBody) := by
  refine resolves_table.bind fun table table' h => ?_
  rw [h.lookupCurrent hname]
  cases table.lookupCurrent name with
  | none =>
    refine (resolves_functionLabel hname).bind fun label label' hlabel =>
      resolves_forest.bind fun forest forest' h => ?_
    rw [h.owningFunction]
    refine resolves_declare ⟨rfl, .function ⟨rfl, hlabel, rfl, rfl, rfl⟩, rfl, rfl, rfl, ?_⟩ hname hline
    rintro ⟨signature, hsome, hbuiltin⟩
    obtain rfl := Option.some.inj hsome
    cases hbuiltin
  | some earlier =>
    have hsymbol := h.symbol earlier
    have hsignature := hsymbol.signature?
    dsimp only
    rw [hsymbol.type]
    generalize (table.symbol earlier).signature? = signature, (table'.symbol earlier).signature? = signature'
      at hsignature ⊢
    cases hsignature with
    | none => exact resolves_refuse ⟨rfl, rfl⟩ hline
    | some hsame =>
      dsimp only
      rw [hsame.params, hsame.defined]
      refine .when (V := Eq) (fun _ => resolves_refuse ⟨rfl, rfl⟩ hline) ?_
      refine .when (V := Eq) (fun _ => resolves_refuse ⟨rfl, rfl⟩ hline) (.when (V := Eq) (fun _ => ?_) (.pure rfl))
      refine resolves_onTable fun table table' h => h.update earlier (fun _ _ h => h.setDefined true) ?_
      intro symbol
      unfold Symbol.setDefined
      split <;> rfl

theorem resolves_declareParameter (function param : NodeId) (type : Ty) :
    L.Resolves known Eq (declareParameter function param type) (declareParameter function param type) := by
  refine (resolves_annotate param).next fun _ => resolves_look fun forest forest' h => ?_
  have hline : (forest.kind param).isSilent = false → L.line (forest.line param) (forest'.line param) :=
    h.line_of_kind
  have hkind := h.kind param
  generalize forest.kind param = k, forest'.kind param = k' at hkind hline ⊢
  cases hkind with
  | parameter hname =>
    refine (resolves_declare ?_ hname (hline rfl)).next fun symbol => resolves_onForest fun _ _ h =>
      (h.setType (hline rfl) type).bind (hline rfl) symbol
    exact ⟨rfl, .variableAt param, rfl, rfl, rfl, fun hfunction => by cases hfunction.choose_spec.1⟩
  | @other k =>
    cases k with
    | parameter => contradiction
    | _ => exact .pure rfl
  | _ => exact .pure rfl

theorem resolves_declareParameters (function : NodeId) (params : List NodeId) (types : List Ty) :
    L.Resolves known Eq (declareParameters function params types)
      (declareParameters function params types) := by
  induction params generalizing types with
  | nil => exact .pure rfl
  | cons param params ih =>
    cases types with
    | nil => exact .pure rfl
    | cons type types => exact (resolves_declareParameter function param type).next fun _ => ih types

theorem resolves_condition (id : NodeId) (slot : Nat) :
    L.Resolves known Eq (condition id slot) (condition id slot) :=
  (resolves_child id slot).next fun test => (resolves_expression test).next fun value =>
    (resolves_convert value .int).next fun _ => .pure rfl

theorem resolves_giveBack (hid : id ∈ known) : L.Resolves known Eq (giveBack id) (giveBack id) := by
  refine resolves_forest.bind fun forest forest' h => ?_
  have hline := h.line id hid
  rw [h.owningFunction]
  cases forest.owningFunction id with
  | none => exact resolves_refuse ⟨rfl, rfl⟩ hline
  | some function =>
    have hkind := h.kind function
    dsimp only
    rw [h.child?]
    generalize forest.kind function = k, forest'.kind function = k' at hkind ⊢
    cases hkind with
    | function hname =>
      refine resolves_typeOf function fun result => ?_
      cases forest.child? id 0 with
      | none => exact .ite (fun _ => resolves_refuse ⟨rfl, rfl⟩ hline) fun _ => .pure rfl
      | some value =>
        refine .when (V := Eq) (fun _ => resolves_refuse ⟨rfl, rfl⟩ hline) ?_
        exact (resolves_expression value).next fun value => (resolves_convert value _).next fun _ => .pure rfl
    | @other k =>
      cases k with
      | function => contradiction
      | _ => exact resolves_malformed
    | _ => exact resolves_malformed

theorem jumpTarget?_eq {k k' : Kind} (h : L.SameKind k k') (leaving : Bool) :
    jumpTarget? k' leaving = jumpTarget? k leaving := by cases h <;> rfl

theorem isJump_of_jumpTarget? {k k' : Kind} (h : L.SameKind k k') {leaving : Bool} {label : Machine.Label}
    (hlabel : jumpTarget? k leaving = some label) : label.isJump := by
  cases h with
  | @other k h =>
    cases k with
    | whileLoop labels | forLoop labels =>
      cases labels with
      | none => cases hlabel
      | some labels =>
        cases leaving <;> obtain rfl := Option.some.inj hlabel <;> simp_all [Kind.isNamed]
    | _ => cases hlabel
  | _ => cases hlabel

theorem resolves_jump (hid : id ∈ known) (leaving : Bool) :
    L.Resolves known Eq (jump id leaving) (jump id leaving) := by
  refine resolves_forest.bind fun forest forest' h => ?_
  rw [h.enclosingLoop]
  cases forest.enclosingLoop id with
  | none => exact resolves_refuse ⟨rfl, rfl⟩ (h.line id hid)
  | some loop =>
    have htarget := fun label (hlabel : jumpTarget? (forest.kind loop) leaving = some label) =>
      isJump_of_jumpTarget? (h.kind loop) hlabel
    dsimp only
    rw [jumpTarget?_eq (h.kind loop)]
    refine resolves_onForest fun _ _ h => h.setKind hid (.other ?_)
    cases htarget? : jumpTarget? (forest.kind loop) leaving with
    | none => cases leaving <;> rfl
    | some label => cases leaving <;> simp [Kind.isNamed, htarget label htarget?]

section Inner

variable {inner : NodeId → Resolve Unit} (hinner : ∀ known id, L.Resolves known Eq (inner id) (inner id))
include hinner

theorem resolves_function (hid : id ∈ known) (hname : L.name name name') :
    L.Resolves known Eq (function inner id name) (function inner id name') := by
  refine resolves_forest.bind fun forest forest' h => ?_
  have hline := h.line id hid
  refine (resolves_writtenType id 0).next fun result => (resolves_child id 1).next fun list =>
    resolves_forest.bind fun forest forest' h => ?_
  rw [h.children]
  refine (resolves_parameterTypes _).next fun types => resolves_forest.bind fun forest forest' h => ?_
  rw [h.child?]
  refine (resolves_functionSymbol hname hline result types _).next fun symbol => ?_
  refine (resolves_onForest fun _ _ h => (h.bind hid symbol).setType hid result).next fun _ => ?_
  cases forest.child? id 2 with
  | none => exact resolves_annotate list
  | some body =>
    refine resolves_inScope ((resolves_annotate list).next fun _ =>
      (resolves_declareParameters id _ types).next fun _ => (resolves_annotate body).next fun _ =>
        resolves_forest.bind fun forest forest' h => ?_)
    rw [h.children]
    exact resolves_each _ (hinner _)

theorem resolves_ifElse (hid : id ∈ known) : L.Resolves known Eq (ifElse inner id) (ifElse inner id) := by
  refine resolves_jumpLabel fun otherwise hotherwise => resolves_jumpLabel fun finish hfinish =>
    (resolves_onForest fun _ _ h => h.setKind hid (.other ?_)).next fun _ => (resolves_condition id 0).next
      fun _ => (resolves_child id 1).next fun yes => (hinner _ yes).next fun _ =>
        resolves_forest.bind fun forest forest' h => ?_
  · simp [Kind.isNamed, hotherwise, hfinish]
  · rw [h.child?]
    cases forest.child? id 2 with
    | none => exact .pure rfl
    | some other => exact hinner _ other

theorem resolves_whileLoop (hid : id ∈ known) :
    L.Resolves known Eq (whileLoop inner id) (whileLoop inner id) := by
  refine resolves_jumpLabel fun start hstart => resolves_jumpLabel fun finish hfinish =>
    (resolves_onForest fun _ _ h => h.setKind hid (.other ?_)).next fun _ => (resolves_condition id 0).next
      fun _ => (resolves_child id 1).next fun body => resolves_inScope (hinner _ body)
  simp [Kind.isNamed, hstart, hfinish]

theorem resolves_forLoop (hid : id ∈ known) : L.Resolves known Eq (forLoop inner id) (forLoop inner id) := by
  refine resolves_jumpLabel fun start hstart => resolves_jumpLabel fun next hnext => resolves_jumpLabel
    fun finish hfinish => (resolves_onForest fun _ _ h => h.setKind hid (.other ?_)).next fun _ =>
      resolves_inScope ((resolves_child id 0).next fun start => (hinner _ start).next fun _ =>
        (resolves_child id 1).next fun test => resolves_forest.bind fun forest forest' h => ?_)
  · simp [Kind.isNamed, hstart, hnext, hfinish]
  have hrest : L.Resolves known Eq
      (child id 2 >>= fun step => inner step >>= fun _ => child id 3 >>= fun body => inner body)
      (child id 2 >>= fun step => inner step >>= fun _ => child id 3 >>= fun body => inner body) :=
    (resolves_child id 2).next fun step => (hinner _ step).next fun _ => (resolves_child id 3).next
      fun body => hinner _ body
  simp only [(h.kind test).eq_iff (rfl : Kind.isNamed .nothing = false)]
  exact .ite (fun _ => (resolves_annotate test).next fun _ => hrest) fun _ =>
    (resolves_condition id 1).next fun _ => hrest

end Inner

theorem resolves_statementWithin (levels : Nat) (known : Set NodeId) (id : NodeId) :
    L.Resolves known Eq (statementWithin levels id) (statementWithin levels id) := by
  induction levels generalizing known id with
  | zero => exact resolves_exhausted
  | succ levels ih =>
    refine (resolves_annotate id).next fun _ => resolves_look fun forest forest' h => ?_
    have hid : (forest.kind id).isSilent = false → id ∈ L.linesOf forest forest' := h.line_of_kind
    have hkind := h.kind id
    rw [h.children]
    generalize forest.kind id = k, forest'.kind id = k' at hkind hid ⊢
    cases hkind with
    | declaration hname => exact resolves_declaration (hid rfl) hname
    | function hname => exact resolves_function ih (hid rfl) hname
    | @other k =>
      cases k with
      | block => exact resolves_inScope (resolves_each _ (ih _))
      | exprStatement =>
        exact (resolves_child id 0).next fun expr => (resolves_expression expr).next fun _ => .pure rfl
      | ifElse => exact resolves_ifElse ih (hid rfl)
      | whileLoop => exact resolves_whileLoop ih (hid rfl)
      | forLoop => exact resolves_forLoop ih (hid rfl)
      | giveBack => exact resolves_giveBack (hid rfl)
      | breakOut => exact resolves_jump (hid rfl) true
      | continueOn => exact resolves_jump (hid rfl) false
      | nothing => exact .pure rfl
      | declaration | function => contradiction
      | _ => exact resolves_malformed
    | _ => exact resolves_malformed

theorem resolves_statement (id : NodeId) : L.Resolves known Eq (statement id) (statement id) := by
  refine resolves_forest.bind fun forest forest' h => ?_
  rw [h.size]
  exact resolves_statementWithin _ _ _

end Statement

end MiniC.Likeness
