import MiniC.Grammar.File
import MiniC.Proofs.Build.Grown

/-!
# What readers leave on the operand stack

A reader that has a result leaves trees of its category above the operands that were there before, be they
what they may. `Parse.Yields` says so; it also says that a reader that is refused has built sound trees only
up to then. In front of an `else` no reader leaves a statement that the `else` could belong to.
-/

namespace MiniC

namespace Parse

variable {α β : Type} {base : Builder} {trees before : List Tree} {start : Parser}
  {post : α → Parser → Prop} {post' : β → Parser → Prop}

/-- The step has a result with `post`, or it is refused and has built something above `base`. -/
structure Yields (base : Builder) (start : Parser) (step : Parse α) (post : α → Parser → Prop) :
    Prop where
  yields : match step start with
    | .ok value parser => post value parser
    | .error _ parser => ∃ trees, base.Grown trees parser.builder

namespace Yields

theorem of_ok {step : Parse α} {value : α} {parser : Parser} (h : Yields base start step post)
    (hok : step start = .ok value parser) : post value parser := by
  have hstep := h.yields
  rwa [hok] at hstep

theorem of_error {step : Parse α} {fault : Fault} {parser : Parser} (h : Yields base start step post)
    (herror : step start = .error fault parser) : ∃ trees, base.Grown trees parser.builder := by
  have hstep := h.yields
  rwa [herror] at hstep

theorem imp {step : Parse α} {post' : α → Parser → Prop} (h : Yields base start step post)
    (hpost : ∀ value parser, post value parser → post' value parser) :
    Yields base start step post' := by
  have hstep := h.yields
  refine ⟨?_⟩
  split
  · next hok => exact hpost _ _ (by rwa [hok] at hstep)
  · next herror => rwa [herror] at hstep

theorem bind {step : Parse α} {next : α → Parse β} (h : Yields base start step post)
    (hnext : ∀ value parser, post value parser → Yields base parser (next value) post') :
    Yields base start (step >>= next) post' := by
  have hstep := h.yields
  refine ⟨?_⟩
  simp only [Bind.bind, EStateM.bind]
  generalize step start = result at hstep
  cases result with
  | ok value parser => exact (hnext value parser hstep).yields
  | error fault parser => exact hstep

theorem pure {value : α} (h : post value start) : Yields base start (Pure.pure value) post := ⟨h⟩

theorem ite {c : Prop} [Decidable c] {yes no : Parse α} (hyes : c → Yields base start yes post)
    (hno : ¬c → Yields base start no post) : Yields base start (if c then yes else no) post := by
  by_cases h : c
  · rw [if_pos h]
    exact hyes h
  · rw [if_neg h]
    exact hno h

/-- Something may be done before the rest. -/
theorem when {c : Prop} [Decidable c] {step : Parse PUnit} {next : PUnit → Parse α}
    (ready : Parser → Prop) (hstep : c → Yields base start step fun _ parser => ready parser)
    (hskip : ¬c → ready start) (hnext : ∀ parser, ready parser → Yields base parser (next ⟨⟩) post) :
    Yields base start (if c then step >>= next else next ⟨⟩) post :=
  .ite (fun h => (hstep h).bind fun _ => hnext) fun h => hnext start (hskip h)

theorem get {next : Parser → Parse α} (h : Yields base start (next start) post) :
    Yields base start (MonadState.get >>= next) post := ⟨h.yields⟩

theorem current {next : Token → Parse α} (h : Yields base start (next start.current) post) :
    Yields base start (Parse.current >>= next) post := ⟨h.yields⟩

theorem kind {next : TokenKind → Parse α}
    (h : ∀ k, start.current.kind = k → Yields base start (next k) post) :
    Yields base start (Parse.kind >>= next) post := ⟨(h _ rfl).yields⟩

theorem line {next : Nat → Parse α} (h : ∀ line, Yields base start (next line) post) :
    Yields base start (Parse.line >>= next) post := ⟨(h _).yields⟩

theorem patience {next : Nat → Parse α} (h : ∀ rounds, Yields base start (next rounds) post) :
    Yields base start (Parse.patience >>= next) post := ⟨(h _).yields⟩

/-- A step of construction finds the operands that it takes. -/
theorem build {step : Build Unit} {after : Tree} (hstep : Build.Composes step before after)
    (h : base.Grown (before ++ trees) start.builder) :
    Yields base start (build step) fun _ parser =>
      parser.current = start.current ∧ base.Grown (after :: trees) parser.builder := by
  obtain ⟨rest, last, builder⟩ := start
  obtain ⟨builder', hrun, hgrown⟩ := hstep.grown h
  refine ⟨?_⟩
  simp only [Parse.build, hrun]
  exact ⟨rfl, hgrown⟩

section Silent

variable (h : base.Grown trees start.builder)

include h

theorem refused {step : Parse α} {fault : Fault} (hstep : step start = .error fault start) :
    Yields base start step post := ⟨by rw [hstep]; exact ⟨trees, h⟩⟩

theorem fault (fault : Fault) : Yields base start (throw fault : Parse α) post := refused h rfl

theorem unexpected : Yields base start (unexpected : Parse α) post := refused h rfl

theorem refuse (message : String) : Yields base start (refuse message : Parse α) post := refused h rfl

theorem exhausted : Yields base start (exhausted : Parse α) post := refused h rfl

theorem advance : Yields base start advance fun _ parser => base.Grown trees parser.builder := ⟨h⟩

theorem expect (wanted : TokenKind) :
    Yields base start (expect wanted) fun _ parser => base.Grown trees parser.builder :=
  .kind fun _ _ => .ite (fun _ => .advance h) fun _ => .unexpected h

theorem expectName (message : String) :
    Yields base start (expectName message) fun _ parser => base.Grown trees parser.builder :=
  .kind fun _ _ => .ite (fun _ => .advance h) fun _ => .refuse h message

/-- A token that has not been accepted is another one. -/
theorem accept (wanted : TokenKind) :
    Yields base start (accept wanted) fun found parser =>
      (found = true → start.current.kind = wanted) ∧ (found = false → parser.current.kind ≠ wanted) ∧
        base.Grown trees parser.builder := by
  refine .kind fun k hk => .ite (fun hwanted => ?_) fun hwanted => .pure ⟨by simp, fun _ => ?_, h⟩
  · exact (Yields.advance h).bind fun _ _ h => .pure ⟨fun _ => hk.trans hwanted, by simp, h⟩
  · rwa [hk]

end Silent

end Yields

end Parse

namespace Grammar

open Parse Tree

variable {base : Builder} {trees : List Tree} {start : Parser} {line : Nat}

/-! ## Written types -/

theorem yields_baseType (h : base.Grown trees start.builder) :
    Yields base start baseType fun _ parser => base.Grown trees parser.builder := by
  refine .kind fun k _ => ?_
  cases baseType? k with
  | none => exact .refuse h _
  | some name => exact (Yields.advance h).bind fun _ _ h => .pure h

theorem yields_plainType (h : base.Grown trees start.builder) :
    Yields base start plainType fun _ parser =>
      ∃ type : Ty, type.Flat ∧ base.Grown (type.written false :: trees) parser.builder :=
  .line fun _ => (yields_baseType h).bind fun name _ h =>
    (Yields.build (Build.composes_base name) h).imp fun _ _ h => ⟨.base name false, trivial, h.2⟩

theorem yields_const {type : Ty} (htype : type.Flat)
    (h : base.Grown (type.written false :: trees) start.builder) :
    Yields base start (build (.const line)) fun _ parser =>
      ∃ type : Ty, type.Flat ∧ base.Grown (type.written false :: trees) parser.builder := by
  refine (Yields.build (Build.composes_const htype) h).imp fun _ _ h => ⟨_, ?_, h.2⟩
  cases type with
  | array => exact htype.elim
  | _ => exact htype

theorem yields_pointerType {type : Ty} (htype : type.Flat)
    (h : base.Grown (type.written false :: trees) start.builder) :
    Yields base start (build (.pointerType line)) fun _ parser =>
      ∃ type : Ty, type.Flat ∧ base.Grown (type.written false :: trees) parser.builder :=
  (Yields.build (Build.composes_pointerType htype) h).imp fun _ _ h => ⟨.pointer type false, htype, h.2⟩

theorem yields_typeSuffixes (power : Power) (rounds : Nat) {type : Ty} (htype : type.Flat)
    (h : base.Grown (type.written false :: trees) start.builder) :
    Yields base start (typeSuffixes power rounds) fun _ parser =>
      ∃ type : Ty, type.Flat ∧ base.Grown (type.written false :: trees) parser.builder := by
  induction rounds generalizing start type with
  | zero => exact .exhausted h
  | succ rounds ih =>
    refine .ite (fun _ => .kind fun k _ => ?_) fun _ => .pure ⟨type, htype, h⟩
    cases k with
    | star =>
      exact (Yields.advance h).bind fun _ _ h => (yields_pointerType htype h).bind
        fun _ _ ⟨_, htype, h⟩ => ih htype h
    | const =>
      exact (Yields.advance h).bind fun _ _ h => (yields_const htype h).bind
        fun _ _ ⟨_, htype, h⟩ => ih htype h
    | _ => exact .pure ⟨type, htype, h⟩

theorem yields_typeSuffix (power : Power) {type : Ty} (htype : type.Flat)
    (h : base.Grown (type.written false :: trees) start.builder) :
    Yields base start (typeSuffix power) fun _ parser =>
      ∃ type : Ty, type.Flat ∧ base.Grown (type.written false :: trees) parser.builder :=
  .patience fun _ => yields_typeSuffixes power _ htype h

theorem yields_typeName (power : Power) (h : base.Grown trees start.builder) :
    Yields base start (typeName power) fun _ parser =>
      ∃ type : Ty, type.Flat ∧ base.Grown (type.written false :: trees) parser.builder := by
  refine .kind fun k _ => ?_
  cases k with
  | int | char | void =>
    exact (yields_plainType h).bind fun _ _ ⟨_, htype, h⟩ => yields_typeSuffix power htype h
  | const =>
    exact (Yields.advance h).bind fun _ _ h => (yields_plainType h).bind fun _ _ ⟨_, htype, h⟩ =>
      (yields_const htype h).bind fun _ _ ⟨_, htype, h⟩ => yields_typeSuffix power htype h
  | _ => exact .bind (.refuse h _) fun _ _ (hno : False) => hno.elim

/-! ## Expressions -/

/-- A reader of expressions leaves one. -/
def YieldsExpressions (inner : Power → Parse Unit) : Prop :=
  ∀ {base : Builder} {trees : List Tree} {start : Parser} (power : Power),
    base.Grown trees start.builder → Yields base start (inner power) fun _ parser =>
      ∃ tree : Tree, tree.IsExpression ∧ base.Grown (tree :: trees) parser.builder

/-- What a step of construction leaves is an expression. -/
theorem yields_expression_of {step : Build Unit} {before : List Tree} {after : Tree}
    (hstep : Build.Composes step before after) (hafter : after.IsExpression)
    (h : base.Grown (before ++ trees) start.builder) :
    Yields base start (build step) fun _ parser =>
      ∃ tree : Tree, tree.IsExpression ∧ base.Grown (tree :: trees) parser.builder :=
  (Yields.build hstep h).imp fun _ _ h => ⟨after, hafter, h.2⟩

section Expression

variable {inner : Power → Parse Unit}

theorem bounds_of_value? {negative : Bool} {digits : String} {value : Int}
    (h : Literal.value? negative digits = some value) :
    Literal.least ≤ value ∧ value ≤ Literal.greatest := by
  obtain ⟨hbounds, hvalue⟩ := Option.ite_none_right_eq_some.mp h
  exact Option.some.inj hvalue ▸ hbounds

theorem yields_literal (negative : Bool) (digits : String) (h : base.Grown trees start.builder) :
    Yields base start (literal negative digits line) fun _ parser =>
      ∃ tree : Tree, tree.IsExpression ∧ base.Grown (tree :: trees) parser.builder := by
  unfold literal
  cases hvalue : Literal.value? negative digits with
  | none => exact .line fun _ => .fault h _
  | some value =>
    obtain ⟨hleast, hgreatest⟩ := bounds_of_value? hvalue
    exact yields_expression_of (Build.composes_int value) (.int hleast hgreatest) h

variable (hinner : YieldsExpressions inner)

include hinner

theorem yields_argumentsFrom (rounds : Nat) {arguments : List Tree}
    (harguments : ∀ argument ∈ arguments, argument.IsExpression)
    (h : base.Grown (arguments ++ trees) start.builder) :
    Yields base start (argumentsFrom inner rounds arguments.length) fun count parser =>
      ∃ arguments : List Tree, arguments.length = count ∧
        (∀ argument ∈ arguments, argument.IsExpression) ∧
          base.Grown (arguments ++ trees) parser.builder := by
  induction rounds generalizing start arguments with
  | zero => exact .exhausted h
  | succ rounds ih =>
    have hnext : ∀ start : Parser, base.Grown (arguments ++ trees) start.builder →
        Yields base start (inner .comma >>= fun _ => argumentsFrom inner rounds (arguments.length + 1))
          fun count parser => ∃ arguments : List Tree, arguments.length = count ∧
            (∀ argument ∈ arguments, argument.IsExpression) ∧
              base.Grown (arguments ++ trees) parser.builder := fun start h =>
      (hinner .comma h).bind fun _ _ ⟨tree, htree, h⟩ =>
        ih (List.forall_mem_cons.mpr ⟨htree, harguments⟩) h
    refine .kind fun _ _ => .ite (fun _ => .pure ⟨arguments, rfl, harguments, h⟩) fun _ => ?_
    exact .ite (fun _ => (Yields.expect h .comma).bind fun _ parser h => hnext parser h)
      fun _ => hnext start h

theorem yields_arguments (h : base.Grown trees start.builder) :
    Yields base start (arguments inner) fun count parser =>
      ∃ arguments : List Tree, arguments.length = count ∧
        (∀ argument ∈ arguments, argument.IsExpression) ∧
          base.Grown (arguments ++ trees) parser.builder :=
  (Yields.expect h .openParen).bind fun _ _ h => .patience fun rounds =>
    (yields_argumentsFrom hinner rounds (List.forall_mem_nil _) h).bind
      fun _ _ ⟨arguments, hcount, harguments, h⟩ => (Yields.expect h .closeParen).bind
        fun _ _ h => .pure ⟨arguments, hcount, harguments, h⟩

theorem yields_group (h : base.Grown trees start.builder) :
    Yields base start (group inner) fun _ parser =>
      ∃ tree : Tree, tree.IsExpression ∧ base.Grown (tree :: trees) parser.builder := by
  refine (Yields.expect h .openParen).bind fun opening _ h => .kind fun _ _ =>
    .ite (fun _ => ?_) fun _ => ?_
  · exact (yields_typeName .default h).bind fun _ _ ⟨type, htype, h⟩ =>
      (Yields.expect h .closeParen).bind fun _ _ h => (hinner .unary h).bind fun _ _ ⟨tree, htree, h⟩ =>
        yields_expression_of (Build.composes_cast htype htree) (htree.cast_of_flat htype) h
  · exact (hinner .default h).bind fun _ _ ⟨tree, htree, h⟩ =>
      (Yields.expect h .closeParen).bind fun _ _ h => .pure ⟨tree, htree, h⟩

theorem yields_leading (op : UnaryOp) (h : base.Grown trees start.builder) :
    Yields base start (leading inner op) fun _ parser =>
      ∃ tree : Tree, tree.IsExpression ∧ base.Grown (tree :: trees) parser.builder := by
  refine (Yields.advance h).bind fun sign _ h => .kind fun _ _ => .ite (fun _ => ?_) fun _ => ?_
  · exact (Yields.advance h).bind fun digits _ h => yields_literal true _ h
  · exact (hinner .unary h).bind fun _ _ ⟨operand, hoperand, h⟩ =>
      yields_expression_of (Build.composes_unary op hoperand) (.unary op hoperand) h

theorem yields_operand (h : base.Grown trees start.builder) :
    Yields base start (operand inner) fun _ parser =>
      ∃ tree : Tree, tree.IsExpression ∧ base.Grown (tree :: trees) parser.builder := by
  refine .current ?_
  generalize start.current.kind = k
  cases k with
  | number => exact (Yields.advance h).bind fun _ _ h => yields_literal false _ h
  | charLiteral =>
    exact (Yields.advance h).bind fun _ _ h => yields_expression_of (Build.composes_char _) (.char _) h
  | string =>
    exact (Yields.advance h).bind fun _ _ h =>
      yields_expression_of (Build.composes_string _) (.string _) h
  | identifier =>
    refine (Yields.advance h).bind fun _ _ h => .kind fun _ _ => .ite (fun _ => ?_) fun _ => ?_
    · refine (yields_arguments hinner h).bind fun _ _ ⟨arguments, hcount, harguments, h⟩ => ?_
      subst hcount
      refine yields_expression_of (Build.composes_call _ harguments) (.call _ ?_) h
      exact fun argument hmem => harguments argument (List.mem_reverse.mp hmem)
    · exact yields_expression_of (Build.composes_identifier _) (.identifier _) h
  | openParen => exact yields_group hinner h
  | dash | not | star | ampersand | plusPlus | minusMinus => exact yields_leading hinner _ h
  | _ => exact .unexpected h

theorem yields_continueWith (power : Power) (continuation : Continuation) {left : Tree}
    (hleft : left.IsExpression) (h : base.Grown (left :: trees) start.builder) :
    Yields base start (continueWith inner power continuation) fun _ parser =>
      ∃ tree : Tree, tree.IsExpression ∧ base.Grown (tree :: trees) parser.builder := by
  have hbinary : ∀ power op, Yields base start
      (advance >>= fun sign => inner power >>= fun _ => build (.binary op sign.line)) fun _ parser =>
        ∃ tree : Tree, tree.IsExpression ∧ base.Grown (tree :: trees) parser.builder := fun power op =>
    (Yields.advance h).bind fun sign _ h => (hinner power h).bind fun _ _ ⟨right, hright, h⟩ =>
      yields_expression_of (Build.composes_binary op hleft hright) (.binary op hleft hright) h
  cases continuation with
  | assign => exact hbinary .comma .assign
  | binary op => exact hbinary power op
  | subscript =>
    exact (Yields.advance h).bind fun _ _ h => (hinner .default h).bind fun _ _ ⟨index, hindex, h⟩ =>
      (Yields.expect h .closeBracket).bind fun _ _ h =>
        yields_expression_of (Build.composes_subscript hleft hindex) (.subscript hleft hindex) h
  | step direction =>
    exact (Yields.advance h).bind fun _ _ h =>
      yields_expression_of (Build.composes_unary _ hleft) (.unary _ hleft) h

theorem yields_operators (power : Power) (rounds : Nat) {left : Tree} (hleft : left.IsExpression)
    (h : base.Grown (left :: trees) start.builder) :
    Yields base start (operators inner power rounds) fun _ parser =>
      ∃ tree : Tree, tree.IsExpression ∧ base.Grown (tree :: trees) parser.builder := by
  induction rounds generalizing start left with
  | zero => exact .exhausted h
  | succ rounds ih =>
    refine .kind fun k _ => ?_
    cases continuation? k with
    | none => exact .pure ⟨left, hleft, h⟩
    | some found =>
      exact .ite (fun _ => .pure ⟨left, hleft, h⟩) fun _ =>
        (yields_continueWith hinner _ _ hleft h).bind fun _ _ ⟨_, hleft, h⟩ => ih hleft h

omit hinner in
theorem yieldsExpressions_expressionWithin (levels : Nat) :
    YieldsExpressions (expressionWithin levels) := by
  induction levels with
  | zero => exact fun _ h => .exhausted h
  | succ levels ih =>
    exact fun power h => (yields_operand ih h).bind fun _ _ ⟨_, hleft, h⟩ => .patience fun rounds =>
      yields_operators ih power rounds hleft h

omit hinner in
theorem yieldsExpressions_expression : YieldsExpressions expression :=
  fun power h => .patience fun levels => yieldsExpressions_expressionWithin levels power h

end Expression

/-! ## Variables and parameters -/

/-- Some trees of a kind that are on top of the operands, as many as have been counted. -/
def Counted (base : Builder) (trees : List Tree) (holds : Tree → Prop) (count : Nat) (parser : Parser) :
    Prop :=
  ∃ left : List Tree, left.length = count ∧ (∀ tree ∈ left, holds tree) ∧
    base.Grown (left ++ trees) parser.builder

theorem yields_specifier (h : base.Grown trees start.builder) :
    Yields base start specifier fun _ parser => base.Grown trees parser.builder :=
  (Yields.accept h .const).bind fun _ _ h => (yields_baseType h.2.2).bind fun _ _ h =>
    (Yields.accept h .const).bind fun _ _ h => .pure h.2.2

theorem yields_itemsFrom (rounds : Nat) {count : Nat} (h : Counted base trees IsExpression count start) :
    Yields base start (itemsFrom rounds count) (Counted base trees IsExpression) := by
  induction rounds generalizing start count with
  | zero =>
    obtain ⟨left, -, -, h⟩ := h
    exact .exhausted h
  | succ rounds ih =>
    have hnext : ∀ start : Parser, Counted base trees IsExpression count start →
        Yields base start (expression .comma >>= fun _ => itemsFrom rounds (count + 1))
          (Counted base trees IsExpression) := fun start ⟨left, hcount, hleft, h⟩ =>
      (yieldsExpressions_expression .comma h).bind fun _ _ ⟨tree, htree, h⟩ =>
        ih ⟨tree :: left, congrArg (· + 1) hcount, List.forall_mem_cons.mpr ⟨htree, hleft⟩, h⟩
    refine .kind fun _ _ => .ite (fun _ => .pure h) fun _ => .ite (fun _ => ?_) fun _ => hnext start h
    obtain ⟨left, hcount, hleft, h⟩ := h
    exact (Yields.expect h .comma).bind fun _ parser h => .kind fun _ _ =>
      .ite (fun _ => .pure ⟨left, hcount, hleft, h⟩) fun _ => hnext parser ⟨left, hcount, hleft, h⟩

theorem yields_initializerList (h : base.Grown trees start.builder) :
    Yields base start initializerList fun _ parser =>
      ∃ tree : Tree, tree.IsInitial ∧ base.Grown (tree :: trees) parser.builder := by
  refine (Yields.expect h .openCurly).bind fun opening _ h => .patience fun rounds =>
    (yields_itemsFrom rounds ⟨[], rfl, List.forall_mem_nil _, h⟩).bind
      fun count _ ⟨items, hcount, hitems, h⟩ => (Yields.expect h .closeCurly).bind fun _ _ h => ?_
  subst hcount
  refine (Yields.build (Build.composes_initializers hitems) h).imp fun _ _ h => ⟨_, .list ?_, h.2⟩
  exact fun item hmem => hitems item (List.mem_reverse.mp hmem)

theorem yields_arraySize (h : base.Grown trees start.builder) :
    Yields base start arraySize fun size parser =>
      (∀ count ∈ size, count < 18446744073709551616) ∧ base.Grown trees parser.builder := by
  refine .kind fun _ _ => .ite (fun _ => ?_) fun _ => .pure ⟨by simp, h⟩
  refine (Yields.advance h).bind fun digits _ h => ?_
  cases hsize : Literal.size? digits.value with
  | none => exact .refuse h _
  | some size =>
    obtain ⟨hbound, hvalue⟩ := Option.ite_none_right_eq_some.mp hsize
    refine .pure ⟨fun count hcount => ?_, h⟩
    rw [← Option.some.inj hcount, ← Option.some.inj hvalue]
    exact hbound

/-- The initializer of a variable, if it has one, and the declaration above it. -/
theorem yields_initializer (name : String) {written declared : Tree} (htype : Declares written declared)
    (h : base.Grown (written :: trees) start.builder) :
    Yields base start
      (do
        let initialized ← accept .assignment
        if initialized then
          if (← kind) = .openCurly then initializerList else expression .comma
        build (.declaration name initialized line)) fun _ parser =>
      ∃ tree : Tree, (tree.IsStatement ∧ tree.role = .declaration) ∧
        base.Grown (tree :: trees) parser.builder := by
  have hbuild : ∀ {start : Parser} {initial : Option Tree}, (∀ value ∈ initial, value.IsInitial) →
      base.Grown (initial.toList ++ (written :: trees)) start.builder →
      Yields base start (build (.declaration name initial.isSome line)) fun _ parser =>
        ∃ tree : Tree, (tree.IsStatement ∧ tree.role = .declaration) ∧
          base.Grown (tree :: trees) parser.builder := by
    intro start initial hinitial h
    have hgrown : base.Grown ((initial.toList ++ [written]) ++ trees) start.builder := by
      rwa [List.append_assoc]
    exact (Yields.build (Build.composes_declaration name htype hinitial) hgrown).imp fun _ _ h =>
      ⟨_, ⟨.declaration name htype.isDeclaredType hinitial, rfl⟩, h.2⟩
  refine (Yields.accept h .assignment).bind fun initialized parser ⟨_, _, h⟩ => ?_
  cases initialized with
  | false => exact @hbuild parser none (by simp) h
  | true =>
    have hvalue : ∀ {parser : Parser},
        (∃ tree : Tree, tree.IsInitial ∧ base.Grown (tree :: written :: trees) parser.builder) →
        Yields base parser (build (.declaration name true line)) fun _ parser =>
          ∃ tree : Tree, (tree.IsStatement ∧ tree.role = .declaration) ∧
            base.Grown (tree :: trees) parser.builder := fun {parser} ⟨value, hvalue, h⟩ =>
      @hbuild parser (some value) (by simpa using hvalue) h
    refine .kind fun _ _ => .ite (fun _ => ?_) fun _ => ?_
    · exact (yields_initializerList h).bind fun _ _ => hvalue
    · exact (yieldsExpressions_expression .comma h).bind fun _ _ ⟨tree, htree, h⟩ =>
        hvalue ⟨tree, .expression htree, h⟩

theorem yields_variableRest (name : String) {type : Ty} (htype : type.Flat)
    (h : base.Grown (type.written false :: trees) start.builder) :
    Yields base start (variableRest name line) fun _ parser =>
      ∃ tree : Tree, (tree.IsStatement ∧ tree.role = .declaration) ∧
        base.Grown (tree :: trees) parser.builder := by
  refine (Yields.accept h .openBracket).bind fun brackets parser ⟨_, _, h⟩ =>
    .ite (fun _ => ?_) fun _ => yields_initializer name (.plain htype) h
  exact (yields_arraySize h).bind fun size _ ⟨hsize, h⟩ => (Yields.expect h .closeBracket).bind
    fun _ _ h => (Yields.build (Build.composes_arrayType htype size) h).bind fun _ _ h =>
      yields_initializer name (.array htype hsize) h.2

theorem yields_parameter (h : base.Grown trees start.builder) :
    Yields base start parameter fun _ parser =>
      ∃ tree : Tree, tree.IsParameter ∧ base.Grown (tree :: trees) parser.builder := by
  refine (yields_typeName .default h).bind fun _ _ ⟨type, htype, h⟩ =>
    (Yields.expectName h _).bind fun name _ h => (Yields.accept h .openBracket).bind
      fun brackets _ ⟨_, _, h⟩ => ?_
  have hbuild : ∀ {start : Parser} {type : Ty}, type.Flat →
      base.Grown (type.written false :: trees) start.builder →
      Yields base start (build (.parameter name.value name.line)) fun _ parser =>
        ∃ tree : Tree, tree.IsParameter ∧ base.Grown (tree :: trees) parser.builder :=
    fun htype h => (Yields.build (Build.composes_parameter name.value htype) h).imp fun _ _ h =>
      ⟨_, .intro name.value htype, h.2⟩
  refine .ite (fun _ => ?_) fun _ => hbuild htype h
  exact (Yields.accept h .number).bind fun _ _ h => (Yields.expect h.2.2 .closeBracket).bind fun _ _ h =>
    (yields_pointerType htype h).bind fun _ _ ⟨_, htype, h⟩ => hbuild htype h

theorem yields_parametersFrom (rounds : Nat) {count : Nat}
    (h : Counted base trees IsParameter count start) :
    Yields base start (parametersFrom rounds count) (Counted base trees IsParameter) := by
  induction rounds generalizing start count with
  | zero =>
    obtain ⟨left, -, -, h⟩ := h
    exact .exhausted h
  | succ rounds ih =>
    have hnext : ∀ start : Parser, Counted base trees IsParameter count start →
        Yields base start (parameter >>= fun _ => parametersFrom rounds (count + 1))
          (Counted base trees IsParameter) := fun start ⟨left, hcount, hleft, h⟩ =>
      (yields_parameter h).bind fun _ _ ⟨tree, htree, h⟩ =>
        ih ⟨tree :: left, congrArg (· + 1) hcount, List.forall_mem_cons.mpr ⟨htree, hleft⟩, h⟩
    refine .kind fun _ _ => .ite (fun _ => .pure h) fun _ => .ite (fun _ => ?_) fun _ => hnext start h
    obtain ⟨left, hcount, hleft, h⟩ := h
    exact (Yields.expect h .comma).bind fun _ parser h => hnext parser ⟨left, hcount, hleft, h⟩

/-! ## Statements -/

/-- What a reader of statements leaves in the place of `start`. Several nodes are variables, and an `else`
in front belongs to none of them. -/
structure Leaves (start : Parser) (left : List Tree) (parser : Parser) : Prop where
  pos : 0 < left.length
  isStatement : ∀ tree ∈ left, tree.IsStatement
  several : left.length ≠ 1 →
    start.current.kind.startsType = true ∧ ∀ tree ∈ left, tree.role = .declaration
  closed : ∀ tree ∈ left, IsOpen tree → parser.current.kind ≠ .elseWord

theorem Leaves.single {tree : Tree} {parser : Parser} (h : tree.IsStatement)
    (hclosed : IsOpen tree → parser.current.kind ≠ .elseWord) :
    Leaves start [tree] parser :=
  ⟨Nat.one_pos, by simpa using h, fun hne => absurd rfl hne, by simpa using hclosed⟩

theorem declares_of_role {tree : Tree} (h : tree.role = .declaration) : tree.declares = true := by
  obtain ⟨⟨kind, casts⟩, parts⟩ := tree
  cases kind with
  | declaration => rfl
  | type part => cases hform : part.form <;> simp_all [role, Tree.kind, Kind.role]
  | _ => cases h

/-- What a declaration leaves: variables, or one function. -/
structure Declared (left : List Tree) : Prop where
  pos : 0 < left.length
  each : ∀ tree ∈ left, tree.IsStatement ∧ tree.declares = true
  several : left.length ≠ 1 → ∀ tree ∈ left, tree.role = .declaration

theorem Declared.of_variables {left : List Tree} (hpos : 0 < left.length)
    (h : ∀ tree ∈ left, tree.IsStatement ∧ tree.role = .declaration) : Declared left :=
  ⟨hpos, fun tree hmem => ⟨(h tree hmem).1, declares_of_role (h tree hmem).2⟩,
    fun _ tree hmem => (h tree hmem).2⟩

/-- A reader of statements leaves some and says how many. -/
def YieldsStatements (inner : Parse Nat) : Prop :=
  ∀ {base : Builder} {trees : List Tree} {start : Parser}, base.Grown trees start.builder →
    Yields base start inner fun count parser =>
      ∃ left : List Tree, left.length = count ∧ Leaves start left parser ∧
        base.Grown (left ++ trees) parser.builder

/-- One statement that nothing behind it belongs to. -/
theorem yields_one {step : Build Unit} {before : List Tree} {after : Tree}
    (hstep : Build.Composes step before after) (hafter : after.IsStatement) (hclosed : ¬IsOpen after)
    (h : base.Grown (before ++ trees) start.builder) {parser : Parser} :
    Yields base start (build step >>= fun _ => pure 1) fun count parser' =>
      ∃ left : List Tree, left.length = count ∧ Leaves parser left parser' ∧
        base.Grown (left ++ trees) parser'.builder :=
  (Yields.build hstep h).bind fun _ _ h =>
    .pure ⟨[after], rfl, .single hafter fun hopen => absurd hopen hclosed, h.2⟩

section Statement

variable {inner : Parse Nat}

theorem yields_condition (h : base.Grown trees start.builder) :
    Yields base start condition fun _ parser =>
      ∃ tree : Tree, tree.IsExpression ∧ base.Grown (tree :: trees) parser.builder :=
  (Yields.expect h .openParen).bind fun _ _ h => (yieldsExpressions_expression .default h).bind
    fun _ _ ⟨tree, htree, h⟩ => (Yields.expect h .closeParen).bind fun _ _ h => .pure ⟨tree, htree, h⟩

theorem yields_exprClause (h : base.Grown trees start.builder) :
    Yields base start (exprClause line) fun _ parser =>
      ∃ tree : Tree, tree.IsNext ∧ base.Grown (tree :: trees) parser.builder :=
  (yieldsExpressions_expression .default h).bind fun _ _ ⟨_, htree, h⟩ =>
    (Yields.build (Build.composes_exprStatement htree) h).imp fun _ _ h => ⟨_, .expression htree, h.2⟩

theorem yields_nothing (h : base.Grown trees start.builder) :
    Yields base start (build (.nothing line)) fun _ parser =>
      base.Grown (Tree.nothing :: trees) parser.builder :=
  (Yields.build Build.composes_nothing h).imp fun _ _ h => h.2

variable (hinner : YieldsStatements inner)

include hinner

theorem yields_single (h : base.Grown trees start.builder) :
    Yields base start (single inner) fun _ parser =>
      ∃ tree : Tree, tree.IsStatement ∧ (IsOpen tree → parser.current.kind ≠ .elseWord) ∧
        base.Grown (tree :: trees) parser.builder := by
  refine .line fun line => (hinner h).bind fun count _ ⟨left, hcount, hleft, h⟩ =>
    .ite (fun _ => ?_) fun hone => ?_
  · subst hcount
    refine (Yields.build (Build.composes_block hleft.isStatement) h).imp fun _ _ h =>
      ⟨_, .block ?_, nofun, h.2⟩
    exact fun tree hmem => hleft.isStatement tree (List.mem_reverse.mp hmem)
  · obtain ⟨tree, rfl⟩ := List.length_eq_one_iff.mp (hcount.trans (not_not.mp hone))
    exact .pure ⟨tree, hleft.isStatement tree List.mem_cons_self, hleft.closed tree List.mem_cons_self, h⟩

theorem yields_statementsFrom (rounds : Nat) {count : Nat}
    (h : Counted base trees IsStatement count start) :
    Yields base start (statementsFrom inner rounds count) (Counted base trees IsStatement) := by
  induction rounds generalizing start count with
  | zero =>
    obtain ⟨left, -, -, h⟩ := h
    exact .exhausted h
  | succ rounds ih =>
    refine .get (.kind fun _ _ => .ite (fun _ => ?_) fun _ => .pure h)
    obtain ⟨left, hcount, hleft, h⟩ := h
    refine (hinner h).bind fun more _ ⟨new, hmore, hnew, h⟩ => ih ⟨new ++ left, ?_, ?_, ?_⟩
    · rw [List.length_append, hcount, hmore, Nat.add_comm]
    · exact List.forall_mem_append.mpr ⟨hnew.isStatement, hleft⟩
    · rwa [List.append_assoc]

theorem yields_block (h : base.Grown trees start.builder) :
    Yields base start (block inner) fun count parser => count = 1 ∧
      ∃ statements : List Tree, (∀ statement ∈ statements, statement.IsStatement) ∧
        base.Grown (bare .block statements :: trees) parser.builder := by
  refine (Yields.expect h .openCurly).bind fun opening _ h => .patience fun rounds =>
    (yields_statementsFrom hinner rounds ⟨[], rfl, List.forall_mem_nil _, h⟩).bind
      fun count _ ⟨statements, hcount, hstatements, h⟩ => (Yields.expect h .closeCurly).bind
        fun _ _ h => ?_
  subst hcount
  refine (Yields.build (Build.composes_block hstatements) h).bind fun _ _ h =>
    .pure ⟨rfl, statements.reverse, ?_, h.2⟩
  exact fun statement hmem => hstatements statement (List.mem_reverse.mp hmem)

theorem yields_functionRest (name : String) {result : Ty} (hresult : result.Flat)
    (h : base.Grown (result.written false :: trees) start.builder) :
    Yields base start (functionRest inner name line) fun _ parser =>
      ∃ tree : Tree, (tree.IsStatement ∧ tree.declares = true) ∧
        base.Grown (tree :: trees) parser.builder := by
  have hbuild : ∀ {start : Parser} {params : List Tree} {body : Option (List Tree)},
      (∀ param ∈ params, param.IsParameter) →
      (∀ statements ∈ body, ∀ statement ∈ statements, statement.IsStatement) →
      base.Grown ((body.map (Tree.bare .block)).toList ++
        (bare .parameters params :: result.written false :: trees)) start.builder →
      Yields base start (build (.function name body.isSome line)) fun _ parser =>
        ∃ tree : Tree, (tree.IsStatement ∧ tree.declares = true) ∧
          base.Grown (tree :: trees) parser.builder := by
    intro start params body hparams hbody h
    have hgrown : base.Grown (((body.map (Tree.bare .block)).toList ++
        [bare .parameters params, result.written false]) ++ trees) start.builder := by
      rwa [List.append_assoc]
    exact (Yields.build (Build.composes_function name hresult params body) hgrown).imp fun _ _ h =>
      ⟨_, ⟨.function name hresult hparams hbody, rfl⟩, h.2⟩
  have hrest : ∀ start : Parser, base.Grown (result.written false :: trees) start.builder →
      Yields base start
        (do
          let count ← parametersFrom (← patience) 0
          let _ ← expect .closeParen
          build (.parameters count line)
          let defined := (← kind) = .openCurly
          if defined then
            let _ ← block inner
          else
            let _ ← expect .semicolon
          build (.function name defined line)) fun _ parser =>
        ∃ tree : Tree, (tree.IsStatement ∧ tree.declares = true) ∧
          base.Grown (tree :: trees) parser.builder := by
    refine fun start h => .patience fun rounds =>
      (yields_parametersFrom rounds ⟨[], rfl, List.forall_mem_nil _, h⟩).bind
        fun count _ ⟨params, hcount, hparams, h⟩ => (Yields.expect h .closeParen).bind fun _ _ h => ?_
    subst hcount
    have hparams' : ∀ param ∈ params.reverse, param.IsParameter := fun param hmem =>
      hparams param (List.mem_reverse.mp hmem)
    refine (Yields.build (Build.composes_parameters hparams) h).bind fun _ _ ⟨_, h⟩ => .kind fun k _ =>
      .ite (fun hk => ?_) fun hk => ?_
    · refine (yields_block hinner h).bind fun _ parser ⟨_, statements, hstatements, h⟩ => ?_
      rw [decide_eq_true hk]
      exact @hbuild parser params.reverse (some statements) hparams' (by simpa using hstatements) h
    · refine (Yields.expect h .semicolon).bind fun _ parser h => ?_
      rw [decide_eq_false hk]
      exact @hbuild parser params.reverse none hparams' (by simp) h
  refine (Yields.expect h .openParen).bind fun _ parser h => .kind fun _ _ => .get ?_
  exact .ite (fun _ => (Yields.advance h).bind fun _ => hrest) fun _ => hrest parser h

theorem yields_declaratorsFrom (name : BaseTy) (constant : Bool) (rounds : Nat) {count : Nat}
    (h : Counted base trees (fun tree => tree.IsStatement ∧ tree.role = .declaration) count start) :
    Yields base start (declaratorsFrom inner name constant line rounds count) fun total parser =>
      ∃ left : List Tree, left.length = total ∧ Declared left ∧
        base.Grown (left ++ trees) parser.builder := by
  induction rounds generalizing start count with
  | zero =>
    obtain ⟨left, -, -, h⟩ := h
    exact .exhausted h
  | succ rounds ih =>
    obtain ⟨left, hcount, hleft, h⟩ := h
    have hbase : (Ty.base name false).Flat := trivial
    refine (Yields.build (Build.composes_base name) h).bind fun _ parser ⟨_, h⟩ => ?_
    refine .when (fun parser => ∃ type : Ty, type.Flat ∧
      base.Grown (type.written false :: (left ++ trees)) parser.builder)
      (fun _ => yields_const hbase h) (fun _ => ⟨_, hbase, h⟩) fun parser ⟨type, htype, h⟩ => ?_
    refine (yields_typeSuffix .default htype h).bind fun _ _ ⟨type, htype, h⟩ =>
      (Yields.expectName h _).bind fun name _ h => .kind fun _ _ => .ite (fun hfunction => ?_) fun _ => ?_
    · obtain rfl := List.length_eq_zero_iff.mp (hcount.trans hfunction.1)
      exact (yields_functionRest hinner _ htype h).bind fun _ _ ⟨tree, htree, h⟩ => .pure
        ⟨[tree], rfl, ⟨Nat.one_pos, by simpa using htree, fun hne => absurd rfl hne⟩, h⟩
    · refine (yields_variableRest _ htype h).bind fun _ _ ⟨tree, htree, h⟩ => ?_
      have hall : ∀ other ∈ tree :: left, other.IsStatement ∧ other.role = .declaration :=
        List.forall_mem_cons.mpr ⟨htree, hleft⟩
      refine (Yields.accept h .comma).bind fun _ _ ⟨_, _, h⟩ => .ite (fun _ => ?_) fun _ => ?_
      · exact ih ⟨tree :: left, congrArg (· + 1) hcount, hall, h⟩
      · exact (Yields.expect h .semicolon).bind fun _ _ h => .pure
          ⟨tree :: left, congrArg (· + 1) hcount, .of_variables (Nat.succ_pos _) hall, h⟩

theorem yields_declaration (h : base.Grown trees start.builder) :
    Yields base start (declaration inner) fun total parser =>
      ∃ left : List Tree, left.length = total ∧ Declared left ∧
        base.Grown (left ++ trees) parser.builder :=
  .line fun _ => (yields_specifier h).bind fun _ _ h => .patience fun rounds =>
    yields_declaratorsFrom hinner _ _ rounds ⟨[], rfl, List.forall_mem_nil _, h⟩

theorem yields_ifStatement (h : base.Grown trees start.builder) {before : Parser} :
    Yields base start (ifStatement inner) fun count parser =>
      ∃ left : List Tree, left.length = count ∧ Leaves before left parser ∧
        base.Grown (left ++ trees) parser.builder := by
  refine (Yields.advance h).bind fun word _ h => (yields_condition h).bind fun _ _ ⟨test, htest, h⟩ =>
    (yields_single hinner h).bind fun _ _ ⟨yes, hyes, hopen, h⟩ => (Yields.accept h .elseWord).bind
      fun found parser ⟨hfound, hnot, h⟩ => ?_
  cases found with
  | false =>
    have hnone : ∀ statement ∈ (none : Option Tree), statement.IsStatement := by simp
    have hif : IsStatement (bare (.ifElse none) (test :: yes :: (none : Option Tree).toList)) :=
      .ifElse htest hyes hnone (by simp)
    exact (Yields.build (Build.composes_ifElse htest hyes hnone) h).bind
      fun _ _ ⟨hcurrent, h⟩ => .pure ⟨_, rfl, .single hif fun _ => hcurrent ▸ hnot rfl, h⟩
  | true =>
    refine (yields_single hinner h).bind fun _ _ ⟨no, hno, hopen', h⟩ => ?_
    have hsome : ∀ statement ∈ some no, statement.IsStatement := by simpa using hno
    have hif : IsStatement (bare (.ifElse none) (test :: yes :: (some no).toList)) :=
      .ifElse htest hyes hsome fun _ hyesOpen => hopen hyesOpen (hfound rfl)
    refine (Yields.build (Build.composes_ifElse htest hyes hsome) h).bind
      fun _ _ ⟨hcurrent, h⟩ => .pure ⟨_, rfl, .single hif fun hifOpen => ?_, h⟩
    cases hifOpen with
    | ifElse hnoOpen => exact hcurrent ▸ hopen' hnoOpen

theorem yields_whileStatement (h : base.Grown trees start.builder) {before : Parser} :
    Yields base start (whileStatement inner) fun count parser =>
      ∃ left : List Tree, left.length = count ∧ Leaves before left parser ∧
        base.Grown (left ++ trees) parser.builder := by
  refine (Yields.advance h).bind fun word _ h => (yields_condition h).bind fun _ _ ⟨test, htest, h⟩ =>
    (yields_single hinner h).bind fun _ _ ⟨body, hbody, hopen, h⟩ =>
      (Yields.build (Build.composes_whileLoop htest hbody) h).bind fun _ _ ⟨hcurrent, h⟩ =>
        .pure ⟨_, rfl, .single (.whileLoop htest hbody) fun hloopOpen => ?_, h⟩
  cases hloopOpen with
  | whileLoop hbodyOpen => exact hcurrent ▸ hopen hbodyOpen

theorem yields_startClause (h : base.Grown trees start.builder) :
    Yields base start (startClause inner line) fun _ parser =>
      ∃ tree : Tree, tree.IsStart ∧ base.Grown (tree :: trees) parser.builder := by
  refine (Yields.accept h .semicolon).bind fun _ _ ⟨_, _, h⟩ => .ite (fun _ => ?_) fun _ =>
    .kind fun _ _ => .ite (fun _ => ?_) fun _ => ?_
  · exact (yields_nothing h).imp fun _ _ h => ⟨_, ⟨.nothing, .inr (.inr rfl)⟩, h⟩
  · refine (yields_declaration hinner h).bind fun count _ ⟨left, hcount, hleft, h⟩ =>
      .ite (fun _ => .refuse h _) fun hone => ?_
    obtain ⟨tree, rfl⟩ := List.length_eq_one_iff.mp (hcount.trans (not_not.mp hone))
    obtain ⟨htree, hdeclares⟩ := hleft.each tree List.mem_cons_self
    exact .pure ⟨tree, ⟨htree, .inl hdeclares⟩, h⟩
  · exact (yieldsExpressions_expression .default h).bind fun _ _ ⟨value, hvalue, h⟩ =>
      (Yields.expect h .semicolon).bind fun _ _ h =>
        (Yields.build (Build.composes_exprStatement hvalue) h).imp fun _ _ h =>
          ⟨_, ⟨.exprStatement hvalue, .inr (.inl rfl)⟩, h.2⟩

theorem yields_forStatement (h : base.Grown trees start.builder) {before : Parser} :
    Yields base start (forStatement inner) fun count parser =>
      ∃ left : List Tree, left.length = count ∧ Leaves before left parser ∧
        base.Grown (left ++ trees) parser.builder := by
  refine (Yields.advance h).bind fun word _ h => (Yields.expect h .openParen).bind fun _ _ h =>
    (yields_startClause hinner h).bind fun _ parser ⟨first, hfirst, h⟩ => ?_
  have hbody : ∀ {test next : Tree} (parser : Parser), test.IsTest → next.IsNext →
      base.Grown (next :: test :: first :: trees) parser.builder → Yields base parser
        (expect .closeParen >>= fun _ => single inner >>= fun _ => build (.forLoop word.line) >>= fun _ =>
          Pure.pure 1) fun count parser => ∃ left : List Tree, left.length = count ∧
            Leaves before left parser ∧ base.Grown (left ++ trees) parser.builder := by
    refine fun parser htest hnext h => (Yields.expect h .closeParen).bind fun _ _ h =>
      (yields_single hinner h).bind fun _ _ ⟨body, hbody, hopen, h⟩ =>
        (Yields.build (Build.composes_forLoop hfirst htest hnext hbody) h).bind fun _ _ ⟨hcurrent, h⟩ =>
          .pure ⟨_, rfl, .single (.forLoop hfirst.1 hfirst.2 htest hnext hbody) fun hloopOpen => ?_, h⟩
    cases hloopOpen with
    | forLoop hbodyOpen => exact hcurrent ▸ hopen hbodyOpen
  have hstep : ∀ {test : Tree} (parser : Parser), test.IsTest →
      base.Grown (test :: first :: trees) parser.builder → Yields base parser
        (do
          let _ ← expect .semicolon
          if (← kind) = .closeParen then build (.nothing word.line) else exprClause word.line
          let _ ← expect .closeParen
          single inner
          build (.forLoop word.line)
          return 1) fun count parser => ∃ left : List Tree, left.length = count ∧
            Leaves before left parser ∧ base.Grown (left ++ trees) parser.builder := by
    refine fun parser htest h => (Yields.expect h .semicolon).bind fun _ parser h => .kind fun _ _ =>
      .ite (fun _ => ?_) fun _ => ?_
    · exact (yields_nothing h).bind fun _ parser h => hbody parser htest .absent h
    · exact (yields_exprClause h).bind fun _ parser ⟨_, hnext, h⟩ => hbody parser htest hnext h
  refine .kind fun _ _ => .ite (fun _ => ?_) fun _ => ?_
  · exact (yields_nothing h).bind fun _ parser h => hstep parser .absent h
  · exact (yieldsExpressions_expression .default h).bind fun _ parser ⟨_, htest, h⟩ =>
      hstep parser (.expression htest) h

omit hinner in
theorem yields_returnStatement (h : base.Grown trees start.builder) {before : Parser} :
    Yields base start returnStatement fun count parser =>
      ∃ left : List Tree, left.length = count ∧ Leaves before left parser ∧
        base.Grown (left ++ trees) parser.builder := by
  refine (Yields.advance h).bind fun word _ h => .kind fun k _ => .ite (fun hvalue => ?_) fun hvalue => ?_
  · refine (yieldsExpressions_expression .default h).bind fun _ _ ⟨value, htree, h⟩ =>
      (Yields.expect h .semicolon).bind fun _ parser h => ?_
    have hvalue' : ∀ tree ∈ some value, tree.IsExpression := by simpa using htree
    rw [decide_eq_true hvalue]
    exact yields_one (Build.composes_giveBack hvalue') (.giveBack hvalue') nofun h
  · refine (Yields.expect h .semicolon).bind fun _ parser h => ?_
    have hnone : ∀ tree ∈ (none : Option Tree), tree.IsExpression := by simp
    rw [decide_eq_false hvalue]
    exact yields_one (Build.composes_giveBack hnone) (.giveBack hnone) nofun h

omit hinner in
theorem yields_jumpStatement {jump : Nat → Build Unit} {after : Tree}
    (hjump : ∀ line, Build.Composes (jump line) [] after) (hafter : after.IsStatement)
    (hclosed : ¬IsOpen after) (h : base.Grown trees start.builder) {before : Parser} :
    Yields base start (jumpStatement jump) fun count parser =>
      ∃ left : List Tree, left.length = count ∧ Leaves before left parser ∧
        base.Grown (left ++ trees) parser.builder :=
  (Yields.advance h).bind fun _ _ h => (Yields.expect h .semicolon).bind fun _ _ h =>
    yields_one (hjump _) hafter hclosed h

omit hinner in
theorem yields_exprStatement (h : base.Grown trees start.builder) {before : Parser} :
    Yields base start exprStatement fun count parser =>
      ∃ left : List Tree, left.length = count ∧ Leaves before left parser ∧
        base.Grown (left ++ trees) parser.builder :=
  .line fun _ => (yieldsExpressions_expression .default h).bind fun _ _ ⟨_, hvalue, h⟩ =>
    (Yields.expect h .semicolon).bind fun _ _ h =>
      yields_one (Build.composes_exprStatement hvalue) (.exprStatement hvalue) nofun h

omit hinner in
theorem yields_emptyStatement (h : base.Grown trees start.builder) {before : Parser} :
    Yields base start emptyStatement fun count parser =>
      ∃ left : List Tree, left.length = count ∧ Leaves before left parser ∧
        base.Grown (left ++ trees) parser.builder :=
  (Yields.advance h).bind fun _ _ h => yields_one Build.composes_nothing .nothing nofun h

omit hinner in
theorem yieldsStatements_statementWithin (levels : Nat) :
    YieldsStatements (statementWithin levels) := by
  induction levels with
  | zero => exact fun h => .exhausted h
  | succ levels ih =>
    intro base trees start h
    have hdeclaration : start.current.kind.startsType = true →
        Yields base start (declaration (statementWithin levels)) fun count parser =>
          ∃ left : List Tree, left.length = count ∧ Leaves start left parser ∧
            base.Grown (left ++ trees) parser.builder := fun hstarts =>
      (yields_declaration ih h).imp fun _ _ ⟨left, hcount, hleft, h⟩ =>
        ⟨left, hcount, ⟨hleft.pos, fun tree hmem => (hleft.each tree hmem).1,
          fun hne => ⟨hstarts, hleft.several hne⟩,
          fun tree hmem hopen => absurd hopen (not_isOpen_of_declares (hleft.each tree hmem).2)⟩, h⟩
    refine .kind fun k hk => ?_
    cases k with
    | int | char | void | const => exact hdeclaration (by rw [hk]; rfl)
    | openCurly =>
      exact (yields_block ih h).imp fun _ _ ⟨hcount, _, hstatements, h⟩ =>
        ⟨[_], hcount.symm, .single (.block hstatements) nofun, h⟩
    | ifWord => exact yields_ifStatement ih h
    | whileWord => exact yields_whileStatement ih h
    | forWord => exact yields_forStatement ih h
    | returnWord => exact yields_returnStatement h
    | breakWord => exact yields_jumpStatement (fun _ => Build.composes_breakOut) .breakOut nofun h
    | continueWord => exact yields_jumpStatement (fun _ => Build.composes_continueOn) .continueOn nofun h
    | semicolon => exact yields_emptyStatement h
    | _ => exact yields_exprStatement h

omit hinner in
theorem yieldsStatements_statement : YieldsStatements statement :=
  fun h => .patience fun levels => yieldsStatements_statementWithin levels h

end Statement

/-! ## Files -/

theorem yields_declarationsFrom (rounds : Nat) {count : Nat}
    (h : Counted base trees (fun tree => tree.IsStatement ∧ tree.declares = true) count start) :
    Yields base start (declarationsFrom rounds count)
      (Counted base trees fun tree => tree.IsStatement ∧ tree.declares = true) := by
  induction rounds generalizing start count with
  | zero =>
    obtain ⟨left, -, -, h⟩ := h
    exact .exhausted h
  | succ rounds ih =>
    refine .get (.ite (fun _ => .kind fun _ _ => ?_) fun _ => .pure h)
    obtain ⟨left, hcount, hleft, h⟩ := h
    refine .when (fun parser => base.Grown (left ++ trees) parser.builder) (fun _ => .refuse h _)
      (fun _ => h) fun _ h => ?_
    refine (yields_declaration yieldsStatements_statement h).bind fun more _ ⟨new, hmore, hnew, h⟩ =>
      ih ⟨new ++ left, ?_, ?_, ?_⟩
    · rw [List.length_append, hcount, hmore, Nat.add_comm]
    · exact List.forall_mem_append.mpr ⟨hnew.each, hleft⟩
    · rwa [List.append_assoc]

/-- A file is read from nothing, and it is the only operand that is left. -/
theorem yields_file (h : ({} : Builder).Grown [] start.builder) :
    Yields {} start file fun _ parser => ∃ declarations : List Tree,
      (bare .file declarations).IsFile ∧ parser.builder.Shows [bare .file declarations] ∧
        ({} : Builder).Since parser.builder [] [.file] := by
  refine .patience fun rounds => (yields_declarationsFrom rounds ⟨[], rfl, List.forall_mem_nil _, h⟩).bind
    fun count parser ⟨left, hcount, hleft, h⟩ => ?_
  obtain ⟨more, hmore, hshows, hsince⟩ := h.exists_more
  rw [Builder.empty_extend] at hmore
  subst hmore
  rw [List.append_nil] at hshows hsince
  have hroles : ∀ role ∈ left.map Tree.role, role = .declaration ∨ role = .function := by
    intro role hrole
    obtain ⟨tree, hmem, rfl⟩ := List.mem_map.mp hrole
    exact role_of_declares (hleft tree hmem).2
  have hcount' : (left.map Tree.role).length = count := by rw [List.length_map, hcount]
  rw [← List.append_nil left] at hshows
  rw [← List.append_nil (left.map Tree.role)] at hsince
  have hmakes : Build.Makes (.file count 1) left _ := Build.makes_file hcount
  obtain ⟨⟨⟩, builder, hrun, hshows'⟩ := (hmakes hshows).exists_ok
  have hsince' := (Build.turns_file hcount' hroles hsince).of_ok hrun
  obtain ⟨rest, last, _⟩ := parser
  refine ⟨?_⟩
  simp only [Parse.build, hrun]
  exact ⟨left.reverse, .intro fun tree hmem => hleft tree (List.mem_reverse.mp hmem), hshows', hsince'⟩

end Grammar

end MiniC
