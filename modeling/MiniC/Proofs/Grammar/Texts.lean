import MiniC.Proofs.Build.Texts
import MiniC.Proofs.Grammar.Progress

/-!
# Readers keep strings in order

A string token becomes a node as soon as it is read, and no other token does. So what has been built,
read from left to right, and the tokens ahead say the strings of all tokens together, whatever the
readers do. `Parse.Keeps` says so of a step.
-/

namespace MiniC

/-- The text of a string token. -/
def Token.text? (token : Token) : Option String :=
  if token.kind = .string then some token.value else none

/-- What has been built and the tokens ahead say `texts` in this order. -/
structure Parser.Tells (parser : Parser) (texts : List String) : Prop where
  last_eq : parser.last.kind = .eof
  exists_said : ∃ said, parser.builder.Says [] said ∧
    said ++ parser.rest.filterMap Token.text? = texts

/-- A token other than a string can be passed. -/
theorem Parser.Tells.tail {parser : Parser} {texts : List String} (h : parser.Tells texts)
    (hkind : parser.current.kind ≠ .string) :
    Parser.Tells { parser with rest := parser.rest.tail } texts := by
  obtain ⟨said, hsaid, rfl⟩ := h.exists_said
  refine ⟨h.last_eq, said, hsaid, ?_⟩
  cases hrest : parser.rest with
  | nil => rfl
  | cons token rest =>
    rw [Parser.current, hrest, List.headD_cons] at hkind
    rw [List.tail_cons, List.filterMap_cons_none (by rw [Token.text?, if_neg hkind])]

namespace Parse

variable {α β : Type} {start : Parser}

/-- A result of the step leaves the strings in their order. -/
structure Keeps (start : Parser) (step : Parse α) : Prop where
  keeps : ∀ texts, start.Tells texts →
    match step start with
    | .ok _ parser => parser.Tells texts
    | .error _ _ => True

namespace Keeps

theorem of_ok {step : Parse α} {value : α} {parser : Parser} {texts : List String}
    (h : Keeps start step) (hstart : start.Tells texts) (hok : step start = .ok value parser) :
    parser.Tells texts := by
  have hstep := h.keeps texts hstart
  rwa [hok] at hstep

theorem bind {step : Parse α} {next : α → Parse β} (h : Keeps start step)
    (hnext : ∀ value parser, Keeps parser (next value)) : Keeps start (step >>= next) := by
  refine ⟨fun texts hstart => ?_⟩
  have hstep := h.keeps texts hstart
  simp only [Bind.bind, EStateM.bind]
  generalize step start = result at hstep
  cases result with
  | error fault parser => trivial
  | ok value parser => exact (hnext value parser).keeps texts hstep

theorem pure (value : α) : Keeps start (Pure.pure value) := ⟨fun _ h => h⟩

/-- A step that is refused at once. -/
theorem refused {step : Parse α} {fault : Fault} (h : step start = .error fault start) :
    Keeps start step := ⟨fun _ _ => by rw [h]; trivial⟩

theorem fault (fault : Fault) : Keeps start (throw fault : Parse α) := refused rfl

theorem unexpected : Keeps start (unexpected : Parse α) := refused rfl

theorem refuse (message : String) : Keeps start (refuse message : Parse α) := refused rfl

theorem exhausted : Keeps start (exhausted : Parse α) := refused rfl

theorem ite {c : Prop} [Decidable c] {yes no : Parse α} (hyes : c → Keeps start yes)
    (hno : ¬c → Keeps start no) : Keeps start (if c then yes else no) := by
  by_cases h : c
  · rw [if_pos h]
    exact hyes h
  · rw [if_neg h]
    exact hno h

/-- Something may be done before the rest. -/
theorem when {c : Prop} [Decidable c] {step : Parse PUnit} {next : PUnit → Parse α}
    (hstep : c → Keeps start step) (hnext : ∀ parser, Keeps parser (next ⟨⟩)) :
    Keeps start (if c then step >>= next else next ⟨⟩) :=
  .ite (fun h => (hstep h).bind fun _ => hnext) fun _ => hnext start

theorem get {next : Parser → Parse α} (h : Keeps start (next start)) :
    Keeps start (MonadState.get >>= next) := ⟨h.keeps⟩

theorem current {next : Token → Parse α} (h : Keeps start (next start.current)) :
    Keeps start (Parse.current >>= next) := ⟨h.keeps⟩

theorem kind {next : TokenKind → Parse α}
    (h : ∀ k, start.current.kind = k → Keeps start (next k)) :
    Keeps start (Parse.kind >>= next) := ⟨(h _ rfl).keeps⟩

theorem line {next : Nat → Parse α} (h : ∀ line, Keeps start (next line)) :
    Keeps start (Parse.line >>= next) := ⟨(h _).keeps⟩

theorem patience {next : Nat → Parse α} (h : ∀ rounds, Keeps start (next rounds)) :
    Keeps start (Parse.patience >>= next) := ⟨(h _).keeps⟩

theorem build {step : Build Unit} (h : Build.Quiet step) : Keeps start (build step) := by
  obtain ⟨rest, last, builder⟩ := start
  refine ⟨fun texts ⟨hlast, said, hsaid, htexts⟩ => ?_⟩
  have hstep := h hsaid
  simp only [Parse.build]
  cases hresult : step builder with
  | error fault builder' => trivial
  | ok value builder' => exact ⟨hlast, said, by simpa using hstep.of_ok hresult, htexts⟩

theorem advance (h : start.current.kind ≠ .string) : Keeps start advance :=
  ⟨fun _ hstart => hstart.tail h⟩

theorem expect {wanted : TokenKind} (hwanted : wanted ≠ .string) : Keeps start (expect wanted) :=
  .kind fun _ hk => .ite (fun h => .advance (by rwa [hk, h])) fun _ => .unexpected

theorem expectName (message : String) : Keeps start (expectName message) :=
  .kind fun _ hk => .ite (fun h => .advance (by simp [hk, h])) fun _ => .refuse message

theorem accept {wanted : TokenKind} (hwanted : wanted ≠ .string) : Keeps start (accept wanted) :=
  .kind fun _ hk => .ite (fun h => (advance (by rwa [hk, h])).bind fun _ _ => .pure true)
    fun _ => .pure false

/-- A string token becomes a node. -/
theorem string (h : start.current.kind = .string) (line : Nat) :
    Keeps start (Parse.advance >>= fun _ => Parse.build (.string start.current.value line)) := by
  obtain ⟨rest, last, builder⟩ := start
  refine ⟨fun texts ⟨hlast, said, hsaid, htexts⟩ => ?_⟩
  cases rest with
  | nil => exact absurd (hlast.symm.trans h) (by decide)
  | cons token rest =>
    have hstep := @Build.adds_string line token.value builder said hsaid
    have hsays : token.text? = some token.value := if_pos h
    rw [List.filterMap_cons_some hsays] at htexts
    have hrun : (Parse.advance >>= fun _ => Parse.build (.string token.value line))
        ⟨token :: rest, last, builder⟩ =
        Parse.build (.string token.value line) ⟨rest, last, builder⟩ := rfl
    rw [Parser.current, List.headD_cons, hrun, Parse.build]
    cases hresult : Build.string token.value line builder with
    | error fault builder' => trivial
    | ok value builder' =>
      exact ⟨hlast, said ++ [token.value], hstep.of_ok hresult, by simpa using htexts⟩

end Keeps

end Parse

namespace Grammar

open Parse Build

variable {start : Parser}

/-! ## Written types -/

theorem keeps_baseType : Keeps start baseType := by
  refine .kind fun k hk => ?_
  cases hbase : baseType? k with
  | none => exact .refuse _
  | some name =>
    refine (Keeps.advance fun hstring => ?_).bind fun _ _ => .pure name
    rw [← hk, hstring] at hbase
    cases hbase

theorem keeps_plainType : Keeps start plainType :=
  .line fun _ => keeps_baseType.bind fun _ _ => .build (quiet_leaf rfl rfl)

theorem keeps_typeSuffixes (power : Power) (rounds : Nat) :
    Keeps start (typeSuffixes power rounds) := by
  induction rounds generalizing start with
  | zero => exact .exhausted
  | succ rounds ih =>
    have hround : ∀ step : Nat → Build Unit, (∀ line, Quiet (step line)) →
        start.current.kind ≠ .string → Keeps start (advance >>= fun token =>
          build (step token.line) >>= fun _ => typeSuffixes power rounds) := fun step hstep hkind =>
      (Keeps.advance hkind).bind fun _ _ => (Keeps.build (hstep _)).bind fun _ _ => ih
    refine .ite (fun _ => .kind fun k hk => ?_) fun _ => .pure _
    cases k with
    | star => exact hround Build.pointerType (fun _ => quiet_wrap _) (by simp [hk])
    | const => exact hround Build.const (fun _ => quiet_const) (by simp [hk])
    | _ => exact .pure _

theorem keeps_typeSuffix (power : Power) : Keeps start (typeSuffix power) :=
  .patience fun _ => keeps_typeSuffixes power _

theorem keeps_typeName (power : Power) : Keeps start (typeName power) := by
  refine .kind fun k hk => ?_
  cases k with
  | int | char | void => exact keeps_plainType.bind fun _ _ => keeps_typeSuffix power
  | const =>
    exact (Keeps.advance (by simp [hk])).bind fun _ _ =>
      keeps_plainType.bind fun _ _ => (Keeps.build quiet_const).bind fun _ _ =>
        keeps_typeSuffix power
  | _ => exact (Keeps.refuse _).bind fun _ _ => keeps_typeSuffix power

/-! ## Expressions -/

/-- A reader of expressions that leaves the strings in their order. -/
def KeepsExpressions (inner : Power → Parse Unit) : Prop :=
  ∀ {start : Parser} (power : Power), Keeps start (inner power)

section Expression

variable {inner : Power → Parse Unit}

theorem keeps_literal (negative : Bool) (digits : String) (line : Nat) :
    Keeps start (literal negative digits line) := by
  unfold literal
  cases Literal.value? negative digits with
  | none => exact .line fun _ => .fault _
  | some value => exact .build (quiet_leaf rfl rfl)

variable (hinner : KeepsExpressions inner)

include hinner

theorem keeps_argumentsFrom (rounds count : Nat) :
    Keeps start (argumentsFrom inner rounds count) := by
  induction rounds generalizing start count with
  | zero => exact .exhausted
  | succ rounds ih =>
    refine .kind fun _ _ => .ite (fun _ => .pure _) fun _ => ?_
    refine .ite (fun _ => ?_) fun _ => (hinner .comma).bind fun _ _ => ih _
    exact (Keeps.expect (by simp)).bind fun _ _ =>
      (hinner .comma).bind fun _ _ => ih _

theorem keeps_arguments : Keeps start (arguments inner) :=
  (Keeps.expect (by simp)).bind fun _ _ => .patience fun _ =>
    (keeps_argumentsFrom hinner _ _).bind fun _ _ =>
      (Keeps.expect (by simp)).bind fun _ _ => .pure _

theorem keeps_group : Keeps start (group inner) := by
  refine (Keeps.expect (by simp)).bind fun opening _ => .kind fun _ _ => .ite (fun _ => ?_) fun _ => ?_
  · exact (keeps_typeName .default).bind fun _ _ =>
      (Keeps.expect (by simp)).bind fun _ _ =>
        (hinner .unary).bind fun _ _ => .build quiet_cast
  · exact (hinner .default).bind fun _ _ =>
      (Keeps.expect (by simp)).bind fun _ _ => .pure _

theorem keeps_leading (op : UnaryOp) (hkind : start.current.kind ≠ .string) :
    Keeps start (leading inner op) := by
  refine (Keeps.advance hkind).bind fun _ _ => .kind fun k hk => .ite (fun hdigits => ?_) fun _ => ?_
  · exact (Keeps.advance (by simp [hk, hdigits.2])).bind fun _ _ =>
      keeps_literal ..
  · exact (hinner .unary).bind fun _ _ => .build (quiet_unary rfl rfl rfl)

theorem keeps_operand : Keeps start (operand inner) := by
  refine .current ?_
  generalize hk : start.current.kind = k
  cases k with
  | number => exact (Keeps.advance (by simp [hk])).bind fun _ _ => keeps_literal ..
  | charLiteral =>
    exact (Keeps.advance (by simp [hk])).bind fun _ _ => .build (quiet_leaf rfl rfl)
  | string => exact .string hk _
  | identifier =>
    refine (Keeps.advance (by simp [hk])).bind fun _ _ => .kind fun _ _ =>
      .ite (fun _ => ?_) fun _ => .build (quiet_leaf rfl rfl)
    exact (keeps_arguments hinner).bind fun _ _ => .build (quiet_many rfl rfl rfl)
  | openParen => exact keeps_group hinner
  | dash | not | star | ampersand | plusPlus | minusMinus =>
    exact keeps_leading hinner _ (by simp [hk])
  | _ => exact .unexpected

theorem keeps_continueWith (power : Power) (continuation : Continuation)
    (hkind : start.current.kind ≠ .string) :
    Keeps start (continueWith inner power continuation) := by
  have hbinary : ∀ power op, Keeps start (advance >>= fun sign => inner power >>= fun _ =>
      build (.binary op sign.line)) := fun power op =>
    (Keeps.advance hkind).bind fun _ _ => (hinner power).bind fun _ _ =>
      .build (quiet_binary rfl rfl rfl)
  cases continuation with
  | assign => exact hbinary .comma .assign
  | binary op => exact hbinary power op
  | subscript =>
    exact (Keeps.advance hkind).bind fun _ _ => (hinner .default).bind fun _ _ =>
      (Keeps.expect (by simp)).bind fun _ _ => .build (quiet_binary rfl rfl rfl)
  | step direction =>
    exact (Keeps.advance hkind).bind fun _ _ => .build (quiet_unary rfl rfl rfl)

theorem keeps_operators (power : Power) (rounds : Nat) :
    Keeps start (operators inner power rounds) := by
  induction rounds generalizing start with
  | zero => exact .exhausted
  | succ rounds ih =>
    refine .kind fun k hk => ?_
    cases hnext : continuation? k with
    | none => exact .pure _
    | some found =>
      refine .ite (fun _ => .pure _) fun _ => ?_
      refine (keeps_continueWith hinner _ _ fun hstring => ?_).bind fun _ _ => ih
      rw [← hk, hstring] at hnext
      cases hnext

omit hinner in
theorem keepsExpressions_expressionWithin (levels : Nat) :
    KeepsExpressions (expressionWithin levels) := by
  induction levels with
  | zero => exact fun _ => .exhausted
  | succ levels ih =>
    exact fun power => (keeps_operand ih).bind fun _ _ => .patience fun _ =>
      keeps_operators ih power _

omit hinner in
theorem keeps_expression (power : Power) : Keeps start (expression power) :=
  .patience fun _ => keepsExpressions_expressionWithin _ power

end Expression

/-! ## Declarations and statements -/

/-- A reader of statements that leaves the strings in their order. -/
def KeepsStatements (inner : Parse Nat) : Prop := ∀ {start : Parser}, Keeps start inner

section Statement

variable {inner : Parse Nat}

theorem keeps_specifier : Keeps start specifier :=
  (Keeps.accept (by simp)).bind fun _ _ => keeps_baseType.bind fun _ _ =>
    (Keeps.accept (by simp)).bind fun _ _ => .pure _

theorem keeps_itemsFrom (rounds count : Nat) : Keeps start (itemsFrom rounds count) := by
  induction rounds generalizing start count with
  | zero => exact .exhausted
  | succ rounds ih =>
    have hitem : ∀ start, Keeps start (expression .comma >>= fun _ => itemsFrom rounds (count + 1)) :=
      fun start => (keeps_expression .comma).bind fun _ _ => ih _
    refine .kind fun _ _ => .ite (fun _ => .pure _) fun _ => .ite (fun _ => ?_) fun _ => hitem start
    exact (Keeps.expect (by simp)).bind fun _ parser => .kind fun _ _ =>
      .ite (fun _ => .pure _) fun _ => hitem parser

theorem keeps_initializerList : Keeps start initializerList :=
  (Keeps.expect (by simp)).bind fun _ _ => .patience fun _ =>
    (keeps_itemsFrom _ _).bind fun _ _ =>
      (Keeps.expect (by simp)).bind fun _ _ => .build (quiet_many rfl rfl rfl)

theorem keeps_arraySize : Keeps start arraySize := by
  refine .kind fun k hk => .ite (fun h => ?_) fun _ => .pure _
  refine (Keeps.advance (by simp [hk, h])).bind fun digits _ => ?_
  cases Literal.size? digits.value with
  | none => exact .refuse _
  | some size => exact .pure _

theorem keeps_variableRest (name : String) (line : Nat) :
    Keeps start (variableRest name line) := by
  have hinitial : ∀ start, Keeps start
      (do
        let initialized ← accept .assignment
        if initialized then
          if (← kind) = .openCurly then initializerList else expression .comma
        build (.declaration name initialized line)) := by
    refine fun start => (Keeps.accept (by simp)).bind fun initialized _ =>
      .ite (fun _ => .kind fun _ _ => .ite (fun _ => ?_) fun _ => ?_) fun _ =>
        .build (quiet_declaration _ _)
    · exact keeps_initializerList.bind fun _ _ => .build (quiet_declaration _ _)
    · exact (keeps_expression .comma).bind fun _ _ => .build (quiet_declaration _ _)
  refine (Keeps.accept (by simp)).bind fun brackets parser =>
    .ite (fun _ => ?_) fun _ => hinitial parser
  exact keeps_arraySize.bind fun _ _ => (Keeps.expect (by simp)).bind
    fun _ _ => (Keeps.build (quiet_wrap _)).bind fun _ => hinitial

theorem keeps_parameter : Keeps start parameter := by
  refine (keeps_typeName .default).bind fun _ _ =>
    (Keeps.expectName _).bind fun name _ =>
      (Keeps.accept (by simp)).bind fun brackets _ => .ite (fun _ => ?_)
        fun _ => .build (quiet_parameter _)
  exact (Keeps.accept (by simp)).bind fun _ _ =>
    (Keeps.expect (by simp)).bind fun _ _ =>
      (Keeps.build (quiet_wrap _)).bind fun _ _ => .build (quiet_parameter _)

theorem keeps_parametersFrom (rounds count : Nat) :
    Keeps start (parametersFrom rounds count) := by
  induction rounds generalizing start count with
  | zero => exact .exhausted
  | succ rounds ih =>
    have hparameter : ∀ start, Keeps start (parameter >>= fun _ => parametersFrom rounds (count + 1)) :=
      fun start => keeps_parameter.bind fun _ _ => ih _
    refine .kind fun _ _ => .ite (fun _ => .pure _) fun _ =>
      .ite (fun _ => ?_) fun _ => hparameter start
    exact (Keeps.expect (by simp)).bind fun _ => hparameter

variable (hinner : KeepsStatements inner)

include hinner

theorem keeps_single : Keeps start (single inner) :=
  .line fun _ => Keeps.bind hinner fun _ _ => .ite (fun _ => .build (quiet_many rfl rfl rfl))
    fun _ => .pure _

theorem keeps_statementsFrom (rounds count : Nat) :
    Keeps start (statementsFrom inner rounds count) := by
  induction rounds generalizing start count with
  | zero => exact .exhausted
  | succ rounds ih =>
    exact .get (.kind fun _ _ => .ite (fun _ => hinner.bind fun _ _ => ih _) fun _ => .pure _)

theorem keeps_block : Keeps start (block inner) :=
  (Keeps.expect (by simp)).bind fun _ _ => .patience fun _ =>
    (keeps_statementsFrom hinner _ _).bind fun _ _ =>
      (Keeps.expect (by simp)).bind fun _ _ =>
        (Keeps.build (quiet_many rfl rfl rfl)).bind fun _ _ => .pure _

theorem keeps_functionRest (name : String) (line : Nat) :
    Keeps start (functionRest inner name line) := by
  have hrest : ∀ start, Keeps start (patience >>= fun rounds => parametersFrom rounds 0 >>= fun count =>
      expect .closeParen >>= fun _ => build (.parameters count line) >>= fun _ => kind >>= fun k =>
        if k = .openCurly then block inner >>= fun _ => build (.function name (decide (k = .openCurly)) line)
        else expect .semicolon >>= fun _ => build (.function name (decide (k = .openCurly)) line)) := by
    refine fun start => .patience fun _ => (keeps_parametersFrom _ _).bind fun _ _ =>
      (Keeps.expect (by simp)).bind fun _ _ =>
        (Keeps.build (quiet_many rfl rfl rfl)).bind fun _ _ => .kind fun _ _ => .ite (fun _ => ?_) fun _ => ?_
    · exact (keeps_block hinner).bind fun _ _ => .build (quiet_function _ _)
    · exact (Keeps.expect (by simp)).bind fun _ _ => .build (quiet_function _ _)
  refine (Keeps.expect (by simp)).bind fun _ parser => .kind fun k hk => .get ?_
  refine .ite (fun h => ?_) fun _ => by simpa using hrest parser
  refine (Keeps.advance (by simp [hk, h.1])).bind fun _ parser => ?_
  simpa using hrest parser

theorem keeps_declaratorsFrom (base : BaseTy) (constant : Bool) (line rounds count : Nat) :
    Keeps start (declaratorsFrom inner base constant line rounds count) := by
  induction rounds generalizing start count with
  | zero => exact .exhausted
  | succ rounds ih =>
    refine (Keeps.build (quiet_leaf rfl rfl)).bind fun _ _ => .when (fun _ => .build quiet_const) fun _ => ?_
    refine (keeps_typeSuffix .default).bind fun _ _ => (Keeps.expectName _).bind fun name _ =>
      .kind fun _ _ => .ite (fun _ => ?_) fun _ => ?_
    · exact (keeps_functionRest hinner _ _).bind fun _ _ => .pure _
    · refine (keeps_variableRest _ _).bind fun _ _ => (Keeps.accept (by simp)).bind fun _ _ =>
        .ite (fun _ => ih _) fun _ => ?_
      exact (Keeps.expect (by simp)).bind fun _ _ => .pure _

theorem keeps_declaration : Keeps start (declaration inner) :=
  .line fun _ => keeps_specifier.bind fun _ _ => .patience fun _ =>
    keeps_declaratorsFrom hinner ..

omit hinner in
theorem keeps_condition : Keeps start condition :=
  (Keeps.expect (by simp)).bind fun _ _ => (keeps_expression _).bind
    fun _ _ => (Keeps.expect (by simp)).bind fun _ _ => .pure _

theorem keeps_ifStatement (hkind : start.current.kind ≠ .string) :
    Keeps start (ifStatement inner) := by
  refine (Keeps.advance hkind).bind fun word _ => keeps_condition.bind
    fun _ _ => (keeps_single hinner).bind fun _ _ =>
      (Keeps.accept (by simp)).bind fun found _ => ?_
  exact .when (fun _ => keeps_single hinner) fun _ =>
    (Keeps.build (quiet_many rfl rfl rfl)).bind fun _ _ => .pure _

theorem keeps_whileStatement (hkind : start.current.kind ≠ .string) :
    Keeps start (whileStatement inner) :=
  (Keeps.advance hkind).bind fun _ _ => keeps_condition.bind fun _ _ =>
    (keeps_single hinner).bind fun _ _ =>
      (Keeps.build (quiet_many rfl rfl rfl)).bind fun _ _ => .pure _

omit hinner in
theorem keeps_exprClause (line : Nat) : Keeps start (exprClause line) :=
  (keeps_expression _).bind fun _ _ => .build (quiet_unary rfl rfl rfl)

theorem keeps_startClause (line : Nat) : Keeps start (startClause inner line) := by
  refine (Keeps.accept (by simp)).bind fun _ _ => .ite (fun _ => .build (quiet_leaf rfl rfl)) fun _ => .kind fun _ _ =>
    .ite (fun _ => ?_) fun _ => ?_
  · exact (keeps_declaration hinner).bind fun _ _ =>
      .ite (fun _ => .refuse _) fun _ => .pure _
  · exact (keeps_expression _).bind fun _ _ =>
      (Keeps.expect (by simp)).bind fun _ _ => .build (quiet_unary rfl rfl rfl)

theorem keeps_forStatement (hkind : start.current.kind ≠ .string) :
    Keeps start (forStatement inner) := by
  refine (Keeps.advance hkind).bind fun word _ =>
    (Keeps.expect (by simp)).bind fun _ _ =>
      (keeps_startClause hinner _).bind fun _ _ => ?_
  have hbody : ∀ start, Keeps start (expect .closeParen >>= fun _ => single inner >>= fun _ =>
      build (.forLoop word.line) >>= fun _ => Pure.pure 1) := fun start =>
    (Keeps.expect (by simp)).bind fun _ _ =>
      (keeps_single hinner).bind fun _ _ =>
        (Keeps.build (quiet_many rfl rfl rfl)).bind fun _ _ => .pure _
  have hstep : ∀ start, Keeps start
      (do
        let _ ← expect .semicolon
        if (← kind) = .closeParen then build (.nothing word.line) else exprClause word.line
        let _ ← expect .closeParen
        single inner
        build (.forLoop word.line)
        return 1) := by
    refine fun start => (Keeps.expect (by simp)).bind fun _ _ =>
      .kind fun _ _ => .ite (fun _ => (Keeps.build (quiet_leaf rfl rfl)).bind fun _ => hbody) fun _ => ?_
    exact (keeps_exprClause _).bind fun _ => hbody
  refine .kind fun _ _ => .ite (fun _ => (Keeps.build (quiet_leaf rfl rfl)).bind fun _ => hstep) fun _ => ?_
  exact (keeps_expression _).bind fun _ => hstep

omit hinner in
theorem keeps_returnStatement (hkind : start.current.kind ≠ .string) :
    Keeps start returnStatement := by
  refine (Keeps.advance hkind).bind fun word _ => .kind fun _ _ => ?_
  exact .when (fun _ => keeps_expression _) fun _ =>
    (Keeps.expect (by simp)).bind fun _ _ =>
      (Keeps.build (quiet_giveBack _)).bind fun _ _ => .pure _

omit hinner in
theorem keeps_jumpStatement {jump : Nat → Build Unit} (hjump : ∀ line, Quiet (jump line))
    (hkind : start.current.kind ≠ .string) :
    Keeps start (jumpStatement jump) :=
  (Keeps.advance hkind).bind fun _ _ => (Keeps.expect (by simp)).bind
    fun _ _ => (Keeps.build (hjump _)).bind fun _ _ => .pure _

omit hinner in
theorem keeps_exprStatement : Keeps start exprStatement :=
  .line fun _ => (keeps_expression _).bind fun _ _ =>
    (Keeps.expect (by simp)).bind fun _ _ =>
      (Keeps.build (quiet_unary rfl rfl rfl)).bind fun _ _ => .pure _

omit hinner in
theorem keeps_emptyStatement (hkind : start.current.kind ≠ .string) : Keeps start emptyStatement :=
  (Keeps.advance hkind).bind fun _ _ => (Keeps.build (quiet_leaf rfl rfl)).bind fun _ _ => .pure _

omit hinner in
theorem keepsStatements_statementWithin (levels : Nat) :
    KeepsStatements (statementWithin levels) := by
  induction levels with
  | zero => exact .exhausted
  | succ levels ih =>
    refine .kind fun k hk => ?_
    cases k with
    | int | char | void | const => exact keeps_declaration ih
    | openCurly => exact keeps_block ih
    | ifWord => exact keeps_ifStatement ih (by simp [hk])
    | whileWord => exact keeps_whileStatement ih (by simp [hk])
    | forWord => exact keeps_forStatement ih (by simp [hk])
    | returnWord => exact keeps_returnStatement (by simp [hk])
    | breakWord => exact keeps_jumpStatement (fun _ => quiet_leaf rfl rfl) (by simp [hk])
    | continueWord => exact keeps_jumpStatement (fun _ => quiet_leaf rfl rfl) (by simp [hk])
    | semicolon => exact keeps_emptyStatement (by simp [hk])
    | _ => exact keeps_exprStatement

omit hinner in
theorem keepsStatements_statement : KeepsStatements statement :=
  .patience fun _ => keepsStatements_statementWithin _

end Statement

/-! ## Files -/

theorem keeps_declarationsFrom (rounds count : Nat) :
    Keeps start (declarationsFrom rounds count) := by
  induction rounds generalizing start count with
  | zero => exact .exhausted
  | succ rounds ih =>
    refine .get (.ite (fun _ => .kind fun _ _ => ?_) fun _ => .pure _)
    exact .when (fun _ => .refuse _) fun _ =>
      (keeps_declaration keepsStatements_statement).bind fun _ _ => ih _

theorem keeps_file : Keeps start file :=
  .patience fun _ => (keeps_declarationsFrom _ _).bind fun _ _ => .build (quiet_file _)

/-- A file ends where no tokens are left. -/
theorem spends_declarationsFrom (rounds count : Nat) (start : Parser) :
    Ensures (declarationsFrom rounds count) start Fault.Any fun _ parser =>
      parser.hasTokens = false := by
  induction rounds generalizing start count with
  | zero => trivial
  | succ rounds ih =>
    simp only [declarationsFrom, Ensures.bind_iff, Ensures.get_iff, Ensures.ite_iff, Ensures.pure_iff,
      Bool.not_eq_true]
    refine ⟨fun _ => ?_, fun hnone => hnone⟩
    refine (Ensures.any kind start).imp fun k parser _ => ?_
    refine ⟨fun _ => (Ensures.any _ parser).imp fun _ parser _ => ?_, fun _ => ?_⟩ <;>
      exact (Ensures.any (declaration statement) _).imp fun more parser _ => ih _ parser

theorem spends_file (start : Parser) :
    Ensures file start Fault.Any fun _ parser => parser.hasTokens = false := by
  simp only [file, Ensures.bind_iff]
  refine (Ensures.any patience start).imp fun rounds parser _ => ?_
  refine (spends_declarationsFrom rounds 0 parser).imp fun count parser hnone => ?_
  exact (ensures_build _).mpr ((Ensures.any _ _).imp fun _ builder _ => hnone)

/-- Behind the tokens of a file is nothing but the end of input. -/
theorem rest_of_file {tokens : List Token} {last : Token} {value : Unit} {parser : Parser}
    (htokens : ∀ token ∈ tokens, token.kind ≠ .eof) (hlast : last.kind = .eof)
    (hfile : file (Parser.start (tokens ++ [last])) = .ok value parser) :
    parser.rest.filterMap Token.text? = [] := by
  have hstart : (Parser.start (tokens ++ [last])).last.kind = .eof := by simp [Parser.start, hlast]
  obtain ⟨-, passed, hpassed, -, -⟩ := passes_file.of_ok hstart hfile
  have hnone := (spends_file _).of_ok hfile
  rw [Parser.hasTokens, Bool.and_eq_false_iff, Bool.not_eq_false', List.isEmpty_iff,
    bne_eq_false_iff_eq] at hnone
  cases hrest : parser.rest with
  | nil => rfl
  | cons token rest =>
    rw [Parser.current, hrest, List.headD_cons] at hnone
    have heof := hnone.resolve_left (List.cons_ne_nil token rest)
    have hsplit : tokens ++ [last] = passed ++ token :: rest := hrest ▸ hpassed
    rcases List.eq_nil_or_concat rest with rfl | ⟨front, other, rfl⟩
    · rw [List.filterMap_cons_none (by simp [Token.text?, heof]), List.filterMap_nil]
    · -- No token in front of the last one is the end of input.
      rw [List.concat_eq_append, ← List.cons_append, ← List.append_assoc] at hsplit
      obtain ⟨rfl, -⟩ := List.append_inj' hsplit rfl
      exact absurd heof (htokens token (by simp))

/-- A finished forest says what its builder did. -/
theorem texts_of_finish {builder : Builder} {texts : List String} (h : builder.Says [] texts)
    {parsed : Forest} {root : NodeId} (hfinish : builder.finish = .ok parsed)
    (hroot : parsed.root = some root) : Tree.texts (parsed.contents root) = texts := by
  obtain ⟨parts, trees, hhandles, -, rfl⟩ := h
  obtain rfl : [] = parts := hhandles.held_eq
  unfold Builder.finish at hfinish
  split at hfinish
  · next id hstack =>
    split at hfinish
    · obtain rfl := Except.ok.inj hfinish
      obtain rfl : id = root := Option.some.inj hroot
      rw [contents_setRoot hhandles.rising, ← hhandles.stack_eq, hstack]
      simp
    · cases hfinish
  · cases hfinish

/-- The strings of a file stand in its tree in the order of the tokens. -/
theorem texts_of_parse {tokens : List Token} {last : Token} (htokens : ∀ token ∈ tokens, token.kind ≠ .eof)
    (hlast : last.kind = .eof) {parsed : Forest} {root : NodeId}
    (hparse : parse (tokens ++ [last]) = .ok parsed) (hroot : parsed.root = some root) :
    Tree.texts (parsed.contents root) = tokens.filterMap Token.text? := by
  unfold parse at hparse
  split at hparse
  · next parser hfile =>
    have hstart : (Parser.start (tokens ++ [last])).Tells (tokens.filterMap Token.text?) :=
      ⟨by simp [Parser.start, hlast], [], says_empty, by simp [Parser.start, Token.text?, hlast]⟩
    obtain ⟨-, said, hsaid, htexts⟩ := keeps_file.of_ok hstart hfile
    rw [rest_of_file htokens hlast hfile, List.append_nil] at htexts
    rw [← htexts]
    exact texts_of_finish hsaid hparse hroot
  · cases hparse

end Grammar

/-! ## Sources -/

namespace Token

/-- No lexeme is read as the end of input. -/
theorem Pattern.kind_ne_eof {pattern : Pattern} {lexeme : List Char} {kind : TokenKind} {value : String}
    (hpattern : pattern ∈ table) (hread : pattern.read lexeme = .ok (some (kind, value))) :
    kind ≠ .eof := by
  cases pattern with
  | word =>
    have hall : ∀ entry ∈ TokenKind.reservedWords, entry.2 ≠ .eof := by decide
    simp only [read, Except.ok.injEq, Option.some.injEq, Prod.mk.injEq] at hread
    cases hword : TokenKind.ofWord? (String.ofList lexeme) with
    | none => simp [← hread.1, hword]
    | some found =>
      obtain ⟨front, back, hsplit, -⟩ := List.lookup_eq_some_iff.mp hword
      rw [← hread.1, hword]
      exact hall _ (hsplit ▸ List.mem_append_right front List.mem_cons_self)
  | mark spelling other =>
    have hall : ∀ entry ∈ TokenKind.marks, entry.2 ≠ .eof := by decide
    simp only [read, Except.ok.injEq, Option.some.injEq, Prod.mk.injEq] at hread
    have hentry : (spelling, other) ∈ TokenKind.marks := by simpa [table] using hpattern
    exact hread.1 ▸ hall _ hentry
  | number =>
    simp only [read, Except.ok.injEq, Option.some.injEq, Prod.mk.injEq] at hread
    simp [← hread.1]
  | string | char =>
    simp only [read] at hread
    split at hread <;> simp_all [eq_comm]
  | _ => simp [read] at hread

/-- The end of input stands behind all other tokens. -/
theorem ends_scanFrom (line : Nat) (cs : List Char) :
    match scanFrom line cs with
    | .ok tokens => ∃ front last, tokens = front ++ [last] ∧ last.kind = .eof ∧
        ∀ token ∈ front, token.kind ≠ .eof
    | .error _ => True := by
  fun_induction scanFrom line cs with
  | case1 line => exact ⟨[], .endOfInput line, rfl, rfl, List.forall_mem_nil _⟩
  | case2 | case3 | case4 => trivial
  | case5 line c rest pattern length hfirst lexeme tokens hok hread ih => rwa [hok] at ih
  | case6 line c rest pattern length hfirst lexeme tokens hok kind value hread ih =>
    rw [hok] at ih
    obtain ⟨front, last, rfl, hlast, hfront⟩ := ih
    refine ⟨⟨kind, value, line⟩ :: front, last, rfl, hlast, List.forall_mem_cons.mpr ⟨?_, hfront⟩⟩
    exact Pattern.kind_ne_eof (Pattern.first?_spec hfirst).1 hread

end Token

/-- The strings of a source stand in its tree in the order of the tokens. -/
theorem Grammar.texts_of_read {source : String} {parsed : Forest} {root : NodeId}
    (hread : read source = .ok parsed) (hroot : parsed.root = some root) :
    ∃ tokens, Token.scan source = .ok tokens ∧
      Tree.texts (parsed.contents root) = tokens.filterMap Token.text? := by
  have hscanned := Token.ends_scanFrom 1 source.toList
  unfold read at hread
  cases hscan : Token.scan source with
  | error fault =>
    rw [hscan] at hread
    cases hread
  | ok tokens =>
    rw [hscan] at hread
    rw [show Token.scanFrom 1 source.toList = .ok tokens from hscan] at hscanned
    obtain ⟨front, last, rfl, hlast, hfront⟩ := hscanned
    refine ⟨_, rfl, (texts_of_parse hfront hlast hread hroot).trans ?_⟩
    simp [Token.text?, hlast]

end MiniC
