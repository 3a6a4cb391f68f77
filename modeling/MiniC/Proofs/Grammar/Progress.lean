import MiniC.Grammar.File

/-!
# How far readers go

A reader goes over tokens from the left and never over the end of input. `Parse.Passes` says so of
both ends of a step, one that has a result and one that is refused, and how many tokens a result takes
at least. What a reader passes is put together from what its parts pass.
-/

namespace MiniC

/-- The parser has gone on from `start` over at least `least` tokens, none of them the end of input. -/
structure Parser.Past (start : Parser) (least : Nat) (parser : Parser) : Prop where
  last_eq : parser.last = start.last
  exists_passed : ∃ passed, start.rest = passed ++ parser.rest ∧ least ≤ passed.length ∧
    ∀ token ∈ passed, token.kind ≠ .eof

namespace Parser.Past

variable {start middle parser : Parser} {least more : Nat}

theorem refl (parser : Parser) : parser.Past 0 parser :=
  ⟨rfl, [], rfl, Nat.le_refl 0, List.forall_mem_nil _⟩

theorem trans (h : start.Past least middle) (h' : middle.Past more parser) :
    start.Past (least + more) parser := by
  obtain ⟨passed, hpassed, hleast, hnone⟩ := h.exists_passed
  obtain ⟨passed', hpassed', hmore, hnone'⟩ := h'.exists_passed
  refine ⟨h'.last_eq.trans h.last_eq, passed ++ passed', ?_, ?_, ?_⟩
  · rw [hpassed, hpassed', List.append_assoc]
  · rw [List.length_append]
    omega
  · exact fun token hmem => (List.mem_append.mp hmem).elim (hnone token) (hnone' token)

theorem mono (h : start.Past least parser) (hle : more ≤ least) : start.Past more parser := by
  obtain ⟨passed, hpassed, hleast, hnone⟩ := h.exists_passed
  exact ⟨h.last_eq, passed, hpassed, by omega, hnone⟩

theorem length_le (h : start.Past least parser) :
    parser.rest.length + least ≤ start.rest.length := by
  obtain ⟨passed, hpassed, hleast, -⟩ := h.exists_passed
  rw [hpassed, List.length_append]
  omega

/-- A token that is not the end of input can be passed. -/
theorem tail (hlast : parser.last.kind = .eof) (h : parser.current.kind ≠ .eof) :
    parser.Past 1 { parser with rest := parser.rest.tail } := by
  cases hrest : parser.rest with
  | nil => exact absurd (by rw [Parser.current, hrest, List.headD_nil, hlast]) h
  | cons token rest =>
    refine ⟨rfl, [token], by rw [hrest]; rfl, Nat.le_refl 1, ?_⟩
    rw [Parser.current, hrest, List.headD_cons] at h
    simpa using h

end Parser.Past

namespace Parse

variable {α β : Type} {start : Parser} {least : Nat}

/-- In front of tokens that end with the end of input, a result of the step takes at least `least` of
them, and the step goes over none that is the end of input, be it refused or not. -/
structure Passes (start : Parser) (least : Nat) (step : Parse α) : Prop where
  passes : start.last.kind = .eof →
    match step start with
    | .ok _ parser => start.Past least parser
    | .error _ parser => start.Past 0 parser

namespace Passes

theorem of_ok {step : Parse α} {value : α} {parser : Parser} (h : Passes start least step)
    (hlast : start.last.kind = .eof) (hok : step start = .ok value parser) :
    start.Past least parser := by
  have hstep := h.passes hlast
  rwa [hok] at hstep

theorem of_error {step : Parse α} {fault : Fault} {parser : Parser} (h : Passes start least step)
    (hlast : start.last.kind = .eof) (herror : step start = .error fault parser) :
    start.Past 0 parser := by
  have hstep := h.passes hlast
  rwa [herror] at hstep

theorem mono {step : Parse α} {more : Nat} (h : Passes start least step) (hle : more ≤ least) :
    Passes start more step := by
  refine ⟨fun hlast => ?_⟩
  have hstep := h.passes hlast
  split at hstep
  · exact hstep.mono hle
  · exact hstep

/-- What two steps take adds up. -/
theorem bind {more : Nat} {step : Parse α} {next : α → Parse β} (h : Passes start least step)
    (hnext : ∀ value parser, Passes parser more (next value)) :
    Passes start (least + more) (step >>= next) := by
  refine ⟨fun hlast => ?_⟩
  have hstep := h.passes hlast
  simp only [Bind.bind, EStateM.bind]
  generalize step start = result at hstep
  cases result with
  | error fault parser => exact hstep
  | ok value parser =>
    have hthen := (hnext value parser).passes (by rw [hstep.last_eq, hlast])
    dsimp only at hthen ⊢
    split at hthen
    · exact hstep.trans hthen
    · exact (hstep.trans hthen).mono (Nat.zero_le _)

/-- The first of two steps takes enough. -/
theorem first {step : Parse α} {next : α → Parse β} (h : Passes start least step)
    (hnext : ∀ value parser, Passes parser 0 (next value)) : Passes start least (step >>= next) :=
  h.bind hnext

/-- The second of two steps takes enough. -/
theorem next {more : Nat} {step : Parse α} {next : α → Parse β} (h : Passes start more step)
    (hnext : ∀ value parser, Passes parser least (next value)) :
    Passes start least (step >>= next) := (h.bind hnext).mono (Nat.le_add_left _ _)

/-- A step that stays where it is. -/
theorem stays {step : Parse α} (h : match step start with
    | .ok _ parser => parser.last = start.last ∧ parser.rest = start.rest
    | .error _ parser => parser.last = start.last ∧ parser.rest = start.rest) :
    Passes start 0 step := by
  refine ⟨fun _ => ?_⟩
  split at h <;> exact ⟨h.1, [], h.2.symm, Nat.le_refl 0, List.forall_mem_nil _⟩

theorem pure (value : α) : Passes start 0 (Pure.pure value) := stays ⟨rfl, rfl⟩

theorem build (step : Build α) : Passes start 0 (build step) := by
  obtain ⟨rest, last, builder⟩ := start
  refine stays ?_
  simp only [Parse.build]
  cases step builder <;> exact ⟨rfl, rfl⟩

/-- A step that is refused at once. -/
theorem refused {step : Parse α} {fault : Fault} (h : step start = .error fault start) :
    Passes start least step := ⟨fun _ => by rw [h]; exact .refl start⟩

theorem fault (fault : Fault) : Passes start least (throw fault : Parse α) := refused rfl

theorem unexpected : Passes start least (unexpected : Parse α) := refused rfl

theorem refuse (message : String) : Passes start least (refuse message : Parse α) := refused rfl

theorem exhausted : Passes start least (exhausted : Parse α) := refused rfl

theorem ite {c : Prop} [Decidable c] {yes no : Parse α} (hyes : c → Passes start least yes)
    (hno : ¬c → Passes start least no) : Passes start least (if c then yes else no) := by
  by_cases h : c
  · rw [if_pos h]
    exact hyes h
  · rw [if_neg h]
    exact hno h

/-- Something may be done before the rest. -/
theorem when {c : Prop} [Decidable c] {step : Parse PUnit} {next : PUnit → Parse α}
    (hstep : c → Passes start 0 step) (hnext : ∀ parser, Passes parser least (next ⟨⟩)) :
    Passes start least (if c then step >>= next else next ⟨⟩) :=
  .ite (fun h => (hstep h).next fun _ => hnext) fun _ => hnext start

theorem get {next : Parser → Parse α} (h : Passes start least (next start)) :
    Passes start least (MonadState.get >>= next) := ⟨h.passes⟩

theorem current {next : Token → Parse α} (h : Passes start least (next start.current)) :
    Passes start least (Parse.current >>= next) := ⟨h.passes⟩

theorem kind {next : TokenKind → Parse α}
    (h : ∀ k, start.current.kind = k → Passes start least (next k)) :
    Passes start least (Parse.kind >>= next) := ⟨(h _ rfl).passes⟩

theorem line {next : Nat → Parse α} (h : ∀ line, Passes start least (next line)) :
    Passes start least (Parse.line >>= next) := ⟨(h _).passes⟩

theorem patience {next : Nat → Parse α} (h : ∀ rounds, Passes start least (next rounds)) :
    Passes start least (Parse.patience >>= next) := ⟨(h _).passes⟩

theorem advance (h : start.current.kind ≠ .eof) : Passes start 1 advance :=
  ⟨fun hlast => .tail hlast h⟩

theorem expect {wanted : TokenKind} (hwanted : wanted ≠ .eof) : Passes start 1 (expect wanted) :=
  .kind fun _ hk => .ite (fun h => .advance (by rwa [hk, h])) fun _ => .unexpected

theorem expectName (message : String) : Passes start 1 (expectName message) :=
  .kind fun _ hk => .ite (fun h => .advance (by simp [hk, h])) fun _ => .refuse message

theorem accept {wanted : TokenKind} (hwanted : wanted ≠ .eof) : Passes start 0 (accept wanted) :=
  .kind fun _ hk => .ite (fun h => (advance (by rwa [hk, h])).next fun _ _ => .pure true)
    fun _ => .pure false

end Passes

end Parse

namespace Grammar

open Parse

variable {start : Parser}

/-! ## Written types -/

theorem passes_baseType : Passes start 1 baseType := by
  refine .kind fun k hk => ?_
  cases hbase : baseType? k with
  | none => exact .refuse _
  | some name =>
    refine (Passes.advance fun heof => ?_).first fun _ _ => .pure name
    rw [← hk, heof] at hbase
    cases hbase

theorem passes_plainType : Passes start 1 plainType :=
  .line fun _ => passes_baseType.first fun _ _ => .build _

theorem passes_typeSuffixes (power : Power) (rounds : Nat) :
    Passes start 0 (typeSuffixes power rounds) := by
  induction rounds generalizing start with
  | zero => exact .exhausted
  | succ rounds ih =>
    have hround : ∀ step : Nat → Build Unit, start.current.kind ≠ .eof →
        Passes start 0 (advance >>= fun token => build (step token.line) >>= fun _ =>
          typeSuffixes power rounds) := fun step hkind =>
      ((Passes.advance hkind).first fun _ _ => (Passes.build _).next fun _ _ => ih).mono
        (Nat.zero_le 1)
    refine .ite (fun _ => .kind fun k hk => ?_) fun _ => .pure _
    cases k with
    | star => exact hround Build.pointerType (by simp [hk])
    | const => exact hround Build.const (by simp [hk])
    | _ => exact .pure _

theorem passes_typeSuffix (power : Power) : Passes start 0 (typeSuffix power) :=
  .patience fun _ => passes_typeSuffixes power _

theorem passes_typeName (power : Power) : Passes start 1 (typeName power) := by
  refine .kind fun k hk => ?_
  cases k with
  | int | char | void => exact passes_plainType.first fun _ _ => passes_typeSuffix power
  | const =>
    exact (Passes.advance (by simp [hk])).first fun _ _ =>
      passes_plainType.next fun _ _ => (Passes.build _).first fun _ _ =>
        passes_typeSuffix power
  | _ => exact (Passes.refuse _).first fun _ _ => passes_typeSuffix power

/-! ## Expressions -/

/-- A reader of expressions that takes a token or is refused. -/
def PassesExpressions (inner : Power → Parse Unit) : Prop :=
  ∀ {start : Parser} (power : Power), Passes start 1 (inner power)

section Expression

variable {inner : Power → Parse Unit}

theorem passes_literal (negative : Bool) (digits : String) (line : Nat) :
    Passes start 0 (literal negative digits line) := by
  unfold literal
  cases Literal.value? negative digits with
  | none => exact .line fun _ => .fault _
  | some value => exact .build _

variable (hinner : PassesExpressions inner)

include hinner

theorem passes_argumentsFrom (rounds count : Nat) :
    Passes start 0 (argumentsFrom inner rounds count) := by
  induction rounds generalizing start count with
  | zero => exact .exhausted
  | succ rounds ih =>
    refine .kind fun _ _ => .ite (fun _ => .pure _) fun _ => ?_
    refine .ite (fun _ => ?_) fun _ => (hinner .comma).next fun _ _ => ih _
    exact (Passes.expect (by simp)).next fun _ _ =>
      (hinner .comma).next fun _ _ => ih _

theorem passes_arguments : Passes start 1 (arguments inner) :=
  (Passes.expect (by simp)).first fun _ _ => .patience fun _ =>
    (passes_argumentsFrom hinner _ _).first fun _ _ =>
      (Passes.expect (by simp)).next fun _ _ => .pure _

theorem passes_group : Passes start 1 (group inner) := by
  refine (Passes.expect (by simp)).first fun opening _ => .kind fun _ _ => .ite (fun _ => ?_) fun _ => ?_
  · exact (passes_typeName .default).next fun _ _ =>
      (Passes.expect (by simp)).next fun _ _ =>
        (hinner .unary).next fun _ _ => .build _
  · exact (hinner .default).next fun _ _ =>
      (Passes.expect (by simp)).next fun _ _ => .pure _

theorem passes_leading (op : UnaryOp) (hkind : start.current.kind ≠ .eof) :
    Passes start 1 (leading inner op) := by
  refine (Passes.advance hkind).first fun _ _ => .kind fun k hk => .ite (fun hdigits => ?_) fun _ => ?_
  · exact (Passes.advance (by simp [hk, hdigits.2])).next fun _ _ =>
      passes_literal ..
  · exact (hinner .unary).next fun _ _ => .build _

theorem passes_operand : Passes start 1 (operand inner) := by
  have hleaf : ∀ step : Build Unit, start.current.kind ≠ .eof →
      Passes start 1 (advance >>= fun _ => build step) := fun step hkind =>
    (Passes.advance hkind).first fun _ _ => .build _
  refine .current ?_
  generalize hk : start.current.kind = k
  cases k with
  | number => exact (Passes.advance (by simp [hk])).first fun _ _ => passes_literal ..
  | charLiteral => exact hleaf _ (by simp [hk])
  | string => exact hleaf _ (by simp [hk])
  | identifier =>
    refine (Passes.advance (by simp [hk])).first fun _ _ => .kind fun _ _ =>
      .ite (fun _ => ?_) fun _ => .build _
    exact (passes_arguments hinner).next fun _ _ => .build _
  | openParen => exact passes_group hinner
  | dash | not | star | ampersand | plusPlus | minusMinus =>
    exact passes_leading hinner _ (by simp [hk])
  | _ => exact .unexpected

theorem passes_continueWith (power : Power) (continuation : Continuation)
    (hkind : start.current.kind ≠ .eof) :
    Passes start 1 (continueWith inner power continuation) := by
  have hbinary : ∀ power op, Passes start 1 (advance >>= fun sign => inner power >>= fun _ =>
      build (.binary op sign.line)) := fun power op =>
    (Passes.advance hkind).first fun _ _ => (hinner power).next fun _ _ => .build _
  cases continuation with
  | assign => exact hbinary .comma .assign
  | binary op => exact hbinary power op
  | subscript =>
    exact (Passes.advance hkind).first fun _ _ => (hinner .default).next fun _ _ =>
      (Passes.expect (by simp)).next fun _ _ => .build _
  | step direction => exact (Passes.advance hkind).first fun _ _ => .build _

theorem passes_operators (power : Power) (rounds : Nat) :
    Passes start 0 (operators inner power rounds) := by
  induction rounds generalizing start with
  | zero => exact .exhausted
  | succ rounds ih =>
    refine .kind fun k hk => ?_
    cases hnext : continuation? k with
    | none => exact .pure _
    | some found =>
      refine .ite (fun _ => .pure _) fun _ => ?_
      refine (passes_continueWith hinner _ _ fun heof => ?_).next fun _ _ => ih
      rw [← hk, heof] at hnext
      cases hnext

omit hinner in
theorem passesExpressions_expressionWithin (levels : Nat) :
    PassesExpressions (expressionWithin levels) := by
  induction levels with
  | zero => exact fun _ => .exhausted
  | succ levels ih =>
    exact fun power => (passes_operand ih).first fun _ _ => .patience fun _ =>
      passes_operators ih power _

omit hinner in
theorem passes_expression (power : Power) : Passes start 1 (expression power) :=
  .patience fun _ => passesExpressions_expressionWithin _ power

end Expression

/-! ## Declarations and statements -/

/-- A reader of statements that takes a token or is refused. -/
def PassesStatements (inner : Parse Nat) : Prop := ∀ {start : Parser}, Passes start 1 inner

section Statement

variable {inner : Parse Nat}

theorem passes_specifier : Passes start 1 specifier :=
  (Passes.accept (by simp)).next fun _ _ => passes_baseType.first fun _ _ =>
    (Passes.accept (by simp)).first fun _ _ => .pure _

theorem passes_itemsFrom (rounds count : Nat) : Passes start 0 (itemsFrom rounds count) := by
  induction rounds generalizing start count with
  | zero => exact .exhausted
  | succ rounds ih =>
    have hitem : ∀ start, Passes start 0 (expression .comma >>= fun _ => itemsFrom rounds (count + 1)) :=
      fun start => (passes_expression .comma).next fun _ _ => ih _
    refine .kind fun _ _ => .ite (fun _ => .pure _) fun _ => .ite (fun _ => ?_) fun _ => hitem start
    exact (Passes.expect (by simp)).next fun _ parser => .kind fun _ _ =>
      .ite (fun _ => .pure _) fun _ => hitem parser

theorem passes_initializerList : Passes start 1 initializerList :=
  (Passes.expect (by simp)).first fun _ _ => .patience fun _ =>
    (passes_itemsFrom _ _).first fun _ _ =>
      (Passes.expect (by simp)).next fun _ _ => .build _

theorem passes_arraySize : Passes start 0 arraySize := by
  refine .kind fun k hk => .ite (fun h => ?_) fun _ => .pure _
  refine (Passes.advance (by simp [hk, h])).next fun digits _ => ?_
  cases Literal.size? digits.value with
  | none => exact .refuse _
  | some size => exact .pure _

theorem passes_variableRest (name : String) (line : Nat) :
    Passes start 0 (variableRest name line) := by
  have hinitial : ∀ start, Passes start 0
      (do
        let initialized ← accept .assignment
        if initialized then
          if (← kind) = .openCurly then initializerList else expression .comma
        build (.declaration name initialized line)) := by
    refine fun start => (Passes.accept (by simp)).first fun initialized _ =>
      .ite (fun _ => .kind fun _ _ => .ite (fun _ => ?_) fun _ => ?_) fun _ => .build _
    · exact passes_initializerList.next fun _ _ => .build _
    · exact (passes_expression .comma).next fun _ _ => .build _
  refine (Passes.accept (by simp)).first fun brackets parser =>
    .ite (fun _ => ?_) fun _ => hinitial parser
  exact passes_arraySize.first fun _ _ => (Passes.expect (by simp)).next
    fun _ _ => (Passes.build _).first fun _ => hinitial

theorem passes_parameter : Passes start 1 parameter := by
  refine (passes_typeName .default).first fun _ _ =>
    (Passes.expectName _).next fun name _ =>
      (Passes.accept (by simp)).first fun brackets _ => .ite (fun _ => ?_) fun _ => .build _
  exact (Passes.accept (by simp)).first fun _ _ =>
    (Passes.expect (by simp)).next fun _ _ =>
      (Passes.build _).first fun _ _ => .build _

theorem passes_parametersFrom (rounds count : Nat) :
    Passes start 0 (parametersFrom rounds count) := by
  induction rounds generalizing start count with
  | zero => exact .exhausted
  | succ rounds ih =>
    have hparameter : ∀ start, Passes start 0 (parameter >>= fun _ => parametersFrom rounds (count + 1)) :=
      fun start => passes_parameter.next fun _ _ => ih _
    refine .kind fun _ _ => .ite (fun _ => .pure _) fun _ =>
      .ite (fun _ => ?_) fun _ => hparameter start
    exact (Passes.expect (by simp)).next fun _ => hparameter

variable (hinner : PassesStatements inner)

include hinner

theorem passes_single : Passes start 1 (single inner) :=
  .line fun _ => Passes.first hinner fun _ _ => .ite (fun _ => .build _) fun _ => .pure _

theorem passes_statementsFrom (rounds count : Nat) :
    Passes start 0 (statementsFrom inner rounds count) := by
  induction rounds generalizing start count with
  | zero => exact .exhausted
  | succ rounds ih =>
    exact .get (.kind fun _ _ => .ite (fun _ => hinner.next fun _ _ => ih _) fun _ => .pure _)

theorem passes_block : Passes start 1 (block inner) :=
  (Passes.expect (by simp)).first fun _ _ => .patience fun _ =>
    (passes_statementsFrom hinner _ _).first fun _ _ =>
      (Passes.expect (by simp)).next fun _ _ =>
        (Passes.build _).first fun _ _ => .pure _

theorem passes_functionRest (name : String) (line : Nat) :
    Passes start 1 (functionRest inner name line) := by
  have hrest : ∀ start, Passes start 0 (patience >>= fun rounds => parametersFrom rounds 0 >>= fun count =>
      expect .closeParen >>= fun _ => build (.parameters count line) >>= fun _ => kind >>= fun k =>
        if k = .openCurly then block inner >>= fun _ => build (.function name (decide (k = .openCurly)) line)
        else expect .semicolon >>= fun _ => build (.function name (decide (k = .openCurly)) line)) := by
    refine fun start => .patience fun _ => (passes_parametersFrom _ _).first fun _ _ =>
      (Passes.expect (by simp)).next fun _ _ =>
        (Passes.build _).first fun _ _ => .kind fun _ _ => .ite (fun _ => ?_) fun _ => ?_
    · exact (passes_block hinner).next fun _ _ => .build _
    · exact (Passes.expect (by simp)).next fun _ _ => .build _
  refine (Passes.expect (by simp)).first fun _ parser => .kind fun k hk => .get ?_
  refine .ite (fun h => ?_) fun _ => by simpa using hrest parser
  refine (Passes.advance (by simp [hk, h.1])).next fun _ parser => ?_
  simpa using hrest parser

theorem passes_declaratorsFrom (base : BaseTy) (constant : Bool) (line rounds count : Nat) :
    Passes start 1 (declaratorsFrom inner base constant line rounds count) := by
  induction rounds generalizing start count with
  | zero => exact .exhausted
  | succ rounds ih =>
    refine (Passes.build _).next fun _ _ => .when (fun _ => .build _) fun _ => ?_
    refine (passes_typeSuffix .default).next fun _ _ => (Passes.expectName _).first fun name _ =>
      .kind fun _ _ => .ite (fun _ => ?_) fun _ => ?_
    · exact (passes_functionRest hinner _ _).next fun _ _ => .pure _
    · refine (passes_variableRest _ _).first fun _ _ => (Passes.accept (by simp)).first fun _ _ =>
        .ite (fun _ => (ih _).mono (Nat.zero_le 1)) fun _ => ?_
      exact (Passes.expect (by simp)).next fun _ _ => .pure _

theorem passes_declaration : Passes start 1 (declaration inner) :=
  .line fun _ => passes_specifier.first fun _ _ => .patience fun _ =>
    (passes_declaratorsFrom hinner ..).mono (Nat.zero_le 1)

omit hinner in
theorem passes_condition : Passes start 1 condition :=
  (Passes.expect (by simp)).first fun _ _ => (passes_expression _).next
    fun _ _ => (Passes.expect (by simp)).next fun _ _ => .pure _

theorem passes_ifStatement (hkind : start.current.kind ≠ .eof) :
    Passes start 1 (ifStatement inner) := by
  refine (Passes.advance hkind).first fun word _ => passes_condition.next
    fun _ _ => (passes_single hinner).next fun _ _ =>
      (Passes.accept (by simp)).first fun found _ => ?_
  exact .when (fun _ => (passes_single hinner).mono (Nat.zero_le 1)) fun _ =>
    (Passes.build _).first fun _ _ => .pure _

theorem passes_whileStatement (hkind : start.current.kind ≠ .eof) :
    Passes start 1 (whileStatement inner) :=
  (Passes.advance hkind).first fun _ _ => passes_condition.next fun _ _ =>
    (passes_single hinner).next fun _ _ =>
      (Passes.build _).first fun _ _ => .pure _

omit hinner in
theorem passes_exprClause (line : Nat) : Passes start 1 (exprClause line) :=
  (passes_expression _).first fun _ _ => .build _

theorem passes_startClause (line : Nat) : Passes start 0 (startClause inner line) := by
  refine (Passes.accept (by simp)).first fun _ _ => .ite (fun _ => .build _) fun _ => .kind fun _ _ =>
    .ite (fun _ => ?_) fun _ => ?_
  · exact (passes_declaration hinner).next fun _ _ =>
      .ite (fun _ => .refuse _) fun _ => .pure _
  · exact (passes_expression _).next fun _ _ =>
      (Passes.expect (by simp)).next fun _ _ => .build _

theorem passes_forStatement (hkind : start.current.kind ≠ .eof) :
    Passes start 1 (forStatement inner) := by
  refine (Passes.advance hkind).first fun word _ =>
    (Passes.expect (by simp)).next fun _ _ =>
      (passes_startClause hinner _).first fun _ _ => ?_
  have hbody : ∀ start, Passes start 0 (expect .closeParen >>= fun _ => single inner >>= fun _ =>
      build (.forLoop word.line) >>= fun _ => Pure.pure 1) := fun start =>
    (Passes.expect (by simp)).next fun _ _ =>
      (passes_single hinner).next fun _ _ =>
        (Passes.build _).first fun _ _ => .pure _
  have hstep : ∀ start, Passes start 0
      (do
        let _ ← expect .semicolon
        if (← kind) = .closeParen then build (.nothing word.line) else exprClause word.line
        let _ ← expect .closeParen
        single inner
        build (.forLoop word.line)
        return 1) := by
    refine fun start => (Passes.expect (by simp)).next fun _ _ =>
      .kind fun _ _ => .ite (fun _ => (Passes.build _).first fun _ => hbody) fun _ => ?_
    exact (passes_exprClause _).next fun _ => hbody
  refine .kind fun _ _ => .ite (fun _ => (Passes.build _).first fun _ => hstep) fun _ => ?_
  exact (passes_expression _).next fun _ => hstep

omit hinner in
theorem passes_returnStatement (hkind : start.current.kind ≠ .eof) :
    Passes start 1 returnStatement := by
  refine (Passes.advance hkind).first fun word _ => .kind fun _ _ => ?_
  exact .when (fun _ => (passes_expression _).mono (Nat.zero_le 1)) fun _ =>
    (Passes.expect (by simp)).next fun _ _ =>
      (Passes.build _).first fun _ _ => .pure _

omit hinner in
theorem passes_jumpStatement (jump : Nat → Build Unit) (hkind : start.current.kind ≠ .eof) :
    Passes start 1 (jumpStatement jump) :=
  (Passes.advance hkind).first fun _ _ => (Passes.expect (by simp)).next
    fun _ _ => (Passes.build _).first fun _ _ => .pure _

omit hinner in
theorem passes_exprStatement : Passes start 1 exprStatement :=
  .line fun _ => (passes_expression _).first fun _ _ =>
    (Passes.expect (by simp)).next fun _ _ =>
      (Passes.build _).first fun _ _ => .pure _

omit hinner in
theorem passes_emptyStatement (hkind : start.current.kind ≠ .eof) : Passes start 1 emptyStatement :=
  (Passes.advance hkind).first fun _ _ => (Passes.build _).first fun _ _ => .pure _

omit hinner in
theorem passesStatements_statementWithin (levels : Nat) :
    PassesStatements (statementWithin levels) := by
  induction levels with
  | zero => exact .exhausted
  | succ levels ih =>
    refine .kind fun k hk => ?_
    cases k with
    | int | char | void | const => exact passes_declaration ih
    | openCurly => exact passes_block ih
    | ifWord => exact passes_ifStatement ih (by simp [hk])
    | whileWord => exact passes_whileStatement ih (by simp [hk])
    | forWord => exact passes_forStatement ih (by simp [hk])
    | returnWord => exact passes_returnStatement (by simp [hk])
    | breakWord => exact passes_jumpStatement _ (by simp [hk])
    | continueWord => exact passes_jumpStatement _ (by simp [hk])
    | semicolon => exact passes_emptyStatement (by simp [hk])
    | _ => exact passes_exprStatement

omit hinner in
theorem passesStatements_statement : PassesStatements statement :=
  .patience fun _ => passesStatements_statementWithin _

end Statement

/-! ## Files -/

theorem passes_declarationsFrom (rounds count : Nat) :
    Passes start 0 (declarationsFrom rounds count) := by
  induction rounds generalizing start count with
  | zero => exact .exhausted
  | succ rounds ih =>
    refine .get (.ite (fun _ => .kind fun _ _ => ?_) fun _ => .pure _)
    exact .when (fun _ => .refuse _) fun _ =>
      (passes_declaration passesStatements_statement).next fun _ _ => ih _

theorem passes_file : Passes start 0 file :=
  .patience fun _ => (passes_declarationsFrom _ _).first fun _ _ => .build _

end Grammar

end MiniC
