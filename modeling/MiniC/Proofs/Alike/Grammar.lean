import MiniC.Grammar.File
import MiniC.Proofs.Alike.Build

/-!
# Reading alike

A reader decides by the kinds of the tokens before it and by the digits of numbers. In front of tokens
alike it therefore takes the same way and builds trees alike.
-/

namespace MiniC.Likeness

open Grammar Parse

variable {L : Likeness} {α β : Type} {V : α → α → Prop}

section Parser

variable {parser parser' : Parser}

theorem SameParser.current (h : L.SameParser parser parser') :
    L.SameToken parser.current parser'.current := by
  have hrest := h.rest
  unfold Parser.current
  generalize parser.rest = rest, parser'.rest = rest' at hrest ⊢
  cases hrest with
  | nil => exact h.last
  | cons htoken => exact htoken

theorem SameParser.peek (h : L.SameParser parser parser') (ahead : Nat) :
    parser'.peek ahead = parser.peek ahead := by
  have hrest := h.rest
  unfold Parser.peek
  generalize parser.rest = rest, parser'.rest = rest' at hrest ⊢
  induction hrest generalizing ahead with
  | nil => rfl
  | cons htoken _ ih =>
    cases ahead with
    | zero => exact htoken.kind
    | succ ahead => exact ih ahead

theorem SameParser.hasTokens (h : L.SameParser parser parser') :
    parser'.hasTokens = parser.hasTokens := by
  have hrest := h.rest
  rw [Parser.hasTokens, Parser.hasTokens, h.current.kind]
  generalize parser.rest = rest, parser'.rest = rest' at hrest ⊢
  cases hrest <;> rfl

theorem SameParser.tail (h : L.SameParser parser parser') :
    L.SameParser { parser with rest := parser.rest.tail } { parser' with rest := parser'.rest.tail } := by
  refine ⟨?_, h.last, h.builder⟩
  have hrest := h.rest
  dsimp only
  generalize parser.rest = rest, parser'.rest = rest' at hrest ⊢
  cases hrest with
  | nil => exact .nil
  | cons _ hrest => exact hrest

end Parser

theorem parses_build {step step' : Build α} (h : L.Builds V step step') :
    L.Parses V (build step) (build step') := by
  intro parser parser' hparser
  have hstep := h hparser.builder
  simp only [build]
  generalize step parser.builder = result, step' parser'.builder = result' at hstep ⊢
  cases hstep with
  | ok h hbuilder => exact .ok h ⟨hparser.rest, hparser.last, hbuilder⟩
  | error h => exact .error h

theorem parses_current : L.Parses L.SameToken current current := fun _ _ h => .ok h.current h

theorem parses_kind : L.Parses Eq kind kind := fun _ _ h => .ok h.current.kind.symm h

theorem parses_line : L.Parses L.line Parse.line Parse.line := fun _ _ h => .ok h.current.line h

theorem parses_advance : L.Parses L.SameToken advance advance := fun _ _ h => .ok h.current h.tail

theorem parses_patience : L.Parses Eq patience patience :=
  fun _ _ h => .ok (congrArg (· + 1) h.rest.length_eq) h

/-- Reading a token that has been looked at. -/
theorem parses_looked {c : TokenKind → Prop} [DecidablePred c] {yes yes' : Token → Parse α}
    {no no' : Parse α}
    (hyes : ∀ token token', L.SameToken token token' → c token.kind →
      L.Parses V (yes token) (yes' token'))
    (hno : L.Parses V no no') :
    L.Parses V (kind >>= fun k => if c k then advance >>= yes else no)
      (kind >>= fun k => if c k then advance >>= yes' else no') := by
  intro parser parser' h
  have hread : ∀ (yes : Token → Parse α) (no : Parse α) (parser : Parser),
      (kind >>= fun k => if c k then advance >>= yes else no) parser =
        if c parser.current.kind then yes parser.current { parser with rest := parser.rest.tail }
        else no parser := by
    intro yes no parser
    change (if c parser.current.kind then advance >>= yes else no) parser = _
    split <;> rfl
  rw [hread, hread, h.current.kind]
  by_cases hc : c parser.current.kind
  · simp only [if_pos hc]
    exact hyes _ _ h.current hc h.tail
  · simp only [if_neg hc]
    exact hno h

theorem parses_unexpected : L.Parses V unexpected unexpected :=
  parses_current.bind fun _ _ h => .throw (.of_line ⟨rfl, rfl⟩ h.line)

theorem parses_refuse (message : String) : L.Parses V (refuse message) (refuse message) := by
  refine Tracks.bind (V := L.SameFault) ?_ fun _ _ h => .throw h
  exact parses_current.bind fun _ _ h => .pure (.of_line ⟨rfl, rfl⟩ h.line)

theorem parses_exhausted : L.Parses V exhausted exhausted :=
  parses_line.bind fun _ _ _ => .throw .malformed

theorem parses_expect (k : TokenKind) : L.Parses L.SameToken (expect k) (expect k) :=
  parses_kind.next fun _ => .ite (fun _ => parses_advance) fun _ => parses_unexpected

theorem parses_accept (k : TokenKind) : L.Parses Eq (accept k) (accept k) :=
  parses_kind.next fun _ => .ite (fun _ => parses_advance.bind fun _ _ _ => .pure rfl) fun _ => .pure rfl

theorem parses_expectName (message : String) :
    L.Parses (fun token token' => L.name token.value token'.value ∧ L.line token.line token'.line)
      (expectName message) (expectName message) := by
  have hlooked : L.Parses (fun token token' => L.name token.value token'.value ∧ L.line token.line token'.line)
      (kind >>= fun k => if k = .identifier then advance >>= Pure.pure else refuse message)
      (kind >>= fun k => if k = .identifier then advance >>= Pure.pure else refuse message) :=
    parses_looked (fun token token' h hkind => .pure ⟨h.name hkind, h.line⟩) (parses_refuse message)
  exact hlooked

section TypeName

theorem parses_baseType : L.Parses Eq baseType baseType := by
  refine parses_kind.next fun k => ?_
  cases baseType? k with
  | none => exact parses_refuse _
  | some name => exact parses_advance.bind fun _ _ _ => .pure rfl

theorem parses_plainType : L.Parses Eq plainType plainType :=
  parses_line.bind fun _ _ hline => parses_baseType.next fun _ => parses_build (builds_type hline _)

theorem parses_typeSuffixes (power : Power) (rounds : Nat) :
    L.Parses Eq (typeSuffixes power rounds) (typeSuffixes power rounds) := by
  induction rounds with
  | zero => exact parses_exhausted
  | succ rounds ih =>
    refine .ite (fun _ => parses_kind.next fun k => ?_) fun _ => .pure rfl
    cases k with
    | star =>
      exact parses_advance.bind fun _ _ h => (parses_build (builds_pointerType h.line)).next fun _ => ih
    | const => exact parses_advance.bind fun _ _ _ => (parses_build builds_const).next fun _ => ih
    | _ => exact .pure rfl

theorem parses_typeSuffix (power : Power) : L.Parses Eq (typeSuffix power) (typeSuffix power) :=
  parses_patience.next fun _ => parses_typeSuffixes power _

theorem parses_typeName (power : Power) : L.Parses Eq (typeName power) (typeName power) := by
  refine parses_kind.next fun k => ?_
  cases k with
  | int | char | void => exact parses_plainType.next fun _ => parses_typeSuffix power
  | const =>
    exact parses_advance.bind fun _ _ _ => parses_plainType.next fun _ =>
      (parses_build builds_const).next fun _ => parses_typeSuffix power
  | _ => exact (parses_refuse (V := Eq) _).next fun _ => parses_typeSuffix power

end TypeName

section Expression

theorem parses_literal (negative : Bool) (digits : String) {line line' : Nat} (hline : L.line line line') :
    L.Parses Eq (literal negative digits line) (literal negative digits line') := by
  unfold literal
  cases Literal.value? negative digits with
  | some value => exact parses_build (builds_int hline value)
  | none => exact parses_line.bind fun _ _ h => .throw (.of_line ⟨rfl, rfl⟩ h)

variable {inner : Power → Parse Unit} (hinner : ∀ power, L.Parses Eq (inner power) (inner power))
include hinner

theorem parses_argumentsFrom (rounds count : Nat) :
    L.Parses Eq (argumentsFrom inner rounds count) (argumentsFrom inner rounds count) := by
  induction rounds generalizing count with
  | zero => exact parses_exhausted
  | succ rounds ih =>
    refine parses_kind.next fun _ => .ite (fun _ => .pure rfl) fun _ => ?_
    exact .when (fun _ => parses_expect .comma) ((hinner .comma).next fun _ => ih _)

theorem parses_arguments : L.Parses Eq (arguments inner) (arguments inner) :=
  (parses_expect .openParen).bind fun _ _ _ => parses_patience.next fun _ =>
    (parses_argumentsFrom hinner _ _).next fun _ =>
      (parses_expect .closeParen).bind fun _ _ _ => .pure rfl

theorem parses_group : L.Parses Eq (group inner) (group inner) := by
  refine (parses_expect .openParen).bind fun _ _ _ => parses_kind.next fun _ => .ite (fun _ => ?_) fun _ => ?_
  · exact (parses_typeName .default).next fun _ => (parses_expect .closeParen).bind fun _ _ _ =>
      (hinner .unary).next fun _ => parses_build builds_cast
  · exact (hinner .default).next fun _ => (parses_expect .closeParen).bind fun _ _ _ => .pure rfl

theorem parses_leading (op : UnaryOp) : L.Parses Eq (leading inner op) (leading inner op) := by
  refine parses_advance.bind fun sign sign' hsign => ?_
  refine parses_looked (c := fun k => op = .negate ∧ k = .number) (fun digits digits' h hc => ?_) ?_
  · rw [h.value (by rw [hc.2]; nofun)]
    exact parses_literal true _ hsign.line
  · exact (hinner .unary).next fun _ => parses_build (builds_unary hsign.line op)

theorem parses_operand : L.Parses Eq (operand inner) (operand inner) := by
  refine parses_current.bind fun token token' h => ?_
  rw [h.kind]
  have hvalue := h.value
  have hname := h.name
  cases hk : token.kind with
  | number =>
    rw [hvalue (by rw [hk]; nofun)]
    exact parses_advance.bind fun _ _ _ => parses_literal false _ h.line
  | charLiteral =>
    rw [hvalue (by rw [hk]; nofun)]
    exact parses_advance.bind fun _ _ _ => parses_build (builds_char h.line _)
  | string =>
    rw [hvalue (by rw [hk]; nofun)]
    exact parses_advance.bind fun _ _ _ => parses_build (builds_string h.line _)
  | identifier =>
    refine parses_advance.bind fun _ _ _ => parses_kind.next fun _ => .ite (fun _ => ?_) fun _ => ?_
    · exact (parses_arguments hinner).next fun _ => parses_build (builds_call h.line (hname hk) _)
    · exact parses_build (builds_identifier h.line (hname hk))
  | openParen => exact parses_group hinner
  | dash | not | star | ampersand | plusPlus | minusMinus => exact parses_leading hinner _
  | _ => exact parses_unexpected

theorem parses_continueWith (power : Power) (continuation : Continuation) :
    L.Parses Eq (continueWith inner power continuation) (continueWith inner power continuation) := by
  cases continuation with
  | assign =>
    exact parses_advance.bind fun _ _ h => (hinner .comma).next fun _ => parses_build (builds_binary h.line _)
  | binary op =>
    exact parses_advance.bind fun _ _ h => (hinner power).next fun _ => parses_build (builds_binary h.line _)
  | subscript =>
    exact parses_advance.bind fun _ _ h => (hinner .default).next fun _ =>
      (parses_expect .closeBracket).bind fun _ _ _ => parses_build (builds_subscript h.line)
  | step direction => exact parses_advance.bind fun _ _ h => parses_build (builds_unary h.line _)

theorem parses_operators (power : Power) (rounds : Nat) :
    L.Parses Eq (operators inner power rounds) (operators inner power rounds) := by
  induction rounds with
  | zero => exact parses_exhausted
  | succ rounds ih =>
    refine parses_kind.next fun k => ?_
    cases continuation? k with
    | none => exact .pure rfl
    | some found =>
      refine .ite (fun _ => .pure rfl) fun _ => ?_
      exact (parses_continueWith hinner _ _).next fun _ => ih

omit hinner in
theorem parses_expressionWithin (levels : Nat) (power : Power) :
    L.Parses Eq (expressionWithin levels power) (expressionWithin levels power) := by
  induction levels generalizing power with
  | zero => exact parses_exhausted
  | succ levels ih =>
    exact (parses_operand ih).next fun _ => parses_patience.next fun _ => parses_operators ih _ _

omit hinner in
theorem parses_expression (power : Power) : L.Parses Eq (expression power) (expression power) :=
  parses_patience.next fun _ => parses_expressionWithin _ _

end Expression

section Statement

theorem parses_specifier : L.Parses Eq specifier specifier :=
  (parses_accept .const).next fun _ => parses_baseType.next fun _ =>
    (parses_accept .const).next fun _ => .pure rfl

theorem parses_itemsFrom (rounds count : Nat) :
    L.Parses Eq (itemsFrom rounds count) (itemsFrom rounds count) := by
  induction rounds generalizing count with
  | zero => exact parses_exhausted
  | succ rounds ih =>
    have hitem : L.Parses Eq (expression .comma >>= fun _ => itemsFrom rounds (count + 1))
        (expression .comma >>= fun _ => itemsFrom rounds (count + 1)) :=
      (parses_expression .comma).next fun _ => ih _
    refine parses_kind.next fun _ => .ite (fun _ => .pure rfl) fun _ => .ite (fun _ => ?_) fun _ => hitem
    exact (parses_expect .comma).bind fun _ _ _ => parses_kind.next fun _ =>
      .ite (fun _ => .pure rfl) fun _ => hitem

theorem parses_initializerList : L.Parses Eq initializerList initializerList :=
  (parses_expect .openCurly).bind fun _ _ h => parses_patience.next fun _ =>
    (parses_itemsFrom _ _).next fun _ => (parses_expect .closeCurly).bind fun _ _ _ =>
      parses_build (builds_initializers h.line _)

theorem parses_arraySize : L.Parses Eq arraySize arraySize := by
  refine parses_looked (c := (· = .number)) (fun digits digits' h hc => ?_) (.pure rfl)
  rw [h.value (by rw [hc]; nofun)]
  cases Literal.size? digits.value with
  | some size => exact .pure rfl
  | none => exact parses_refuse _

theorem parses_variableRest {name name' : String} (hname : L.name name name') {line line' : Nat}
    (hline : L.line line line') : L.Parses Eq (variableRest name line) (variableRest name' line') := by
  have hinitialized : L.Parses Eq
      (do
        let initialized ← accept .assignment
        if initialized then
          if (← kind) = .openCurly then initializerList else expression .comma
        build (.declaration name initialized line))
      (do
        let initialized ← accept .assignment
        if initialized then
          if (← kind) = .openCurly then initializerList else expression .comma
        build (.declaration name' initialized line')) := by
    refine (parses_accept .assignment).next fun _ => ?_
    have hdeclared := parses_build (builds_declaration hline hname ‹Bool›)
    refine .ite (fun _ => parses_kind.next fun _ => .ite (fun _ => ?_) fun _ => ?_) fun _ => hdeclared
    · exact parses_initializerList.next fun _ => hdeclared
    · exact (parses_expression .comma).next fun _ => hdeclared
  refine (parses_accept .openBracket).next fun _ => .ite (fun _ => ?_) fun _ => hinitialized
  exact parses_arraySize.next fun _ => (parses_expect .closeBracket).bind fun _ _ _ =>
    (parses_build (builds_arrayType hline _)).next fun _ => hinitialized

theorem parses_parameter : L.Parses Eq parameter parameter := by
  refine (parses_typeName .default).next fun _ => (parses_expectName _).bind fun name name' h => ?_
  have hparameter := parses_build (builds_parameter h.2 h.1)
  refine (parses_accept .openBracket).next fun _ => .ite (fun _ => ?_) fun _ => hparameter
  exact (parses_accept .number).next fun _ => (parses_expect .closeBracket).bind fun _ _ _ =>
    (parses_build (builds_pointerType h.2)).next fun _ => hparameter

theorem parses_parametersFrom (rounds count : Nat) :
    L.Parses Eq (parametersFrom rounds count) (parametersFrom rounds count) := by
  induction rounds generalizing count with
  | zero => exact parses_exhausted
  | succ rounds ih =>
    refine parses_kind.next fun _ => .ite (fun _ => .pure rfl) fun _ => ?_
    exact .when (fun _ => parses_expect .comma) (parses_parameter.next fun _ => ih _)

theorem parses_condition : L.Parses Eq condition condition :=
  (parses_expect .openParen).bind fun _ _ _ => (parses_expression .default).next fun _ =>
    (parses_expect .closeParen).bind fun _ _ _ => .pure rfl

theorem parses_exprClause {line line' : Nat} (hline : L.line line line') :
    L.Parses Eq (exprClause line) (exprClause line') :=
  (parses_expression .default).next fun _ => parses_build (builds_exprStatement hline)

theorem parses_returnStatement : L.Parses Eq returnStatement returnStatement := by
  refine parses_advance.bind fun _ _ h => parses_kind.next fun _ => ?_
  have hrest : ∀ hasValue : Bool, L.Parses Eq
      (expect .semicolon >>= fun _ => build (.giveBack hasValue _) >>= fun _ => Pure.pure 1)
      (expect .semicolon >>= fun _ => build (.giveBack hasValue _) >>= fun _ => Pure.pure 1) :=
    fun hasValue => (parses_expect .semicolon).bind fun _ _ _ =>
      (parses_build (builds_giveBack h.line hasValue)).next fun _ => .pure rfl
  exact .when (fun _ => parses_expression .default) (hrest _)

theorem parses_jumpStatement {jump : Nat → Build Unit}
    (hjump : ∀ line line', L.line line line' → L.Builds Eq (jump line) (jump line')) :
    L.Parses Eq (jumpStatement jump) (jumpStatement jump) :=
  parses_advance.bind fun _ _ h => (parses_expect .semicolon).bind fun _ _ _ =>
    (parses_build (hjump _ _ h.line)).next fun _ => .pure rfl

theorem parses_exprStatement : L.Parses Eq exprStatement exprStatement :=
  parses_line.bind fun _ _ h => (parses_expression .default).next fun _ =>
    (parses_expect .semicolon).bind fun _ _ _ => (parses_build (builds_exprStatement h)).next fun _ => .pure rfl

theorem parses_emptyStatement : L.Parses Eq emptyStatement emptyStatement :=
  parses_advance.bind fun _ _ _ => (parses_build builds_nothing).next fun _ => .pure rfl

variable {inner : Parse Nat} (hinner : L.Parses Eq inner inner)
include hinner

theorem parses_single : L.Parses Eq (single inner) (single inner) :=
  parses_line.bind fun _ _ h => hinner.next fun count =>
    .ite (fun _ => parses_build (builds_block h count)) fun _ => .pure rfl

theorem parses_statementsFrom (rounds count : Nat) :
    L.Parses Eq (statementsFrom inner rounds count) (statementsFrom inner rounds count) := by
  induction rounds generalizing count with
  | zero => exact parses_exhausted
  | succ rounds ih =>
    refine Tracks.get.bind fun parser parser' h => parses_kind.next fun _ => ?_
    rw [h.hasTokens]
    exact .ite (fun _ => hinner.next fun _ => ih _) fun _ => .pure rfl

theorem parses_block : L.Parses Eq (block inner) (block inner) :=
  (parses_expect .openCurly).bind fun _ _ h => parses_patience.next fun _ =>
    (parses_statementsFrom hinner _ _).next fun _ => (parses_expect .closeCurly).bind fun _ _ _ =>
      (parses_build (builds_block h.line _)).next fun _ => .pure rfl

theorem parses_functionRest {name name' : String} (hname : L.name name name') {line line' : Nat}
    (hline : L.line line line') :
    L.Parses Eq (functionRest inner name line) (functionRest inner name' line') := by
  have hrest : L.Parses Eq
      (do
        let count ← parametersFrom (← patience) 0
        let _ ← expect .closeParen
        build (.parameters count line)
        let defined := (← kind) = .openCurly
        if defined then
          let _ ← block inner
        else
          let _ ← expect .semicolon
        build (.function name defined line))
      (do
        let count ← parametersFrom (← patience) 0
        let _ ← expect .closeParen
        build (.parameters count line')
        let defined := (← kind) = .openCurly
        if defined then
          let _ ← block inner
        else
          let _ ← expect .semicolon
        build (.function name' defined line')) := by
    refine parses_patience.next fun _ => (parses_parametersFrom _ _).next fun _ =>
      (parses_expect .closeParen).bind fun _ _ _ => (parses_build (builds_parameters hline _)).next fun _ =>
        parses_kind.next fun _ => .ite (fun _ => ?_) fun _ => ?_
    · exact (parses_block hinner).next fun _ => parses_build (builds_function hline hname _)
    · exact (parses_expect .semicolon).bind fun _ _ _ => parses_build (builds_function hline hname _)
  refine (parses_expect .openParen).bind fun _ _ _ => parses_kind.next fun _ =>
    Tracks.get.bind fun parser parser' h => ?_
  rw [h.peek]
  exact .when (fun _ => parses_advance) hrest

theorem parses_declaratorsFrom (base : BaseTy) (constant : Bool) {line line' : Nat}
    (hline : L.line line line') (rounds count : Nat) :
    L.Parses Eq (declaratorsFrom inner base constant line rounds count)
      (declaratorsFrom inner base constant line' rounds count) := by
  induction rounds generalizing count with
  | zero => exact parses_exhausted
  | succ rounds ih =>
    refine (parses_build (builds_type hline _)).next fun _ => .when (fun _ => parses_build builds_const) ?_
    refine (parses_typeSuffix .default).next fun _ => (parses_expectName _).bind fun name name' h => ?_
    refine parses_kind.next fun _ => .ite (fun _ => ?_) fun _ => ?_
    · exact (parses_functionRest hinner h.1 h.2).next fun _ => .pure rfl
    · refine (parses_variableRest h.1 h.2).next fun _ => (parses_accept .comma).next fun _ => ?_
      exact .ite (fun _ => ih _) fun _ => (parses_expect .semicolon).bind fun _ _ _ => .pure rfl

theorem parses_declaration : L.Parses Eq (declaration inner) (declaration inner) :=
  parses_line.bind fun _ _ h => parses_specifier.next fun _ => parses_patience.next fun _ =>
    parses_declaratorsFrom hinner _ _ h _ _

theorem parses_ifStatement : L.Parses Eq (ifStatement inner) (ifStatement inner) := by
  refine parses_advance.bind fun _ _ h => parses_condition.next fun _ => (parses_single hinner).next fun _ =>
    (parses_accept .elseWord).next fun _ => ?_
  exact .when (fun _ => parses_single hinner) ((parses_build (builds_ifElse h.line _)).next fun _ => .pure rfl)

theorem parses_whileStatement : L.Parses Eq (whileStatement inner) (whileStatement inner) :=
  parses_advance.bind fun _ _ h => parses_condition.next fun _ => (parses_single hinner).next fun _ =>
    (parses_build (builds_whileLoop h.line)).next fun _ => .pure rfl

theorem parses_startClause {line line' : Nat} (hline : L.line line line') :
    L.Parses Eq (startClause inner line) (startClause inner line') := by
  refine (parses_accept .semicolon).next fun _ => .ite (fun _ => parses_build builds_nothing) fun _ => ?_
  refine parses_kind.next fun _ => .ite (fun _ => ?_) fun _ => ?_
  · exact (parses_declaration hinner).next fun _ => .ite (fun _ => parses_refuse _) fun _ => .pure rfl
  · exact (parses_expression .default).next fun _ => (parses_expect .semicolon).bind fun _ _ _ =>
      parses_build (builds_exprStatement hline)

theorem parses_forStatement : L.Parses Eq (forStatement inner) (forStatement inner) := by
  refine parses_advance.bind fun word word' h => (parses_expect .openParen).bind fun _ _ _ =>
    (parses_startClause hinner h.line).next fun _ => ?_
  have hbody : L.Parses Eq
      (expect .closeParen >>= fun _ => single inner >>= fun _ => build (.forLoop word.line) >>= fun _ =>
        Pure.pure 1)
      (expect .closeParen >>= fun _ => single inner >>= fun _ => build (.forLoop word'.line) >>= fun _ =>
        Pure.pure 1) :=
    (parses_expect .closeParen).bind fun _ _ _ => (parses_single hinner).next fun _ =>
      (parses_build (builds_forLoop h.line)).next fun _ => .pure rfl
  have hstep : L.Parses Eq
      (do
        let _ ← expect .semicolon
        if (← kind) = .closeParen then build (.nothing word.line) else exprClause word.line
        let _ ← expect .closeParen
        single inner
        build (.forLoop word.line)
        return 1)
      (do
        let _ ← expect .semicolon
        if (← kind) = .closeParen then build (.nothing word'.line) else exprClause word'.line
        let _ ← expect .closeParen
        single inner
        build (.forLoop word'.line)
        return 1) := by
    refine (parses_expect .semicolon).bind fun _ _ _ => parses_kind.next fun _ => .ite (fun _ => ?_) fun _ => ?_
    · exact (parses_build builds_nothing).next fun _ => hbody
    · exact (parses_exprClause h.line).next fun _ => hbody
  refine parses_kind.next fun _ => .ite (fun _ => ?_) fun _ => ?_
  · exact (parses_build builds_nothing).next fun _ => hstep
  · exact (parses_expression .default).next fun _ => hstep

omit hinner in
theorem parses_statementWithin (levels : Nat) :
    L.Parses Eq (statementWithin levels) (statementWithin levels) := by
  induction levels with
  | zero => exact parses_exhausted
  | succ levels ih =>
    refine parses_kind.next fun k => ?_
    cases k with
    | int | char | void | const => exact parses_declaration ih
    | openCurly => exact parses_block ih
    | ifWord => exact parses_ifStatement ih
    | whileWord => exact parses_whileStatement ih
    | forWord => exact parses_forStatement ih
    | returnWord => exact parses_returnStatement
    | breakWord => exact parses_jumpStatement fun _ _ => builds_breakOut
    | continueWord => exact parses_jumpStatement fun _ _ => builds_continueOn
    | semicolon => exact parses_emptyStatement
    | _ => exact parses_exprStatement

omit hinner in
theorem parses_statement : L.Parses Eq statement statement :=
  parses_patience.next fun _ => parses_statementWithin _

end Statement

section File

theorem parses_declarationsFrom (rounds count : Nat) :
    L.Parses Eq (declarationsFrom rounds count) (declarationsFrom rounds count) := by
  induction rounds generalizing count with
  | zero => exact parses_exhausted
  | succ rounds ih =>
    refine Tracks.get.bind fun parser parser' h => ?_
    rw [h.hasTokens]
    refine .ite (fun _ => parses_kind.next fun _ => ?_) fun _ => .pure rfl
    exact .when (V := Eq) (fun _ => parses_refuse _)
      ((parses_declaration parses_statement).next fun _ => ih _)

theorem parses_file : L.Parses Eq file file :=
  parses_patience.next fun _ => (parses_declarationsFrom _ _).next fun _ => parses_build (builds_file _)

/-- Trees of tokens alike are alike. -/
theorem agree_parse {tokens tokens' : List Token} (h : List.Forall₂ L.SameToken tokens tokens')
    (hne : tokens ≠ []) :
    L.Agree (fun forest forest' => L.SameForest forest forest' ∧ L.Lined forest forest')
      (parse tokens) (parse tokens') := by
  have hlast : ∀ {tokens tokens' : List Token}, List.Forall₂ L.SameToken tokens tokens' → tokens ≠ [] →
      L.SameToken (tokens.getLast?.getD (.endOfInput 1)) (tokens'.getLast?.getD (.endOfInput 1)) := by
    intro tokens tokens' h hne
    induction h with
    | nil => exact absurd rfl hne
    | cons htoken hrest ih =>
      cases hrest with
      | nil => exact htoken
      | cons => simpa [List.getLast?_cons_cons] using ih (List.cons_ne_nil _ _)
  have hstart : L.SameParser (Parser.start tokens) (Parser.start tokens') := by
    refine ⟨h, hlast h hne, ⟨rfl, rfl, fun id => ?_⟩, rfl, fun id hid => ?_⟩
    · exact .default
    · rw [Forest.kind, Forest.type?, Forest.node_of_size_le (Nat.zero_le id)] at hid
      exact absurd hid (by decide)
  have hfile := parses_file hstart
  unfold parse
  generalize file (Parser.start tokens) = result, file (Parser.start tokens') = result' at hfile ⊢
  cases hfile with
  | ok _ hparser => exact agree_finish hparser.builder
  | error h => exact .error h

end File

end MiniC.Likeness
