import MiniC.Grammar.Expression
import MiniC.Grammar.TypeName
import MiniC.Proofs.Build.Steps

/-!
# What readers of types and expressions leave

A reader leaves operands of known roles above those that were there, and it has read a token unless
it may find nothing to read. Because every round of a loop and every level of a nesting reads a
token, patience never runs out; what is refused is refused for the tokens that are there.
-/

namespace MiniC

/-- What a cause says where `read` has been read and `token` is in front. It names the token in front,
or the number that has been read last and is out of range. -/
inductive Cause.Names : List Token → Token → Cause → Prop
  | unexpected {read : List Token} {token : Token} : Names read token (.unexpectedToken token.value)
  | explained {read : List Token} {token : Token} (message : String) :
      Names read token (.unexpectedTokenDetailed token.value message)
  | number {front : List Token} {token digits : Token} (hkind : digits.kind = .number)
      (hvalue : Literal.value? false digits.value = none) :
      Names (front ++ [digits]) token (.numberParseError digits.value)
  | negative {front : List Token} {token sign digits : Token} (hsign : sign.kind = .dash)
      (hkind : digits.kind = .number) (hvalue : Literal.value? true digits.value = none) :
      Names (front ++ [sign, digits]) token (.numberParseError ("-" ++ digits.value))

/-- A parser of some tokens stops with a fault that stands on the line of the token in front. -/
structure Fault.StopsAt (tokens : List Token) (fault : Fault) (parser : Parser) : Prop where
  line_eq : fault.line = parser.current.line
  exists_read : ∃ read, read ++ parser.rest = tokens ∧ fault.cause.Names read parser.current

theorem Fault.StopsAt.ordinary {tokens : List Token} {fault : Fault} {parser : Parser}
    (h : fault.StopsAt tokens parser) : fault.Ordinary := by
  obtain ⟨read, -, hnames⟩ := h.exists_read
  intro message hcause
  rw [hcause] at hnames
  cases hnames

/-- What a parser of some tokens has done since its builder was `base`. The end of input is never
passed. -/
structure Parser.Since (tokens : List Token) (base : Builder) (parser : Parser) (roles : List Role) :
    Prop where
  suffix : parser.rest <:+ tokens
  last_eof : parser.last.kind = .eof
  built : base.Since parser.builder [] roles

/-- A parser in front of a token other than the end of input has one. -/
theorem Parser.Since.rest_eq {tokens : List Token} {base : Builder} {parser : Parser}
    {roles : List Role} (h : parser.Since tokens base roles) (hkind : parser.current.kind ≠ .eof) :
    parser.rest = parser.current :: parser.rest.tail := by
  cases hrest : parser.rest with
  | nil => simp [current, hrest, h.last_eof] at hkind
  | cons token rest => simp [current, hrest]

namespace Parse

open Ensures

variable {tokens : List Token} {base : Builder} {parser : Parser}
  {roles rest before after : List Role} {refusal : Fault → Parser → Prop} {α : Type}

@[simp] theorem ensures_current {post : Token → Parser → Prop} :
    Ensures current parser refusal post ↔ post parser.current parser := Iff.rfl

@[simp] theorem ensures_kind {post : TokenKind → Parser → Prop} :
    Ensures kind parser refusal post ↔ post parser.current.kind parser := Iff.rfl

@[simp] theorem ensures_line {post : Nat → Parser → Prop} :
    Ensures line parser refusal post ↔ post parser.current.line parser := Iff.rfl

@[simp] theorem ensures_patience {post : Nat → Parser → Prop} :
    Ensures patience parser refusal post ↔ post (parser.rest.length + 1) parser := Iff.rfl

theorem ensures_unexpected {post : α → Parser → Prop} (h : parser.Since tokens base roles) :
    Ensures unexpected parser (Fault.StopsAt tokens) post := by
  obtain ⟨read, hread⟩ := h.suffix
  exact ⟨rfl, read, hread, .unexpected⟩

theorem ensures_refuse {post : α → Parser → Prop} (message : String)
    (h : parser.Since tokens base roles) :
    Ensures (refuse message) parser (Fault.StopsAt tokens) post := by
  obtain ⟨read, hread⟩ := h.suffix
  exact ⟨rfl, read, hread, .explained message⟩

/-- Reading a token other than the end of input takes it from those in front. -/
theorem ensures_advance_current (h : parser.Since tokens base roles)
    (hkind : parser.current.kind ≠ .eof) :
    Ensures advance parser refusal fun token parser' =>
      token = parser.current ∧ parser.rest = token :: parser'.rest ∧
        parser'.Since tokens base roles :=
  ⟨rfl, h.rest_eq hkind, (List.tail_suffix _).trans h.suffix, h.last_eof, h.built⟩

/-- Reading a token other than the end of input. -/
theorem ensures_advance (h : parser.Since tokens base roles) (hkind : parser.current.kind ≠ .eof) :
    Ensures advance parser refusal fun _ parser' =>
      parser'.rest.length < parser.rest.length ∧ parser'.Since tokens base roles := by
  refine (ensures_advance_current h hkind).imp ?_
  rintro token parser' ⟨-, hrest, h⟩
  refine ⟨?_, h⟩
  rw [hrest, List.length_cons]
  exact Nat.lt_succ_self _

theorem ensures_expect (wanted : TokenKind) (hwanted : wanted ≠ .eof)
    (h : parser.Since tokens base roles) :
    Ensures (expect wanted) parser (Fault.StopsAt tokens) fun _ parser' =>
      parser'.rest.length < parser.rest.length ∧ parser'.Since tokens base roles := by
  simp only [expect, bind_iff, ensures_kind, ite_iff]
  refine ⟨fun hkind => ensures_advance h (by rwa [hkind]), fun _ => ensures_unexpected h⟩

theorem ensures_expectName (message : String) (h : parser.Since tokens base roles) :
    Ensures (expectName message) parser (Fault.StopsAt tokens) fun _ parser' =>
      parser'.rest.length < parser.rest.length ∧ parser'.Since tokens base roles := by
  simp only [expectName, bind_iff, ensures_kind, ite_iff]
  refine ⟨fun hkind => ensures_advance h (by simp [hkind]), fun _ => ensures_refuse message h⟩

/-- Looking for a token reads it if it is there. -/
theorem ensures_accept (wanted : TokenKind) (hwanted : wanted ≠ .eof)
    (h : parser.Since tokens base roles) :
    Ensures (accept wanted) parser (Fault.StopsAt tokens) fun found parser' =>
      (found = true → parser'.rest.length < parser.rest.length) ∧
        parser'.rest.length ≤ parser.rest.length ∧ parser'.Since tokens base roles := by
  simp only [accept, bind_iff, ensures_kind, ite_iff, pure_iff]
  refine ⟨fun hkind => (ensures_advance h (by rwa [hkind])).imp ?_, fun _ => ?_⟩
  · rintro _ parser' ⟨hlt, h⟩
    exact ⟨fun _ => hlt, Nat.le_of_lt hlt, h⟩
  · exact ⟨(by simp), Nat.le_refl _, h⟩

/-- A step of construction reads nothing. -/
theorem ensures_turns {step : Build Unit} (hstep : Build.Turns step before after)
    (h : parser.Since tokens base (before ++ rest)) :
    Ensures (build step) parser (Fault.StopsAt tokens) fun _ parser' =>
      parser'.rest.length = parser.rest.length ∧ parser'.Since tokens base (after ++ rest) := by
  rw [ensures_build]
  exact (hstep h.built).mono (fun _ _ hbuilt => ⟨rfl, h.suffix, h.last_eof, hbuilt⟩)
    fun _ _ hnever => hnever.elim

end Parse

namespace Grammar

open Ensures Parse

variable {tokens : List Token} {base : Builder} {parser : Parser} {roles : List Role}
  {rounds levels count : Nat} {power : Power}

/-! ## Written types -/

theorem ensures_baseType (h : parser.Since tokens base roles) :
    Ensures baseType parser (Fault.StopsAt tokens) fun _ parser' =>
      parser'.rest.length < parser.rest.length ∧ parser'.Since tokens base roles := by
  simp only [baseType, bind_iff, ensures_kind]
  split
  · exact ensures_refuse _ h
  · next name hname =>
    simp only [bind_iff, pure_iff]
    refine ensures_advance h ?_
    intro hkind
    simp [hkind, baseType?] at hname

theorem ensures_plainType (h : parser.Since tokens base roles) :
    Ensures plainType parser (Fault.StopsAt tokens) fun _ parser' =>
      parser'.rest.length < parser.rest.length ∧ parser'.Since tokens base (.type :: roles) := by
  simp only [plainType, bind_iff, ensures_line]
  refine (ensures_baseType h).imp ?_
  rintro name parser₁ ⟨hlt, h⟩
  refine (ensures_turns (Build.turns_base name) h).imp ?_
  rintro _ parser₂ ⟨hrest, h⟩
  exact ⟨by omega, h⟩

theorem ensures_typeSuffixes (hrounds : parser.rest.length < rounds)
    (h : parser.Since tokens base (.type :: roles)) :
    Ensures (typeSuffixes power rounds) parser (Fault.StopsAt tokens) fun _ parser' =>
      parser'.rest.length ≤ parser.rest.length ∧ parser'.Since tokens base (.type :: roles) := by
  induction rounds generalizing parser with
  | zero => omega
  | succ rounds ih =>
    have hround : ∀ {step : Nat → Build Unit},
        (∀ line, Build.Turns (step line) [.type] [.type]) → parser.current.kind ≠ .eof →
        Ensures (do let token ← advance; build (step token.line); typeSuffixes power rounds) parser
          (Fault.StopsAt tokens) fun _ parser' => parser'.rest.length ≤ parser.rest.length ∧
            parser'.Since tokens base (.type :: roles) := by
      intro step hstep hkind
      simp only [bind_iff]
      refine (ensures_advance h hkind).imp ?_
      rintro token parser₁ ⟨hlt, h⟩
      refine (ensures_turns (hstep token.line) h).imp ?_
      rintro _ parser₂ ⟨hrest, h⟩
      refine (ih (by omega) h).imp ?_
      rintro _ parser₃ ⟨hle, h⟩
      exact ⟨by omega, h⟩
    simp only [typeSuffixes, ite_iff, bind_iff, ensures_kind, pure_iff]
    refine ⟨fun _ => ?_, fun _ => ⟨Nat.le_refl _, h⟩⟩
    split
    · next hkind => exact hround (fun _ => Build.turns_pointerType) (by simp [hkind])
    · next hkind => exact hround (fun _ => Build.turns_const) (by simp [hkind])
    · exact ⟨Nat.le_refl _, h⟩

theorem ensures_typeSuffix (h : parser.Since tokens base (.type :: roles)) :
    Ensures (typeSuffix power) parser (Fault.StopsAt tokens) fun _ parser' =>
      parser'.rest.length ≤ parser.rest.length ∧ parser'.Since tokens base (.type :: roles) := by
  simp only [typeSuffix, bind_iff, ensures_patience]
  exact ensures_typeSuffixes (Nat.lt_succ_self _) h

theorem ensures_typeName (h : parser.Since tokens base roles) :
    Ensures (typeName power) parser (Fault.StopsAt tokens) fun _ parser' =>
      parser'.rest.length < parser.rest.length ∧ parser'.Since tokens base (.type :: roles) := by
  have hsuffix : ∀ {parser' : Parser}, parser'.rest.length < parser.rest.length →
      parser'.Since tokens base (.type :: roles) →
      Ensures (typeSuffix power) parser' (Fault.StopsAt tokens) fun _ parser' =>
        parser'.rest.length < parser.rest.length ∧ parser'.Since tokens base (.type :: roles) := by
    intro parser' hlt h
    refine (ensures_typeSuffix h).imp ?_
    rintro _ parser'' ⟨hle, h⟩
    exact ⟨by omega, h⟩
  have hplain : Ensures (do plainType; typeSuffix power) parser (Fault.StopsAt tokens) fun _ parser' =>
      parser'.rest.length < parser.rest.length ∧ parser'.Since tokens base (.type :: roles) := by
    simp only [bind_iff]
    exact (ensures_plainType h).imp fun _ _ hread => hsuffix hread.1 hread.2
  simp only [typeName, bind_iff, ensures_kind]
  split
  · exact hplain
  · exact hplain
  · exact hplain
  · next hkind =>
    simp only [bind_iff]
    refine (ensures_advance h (by simp [hkind])).imp ?_
    rintro token parser₁ ⟨hlt, h⟩
    refine (ensures_plainType h).imp ?_
    rintro _ parser₂ ⟨hlt', h⟩
    refine (ensures_turns Build.turns_const h).imp ?_
    rintro _ parser₃ ⟨hrest, h⟩
    exact hsuffix (by omega) h
  · simp only [bind_iff]
    exact ensures_refuse _ h

/-! ## Expressions -/

/-- A reader of expressions that copes with fewer than `levels` tokens. -/
def ReadsExpressions (inner : Power → Parse Unit) (levels : Nat) : Prop :=
  ∀ {tokens : List Token} {base : Builder} {parser : Parser} {roles : List Role} {power : Power},
    parser.rest.length < levels → parser.Since tokens base roles →
    Ensures (inner power) parser (Fault.StopsAt tokens) fun _ parser' =>
      parser'.rest.length < parser.rest.length ∧ parser'.Since tokens base (.expression :: roles)

variable {inner : Power → Parse Unit}

theorem ensures_literal {negative : Bool} {digits : String} {line : Nat}
    (hrefused : Literal.value? negative digits = none →
      Fault.StopsAt tokens
        ⟨.numberParseError (if negative then "-" ++ digits else digits), parser.current.line⟩ parser)
    (h : parser.Since tokens base roles) :
    Ensures (literal negative digits line) parser (Fault.StopsAt tokens) fun _ parser' =>
      parser'.rest.length = parser.rest.length ∧ parser'.Since tokens base (.expression :: roles) := by
  simp only [literal]
  split
  · next value _ => exact ensures_turns (Build.turns_int value) h
  · next hvalue =>
    simp only [bind_iff, ensures_line, throw_iff]
    exact hrefused hvalue

theorem ensures_argumentsFrom (hinner : ReadsExpressions inner levels)
    (hlevels : parser.rest.length < levels) (hrounds : parser.rest.length < rounds)
    (h : parser.Since tokens base (.replicate count .expression ++ roles)) :
    Ensures (argumentsFrom inner rounds count) parser (Fault.StopsAt tokens) fun total parser' =>
      parser'.rest.length ≤ parser.rest.length ∧
        parser'.Since tokens base (.replicate total .expression ++ roles) := by
  induction rounds generalizing parser count with
  | zero => omega
  | succ rounds ih =>
    have hround : ∀ {parser' : Parser}, parser'.rest.length ≤ parser.rest.length →
        parser'.Since tokens base (.replicate count .expression ++ roles) →
        Ensures (do inner .comma; argumentsFrom inner rounds (count + 1)) parser' (Fault.StopsAt tokens)
          fun total parser' => parser'.rest.length ≤ parser.rest.length ∧
            parser'.Since tokens base (.replicate total .expression ++ roles) := by
      intro parser' hle h
      simp only [bind_iff]
      refine (hinner (by omega) h).imp ?_
      rintro _ parser₁ ⟨hlt, h⟩
      refine (ih (by omega) (by omega) h).imp ?_
      rintro total parser₂ ⟨hle', h⟩
      exact ⟨by omega, h⟩
    simp only [argumentsFrom, bind_iff, ensures_kind, ite_iff, pure_iff]
    refine ⟨fun _ => ⟨Nat.le_refl _, h⟩, fun _ => ⟨fun _ => ?_, fun _ => ?_⟩⟩
    · refine (ensures_expect .comma (by simp) h).imp ?_
      rintro _ parser₁ ⟨hlt, h⟩
      simpa only [bind_iff] using hround (Nat.le_of_lt hlt) h
    · simpa only [bind_iff] using hround (Nat.le_refl _) h

theorem ensures_arguments (hinner : ReadsExpressions inner levels)
    (hlevels : parser.rest.length ≤ levels) (h : parser.Since tokens base roles) :
    Ensures (arguments inner) parser (Fault.StopsAt tokens) fun total parser' =>
      parser'.rest.length < parser.rest.length ∧
        parser'.Since tokens base (.replicate total .expression ++ roles) := by
  simp only [arguments, bind_iff, ensures_patience, pure_iff]
  refine (ensures_expect .openParen (by simp) h).imp ?_
  rintro _ parser₁ ⟨hlt, h⟩
  refine (ensures_argumentsFrom hinner (by omega) (Nat.lt_succ_self _) h).imp ?_
  rintro total parser₂ ⟨hle, h⟩
  refine (ensures_expect .closeParen (by simp) h).imp ?_
  rintro _ parser₃ ⟨hlt', h⟩
  exact ⟨by omega, h⟩

theorem ensures_group (hinner : ReadsExpressions inner levels)
    (hlevels : parser.rest.length ≤ levels) (h : parser.Since tokens base roles) :
    Ensures (group inner) parser (Fault.StopsAt tokens) fun _ parser' =>
      parser'.rest.length < parser.rest.length ∧ parser'.Since tokens base (.expression :: roles) := by
  simp only [group, bind_iff, ensures_kind, ite_iff, pure_iff]
  refine (ensures_expect .openParen (by simp) h).imp ?_
  rintro opening parser₁ ⟨hlt, h⟩
  refine ⟨fun _ => ?_, fun _ => ?_⟩
  · refine (ensures_typeName h).imp ?_
    rintro _ parser₂ ⟨hlt', h⟩
    refine (ensures_expect .closeParen (by simp) h).imp ?_
    rintro _ parser₃ ⟨hlt'', h⟩
    refine (hinner (by omega) h).imp ?_
    rintro _ parser₄ ⟨hless, h⟩
    refine (ensures_turns Build.turns_cast h).imp ?_
    rintro _ parser₅ ⟨hrest, h⟩
    exact ⟨by omega, h⟩
  · refine (hinner (by omega) h).imp ?_
    rintro _ parser₂ ⟨hlt', h⟩
    refine (ensures_expect .closeParen (by simp) h).imp ?_
    rintro _ parser₃ ⟨hlt'', h⟩
    exact ⟨by omega, h⟩

theorem kind_of_leading?_negate {kind : TokenKind} (h : leading? kind = some .negate) :
    kind = .dash := by
  cases kind <;> simp [leading?] at h ⊢

theorem ensures_leading {op : UnaryOp} (hinner : ReadsExpressions inner levels)
    (hlevels : parser.rest.length ≤ levels) (hop : leading? parser.current.kind = some op)
    (h : parser.Since tokens base roles) :
    Ensures (leading inner op) parser (Fault.StopsAt tokens) fun _ parser' =>
      parser'.rest.length < parser.rest.length ∧ parser'.Since tokens base (.expression :: roles) := by
  have hkind : parser.current.kind ≠ .eof := by
    intro hkind
    simp [hkind, leading?] at hop
  obtain ⟨front, htokens⟩ := h.suffix
  simp only [leading, bind_iff, ensures_kind, ite_iff]
  refine (ensures_advance_current h hkind).imp ?_
  rintro sign parser₁ ⟨hsign, hrest, h⟩
  refine ⟨fun hnumber => ?_, fun _ => ?_⟩
  · refine (ensures_advance_current h (by simp [hnumber.2])).imp ?_
    rintro digits parser₂ ⟨hdigits, hrest', h⟩
    have hread : (front ++ [sign, digits]) ++ parser₂.rest = tokens := by
      rw [← htokens, hrest, hrest', List.append_assoc, List.cons_append, List.singleton_append]
    have hdash : sign.kind = .dash := hsign ▸ kind_of_leading?_negate (hnumber.1 ▸ hop)
    have hnames := @Cause.Names.negative front parser₂.current sign digits hdash (hdigits ▸ hnumber.2)
    refine (ensures_literal (fun hvalue => ⟨rfl, _, hread, hnames hvalue⟩) h).imp ?_
    rintro _ parser₃ ⟨heq, h⟩
    rw [hrest, hrest', List.length_cons, List.length_cons]
    exact ⟨by omega, h⟩
  · refine (hinner ?_ h).imp ?_
    · rw [hrest, List.length_cons] at hlevels
      omega
    · rintro _ parser₂ ⟨hlt, h⟩
      refine (ensures_turns (Build.turns_unary op) h).imp ?_
      rintro _ parser₃ ⟨heq, h⟩
      rw [hrest, List.length_cons]
      exact ⟨by omega, h⟩

theorem ensures_operand (hinner : ReadsExpressions inner levels)
    (hlevels : parser.rest.length ≤ levels) (h : parser.Since tokens base roles) :
    Ensures (operand inner) parser (Fault.StopsAt tokens) fun _ parser' =>
      parser'.rest.length < parser.rest.length ∧ parser'.Since tokens base (.expression :: roles) := by
  have hleaf : ∀ {step : Build Unit}, Build.Turns step [] [.expression] →
      parser.current.kind ≠ .eof →
      Ensures (do let _ ← advance; build step) parser (Fault.StopsAt tokens) fun _ parser' =>
        parser'.rest.length < parser.rest.length ∧ parser'.Since tokens base (.expression :: roles) := by
    intro step hstep hkind
    simp only [bind_iff]
    refine (ensures_advance h hkind).imp ?_
    rintro _ parser₁ ⟨hlt, h⟩
    refine (ensures_turns hstep h).imp ?_
    rintro _ parser₂ ⟨hrest, h⟩
    exact ⟨by omega, h⟩
  simp only [operand, bind_iff, ensures_current]
  split
  · next hkind =>
    obtain ⟨front, htokens⟩ := h.suffix
    simp only [bind_iff]
    refine (ensures_advance_current h (by simp [hkind])).imp ?_
    rintro _ parser₁ ⟨rfl, hrest, h⟩
    have hread : (front ++ [parser.current]) ++ parser₁.rest = tokens := by
      rw [← htokens, hrest, List.append_assoc, List.singleton_append]
    have hnames := @Cause.Names.number front parser₁.current parser.current hkind
    refine (ensures_literal (fun hvalue => ⟨rfl, _, hread, hnames hvalue⟩) h).imp ?_
    rintro _ parser₂ ⟨heq, h⟩
    rw [hrest, List.length_cons]
    exact ⟨by omega, h⟩
  · next hkind => exact hleaf (Build.turns_char _) (by simp [hkind])
  · next hkind => exact hleaf (Build.turns_string _) (by simp [hkind])
  · next hkind =>
    simp only [bind_iff, ensures_kind, ite_iff]
    refine (ensures_advance h (by simp [hkind])).imp ?_
    rintro _ parser₁ ⟨hlt, h⟩
    refine ⟨fun _ => ?_, fun _ => ?_⟩
    · refine (ensures_arguments hinner (by omega) h).imp ?_
      rintro total parser₂ ⟨hlt', h⟩
      refine (ensures_turns (Build.turns_call _ total) h).imp ?_
      rintro _ parser₃ ⟨hrest, h⟩
      exact ⟨by omega, h⟩
    · refine (ensures_turns (Build.turns_identifier _) h).imp ?_
      rintro _ parser₂ ⟨hrest, h⟩
      exact ⟨by omega, h⟩
  · exact ensures_group hinner hlevels h
  · split
    · next op hop => exact ensures_leading hinner hlevels hop h
    · exact ensures_unexpected h

theorem ensures_continueWith {continuation : Continuation} (hinner : ReadsExpressions inner levels)
    (hlevels : parser.rest.length ≤ levels) (hkind : parser.current.kind ≠ .eof)
    (h : parser.Since tokens base (.expression :: roles)) :
    Ensures (continueWith inner power continuation) parser (Fault.StopsAt tokens) fun _ parser' =>
      parser'.rest.length < parser.rest.length ∧ parser'.Since tokens base (.expression :: roles) := by
  have hbinary : ∀ {power op}, Ensures
      (do let sign ← advance; inner power; build (.binary op sign.line)) parser (Fault.StopsAt tokens)
      fun _ parser' => parser'.rest.length < parser.rest.length ∧
        parser'.Since tokens base (.expression :: roles) := by
    intro power op
    simp only [bind_iff]
    refine (ensures_advance h hkind).imp ?_
    rintro sign parser₁ ⟨hlt, h⟩
    refine (hinner (by omega) h).imp ?_
    rintro _ parser₂ ⟨hlt', h⟩
    refine (ensures_turns (Build.turns_binary op) h).imp ?_
    rintro _ parser₃ ⟨hrest, h⟩
    exact ⟨by omega, h⟩
  cases continuation with
  | assign => exact hbinary
  | binary op => exact hbinary
  | subscript =>
    simp only [continueWith, bind_iff]
    refine (ensures_advance h hkind).imp ?_
    rintro opening parser₁ ⟨hlt, h⟩
    refine (hinner (by omega) h).imp ?_
    rintro _ parser₂ ⟨hlt', h⟩
    refine (ensures_expect .closeBracket (by simp) h).imp ?_
    rintro _ parser₃ ⟨hlt'', h⟩
    refine (ensures_turns Build.turns_subscript h).imp ?_
    rintro _ parser₄ ⟨hrest, h⟩
    exact ⟨by omega, h⟩
  | step direction =>
    simp only [continueWith, bind_iff]
    refine (ensures_advance h hkind).imp ?_
    rintro sign parser₁ ⟨hlt, h⟩
    refine (ensures_turns (Build.turns_unary _) h).imp ?_
    rintro _ parser₂ ⟨hrest, h⟩
    exact ⟨by omega, h⟩

theorem ensures_operators (hinner : ReadsExpressions inner levels)
    (hlevels : parser.rest.length ≤ levels) (hrounds : parser.rest.length < rounds)
    (h : parser.Since tokens base (.expression :: roles)) :
    Ensures (operators inner power rounds) parser (Fault.StopsAt tokens) fun _ parser' =>
      parser'.rest.length ≤ parser.rest.length ∧ parser'.Since tokens base (.expression :: roles) := by
  induction rounds generalizing parser with
  | zero => omega
  | succ rounds ih =>
    simp only [operators, bind_iff, ensures_kind]
    split
    · exact ⟨Nat.le_refl _, h⟩
    · next strength continuation hcontinuation =>
      simp only [ite_iff, pure_iff, bind_iff]
      refine ⟨fun _ => ⟨Nat.le_refl _, h⟩, fun _ => ?_⟩
      refine (ensures_continueWith hinner hlevels ?_ h).imp ?_
      · intro hkind
        simp [hkind, continuation?] at hcontinuation
      · rintro _ parser₁ ⟨hlt, h⟩
        refine (ih (by omega) (by omega) h).imp ?_
        rintro _ parser₂ ⟨hle, h⟩
        exact ⟨by omega, h⟩

/-- Every level of nesting reads a token, so as many levels as there are tokens are enough. -/
theorem readsExpressions_expressionWithin (levels : Nat) :
    ReadsExpressions (expressionWithin levels) levels := by
  induction levels with
  | zero =>
    intro tokens base parser roles power hlt
    omega
  | succ levels ih =>
    intro tokens base parser roles power hlt h
    simp only [expressionWithin, bind_iff, ensures_patience]
    refine (ensures_operand ih (by omega) h).imp ?_
    rintro _ parser₁ ⟨hlt', h⟩
    refine (ensures_operators ih (by omega) (Nat.lt_succ_self _) h).imp ?_
    rintro _ parser₂ ⟨hle, h⟩
    exact ⟨by omega, h⟩

theorem ensures_expression (h : parser.Since tokens base roles) :
    Ensures (expression power) parser (Fault.StopsAt tokens) fun _ parser' =>
      parser'.rest.length < parser.rest.length ∧ parser'.Since tokens base (.expression :: roles) := by
  simp only [expression, bind_iff, ensures_patience]
  exact readsExpressions_expressionWithin _ (Nat.lt_succ_self _) h

end Grammar

end MiniC
