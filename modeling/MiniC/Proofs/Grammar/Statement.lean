import MiniC.Grammar.File
import MiniC.Proofs.Grammar.Expression

/-!
# What readers of statements leave

A reader of statements leaves as many operands as it says, all of which can stand as a statement. A
source that can be read gives a parsed forest, and one that cannot is refused with an ordinary
fault.
-/

namespace MiniC.Grammar

open Ensures Parse

variable {tokens : List Token} {base : Builder} {parser : Parser} {roles : List Role}
  {rounds levels count line : Nat}

/-! ## Variables and parameters -/

theorem ensures_specifier (h : parser.Since tokens base roles) :
    Ensures specifier parser (Fault.StopsAt tokens) fun _ parser' =>
      parser'.rest.length < parser.rest.length ∧ parser'.Since tokens base roles := by
  simp only [specifier, bind_iff, pure_iff]
  refine (ensures_accept .const (by simp) h).imp ?_
  rintro before parser₁ ⟨-, hle, h⟩
  refine (ensures_baseType h).imp ?_
  rintro name parser₂ ⟨hlt, h⟩
  refine (ensures_accept .const (by simp) h).imp ?_
  rintro after parser₃ ⟨-, hle', h⟩
  exact ⟨by omega, h⟩

theorem ensures_itemsFrom (hrounds : parser.rest.length < rounds)
    (h : parser.Since tokens base (.replicate count .expression ++ roles)) :
    Ensures (itemsFrom rounds count) parser (Fault.StopsAt tokens) fun total parser' =>
      parser'.rest.length ≤ parser.rest.length ∧
        parser'.Since tokens base (.replicate total .expression ++ roles) := by
  induction rounds generalizing parser count with
  | zero => omega
  | succ rounds ih =>
    have hround : ∀ {parser' : Parser}, parser'.rest.length ≤ parser.rest.length →
        parser'.Since tokens base (.replicate count .expression ++ roles) →
        Ensures (do expression .comma; itemsFrom rounds (count + 1)) parser' (Fault.StopsAt tokens)
          fun total parser' => parser'.rest.length ≤ parser.rest.length ∧
            parser'.Since tokens base (.replicate total .expression ++ roles) := by
      intro parser' hle h
      simp only [bind_iff]
      refine (ensures_expression h).imp ?_
      rintro _ parser₁ ⟨hlt, h⟩
      refine (ih (by omega) h).imp ?_
      rintro total parser₂ ⟨hle', h⟩
      exact ⟨by omega, h⟩
    simp only [bind_iff] at hround
    simp only [itemsFrom, bind_iff, ensures_kind, ite_iff, pure_iff]
    refine ⟨fun _ => ⟨Nat.le_refl _, h⟩, fun _ => ⟨fun _ => ?_, fun _ => hround (Nat.le_refl _) h⟩⟩
    refine (ensures_expect .comma (by simp) h).imp ?_
    rintro _ parser₁ ⟨hlt, h⟩
    exact ⟨fun _ => ⟨by omega, h⟩, fun _ => hround (Nat.le_of_lt hlt) h⟩

theorem ensures_initializerList (h : parser.Since tokens base roles) :
    Ensures initializerList parser (Fault.StopsAt tokens) fun _ parser' =>
      parser'.rest.length < parser.rest.length ∧ parser'.Since tokens base (.initializers :: roles) := by
  simp only [initializerList, bind_iff, ensures_patience]
  refine (ensures_expect .openCurly (by simp) h).imp ?_
  rintro opening parser₁ ⟨hlt, h⟩
  refine (ensures_itemsFrom (Nat.lt_succ_self _) h).imp ?_
  rintro total parser₂ ⟨hle, h⟩
  refine (ensures_expect .closeCurly (by simp) h).imp ?_
  rintro _ parser₃ ⟨hlt', h⟩
  refine (ensures_turns (Build.turns_initializers total) h).imp ?_
  rintro _ parser₄ ⟨hrest, h⟩
  exact ⟨by omega, h⟩

theorem ensures_arraySize (h : parser.Since tokens base roles) :
    Ensures arraySize parser (Fault.StopsAt tokens) fun _ parser' =>
      parser'.rest.length ≤ parser.rest.length ∧ parser'.Since tokens base roles := by
  simp only [arraySize, bind_iff, ensures_kind, ite_iff, pure_iff]
  refine ⟨fun hkind => ?_, fun _ => ⟨Nat.le_refl _, h⟩⟩
  refine (ensures_advance h (by simp [hkind])).imp ?_
  rintro digits parser₁ ⟨hlt, h⟩
  split
  · exact ⟨Nat.le_of_lt hlt, h⟩
  · exact ensures_refuse _ h

/-- The initializer of a variable behind its type, which may be that of an array. -/
theorem ensures_initialized (name : String) (line : Nat) {written : Role} {bound : Nat}
    (hbound : parser.rest.length ≤ bound) (hwritten : written = .type ∨ written = .array)
    (h : parser.Since tokens base (written :: roles)) :
    Ensures
      (do
        let initialized ← accept .assignment
        if initialized then
          if (← kind) = .openCurly then initializerList else expression .comma
        build (.declaration name initialized line)) parser (Fault.StopsAt tokens) fun _ parser' =>
      parser'.rest.length ≤ bound ∧ parser'.Since tokens base (.declaration :: roles) := by
  have hbuild : ∀ {parser' : Parser} {initial : Role}, parser'.rest.length ≤ bound →
      initial = .expression ∨ initial = .initializers →
      parser'.Since tokens base (initial :: written :: roles) →
      Ensures (build (.declaration name true line)) parser' (Fault.StopsAt tokens) fun _ parser'' =>
        parser''.rest.length ≤ bound ∧ parser''.Since tokens base (.declaration :: roles) := by
    intro parser' initial hle hinitial h
    refine (ensures_turns (Build.turns_declaration name hinitial hwritten) h).imp ?_
    rintro _ parser'' ⟨hrest, h⟩
    exact ⟨by omega, h⟩
  simp only [bind_iff, ite_iff, ensures_kind]
  refine (ensures_accept .assignment (by simp) h).imp ?_
  rintro initialized parser₁ ⟨-, hle, h⟩
  refine ⟨?_, ?_⟩
  · rintro rfl
    refine ⟨fun _ => ?_, fun _ => ?_⟩
    · refine (ensures_initializerList h).imp ?_
      rintro _ parser₂ ⟨hlt, h⟩
      exact hbuild (by omega) (.inr rfl) h
    · refine (ensures_expression h).imp ?_
      rintro _ parser₂ ⟨hlt, h⟩
      exact hbuild (by omega) (.inl rfl) h
  · intro hnot
    obtain rfl : initialized = false := by simpa using hnot
    refine (ensures_turns (Build.turns_declaration name (.inl rfl) hwritten) h).imp ?_
    rintro _ parser₂ ⟨hrest, h⟩
    exact ⟨by omega, h⟩

theorem ensures_variableRest {name : String} (h : parser.Since tokens base (.type :: roles)) :
    Ensures (variableRest name line) parser (Fault.StopsAt tokens) fun _ parser' =>
      parser'.rest.length ≤ parser.rest.length ∧ parser'.Since tokens base (.declaration :: roles) := by
  simp only [variableRest, bind_iff, ite_iff]
  refine (ensures_accept .openBracket (by simp) h).imp ?_
  rintro bracket parser₁ ⟨-, hle, h⟩
  refine ⟨fun _ => ?_, fun _ => ?_⟩
  · refine (ensures_arraySize h).imp ?_
    rintro size parser₂ ⟨hle', h⟩
    refine (ensures_expect .closeBracket (by simp) h).imp ?_
    rintro _ parser₃ ⟨hlt, h⟩
    refine (ensures_turns (Build.turns_arrayType size) h).imp ?_
    rintro _ parser₄ ⟨hrest, h⟩
    have hbound : parser₄.rest.length ≤ parser.rest.length := by omega
    have h : parser₄.Since tokens base (.array :: roles) := h
    simpa only [bind_iff, ite_iff] using ensures_initialized name line hbound (.inr rfl) h
  · simpa only [bind_iff, ite_iff] using ensures_initialized name line hle (.inl rfl) h

theorem ensures_parameter (h : parser.Since tokens base roles) :
    Ensures parameter parser (Fault.StopsAt tokens) fun _ parser' =>
      parser'.rest.length < parser.rest.length ∧ parser'.Since tokens base (.parameter :: roles) := by
  simp only [parameter, bind_iff, ite_iff]
  refine (ensures_typeName h).imp ?_
  rintro _ parser₁ ⟨hlt, h⟩
  refine (ensures_expectName _ h).imp ?_
  rintro name parser₂ ⟨hlt', h⟩
  refine (ensures_accept .openBracket (by simp) h).imp ?_
  rintro bracket parser₃ ⟨-, hle, h⟩
  refine ⟨fun _ => ?_, fun _ => ?_⟩
  · refine (ensures_accept .number (by simp) h).imp ?_
    rintro _ parser₄ ⟨-, hle', h⟩
    refine (ensures_expect .closeBracket (by simp) h).imp ?_
    rintro _ parser₅ ⟨hlt'', h⟩
    refine (ensures_turns Build.turns_pointerType h).imp ?_
    rintro _ parser₆ ⟨hrest, h⟩
    refine (ensures_turns (Build.turns_parameter _) h).imp ?_
    rintro _ parser₇ ⟨hrest', h⟩
    exact ⟨by omega, h⟩
  · refine (ensures_turns (Build.turns_parameter _) h).imp ?_
    rintro _ parser₄ ⟨hrest, h⟩
    exact ⟨by omega, h⟩

theorem ensures_parametersFrom (hrounds : parser.rest.length < rounds)
    (h : parser.Since tokens base (.replicate count .parameter ++ roles)) :
    Ensures (parametersFrom rounds count) parser (Fault.StopsAt tokens) fun total parser' =>
      parser'.rest.length ≤ parser.rest.length ∧
        parser'.Since tokens base (.replicate total .parameter ++ roles) := by
  induction rounds generalizing parser count with
  | zero => omega
  | succ rounds ih =>
    have hround : ∀ {parser' : Parser}, parser'.rest.length ≤ parser.rest.length →
        parser'.Since tokens base (.replicate count .parameter ++ roles) →
        Ensures (do parameter; parametersFrom rounds (count + 1)) parser' (Fault.StopsAt tokens)
          fun total parser' => parser'.rest.length ≤ parser.rest.length ∧
            parser'.Since tokens base (.replicate total .parameter ++ roles) := by
      intro parser' hle h
      simp only [bind_iff]
      refine (ensures_parameter h).imp ?_
      rintro _ parser₁ ⟨hlt, h⟩
      refine (ih (by omega) h).imp ?_
      rintro total parser₂ ⟨hle', h⟩
      exact ⟨by omega, h⟩
    simp only [bind_iff] at hround
    simp only [parametersFrom, bind_iff, ensures_kind, ite_iff, pure_iff]
    refine ⟨fun _ => ⟨Nat.le_refl _, h⟩, fun _ => ⟨fun _ => ?_, fun _ => hround (Nat.le_refl _) h⟩⟩
    refine (ensures_expect .comma (by simp) h).imp ?_
    rintro _ parser₁ ⟨hlt, h⟩
    exact hround (Nat.le_of_lt hlt) h

/-! ## Statements -/

/-- A reader of statements that copes with fewer than `levels` tokens: it reads some, and answers
how many statements it has left. -/
def ReadsStatements (inner : Parse Nat) (levels : Nat) : Prop :=
  ∀ {tokens : List Token} {base : Builder} {parser : Parser} {roles : List Role},
    parser.rest.length < levels → parser.Since tokens base roles →
    Ensures inner parser (Fault.StopsAt tokens) fun count parser' =>
      parser'.rest.length < parser.rest.length ∧
        ∃ left : List Role, left.length = count ∧ (∀ role ∈ left, role.IsStatement) ∧
          parser'.Since tokens base (left ++ roles)

variable {inner : Parse Nat}

/-- A reader that leaves one statement. -/
theorem one_statement (role : Role) (hrole : role.IsStatement)
    (h : parser.Since tokens base (role :: roles)) :
    ∃ left : List Role, left.length = 1 ∧ (∀ role ∈ left, role.IsStatement) ∧
      parser.Since tokens base (left ++ roles) :=
  ⟨[role], rfl, by simpa using hrole, h⟩

theorem ensures_single (hinner : ReadsStatements inner levels)
    (hlevels : parser.rest.length < levels) (h : parser.Since tokens base roles) :
    Ensures (single inner) parser (Fault.StopsAt tokens) fun _ parser' =>
      parser'.rest.length < parser.rest.length ∧
        ∃ role : Role, role.IsStatement ∧ parser'.Since tokens base (role :: roles) := by
  simp only [single, bind_iff, ensures_line, ite_iff, pure_iff]
  refine (hinner hlevels h).imp ?_
  rintro count parser₁ ⟨hlt, left, hcount, hleft, h⟩
  refine ⟨fun _ => ?_, fun hone => ?_⟩
  · refine (ensures_turns (Build.turns_block hcount hleft) h).imp ?_
    rintro _ parser₂ ⟨hrest, h⟩
    exact ⟨by omega, .block, trivial, h⟩
  · obtain ⟨role, rfl⟩ := List.length_eq_one_iff.mp (hcount.trans (not_not.mp hone))
    exact ⟨hlt, role, hleft role List.mem_cons_self, h⟩

theorem ensures_statementsFrom (hinner : ReadsStatements inner levels)
    (hlevels : parser.rest.length < levels) (hrounds : parser.rest.length < rounds)
    (left : List Role) (hcount : left.length = count) (hleft : ∀ role ∈ left, role.IsStatement)
    (h : parser.Since tokens base (left ++ roles)) :
    Ensures (statementsFrom inner rounds count) parser (Fault.StopsAt tokens) fun total parser' =>
      parser'.rest.length ≤ parser.rest.length ∧
        ∃ left : List Role, left.length = total ∧ (∀ role ∈ left, role.IsStatement) ∧
          parser'.Since tokens base (left ++ roles) := by
  induction rounds generalizing parser count left with
  | zero => omega
  | succ rounds ih =>
    simp only [statementsFrom, bind_iff, get_iff, ensures_kind, ite_iff, pure_iff]
    refine ⟨fun _ => ?_, fun _ => ⟨Nat.le_refl _, left, hcount, hleft, h⟩⟩
    refine (hinner hlevels h).imp ?_
    rintro more parser₁ ⟨hlt, new, hmore, hnew, h⟩
    rw [← List.append_assoc] at h
    have hall : ∀ role ∈ new ++ left, role.IsStatement := by
      intro role hrole
      rcases List.mem_append.mp hrole with hrole | hrole
      · exact hnew role hrole
      · exact hleft role hrole
    refine (ih (by omega) (by omega) _ (by simp [hmore, hcount, Nat.add_comm]) hall h).imp ?_
    rintro total parser₂ ⟨hle, hrest⟩
    exact ⟨by omega, hrest⟩

theorem ensures_block (hinner : ReadsStatements inner levels)
    (hlevels : parser.rest.length ≤ levels) (h : parser.Since tokens base roles) :
    Ensures (block inner) parser (Fault.StopsAt tokens) fun count parser' =>
      count = 1 ∧ parser'.rest.length < parser.rest.length ∧
        parser'.Since tokens base (.block :: roles) := by
  simp only [block, bind_iff, ensures_patience, pure_iff]
  refine (ensures_expect .openCurly (by simp) h).imp ?_
  rintro opening parser₁ ⟨hlt, h⟩
  refine (ensures_statementsFrom hinner (by omega) (Nat.lt_succ_self _) [] rfl (by simp) h).imp ?_
  rintro total parser₂ ⟨hle, left, hcount, hleft, h⟩
  refine (ensures_expect .closeCurly (by simp) h).imp ?_
  rintro _ parser₃ ⟨hlt', h⟩
  refine (ensures_turns (Build.turns_block hcount hleft) h).imp ?_
  rintro _ parser₄ ⟨hrest, h⟩
  exact ⟨trivial, by omega, h⟩

/-! ## Declarations -/

theorem ensures_functionRest {name : String} (hinner : ReadsStatements inner levels)
    (hlevels : parser.rest.length ≤ levels) (h : parser.Since tokens base (.type :: roles)) :
    Ensures (functionRest inner name line) parser (Fault.StopsAt tokens) fun _ parser' =>
      parser'.rest.length < parser.rest.length ∧ parser'.Since tokens base (.function :: roles) := by
  have hrest : ∀ {parser₁ : Parser}, parser₁.rest.length < parser.rest.length →
      parser₁.Since tokens base (.type :: roles) → Ensures
        (do
          let count ← parametersFrom (← patience) 0
          let _ ← expect .closeParen
          build (.parameters count line)
          let defined := (← kind) = .openCurly
          if defined then
            let _ ← block inner
          else
            let _ ← expect .semicolon
          build (.function name defined line)) parser₁ (Fault.StopsAt tokens) fun _ parser' =>
        parser'.rest.length < parser.rest.length ∧ parser'.Since tokens base (.function :: roles) := by
    intro parser₁ hlt h
    simp only [bind_iff, ensures_patience, ensures_kind, ite_iff]
    refine (ensures_parametersFrom (Nat.lt_succ_self _) h).imp ?_
    rintro count parser₂ ⟨hle, h⟩
    refine (ensures_expect .closeParen (by simp) h).imp ?_
    rintro _ parser₃ ⟨hlt', h⟩
    refine (ensures_turns (Build.turns_parameters count) h).imp ?_
    rintro _ parser₄ ⟨hrest, h⟩
    refine ⟨fun hcurly => ?_, fun hcurly => ?_⟩
    · refine (ensures_block hinner (by omega) h).imp ?_
      rintro _ parser₅ ⟨-, hlt'', h⟩
      rw [decide_eq_true hcurly]
      refine (ensures_turns (Build.turns_function name true) h).imp ?_
      rintro _ parser₆ ⟨hrest', h⟩
      exact ⟨by omega, h⟩
    · refine (ensures_expect .semicolon (by simp) h).imp ?_
      rintro _ parser₅ ⟨hlt'', h⟩
      rw [decide_eq_false hcurly]
      refine (ensures_turns (Build.turns_function name false) h).imp ?_
      rintro _ parser₆ ⟨hrest', h⟩
      exact ⟨by omega, h⟩
  simp only [functionRest, bind_iff, ite_iff, get_iff, ensures_kind] at hrest ⊢
  refine (ensures_expect .openParen (by simp) h).imp ?_
  rintro _ parser₁ ⟨hlt, h⟩
  refine ⟨fun hvoid => ?_, fun _ => hrest hlt h⟩
  refine (ensures_advance h (by simp [hvoid.1])).imp ?_
  rintro _ parser₂ ⟨hlt', h⟩
  exact hrest (by omega) h

/-- Roles of what stands at file level. -/
def IsDeclared (role : Role) : Prop := role = .declaration ∨ role = .function

theorem IsDeclared.isClause {role : Role} (h : IsDeclared role) : role.IsClause := by
  rcases h with rfl | rfl <;> trivial

theorem IsDeclared.isStatement {role : Role} (h : IsDeclared role) : role.IsStatement :=
  h.isClause.isStatement

theorem ensures_declaratorsFrom {specified : BaseTy} {constant : Bool}
    (hinner : ReadsStatements inner levels) (hlevels : parser.rest.length ≤ levels)
    (hrounds : parser.rest.length < rounds) (left : List Role) (hcount : left.length = count)
    (hleft : ∀ role ∈ left, IsDeclared role) (h : parser.Since tokens base (left ++ roles)) :
    Ensures (declaratorsFrom inner specified constant line rounds count) parser (Fault.StopsAt tokens)
      fun total parser' => parser'.rest.length < parser.rest.length ∧
        ∃ left : List Role, left.length = total ∧ (∀ role ∈ left, IsDeclared role) ∧
          parser'.Since tokens base (left ++ roles) := by
  induction rounds generalizing parser count left with
  | zero => omega
  | succ rounds ih =>
    have hsuffix : ∀ {parser₁ : Parser}, parser₁.rest.length ≤ parser.rest.length →
        parser₁.Since tokens base (.type :: (left ++ roles)) → Ensures
          (do
            typeSuffix .default
            let name ← expectName "expected identifier in declaration"
            if count = 0 ∧ (← kind) = .openParen then
              functionRest inner name.value name.line
              return 1
            variableRest name.value name.line
            if ← accept .comma then
              declaratorsFrom inner specified constant line rounds (count + 1)
            else
              let _ ← expect .semicolon
              return count + 1) parser₁ (Fault.StopsAt tokens) fun total parser' =>
          parser'.rest.length < parser.rest.length ∧
            ∃ left : List Role, left.length = total ∧ (∀ role ∈ left, IsDeclared role) ∧
              parser'.Since tokens base (left ++ roles) := by
      intro parser₁ hle h
      simp only [bind_iff, ite_iff, pure_iff, ensures_kind]
      refine (ensures_typeSuffix h).imp ?_
      rintro _ parser₂ ⟨hle', h⟩
      refine (ensures_expectName _ h).imp ?_
      rintro token parser₃ ⟨hlt, h⟩
      refine ⟨fun hfunction => ?_, fun _ => ?_⟩
      · obtain rfl : left = [] := List.length_eq_zero_iff.mp (hcount.trans hfunction.1)
        refine (ensures_functionRest hinner (by omega) h).imp ?_
        rintro _ parser₄ ⟨hlt', h⟩
        exact ⟨by omega, [.function], rfl, by simp [IsDeclared], h⟩
      · have hall : ∀ role ∈ .declaration :: left, IsDeclared role := by
          intro role hrole
          rcases List.mem_cons.mp hrole with rfl | hrole
          · exact .inl rfl
          · exact hleft role hrole
        refine (ensures_variableRest h).imp ?_
        rintro _ parser₄ ⟨hle'', h⟩
        refine (ensures_accept .comma (by simp) h).imp ?_
        rintro more parser₅ ⟨-, hle₃, h⟩
        refine ⟨fun _ => ?_, fun _ => ?_⟩
        · refine (ih (by omega) (by omega) (.declaration :: left) (by simp [hcount]) hall h).imp ?_
          rintro total parser₆ ⟨hlt', hrest⟩
          exact ⟨by omega, hrest⟩
        · refine (ensures_expect .semicolon (by simp) h).imp ?_
          rintro _ parser₆ ⟨hlt', h⟩
          exact ⟨by omega, .declaration :: left, by simp [hcount], hall, h⟩
    simp only [bind_iff, ite_iff, pure_iff] at hsuffix
    simp only [declaratorsFrom, bind_iff, ite_iff, pure_iff]
    refine (ensures_turns (Build.turns_base specified) h).imp ?_
    rintro _ parser₁ ⟨hrest, h⟩
    refine ⟨fun _ => ?_, fun _ => hsuffix (by omega) h⟩
    refine (ensures_turns Build.turns_const h).imp ?_
    rintro _ parser₂ ⟨hrest', h⟩
    exact hsuffix (by omega) h

theorem ensures_declaration (hinner : ReadsStatements inner levels)
    (hlevels : parser.rest.length ≤ levels) (h : parser.Since tokens base roles) :
    Ensures (declaration inner) parser (Fault.StopsAt tokens) fun total parser' =>
      parser'.rest.length < parser.rest.length ∧
        ∃ left : List Role, left.length = total ∧ (∀ role ∈ left, IsDeclared role) ∧
          parser'.Since tokens base (left ++ roles) := by
  simp only [declaration, bind_iff, ensures_line, ensures_patience]
  refine (ensures_specifier h).imp ?_
  rintro ⟨name, constant⟩ parser₁ ⟨hlt, h⟩
  refine (ensures_declaratorsFrom hinner (by omega) (Nat.lt_succ_self _) [] rfl (by simp) h).imp ?_
  rintro total parser₂ ⟨hlt', hrest⟩
  exact ⟨by omega, hrest⟩

/-! ## Control flow -/

theorem ensures_condition (h : parser.Since tokens base roles) :
    Ensures condition parser (Fault.StopsAt tokens) fun _ parser' =>
      parser'.rest.length < parser.rest.length ∧ parser'.Since tokens base (.expression :: roles) := by
  simp only [condition, bind_iff]
  refine (ensures_expect .openParen (by simp) h).imp ?_
  rintro _ parser₁ ⟨hlt, h⟩
  refine (ensures_expression h).imp ?_
  rintro _ parser₂ ⟨hlt', h⟩
  refine (ensures_expect .closeParen (by simp) h).imp ?_
  rintro _ parser₃ ⟨hlt'', h⟩
  exact ⟨by omega, h⟩

/-- Reading a statement leaves fewer than `bound` tokens. -/
def ReadsOne (tokens : List Token) (step : Parse Nat) (base : Builder) (bound : Nat) (parser : Parser)
    (roles : List Role) : Prop :=
  Ensures step parser (Fault.StopsAt tokens) fun count parser' =>
    parser'.rest.length < bound ∧
      ∃ left : List Role, left.length = count ∧ (∀ role ∈ left, role.IsStatement) ∧
        parser'.Since tokens base (left ++ roles)

theorem ensures_ifStatement (hinner : ReadsStatements inner levels)
    (hlevels : parser.rest.length ≤ levels) (hkind : parser.current.kind ≠ .eof)
    (h : parser.Since tokens base roles) :
    ReadsOne tokens (ifStatement inner) base parser.rest.length parser roles := by
  simp only [ReadsOne, ifStatement, bind_iff, ite_iff, pure_iff]
  refine (ensures_advance h hkind).imp ?_
  rintro word parser₁ ⟨hlt, h⟩
  refine (ensures_condition h).imp ?_
  rintro _ parser₂ ⟨hlt', h⟩
  refine (ensures_single hinner (by omega) h).imp ?_
  rintro _ parser₃ ⟨hlt'', yes, hyes, h⟩
  refine (ensures_accept .elseWord (by simp) h).imp ?_
  rintro hasElse parser₄ ⟨-, hle, h⟩
  refine ⟨?_, ?_⟩
  · rintro rfl
    refine (ensures_single hinner (by omega) h).imp ?_
    rintro _ parser₅ ⟨hless, no, hno, h⟩
    refine (ensures_turns (Build.turns_ifElse_else hyes hno) h).imp ?_
    rintro _ parser₆ ⟨hrest, h⟩
    exact ⟨by omega, one_statement .statement trivial h⟩
  · intro hnot
    obtain rfl : hasElse = false := by simpa using hnot
    refine (ensures_turns (Build.turns_ifElse hyes) h).imp ?_
    rintro _ parser₅ ⟨hrest, h⟩
    exact ⟨by omega, one_statement .statement trivial h⟩

theorem ensures_whileStatement (hinner : ReadsStatements inner levels)
    (hlevels : parser.rest.length ≤ levels) (hkind : parser.current.kind ≠ .eof)
    (h : parser.Since tokens base roles) :
    ReadsOne tokens (whileStatement inner) base parser.rest.length parser roles := by
  simp only [ReadsOne, whileStatement, bind_iff, pure_iff]
  refine (ensures_advance h hkind).imp ?_
  rintro word parser₁ ⟨hlt, h⟩
  refine (ensures_condition h).imp ?_
  rintro _ parser₂ ⟨hlt', h⟩
  refine (ensures_single hinner (by omega) h).imp ?_
  rintro _ parser₃ ⟨hlt'', body, hbody, h⟩
  refine (ensures_turns (Build.turns_whileLoop hbody) h).imp ?_
  rintro _ parser₄ ⟨hrest, h⟩
  exact ⟨by omega, one_statement .statement trivial h⟩

theorem ensures_exprClause (h : parser.Since tokens base roles) :
    Ensures (exprClause line) parser (Fault.StopsAt tokens) fun _ parser' =>
      parser'.rest.length < parser.rest.length ∧ parser'.Since tokens base (.action :: roles) := by
  simp only [exprClause, bind_iff]
  refine (ensures_expression h).imp ?_
  rintro _ parser₁ ⟨hlt, h⟩
  refine (ensures_turns Build.turns_exprStatement h).imp ?_
  rintro _ parser₂ ⟨hrest, h⟩
  exact ⟨by omega, h⟩

theorem ensures_startClause (hinner : ReadsStatements inner levels)
    (hlevels : parser.rest.length ≤ levels) (h : parser.Since tokens base roles) :
    Ensures (startClause inner line) parser (Fault.StopsAt tokens) fun _ parser' =>
      parser'.rest.length < parser.rest.length ∧
        ∃ role : Role, role.IsClause ∧ parser'.Since tokens base (role :: roles) := by
  simp only [startClause, bind_iff, ite_iff, ensures_kind, pure_iff]
  refine (ensures_accept .semicolon (by simp) h).imp ?_
  rintro mark parser₁ ⟨hmark, hle, h⟩
  refine ⟨fun htrue => ?_, fun _ => ⟨fun _ => ?_, fun _ => ?_⟩⟩
  · have hlt := hmark htrue
    refine (ensures_turns Build.turns_nothing h).imp ?_
    rintro _ parser₂ ⟨hrest, h⟩
    exact ⟨by omega, .absent, trivial, h⟩
  · refine (ensures_declaration hinner (by omega) h).imp ?_
    rintro total parser₂ ⟨hlt, left, htotal, hleft, h⟩
    refine ⟨fun _ => ensures_refuse _ h, fun hone => ?_⟩
    obtain ⟨role, rfl⟩ := List.length_eq_one_iff.mp (htotal.trans (not_not.mp hone))
    exact ⟨by omega, role, (hleft role List.mem_cons_self).isClause, h⟩
  · refine (ensures_expression h).imp ?_
    rintro _ parser₂ ⟨hlt, h⟩
    refine (ensures_expect .semicolon (by simp) h).imp ?_
    rintro _ parser₃ ⟨hlt', h⟩
    refine (ensures_turns Build.turns_exprStatement h).imp ?_
    rintro _ parser₄ ⟨hrest, h⟩
    exact ⟨by omega, .action, trivial, h⟩

/-- What follows the clauses of a `for` loop. -/
theorem ensures_forBody {bound : Nat} {start test : Role} (line : Nat) (next : Role)
    (hinner : ReadsStatements inner levels) (hlevels : bound ≤ levels)
    (hbound : parser.rest.length < bound) (hstart : start.IsClause)
    (htest : test = .expression ∨ test = .absent) (hnext : next.IsClause)
    (h : parser.Since tokens base (next :: test :: start :: roles)) :
    ReadsOne tokens
      (do
        let _ ← expect .closeParen
        single inner
        build (.forLoop line)
        return 1) base bound parser roles := by
  simp only [ReadsOne, bind_iff, pure_iff]
  refine (ensures_expect .closeParen (by simp) h).imp ?_
  rintro _ parser₁ ⟨hlt, h⟩
  refine (ensures_single hinner (by omega) h).imp ?_
  rintro _ parser₂ ⟨hlt', body, hbody, h⟩
  refine (ensures_turns (Build.turns_forLoop hstart htest hnext hbody) h).imp ?_
  rintro _ parser₃ ⟨hrest, h⟩
  exact ⟨by omega, one_statement .statement trivial h⟩

/-- What follows the condition of a `for` loop. -/
theorem ensures_forRest {bound : Nat} {start : Role} (line : Nat) (test : Role)
    (hinner : ReadsStatements inner levels) (hlevels : bound ≤ levels)
    (hbound : parser.rest.length < bound) (hstart : start.IsClause)
    (htest : test = .expression ∨ test = .absent)
    (h : parser.Since tokens base (test :: start :: roles)) :
    ReadsOne tokens
      (do
        let _ ← expect .semicolon
        if (← kind) = .closeParen then build (.nothing line) else exprClause line
        let _ ← expect .closeParen
        single inner
        build (.forLoop line)
        return 1) base bound parser roles := by
  have hbody := fun {parser₁ : Parser} (next : Role) (hlt : parser₁.rest.length < bound)
      (hnext : next.IsClause) (h : parser₁.Since tokens base (next :: test :: start :: roles)) =>
    ensures_forBody line next hinner hlevels hlt hstart htest hnext h
  simp only [ReadsOne, bind_iff, ite_iff, ensures_kind] at hbody ⊢
  refine (ensures_expect .semicolon (by simp) h).imp ?_
  rintro _ parser₁ ⟨hlt, h⟩
  refine ⟨fun _ => ?_, fun _ => ?_⟩
  · refine (ensures_turns Build.turns_nothing h).imp ?_
    rintro _ parser₂ ⟨hrest, h⟩
    exact hbody .absent (by omega) trivial h
  · refine (ensures_exprClause h).imp ?_
    rintro _ parser₂ ⟨hlt', h⟩
    exact hbody .action (by omega) trivial h

theorem ensures_forStatement (hinner : ReadsStatements inner levels)
    (hlevels : parser.rest.length ≤ levels) (hkind : parser.current.kind ≠ .eof)
    (h : parser.Since tokens base roles) :
    ReadsOne tokens (forStatement inner) base parser.rest.length parser roles := by
  have hrest := fun {parser₁ : Parser} {start : Role} (line : Nat) (test : Role)
      (hlt : parser₁.rest.length < parser.rest.length) (hstart : start.IsClause)
      (htest : test = .expression ∨ test = .absent)
      (h : parser₁.Since tokens base (test :: start :: roles)) =>
    ensures_forRest line test hinner hlevels hlt hstart htest h
  simp only [ReadsOne, forStatement, bind_iff, ite_iff, ensures_kind] at hrest ⊢
  refine (ensures_advance h hkind).imp ?_
  rintro word parser₁ ⟨hlt, h⟩
  refine (ensures_expect .openParen (by simp) h).imp ?_
  rintro _ parser₂ ⟨hlt', h⟩
  refine (ensures_startClause hinner (by omega) h).imp ?_
  rintro _ parser₃ ⟨hlt'', start, hstart, h⟩
  refine ⟨fun _ => ?_, fun _ => ?_⟩
  · refine (ensures_turns Build.turns_nothing h).imp ?_
    rintro _ parser₄ ⟨heq, h⟩
    exact hrest word.line .absent (by omega) hstart (.inr rfl) h
  · refine (ensures_expression h).imp ?_
    rintro _ parser₄ ⟨hless, h⟩
    exact hrest word.line .expression (by omega) hstart (.inl rfl) h

theorem ensures_returnStatement (hkind : parser.current.kind ≠ .eof)
    (h : parser.Since tokens base roles) :
    ReadsOne tokens returnStatement base parser.rest.length parser roles := by
  simp only [ReadsOne, returnStatement, bind_iff, ite_iff, ensures_kind, pure_iff]
  refine (ensures_advance h hkind).imp ?_
  rintro word parser₁ ⟨hlt, h⟩
  refine ⟨fun hvalue => ?_, fun hvalue => ?_⟩
  · rw [decide_eq_true hvalue]
    refine (ensures_expression h).imp ?_
    rintro _ parser₂ ⟨hlt', h⟩
    refine (ensures_expect .semicolon (by simp) h).imp ?_
    rintro _ parser₃ ⟨hlt'', h⟩
    refine (ensures_turns (Build.turns_giveBack true) h).imp ?_
    rintro _ parser₄ ⟨hrest, h⟩
    exact ⟨by omega, one_statement .statement trivial h⟩
  · rw [decide_eq_false hvalue]
    refine (ensures_expect .semicolon (by simp) h).imp ?_
    rintro _ parser₂ ⟨hlt', h⟩
    refine (ensures_turns (Build.turns_giveBack false) h).imp ?_
    rintro _ parser₃ ⟨hrest, h⟩
    exact ⟨by omega, one_statement .statement trivial h⟩

theorem ensures_jumpStatement {jump : Nat → Build Unit}
    (hjump : ∀ line, Build.Turns (jump line) [] [.statement]) (hkind : parser.current.kind ≠ .eof)
    (h : parser.Since tokens base roles) :
    ReadsOne tokens (jumpStatement jump) base parser.rest.length parser roles := by
  simp only [ReadsOne, jumpStatement, bind_iff, pure_iff]
  refine (ensures_advance h hkind).imp ?_
  rintro word parser₁ ⟨hlt, h⟩
  refine (ensures_expect .semicolon (by simp) h).imp ?_
  rintro _ parser₂ ⟨hlt', h⟩
  refine (ensures_turns (hjump _) h).imp ?_
  rintro _ parser₃ ⟨hrest, h⟩
  exact ⟨by omega, one_statement .statement trivial h⟩

theorem ensures_exprStatement (h : parser.Since tokens base roles) :
    ReadsOne tokens exprStatement base parser.rest.length parser roles := by
  simp only [ReadsOne, exprStatement, bind_iff, ensures_line, pure_iff]
  refine (ensures_expression h).imp ?_
  rintro _ parser₁ ⟨hlt, h⟩
  refine (ensures_expect .semicolon (by simp) h).imp ?_
  rintro _ parser₂ ⟨hlt', h⟩
  refine (ensures_turns Build.turns_exprStatement h).imp ?_
  rintro _ parser₃ ⟨hrest, h⟩
  exact ⟨by omega, one_statement .action trivial h⟩

theorem ensures_emptyStatement (hkind : parser.current.kind ≠ .eof)
    (h : parser.Since tokens base roles) :
    ReadsOne tokens emptyStatement base parser.rest.length parser roles := by
  simp only [ReadsOne, emptyStatement, bind_iff, pure_iff]
  refine (ensures_advance h hkind).imp ?_
  rintro mark parser₁ ⟨hlt, h⟩
  refine (ensures_turns Build.turns_nothing h).imp ?_
  rintro _ parser₂ ⟨hrest, h⟩
  exact ⟨by omega, one_statement .absent trivial h⟩

/-- Every level of nesting reads a token, so as many levels as there are tokens are enough. -/
theorem readsStatements_statementWithin (levels : Nat) :
    ReadsStatements (statementWithin levels) levels := by
  induction levels with
  | zero =>
    intro tokens base parser roles hlt
    omega
  | succ levels ih =>
    intro tokens base parser roles hlt h
    have hle : parser.rest.length ≤ levels := by omega
    have hdeclaration : ReadsOne tokens (declaration (statementWithin levels)) base parser.rest.length
        parser roles := by
      refine (ensures_declaration ih hle h).imp ?_
      rintro total parser' ⟨hlt, left, htotal, hleft, h⟩
      exact ⟨hlt, left, htotal, fun role hrole => (hleft role hrole).isStatement, h⟩
    simp only [statementWithin, bind_iff, ensures_kind]
    split
    · exact hdeclaration
    · exact hdeclaration
    · exact hdeclaration
    · exact hdeclaration
    · refine (ensures_block ih hle h).imp ?_
      rintro _ parser' ⟨rfl, hlt, h⟩
      exact ⟨hlt, one_statement .block trivial h⟩
    · next hkind => exact ensures_ifStatement ih hle (by simp [hkind]) h
    · next hkind => exact ensures_whileStatement ih hle (by simp [hkind]) h
    · next hkind => exact ensures_forStatement ih hle (by simp [hkind]) h
    · next hkind => exact ensures_returnStatement (by simp [hkind]) h
    · next hkind => exact ensures_jumpStatement (fun _ => Build.turns_breakOut) (by simp [hkind]) h
    · next hkind =>
      exact ensures_jumpStatement (fun _ => Build.turns_continueOn) (by simp [hkind]) h
    · next hkind => exact ensures_emptyStatement (by simp [hkind]) h
    · exact ensures_exprStatement h

theorem readsStatements_statement : ReadsStatements statement levels := by
  intro tokens base parser roles _ h
  simp only [statement, bind_iff, ensures_patience]
  exact readsStatements_statementWithin _ (Nat.lt_succ_self _) h

/-! ## Files -/

theorem ensures_declarationsFrom (hrounds : parser.rest.length < rounds) (left : List Role)
    (hcount : left.length = count) (hleft : ∀ role ∈ left, IsDeclared role)
    (h : parser.Since tokens base (left ++ roles)) :
    Ensures (declarationsFrom rounds count) parser (Fault.StopsAt tokens) fun total parser' =>
      ∃ left : List Role, left.length = total ∧ (∀ role ∈ left, IsDeclared role) ∧
        parser'.Since tokens base (left ++ roles) := by
  induction rounds generalizing parser count left with
  | zero => omega
  | succ rounds ih =>
    have hround : Ensures (do let more ← declaration statement; declarationsFrom rounds (count + more))
        parser (Fault.StopsAt tokens) fun total parser' =>
          ∃ left : List Role, left.length = total ∧ (∀ role ∈ left, IsDeclared role) ∧
            parser'.Since tokens base (left ++ roles) := by
      simp only [bind_iff]
      refine (ensures_declaration readsStatements_statement (Nat.le_refl _) h).imp ?_
      rintro more parser₁ ⟨hlt, new, hmore, hnew, h⟩
      rw [← List.append_assoc] at h
      have hall : ∀ role ∈ new ++ left, IsDeclared role := by
        intro role hrole
        rcases List.mem_append.mp hrole with hrole | hrole
        · exact hnew role hrole
        · exact hleft role hrole
      exact ih (by omega) _ (by simp [hmore, hcount, Nat.add_comm]) hall h
    simp only [bind_iff] at hround
    simp only [declarationsFrom, bind_iff, get_iff, ensures_kind, ite_iff, pure_iff]
    exact ⟨fun _ => ⟨fun _ => ensures_refuse _ h, fun _ => hround⟩, fun _ => ⟨left, hcount, hleft, h⟩⟩

theorem ensures_file (h : parser.Since tokens base roles) :
    Ensures file parser (Fault.StopsAt tokens) fun _ parser' =>
      parser'.Since tokens base (.file :: roles) := by
  simp only [file, bind_iff, ensures_patience]
  refine (ensures_declarationsFrom (Nat.lt_succ_self _) [] rfl (by simp) h).imp ?_
  rintro total parser₁ ⟨left, htotal, hleft, h⟩
  exact (ensures_turns (Build.turns_file htotal hleft) h).imp fun _ _ => And.right

/-- A list of tokens that ends with the end of input gives a parsed forest, or its parser stops with a
fault. -/
theorem parse_stops {tokens : List Token} (hlast : (Parser.start tokens).last.kind = .eof) :
    (∃ forest root, parse tokens = .ok forest ∧ forest.Parsed root) ∨
      ∃ fault parser, file (Parser.start tokens) = .error fault parser ∧
        parse tokens = .error fault ∧ fault.StopsAt tokens parser := by
  have hstart : (Parser.start tokens).Since tokens {} [] :=
    ⟨List.suffix_refl tokens, hlast, Forest.raw_empty,
      ⟨List.forall_mem_nil _, List.forall_mem_nil _, List.nodup_nil⟩, Nat.le_refl _, fun _ _ => rfl,
      by simp, [], rfl, rfl, by simp⟩
  have hfile := ensures_file hstart
  unfold Ensures at hfile
  unfold parse
  split at hfile
  · next parser hok =>
    obtain ⟨forest, root, hfinish, hparsed⟩ := Builder.exists_finish hfile.built
    exact .inl ⟨forest, root, by rw [hok]; exact hfinish, hparsed⟩
  · next fault parser herror => exact .inr ⟨fault, parser, herror, by rw [herror], hfile⟩

/-- A list of tokens that ends with the end of input gives a parsed forest, or is refused with an
ordinary fault. -/
theorem parse_cases {tokens : List Token} (hlast : (Parser.start tokens).last.kind = .eof) :
    (∃ forest root, parse tokens = .ok forest ∧ forest.Parsed root) ∨
      ∃ fault, parse tokens = .error fault ∧ fault.Ordinary := by
  rcases parse_stops hlast with hparsed | ⟨fault, parser, -, herror, hstops⟩
  · exact .inl hparsed
  · exact .inr ⟨fault, herror, hstops.ordinary⟩

/-- A parsed file stands on line one. -/
theorem line_root_of_parse {tokens : List Token} {forest : Forest} {root : NodeId}
    (hparse : parse tokens = .ok forest) (hroot : forest.root = some root) : forest.line root = 1 := by
  have hfile : Ensures file (Parser.start tokens) Fault.Any fun _ parser =>
      ∃ id rest, parser.builder.stack = id :: rest ∧ parser.builder.forest.line id = 1 := by
    simp only [file, bind_iff, ensures_patience]
    refine (any (declarationsFrom _ 0) _).imp fun count parser _ => ?_
    exact (ensures_build _).mpr (Build.line_file count 1 parser.builder)
  unfold parse at hparse
  split at hparse
  · next parser hok =>
    obtain ⟨id, rest, hstack, hline⟩ := hfile.of_ok hok
    unfold Builder.finish at hparse
    rw [hstack] at hparse
    split at hparse
    · next hid =>
      obtain ⟨rfl, rfl⟩ := List.cons.inj hid
      split at hparse
      · obtain rfl := Except.ok.inj hparse
        rw [← Option.some.inj hroot]
        exact hline
      · cases hparse
    · cases hparse
  · cases hparse

/-- A lexeme is refused as an unrecognised token only. -/
theorem ordinary_of_read {pattern : Token.Pattern} {lexeme : List Char} {cause : Cause} {line : Nat}
    (h : pattern.read lexeme = .error cause) : Fault.Ordinary ⟨cause, line⟩ := by
  obtain ⟨token, rfl⟩ : ∃ token, cause = .unrecognisedToken token := by
    cases pattern with
    | string =>
      simp only [Token.Pattern.read] at h
      split at h
      · cases h
      · exact ⟨_, (Except.error.inj h).symm⟩
    | char =>
      simp only [Token.Pattern.read] at h
      split at h
      · cases h
      · exact ⟨_, (Except.error.inj h).symm⟩
      · exact ⟨_, (Except.error.inj h).symm⟩
    | _ => cases h
  exact Fault.ordinary_of_cause (by simp)

/-- The tokens of a text end with the end of input. -/
theorem scanFrom_cases (line : Nat) (cs : List Char) :
    (∃ tokens last, Token.scanFrom line cs = .ok (tokens ++ [last]) ∧ last.kind = .eof) ∨
      ∃ fault, Token.scanFrom line cs = .error fault ∧ fault.Ordinary := by
  fun_induction Token.scanFrom line cs with
  | case1 line => exact .inl ⟨[], .endOfInput line, rfl, rfl⟩
  | case2 => exact .inr ⟨_, rfl, Fault.ordinary_of_cause (by simp)⟩
  | case3 _ _ _ _ _ _ _ _ hread => exact .inr ⟨_, rfl, ordinary_of_read hread⟩
  | case4 _ _ _ _ _ _ _ _ _ fault herror ih =>
    rw [herror] at ih
    exact ih
  | case5 _ _ _ _ _ _ _ tokens hok _ ih =>
    rw [hok] at ih
    exact ih
  | case6 line _ _ _ _ _ _ tokens hok kind value _ ih =>
    rw [hok] at ih
    rcases ih with ⟨others, last, htokens, hlast⟩ | ⟨_, herror, _⟩
    · obtain rfl := Except.ok.inj htokens
      exact .inl ⟨⟨kind, value, line⟩ :: others, last, rfl, hlast⟩
    · cases herror

/-- A source gives a parsed forest or is refused with an ordinary fault. -/
theorem read_cases (source : String) :
    (∃ forest root, read source = .ok forest ∧ forest.Parsed root) ∨
      ∃ fault, read source = .error fault ∧ fault.Ordinary := by
  rcases scanFrom_cases 1 source.toList with ⟨tokens, last, hscan, hlast⟩ | ⟨fault, hscan, hfault⟩
  · have hread : read source = parse (tokens ++ [last]) := by
      simp [read, Token.scan, hscan]
      rfl
    rw [hread]
    exact parse_cases (by simpa [Parser.start] using hlast)
  · refine .inr ⟨fault, ?_, hfault⟩
    simp [read, Token.scan, hscan]
    rfl

theorem line_root_of_read {source : String} {forest : Forest} {root : NodeId}
    (hread : read source = .ok forest) (hroot : forest.root = some root) : forest.line root = 1 := by
  unfold read at hread
  cases hscan : Token.scan source with
  | error fault =>
    rw [hscan] at hread
    cases hread
  | ok tokens =>
    rw [hscan] at hread
    exact line_root_of_parse hread hroot

end MiniC.Grammar
