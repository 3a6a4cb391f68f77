import MiniC.Proofs.Phrase.Declaration

/-!
# Reading statements

The words of a statement are read as the statement, by a reader that may nest as deep as there are words.
-/

namespace MiniC.Grammar

open Word Parse

variable {origin start : Parser} {next : Word} {rest : List Word} {trees : List Tree} {style : Style}
  {inner : Parse Nat} {test yes body statement : Tree} {levels : Nat}

/-! ## Parts of statements -/

theorem ends_condition (hstyle : style.Sound) (htest : test.IsExpression)
    (h : origin.Ahead (Word.inParens (test.words style) ++ rest) trees start) :
    Ends condition start fun _ parser => origin.Ahead rest (test :: trees) parser := by
  rw [inParens_append] at h
  refine (Ends.expect h rfl).bind fun _ parser h => ?_
  refine ((readAs_words hstyle htest).ends_expression h.2 (by decide) (by simp) rfl).bind fun _ parser h => ?_
  exact (Ends.expect h rfl).bind fun _ _ h => .pure h.2

theorem ends_single (hstatement : Takes inner style statement)
    (h : origin.Ahead (statement.words style ++ next :: rest) trees start)
    (hopen : statement.IsOpen → next.kind ≠ .elseWord) :
    Ends (single inner) start fun _ parser => origin.Ahead (next :: rest) (statement :: trees) parser :=
  .line fun _ => (hstatement.ends h hopen).bind fun _ _ h =>
    .neg (fun hne => hne h.1) (.pure h.2)

/-! ## Compound statements -/

theorem takes_ifElse {no : Option Tree} (hstyle : style.Sound) (htest : test.IsExpression)
    (hyes : Takes inner style yes) (hno : ∀ statement ∈ no, Takes inner style statement)
    (hopen : no.isSome → ¬yes.IsOpen) :
    Takes (ifStatement inner) style (.bare (.ifElse none) (test :: yes :: no.toList)) := by
  have hno' : ∀ statement ∈ no, statement.IsStatement := fun statement hmem => (hno statement hmem).isStatement
  refine ⟨.ifElse htest hyes.isStatement hno' hopen, ⟨_, _, Tree.words_ifElse style test yes no, rfl⟩,
    fun h hnext => ?_⟩
  rw [Tree.words_ifElse] at h
  simp only [List.cons_append, List.append_assoc] at h
  refine (Ends.advance h).bind fun word parser h => (ends_condition hstyle htest h.2).bind fun _ parser h => ?_
  have hif : Build.Composes (Build.ifElse no.isSome word.line) _ _ :=
    Build.composes_ifElse htest hyes.isStatement hno'
  cases no with
  | none =>
    have helse : _ ≠ TokenKind.elseWord := hnext .ifThen
    refine (ends_single hyes h fun _ => helse).bind fun _ parser h => ?_
    refine (Ends.pass h helse).bind fun found parser h => ?_
    rw [h.1]
    exact (Ends.build hif h.2).bind fun _ parser h => .pure ⟨rfl, h⟩
  | some no =>
    rw [Option.toList_some, List.flatMap_singleton, List.cons_append] at h
    refine (ends_single hyes h fun h => absurd h (hopen rfl)).bind fun _ parser h => ?_
    refine (Ends.accept h rfl).bind fun found parser h => ?_
    rw [h.1]
    refine (ends_single (hno no rfl) h.2 fun h => hnext (.ifElse h)).bind fun _ parser h => ?_
    exact (Ends.build hif h).bind fun _ parser h => .pure ⟨rfl, h⟩

theorem takes_whileLoop (hstyle : style.Sound) (htest : test.IsExpression)
    (hbody : Takes inner style body) :
    Takes (whileStatement inner) style (.bare (.whileLoop none) [test, body]) := by
  refine ⟨.whileLoop htest hbody.isStatement, ⟨_, _, Tree.words_whileLoop style test body, rfl⟩, fun h hnext => ?_⟩
  rw [Tree.words_whileLoop, List.cons_append, List.append_assoc] at h
  refine (Ends.advance h).bind fun word parser h => (ends_condition hstyle htest h.2).bind fun _ parser h => ?_
  refine (ends_single hbody h fun hopen => hnext (.whileLoop hopen)).bind fun _ parser h => ?_
  exact (Ends.build (Build.composes_whileLoop htest hbody.isStatement) h).bind fun _ parser h =>
    .pure ⟨rfl, h⟩

/-! ## Clauses of `for` loops -/

theorem ends_startClause {start : Parser} {clause : Tree} {line : Nat} (hstyle : style.Sound)
    (hclause : clause.IsStart) (hdeclared : clause.declares → Takes (declaration inner) style clause)
    (h : origin.Ahead (clause.words style ++ next :: rest) trees start) :
    Ends (startClause inner line) start fun _ parser =>
      origin.Ahead (next :: rest) (clause :: trees) parser := by
  obtain ⟨hstatement, hdeclares | hkind | hkind⟩ := hclause
  · obtain ⟨first, more, hfirst, hstarts⟩ := exists_startsType_of_declares style hstatement hdeclares
    have hfront := h
    rw [hfirst] at hfront
    refine (Ends.pass hfront ?_).bind fun found parser h => ?_
    · rintro hsemicolon
      rw [hsemicolon] at hstarts
      cases hstarts
    rw [h.1]
    refine .kind h.2 (.pos hstarts ?_)
    have hahead : origin.Ahead (clause.words style ++ next :: rest) trees parser := by
      rw [hfirst]
      exact h.2
    have hopen : clause.IsOpen → next.kind ≠ .elseWord := fun hopen =>
      absurd hopen (Tree.not_isOpen_of_declares hdeclares)
    exact ((hdeclared hdeclares).ends hahead hopen).bind fun count parser h =>
      .neg (fun hne => hne h.1) (.pure h.2)
  · cases hstatement with
    | @exprStatement value hvalue =>
      have hread := readAs_words hstyle hvalue
      obtain ⟨first, more, hfirst, hstarts⟩ := hread.starts
      rw [Tree.words_exprStatement, List.append_assoc] at h
      have hfront := h
      rw [hfirst] at hfront
      refine (Ends.pass hfront (ne_of_startsOperand hstarts rfl)).bind fun found parser h => ?_
      rw [h.1]
      refine .kind h.2 (.neg (by simp [not_startsType hstarts]) ?_)
      have hahead : origin.Ahead (value.words style ++ TokenKind.semicolon.word :: next :: rest) trees
          parser := by
        rw [hfirst]
        exact h.2
      refine (hread.ends_expression hahead (by decide) (by simp) rfl).bind fun _ parser h => ?_
      exact (Ends.expect h rfl).bind fun _ parser h => .build (Build.composes_exprStatement hvalue) h.2
    | _ => cases hkind
  · cases hstatement with
    | nothing =>
      refine (Ends.accept h rfl).bind fun found parser h => ?_
      rw [h.1]
      exact .build Build.composes_nothing h.2
    | _ => cases hkind

theorem exists_front (words : List Word) (next : Word) (rest : List Word) :
    ∃ first more, words ++ next :: rest = first :: more := by
  cases words with
  | nil => exact ⟨_, _, rfl⟩
  | cons first more => exact ⟨_, _, rfl⟩

/-- An expression is a clause as it is. -/
theorem clause_of_isExpression {value : Tree} (hvalue : value.IsExpression) :
    (value.phrase style).clause = value.words style := by
  have hrole := hvalue.role_eq
  rw [Tree.role, ← Tree.kind_phrase style] at hrole
  unfold Phrase.clause
  split
  · next hkind => rw [hkind] at hrole; cases hrole
  · next hkind => rw [hkind] at hrole; cases hrole
  · rfl

theorem ends_test {α : Type} {following : PUnit → Parse α} {post : α → Parser → Prop} {line : Nat}
    (hstyle : style.Sound) (htest : test.IsTest)
    (h : origin.Ahead ((test.phrase style).clause ++ TokenKind.semicolon.word :: rest) trees start)
    (hfollowing : ∀ parser, origin.Ahead (TokenKind.semicolon.word :: rest) (test :: trees) parser →
      Ends (following ⟨⟩) parser post) :
    Ends (Parse.kind >>= fun kind => if kind = .semicolon then build (.nothing line) >>= following
      else expression .default >>= following) start post := by
  cases htest with
  | expression hvalue =>
    have hread := readAs_words hstyle hvalue
    obtain ⟨first, more, hfirst, hstarts⟩ := hread.starts
    rw [clause_of_isExpression hvalue] at h
    have hfront := h
    rw [hfirst] at hfront
    refine .kind hfront (.neg (ne_of_startsOperand hstarts rfl) ?_)
    exact (hread.ends_expression h (by decide) (by simp) rfl).bind fun _ parser h => hfollowing parser h
  | absent =>
    exact .kind h (.pos rfl ((Ends.build Build.composes_nothing h).bind fun _ parser h => hfollowing parser h))

theorem ends_next {α : Type} {following : PUnit → Parse α} {post : α → Parser → Prop} {line : Nat}
    {step : Tree} (hstyle : style.Sound) (hstep : step.IsNext)
    (h : origin.Ahead ((step.phrase style).clause ++ TokenKind.closeParen.word :: rest) trees start)
    (hfollowing : ∀ parser, origin.Ahead (TokenKind.closeParen.word :: rest) (step :: trees) parser →
      Ends (following ⟨⟩) parser post) :
    Ends (Parse.kind >>= fun kind => if kind = .closeParen then build (.nothing line) >>= following
      else exprClause line >>= following) start post := by
  cases hstep with
  | @expression value hvalue =>
    have hread := readAs_words hstyle hvalue
    obtain ⟨first, more, hfirst, hstarts⟩ := hread.starts
    have hclause : ((Tree.bare .exprStatement [value]).phrase style).clause = value.words style := by
      show ((Tree.bare .exprStatement [value]).words style).dropLast = _
      rw [Tree.words_exprStatement, List.dropLast_concat]
    rw [hclause] at h
    have hfront := h
    rw [hfirst] at hfront
    refine .kind hfront (.neg (ne_of_startsOperand hstarts rfl) (.bind ?_ fun _ parser h => hfollowing parser h))
    exact (hread.ends_expression h (by decide) (by simp) rfl).bind fun _ parser h =>
      .build (Build.composes_exprStatement hvalue) h
  | absent =>
    exact .kind h (.pos rfl ((Ends.build Build.composes_nothing h).bind fun _ parser h => hfollowing parser h))

theorem takes_forLoop {clause step : Tree} (hstyle : style.Sound) (hclause : clause.IsStart)
    (hdeclared : clause.declares → Takes (declaration inner) style clause) (htest : test.IsTest)
    (hstep : step.IsNext) (hbody : Takes inner style body) :
    Takes (forStatement inner) style (.bare (.forLoop none) [clause, test, step, body]) := by
  refine ⟨.forLoop hclause.1 hclause.2 htest hstep hbody.isStatement,
    ⟨_, _, Tree.words_forLoop style clause test step body, rfl⟩, fun h hnext => ?_⟩
  rw [Tree.words_forLoop] at h
  simp only [List.cons_append, List.append_assoc] at h
  refine (Ends.advance h).bind fun word parser h => (Ends.expect h.2 rfl).bind fun _ parser h => ?_
  obtain ⟨first, more, hfirst⟩ := exists_front (test.phrase style).clause TokenKind.semicolon.word
    ((step.phrase style).clause ++ TokenKind.closeParen.word :: (body.words style ++ _))
  rw [hfirst] at h
  refine (ends_startClause hstyle hclause hdeclared h.2).bind fun _ parser h => ?_
  rw [← hfirst] at h
  refine ends_test hstyle htest h fun parser h => (Ends.expect h rfl).bind fun _ parser h => ?_
  refine ends_next hstyle hstep h.2 fun parser h => (Ends.expect h rfl).bind fun _ parser h => ?_
  refine (ends_single hbody h.2 fun hopen => hnext (.forLoop hopen)).bind fun _ parser h => ?_
  exact (Ends.build (Build.composes_forLoop hclause htest hstep hbody.isStatement) h).bind fun _ parser h =>
    .pure ⟨rfl, h⟩

/-! ## Simple statements -/

theorem takes_giveBack {value : Option Tree} (hstyle : style.Sound) (hvalue : ∀ tree ∈ value, tree.IsExpression) :
    Takes returnStatement style (.bare .giveBack value.toList) := by
  refine ⟨.giveBack hvalue, ⟨_, _, Tree.words_giveBack style value, rfl⟩, fun h _ => ?_⟩
  rw [Tree.words_giveBack] at h
  simp only [List.cons_append, List.append_assoc, List.nil_append] at h
  refine (Ends.advance h).bind fun word parser h => ?_
  have hreturn : Build.Composes (Build.giveBack value.isSome word.line) _ _ := Build.composes_giveBack hvalue
  cases value with
  | none =>
    refine .kind h.2 (.neg (by simp) ((Ends.expect h.2 rfl).bind fun _ parser h => ?_))
    exact (Ends.build hreturn h.2).bind fun _ parser h => .pure ⟨rfl, h⟩
  | some value =>
    have hread := readAs_words hstyle (hvalue value rfl)
    obtain ⟨first, more, hfirst, hstarts⟩ := hread.starts
    replace h := h.2
    rw [Option.toList_some, List.flatMap_singleton] at h
    have hfront := h
    rw [hfirst] at hfront
    have hne : first.kind ≠ .semicolon := ne_of_startsOperand hstarts rfl
    refine .kind hfront (.pos (by simpa using hne) ?_)
    refine (hread.ends_expression h (by decide) (by simp) rfl).bind fun _ parser h => ?_
    refine (Ends.expect h rfl).bind fun _ parser h => ?_
    rw [decide_eq_true hne]
    exact (Ends.build hreturn h.2).bind fun _ parser h => .pure ⟨rfl, h⟩

theorem takes_jump {jump : Nat → Build Unit} {word : TokenKind} {tree : Tree}
    (hjump : ∀ line, Build.Composes (jump line) [] tree) (htree : tree.IsStatement)
    (hwords : tree.words style = [word.word, TokenKind.semicolon.word]) (hstarts : startsStatement word) :
    Takes (jumpStatement jump) style tree := by
  refine ⟨htree, ⟨_, _, hwords, hstarts⟩, fun h _ => ?_⟩
  rw [hwords] at h
  exact (Ends.advance h).bind fun token parser h => (Ends.expect h.2 rfl).bind fun _ parser h =>
    (Ends.build (hjump token.line) h.2).bind fun _ parser h => .pure ⟨rfl, h⟩

theorem startsStatement_of_startsOperand {kind : TokenKind} (h : startsOperand kind) :
    startsStatement kind := by
  cases kind <;> first | rfl | cases h

theorem takes_exprStatement {value : Tree} (hstyle : style.Sound) (hvalue : value.IsExpression) :
    Takes exprStatement style (.bare .exprStatement [value]) := by
  have hread := readAs_words hstyle hvalue
  refine ⟨.exprStatement hvalue, ?_, fun h _ => ?_⟩
  · obtain ⟨first, more, hfirst, hstarts⟩ := hread.starts
    rw [Tree.words_exprStatement, hfirst]
    exact ⟨first, _, rfl, startsStatement_of_startsOperand hstarts⟩
  rw [Tree.words_exprStatement, List.append_assoc] at h
  refine .line fun line => (hread.ends_expression h (by decide) (by simp) rfl).bind fun _ parser h => ?_
  exact (Ends.expect h rfl).bind fun _ parser h =>
    (Ends.build (Build.composes_exprStatement hvalue) h.2).bind fun _ parser h => .pure ⟨rfl, h⟩

theorem takes_nothing (style : Style) : Takes emptyStatement style .nothing := by
  refine ⟨.nothing, ⟨_, _, rfl, rfl⟩, fun h _ => ?_⟩
  exact (Ends.advance h).bind fun mark parser h =>
    (Ends.build Build.composes_nothing h.2).bind fun _ parser h => .pure ⟨rfl, h⟩

theorem takes_block {statements : List Tree}
    (hstatements : ∀ statement ∈ statements, Takes inner style statement) :
    Takes (block inner) style (.bare .block statements) := by
  refine ⟨.block fun statement hmem => (hstatements statement hmem).isStatement, ?_, fun h _ =>
    ends_block hstatements h⟩
  rw [Tree.words_block]
  exact ⟨_, _, rfl, rfl⟩

/-! ## Statements of any kind -/

/-- A statement is read by the reader for its first word. -/
theorem Takes.of_branch {reader : Parse Nat} {first : Word} {more : List Word}
    (h : Takes reader style statement) (hfirst : statement.words style = first :: more)
    (hbranch : ∀ {origin start : Parser} {words : List Word} {trees : List Tree} {post : Nat → Parser → Prop},
      origin.Ahead (first :: words) trees start → Ends reader start post →
        Ends (statementWithin (levels + 1)) start post) :
    Takes (statementWithin (levels + 1)) style statement := by
  refine ⟨h.isStatement, h.starts, fun {origin start next rest trees} hahead hnext => ?_⟩
  have hfront : origin.Ahead (first :: (more ++ next :: rest)) trees start := by
    rw [hfirst] at hahead
    exact hahead
  exact hbranch hfront (h.ends hahead hnext)

theorem ends_statementWithin_iff {post : Nat → Parser → Prop}
    (hstarts : start.current.kind.startsType = true) : Ends (statementWithin (levels + 1)) start post ↔
      Ends (declaration (statementWithin levels)) start post := by
  rw [statementWithin, Ends, Ensures.bind_iff, ensures_kind]
  revert hstarts
  cases start.current.kind with
  | int | char | void | const => exact fun _ => Iff.rfl
  | _ => exact nofun

/-- What declares something is a statement for a reader of declarations and for one of statements. -/
theorem takes_iff_of_declares (h : statement.IsStatement) (hdeclares : statement.declares) :
    Takes (statementWithin (levels + 1)) style statement ↔
      Takes (declaration (statementWithin levels)) style statement := by
  obtain ⟨first, more, hfirst, hstarts⟩ := exists_startsType_of_declares style h hdeclares
  have hcurrent : ∀ {origin start : Parser} {words : List Word} {trees : List Tree},
      origin.Ahead (statement.words style ++ words) trees start → start.current.kind.startsType = true := by
    intro origin start words trees hahead
    rw [hfirst] at hahead
    rw [hahead.kind_current, hstarts]
  refine ⟨fun htakes => ⟨h, htakes.starts, fun hahead hnext => ?_⟩,
    fun htakes => ⟨h, htakes.starts, fun hahead hnext => ?_⟩⟩
  · exact (ends_statementWithin_iff (hcurrent hahead)).mp (htakes.ends hahead hnext)
  · exact (ends_statementWithin_iff (hcurrent hahead)).mpr (htakes.ends hahead hnext)

theorem takes_of_exprStatement {value : Tree} (hvalue : value.IsExpression)
    (h : Takes exprStatement style (.bare .exprStatement [value])) (hstyle : style.Sound) :
    Takes (statementWithin (levels + 1)) style (.bare .exprStatement [value]) := by
  obtain ⟨first, more, hfirst, hstarts⟩ := (readAs_words hstyle hvalue).starts
  have hwords : (Tree.bare .exprStatement [value]).words style = first :: (more ++ [TokenKind.semicolon.word]) := by
    rw [Tree.words_exprStatement, hfirst, List.cons_append]
  refine h.of_branch hwords fun hahead hread => .kind hahead ?_
  revert hstarts
  cases first.kind with
  | number | string | charLiteral | identifier | openParen | dash | not | star | ampersand | plusPlus
  | minusMinus => exact fun _ => hread
  | _ => exact nofun

/-- What is printed for one of some statements is not longer than what is printed for all of them. -/
theorem length_le_of_mem (style : Style) {statements : List Tree} (h : statement ∈ statements) :
    (statement.words style).length ≤ (statements.flatMap (Tree.words style)).length := by
  rw [List.flatMap_def]
  exact (List.sublist_flatten_of_mem (List.mem_map_of_mem h)).length_le

/-- **A statement is read from the words that are printed for it.** -/
theorem takes_statementWithin (hstyle : style.Sound) (h : statement.IsStatement) :
    ∀ {levels}, (statement.words style).length ≤ levels → Takes (statementWithin levels) style statement := by
  induction h with
  | @declaration name type initial htype hinitial =>
    intro levels hlevels
    rw [words_declaration, List.length_append, List.length_cons] at hlevels
    obtain ⟨levels, rfl⟩ := Nat.exists_eq_succ_of_ne_zero (n := levels) (by omega)
    exact (takes_iff_of_declares (.declaration name htype hinitial) rfl).mpr
      (takes_variable _ name hstyle htype hinitial)
  | @function name result params body hresult hparams hbody ih =>
    intro levels hlevels
    rw [words_function style name hresult, List.length_append, List.length_cons, List.length_append] at hlevels
    obtain ⟨levels, rfl⟩ := Nat.exists_eq_succ_of_ne_zero (n := levels) (by omega)
    refine (takes_iff_of_declares (.function name hresult hparams hbody) rfl).mpr
      (takes_function name hresult hparams fun statements hsome statement hmem => ih statements hsome statement hmem ?_)
    obtain rfl := Option.mem_def.mp hsome
    have hle := length_le_of_mem style hmem
    simp only [bodyWords, Tree.words_block, inBraces, List.length_cons, List.length_append] at hlevels
    omega
  | @block statements _ ih =>
    intro levels hlevels
    simp only [Tree.words_block, inBraces, List.length_cons, List.length_append] at hlevels
    obtain ⟨levels, rfl⟩ := Nat.exists_eq_succ_of_ne_zero (n := levels) (by omega)
    have hinner : ∀ statement ∈ statements, Takes (statementWithin levels) style statement := by
      intro statement hmem
      have hle := length_le_of_mem style hmem
      exact ih statement hmem (by omega)
    exact (takes_block hinner).of_branch (Tree.words_block style statements) fun h hread => .kind h hread
  | @ifElse test yes no htest _ _ hopen hyes hno =>
    intro levels hlevels
    simp only [Tree.words_ifElse, List.length_cons, List.length_append] at hlevels
    obtain ⟨levels, rfl⟩ := Nat.exists_eq_succ_of_ne_zero (n := levels) (by omega)
    have hno' : ∀ statement ∈ no, Takes (statementWithin levels) style statement := by
      intro statement hmem
      obtain rfl := Option.mem_def.mp hmem
      simp only [Option.toList_some, List.flatMap_singleton, List.length_cons] at hlevels
      exact hno statement rfl (by omega)
    exact (takes_ifElse hstyle htest (hyes (by omega)) hno' hopen).of_branch (Tree.words_ifElse style test yes no)
      fun h hread => .kind h hread
  | @whileLoop test body htest _ hbody =>
    intro levels hlevels
    simp only [Tree.words_whileLoop, List.length_cons, List.length_append] at hlevels
    obtain ⟨levels, rfl⟩ := Nat.exists_eq_succ_of_ne_zero (n := levels) (by omega)
    exact (takes_whileLoop hstyle htest (hbody (by omega))).of_branch (Tree.words_whileLoop style test body)
      fun h hread => .kind h hread
  | @forLoop clause test step body hclause hstart htest hstep _ ihclause ihbody =>
    intro levels hlevels
    simp only [Tree.words_forLoop, List.length_cons, List.length_append] at hlevels
    obtain ⟨levels, rfl⟩ := Nat.exists_eq_succ_of_ne_zero (n := levels) (by omega)
    have hdeclared : clause.declares → Takes (declaration (statementWithin levels)) style clause :=
      fun hdeclares => (takes_iff_of_declares hclause hdeclares).mp (ihclause (by omega))
    exact (takes_forLoop hstyle ⟨hclause, hstart⟩ hdeclared htest hstep (ihbody (by omega))).of_branch
      (Tree.words_forLoop style clause test step body) fun h hread => .kind h hread
  | @giveBack value hvalue =>
    intro levels hlevels
    rw [Tree.words_giveBack, List.length_cons] at hlevels
    obtain ⟨levels, rfl⟩ := Nat.exists_eq_succ_of_ne_zero (n := levels) (by omega)
    exact (takes_giveBack hstyle hvalue).of_branch (Tree.words_giveBack style value) fun h hread => .kind h hread
  | breakOut =>
    intro levels hlevels
    obtain ⟨levels, rfl⟩ := Nat.exists_eq_succ_of_ne_zero (n := levels) (Nat.ne_zero_of_lt hlevels)
    have htakes : Takes (jumpStatement Build.breakOut) style (.bare (.breakOut none) []) :=
      takes_jump (fun _ => Build.composes_breakOut) .breakOut rfl rfl
    exact htakes.of_branch rfl fun h hread => .kind h hread
  | continueOn =>
    intro levels hlevels
    obtain ⟨levels, rfl⟩ := Nat.exists_eq_succ_of_ne_zero (n := levels) (Nat.ne_zero_of_lt hlevels)
    have htakes : Takes (jumpStatement Build.continueOn) style (.bare (.continueOn none) []) :=
      takes_jump (fun _ => Build.composes_continueOn) .continueOn rfl rfl
    exact htakes.of_branch rfl fun h hread => .kind h hread
  | exprStatement hvalue =>
    intro levels hlevels
    rw [Tree.words_exprStatement, List.length_append, List.length_singleton] at hlevels
    obtain ⟨levels, rfl⟩ := Nat.exists_eq_succ_of_ne_zero (n := levels) (by omega)
    exact takes_of_exprStatement hvalue (takes_exprStatement hstyle hvalue) hstyle
  | nothing =>
    intro levels hlevels
    obtain ⟨levels, rfl⟩ := Nat.exists_eq_succ_of_ne_zero (n := levels) (Nat.ne_zero_of_lt hlevels)
    exact (takes_nothing style).of_branch rfl fun h hread => .kind h hread

end MiniC.Grammar
