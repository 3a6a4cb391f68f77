import MiniC.Proofs.Phrase.Expression

/-!
# The precedence of operators

An expression is printed with parentheses only where an operand binds less tightly than its place asks for.
The reader of expressions takes what has been printed, no less and no more, and builds the expression anew.
-/

namespace MiniC

/-- Whatever the builder holds, one tree on top of it is one more operand. -/
theorem Builder.Grown.exists_operand {base builder : Builder} {tree : Tree} (h : base.Grown [tree] builder) :
    ∃ id, builder.stack = id :: base.stack ∧ builder.forest.contents id = tree := by
  obtain ⟨more, rfl, hshows, -⟩ := h.exists_more
  obtain ⟨id, hstack, htree⟩ := List.map_eq_singleton_iff.mp hshows.stack_eq
  refine ⟨id + base.forest.size, by simp [extend, hstack], ?_⟩
  rw [extend, Forest.contents_extend (Forest.Rising.ranked hshows.rising), htree]

/-- A parser whose words are those behind some tokens is in front of these. -/
theorem Parser.Ahead.rest_eq {origin parser : Parser} {tokens rest : List Token} {trees : List Tree}
    (hrest : origin.rest = tokens ++ rest) (h : origin.Ahead (rest.map Token.word) trees parser) :
    parser.rest = rest := by
  have hsuffix : rest <:+ origin.rest := ⟨tokens, hrest.symm⟩
  have hlength : parser.rest.length = rest.length := by rw [h.length_eq, List.length_map]
  exact (List.suffix_of_suffix_length_le h.suffix hsuffix (Nat.le_of_eq hlength)).eq_of_length hlength

namespace Grammar

/-- No token of the kind goes on with an expression that stands in front of it: it is no operator between
operands or behind one, and it does not open the arguments of a call. -/
structure LeavesAlone (kind : TokenKind) : Prop where
  binary : ∀ op : BinaryOp, kind ≠ op.token
  step : ∀ direction : Direction, kind ≠ direction.token
  openBracket : kind ≠ .openBracket
  openParen : kind ≠ .openParen

theorem strength_of_leavesAlone {kind : TokenKind} (h : LeavesAlone kind) : strength kind = 0 := by
  cases kind with
  | assignment => exact absurd rfl (h.binary .assign)
  | or => exact absurd rfl (h.binary (.logic .or))
  | and => exact absurd rfl (h.binary (.logic .and))
  | equals => exact absurd rfl (h.binary (.compare .equal))
  | notEquals => exact absurd rfl (h.binary (.compare .notEqual))
  | less => exact absurd rfl (h.binary (.compare .less))
  | lessEquals => exact absurd rfl (h.binary (.compare .lessEqual))
  | greater => exact absurd rfl (h.binary (.compare .greater))
  | greaterEquals => exact absurd rfl (h.binary (.compare .greaterEqual))
  | plus => exact absurd rfl (h.binary (.arith .add))
  | dash => exact absurd rfl (h.binary (.arith .sub))
  | star => exact absurd rfl (h.binary (.arith .mul))
  | slash => exact absurd rfl (h.binary (.arith .div))
  | percent => exact absurd rfl (h.binary .remainder)
  | plusPlus => exact absurd rfl (h.step .up)
  | minusMinus => exact absurd rfl (h.step .down)
  | openBracket => exact absurd rfl h.openBracket
  | _ => rfl

theorem sound_minimal : Style.minimal.Sound := fun _ _ h => h

open Parse

/-- **Expressions are read as the table of precedence says.** -/
theorem expression_follows_precedence {tree : Tree} (htree : tree.IsExpression) {parser : Parser}
    {tokens rest : List Token} {next : Token} (hrest : parser.rest = tokens ++ next :: rest)
    (htokens : tokens.map Token.word = tree.words .minimal) (hnext : LeavesAlone next.kind) :
    ∃ parser' id, expression .default parser = .ok () parser' ∧ parser'.rest = next :: rest ∧
      parser'.builder.stack = id :: parser.builder.stack ∧
      parser'.builder.forest.contents id = tree := by
  have hahead : parser.Ahead (tree.words .minimal ++ next.word :: rest.map Token.word) [] parser := by
    have hself := Parser.Ahead.self parser
    rwa [hrest, List.map_append, htokens, List.map_cons] at hself
  have hread : Ends (expression .default) parser _ :=
    (readAs_words sound_minimal htree).ends_expression hahead (by decide) hnext.openParen
      (strength_of_leavesAlone hnext)
  obtain ⟨⟨⟩, parser', hrun, h⟩ := Ensures.exists_ok hread
  obtain ⟨id, hstack, hcontents⟩ := h.grown.exists_operand
  exact ⟨parser', id, hrun, Parser.Ahead.rest_eq hrest h, hstack, hcontents⟩

/-- The tokens of `x = (char) y * (1 - -2) - z[3]`. -/
def mixedTokens : List Token := [
  ⟨.identifier, "x", 1⟩, ⟨.assignment, "=", 1⟩, ⟨.openParen, "(", 1⟩, ⟨.char, "char", 1⟩,
  ⟨.closeParen, ")", 1⟩, ⟨.identifier, "y", 1⟩, ⟨.star, "*", 1⟩, ⟨.openParen, "(", 1⟩, ⟨.number, "1", 1⟩,
  ⟨.dash, "-", 1⟩, ⟨.dash, "-", 1⟩, ⟨.number, "2", 1⟩, ⟨.closeParen, ")", 1⟩, ⟨.dash, "-", 1⟩,
  ⟨.identifier, "z", 1⟩, ⟨.openBracket, "[", 1⟩, ⟨.number, "3", 1⟩, ⟨.closeBracket, "]", 1⟩]

/-- What they say. -/
def mixedTree : Tree :=
  .bare (.binary .assign) [.bare (.identifier "x" none) [],
    .bare (.binary (.arith .sub)) [
      .bare (.binary (.arith .mul)) [
        .node ⟨.identifier "y" none, [.char]⟩ [],
        .bare (.binary (.arith .sub)) [.bare (.int 1) [], .bare (.int (-2)) []]],
      .bare .subscript [.bare (.identifier "z" none) [], .bare (.int 3) []]]]

/-- A cast, an operand in parentheses and a negative number on the right of an assignment, in front of a
semicolon and above an operand that the builder has already. -/
theorem expression_follows_precedence_mixed :
    ∃ parser' id, expression .default
        ⟨mixedTokens ++ [⟨.semicolon, ";", 1⟩], .endOfInput 1, ⟨{}, [7]⟩⟩ = .ok () parser' ∧
      parser'.rest = [⟨.semicolon, ";", 1⟩] ∧ parser'.builder.stack = [id, 7] ∧
      parser'.builder.forest.contents id = mixedTree := by
  have hnumber : ∀ {value : Int}, -2 ≤ value → value ≤ 3 → (Tree.bare (.int value) []).IsExpression :=
    fun hle hge => .int (Int.le_trans (by decide) hle) (Int.le_trans hge (by decide))
  have hcast : Tree.IsExpression (.node ⟨.identifier "y" none, [] ++ [Ty.char]⟩ []) :=
    .cast trivial (.identifier "y")
  have htree : mixedTree.IsExpression := .binary _ (.identifier "x") <| .binary _
    (.binary _ hcast (.binary _ (hnumber (by decide) (by decide)) (hnumber (by decide) (by decide))))
    (.subscript (.identifier "z") (hnumber (by decide) (by decide)))
  have hops : ∀ op ∈ BinaryOp.all, TokenKind.semicolon ≠ op.token := by decide
  have hnext : LeavesAlone .semicolon :=
    ⟨fun op => hops op (BinaryOp.mem_all op), fun direction => by cases direction <;> decide,
      by decide, by decide⟩
  exact expression_follows_precedence htree rfl (by decide +kernel) hnext

end Grammar

end MiniC
