import MiniC.Proofs.Grammar.Loop
import MiniC.Proofs.Grammar.Statement

/-!
# Every parser comes to an end

A list of tokens that ends with the end of input has a tree or is refused, and patience never runs out
on the way. Readers of expressions, types, statements, declarations and blocks take a token whenever
they have a result; a loop that goes on has taken one in its round; and no reader goes over the end of
input, so no position is behind it.
-/

namespace MiniC

/-- The place of the end of input among some tokens. -/
def Token.endOf (tokens : List Token) : Nat := tokens.findIdx fun token => token.kind == .eof

/-- How many of some tokens a parser has read. -/
def Parser.position (tokens : List Token) (parser : Parser) : Nat :=
  tokens.length - parser.rest.length

/-- A parser stands in front of one of the tokens, the end of input at most. -/
structure Parser.Within (tokens : List Token) (parser : Parser) : Prop where
  suffix : parser.rest <:+ tokens
  last_eq : tokens.getLast? = some parser.last
  position_le : parser.position tokens ≤ Token.endOf tokens

namespace Parser.Within

variable {tokens : List Token} {before parser : Parser} {least : Nat}

/-- Everything is still in front. -/
theorem of_start {last : Token} (h : tokens.getLast? = some last) : (Parser.start tokens).Within tokens :=
  ⟨List.suffix_refl tokens, by simp [Parser.start, h], by simp [position, Parser.start]⟩

/-- A parser that has gone on is further, and it is not behind the end of input. -/
theorem past (h : before.Within tokens) (hpast : before.Past least parser) :
    parser.Within tokens ∧ before.position tokens + least ≤ parser.position tokens := by
  obtain ⟨read, htokens⟩ := h.suffix
  obtain ⟨passed, hpassed, hleast, hnone⟩ := hpast.exists_passed
  have hbefore : before.position tokens = read.length := by
    rw [position, ← htokens, List.length_append, Nat.add_sub_cancel]
  have hparser : parser.position tokens = read.length + passed.length := by
    rw [position, ← htokens, hpassed, ← List.append_assoc, List.length_append, List.length_append,
      Nat.add_sub_cancel]
  refine ⟨⟨?_, by rw [hpast.last_eq, h.last_eq], ?_⟩, by omega⟩
  · exact ⟨read ++ passed, by rw [List.append_assoc, ← hpassed, htokens]⟩
  · have hle := h.position_le
    rw [hbefore, Token.endOf, ← htokens] at hle
    -- The end of input is neither among what was read before nor among what has been passed.
    have hnone' : ∀ token ∈ passed, (token.kind == .eof) = false := fun token hmem => by
      simpa using hnone token hmem
    rw [List.findIdx_append] at hle
    split at hle
    · omega
    · next hread =>
      rw [hpassed, List.findIdx_append, List.findIdx_eq_length_of_false hnone',
        if_neg (Nat.lt_irrefl _)] at hle
      rw [hparser, Token.endOf, ← htokens, List.findIdx_append, if_neg hread, hpassed,
        List.findIdx_append, List.findIdx_eq_length_of_false hnone', if_neg (Nat.lt_irrefl _)]
      omega

end Parser.Within

namespace Grammar

open Parse

variable {σ α : Type} {tokens : List Token} {least : Nat}

/-- Wherever it stands, a step with a result goes on by at least `least` tokens, and no step, be it
refused or not, goes back or behind the end of input. -/
def Progresses (tokens : List Token) (least : Nat) (step : Parse α) : Prop :=
  ∀ parser : Parser, parser.Within tokens →
    match step parser with
    | .ok _ parser' =>
      parser'.Within tokens ∧ parser.position tokens + least ≤ parser'.position tokens
    | .error _ parser' =>
      parser'.Within tokens ∧ parser.position tokens ≤ parser'.position tokens

/-- A reader goes round in a loop. A round after which there is another one goes on by a token at least,
and any number of rounds that is larger than that of the tokens gives the same result. -/
structure LoopsBy (tokens : List Token) (reader : Nat → σ → Parse α) (round : σ → Parse (σ ⊕ α)) :
    Prop where
  eq_loop : ∀ rounds state, reader rounds state = loop round rounds state
  round : ∀ state (parser : Parser), parser.Within tokens →
    match round state parser with
    | .ok (.inl _) parser' =>
      parser'.Within tokens ∧ parser.position tokens < parser'.position tokens
    | .ok (.inr _) parser' =>
      parser'.Within tokens ∧ parser.position tokens ≤ parser'.position tokens
    | .error _ parser' =>
      parser'.Within tokens ∧ parser.position tokens ≤ parser'.position tokens
  enough : ∀ {rounds rounds' : Nat} (state : σ) (parser : Parser), parser.Within tokens →
    parser.rest.length < rounds → parser.rest.length < rounds' →
    reader rounds state parser = reader rounds' state parser

/-- What comes to an end in front of some tokens. -/
structure ComesToAnEnd (tokens : List Token) : Prop where
  end_lt : Token.endOf tokens < tokens.length
  parse : (∃ forest, Grammar.parse tokens = .ok forest) ∨
    ∃ fault, Grammar.parse tokens = .error fault ∧ fault.Ordinary
  start : (Parser.start tokens).Within tokens
  file : Progresses tokens 0 file
  expression : ∀ levels power, Progresses tokens 1 (expressionWithin levels power)
  typeName : ∀ power, Progresses tokens 1 (typeName power)
  statement : ∀ levels, Progresses tokens 1 (statementWithin levels)
  declaration : ∀ levels, Progresses tokens 1 (declaration (statementWithin levels))
  block : ∀ levels, Progresses tokens 1 (block (statementWithin levels))
  operators : ∀ levels power, LoopsBy tokens (fun rounds _ => operators (expressionWithin levels) power rounds)
    (operatorRound (expressionWithin levels) power)
  typeSuffixes : ∀ power, LoopsBy tokens (fun rounds _ => typeSuffixes power rounds) (typeSuffixRound power)
  arguments : ∀ levels, LoopsBy tokens (argumentsFrom (expressionWithin levels))
    (argumentRound (expressionWithin levels))
  items : LoopsBy tokens itemsFrom itemRound
  parameters : LoopsBy tokens parametersFrom parameterRound
  declarators : ∀ levels base constant line,
    LoopsBy tokens (declaratorsFrom (statementWithin levels) base constant line)
      (declaratorRound (statementWithin levels) base constant line)
  statements : ∀ levels, LoopsBy tokens (statementsFrom (statementWithin levels))
    (statementRound (statementWithin levels))
  declarations : LoopsBy tokens declarationsFrom declarationRound

theorem kind_of_within {last : Token} {parser : Parser} (htokens : tokens.getLast? = some last)
    (hlast : last.kind = .eof) (h : parser.Within tokens) : parser.last.kind = .eof := by
  rw [← Option.some.inj (htokens.symm.trans h.last_eq), hlast]

section

variable {last : Token} (htokens : tokens.getLast? = some last) (hlast : last.kind = .eof)

include htokens hlast

theorem progresses_of_passes {step : Parse α} (h : ∀ {start}, Passes start least step) :
    Progresses tokens least step := by
  intro parser hparser
  have hend := kind_of_within htokens hlast hparser
  cases hresult : step parser with
  | ok value parser' => exact hparser.past ((@h parser).of_ok hend hresult)
  | error fault parser' => exact hparser.past ((@h parser).of_error hend hresult)

theorem loopsBy_of_turns {reader : Nat → σ → Parse α} {round : σ → Parse (σ ⊕ α)}
    (heq : ∀ rounds state, reader rounds state = loop round rounds state)
    (h : ∀ state start, Turns start (round state)) : LoopsBy tokens reader round := by
  refine ⟨heq, fun state parser hparser => ?_, fun state parser hparser hrounds hrounds' => ?_⟩
  · have hround := (h state parser).turns (kind_of_within htokens hlast hparser)
    cases hresult : round state parser with
    | ok value parser' =>
      rw [hresult] at hround
      cases value with
      | inl state => exact hparser.past hround
      | inr value => exact hparser.past hround
    | error fault parser' =>
      rw [hresult] at hround
      exact hparser.past hround
  · rw [heq, heq]
    exact loop_eq_of_lt h (kind_of_within htokens hlast hparser) hrounds hrounds'

end

/-- **Parsing comes to an end, and never behind the end of input.** -/
theorem parser_comes_to_an_end (tokens : List Token) (last : Token) (htokens : tokens.getLast? = some last)
    (hlast : last.kind = .eof) : ComesToAnEnd tokens where
  end_lt := by
    refine List.findIdx_lt_length_of_exists ⟨last, List.mem_of_getLast? htokens, ?_⟩
    simp [hlast]
  parse := by
    have hstart : (Parser.start tokens).last.kind = .eof := by simp [Parser.start, htokens, hlast]
    obtain ⟨forest, -, hparse, -⟩ | hrefused := parse_cases hstart
    · exact .inl ⟨forest, hparse⟩
    · exact .inr hrefused
  start := .of_start htokens
  file := progresses_of_passes htokens hlast passes_file
  expression levels power :=
    progresses_of_passes htokens hlast (passesExpressions_expressionWithin levels power)
  typeName power := progresses_of_passes htokens hlast (passes_typeName power)
  statement levels := progresses_of_passes htokens hlast (passesStatements_statementWithin levels)
  declaration levels :=
    progresses_of_passes htokens hlast (passes_declaration (passesStatements_statementWithin levels))
  block levels :=
    progresses_of_passes htokens hlast (passes_block (passesStatements_statementWithin levels))
  operators levels power := loopsBy_of_turns htokens hlast (fun rounds _ => operators_eq_loop _ _ rounds)
    fun _ _ => turns_operatorRound (passesExpressions_expressionWithin levels) power
  typeSuffixes power := loopsBy_of_turns htokens hlast (fun rounds _ => typeSuffixes_eq_loop _ rounds)
    fun _ _ => turns_typeSuffixRound power
  arguments levels := loopsBy_of_turns htokens hlast (argumentsFrom_eq_loop _)
    fun count _ => turns_argumentRound (passesExpressions_expressionWithin levels) count
  items := loopsBy_of_turns htokens hlast itemsFrom_eq_loop fun count _ => turns_itemRound count
  parameters := loopsBy_of_turns htokens hlast parametersFrom_eq_loop
    fun count _ => turns_parameterRound count
  declarators levels base constant line :=
    loopsBy_of_turns htokens hlast (declaratorsFrom_eq_loop _ _ _ _)
      fun count _ => turns_declaratorRound (passesStatements_statementWithin levels) _ _ _ count
  statements levels := loopsBy_of_turns htokens hlast (statementsFrom_eq_loop _)
    fun count _ => turns_statementRound (passesStatements_statementWithin levels) count
  declarations := loopsBy_of_turns htokens hlast declarationsFrom_eq_loop
    fun count _ => turns_declarationRound count

/-- An open parenthesis in front of the end of input, where arguments end neither with `)` nor with a
token. -/
theorem parser_comes_to_an_end_unclosed :
    ComesToAnEnd [⟨.int, "int", 1⟩, ⟨.identifier, "f", 1⟩, ⟨.openParen, "(", 1⟩, ⟨.eof, "", 1⟩] :=
  parser_comes_to_an_end _ ⟨.eof, "", 1⟩ rfl rfl

end Grammar

end MiniC
