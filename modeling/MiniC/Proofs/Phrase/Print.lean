import MiniC.Grammar.Power
import MiniC.Proofs.Tree.Written

/-!
# Printing trees

A tree is printed as words, which are tokens without their lines. A style says which operands stand in
parentheses: `Style.minimal` puts them where the operand binds less tightly than its place asks for,
`Style.full` around every operand that has parts or casts.
-/

namespace MiniC

/-- A token without its line. -/
structure Word where
  kind : TokenKind
  value : String := ""
  /-- There is no value unless tokens of the kind differ in theirs. -/
  plain : ¬kind.carriesValue → value = "" := by simp [TokenKind.carriesValue]
  deriving DecidableEq, Repr

/-- What a token says wherever it stands. -/
def Token.word (token : Token) : Word :=
  { kind := token.kind
    value := if token.kind.carriesValue then token.value else ""
    plain := fun hplain => if_neg hplain }

/-- A word as a token on a line. -/
def Word.token (line : Nat) (word : Word) : Token := { kind := word.kind, value := word.value, line }

theorem Word.word_token (line : Nat) (word : Word) : (word.token line).word = word := by
  obtain ⟨kind, value, hplain⟩ := word
  by_cases hcarries : kind.carriesValue
  · simp [token, Token.word, hcarries]
  · simp [token, Token.word, hcarries, hplain hcarries]

/-- The word of a mark or of a reserved word. -/
abbrev TokenKind.word (kind : TokenKind) : Word := { kind }

/-! ## Operators -/

namespace BinaryOp

/-- The token that stands for an operator. -/
def token : BinaryOp → TokenKind
  | assign => .assignment
  | arith .add => .plus
  | arith .sub => .dash
  | arith .mul => .star
  | arith .div => .slash
  | remainder => .percent
  | compare .equal => .equals
  | compare .notEqual => .notEquals
  | compare .less => .less
  | compare .lessEqual => .lessEquals
  | compare .greater => .greater
  | compare .greaterEqual => .greaterEquals
  | logic .and => .and
  | logic .or => .or

/-- How tightly an operator holds its operands. -/
def power : BinaryOp → Grammar.Power
  | assign => .assignment
  | logic .or => .logicalOr
  | logic .and => .logicalAnd
  | compare .equal | compare .notEqual => .equality
  | compare .less | compare .lessEqual | compare .greater | compare .greaterEqual => .relational
  | arith .add | arith .sub => .additive
  | arith .mul | arith .div | remainder => .multiplicative

end BinaryOp

/-- The token of a step. -/
def Direction.token : Direction → TokenKind
  | up => .plusPlus
  | down => .minusMinus

namespace UnaryOp

/-- The token that stands for an operator. -/
def token : UnaryOp → TokenKind
  | negate => .dash
  | not => .not
  | deref => .star
  | addressOf => .ampersand
  | step _ direction => direction.token

/-- How tightly an operator holds its operand. An operator behind it does so more tightly than one in
front. -/
def power : UnaryOp → Grammar.Power
  | step .after _ => .postfixed
  | _ => .unary

end UnaryOp

/-! ## Words of types and literals -/

/-- The token of a base type. -/
def BaseTy.token : BaseTy → TokenKind
  | void => .void
  | char => .char
  | int => .int

namespace Word

/-- Words between parentheses. -/
def inParens (words : List Word) : List Word :=
  TokenKind.openParen.word :: (words ++ [TokenKind.closeParen.word])

/-- Words between brackets. -/
def inBrackets (words : List Word) : List Word :=
  TokenKind.openBracket.word :: (words ++ [TokenKind.closeBracket.word])

/-- Words between braces. -/
def inBraces (words : List Word) : List Word :=
  TokenKind.openCurly.word :: (words ++ [TokenKind.closeCurly.word])

theorem inParens_append (words rest : List Word) :
    inParens words ++ rest = TokenKind.openParen.word :: (words ++ TokenKind.closeParen.word :: rest) := by
  simp [inParens]

theorem inBrackets_append (words rest : List Word) : inBrackets words ++ rest =
    TokenKind.openBracket.word :: (words ++ TokenKind.closeBracket.word :: rest) := by
  simp [inBrackets]

theorem inBraces_append (words rest : List Word) :
    inBraces words ++ rest = TokenKind.openCurly.word :: (words ++ TokenKind.closeCurly.word :: rest) := by
  simp [inBraces]

theorem length_inParens (words : List Word) : (inParens words).length = words.length + 2 := by
  simp [inParens]

/-- Words with commas between them. -/
def listed : List (List Word) → List Word
  | [] => []
  | words :: more => words ++ more.flatMap (TokenKind.comma.word :: ·)

/-- There are no fewer words than commas. -/
theorem length_le_listed (lists : List (List Word)) : lists.length ≤ (listed lists).length + 1 := by
  cases lists with
  | nil => exact Nat.zero_le _
  | cons words more =>
    have hmore : more.length ≤ (more.flatMap (TokenKind.comma.word :: ·)).length := by
      induction more with
      | nil => exact Nat.zero_le _
      | cons words more ih =>
        simp only [List.flatMap_cons, List.length_append, List.length_cons]
        omega
    simp only [listed, List.length_append, List.length_cons]
    omega

theorem length_le_of_mem_listed {words : List Word} {lists : List (List Word)} (h : words ∈ lists) :
    words.length ≤ (listed lists).length := by
  cases lists with
  | nil => cases h
  | cons first more =>
    simp only [listed, List.length_append]
    rcases List.mem_cons.mp h with rfl | hmore
    · exact Nat.le_add_right _ _
    · have hmem := List.mem_map_of_mem (f := (TokenKind.comma.word :: ·)) hmore
      have hle := (List.sublist_flatten_of_mem hmem).length_le
      rw [← List.flatMap_def, List.length_cons] at hle
      omega

/-- The mark of what cannot change. -/
def ofConst (constant : Bool) : List Word := if constant then [TokenKind.const.word] else []

/-- A name. -/
def ofName (name : String) : Word := { kind := .identifier, value := name }

@[simp] theorem kind_ofName (name : String) : (ofName name).kind = .identifier := rfl

/-- A character between quotes. -/
def ofChar (value : Char) : Word := { kind := .charLiteral, value := String.singleton value }

/-- A text between quotes. -/
def ofString (value : String) : Word := { kind := .string, value }

/-- The decimal numeral of a number. -/
def ofNat (value : Nat) : Word := { kind := .number, value := toString value }

/-- A sign, if there is one, and a numeral. -/
def ofInt (value : Int) : List Word :=
  if value < 0 then [TokenKind.dash.word, ofNat (-value).toNat] else [ofNat value.toNat]

/-- The size of an array, if it is given. -/
def ofSize (size : Option Nat) : List Word := inBrackets (size.map ofNat).toList

end Word

open Word

/-- A base type, with `const` in front of it, as the words of a specifier. -/
def BaseTy.words (name : BaseTy) (constant : Bool) : List Word := ofConst constant ++ [name.token.word]

/-- A type in front of a name, or in front of nothing. The brackets of an array stand behind the name. -/
def Ty.words : Ty → List Word
  | base name constant => name.words constant
  | pointer target constant => target.words ++ TokenKind.star.word :: ofConst constant
  | array element _ _ => element.words

/-- Casts in front of an expression. The last one is the outermost. -/
def castWords (casts : List Ty) : List Word := casts.reverse.flatMap fun type => inParens type.words

theorem castWords_append (casts : List Ty) (type : Ty) :
    castWords (casts ++ [type]) = inParens type.words ++ castWords casts := by
  simp [castWords]

/-! ## Phrases -/

/-- What has been printed for a tree, and what is at the top of it. -/
structure Phrase where
  content : Content
  words : List Word

/-- Where an operand stands. -/
inductive Phrase.Place
  | left (op : BinaryOp)
  | right (op : BinaryOp)
  | operand (op : UnaryOp)
  | array
  | index
  /-- Behind casts. -/
  | cast
  deriving DecidableEq, Repr

/-- Which operands stand in parentheses. -/
abbrev Style := Phrase.Place → Phrase → Bool

namespace Phrase

/-- How tightly what has been printed holds together. -/
def power (phrase : Phrase) : Grammar.Power :=
  if phrase.content.casts ≠ [] then .unary
  else match phrase.content.kind with
    | .binary op => op.power
    | .unary op => op.power
    | .subscript => .postfixed
    | _ => .primary

/-- Whether the first word is a number. A minus sign in front of it would become a part of the number. -/
def beginsWithNumber (phrase : Phrase) : Bool :=
  phrase.words.head?.any fun word => word.kind == .number

/-- Whether an operand has parts or casts. -/
def isComposite (phrase : Phrase) : Bool :=
  phrase.content.casts != [] || match phrase.content.kind with
    | .call .. | .binary _ | .unary _ | .subscript => true
    | _ => false

/-- What has neither parts nor casts holds together as tightly as can be. -/
theorem power_of_not_isComposite {phrase : Phrase} (h : ¬phrase.isComposite) : phrase.power = .primary := by
  obtain ⟨⟨kind, casts⟩, words⟩ := phrase
  simp only [isComposite, Bool.or_eq_true, not_or, bne_iff_ne, not_not] at h
  obtain ⟨rfl, hkind⟩ := h
  cases kind with
  | call | binary | unary | subscript => exact absurd rfl hkind
  | _ => rfl

/-- The words of an operand at its place. -/
def wordsAt (phrase : Phrase) (style : Style) (place : Place) : List Word :=
  if style place phrase then inParens phrase.words else phrase.words

/-- What stands behind the name that is declared with a type. -/
def brackets (phrase : Phrase) : List Word :=
  match phrase.content.kind with
  | .type ⟨.array size, _, _⟩ => ofSize size
  | _ => []

/-- A clause of a `for` loop without the semicolon behind it. -/
def clause (phrase : Phrase) : List Word :=
  match phrase.content.kind with
  | .nothing | .exprStatement => phrase.words.dropLast
  | _ => phrase.words

end Phrase

namespace Phrase.Place

/-- How tightly an operand has to hold together to stand at a place on its own. Assignments group to the
right, other binary operators to the left. -/
def least : Place → Nat
  | left .assign => Grammar.Power.assignment.level + 1
  | left op => op.power.level
  | right .assign => 0
  | right op => op.power.level + 1
  | operand op => op.power.level
  | array => Grammar.Power.postfixed.level
  | index => 0
  | cast => Grammar.Power.unary.level

/-- Whether an operand would be read differently without parentheses. -/
def needsParens (place : Place) (phrase : Phrase) : Bool :=
  decide (phrase.power.level < place.least) || (place == operand .negate && phrase.beginsWithNumber)

end Phrase.Place

namespace Style

/-- Parentheses only where they are needed. -/
def minimal : Style := Phrase.Place.needsParens

/-- Parentheses around every operand with parts or casts, and around every operand of a minus sign. -/
def full : Style := fun place phrase => phrase.isComposite || place == .operand .negate

/-- No parentheses that are needed are left out. -/
def Sound (style : Style) : Prop := ∀ place phrase, place.needsParens phrase → style place phrase

end Style

/-! ## Trees -/

/-- What a tree is printed as, given what has been printed for its parts. Its casts are left out. -/
def Kind.words (style : Style) : Kind → List Phrase → List Word
  | .int value, _ => ofInt value
  | .char value, _ => [ofChar value]
  | .string value _, _ => [ofString value]
  | .identifier name _, _ => [ofName name]
  | .call name _, arguments => ofName name :: inParens (listed (arguments.map Phrase.words))
  | .binary op, [left, right] =>
    left.wordsAt style (.left op) ++ op.token.word :: right.wordsAt style (.right op)
  | .unary (.step .after direction), [operand] =>
    operand.wordsAt style (.operand (.step .after direction)) ++ [direction.token.word]
  | .unary op, [operand] => op.token.word :: operand.wordsAt style (.operand op)
  | .subscript, [array, index] =>
    array.wordsAt style .array ++ inBrackets (index.wordsAt style .index)
  | .type ⟨.base name, constant, _⟩, _ => name.words constant
  | .type ⟨.pointer, constant, _⟩, [target] => target.words ++ TokenKind.star.word :: ofConst constant
  | .type ⟨.array _, _, _⟩, [element] => element.words
  | .initializers, items => inBraces (listed (items.map Phrase.words))
  | .declaration name _, written :: initial =>
    written.words ++ ofName name :: (written.brackets ++
      initial.flatMap (fun value => TokenKind.assignment.word :: value.words) ++
      [TokenKind.semicolon.word])
  | .parameter name _, [written] => written.words ++ [ofName name]
  | .parameters, params => inParens (listed (params.map Phrase.words))
  | .function name _, [result, params] =>
    result.words ++ ofName name :: (params.words ++ [TokenKind.semicolon.word])
  | .function name _, [result, params, body] =>
    result.words ++ ofName name :: (params.words ++ body.words)
  | .block, statements => inBraces (statements.flatMap Phrase.words)
  | .exprStatement, [value] => value.words ++ [TokenKind.semicolon.word]
  | .ifElse _, test :: yes :: no =>
    TokenKind.ifWord.word :: (inParens test.words ++ yes.words ++
      no.flatMap fun statement => TokenKind.elseWord.word :: statement.words)
  | .whileLoop _, [test, body] => TokenKind.whileWord.word :: (inParens test.words ++ body.words)
  | .forLoop _, [start, test, next, body] =>
    TokenKind.forWord.word :: (inParens
      (start.words ++ test.clause ++ TokenKind.semicolon.word :: next.clause) ++ body.words)
  | .giveBack, value =>
    TokenKind.returnWord.word :: (value.flatMap Phrase.words ++ [TokenKind.semicolon.word])
  | .breakOut _, _ => [TokenKind.breakWord.word, TokenKind.semicolon.word]
  | .continueOn _, _ => [TokenKind.continueWord.word, TokenKind.semicolon.word]
  | .nothing, _ => [TokenKind.semicolon.word]
  | .file, declarations => declarations.flatMap Phrase.words
  | _, parts => parts.flatMap Phrase.words

/-- What a tree is printed as, given what has been printed for its parts. -/
def Phrase.compose (style : Style) (content : Content) (parts : List Phrase) : Phrase :=
  let core : Phrase := { content := { kind := content.kind }, words := content.kind.words style parts }
  if content.casts = [] then core
  else { content, words := castWords content.casts ++ core.wordsAt style .cast }

namespace Tree

mutual

/-- A tree as it is printed. -/
def phrase (style : Style) : Tree → Phrase
  | .node content parts => .compose style content (phrases style parts)

/-- Trees as they are printed. -/
def phrases (style : Style) : List Tree → List Phrase
  | [] => []
  | part :: parts => phrase style part :: phrases style parts

end

/-- The words that a tree is printed as. -/
def words (style : Style) (tree : Tree) : List Word := (tree.phrase style).words

theorem phrases_eq_map (style : Style) (parts : List Tree) :
    phrases style parts = parts.map (phrase style) := by
  induction parts with
  | nil => rfl
  | cons part parts ih => rw [phrases, ih, List.map_cons]

theorem phrase_bare (style : Style) (kind : Kind) (parts : List Tree) : (bare kind parts).phrase style =
    { content := { kind }, words := kind.words style (parts.map (phrase style)) } := by
  rw [phrase, phrases_eq_map]
  rfl

theorem phrase_of_casts (style : Style) (kind : Kind) {casts : List Ty} (parts : List Tree)
    (h : casts ≠ []) : Tree.phrase style (.node ⟨kind, casts⟩ parts) =
      { content := ⟨kind, casts⟩,
        words := castWords casts ++ ((bare kind parts).phrase style).wordsAt style .cast } := by
  rw [phrase_bare, phrase, phrases_eq_map, Phrase.compose, if_neg h]

theorem power_of_casts (style : Style) (kind : Kind) {casts : List Ty} (parts : List Tree)
    (h : casts ≠ []) : (Tree.phrase style (.node ⟨kind, casts⟩ parts)).power = .unary := by
  rw [phrase_of_casts style kind parts h]
  exact if_pos h

theorem kind_phrase (style : Style) (tree : Tree) : (tree.phrase style).content.kind = tree.kind := by
  obtain ⟨⟨kind, casts⟩, parts⟩ := tree
  rw [phrase, Phrase.compose]
  split <;> rfl

theorem words_bare (style : Style) (kind : Kind) (parts : List Tree) :
    (bare kind parts).words style = kind.words style (parts.map (phrase style)) := by
  rw [words, phrase_bare]

/-! ### Forms of expressions and statements -/

theorem map_words (style : Style) (trees : List Tree) :
    (trees.map (phrase style)).map Phrase.words = trees.map (words style) :=
  List.map_map

theorem flatMap_words (style : Style) (trees : List Tree) :
    (trees.map (phrase style)).flatMap Phrase.words = trees.flatMap (words style) :=
  List.flatMap_map _ _ _

theorem words_call (style : Style) (name : String) (arguments : List Tree) :
    (bare (.call name none) arguments).words style =
      ofName name :: inParens (listed (arguments.map (words style))) := by
  rw [words_bare, ← map_words]
  rfl

theorem words_initializers (style : Style) (items : List Tree) :
    (bare .initializers items).words style = inBraces (listed (items.map (words style))) := by
  rw [words_bare, ← map_words]
  rfl

theorem words_parameters (style : Style) (params : List Tree) :
    (bare .parameters params).words style = inParens (listed (params.map (words style))) := by
  rw [words_bare, ← map_words]
  rfl

theorem words_block (style : Style) (statements : List Tree) :
    (bare .block statements).words style = inBraces (statements.flatMap (words style)) := by
  rw [words_bare, ← flatMap_words]
  rfl

theorem words_file (style : Style) (declarations : List Tree) :
    (bare .file declarations).words style = declarations.flatMap (words style) := by
  rw [words_bare, ← flatMap_words]
  rfl

theorem words_exprStatement (style : Style) (value : Tree) :
    (bare .exprStatement [value]).words style = value.words style ++ [TokenKind.semicolon.word] := by
  rw [words_bare]
  rfl

theorem words_ifElse (style : Style) (test yes : Tree) (no : Option Tree) :
    (bare (.ifElse none) (test :: yes :: no.toList)).words style =
      TokenKind.ifWord.word :: (inParens (test.words style) ++ (yes.words style ++
        no.toList.flatMap fun statement => TokenKind.elseWord.word :: statement.words style)) := by
  rw [words_bare, ← List.append_assoc]
  cases no <;> rfl

theorem words_whileLoop (style : Style) (test body : Tree) :
    (bare (.whileLoop none) [test, body]).words style =
      TokenKind.whileWord.word :: (inParens (test.words style) ++ body.words style) := by
  rw [words_bare]
  rfl

theorem words_forLoop (style : Style) (clause test step body : Tree) :
    (bare (.forLoop none) [clause, test, step, body]).words style =
      TokenKind.forWord.word :: TokenKind.openParen.word :: (clause.words style ++
        ((test.phrase style).clause ++ TokenKind.semicolon.word :: ((step.phrase style).clause ++
          TokenKind.closeParen.word :: body.words style))) := by
  have hparens : (bare (.forLoop none) [clause, test, step, body]).words style =
      TokenKind.forWord.word :: (inParens (clause.words style ++ (test.phrase style).clause ++
        TokenKind.semicolon.word :: (step.phrase style).clause) ++ body.words style) := by
    rw [words_bare]
    rfl
  rw [hparens, inParens_append, List.append_assoc, List.append_assoc, List.cons_append]

theorem words_giveBack (style : Style) (value : Option Tree) : (bare .giveBack value.toList).words style =
    TokenKind.returnWord.word :: (value.toList.flatMap (words style) ++ [TokenKind.semicolon.word]) := by
  rw [words_bare]
  cases value <;> rfl

end Tree

end MiniC
