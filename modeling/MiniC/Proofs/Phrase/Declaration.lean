import MiniC.Grammar.Statement
import MiniC.Proofs.Phrase.Expression

/-!
# Reading declarations

The words of a declaration are read as the declaration, be it that of a variable or that of a function. What
the body of a function says is left to the reader of its statements.
-/

namespace MiniC

open Word

/-! ## Words of types -/

namespace Tree

variable {style : Style} {type : Ty}

theorem words_written (style : Style) (htype : type.Flat) (topLevel : Bool) :
    (type.written topLevel).words style = type.words := by
  induction type generalizing topLevel with
  | base name constant => rfl
  | array => exact htype.elim
  | pointer target constant ih =>
    rw [Ty.written, words_bare, Ty.words, ← ih htype false]
    rfl

theorem brackets_written (style : Style) (htype : type.Flat) (topLevel : Bool) :
    ((type.written topLevel).phrase style).brackets = [] := by
  cases type with
  | array => exact htype.elim
  | _ => rw [Ty.written, phrase_bare]; rfl

theorem words_arrayOf (style : Style) (topLevel : Bool) (htype : type.Flat) (size : Option Nat) :
    (arrayOf topLevel type size).words style = type.words := by
  rw [words_bare, ← words_written style htype false]
  rfl

theorem brackets_arrayOf (style : Style) (topLevel : Bool) (type : Ty) (size : Option Nat) :
    ((arrayOf topLevel type size).phrase style).brackets = ofSize size := by
  rw [phrase_bare]
  rfl

/-- What stands in front of the name of a variable, and what its type is. -/
structure IsVariable (element : Ty) (type : Tree) : Prop where
  flat : element.Flat
  cases : type = element.written true ∨
    ∃ size, (∀ count ∈ size, count < 18446744073709551616) ∧ type = arrayOf true element size

theorem IsDeclaredType.exists_element {type : Tree} (h : type.IsDeclaredType) :
    ∃ element, IsVariable element type := by
  cases h with
  | plain h => exact ⟨_, h, .inl rfl⟩
  | array h hsize => exact ⟨_, h, .inr ⟨_, hsize, rfl⟩⟩

theorem IsVariable.words_eq {element : Ty} {type : Tree} (h : IsVariable element type) :
    type.words style = element.words := by
  obtain rfl | ⟨size, -, rfl⟩ := h.cases
  · exact words_written style h.flat true
  · exact words_arrayOf style true h.flat size

end Tree

/-- Behind a base type there is a `*` or what stands behind the type. -/
theorem Ty.exists_suffixes (type : Ty) (next : Word) (rest : List Word) :
    ∃ first more, type.suffixes ++ next :: rest = first :: more ∧ (first = next ∨ first.kind = .star) := by
  induction type generalizing next rest with
  | base => exact ⟨next, rest, rfl, .inl rfl⟩
  | array element size constant ih => exact ih next rest
  | pointer target constant ih =>
    rw [suffixes, List.append_assoc]
    obtain ⟨first, more, hfirst, h⟩ := ih TokenKind.star.word (ofConst constant ++ next :: rest)
    exact ⟨first, more, hfirst, .inr (h.elim (congrArg Word.kind) id)⟩

/-- A parameter starts with its type, which is not alone. -/
theorem Tree.IsParameter.exists_words {param : Tree} (h : param.IsParameter) (style : Style) :
    ∃ first second more, param.words style = first :: second :: more ∧ first.kind.startsType = true ∧
      second.kind ≠ .closeParen := by
  obtain @⟨name, type, htype⟩ := h
  have hwords : (bare (.parameter name none) [type.written true]).words style =
      type.stem.1.words type.stem.2 ++ (type.suffixes ++ [ofName name]) := by
    rw [words_bare, ← List.append_assoc, ← Ty.words_eq, ← words_written style htype true]
    rfl
  rw [hwords]
  cases type.stem with
  | mk base constant =>
    cases constant with
    | true =>
      exact ⟨_, _, _, rfl, rfl, by cases base <;> decide⟩
    | false =>
      obtain ⟨first, more, hfirst, h⟩ := type.exists_suffixes (ofName name) []
      rw [hfirst]
      refine ⟨_, first, more, rfl, by cases base <;> rfl, ?_⟩
      obtain rfl | hstar := h
      · exact nofun
      · simp [hstar]

namespace Grammar

open Parse

variable {origin start : Parser} {next : Word} {rest : List Word} {trees : List Tree} {type : Ty}
  {style : Style} {line : Nat} {post : Unit → Parser → Prop}

/-! ## Variables -/

theorem ends_specifier (type : Ty) (hnext : next.kind ≠ .const)
    (h : origin.Ahead (type.words ++ next :: rest) trees start) :
    Ends specifier start fun found parser =>
      found = type.stem ∧ origin.Ahead (type.suffixes ++ next :: rest) trees parser := by
  rw [Ty.words_eq, List.append_assoc] at h
  obtain ⟨first, more, hfirst, hsuffix⟩ := type.exists_suffixes next rest
  have hconst : first.kind ≠ .const := by
    obtain rfl | hstar := hsuffix
    · exact hnext
    · simp [hstar]
  rw [hfirst] at h ⊢
  cases hstem : type.stem with
  | mk name constant =>
    rw [hstem] at h
    have hname : ∀ parser before, origin.Ahead (name.token.word :: first :: more) trees parser →
        Ends (baseType >>= fun name => accept .const >>= fun after => pure (name, before || after)) parser
          fun found parser => found = (name, before) ∧ origin.Ahead (first :: more) trees parser := by
      intro parser before h
      refine (ends_baseType name h).bind fun found parser h => (Ends.pass h.2 hconst).bind fun after parser h' => ?_
      rw [h.1, h'.1, Bool.or_false]
      exact .pure ⟨rfl, h'.2⟩
    cases constant with
    | false =>
      have hkind : name.token.word.kind ≠ .const := by cases name <;> decide
      refine (Ends.pass h hkind).bind fun before parser h => ?_
      rw [h.1]
      exact hname parser false h.2
    | true =>
      refine (Ends.accept h rfl).bind fun before parser h => ?_
      rw [h.1]
      exact hname parser true h.2

/-- Something may be done before the rest. -/
theorem ends_stem {α : Type} {following : PUnit → Parse α} {words : List Word} {post : α → Parser → Prop}
    (name : BaseTy) (constant : Bool) (h : origin.Ahead words trees start)
    (hnext : ∀ parser, origin.Ahead words ((Ty.base name constant).written false :: trees) parser →
      Ends (following ⟨⟩) parser post) :
    Ends (build (.type (.base name) line) >>= fun _ =>
      if constant = true then build (.const line) >>= following else following ⟨⟩) start post := by
  refine (Ends.build (Build.composes_base name) h).bind fun _ parser h => ?_
  cases constant with
  | false => exact hnext parser h
  | true =>
    have hflat : (Ty.base name false).Flat := trivial
    exact (Ends.build (Build.composes_const hflat) h).bind fun _ parser h => hnext parser h

/-! ### Initializers -/

theorem readsItems_items (print : Tree → List Word) :
    ReadsItems itemsFrom .closeCurly print fun item => ∃ power, ReadAs (print item) item power where
  stops := by
    intro origin start rest trees rounds count h
    exact .kind h (.pos rfl (.pure ⟨rfl, h⟩))
  goes_on := by
    rintro origin start next rest trees rounds count item post ⟨power, hitem⟩ hnext h hpost
    obtain ⟨first, more, hfirst, hstarts⟩ := hitem.starts
    have hnext : next.kind ≠ .openParen ∧ strength next.kind = 0 := by
      rcases hnext with rfl | rfl <;> exact ⟨by simp, rfl⟩
    have hread : ∀ parser, origin.Ahead (print item ++ next :: rest) trees parser →
        Ends (expression .comma >>= fun _ => itemsFrom rounds (count + 1)) parser post := fun parser h =>
      (hitem.ends_expression h (Nat.le_refl _) hnext.1 hnext.2).bind fun _ parser h => hpost parser h
    have hclose : ∀ parser, origin.Ahead (print item ++ next :: rest) trees parser →
        origin.Ahead (first :: (more ++ next :: rest)) trees parser := by
      intro parser h
      rwa [hfirst] at h
    have hne : first.kind ≠ .closeCurly := ne_of_startsOperand hstarts rfl
    cases count with
    | zero => exact .kind (hclose _ h) (.neg hne (.neg (Nat.lt_irrefl 0) (hread _ h)))
    | succ count =>
      refine .kind h (.neg (by simp) (.pos (Nat.zero_lt_succ _) ?_))
      exact (Ends.expect h rfl).bind fun _ parser h => .kind (hclose _ h.2) (.neg hne (hread parser h.2))

theorem ends_initializerList {items : List Tree} (print : Tree → List Word)
    (hitems : ∀ item ∈ items, ∃ power, ReadAs (print item) item power)
    (h : origin.Ahead (inBraces (listed (items.map print)) ++ rest) trees start) :
    Ends initializerList start fun _ parser => origin.Ahead rest (.bare .initializers items :: trees) parser := by
  rw [inBraces_append] at h
  have hrounds := length_le_listed (items.map print)
  rw [List.length_map] at hrounds
  refine (Ends.expect h rfl).bind fun opening parser h => .patience h.2 ?_
  refine ((readsItems_items print).ends hitems h.2 ?_).bind fun count parser h => ?_
  · rw [List.length_append, List.length_cons]
    omega
  · have hlist : Build.Composes (Build.initializers items.reverse.length opening.line) items.reverse _ :=
      Build.composes_initializers fun item hmem =>
        (hitems item (List.mem_reverse.mp hmem)).elim fun _ h => h.isExpression
    rw [List.length_reverse, List.reverse_reverse, ← h.1] at hlist
    exact (Ends.expect h.2 rfl).bind fun _ parser h => .build hlist h.2

/-- The initializer of a variable, which may be a list. -/
theorem ends_initial {following : PUnit → Parse Unit} {value : Tree} (hstyle : style.Sound)
    (hvalue : value.IsInitial) (hparen : next.kind ≠ .openParen) (hnext : strength next.kind = 0)
    (h : origin.Ahead (value.words style ++ next :: rest) trees start)
    (hfollowing : ∀ parser, origin.Ahead (next :: rest) (value :: trees) parser →
      Ends (following ⟨⟩) parser post) :
    Ends (Parse.kind >>= fun kind => if kind = .openCurly then initializerList >>= following
      else expression .comma >>= following) start post := by
  cases hvalue with
  | expression hvalue =>
    have hread := readAs_words hstyle hvalue
    obtain ⟨first, more, hfirst, hstarts⟩ := hread.starts
    have hfront := h
    rw [hfirst] at hfront
    refine .kind hfront (.neg (ne_of_startsOperand hstarts rfl) ?_)
    exact (hread.ends_expression h (Nat.le_refl _) hparen hnext).bind fun _ parser h => hfollowing parser h
  | @list items hitems =>
    rw [Tree.words_initializers] at h
    refine .kind h (.pos rfl ?_)
    refine (ends_initializerList (Tree.words style) (fun item hmem => ⟨_, readAs_words hstyle (hitems item hmem)⟩)
      h).bind fun _ parser h => hfollowing parser h

/-! ### Declarations of variables -/

theorem ends_arraySize (size : Option Nat) (hsize : ∀ count ∈ size, count < 18446744073709551616)
    (h : origin.Ahead ((size.map ofNat).toList ++ TokenKind.closeBracket.word :: rest) trees start) :
    Ends arraySize start fun found parser =>
      found = size ∧ origin.Ahead (TokenKind.closeBracket.word :: rest) trees parser := by
  cases size with
  | none => exact .kind h (.neg (by simp) (.pure ⟨rfl, h⟩))
  | some count =>
    refine .kind h (.pos rfl ((Ends.advance h).bind fun digits parser h => ?_))
    have hcount : Literal.size? (ofNat count).value = some count := Literal.size?_toString (hsize count rfl)
    rw [(Token.value_of_word h.1 rfl).2, hcount]
    exact .pure ⟨rfl, h.2⟩

/-- What is printed behind the type, the name and the brackets of a variable. -/
def initialWords (style : Style) (initial : Option Tree) : List Word :=
  (initial.toList.map (Tree.phrase style)).flatMap fun value => TokenKind.assignment.word :: value.words

theorem exists_initialWords (style : Style) (initial : Option Tree) (rest : List Word) :
    ∃ first more, initialWords style initial ++ TokenKind.semicolon.word :: rest = first :: more ∧
      (first.kind = .assignment ∨ first.kind = .semicolon) := by
  cases initial with
  | none => exact ⟨_, _, rfl, .inr rfl⟩
  | some value => exact ⟨_, _, rfl, .inl rfl⟩

theorem ends_initialized (name : String) {written declared : Tree} {initial : Option Tree}
    (hstyle : style.Sound) (htype : Tree.Declares written declared)
    (hinitial : ∀ value ∈ initial, value.IsInitial)
    (h : origin.Ahead (initialWords style initial ++ TokenKind.semicolon.word :: rest) (written :: trees)
      start) :
    Ends
      (do
        let initialized ← accept .assignment
        if initialized then
          if (← kind) = .openCurly then initializerList else expression .comma
        build (.declaration name initialized line)) start fun _ parser =>
      origin.Ahead (TokenKind.semicolon.word :: rest)
        (.bare (.declaration name none) (declared :: initial.toList) :: trees) parser := by
  have hbuild : Build.Composes (Build.declaration name initial.isSome line) _ _ :=
    Build.composes_declaration name htype hinitial
  cases initial with
  | none =>
    refine (Ends.pass h (by simp)).bind fun initialized parser h => ?_
    rw [h.1]
    exact .build hbuild h.2
  | some value =>
    have hwords : initialWords style (some value) = TokenKind.assignment.word :: value.words style :=
      List.append_nil _
    rw [hwords] at h
    refine (Ends.accept h rfl).bind fun initialized parser h => ?_
    rw [h.1]
    exact ends_initial hstyle (hinitial value rfl) (by simp) rfl h.2 fun parser h => .build hbuild h

/-- Behind the name of a variable stand the brackets of its type and its initializer. -/
theorem ends_variableRest (name : String) {type : Tree} {initial : Option Tree} {element : Ty}
    (hstyle : style.Sound) (htype : Tree.IsVariable element type)
    (hinitial : ∀ value ∈ initial, value.IsInitial)
    (h : origin.Ahead ((type.phrase style).brackets ++ (initialWords style initial ++
      TokenKind.semicolon.word :: rest)) (element.written false :: trees) start) :
    Ends (variableRest name line) start fun _ parser => origin.Ahead (TokenKind.semicolon.word :: rest)
      (.bare (.declaration name none) (type :: initial.toList) :: trees) parser := by
  obtain rfl | ⟨size, hsize, rfl⟩ := htype.cases
  · rw [Tree.brackets_written style htype.flat, List.nil_append] at h
    obtain ⟨first, more, hfirst, hkind⟩ := exists_initialWords style initial rest
    rw [hfirst] at h
    refine (Ends.pass h (by rcases hkind with hkind | hkind <;> simp [hkind])).bind fun found parser h => ?_
    rw [h.1]
    rw [← hfirst] at h
    exact ends_initialized name hstyle (.plain htype.flat) hinitial h.2
  · rw [Tree.brackets_arrayOf, ofSize, inBrackets_append] at h
    refine (Ends.accept h rfl).bind fun found parser h => ?_
    rw [h.1]
    refine (ends_arraySize size hsize h.2).bind fun found parser h => ?_
    rw [h.1]
    refine (Ends.expect h.2 rfl).bind fun _ parser h => ?_
    exact (Ends.build (Build.composes_arrayType htype.flat size) h.2).bind fun _ parser h =>
      ends_initialized name hstyle (.array htype.flat hsize) hinitial h

/-! ## Blocks -/

/-- What no statement starts with. -/
def startsStatement : TokenKind → Bool
  | .eof | .closeCurly | .closeParen | .elseWord => false
  | _ => true

theorem startsStatement_of_startsType {kind : TokenKind} (h : kind.startsType = true) :
    startsStatement kind := by
  cases kind <;> first | rfl | cases h

/-- A reader of statements takes the words that are printed for one. An `else` behind them must not belong
to it. -/
structure Takes (inner : Parse Nat) (style : Style) (statement : Tree) : Prop where
  isStatement : statement.IsStatement
  starts : ∃ first more, statement.words style = first :: more ∧ startsStatement first.kind
  ends : ∀ {origin start : Parser} {next : Word} {rest : List Word} {trees : List Tree},
    origin.Ahead (statement.words style ++ next :: rest) trees start →
    (statement.IsOpen → next.kind ≠ .elseWord) →
    Ends inner start fun count parser =>
      count = 1 ∧ origin.Ahead (next :: rest) (statement :: trees) parser

variable {inner : Parse Nat} {statements : List Tree}

/-- Behind a statement in braces there is another one or the brace. -/
theorem exists_next_statement (hstatements : ∀ statement ∈ statements, Takes inner style statement)
    (rest : List Word) :
    ∃ next more, statements.flatMap (Tree.words style) ++ TokenKind.closeCurly.word :: rest = next :: more ∧
      next.kind ≠ .elseWord := by
  cases statements with
  | nil => exact ⟨_, _, rfl, by simp⟩
  | cons statement statements =>
    obtain ⟨first, more, hfirst, hstarts⟩ := (hstatements statement List.mem_cons_self).starts
    refine ⟨first, _, by rw [List.flatMap_cons, hfirst]; rfl, ?_⟩
    intro helse
    rw [helse] at hstarts
    cases hstarts

theorem ends_statementsFrom {rounds count : Nat}
    (hstatements : ∀ statement ∈ statements, Takes inner style statement)
    (h : origin.Ahead (statements.flatMap (Tree.words style) ++ TokenKind.closeCurly.word :: rest) trees
      start) (hrounds : statements.length < rounds) :
    Ends (statementsFrom inner rounds count) start fun found parser => found = count + statements.length ∧
      origin.Ahead (TokenKind.closeCurly.word :: rest) (statements.reverse ++ trees) parser := by
  induction statements generalizing start trees rounds count with
  | nil =>
    obtain ⟨rounds, rfl⟩ := Nat.exists_eq_succ_of_ne_zero (Nat.ne_zero_of_lt hrounds)
    exact .get (.kind h (.neg (by simp) (.pure ⟨rfl, h⟩)))
  | cons statement statements ih =>
    obtain ⟨rounds, rfl⟩ := Nat.exists_eq_succ_of_ne_zero (Nat.ne_zero_of_lt hrounds)
    obtain ⟨hstatement, hstatements⟩ := List.forall_mem_cons.mp hstatements
    obtain ⟨first, _, hfirst, hstarts⟩ := hstatement.starts
    obtain ⟨next, more, hmore, hnext⟩ := exists_next_statement hstatements rest
    rw [List.flatMap_cons, List.append_assoc, hmore] at h
    have hfront := h
    rw [hfirst] at hfront
    have hgo : (start.hasTokens && first.kind != .closeCurly) = true := by
      rw [hfront.hasTokens_eq]
      revert hstarts
      cases first.kind <;> decide
    refine .get (.kind hfront (.pos hgo ?_))
    refine (hstatement.ends h fun _ => hnext).bind fun one parser h => ?_
    rw [← hmore] at h
    refine (ih hstatements h.2 (Nat.lt_of_succ_lt_succ hrounds)).imp fun found parser h' => ?_
    rw [List.length_cons, List.reverse_cons, List.append_assoc]
    exact ⟨by omega, h'.2⟩

theorem length_le_flatMap (hstatements : ∀ statement ∈ statements, Takes inner style statement) :
    statements.length ≤ (statements.flatMap (Tree.words style)).length := by
  induction statements with
  | nil => exact Nat.le_refl 0
  | cons statement statements ih =>
    obtain ⟨hstatement, hstatements⟩ := List.forall_mem_cons.mp hstatements
    obtain ⟨first, more, hfirst, -⟩ := hstatement.starts
    have hle := ih hstatements
    rw [List.flatMap_cons, hfirst, List.length_append, List.length_cons, List.length_cons]
    omega

/-- Statements in braces. -/
theorem ends_block (hstatements : ∀ statement ∈ statements, Takes inner style statement)
    (h : origin.Ahead ((Tree.bare .block statements).words style ++ rest) trees start) :
    Ends (block inner) start fun count parser =>
      count = 1 ∧ origin.Ahead rest (.bare .block statements :: trees) parser := by
  rw [Tree.words_block, inBraces_append] at h
  have hrounds := length_le_flatMap hstatements
  refine (Ends.expect h rfl).bind fun opening parser h => .patience h.2 ?_
  refine (ends_statementsFrom hstatements h.2 ?_).bind fun count parser h => ?_
  · rw [List.length_append]
    omega
  · have hblock : Build.Composes (Build.block statements.reverse.length opening.line) statements.reverse _ :=
      Build.composes_block fun statement hmem => (hstatements statement (List.mem_reverse.mp hmem)).isStatement
    rw [List.length_reverse, List.reverse_reverse, ← Nat.zero_add statements.length, ← h.1] at hblock
    exact (Ends.expect h.2 rfl).bind fun _ parser h => (Ends.build hblock h.2).bind fun _ parser h =>
      .pure ⟨rfl, h⟩

/-! ## Functions -/

theorem ends_parameter {param : Tree} (hparam : param.IsParameter)
    (hnext : next = TokenKind.comma.word ∨ next = TokenKind.closeParen.word)
    (h : origin.Ahead (param.words style ++ next :: rest) trees start) :
    Ends parameter start fun _ parser => origin.Ahead (next :: rest) (param :: trees) parser := by
  obtain @⟨name, type, htype⟩ := hparam
  have hwords : (Tree.bare (.parameter name none) [type.written true]).words style =
      type.words ++ [ofName name] := by
    rw [Tree.words_bare, ← Tree.words_written style htype true]
    rfl
  rw [hwords, List.append_assoc] at h
  have hbracket : next.kind ≠ .openBracket := by rcases hnext with rfl | rfl <;> simp
  refine (ends_typeName htype (by simp) (by simp) h).bind fun _ parser h => ?_
  refine (Ends.expectName h rfl).bind fun token parser h => ?_
  rw [(Token.value_of_word h.1 rfl).2]
  refine (Ends.pass h.2 hbracket).bind fun found parser h => ?_
  rw [h.1]
  exact .build (Build.composes_parameter name htype) h.2

theorem readsItems_parameters (style : Style) :
    ReadsItems parametersFrom .closeParen (Tree.words style) Tree.IsParameter where
  stops := by
    intro origin start rest trees rounds count h
    exact .kind h (.pos rfl (.pure ⟨rfl, h⟩))
  goes_on := by
    rintro origin start next rest trees rounds count param post hparam hnext h hpost
    have hread : ∀ parser, origin.Ahead (param.words style ++ next :: rest) trees parser →
        Ends (parameter >>= fun _ => parametersFrom rounds (count + 1)) parser post := fun parser h =>
      (ends_parameter hparam hnext h).bind fun _ parser h => hpost parser h
    obtain ⟨first, second, more, hfirst, hstarts, -⟩ := hparam.exists_words style
    cases count with
    | zero =>
      have h' := h
      rw [hfirst] at h'
      refine .kind h' (.neg ?_ (.neg (Nat.lt_irrefl 0) (hread _ h)))
      rintro hclose
      rw [hclose] at hstarts
      cases hstarts
    | succ count =>
      exact .kind h (.neg (by simp) (.pos (Nat.zero_lt_succ _)
        ((Ends.expect h rfl).bind fun _ parser h => hread parser h.2)))

/-- The words that a function is printed with in place of a body, or as one. -/
def bodyWords (style : Style) : Option (List Tree) → List Word
  | none => [TokenKind.semicolon.word]
  | some statements => (Tree.bare .block statements).words style

theorem ends_functionRest (name : String) {result : Ty} {params : List Tree} {body : Option (List Tree)}
    (hresult : result.Flat) (hparams : ∀ param ∈ params, param.IsParameter)
    (hbody : ∀ statements ∈ body, ∀ statement ∈ statements, Takes inner style statement)
    (h : origin.Ahead (Word.inParens (listed (params.map (Tree.words style))) ++
      (bodyWords style body ++ rest)) (result.written false :: trees) start) :
    Ends (functionRest inner name line) start fun _ parser => origin.Ahead rest
      (.bare (.function name none) (result.written true :: .bare .parameters params ::
        (body.map (Tree.bare .block)).toList) :: trees) parser := by
  rw [inParens_append] at h
  refine (Ends.expect h rfl).bind fun _ parser h => ?_
  -- `(void)` would be read as no parameters at all
  have hvoid : ∃ first more, listed (params.map (Tree.words style)) ++ TokenKind.closeParen.word ::
      (bodyWords style body ++ rest) = first :: more ∧
        ¬(first.kind = .void ∧ parser.peek 1 = .closeParen) := by
    cases params with
    | nil => exact ⟨_, _, rfl, by simp⟩
    | cons param params =>
      obtain ⟨first, second, more, hfirst, -, hsecond⟩ :=
        (hparams param List.mem_cons_self).exists_words style
      have hahead := h.2
      rw [List.map_cons, listed, hfirst] at hahead ⊢
      exact ⟨first, _, rfl, fun hvoid => hsecond (hahead.peek_one ▸ hvoid.2)⟩
  obtain ⟨first, more, hfirst, hvoid⟩ := hvoid
  have hfront := h.2
  rw [hfirst] at hfront
  refine .kind hfront (.get (.neg hvoid (.patience h.2 ?_)))
  have hrounds := length_le_listed (params.map (Tree.words style))
  rw [List.length_map] at hrounds
  refine ((readsItems_parameters style).ends hparams h.2 ?_).bind fun count parser h => ?_
  · rw [List.length_append, List.length_cons]
    omega
  have hlist : Build.Composes (Build.parameters params.reverse.length line) params.reverse _ :=
    Build.composes_parameters fun param hmem => hparams param (List.mem_reverse.mp hmem)
  rw [List.length_reverse, List.reverse_reverse, ← h.1] at hlist
  refine (Ends.expect h.2 rfl).bind fun _ parser h => (Ends.build hlist h.2).bind fun _ parser h => ?_
  have hfunction : Build.Composes (Build.function name body.isSome line) _ _ :=
    Build.composes_function name hresult params body
  cases body with
  | none =>
    exact .kind h (.neg (by simp) ((Ends.expect h rfl).bind fun _ parser h => .build hfunction h.2))
  | some statements =>
    have hfront := h
    rw [bodyWords, Tree.words_block, inBraces_append] at hfront
    exact .kind hfront (.pos rfl ((ends_block (hbody statements rfl) h).bind fun _ parser h =>
      .build hfunction h.2))

/-! ## Declarations -/

/-- The type and the name of what is declared are read alike. -/
theorem ends_declaration {name : String} {words : List Word} {post : Nat → Parser → Prop}
    (htype : type.Flat) (h : origin.Ahead (type.words ++ ofName name :: words) trees start)
    (hrest : ∀ line nameLine rounds parser, origin.Ahead words (type.written false :: trees) parser →
      Ends
        (do
          if 0 = 0 ∧ (← kind) = .openParen then
            functionRest inner name nameLine
            return 1
          variableRest name nameLine
          if ← accept .comma then
            declaratorsFrom inner type.stem.1 type.stem.2 line rounds (0 + 1)
          else
            let _ ← expect .semicolon
            return 0 + 1) parser post) : Ends (declaration inner) start post := by
  refine .line fun line => (ends_specifier type (by simp) h).bind fun found parser h => ?_
  obtain ⟨rfl, h⟩ := h
  refine .patience h (ends_stem _ _ h fun parser h => ?_)
  refine (ends_typeSuffix htype (by simp) (by simp) h).bind fun _ parser h => ?_
  refine (Ends.expectName h rfl).bind fun token parser h => ?_
  rw [(Token.value_of_word h.1 rfl).2]
  exact hrest _ _ _ _ h.2

theorem words_declaration (style : Style) (name : String) (declared : Tree) (initial : Option Tree) :
    (Tree.bare (.declaration name none) (declared :: initial.toList)).words style =
      declared.words style ++ ofName name :: ((declared.phrase style).brackets ++
        (initialWords style initial ++ [TokenKind.semicolon.word])) := by
  rw [Tree.words_bare, ← List.append_assoc (Phrase.brackets _)]
  rfl

theorem takes_variable (inner : Parse Nat) (name : String) {declared : Tree} {initial : Option Tree}
    (hstyle : style.Sound) (htype : declared.IsDeclaredType) (hinitial : ∀ value ∈ initial, value.IsInitial) :
    Takes (declaration inner) style (.bare (.declaration name none) (declared :: initial.toList)) := by
  obtain ⟨element, helement⟩ := htype.exists_element
  have hwords := words_declaration style name declared initial
  rw [helement.words_eq] at hwords
  refine ⟨.declaration name htype hinitial, ?_, fun {origin start next rest trees} h _ => ?_⟩
  · obtain ⟨first, more, hfirst, hstarts⟩ := exists_startsType element
    rw [hwords, hfirst]
    exact ⟨first, _, rfl, startsStatement_of_startsType hstarts⟩
  · rw [hwords] at h
    simp only [List.append_assoc, List.cons_append, List.nil_append] at h
    refine ends_declaration helement.flat h fun line nameLine rounds parser h => ?_
    have hfront : ∃ first more, (declared.phrase style).brackets ++ (initialWords style initial ++
        TokenKind.semicolon.word :: next :: rest) = first :: more ∧ first.kind ≠ .openParen := by
      obtain ⟨first, more, hfirst, hkind⟩ := exists_initialWords style initial (next :: rest)
      obtain rfl | ⟨size, -, rfl⟩ := helement.cases
      · rw [Tree.brackets_written style helement.flat]
        exact ⟨first, more, hfirst, by rcases hkind with hkind | hkind <;> simp [hkind]⟩
      · rw [Tree.brackets_arrayOf]
        exact ⟨_, _, rfl, by simp⟩
    obtain ⟨first, more, hfirst, hparen⟩ := hfront
    have h' := h
    rw [hfirst] at h'
    refine .kind h' (.neg (fun hc => hparen hc.2) ?_)
    refine (ends_variableRest name hstyle helement hinitial h).bind fun _ parser h => ?_
    refine (Ends.pass h (by simp)).bind fun found parser h => ?_
    rw [h.1]
    exact (Ends.expect h.2 rfl).bind fun _ parser h => .pure ⟨rfl, h.2⟩

theorem words_function (style : Style) (name : String) {result : Ty} (hresult : result.Flat)
    (params : List Tree) (body : Option (List Tree)) :
    (Tree.bare (.function name none)
      (result.written true :: .bare .parameters params :: (body.map (Tree.bare .block)).toList)).words style =
      result.words ++ ofName name :: (Word.inParens (listed (params.map (Tree.words style))) ++
        bodyWords style body) := by
  rw [Tree.words_bare, ← Tree.words_written style hresult true, ← Tree.words_parameters]
  cases body <;> rfl

theorem takes_function (name : String) {result : Ty} {params : List Tree} {body : Option (List Tree)}
    (hresult : result.Flat) (hparams : ∀ param ∈ params, param.IsParameter)
    (hbody : ∀ statements ∈ body, ∀ statement ∈ statements, Takes inner style statement) :
    Takes (declaration inner) style (.bare (.function name none)
      (result.written true :: .bare .parameters params :: (body.map (Tree.bare .block)).toList)) := by
  have hwords := words_function style name hresult params body
  refine ⟨.function name hresult hparams fun statements hbody' statement hmem =>
    (hbody statements hbody' statement hmem).isStatement, ?_, fun {origin start next rest trees} h _ => ?_⟩
  · obtain ⟨first, more, hfirst, hstarts⟩ := exists_startsType result
    rw [hwords, hfirst]
    exact ⟨first, _, rfl, startsStatement_of_startsType hstarts⟩
  · rw [hwords] at h
    simp only [List.append_assoc, List.cons_append] at h
    refine ends_declaration hresult h fun line nameLine rounds parser h => ?_
    have hfront := h
    rw [inParens_append] at hfront
    refine .kind hfront (.pos ⟨rfl, rfl⟩ ?_)
    exact (ends_functionRest name hresult hparams hbody h).bind fun _ parser h => .pure ⟨rfl, h⟩

/-- A declaration starts with a type. -/
theorem exists_startsType_of_declares (style : Style) {tree : Tree} (h : tree.IsStatement)
    (hdeclares : tree.declares) :
    ∃ first more, tree.words style = first :: more ∧ first.kind.startsType = true := by
  cases h with
  | @declaration name declared initial htype _ =>
    obtain ⟨element, helement⟩ := htype.exists_element
    obtain ⟨first, more, hfirst, hstarts⟩ := exists_startsType element
    rw [words_declaration, helement.words_eq, hfirst]
    exact ⟨first, _, rfl, hstarts⟩
  | @function name result params body hresult _ _ =>
    obtain ⟨first, more, hfirst, hstarts⟩ := exists_startsType result
    rw [words_function style name hresult params body, hfirst]
    exact ⟨first, _, rfl, hstarts⟩
  | _ => cases hdeclares

end Grammar

end MiniC
