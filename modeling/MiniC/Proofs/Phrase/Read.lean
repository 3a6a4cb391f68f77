import MiniC.Proofs.Build.Grown
import MiniC.Proofs.Grammar.Expression
import MiniC.Proofs.Phrase.Print

/-!
# Reading words

`Parser.Ahead` says how far a parser has come: which words lie ahead of it and which trees it has built.
`Parse.Ends` says of a step that it is not refused and what it ends with. Each kind of step has a rule that
takes words from those ahead or puts a tree on top of those built.
-/

namespace MiniC

theorem Token.value_of_word {token : Token} {word : Word} (h : token.word = word)
    (hcarries : word.kind.carriesValue) : token.kind = word.kind ∧ token.value = word.value := by
  subst h
  exact ⟨rfl, (if_pos hcarries).symm⟩

/-- Since it was `origin`, a parser has come to where `words` lie ahead, and it has built `trees`, the one
on top of its operands first. -/
structure Parser.Ahead (origin : Parser) (words : List Word) (trees : List Tree) (parser : Parser) :
    Prop where
  suffix : parser.rest <:+ origin.rest
  words_eq : parser.rest.map Token.word = words
  grown : origin.builder.Grown trees parser.builder

namespace Parser.Ahead

variable {origin parser : Parser} {word : Word} {words : List Word} {trees : List Tree}

theorem self (parser : Parser) : parser.Ahead (parser.rest.map Token.word) [] parser :=
  ⟨List.suffix_rfl, rfl, Build.grown_self _⟩

theorem length_eq (h : origin.Ahead words trees parser) : parser.rest.length = words.length := by
  rw [← h.words_eq, List.length_map]

theorem exists_cons (h : origin.Ahead (word :: words) trees parser) :
    ∃ token rest, parser.rest = token :: rest ∧ token.word = word ∧ rest.map Token.word = words := by
  obtain ⟨token, rest, hrest, hword, hwords⟩ := List.map_eq_cons_iff.mp h.words_eq
  exact ⟨token, rest, hrest, hword, hwords⟩

theorem word_current (h : origin.Ahead (word :: words) trees parser) : parser.current.word = word := by
  obtain ⟨token, rest, hrest, hword, -⟩ := h.exists_cons
  rw [current, hrest, List.headD_cons, hword]

theorem kind_current (h : origin.Ahead (word :: words) trees parser) : parser.current.kind = word.kind :=
  congrArg Word.kind h.word_current

theorem peek_one {second : Word} (h : origin.Ahead (word :: second :: words) trees parser) :
    parser.peek 1 = second.kind := by
  obtain ⟨token, rest, hrest, -, hwords⟩ := h.exists_cons
  obtain ⟨token', rest', rfl, hword, -⟩ := List.map_eq_cons_iff.mp hwords
  rw [peek, hrest]
  exact congrArg Word.kind hword

theorem hasTokens_eq (h : origin.Ahead (word :: words) trees parser) :
    parser.hasTokens = (word.kind != .eof) := by
  obtain ⟨token, rest, hrest, -, -⟩ := h.exists_cons
  rw [hasTokens, h.kind_current, hrest]
  rfl

theorem tail (h : origin.Ahead (word :: words) trees parser) :
    origin.Ahead words trees { parser with rest := parser.rest.tail } := by
  obtain ⟨token, rest, hrest, hword, hwords⟩ := h.exists_cons
  exact ⟨(List.tail_suffix _).trans h.suffix, by rw [hrest, List.tail_cons, hwords], h.grown⟩

end Parser.Ahead

namespace Parse

variable {α β : Type} {origin start : Parser} {word : Word} {words : List Word} {trees before : List Tree}
  {post : α → Parser → Prop} {post' : β → Parser → Prop}

/-- The step is not refused. -/
def Ends (step : Parse α) (start : Parser) (post : α → Parser → Prop) : Prop :=
  Ensures step start Fault.Never post

namespace Ends

theorem imp {step : Parse α} {post' : α → Parser → Prop} (h : Ends step start post)
    (hpost : ∀ value parser, post value parser → post' value parser) : Ends step start post' :=
  Ensures.imp h hpost

theorem bind {step : Parse α} {next : α → Parse β} (h : Ends step start post)
    (hnext : ∀ value parser, post value parser → Ends (next value) parser post') :
    Ends (step >>= next) start post' :=
  (Ensures.bind_iff _ _).mpr (Ensures.imp h hnext)

theorem pure {value : α} (h : post value start) : Ends (Pure.pure value) start post := h

theorem pos {c : Prop} [Decidable c] {yes no : Parse α} (hc : c) (h : Ends yes start post) :
    Ends (if c then yes else no) start post := by rwa [if_pos hc]

theorem neg {c : Prop} [Decidable c] {yes no : Parse α} (hc : ¬c) (h : Ends no start post) :
    Ends (if c then yes else no) start post := by rwa [if_neg hc]

theorem get {next : Parser → Parse α} (h : Ends (next start) start post) :
    Ends (MonadState.get >>= next) start post := h

theorem line {next : Nat → Parse α} (h : ∀ line, Ends (next line) start post) :
    Ends (Parse.line >>= next) start post := h _

/-- A step of construction puts a tree in the place of those that it takes. -/
theorem build {step : Build Unit} {after : Tree} (hstep : Build.Composes step before after)
    (h : origin.Ahead words (before ++ trees) start) :
    Ends (build step) start fun _ parser => origin.Ahead words (after :: trees) parser := by
  obtain ⟨rest, last, builder⟩ := start
  obtain ⟨builder', hrun, hgrown⟩ := hstep.grown h.grown
  refine (ensures_build step).mpr ?_
  simp only [Ensures, hrun]
  exact ⟨h.suffix, h.words_eq, hgrown⟩

theorem patience {next : Nat → Parse α} (h : origin.Ahead words trees start)
    (hnext : Ends (next (words.length + 1)) start post) : Ends (Parse.patience >>= next) start post := by
  rw [← h.length_eq] at hnext
  exact hnext

section Word

variable (h : origin.Ahead (word :: words) trees start)

include h

theorem current {next : Token → Parse α}
    (hnext : ∀ token : Token, token.word = word → Ends (next token) start post) :
    Ends (Parse.current >>= next) start post := hnext _ h.word_current

theorem kind {next : TokenKind → Parse α} (hnext : Ends (next word.kind) start post) :
    Ends (Parse.kind >>= next) start post := by
  rw [← h.kind_current] at hnext
  exact hnext

theorem advance : Ends advance start fun token parser =>
    token.word = word ∧ origin.Ahead words trees parser := ⟨h.word_current, h.tail⟩

theorem expect {wanted : TokenKind} (hwanted : word.kind = wanted) :
    Ends (expect wanted) start fun token parser =>
      token.word = word ∧ origin.Ahead words trees parser :=
  .kind h (.pos hwanted (.advance h))

theorem expectName {message : String} (hwanted : word.kind = .identifier) :
    Ends (expectName message) start fun token parser =>
      token.word = word ∧ origin.Ahead words trees parser :=
  .kind h (.pos hwanted (.advance h))

theorem accept {wanted : TokenKind} (hwanted : word.kind = wanted) :
    Ends (accept wanted) start fun found parser => found = true ∧ origin.Ahead words trees parser :=
  .kind h (.pos hwanted ((Ends.advance h).bind fun _ _ h => .pure ⟨rfl, h.2⟩))

theorem pass {wanted : TokenKind} (hwanted : word.kind ≠ wanted) :
    Ends (Parse.accept wanted) start fun found parser =>
      found = false ∧ origin.Ahead (word :: words) trees parser :=
  .kind h (.neg hwanted (.pure ⟨rfl, h⟩))

end Word

end Ends

/-! ## Lists -/

/-- What stands in front of an item that `count` items stand before. -/
def separator : Nat → List Word
  | 0 => []
  | _ + 1 => [TokenKind.comma.word]

/-- The rounds of a reader of items with commas between them, up to a closing mark. It counts the items,
and reads each of them in a round of its own. -/
structure ReadsItems (reader : Nat → Nat → Parse Nat) (close : TokenKind) (print : Tree → List Word)
    (IsItem : Tree → Prop) : Prop where
  stops : ∀ {origin start : Parser} {rest : List Word} {trees : List Tree} {rounds count : Nat},
    origin.Ahead (close.word :: rest) trees start →
    Ends (reader (rounds + 1) count) start fun found parser =>
      found = count ∧ origin.Ahead (close.word :: rest) trees parser
  goes_on : ∀ {origin start : Parser} {next : Word} {rest : List Word} {trees : List Tree}
      {rounds count : Nat} {item : Tree} {post : Nat → Parser → Prop},
    IsItem item → next = TokenKind.comma.word ∨ next = close.word →
    origin.Ahead (separator count ++ (print item ++ next :: rest)) trees start →
    (∀ parser, origin.Ahead (next :: rest) (item :: trees) parser →
      Ends (reader rounds (count + 1)) parser post) →
    Ends (reader (rounds + 1) count) start post

namespace ReadsItems

variable {reader : Nat → Nat → Parse Nat} {close : TokenKind} {print : Tree → List Word}
  {IsItem : Tree → Prop} {items : List Tree} {rest : List Word} {rounds count : Nat}

/-- Behind an item there is a comma or the closing mark. -/
theorem exists_next (print : Tree → List Word) (close : TokenKind) (items : List Tree) (rest : List Word) :
    ∃ next more, (items.map print).flatMap (TokenKind.comma.word :: ·) ++ close.word :: rest = next :: more ∧
      (next = TokenKind.comma.word ∨ next = close.word) := by
  cases items with
  | nil => exact ⟨_, _, rfl, .inr rfl⟩
  | cons => exact ⟨_, _, rfl, .inl rfl⟩

/-- The items behind the first. -/
theorem ends_later (hreader : ReadsItems reader close print IsItem) (hitems : ∀ item ∈ items, IsItem item)
    (h : origin.Ahead ((items.map print).flatMap (TokenKind.comma.word :: ·) ++ close.word :: rest) trees
      start) (hrounds : items.length < rounds) :
    Ends (reader rounds (count + 1)) start fun found parser => found = count + 1 + items.length ∧
      origin.Ahead (close.word :: rest) (items.reverse ++ trees) parser := by
  induction items generalizing start trees rounds count with
  | nil =>
    obtain ⟨rounds, rfl⟩ := Nat.exists_eq_succ_of_ne_zero (Nat.ne_zero_of_lt hrounds)
    exact hreader.stops h
  | cons item items ih =>
    obtain ⟨rounds, rfl⟩ := Nat.exists_eq_succ_of_ne_zero (Nat.ne_zero_of_lt hrounds)
    obtain ⟨hitem, hitems⟩ := List.forall_mem_cons.mp hitems
    obtain ⟨next, more, hmore, hnext⟩ := exists_next print close items rest
    rw [List.map_cons, List.flatMap_cons, List.append_assoc, hmore] at h
    refine hreader.goes_on hitem hnext h fun parser h => ?_
    rw [← hmore] at h
    refine (ih hitems h (Nat.lt_of_succ_lt_succ hrounds)).imp fun found parser h => ?_
    rw [List.length_cons, List.reverse_cons, List.append_assoc]
    exact ⟨by omega, h.2⟩

/-- Items are read from the words that are printed for them. -/
theorem ends (hreader : ReadsItems reader close print IsItem) (hitems : ∀ item ∈ items, IsItem item)
    (h : origin.Ahead (Word.listed (items.map print) ++ close.word :: rest) trees start)
    (hrounds : items.length < rounds) :
    Ends (reader rounds 0) start fun found parser => found = items.length ∧
      origin.Ahead (close.word :: rest) (items.reverse ++ trees) parser := by
  obtain ⟨rounds, rfl⟩ := Nat.exists_eq_succ_of_ne_zero (Nat.ne_zero_of_lt hrounds)
  cases items with
  | nil => exact hreader.stops h
  | cons item items =>
    obtain ⟨hitem, hitems⟩ := List.forall_mem_cons.mp hitems
    obtain ⟨next, more, hmore, hnext⟩ := exists_next print close items rest
    rw [List.map_cons, Word.listed, List.append_assoc, hmore] at h
    refine hreader.goes_on hitem hnext h fun parser h => ?_
    rw [← hmore] at h
    refine (hreader.ends_later hitems h (Nat.lt_of_succ_lt_succ hrounds)).imp fun found parser h => ?_
    rw [List.length_cons, List.reverse_cons, List.append_assoc]
    exact ⟨by omega, h.2⟩

end ReadsItems

end Parse

end MiniC
