import MiniC.Proofs.Phrase.Operand

/-!
# Reading expressions

`ReadAs` says of some words that they are read as an expression of a power, wherever they stand: a reader
that asks for less than its grip gets to the operators behind it, and those that bind no more strongly than
its reach leave it alone. Each way of writing an expression has a rule, and the power that it gives is that
of the table.
-/

namespace MiniC.Grammar

open Word Parse

namespace Power

/-- What a reader may ask for to get an expression of a power as its first operand. What stands in front
of all of its parts, or is one part, can be asked for anything. -/
def grip : Power → Nat
  | unary | primary => primary.level + 1
  | power => power.level

/-- How strongly an operator may bind behind an expression of a power without taking a part of it. The
right side of an assignment takes in everything; behind a postfix operator there is nothing to take. -/
def reach : Power → Nat
  | assignment => comma.level
  | postfixed => primary.level
  | power => power.level

theorem level_le_grip (power : Power) : power.level ≤ power.grip := by cases power <;> decide

theorem unary_lt_grip {power : Power} (h : unary.level ≤ power.level) : unary.level < power.grip := by
  revert h
  cases power <;> decide

theorem comma_lt_grip {power : Power} (h : assignment.level ≤ power.level) : comma.level < power.grip := by
  revert h
  cases power <;> decide

theorem comma_le_reach {power : Power} (h : assignment.level ≤ power.level) :
    comma.level ≤ power.reach := by
  revert h
  cases power <;> decide

theorem level_le_reach {power : Power} (h : assignment.level < power.level) :
    power.level ≤ power.reach := by
  revert h
  cases power <;> decide

end Power

/-- The power of what follows an operand is the grip of what it makes. -/
theorem operator_of_continuation? {kind : TokenKind} {power : Power} {continuation : Continuation}
    (h : continuation? kind = some (power, continuation)) :
    Power.assignment.level ≤ power.level ∧ power.grip = power.level ∧ kind ≠ .openParen := by
  cases kind <;> first | cases h; exact ⟨by decide, rfl, by decide⟩ | cases h

/-- The right side of any other operator than an assignment takes in what binds more tightly. -/
theorem reach_eq_level {op : BinaryOp} (h : op ≠ .assign) :
    Power.assignment.level < op.power.level ∧ op.power.reach = op.power.level := by
  have every : ∀ op ∈ BinaryOp.all, op ≠ .assign →
      Power.assignment.level < op.power.level ∧ op.power.reach = op.power.level := by decide
  exact every op (BinaryOp.mem_all op) h

/-- The words start as an expression does. -/
def StartsOperand (words : List Word) : Prop :=
  ∃ first more, words = first :: more ∧ startsOperand first.kind

/-- Wherever the words stand, they are read as an expression that holds together with `power`. -/
structure ReadAs (words : List Word) (tree : Tree) (power : Power) : Prop where
  isExpression : tree.IsExpression
  starts : StartsOperand words
  tight : Power.assignment.level ≤ power.level
  goes_on : ∀ {origin start : Parser} {next : Word} {rest : List Word} {trees : List Tree}
      {levels : Nat} {least : Power} {post : Unit → Parser → Prop},
    origin.Ahead (words ++ next :: rest) trees start → words.length ≤ levels → least.level < power.grip →
    next.kind ≠ .openParen → strength next.kind ≤ power.reach →
    (∀ parser rounds, origin.Ahead (next :: rest) (tree :: trees) parser →
      (next :: rest).length < rounds →
        Ends (operators (expressionWithin levels) least rounds) parser post) →
    Ends (expressionWithin (levels + 1) least) start post

theorem exists_startsType (type : Ty) :
    ∃ first more, type.words = first :: more ∧ first.kind.startsType = true := by
  rw [Ty.words_eq]
  cases type.stem with
  | mk name constant =>
    cases constant with
    | false => cases name <;> exact ⟨_, _, rfl, rfl⟩
    | true => exact ⟨_, _, rfl, rfl⟩

theorem ne_of_startsOperand {kind other : TokenKind} (h : startsOperand kind)
    (hother : startsOperand other = false) : kind ≠ other := by
  rintro rfl
  rw [h] at hother
  cases hother

theorem not_startsType {kind : TokenKind} (h : startsOperand kind) : kind.startsType = false := by
  cases kind <;> first | rfl | cases h

variable {origin start : Parser} {next word : Word} {words rest left right : List Word}
  {trees : List Tree} {tree leftTree rightTree : Tree} {levels rounds : Nat} {power power' least : Power}
  {post : Unit → Parser → Prop}

/-! ## Operators behind an operand -/

theorem ends_operators_stop {inner : Power → Parse Unit} (h : origin.Ahead (next :: rest) trees start)
    (hrounds : 0 < rounds) (hstop : strength next.kind ≤ least.level) :
    Ends (operators inner least rounds) start fun _ parser =>
      origin.Ahead (next :: rest) trees parser := by
  obtain ⟨rounds, rfl⟩ := Nat.exists_eq_succ_of_ne_zero (Nat.ne_zero_of_lt hrounds)
  refine .kind h ?_
  cases hfound : continuation? next.kind with
  | none => exact .pure h
  | some found =>
    simp only [strength, hfound, Option.elim_some] at hstop
    exact .pos hstop (.pure h)

theorem ends_operators_go {inner : Power → Parse Unit} {continuation : Continuation}
    {ready : Unit → Parser → Prop} (h : origin.Ahead (word :: words) trees start)
    (hfound : continuation? word.kind = some (power, continuation)) (hlt : least.level < power.level)
    (hstep : Ends (continueWith inner power continuation) start ready)
    (hnext : ∀ parser, ready () parser → Ends (operators inner least rounds) parser post) :
    Ends (operators inner least (rounds + 1)) start post := by
  refine .kind h ?_
  rw [hfound]
  exact .neg (Nat.not_le.mpr hlt) (hstep.bind fun _ parser h => hnext parser h)

namespace ReadAs

/-- An expression is read as a whole if what follows binds too weakly for the reader. -/
theorem whole (h : ReadAs words tree power) (hahead : origin.Ahead (words ++ next :: rest) trees start)
    (hlevels : words.length < levels) (hgrip : least.level < power.grip) (hparen : next.kind ≠ .openParen)
    (hreach : strength next.kind ≤ power.reach) (hleast : strength next.kind ≤ least.level) :
    Ends (expressionWithin levels least) start fun _ parser =>
      origin.Ahead (next :: rest) (tree :: trees) parser := by
  obtain ⟨levels, rfl⟩ := Nat.exists_eq_succ_of_ne_zero (Nat.ne_zero_of_lt hlevels)
  exact h.goes_on hahead (Nat.le_of_lt_succ hlevels) hgrip hparen hreach fun parser rounds h hrounds =>
    ends_operators_stop h (Nat.zero_lt_of_lt hrounds) hleast

/-- Nothing of the expression is left in front of a token that no operator starts with. -/
theorem whole_of_not_operator (h : ReadAs words tree power)
    (hahead : origin.Ahead (words ++ next :: rest) trees start) (hlevels : words.length < levels)
    (hleast : least.level ≤ Power.comma.level) (hparen : next.kind ≠ .openParen)
    (hnext : strength next.kind = 0) :
    Ends (expressionWithin levels least) start fun _ parser =>
      origin.Ahead (next :: rest) (tree :: trees) parser :=
  h.whole hahead hlevels (Nat.lt_of_le_of_lt hleast (Power.comma_lt_grip h.tight)) hparen
    (hnext ▸ Nat.zero_le _) (hnext ▸ Nat.zero_le _)

theorem ends_expression (h : ReadAs words tree power)
    (hahead : origin.Ahead (words ++ next :: rest) trees start) (hleast : least.level ≤ Power.comma.level)
    (hparen : next.kind ≠ .openParen) (hnext : strength next.kind = 0) :
    Ends (expression least) start fun _ parser => origin.Ahead (next :: rest) (tree :: trees) parser := by
  refine .patience hahead (h.whole_of_not_operator hahead ?_ hleast hparen hnext)
  rw [List.length_append]
  exact Nat.lt_succ_of_le (Nat.le_add_right _ _)

/-! ## Operands -/

/-- What is read as an operand as a whole. -/
theorem of_operand (htree : tree.IsExpression) (hstarts : StartsOperand words)
    (htight : Power.assignment.level ≤ power.level)
    (h : ∀ {origin start : Parser} {next : Word} {rest : List Word} {trees : List Tree} {levels : Nat},
      origin.Ahead (words ++ next :: rest) trees start → words.length ≤ levels →
      next.kind ≠ .openParen → strength next.kind ≤ power.reach →
      Ends (operand (expressionWithin levels)) start fun _ parser =>
        origin.Ahead (next :: rest) (tree :: trees) parser) : ReadAs words tree power :=
  ⟨htree, hstarts, htight, fun hahead hlevels _ hparen hreach hnext =>
    (h hahead hlevels hparen hreach).bind fun _ parser h =>
      .patience h (hnext parser _ h (Nat.lt_succ_self _))⟩

theorem ends_leading {inner : Power → Parse Unit} (op : UnaryOp) (hop : op.power = .unary)
    (h : origin.Ahead (op.token.word :: words) trees start) (hleading : Ends (leading inner op) start post) :
    Ends (operand inner) start post := by
  refine .current h fun token hword => ?_
  have hkind : token.kind = op.token := congrArg Word.kind hword
  rw [hkind]
  cases op with
  | step position direction =>
    cases position with
    | before => cases direction <;> exact hleading
    | after => cases hop
  | _ => exact hleading

theorem ends_literal {negative : Bool} {digits : String} {value : Int} {line : Nat}
    (hvalue : Literal.value? negative digits = some value) (h : origin.Ahead words trees start) :
    Ends (literal negative digits line) start fun _ parser =>
      origin.Ahead words (.bare (.int value) [] :: trees) parser := by
  rw [literal, hvalue]
  exact .build (Build.composes_int value) h

theorem int {value : Int} (hleast : Literal.least ≤ value) (hgreatest : value ≤ Literal.greatest) :
    ReadAs (ofInt value) (.bare (.int value) []) .primary := by
  by_cases hneg : value < 0
  · have hwords : ofInt value = [TokenKind.dash.word, ofNat (-value).toNat] := if_pos hneg
    rw [hwords]
    refine of_operand (.int hleast hgreatest) ⟨_, _, rfl, rfl⟩ (by decide) fun h _ _ _ => ?_
    refine ends_leading .negate rfl h ((Ends.advance h).bind fun sign parser h => ?_)
    refine .kind h.2 (.pos ⟨rfl, rfl⟩ ((Ends.advance h.2).bind fun digits parser h => ?_))
    rw [(Token.value_of_word h.1 rfl).2]
    exact ends_literal (Literal.value?_negative hneg hleast) h.2
  · have hwords : ofInt value = [ofNat value.toNat] := if_neg hneg
    rw [hwords]
    refine of_operand (.int hleast hgreatest) ⟨_, _, rfl, rfl⟩ (by decide) fun h _ _ _ => ?_
    refine .current h fun token hword => ?_
    obtain ⟨hkind, hvalue⟩ := Token.value_of_word hword rfl
    rw [hkind, hvalue]
    exact (Ends.advance h).bind fun _ _ h => ends_literal (Literal.value?_toString hneg hgreatest) h.2

theorem char (value : Char) :
    ReadAs [ofChar value] (.bare (.char value) []) .primary := by
  refine of_operand (.char value) ⟨_, _, rfl, rfl⟩ (by decide) fun h _ _ _ => ?_
  refine .current h fun token hword => ?_
  obtain ⟨hkind, hvalue⟩ := Token.value_of_word hword rfl
  rw [hkind, hvalue]
  have hchar : (ofChar value).value.toList.headD '\x00' = value := by simp [ofChar]
  rw [hchar]
  exact (Ends.advance h).bind fun _ _ h => .build (Build.composes_char value) h.2

theorem string (value : String) :
    ReadAs [ofString value] (.bare (.string value none) []) .primary := by
  refine of_operand (.string value) ⟨_, _, rfl, rfl⟩ (by decide) fun h _ _ _ => ?_
  refine .current h fun token hword => ?_
  obtain ⟨hkind, hvalue⟩ := Token.value_of_word hword rfl
  rw [hkind, hvalue]
  exact (Ends.advance h).bind fun _ _ h => .build (Build.composes_string value) h.2

theorem identifier (name : String) :
    ReadAs [ofName name] (.bare (.identifier name none) []) .primary := by
  refine of_operand (.identifier name) ⟨_, _, rfl, rfl⟩ (by decide) fun h _ hparen _ => ?_
  refine .current h fun token hword => ?_
  obtain ⟨hkind, hvalue⟩ := Token.value_of_word hword rfl
  rw [hkind, hvalue]
  exact (Ends.advance h).bind fun _ _ h => .kind h.2 (.neg hparen (.build (Build.composes_identifier name) h.2))

/-- Words in parentheses are read as the expression between them, which can stand anywhere then. -/
theorem inParens (h : ReadAs words tree power) : ReadAs (inParens words) tree .primary := by
  refine of_operand h.isExpression ⟨_, _, rfl, rfl⟩ (by decide) fun hahead hlevels _ _ => ?_
  rw [inParens_append] at hahead
  rw [length_inParens] at hlevels
  refine .current hahead fun token hword => ?_
  rw [show token.kind = .openParen from congrArg Word.kind hword]
  refine (Ends.expect hahead rfl).bind fun _ parser hahead => ?_
  obtain ⟨first, more, hfirst, hstarts⟩ := h.starts
  have hinner : Ends (expressionWithin _ .default) parser _ :=
    h.whole_of_not_operator hahead.2 (Nat.le_of_succ_le hlevels) (by decide) (by simp) rfl
  rw [hfirst] at hahead
  refine .kind hahead.2 (.neg (by simp [not_startsType hstarts]) ?_)
  exact hinner.bind fun _ parser hahead => (Ends.expect hahead rfl).bind fun _ parser h => .pure h.2

/-! ### Calls -/

/-- Arguments are read one by one if each of them nests less deep than the reader. -/
theorem readsItems_arguments (print : Tree → List Word) (levels : Nat) :
    ReadsItems (argumentsFrom (expressionWithin levels)) .closeParen print fun item =>
      (∃ power, ReadAs (print item) item power) ∧ (print item).length < levels where
  stops h := .kind h (.pos rfl (.pure ⟨rfl, h⟩))
  goes_on := by
    rintro origin start next rest trees rounds count item post ⟨⟨power, hitem⟩, hlevels⟩ hnext h hpost
    have hnext : next.kind ≠ .openParen ∧ strength next.kind = 0 := by
      rcases hnext with rfl | rfl <;> exact ⟨by simp, rfl⟩
    have hread : ∀ parser, origin.Ahead (print item ++ next :: rest) trees parser →
        Ends (expressionWithin levels .comma >>= fun _ =>
          argumentsFrom (expressionWithin levels) rounds (count + 1)) parser post := fun parser h =>
      (hitem.whole_of_not_operator h hlevels (Nat.le_refl _) hnext.1 hnext.2).bind
        fun _ parser h => hpost parser h
    cases count with
    | zero =>
      obtain ⟨first, more, hfirst, hstarts⟩ := hitem.starts
      have h' := h
      rw [hfirst] at h'
      exact .kind h' (.neg (ne_of_startsOperand hstarts rfl) (.neg (Nat.lt_irrefl 0) (hread _ h)))
    | succ count =>
      exact .kind h (.neg (by simp) (.pos (Nat.zero_lt_succ _)
        ((Ends.expect h rfl).bind fun _ parser h => hread parser h.2)))

theorem ends_arguments {arguments : List Tree} (print : Tree → List Word)
    (harguments : ∀ item ∈ arguments,
      (∃ power, ReadAs (print item) item power) ∧ (print item).length < levels)
    (h : origin.Ahead (Word.inParens (listed (arguments.map print)) ++ rest) trees start) :
    Ends (Grammar.arguments (expressionWithin levels)) start fun count parser =>
      count = arguments.length ∧ origin.Ahead rest (arguments.reverse ++ trees) parser := by
  rw [inParens_append] at h
  refine (Ends.expect h rfl).bind fun _ parser h => .patience h.2 ?_
  have hrounds := length_le_listed (arguments.map print)
  rw [List.length_map] at hrounds
  refine ((readsItems_arguments print levels).ends harguments h.2 ?_).bind fun count parser h => ?_
  · rw [List.length_append, List.length_cons]
    omega
  · exact (Ends.expect h.2 rfl).bind fun _ parser h' => .pure ⟨h.1, h'.2⟩

theorem call (name : String) {arguments : List Tree} (print : Tree → List Word)
    (harguments : ∀ argument ∈ arguments, ∃ power, ReadAs (print argument) argument power) :
    ReadAs (ofName name :: Word.inParens (listed (arguments.map print)))
      (.bare (.call name none) arguments) .primary := by
  have htrees : ∀ argument ∈ arguments, argument.IsExpression := fun argument hmem =>
    (harguments argument hmem).elim fun _ h => h.isExpression
  refine of_operand (.call name htrees) ⟨_, _, rfl, rfl⟩ (by decide) fun {_ _ _ _ _ levels} h hlevels _ _ => ?_
  rw [List.length_cons, length_inParens] at hlevels
  have hitems : ∀ item ∈ arguments,
      (∃ power, ReadAs (print item) item power) ∧ (print item).length < levels := by
    intro item hmem
    have hle := length_le_of_mem_listed (List.mem_map_of_mem (f := print) hmem)
    exact ⟨harguments item hmem, by omega⟩
  refine .current h fun token hword => ?_
  obtain ⟨hkind, hvalue⟩ := Token.value_of_word hword rfl
  rw [hkind, hvalue]
  refine (Ends.advance h).bind fun _ parser h => .kind h.2 (.pos rfl ?_)
  refine (ends_arguments print hitems h.2).bind fun count parser h => ?_
  have hcall : Build.Composes (Build.call name arguments.reverse.length token.line) arguments.reverse _ :=
    Build.composes_call name fun argument hmem => htrees argument (List.mem_reverse.mp hmem)
  rw [List.length_reverse, List.reverse_reverse, ← h.1] at hcall
  exact .build hcall h.2

/-! ### Operators and casts in front -/

/-- A minus sign stands apart from what would become a number with it. -/
theorem unary (op : UnaryOp) (hop : op.power = .unary) (h : ReadAs words tree power)
    (htight : Power.unary.level ≤ power.level)
    (hnumber : op = .negate → ∀ first more, words = first :: more → first.kind ≠ .number) :
    ReadAs (op.token.word :: words) (.bare (.unary op) [tree]) .unary := by
  refine of_operand (.unary op h.isExpression) ⟨_, _, rfl, startsOperand_token hop⟩ (by decide)
    fun hahead hlevels hparen hreach => ?_
  refine ends_leading op hop hahead ((Ends.advance hahead).bind fun sign parser hahead => ?_)
  obtain ⟨first, more, hfirst, -⟩ := h.starts
  have hfront := hahead.2
  rw [hfirst] at hfront
  refine .kind hfront (.neg (fun hc => hnumber hc.1 first more hfirst hc.2) ?_)
  refine (h.whole hahead.2 hlevels (Power.unary_lt_grip htight) hparen ?_ hreach).bind fun _ parser h' =>
    .build (Build.composes_unary op h.isExpression) h'
  exact hreach.trans (htight.trans (Power.level_le_reach (Nat.lt_of_lt_of_le (by decide) htight)))

theorem cast {type : Ty} (htype : type.Flat) (h : ReadAs words tree power)
    (htight : Power.unary.level ≤ power.level) :
    ReadAs (Word.inParens type.words ++ words) (tree.cast type) .unary := by
  refine of_operand (h.isExpression.cast_of_flat htype) ⟨_, _, rfl, rfl⟩ (by decide)
    fun hahead hlevels hparen hreach => ?_
  rw [List.length_append, length_inParens] at hlevels
  rw [List.append_assoc, inParens_append] at hahead
  refine .current hahead fun token hword => ?_
  rw [show token.kind = .openParen from congrArg Word.kind hword]
  refine (Ends.expect hahead rfl).bind fun opening parser hahead => ?_
  obtain ⟨first, more, hfirst, hstarts⟩ := exists_startsType type
  have hfront := hahead.2
  rw [hfirst] at hfront
  refine .kind hfront (.pos hstarts ?_)
  refine (ends_typeName htype (by simp) (by simp) hahead.2).bind fun _ parser hahead => ?_
  refine (Ends.expect hahead rfl).bind fun _ parser hahead => ?_
  refine (h.whole hahead.2 (by omega) (Power.unary_lt_grip htight) hparen ?_ hreach).bind fun _ parser h' =>
    .build (Build.composes_cast htype h.isExpression) h'
  exact hreach.trans (htight.trans (Power.level_le_reach (Nat.lt_of_lt_of_le (by decide) htight)))

/-! ### Operators behind -/

/-- An operator behind an expression that holds together tightly enough for it. -/
theorem continued {continuation : Continuation} (hleft : ReadAs left leftTree power)
    (hfound : continuation? word.kind = some (power', continuation)) (hgrip : power'.level ≤ power.grip)
    (hbehind : power'.level ≤ power.reach) (htree : tree.IsExpression)
    (hstep : ∀ {origin start : Parser} {next : Word} {rest : List Word} {trees : List Tree} {levels : Nat},
      origin.Ahead (word :: (words ++ next :: rest)) (leftTree :: trees) start → words.length < levels →
      next.kind ≠ .openParen → strength next.kind ≤ power'.reach →
      Ends (continueWith (expressionWithin levels) power' continuation) start fun _ parser =>
        origin.Ahead (next :: rest) (tree :: trees) parser) :
    ReadAs (left ++ word :: words) tree power' := by
  obtain ⟨first, more, hfirst, hstarts⟩ := hleft.starts
  obtain ⟨htight, heq, hword⟩ := operator_of_continuation? hfound
  refine ⟨htree, ⟨first, more ++ word :: words, by rw [hfirst, List.cons_append], hstarts⟩, htight, ?_⟩
  intro origin start next rest trees levels least post hahead hlevels hleast hparen hreach hnext
  rw [List.append_assoc, List.cons_append] at hahead
  rw [List.length_append, List.length_cons] at hlevels
  rw [heq] at hleast
  have hpos : 0 < left.length := by simp [hfirst]
  have hstrength : strength word.kind ≤ power.reach := by simpa [strength, hfound] using hbehind
  have hless : least.level < power.grip := Nat.lt_of_lt_of_le hleast hgrip
  refine hleft.goes_on hahead (by omega) hless hword hstrength fun parser rounds h hrounds => ?_
  obtain ⟨rounds, rfl⟩ := Nat.exists_eq_succ_of_ne_zero (Nat.ne_zero_of_lt hrounds)
  have hrest : (next :: rest).length < rounds := by
    simp only [List.length_cons, List.length_append] at hrounds ⊢
    omega
  exact ends_operators_go h hfound hleast (hstep h (by omega) hparen hreach) fun parser h =>
    hnext parser rounds h hrest

/-- A binary operator that groups to the left. -/
theorem binary (op : BinaryOp) (hop : op ≠ .assign) (hleft : ReadAs left leftTree power)
    (hright : ReadAs right rightTree power') (hpower : op.power.level ≤ power.level)
    (hpower' : op.power.level < power'.level) :
    ReadAs (left ++ op.token.word :: right) (.bare (.binary op) [leftTree, rightTree]) op.power := by
  have hfound : continuation? op.token.word.kind = some (op.power, .binary op) := by
    rw [continuation?_token, if_neg hop]
  obtain ⟨htight, hreach⟩ := reach_eq_level hop
  refine hleft.continued hfound (hpower.trans power.level_le_grip)
    (hpower.trans (Power.level_le_reach (Nat.lt_of_lt_of_le htight hpower)))
    (.binary op hleft.isExpression hright.isExpression) fun h hlevels hparen hnext => ?_
  refine (Ends.advance h).bind fun sign parser h => ?_
  rw [hreach] at hnext
  have hlt : op.power.level < power'.grip := Nat.lt_of_lt_of_le hpower' power'.level_le_grip
  have hle : op.power.level ≤ power'.reach :=
    (Nat.le_of_lt hpower').trans (Power.level_le_reach (htight.trans hpower'))
  exact (hright.whole h.2 hlevels hlt hparen (hnext.trans hle) hnext).bind fun _ parser h =>
    .build (Build.composes_binary op hleft.isExpression hright.isExpression) h

/-- An assignment, which groups to the right. -/
theorem assign (hleft : ReadAs left leftTree power) (hright : ReadAs right rightTree power')
    (hpower : Power.assignment.level < power.level) :
    ReadAs (left ++ TokenKind.assignment.word :: right) (.bare (.binary .assign) [leftTree, rightTree])
      .assignment := by
  refine hleft.continued rfl ((Nat.le_of_lt hpower).trans power.level_le_grip)
    ((Nat.le_of_lt hpower).trans (Power.level_le_reach hpower))
    (.binary .assign hleft.isExpression hright.isExpression) fun h hlevels hparen hnext => ?_
  refine (Ends.advance h).bind fun sign parser h => ?_
  exact (hright.whole h.2 hlevels (Power.comma_lt_grip hright.tight) hparen
    (hnext.trans (Power.comma_le_reach hright.tight)) hnext).bind fun _ parser h =>
      .build (Build.composes_binary .assign hleft.isExpression hright.isExpression) h

theorem subscript (hleft : ReadAs left leftTree power) (hright : ReadAs right rightTree power')
    (hpower : Power.postfixed.level ≤ power.level) :
    ReadAs (left ++ inBrackets right) (.bare .subscript [leftTree, rightTree]) .postfixed := by
  refine hleft.continued rfl (hpower.trans power.level_le_grip)
    (hpower.trans (Power.level_le_reach (Nat.lt_of_lt_of_le (by decide) hpower)))
    (.subscript hleft.isExpression hright.isExpression) fun h hlevels _ _ => ?_
  refine (Ends.advance h).bind fun opening parser h => ?_
  rw [List.append_assoc] at h
  rw [List.length_append] at hlevels
  refine (hright.whole_of_not_operator h.2 (Nat.lt_of_le_of_lt (Nat.le_add_right _ _) hlevels) (by decide)
    (by simp) rfl).bind fun _ parser h => (Ends.expect h rfl).bind fun _ parser h => ?_
  exact .build (Build.composes_subscript hleft.isExpression hright.isExpression) h.2

theorem step (direction : Direction) (h : ReadAs words tree power)
    (hpower : Power.postfixed.level ≤ power.level) :
    ReadAs (words ++ [direction.token.word]) (.bare (.unary (.step .after direction)) [tree]) .postfixed :=
  h.continued (continuation?_step direction) (hpower.trans power.level_le_grip)
    (hpower.trans (Power.level_le_reach (Nat.lt_of_lt_of_le (by decide) hpower)))
    (.unary _ h.isExpression) fun hahead _ _ _ => (Ends.advance hahead).bind fun sign _ hahead =>
      .build (Build.composes_unary _ h.isExpression) hahead.2

end ReadAs

/-! ## Expressions as they are printed -/

theorem least_le_primary (place : Phrase.Place) : place.least ≤ Power.primary.level := by
  have hpowers : ∀ op ∈ BinaryOp.all, op.power.level + 1 ≤ Power.primary.level := by decide
  cases place with
  | left op =>
    cases op with
    | assign => decide
    | _ => exact level_le _
  | right op =>
    cases op with
    | assign => decide
    | _ => exact hpowers _ (BinaryOp.mem_all _)
  | operand op => exact level_le _
  | _ => decide

theorem least_left {op : BinaryOp} (h : op ≠ .assign) : (Phrase.Place.left op).least = op.power.level := by
  cases op with
  | assign => exact absurd rfl h
  | _ => rfl

theorem least_right {op : BinaryOp} (h : op ≠ .assign) :
    (Phrase.Place.right op).least = op.power.level + 1 := by
  cases op with
  | assign => exact absurd rfl h
  | _ => rfl

variable {style : Style} {phrase : Phrase}

/-- An operand can stand at its place: it binds tightly enough there, or it stands in parentheses. -/
theorem ReadAs.wordsAt (hstyle : style.Sound) (place : Phrase.Place) (h : ReadAs phrase.words tree phrase.power) :
    ∃ power : Power, place.least ≤ power.level ∧ ReadAs (phrase.wordsAt style place) tree power ∧
      (place = .operand .negate → ∀ first more, phrase.wordsAt style place = first :: more →
        first.kind ≠ .number) := by
  by_cases hparens : style place phrase = true
  · have hwords : phrase.wordsAt style place = Word.inParens phrase.words := if_pos hparens
    rw [hwords]
    refine ⟨.primary, least_le_primary place, h.inParens, ?_⟩
    rintro - first more hfirst
    rw [← (List.cons.inj hfirst).1]
    decide
  · have hwords : phrase.wordsAt style place = phrase.words := if_neg hparens
    have hneeds : ¬place.needsParens phrase = true := fun hneeds => hparens (hstyle place phrase hneeds)
    simp only [Phrase.Place.needsParens, Bool.or_eq_true, decide_eq_true_eq, Bool.and_eq_true, beq_iff_eq, not_or,
      not_and, Nat.not_lt] at hneeds
    rw [hwords]
    refine ⟨phrase.power, hneeds.1, h, ?_⟩
    rintro hplace first more hfirst hnumber
    exact hneeds.2 hplace (by simp [Phrase.beginsWithNumber, hfirst, hnumber])

/-- **An expression is read from the words that are printed for it**, with the power of its top. -/
theorem readAs_words (hstyle : style.Sound) (h : tree.IsExpression) :
    ReadAs (tree.words style) tree (tree.phrase style).power := by
  induction h with
  | int hleast hgreatest => exact .int hleast hgreatest
  | char value => exact .char value
  | string value => exact .string value
  | identifier name => exact .identifier name
  | call name _ ih =>
    have hcall := ReadAs.call name (Tree.words style) fun argument hmem => ⟨_, ih argument hmem⟩
    rw [Tree.words_call]
    exact hcall
  | binary op _ _ hleft hright =>
    obtain ⟨power, hpower, hleft, -⟩ := hleft.wordsAt hstyle (.left op)
    obtain ⟨power', hpower', hright, -⟩ := hright.wordsAt hstyle (.right op)
    rw [Tree.words_bare]
    by_cases hop : op = .assign
    · subst hop
      exact hleft.assign hright hpower
    · rw [least_left hop] at hpower
      rw [least_right hop] at hpower'
      exact hleft.binary op hop hright hpower hpower'
  | unary op _ ih =>
    obtain ⟨power, hpower, hoperand, hnumber⟩ := ih.wordsAt hstyle (.operand op)
    rw [Tree.words_bare]
    cases op with
    | step position direction =>
      cases position with
      | before => exact hoperand.unary _ rfl hpower nofun
      | after => exact hoperand.step direction hpower
    | negate => exact hoperand.unary _ rfl hpower fun _ => hnumber rfl
    | _ => exact hoperand.unary _ rfl hpower nofun
  | subscript _ _ harray hindex =>
    obtain ⟨power, hpower, harray, -⟩ := harray.wordsAt hstyle .array
    obtain ⟨power', -, hindex, -⟩ := hindex.wordsAt hstyle .index
    rw [Tree.words_bare]
    exact harray.subscript hindex hpower
  | @cast kind casts parts type htype _ ih =>
    have hne : casts ++ [type] ≠ [] := List.append_ne_nil_of_right_ne_nil _ (List.cons_ne_nil _ _)
    rw [Tree.words, Tree.power_of_casts style kind parts hne, Tree.phrase_of_casts style kind parts hne,
      castWords_append, List.append_assoc]
    by_cases hcasts : casts = []
    · subst hcasts
      obtain ⟨power, hpower, hcore, -⟩ := ih.wordsAt hstyle .cast
      exact hcore.cast htype hpower
    · rw [Tree.words, Tree.power_of_casts style kind parts hcasts,
        Tree.phrase_of_casts style kind parts hcasts] at ih
      exact ih.cast htype (Nat.le_refl _)

end MiniC.Grammar
