import MiniC.Proofs.Grammar.Progress

/-!
# Rounds of readers

Eight readers go round in a loop: over operators, suffixes of types, arguments, items, parameters,
variables, statements and declarations. Each is `Parse.loop` of what it does in one round. A round that
goes on has taken a token, so a loop has no more rounds than there are tokens, and more patience makes
no difference to it.
-/

namespace MiniC

namespace Parse

variable {σ α β : Type} {start : Parser}

/-- Behind a round stands the next one or a result. -/
def goOn (next : σ → Parse α) : σ ⊕ α → Parse α
  | .inl state => next state
  | .inr value => return value

@[simp] theorem goOn_inl (next : σ → Parse α) (state : σ) : goOn next (.inl state) = next state := rfl

@[simp] theorem goOn_inr (next : σ → Parse α) (value : α) : goOn next (.inr value) = Pure.pure value := rfl

/-- Rounds that go on from a state to the next one, until one has a result. -/
def loop (round : σ → Parse (σ ⊕ α)) : Nat → σ → Parse α
  | 0, _ => exhausted
  | rounds + 1, state => round state >>= goOn (loop round rounds)

/-- In front of tokens that end with the end of input, the round takes one of them if it goes on, and
goes over none that is the end of input in any case. -/
structure Turns (start : Parser) (round : Parse (σ ⊕ α)) : Prop where
  turns : start.last.kind = .eof →
    match round start with
    | .ok (.inl _) parser => start.Past 1 parser
    | .ok (.inr _) parser => start.Past 0 parser
    | .error _ parser => start.Past 0 parser

namespace Turns

/-- A round that takes a token in any case. -/
theorem of_passes {round : Parse (σ ⊕ α)} (h : Passes start 1 round) : Turns start round := by
  refine ⟨fun hlast => ?_⟩
  have hround := h.passes hlast
  split
  · simpa [*] using hround
  · next hok => exact Parser.Past.mono (by simpa [hok] using hround) (Nat.zero_le 1)
  · simpa [*] using hround

/-- The last round. -/
theorem stop (value : α) : Turns start (Pure.pure (.inr value) : Parse (σ ⊕ α)) := ⟨fun _ => .refl start⟩

theorem kind {next : TokenKind → Parse (σ ⊕ α)}
    (h : ∀ k, start.current.kind = k → Turns start (next k)) : Turns start (Parse.kind >>= next) :=
  ⟨(h _ rfl).turns⟩

theorem get {next : Parser → Parse (σ ⊕ α)} (h : Turns start (next start)) :
    Turns start (MonadState.get >>= next) := ⟨h.turns⟩

theorem ite {c : Prop} [Decidable c] {yes no : Parse (σ ⊕ α)} (hyes : c → Turns start yes)
    (hno : ¬c → Turns start no) : Turns start (if c then yes else no) := by
  by_cases h : c
  · rw [if_pos h]
    exact hyes h
  · rw [if_neg h]
    exact hno h

end Turns

/-- More rounds than there are tokens make no difference. -/
theorem loop_eq_of_lt {round : σ → Parse (σ ⊕ α)} (h : ∀ state parser, Turns parser (round state))
    (hlast : start.last.kind = .eof) {rounds rounds' : Nat} {state : σ}
    (hrounds : start.rest.length < rounds) (hrounds' : start.rest.length < rounds') :
    loop round rounds state start = loop round rounds' state start := by
  induction rounds generalizing rounds' state start with
  | zero => omega
  | succ rounds ih =>
    obtain ⟨rounds', rfl⟩ := Nat.exists_eq_succ_of_ne_zero (Nat.ne_zero_of_lt hrounds')
    have hround := (h state start).turns hlast
    simp only [loop, bind, EStateM.bind]
    generalize round state start = result at hround
    match result, hround with
    | .ok (.inl next) parser, hround =>
      have hle := hround.length_le
      exact ih (by rw [hround.last_eq, hlast]) (by omega) (by omega)
    | .ok (.inr value) parser, _ => rfl
    | .error fault parser, _ => rfl

end Parse

namespace Grammar

open Parse

variable {start : Parser}

/-! ## What readers do in one round -/

/-- A round of `typeSuffixes`. -/
def typeSuffixRound (power : Power) (_ : Unit) : Parse (Unit ⊕ Unit) := do
  if power.level < Power.postfixed.level then
    match ← kind with
    | .star =>
      let token ← advance
      build (.pointerType token.line)
      return .inl ()
    | .const =>
      let token ← advance
      build (.const token.line)
      return .inl ()
    | _ => return .inr ()
  else return .inr ()

/-- A round of `operators`. -/
def operatorRound (inner : Power → Parse Unit) (power : Power) (_ : Unit) : Parse (Unit ⊕ Unit) := do
  match continuation? (← kind) with
  | none => return .inr ()
  | some (strength, continuation) =>
    if strength.level ≤ power.level then return .inr ()
    continueWith inner strength continuation
    return .inl ()

/-- A round of `argumentsFrom`. -/
def argumentRound (inner : Power → Parse Unit) (count : Nat) : Parse (Nat ⊕ Nat) := do
  if (← kind) = .closeParen then return .inr count
  if 0 < count then
    let _ ← expect .comma
  inner .comma
  return .inl (count + 1)

/-- A round of `itemsFrom`. -/
def itemRound (count : Nat) : Parse (Nat ⊕ Nat) := do
  if (← kind) = .closeCurly then return .inr count
  if 0 < count then
    let _ ← expect .comma
    if (← kind) = .closeCurly then return .inr count
  expression .comma
  return .inl (count + 1)

/-- A round of `parametersFrom`. -/
def parameterRound (count : Nat) : Parse (Nat ⊕ Nat) := do
  if (← kind) = .closeParen then return .inr count
  if 0 < count then
    let _ ← expect .comma
  parameter
  return .inl (count + 1)

/-- A round of `declaratorsFrom`. -/
def declaratorRound (inner : Parse Nat) (base : BaseTy) (constant : Bool) (line count : Nat) :
    Parse (Nat ⊕ Nat) := do
  build (.type (.base base) line)
  if constant then build (.const line)
  typeSuffix .default
  let name ← expectName "expected identifier in declaration"
  if count = 0 ∧ (← kind) = .openParen then
    functionRest inner name.value name.line
    return .inr 1
  variableRest name.value name.line
  if ← accept .comma then return .inl (count + 1)
  let _ ← expect .semicolon
  return .inr (count + 1)

/-- A round of `statementsFrom`. -/
def statementRound (inner : Parse Nat) (count : Nat) : Parse (Nat ⊕ Nat) := do
  if (← get).hasTokens && (← kind) != .closeCurly then
    let more ← inner
    return .inl (count + more)
  else return .inr count

/-- A round of `declarationsFrom`. -/
def declarationRound (count : Nat) : Parse (Nat ⊕ Nat) := do
  if (← get).hasTokens then
    if !(← kind).startsType then
      refuse "expected a declaration at file level"
    let more ← declaration statement
    return .inl (count + more)
  else return .inr count

/-! ## Readers are loops of their rounds -/

variable {inner : Power → Parse Unit} {innerStatement : Parse Nat}

theorem typeSuffixes_eq_loop (power : Power) (rounds : Nat) :
    typeSuffixes power rounds = loop (typeSuffixRound power) rounds () := by
  induction rounds with
  | zero => rfl
  | succ rounds ih =>
    simp only [typeSuffixes, loop, typeSuffixRound, ih]
    split
    · simp only [bind_assoc]
      refine bind_congr fun k => ?_
      split <;> simp
    · simp

theorem operators_eq_loop (inner : Power → Parse Unit) (power : Power) (rounds : Nat) :
    operators inner power rounds = loop (operatorRound inner power) rounds () := by
  induction rounds with
  | zero => rfl
  | succ rounds ih =>
    simp only [operators, loop, operatorRound, ih, bind_assoc]
    refine bind_congr fun k => ?_
    cases continuation? k with
    | none => simp
    | some found =>
      dsimp only
      split <;> simp

theorem argumentsFrom_eq_loop (inner : Power → Parse Unit) (rounds count : Nat) :
    argumentsFrom inner rounds count = loop (argumentRound inner) rounds count := by
  induction rounds generalizing count with
  | zero => rfl
  | succ rounds ih =>
    simp only [argumentsFrom, loop, argumentRound, ih, bind_assoc]
    refine bind_congr fun k => ?_
    split
    · simp
    · split <;> simp

theorem itemsFrom_eq_loop (rounds count : Nat) :
    itemsFrom rounds count = loop itemRound rounds count := by
  induction rounds generalizing count with
  | zero => rfl
  | succ rounds ih =>
    simp only [itemsFrom, loop, itemRound, ih, bind_assoc]
    refine bind_congr fun k => ?_
    split
    · simp
    · split
      · simp only [bind_assoc]
        refine bind_congr fun _ => bind_congr fun k => ?_
        split <;> simp
      · simp

theorem parametersFrom_eq_loop (rounds count : Nat) :
    parametersFrom rounds count = loop parameterRound rounds count := by
  induction rounds generalizing count with
  | zero => rfl
  | succ rounds ih =>
    simp only [parametersFrom, loop, parameterRound, ih, bind_assoc]
    refine bind_congr fun k => ?_
    split
    · simp
    · split <;> simp

theorem declaratorsFrom_eq_loop (inner : Parse Nat) (base : BaseTy) (constant : Bool)
    (line rounds count : Nat) :
    declaratorsFrom inner base constant line rounds count =
      loop (declaratorRound inner base constant line) rounds count := by
  induction rounds generalizing count with
  | zero => rfl
  | succ rounds ih =>
    -- Behind a name both go on in the same way, whether the type has been made constant or not.
    have htail : ∀ (name : Token) (k : TokenKind),
        (if count = 0 ∧ k = .openParen then do
            functionRest inner name.value name.line
            return 1
          else do
            variableRest name.value name.line
            if ← accept .comma then
              loop (declaratorRound inner base constant line) rounds (count + 1)
            else
              let _ ← expect .semicolon
              return count + 1) =
          (if count = 0 ∧ k = .openParen then do
            functionRest inner name.value name.line
            return .inr 1
          else do
            variableRest name.value name.line
            if ← accept .comma then return .inl (count + 1)
            let _ ← expect .semicolon
            return .inr (count + 1)) >>=
            goOn (loop (declaratorRound inner base constant line) rounds) := by
      intro name k
      split
      · simp
      · simp only [bind_assoc]
        refine bind_congr fun _ => bind_congr fun found => ?_
        split <;> simp
    simp only [declaratorsFrom, loop, declaratorRound, ih, bind_assoc]
    refine bind_congr fun _ => ?_
    split <;> simp only [bind_assoc, htail]

theorem statementsFrom_eq_loop (inner : Parse Nat) (rounds count : Nat) :
    statementsFrom inner rounds count = loop (statementRound inner) rounds count := by
  induction rounds generalizing count with
  | zero => rfl
  | succ rounds ih =>
    simp only [statementsFrom, loop, statementRound, ih, bind_assoc]
    refine bind_congr fun _ => bind_congr fun _ => ?_
    split <;> simp

theorem declarationsFrom_eq_loop (rounds count : Nat) :
    declarationsFrom rounds count = loop declarationRound rounds count := by
  induction rounds generalizing count with
  | zero => rfl
  | succ rounds ih =>
    simp only [declarationsFrom, loop, declarationRound, ih, bind_assoc]
    refine bind_congr fun _ => ?_
    split
    · simp only [bind_assoc]
      refine bind_congr fun _ => ?_
      split <;> simp
    · simp

/-! ## A round that goes on has taken a token -/

theorem turns_typeSuffixRound (power : Power) : Turns start (typeSuffixRound power ()) := by
  have hround : ∀ step : Nat → Build Unit, start.current.kind ≠ .eof →
      Turns start (advance >>= fun token => build (step token.line) >>= fun _ =>
        Pure.pure (.inl () : Unit ⊕ Unit)) := fun step hkind =>
    .of_passes ((Passes.advance hkind).first fun _ _ => (Passes.build _).next fun _ _ => .pure _)
  refine .ite (fun _ => .kind fun k hk => ?_) fun _ => .stop _
  cases k with
  | star => exact hround Build.pointerType (by simp [hk])
  | const => exact hround Build.const (by simp [hk])
  | _ => exact .stop _

theorem turns_operatorRound (hinner : PassesExpressions inner) (power : Power) :
    Turns start (operatorRound inner power ()) := by
  refine .kind fun k hk => ?_
  cases hnext : continuation? k with
  | none => exact .stop _
  | some found =>
    refine .ite (fun _ => .stop _) fun _ => .of_passes ?_
    refine (passes_continueWith hinner _ _ fun heof => ?_).first fun _ _ => .pure _
    rw [← hk, heof] at hnext
    cases hnext

theorem turns_argumentRound (hinner : PassesExpressions inner) (count : Nat) :
    Turns start (argumentRound inner count) := by
  refine .kind fun _ _ => .ite (fun _ => .stop _) fun _ => .of_passes (.ite (fun _ => ?_) fun _ => ?_)
  · exact (Passes.expect (by simp)).first fun _ _ => (hinner .comma).next fun _ _ => .pure _
  · exact (hinner .comma).first fun _ _ => .pure _

theorem turns_itemRound (count : Nat) : Turns start (itemRound count) := by
  refine .kind fun _ _ => .ite (fun _ => .stop _) fun _ => .of_passes (.ite (fun _ => ?_) fun _ => ?_)
  · exact (Passes.expect (by simp)).first fun _ _ => .kind fun _ _ => .ite (fun _ => .pure _)
      fun _ => (passes_expression .comma).next fun _ _ => .pure _
  · exact (passes_expression .comma).first fun _ _ => .pure _

theorem turns_parameterRound (count : Nat) : Turns start (parameterRound count) := by
  refine .kind fun _ _ => .ite (fun _ => .stop _) fun _ => .of_passes (.ite (fun _ => ?_) fun _ => ?_)
  · exact (Passes.expect (by simp)).first fun _ _ => passes_parameter.next fun _ _ => .pure _
  · exact passes_parameter.first fun _ _ => .pure _

theorem turns_declaratorRound (hinner : PassesStatements innerStatement) (base : BaseTy)
    (constant : Bool) (line count : Nat) :
    Turns start (declaratorRound innerStatement base constant line count) := by
  refine .of_passes ((Passes.build _).next fun _ _ => .when (fun _ => .build _) fun _ => ?_)
  refine (passes_typeSuffix .default).next fun _ _ => (Passes.expectName _).first fun name _ =>
    .kind fun _ _ => .ite (fun _ => ?_) fun _ => ?_
  · exact (passes_functionRest hinner _ _).next fun _ _ => .pure _
  · refine (passes_variableRest _ _).next fun _ _ => (Passes.accept (by simp)).next fun _ _ =>
      .ite (fun _ => .pure _) fun _ => ?_
    exact (Passes.expect (by simp)).next fun _ _ => .pure _

theorem turns_statementRound (hinner : PassesStatements innerStatement) (count : Nat) :
    Turns start (statementRound innerStatement count) :=
  .get (.kind fun _ _ => .ite (fun _ => .of_passes (Passes.first hinner fun _ _ => .pure _))
    fun _ => .stop _)

theorem turns_declarationRound (count : Nat) : Turns start (declarationRound count) := by
  refine .get (.ite (fun _ => .kind fun _ _ => .of_passes ?_) fun _ => .stop _)
  exact .when (fun _ => .refuse _) fun _ =>
    (passes_declaration passesStatements_statement).first fun _ _ => .pure _

end Grammar

end MiniC
