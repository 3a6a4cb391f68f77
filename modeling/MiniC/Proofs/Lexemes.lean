import MiniC.Proofs.Token.Lexeme

/-!
# A source is covered by its lexemes

A source that is scanned is its lexemes, one behind the other, each skipped or the source of one token. The
line of a token is that of its lexeme, and the line of that number is the one in which the lexeme stands.
A source that cannot be scanned is covered up to the first place at which no lexeme can be taken.
-/

namespace MiniC.Token

/-- A lexeme, with the token that it gives if it is not skipped. -/
structure Lexeme where
  pattern : Pattern
  text : List Char
  token : Option Token

/-- The text of lexemes that stand one behind the other. -/
def Lexeme.texts (lexemes : List Lexeme) : List Char := lexemes.flatMap (·.text)

/-- The lexeme is the one that the scanner takes from the start of a text. -/
structure Lexeme.Taken (lexeme : Lexeme) (cs : List Char) : Prop where
  first : ∃ length, Pattern.first? cs = some (lexeme.pattern, length) ∧ lexeme.text = cs.take length
  read : lexeme.pattern.read lexeme.text = .ok (lexeme.token.map fun token => (token.kind, token.value))

/-- Something is left from which no lexeme can be taken: no pattern fits, or what fits has no meaning. -/
inductive Stuck : List Char → Cause → Prop
  | unknown {c : Char} {rest : List Char} : Pattern.first? (c :: rest) = none →
    Stuck (c :: rest) (.unrecognisedToken (String.singleton c))
  | meaningless {cs : List Char} {pattern : Pattern} {length : Nat} {cause : Cause} :
    Pattern.first? cs = some (pattern, length) → pattern.read (cs.take length) = .error cause → Stuck cs cause

/-- Lexemes cover a text that starts on a line, up to `rest`. -/
structure Covers (line : Nat) (cs : List Char) (lexemes : List Lexeme) (rest : List Char) : Prop where
  text_eq : cs = Lexeme.texts lexemes ++ rest
  nonempty : ∀ lexeme ∈ lexemes, lexeme.text ≠ []
  taken : ∀ front lexeme back, lexemes = front ++ lexeme :: back →
    lexeme.Taken (lexeme.text ++ (Lexeme.texts back ++ rest))
  line_eq : ∀ front lexeme back, lexemes = front ++ lexeme :: back → ∀ token ∈ lexeme.token,
    token.line = line + Text.lineFeeds (Lexeme.texts front)

variable {line length : Nat} {cs rest : List Char} {lexemes : List Lexeme} {pattern : Pattern}
  {reading : Option (TokenKind × String)} {source : String}

theorem Lexeme.texts_cons (lexeme : Lexeme) (lexemes : List Lexeme) :
    texts (lexeme :: lexemes) = lexeme.text ++ texts lexemes := List.flatMap_cons

namespace Covers

theorem nil (line : Nat) (cs : List Char) : Covers line cs [] cs :=
  ⟨rfl, List.forall_mem_nil _, by simp, by simp⟩

/-- A lexeme in front of a text that is covered. -/
theorem cons (hfirst : Pattern.first? cs = some (pattern, length))
    (hread : pattern.read (cs.take length) = .ok reading)
    (h : Covers (line + Text.lineFeeds (cs.take length)) (cs.drop length) lexemes rest) (hne : cs ≠ []) :
    Covers line cs
      (⟨pattern, cs.take length, reading.map fun (kind, value) => ⟨kind, value, line⟩⟩ :: lexemes) rest where
  text_eq := by rw [Lexeme.texts_cons, List.append_assoc, ← h.text_eq, List.take_append_drop]
  nonempty := by
    refine List.forall_mem_cons.mpr ⟨?_, h.nonempty⟩
    have hpos := Pattern.first?_pos hfirst
    simp [hne, Nat.ne_of_gt hpos]
  taken := by
    intro front lexeme back heq
    cases front with
    | nil =>
      obtain ⟨rfl, rfl⟩ := List.cons.inj heq
      rw [← h.text_eq, List.take_append_drop]
      refine ⟨⟨length, hfirst, rfl⟩, ?_⟩
      rw [hread]
      cases reading <;> rfl
    | cons _ front => exact h.taken front lexeme back (List.cons.inj heq).2
  line_eq := by
    intro front lexeme back heq token htoken
    cases front with
    | nil =>
      obtain ⟨rfl, rfl⟩ := List.cons.inj heq
      obtain ⟨_, -, rfl⟩ := Option.map_eq_some_iff.mp htoken
      rfl
    | cons first front =>
      obtain ⟨rfl, hrest⟩ := List.cons.inj heq
      rw [h.line_eq front lexeme back hrest token htoken, Lexeme.texts_cons, Text.lineFeeds_append, Nat.add_assoc]

/-- What is skipped stands between tokens. -/
theorem isGap (h : Covers line cs lexemes rest) {lexeme : Lexeme} (hmem : lexeme ∈ lexemes)
    (hskipped : lexeme.token = none) : IsGap lexeme.text := by
  obtain ⟨front, back, hsplit⟩ := List.append_of_mem hmem
  obtain ⟨⟨length, hfirst, htext⟩, hread⟩ := h.taken front lexeme back hsplit
  rw [hskipped, htext] at hread
  rw [htext]
  exact Pattern.isGap_of_read (Pattern.first?_spec hfirst).2 hread

/-- The lexeme of a token stands on the line of that number. -/
theorem exists_line (h : Covers 1 source.toList lexemes []) {front back : List Lexeme} {lexeme : Lexeme}
    (hsplit : lexemes = front ++ lexeme :: back) {token : Token} (htoken : token ∈ lexeme.token) :
    ∃ earlier head tail later, Lexeme.texts front = earlier ++ head ∧ Lexeme.texts back = tail ++ later ∧
      Text.IsLine earlier (head ++ lexeme.text ++ tail) later ∧
      Text.getLine? source token.line = some (String.ofList (head ++ lexeme.text ++ tail)) := by
  have hne : lexeme.text ≠ [] := h.nonempty lexeme (by simp [hsplit])
  have hline : OnOneLine lexeme.text := by
    obtain ⟨⟨length, hfirst, htext⟩, hread⟩ := h.taken front lexeme back hsplit
    rw [htoken, htext] at hread
    rw [htext]
    exact Pattern.onOneLine_of_read (Pattern.first?_spec hfirst).1 (Pattern.first?_spec hfirst).2 hread
  obtain ⟨earlier, head, tail, later, hfront, hback, hwhole⟩ :=
    Text.exists_isLine (Lexeme.texts front) (Lexeme.texts back) hne hline.no_feed hline.no_return
  refine ⟨earlier, head, tail, later, hfront, hback, hwhole, ?_⟩
  have hhead : Text.lineFeeds head = 0 :=
    List.count_eq_zero_of_not_mem fun hmem => hwhole.no_feed (by simp [hmem])
  have hnumber : token.line = 1 + Text.lineFeeds earlier := by
    rw [h.line_eq front lexeme back hsplit token htoken, hfront, Text.lineFeeds_append, hhead, Nat.add_zero]
  rw [hnumber]
  refine Text.getLine?_of_isLine hwhole (.inl (by simp [hne])) ?_
  rw [h.text_eq, hsplit, Lexeme.texts, List.flatMap_append, List.flatMap_cons]
  simp only [Lexeme.texts] at hfront hback
  simp [hfront, hback]

end Covers

/-- The tokens of a text are those of lexemes that cover it, with the end of input behind them; a text that is
refused is covered up to a place at which no lexeme can be taken. -/
theorem covers_of_scanFrom (line : Nat) (cs : List Char) :
    match scanFrom line cs with
    | .ok tokens => ∃ lexemes, Covers line cs lexemes [] ∧
        tokens = lexemes.filterMap (·.token) ++ [endOfInput (line + Text.lineFeeds cs)]
    | .error fault => ∃ lexemes rest, Covers line cs lexemes rest ∧ Stuck rest fault.cause ∧
        fault.line = line + Text.lineFeeds (Lexeme.texts lexemes) := by
  fun_induction scanFrom line cs with
  | case1 line => exact ⟨[], .nil line [], rfl⟩
  | case2 line c rest hfirst => exact ⟨[], c :: rest, .nil line _, .unknown hfirst, rfl⟩
  | case3 line c rest pattern length hfirst lexeme cause hread =>
    exact ⟨[], c :: rest, .nil line _, .meaningless hfirst hread, rfl⟩
  | case4 line c rest pattern length hfirst lexeme reading hread fault herror ih =>
    rw [herror] at ih
    obtain ⟨lexemes, left, hcovers, hstuck, hline⟩ := ih
    refine ⟨_, left, hcovers.cons hfirst hread (List.cons_ne_nil c rest), hstuck, ?_⟩
    rw [hline, Lexeme.texts_cons, Text.lineFeeds_append, Nat.add_assoc]
  | case5 line c rest pattern length hfirst lexeme tokens hok hread ih =>
    rw [hok] at ih
    obtain ⟨lexemes, hcovers, rfl⟩ := ih
    refine ⟨_, hcovers.cons hfirst hread (List.cons_ne_nil c rest), ?_⟩
    rw [Nat.add_assoc, lineFeeds_take_add_drop]
    rfl
  | case6 line c rest pattern length hfirst lexeme tokens hok kind value hread ih =>
    rw [hok] at ih
    obtain ⟨lexemes, hcovers, rfl⟩ := ih
    refine ⟨_, hcovers.cons hfirst hread (List.cons_ne_nil c rest), ?_⟩
    rw [Nat.add_assoc, lineFeeds_take_add_drop]
    rfl

/-- A source that is scanned is covered by its lexemes. Each is skipped or gives one token, whose line is the
one in which the lexeme stands; the end of input is on the last line. A source that is refused is covered up
to the first place at which no lexeme can be taken, and the fault is on the line of that place. -/
theorem scan_covers_source (source : String) :
    (∀ tokens, scan source = .ok tokens → ∃ lexemes, Covers 1 source.toList lexemes [] ∧
      tokens = lexemes.filterMap (·.token) ++ [endOfInput (1 + Text.lineFeeds source.toList)] ∧
      (∀ lexeme ∈ lexemes, lexeme.token = none → IsGap lexeme.text) ∧
      ∀ front lexeme back, lexemes = front ++ lexeme :: back → ∀ token ∈ lexeme.token,
        ∃ earlier head tail later, Lexeme.texts front = earlier ++ head ∧
          Lexeme.texts back = tail ++ later ∧ Text.IsLine earlier (head ++ lexeme.text ++ tail) later ∧
          Text.getLine? source token.line = some (String.ofList (head ++ lexeme.text ++ tail))) ∧
    ∀ fault, scan source = .error fault → ∃ lexemes rest, Covers 1 source.toList lexemes rest ∧
      Stuck rest fault.cause ∧ fault.line = 1 + Text.lineFeeds (Lexeme.texts lexemes) := by
  have hcovers := covers_of_scanFrom 1 source.toList
  refine ⟨fun tokens hok => ?_, fun fault herror => ?_⟩
  · rw [show scanFrom 1 source.toList = .ok tokens from hok] at hcovers
    obtain ⟨lexemes, h, htokens⟩ := hcovers
    exact ⟨lexemes, h, htokens, fun _ => h.isGap, fun _ _ _ hsplit _ => h.exists_line hsplit⟩
  · rw [show scanFrom 1 source.toList = .error fault from herror] at hcovers
    exact hcovers

/-- A comment over two lines in front of a name, and a place behind a line end that cannot be scanned. -/
theorem scan_covers_source_comment :
    (∃ tokens lexemes, scan "int /* two\r\nlines */ x;\r\n" = .ok tokens ∧
      Covers 1 "int /* two\r\nlines */ x;\r\n".toList lexemes [] ∧
      tokens = lexemes.filterMap (·.token) ++ [endOfInput 3]) ∧
    ∃ fault lexemes rest, scan "x\n$" = .error fault ∧ Covers 1 "x\n$".toList lexemes rest ∧
      Stuck rest fault.cause ∧ fault.line = 1 + Text.lineFeeds (Lexeme.texts lexemes) := by
  refine ⟨?_, ?_⟩
  · have hok : (scan "int /* two\r\nlines */ x;\r\n").isOk := by decide +kernel
    cases hscan : scan "int /* two\r\nlines */ x;\r\n" with
    | error fault => simp [hscan, Except.isOk, Except.toBool] at hok
    | ok tokens =>
      obtain ⟨lexemes, hcovers, htokens, -⟩ := (scan_covers_source _).1 tokens hscan
      exact ⟨tokens, lexemes, rfl, hcovers, htokens⟩
  · have herror : ¬(scan "x\n$").isOk := by decide +kernel
    cases hscan : scan "x\n$" with
    | ok tokens => simp [hscan, Except.isOk, Except.toBool] at herror
    | error fault =>
      obtain ⟨lexemes, rest, h⟩ := (scan_covers_source _).2 fault hscan
      exact ⟨fault, lexemes, rest, rfl, h⟩

end MiniC.Token
