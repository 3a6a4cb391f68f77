import MiniC.Proofs.ParserProgress

/-!
# Where reading stops

A source whose tokens have no tree is refused in front of one of them. The fault stands on the line of
that token. It names the token, or the number that was read last and is out of range, which need not be
on the same line.
-/

namespace MiniC.Grammar

open Parse

variable {tokens : List Token} {last : Token} {fault : Fault}

/-- Tokens that end with the end of input and have no tree are refused in front of one of them. -/
theorem exists_stop (htokens : tokens.getLast? = some last) (hlast : last.kind = .eof)
    (h : parse tokens = .error fault) :
    ∃ front token rest parser, tokens = front ++ token :: rest ∧
      file (Parser.start tokens) = .error fault parser ∧ parser.rest = token :: rest ∧
      fault.line = token.line ∧ fault.cause.Names front token := by
  have hstart : (Parser.start tokens).last.kind = .eof := by simp [Parser.start, htokens, hlast]
  rcases parse_stops hstart with ⟨forest, -, hparse, -⟩ | ⟨fault', parser, hfile, hparse, hstops⟩
  · rw [hparse] at h
    cases h
  · obtain rfl := Except.error.inj (hparse.symm.trans h)
    obtain ⟨passed, hpassed, -, hnone⟩ := (passes_file.of_error hstart hfile).exists_passed
    obtain ⟨front, hfront, hnames⟩ := hstops.exists_read
    have hline := hstops.line_eq
    cases hrest : parser.rest with
    | nil =>
      -- The end of input would have been passed.
      rw [hrest, List.append_nil] at hpassed
      exact absurd hlast (hnone last (hpassed ▸ List.mem_of_getLast? htokens))
    | cons token rest =>
      rw [Parser.current, hrest, List.headD_cons] at hline hnames
      exact ⟨front, token, rest, parser, by rw [← hfront, hrest], hfile, hrest, hline, hnames⟩

/-- **A refusal names the token at which reading stops, or the number before it.** A source that is not
read has no tokens, or is refused in front of one of them and on its line: an unexpected token is that
one, and a number out of range is the one that was read last, together with a minus sign in front of
it. -/
theorem refusal_names_stopping_token {source : String} (h : read source = .error fault) :
    Token.scan source = .error fault ∨
      ∃ front token rest parser, Token.scan source = .ok (front ++ token :: rest) ∧
        file (Parser.start (front ++ token :: rest)) = .error fault parser ∧
        parser.rest = token :: rest ∧ fault.line = token.line ∧ fault.cause.Names front token := by
  cases hscan : Token.scan source with
  | error fault' =>
    rw [read, hscan] at h
    exact .inl (congrArg Except.error (Except.error.inj h))
  | ok tokens =>
    right
    obtain ⟨front', last, hok, hlast⟩ | ⟨fault', herror, -⟩ := scanFrom_cases 1 source.toList
    · obtain rfl := Except.ok.inj (hscan.symm.trans hok)
      have hparse : parse (front' ++ [last]) = .error fault := by
        rwa [read, hscan] at h
      obtain ⟨front, token, rest, parser, htokens, hfile, hrest, hline, hnames⟩ :=
        exists_stop List.getLast?_concat hlast hparse
      rw [htokens] at hfile ⊢
      exact ⟨front, token, rest, parser, rfl, hfile, hrest, hline, hnames⟩
    · cases hscan.symm.trans herror

/-- A number on line one that is out of range, with its semicolon on the next one. -/
def brokenLine : String := "int x = 99999999999999999999\n;"

theorem refusal_names_stopping_token_brokenLine :
    ∃ front digits token rest, Token.scan brokenLine = .ok (front ++ [digits] ++ token :: rest) ∧
      digits.kind = .number ∧ digits.line = 1 ∧ token.line = 2 ∧
      read brokenLine = .error ⟨.numberParseError digits.value, token.line⟩ := by
  have hnumbers : (Token.scan brokenLine).toOption.any
      (List.all · fun token => token.kind != .number || token.line == 1) := by decide +kernel
  have herror : (read brokenLine).map (fun _ => ()) =
      .error ⟨.numberParseError "99999999999999999999", 2⟩ := by decide +kernel
  cases hread : read brokenLine with
  | ok forest => simp [hread, Except.map] at herror
  | error fault =>
    rw [hread] at herror
    obtain rfl := Except.error.inj herror
    rcases refusal_names_stopping_token hread with
      hscan | ⟨front, token, rest, -, hscan, -, -, hline, hnames⟩
    · simp [hscan, Except.toOption] at hnumbers
    · generalize hcause : Cause.numberParseError "99999999999999999999" = cause at hnames
      cases hnames with
      | unexpected => cases hcause
      | explained => cases hcause
      | @number front token digits hkind =>
        have hdigits : digits.line = 1 := by
          simp [hscan, Except.toOption, hkind] at hnumbers
          exact hnumbers.2.1
        exact ⟨front, digits, token, rest, hscan, hkind, hdigits, hline.symm, by rw [← hline]⟩
      | negative =>
        have hminus := congrArg String.toList (Cause.numberParseError.inj hcause)
        simp at hminus

end MiniC.Grammar
