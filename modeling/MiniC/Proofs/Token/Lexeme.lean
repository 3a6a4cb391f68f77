import MiniC.Proofs.Text.Lines
import MiniC.Proofs.Token.Scan

/-!
# Lexemes

What the patterns take: white space, directives and comments are skipped, and what is not skipped stands
on one line and stops at no carriage return. `Covers` says how lexemes cover the start of a text, each
of them the one that the scanner takes at its place.
-/

namespace MiniC.Token

/-- Text between tokens: white space, a line that starts with `#`, a comment up to the end of its line, or a
comment that is closed. -/
inductive IsGap : List Char → Prop
  | blank {text : List Char} : text.all Text.isBlank → IsGap text
  | directive {rest : List Char} : '\n' ∉ rest → IsGap ('#' :: rest)
  | lineComment {rest : List Char} : '\n' ∉ rest → IsGap ('/' :: '/' :: rest)
  | blockComment (body : List Char) : IsGap ('/' :: '*' :: (body ++ ['*', '/']))

/-- A text without a line feed that does not stop at a carriage return. -/
structure OnOneLine (text : List Char) : Prop where
  no_feed : '\n' ∉ text
  no_return : text.getLast? ≠ some '\r'

theorem OnOneLine.of_all {text : List Char} (h : ∀ c ∈ text, c ≠ '\n' ∧ c ≠ '\r') : OnOneLine text :=
  ⟨fun hmem => (h _ hmem).1 rfl, fun hlast => (h _ (List.mem_of_getLast? hlast)).2 rfl⟩

/-- A quote, and text of its line up to the next one. -/
theorem OnOneLine.quoted {quote : Char} {text : List Char} (hfeed : quote ≠ '\n') (hreturn : quote ≠ '\r')
    (h : '\n' ∉ text ∧ text.getLast? = some quote) : OnOneLine (quote :: text) :=
  ⟨by simp [h.1, Ne.symm hfeed], by simpa [List.getLast?_cons, h.2] using hreturn⟩

variable {length : Nat} {cs : List Char} {pattern : Pattern}

namespace Pattern

theorem take_run? {p : Char → Bool} (h : run? p cs = some length) : cs.take length = cs.takeWhile p := by
  unfold run? at h
  split at h
  · cases h
  · next n hn =>
    rw [← Option.some.inj h, ← Nat.succ_eq_add_one, ← hn]
    exact (List.prefix_iff_eq_take.mp (List.takeWhile_prefix p)).symm

theorem all_of_run? {p : Char → Bool} (h : run? p cs = some length) : (cs.take length).all p := by
  rw [take_run? h]
  exact List.all_takeWhile

theorem feed_not_mem_lineRest (cs : List Char) : '\n' ∉ cs.take (lineRest cs) := by
  have htake : cs.take (lineRest cs) = cs.takeWhile (· != '\n') :=
    (List.prefix_iff_eq_take.mp (List.takeWhile_prefix _)).symm
  intro hmem
  rw [htake] at hmem
  have hall := List.all_eq_true.mp (List.all_takeWhile (p := (· != '\n')) (l := cs)) _ hmem
  exact absurd hall (by decide)

/-- A comment stops at its closing mark. -/
theorem exists_of_commentRest? (h : commentRest? cs = some length) :
    ∃ body, cs.take length = body ++ ['*', '/'] := by
  fun_induction commentRest? cs generalizing length with
  | case1 => exact ⟨[], by rw [← Option.some.inj h]; rfl⟩
  | case2 c cs _ ih =>
    obtain ⟨n, hn, rfl⟩ := Option.map_eq_some_iff.mp h
    obtain ⟨body, hbody⟩ := ih hn
    exact ⟨c :: body, by rw [List.take_succ_cons, hbody]; rfl⟩
  | case3 => cases h

/-- The rest of a string stops at the closing quote, on its line. -/
theorem onOneLine_of_stringRest? (h : stringRest? cs = some length) :
    '\n' ∉ cs.take length ∧ (cs.take length).getLast? = some '"' := by
  fun_induction stringRest? cs generalizing length with
  | case1 => simp [← Option.some.inj h]
  | case2 | case4 | case6 => cases h
  | case3 c cs hc ih =>
    obtain ⟨n, hn, rfl⟩ := Option.map_eq_some_iff.mp h
    obtain ⟨hfeed, hlast⟩ := ih hn
    refine ⟨?_, by simp [List.getLast?_cons, hlast]⟩
    simp [hfeed, Ne.symm hc]
  | case5 c cs _ _ hc ih =>
    obtain ⟨n, hn, rfl⟩ := Option.map_eq_some_iff.mp h
    obtain ⟨hfeed, hlast⟩ := ih hn
    refine ⟨?_, by simp [List.getLast?_cons, hlast]⟩
    simp [hfeed, Ne.symm (not_or.mp hc).2]

theorem onOneLine_of_hexRest? (h : hexRest? cs = some length) :
    '\n' ∉ cs.take length ∧ (cs.take length).getLast? = some '\'' := by
  have hne : ∀ {c : Char}, (hexValue? c).isSome → '\n' ≠ c := by
    rintro c hc rfl
    exact absurd hc (by decide)
  unfold hexRest? at h
  split at h
  · split at h
    · next ha =>
      rw [← Option.some.inj h]
      simp [hne ha]
    · cases h
  · split at h
    · next hab =>
      rw [Bool.and_eq_true] at hab
      rw [← Option.some.inj h]
      simp [hne hab.1, hne hab.2]
    · cases h
  · cases h

/-- The rest of a character literal stops at the closing quote, on its line. -/
theorem onOneLine_of_charRest? (h : charRest? cs = some length) :
    '\n' ∉ cs.take length ∧ (cs.take length).getLast? = some '\'' := by
  unfold charRest? at h
  split at h
  · split at h
    · cases h
    · next hc =>
      rw [← Option.some.inj h]
      simp [Ne.symm hc]
  · obtain ⟨n, hn, rfl⟩ := Option.map_eq_some_iff.mp h
    obtain ⟨hfeed, hlast⟩ := onOneLine_of_hexRest? hn
    refine ⟨?_, by simp [List.getLast?_cons, hlast]⟩
    simp [hfeed]
  · split at h
    · cases h
    · next hc =>
      rw [← Option.some.inj h]
      simp [Ne.symm (not_or.mp (not_or.mp hc).2).2]
  · cases h

/-- What is skipped stands between tokens. -/
theorem isGap_of_read (hlength : pattern.length? cs = some length)
    (hread : pattern.read (cs.take length) = .ok none) : IsGap (cs.take length) := by
  unfold length? at hlength
  split at hlength
  case h_1 | h_2 | h_9 => simp [read] at hread
  case h_3 => exact .blank (all_of_run? hlength)
  case h_4 | h_5 =>
    simp only [read] at hread
    split at hread <;> simp at hread
  case h_6 =>
    rw [← Option.some.inj hlength, List.take_succ_cons]
    exact .directive (feed_not_mem_lineRest _)
  case h_7 =>
    rw [← Option.some.inj hlength, List.take_succ_cons, List.take_succ_cons]
    exact .lineComment (feed_not_mem_lineRest _)
  case h_8 =>
    obtain ⟨n, hn, rfl⟩ := Option.map_eq_some_iff.mp hlength
    obtain ⟨body, hbody⟩ := exists_of_commentRest? hn
    rw [List.take_succ_cons, List.take_succ_cons, hbody]
    exact .blockComment body
  case h_10 => cases hlength

/-- What gives a token stands on one line. -/
theorem onOneLine_of_read {reading : TokenKind × String} (hmem : pattern ∈ table)
    (hlength : pattern.length? cs = some length)
    (hread : pattern.read (cs.take length) = .ok (some reading)) : OnOneLine (cs.take length) := by
  have hword : ∀ c, isWordChar c → c ≠ '\n' ∧ c ≠ '\r' := by
    intro c hc
    refine ⟨?_, ?_⟩ <;> (rintro rfl; exact absurd hc (by decide))
  have hmarks : TokenKind.marks.all (fun entry => entry.1.toList.all fun c => c != '\n' && c != '\r') := by
    decide
  have hmark : ∀ entry ∈ TokenKind.marks, ∀ c ∈ entry.1.toList, c ≠ '\n' ∧ c ≠ '\r' := by
    simpa using hmarks
  have hall := hlength
  unfold length? at hlength
  split at hlength
  case h_1 => exact .of_all fun c hc => hword c (isWordChar_of_mem (isWord_of_length? hall) hc)
  case h_2 =>
    refine .of_all fun c hc => hword c ?_
    simp [isWordChar, List.all_eq_true.mp (all_of_run? hlength) c hc]
  case h_4 =>
    obtain ⟨n, hn, rfl⟩ := Option.map_eq_some_iff.mp hlength
    exact .quoted (by decide) (by decide) (onOneLine_of_stringRest? hn)
  case h_5 =>
    obtain ⟨n, hn, rfl⟩ := Option.map_eq_some_iff.mp hlength
    exact .quoted (by decide) (by decide) (onOneLine_of_charRest? hn)
  case h_9 _ spelling kind =>
    obtain ⟨hfront, hlen⟩ := of_length?_mark hall
    have hentry : (spelling, kind) ∈ TokenKind.marks := by simpa [table] using hmem
    rw [hlen, ← List.prefix_iff_eq_take.mp hfront]
    exact .of_all (hmark _ hentry)
  case h_10 => cases hlength
  all_goals simp [read] at hread

end Pattern

end MiniC.Token
