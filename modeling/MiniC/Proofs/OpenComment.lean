import MiniC.Proofs.LongestMatch

/-!
# Comments that are not closed

A slash and a star with a closing mark somewhere behind them start a comment, which is skipped up to the
first closing mark. Without one the pattern of comments takes nothing, and the table goes on to the
marks: the two characters give a slash and a star, and what was meant as the text of the comment is
scanned like the rest of the source.
-/

namespace MiniC.Token

variable {source : String} {file : Option String} {cursor : Cursor} {line rounds : Nat} {text : List Char}

/-! ## Where a comment could start -/

namespace Pattern

theorem commentRest?_eq_none (h : ¬['*', '/'] <:+: text) : commentRest? text = none := by
  cases hrest : commentRest? text with
  | none => rfl
  | some n =>
    obtain ⟨body, rest, rfl, -, -⟩ := of_commentRest? hrest
    exact absurd ⟨body, rest, by simp⟩ h

/-- Without a closing mark behind it, a slash in front of a star is a mark. -/
theorem first?_slash (h : commentRest? text = none) :
    first? ('/' :: '*' :: text) = some (mark "/" .slash, 1) := by
  have hcomment : blockComment.length? ('/' :: '*' :: text) = none := by simp [length?, h]
  have hbefore : [word, number, blank, string, char, directive, lineComment, blockComment].findSome?
      (fun pattern => (pattern.length? ('/' :: '*' :: text)).map (pattern, ·)) = none := by
    simp only [List.findSome?_eq_none_iff, Option.map_eq_none_iff, List.forall_mem_cons]
    exact ⟨rfl, rfl, rfl, rfl, rfl, rfl, rfl, hcomment, fun _ hmem => absurd hmem List.not_mem_nil⟩
  rw [first?, table, List.findSome?_append, hbefore]
  rfl

theorem first?_star (text : List Char) : first? ('*' :: text) = some (mark "*" .star, 1) := rfl

end Pattern

/-! ## What is scanned there -/

/-- A slash and a star on a line. -/
def slashStar (line : Nat) : List Token := [⟨.slash, "/", line⟩, ⟨.star, "*", line⟩]

/-- An opening mark that nothing closes gives two tokens, and the scanner goes on right behind it. -/
theorem scanFrom_open (h : ¬['*', '/'] <:+: text) :
    scanFrom line ('/' :: '*' :: text) = (scanFrom line text).map (slashStar line ++ ·) := by
  rw [scanFrom_of_first? (Pattern.first?_slash (Pattern.commentRest?_eq_none h))]
  show (scanFrom (line + 0) ('*' :: text)).map _ = _
  rw [scanFrom_of_first? (Pattern.first?_star text)]
  show ((scanFrom (line + 0 + 0) text).map _).map _ = _
  cases scanFrom (line + 0 + 0) text <;> rfl

/-- A comment gives no token, and the scanner goes on behind its closing mark. -/
theorem scanFrom_closed {body rest : List Char} (htext : text = body ++ '*' :: '/' :: rest)
    (hfirst : Pattern.first? ('/' :: '*' :: text) = some (.blockComment, body.length + 4)) :
    scanFrom line ('/' :: '*' :: text) = scanFrom (line + Text.lineFeeds body) rest := by
  have hsplit : '/' :: '*' :: text = ('/' :: '*' :: (body ++ ['*', '/'])) ++ rest := by simp [htext]
  have hlength : ('/' :: '*' :: (body ++ ['*', '/'])).length = body.length + 4 := by simp
  have hfeeds : Text.lineFeeds ('/' :: '*' :: (body ++ ['*', '/'])) = Text.lineFeeds body := by
    simp [Text.lineFeeds]
  rw [scanFrom_of_first? hfirst, hsplit, ← hlength, List.take_left, List.drop_left, hfeeds]
  show (scanFrom (line + Text.lineFeeds body) rest).map _ = _
  cases scanFrom (line + Text.lineFeeds body) rest <;> rfl

/-- What has been read before a cursor stands in front of what is read from there on. -/
theorem Reached.exists_front (h : Reached source file rounds cursor) :
    ∃ front, tokenize source file = (scanFrom cursor.line cursor.rest).map (front ++ ·) := by
  induction h with
  | start =>
    refine ⟨[], ?_⟩
    rw [tokenize, tokenizeFrom_eq_scanFrom]
    cases scanFrom (Cursor.start source file).line (Cursor.start source file).rest <;> rfl
  | @round rounds cursor moved pattern n token _ hfirst hhandle ih =>
    obtain ⟨front, hfront⟩ := ih
    obtain ⟨read, hread, rfl⟩ := read_of_handle hhandle
    refine ⟨front ++ (reading cursor.line read).toList, ?_⟩
    rw [hfront, scanFrom_of_first? hfirst, hread, line_of_handle hfirst hhandle,
      Pattern.rest_of_handle hfirst hhandle]
    cases scanFrom (cursor.line + Text.lineFeeds (cursor.rest.take n)) (cursor.rest.drop n) with
    | error fault => rfl
    | ok tokens => exact congrArg Except.ok (List.append_assoc ..).symm

/-- **An opening mark is skipped with its comment or read as two tokens.** Wherever `tokenize` gets to a
slash in front of a star, the tokens before them are settled. If a closing mark follows somewhere,
nothing up to the first one gives a token. If none does, this is no fault: a slash and a star come next,
and then whatever the rest of the source gives. -/
theorem opening_mark_skipped_or_read (h : Reached source file rounds cursor)
    (hrest : cursor.rest = '/' :: '*' :: text) :
    ∃ front, tokenize source file = (tokenizeFrom cursor).map (front ++ ·) ∧
      (['*', '/'] <:+: text → ∃ body rest, text = body ++ '*' :: '/' :: rest ∧
        ¬['*', '/'] <:+: body ++ ['*'] ∧
        tokenize source file = (scanFrom (cursor.line + Text.lineFeeds body) rest).map (front ++ ·)) ∧
      (¬['*', '/'] <:+: text →
        tokenize source file =
          (scanFrom cursor.line text).map fun tokens => front ++ slashStar cursor.line ++ tokens) := by
  obtain ⟨front, hfront⟩ := h.exists_front
  refine ⟨front, by rw [tokenizeFrom_eq_scanFrom, hfront], fun hclosed => ?_, fun hopen => ?_⟩
  · obtain ⟨body, rest, htext, hbody, hfirst⟩ := (unsplit cursor).blockComment text hrest hclosed
    refine ⟨body, rest, htext, hbody, ?_⟩
    rw [hfront, hrest, scanFrom_closed htext (hrest ▸ hfirst)]
  · rw [hfront, hrest, scanFrom_open hopen]
    cases scanFrom cursor.line text with
    | error fault => rfl
    | ok tokens => exact congrArg Except.ok (List.append_assoc ..).symm

/-- Six, divided by what a pointer points at: there is no comment here. -/
theorem opening_mark_skipped_or_read_division :
    ∃ cursor, Reached "6/*p;" none 1 cursor ∧ cursor.rest = ['/', '*', 'p', ';'] ∧
      ¬['*', '/'] <:+: ['p', ';'] ∧
      ∃ front, tokenize "6/*p;" none = .ok (front ++ slashStar 1 ++
        [⟨.identifier, "p", 1⟩, ⟨.semicolon, ";", 1⟩, endOfInput 1]) := by
  have hnumber : Pattern.first? "6/*p;".toList = some (.number, 1) := rfl
  have hreached : Reached "6/*p;" none 1 ⟨['/', '*', 'p', ';'], 1, "shell"⟩ :=
    Reached.start.round hnumber rfl
  have hopen : ¬['*', '/'] <:+: ['p', ';'] := by decide
  have hbehind : scanFrom 1 ['p', ';'] =
      .ok [⟨.identifier, "p", 1⟩, ⟨.semicolon, ";", 1⟩, endOfInput 1] := by
    have hword : Pattern.first? ['p', ';'] = some (.word, 1) := rfl
    have hmark : Pattern.first? [';'] = some (Pattern.mark ";" .semicolon, 1) := rfl
    rw [scanFrom_of_first? hword]
    show (scanFrom 1 [';']).map _ = _
    rw [scanFrom_of_first? hmark]
    show ((scanFrom 1 []).map _).map _ = _
    rw [scanFrom]
    rfl
  obtain ⟨front, -, -, hread⟩ := opening_mark_skipped_or_read hreached rfl
  exact ⟨_, hreached, rfl, hopen, front, by rw [hread hopen, hbehind]; rfl⟩

end MiniC.Token
