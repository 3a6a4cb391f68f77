import MiniC.Proofs.Token.First
import MiniC.Token.Handler

/-!
# The first match is the longest

Wherever `tokenize` gets to, the pattern that is used takes the longest lexeme of all patterns that
fit there, and its handler moves past exactly this lexeme. So no mark and no comment is split, no word
is cut short, and every round of the loop brings the end of the source nearer.
-/

namespace MiniC.Token

variable {source : String} {file : Option String} {cursor moved : Cursor} {pattern : Pattern}
  {n rounds : Nat} {token : Option Token} {spelling : String} {kind : TokenKind}

/-- The loop of `tokenize` gets to a cursor in a number of rounds. -/
inductive Reached (source : String) (file : Option String) : Nat → Cursor → Prop
  | start : Reached source file 0 (.start source file)
  | round {rounds : Nat} {cursor moved : Cursor} {pattern : Pattern} {n : Nat} {token : Option Token} :
    Reached source file rounds cursor → Pattern.first? cursor.rest = some (pattern, n) →
    pattern.handle (cursor.rest.take n) cursor = .ok (moved, token) →
    Reached source file (rounds + 1) moved

/-! ## One round -/

/-- A pattern is the first one that fits at a cursor, it takes the longest lexeme, and its handler
moves past that lexeme. -/
structure LongestFirst (cursor : Cursor) (pattern : Pattern) (n : Nat) : Prop where
  first : ∃ before after, Pattern.table = before ++ pattern :: after ∧
    ∀ other ∈ before, other.length? cursor.rest = none
  fits : pattern.length? cursor.rest = some n
  longest : ∀ other ∈ Pattern.table, ∀ m, other.length? cursor.rest = some m → m ≤ n
  nonempty : 0 < n
  le_length : n ≤ cursor.rest.length
  stride_eq : pattern.stride (cursor.rest.take n) = byteSize (cursor.rest.take n)
  consumed : ∀ moved token, pattern.handle (cursor.rest.take n) cursor = .ok (moved, token) →
    moved = cursor.advance (byteSize (cursor.rest.take n)) ∧ moved.rest = cursor.rest.drop n

theorem Pattern.moved_of_handle {matched : List Char}
    (h : pattern.handle matched cursor = .ok (moved, token)) :
    moved = cursor.advance (pattern.stride matched) := by
  unfold handle at h
  split at h
  · cases h
  · exact (Prod.mk.inj (Except.ok.inj h)).1.symm

theorem longestFirst (h : Pattern.first? cursor.rest = some (pattern, n)) :
    LongestFirst cursor pattern n where
  first := by
    obtain ⟨before, after, htable, hbefore, -⟩ := Pattern.first?_eq_some_iff.mp h
    exact ⟨before, after, htable, hbefore⟩
  fits := (Pattern.first?_spec h).2
  longest _ hother _ hm := Pattern.le_of_first? h hother hm
  nonempty := Pattern.first?_pos h
  le_length := Pattern.length?_le (Pattern.first?_spec h).2
  stride_eq := Pattern.stride_eq (Pattern.first?_spec h).2
  consumed moved token hhandle := by
    refine ⟨?_, Pattern.rest_of_handle h hhandle⟩
    rw [Pattern.moved_of_handle hhandle, Pattern.stride_eq (Pattern.first?_spec h).2]

/-- Each round takes at least one character. -/
theorem Reached.rounds_le (h : Reached source file rounds cursor) :
    rounds + cursor.rest.length ≤ source.toList.length := by
  induction h with
  | start => simp [Cursor.start]
  | round _ hfirst hhandle ih =>
    have hlongest := longestFirst hfirst
    rw [(hlongest.consumed _ _ hhandle).2, List.length_drop]
    have := hlongest.nonempty
    have := hlongest.le_length
    omega

/-! ## The tokens -/

theorem line_of_handle (hfirst : Pattern.first? cursor.rest = some (pattern, n))
    (h : pattern.handle (cursor.rest.take n) cursor = .ok (moved, token)) :
    moved.line = cursor.line + Text.lineFeeds (cursor.rest.take n) := by
  have hle := (longestFirst hfirst).le_length
  obtain ⟨rfl, hrest⟩ := (longestFirst hfirst).consumed moved token h
  have hpassed : cursor.rest.length - (cursor.rest.drop n).length = n := by
    rw [List.length_drop]
    omega
  calc (cursor.advance (byteSize (cursor.rest.take n))).line
      = cursor.line + Text.lineFeeds (cursor.rest.take (cursor.rest.length -
          (cursor.advance (byteSize (cursor.rest.take n))).rest.length)) := rfl
    _ = cursor.line + Text.lineFeeds (cursor.rest.take n) := by rw [hrest, hpassed]

theorem handle_eq_error_iff {matched : List Char} {fault : Fault} :
    pattern.handle matched cursor = .error fault ↔
      ∃ cause, pattern.read matched = .error cause ∧ fault = ⟨cause, cursor.line⟩ := by
  unfold Pattern.handle
  cases pattern.read matched <;> simp [eq_comm]

theorem read_of_handle {matched : List Char}
    (h : pattern.handle matched cursor = .ok (moved, token)) :
    ∃ read, pattern.read matched = .ok read ∧ token = reading cursor.line read := by
  unfold Pattern.handle at h
  split at h
  · cases h
  · next read hread =>
    exact ⟨read, hread, (Prod.mk.inj (Except.ok.inj h)).2.symm⟩

/-- The handlers read what the scanner reads. -/
theorem tokenizeFrom_eq_scanFrom (cursor : Cursor) :
    tokenizeFrom cursor = scanFrom cursor.line cursor.rest := by
  fun_induction tokenizeFrom cursor with
  | case1 cursor hend =>
    have hnil : cursor.rest = [] := by simpa [Cursor.next?] using hend
    rw [hnil, scanFrom]
  | case2 cursor c hnext hnone =>
    obtain ⟨rest, hrest⟩ := List.head?_eq_some_iff.mp hnext
    rw [hrest] at hnone ⊢
    exact (scanFrom_of_first?_eq_none hnone).symm
  | case3 cursor c hnext pattern n hfirst fault hhandle =>
    obtain ⟨cause, hread, rfl⟩ := handle_eq_error_iff.mp hhandle
    rw [scanFrom_of_first? hfirst, hread]
  | case4 cursor c hnext pattern n hfirst moved token hhandle ih =>
    obtain ⟨read, hread, rfl⟩ := read_of_handle hhandle
    rw [ih, scanFrom_of_first? hfirst, hread, line_of_handle hfirst hhandle,
      Pattern.rest_of_handle hfirst hhandle]

/-- Where the loop of `tokenize` ends, and with what: at the end of the source, or with a fault where
no pattern fits or the handler refuses what was matched. -/
inductive Ends (cursor : Cursor) : Except Fault (List Token) → Prop
  | atEnd {tokens : List Token} : cursor.atEnd → Ends cursor (.ok tokens)
  | unknown {fault : Fault} : cursor.atEnd = false → Pattern.first? cursor.rest = none →
    Ends cursor (.error fault)
  | refused {fault : Fault} {pattern : Pattern} {n : Nat} :
    Pattern.first? cursor.rest = some (pattern, n) →
    pattern.handle (cursor.rest.take n) cursor = .error fault → Ends cursor (.error fault)

theorem Ends.map {result : Except Fault (List Token)} (h : Ends cursor result)
    (f : List Token → List Token) : Ends cursor (result.map f) := by
  cases h with
  | atEnd h => exact .atEnd h
  | unknown h hnone => exact .unknown h hnone
  | refused h hhandle => exact .refused h hhandle

/-- From wherever the loop has got to, it gets to an end. -/
theorem Reached.exists_ends (h : Reached source file rounds cursor) :
    ∃ last final, Reached source file last final ∧ Ends final (tokenizeFrom cursor) := by
  fun_induction tokenizeFrom cursor generalizing rounds with
  | case1 cursor hend => exact ⟨rounds, cursor, h, .atEnd (by simpa [Cursor.atEnd, Cursor.next?] using hend)⟩
  | case2 cursor c hnext hnone =>
    exact ⟨rounds, cursor, h, .unknown (by simpa [Cursor.atEnd] using Cursor.rest_ne_nil hnext) hnone⟩
  | case3 cursor c hnext pattern n hfirst fault hhandle =>
    exact ⟨rounds, cursor, h, .refused hfirst hhandle⟩
  | case4 cursor c hnext pattern n hfirst moved token hhandle ih =>
    obtain ⟨last, final, hreached, hends⟩ := ih (h.round hfirst hhandle)
    exact ⟨last, final, hreached, hends.map _⟩

/-! ## What is never split -/

/-- The lexemes that the first pattern keeps whole, whatever follows them. -/
structure Unsplit (cursor : Cursor) : Prop where
  /-- Marks of two characters. -/
  mark : ∀ spelling kind, (spelling, kind) ∈ TokenKind.marks → spelling.toList.length = 2 →
    spelling.toList <+: cursor.rest → Pattern.first? cursor.rest = some (.mark spelling kind, 2)
  /-- Comments up to the end of the line. -/
  lineComment : ∀ text, cursor.rest = '/' :: '/' :: text →
    Pattern.first? cursor.rest = some (.lineComment, (text.takeWhile (· != '\n')).length + 2)
  /-- Comments up to the first closing mark. -/
  blockComment : ∀ text, cursor.rest = '/' :: '*' :: text → ['*', '/'] <:+: text →
    ∃ body rest, text = body ++ '*' :: '/' :: rest ∧ ¬['*', '/'] <:+: body ++ ['*'] ∧
      Pattern.first? cursor.rest = some (.blockComment, body.length + 4)
  /-- Words, which are reserved as a whole or not at all. -/
  word : ∀ c, cursor.next? = some c → isWordStart c → ∃ moved,
    Pattern.first? cursor.rest = some (.word, (cursor.rest.takeWhile isWordChar).length) ∧
    Pattern.word.handle (cursor.rest.takeWhile isWordChar) cursor = .ok (moved,
      some ⟨(TokenKind.ofWord? (String.ofList (cursor.rest.takeWhile isWordChar))).getD .identifier,
        String.ofList (cursor.rest.takeWhile isWordChar), cursor.line⟩)
  /-- Reserved words, which nothing else stands for. -/
  reserved : ∀ pattern n moved token, Pattern.first? cursor.rest = some (pattern, n) →
    pattern.handle (cursor.rest.take n) cursor = .ok (moved, some token) →
    token.kind ∈ TokenKind.reservedWords.map (·.2) →
    TokenKind.ofWord? (String.ofList (cursor.rest.takeWhile isWordChar)) = some token.kind

theorem first?_mark (hmark : (spelling, kind) ∈ TokenKind.marks)
    (hlength : spelling.toList.length = 2) (rest : List Char) :
    Pattern.first? (spelling.toList ++ rest) = some (.mark spelling kind, 2) := by
  have htwo : TokenKind.marks.filter (·.1.toList.length == 2) =
      [("==", .equals), ("!=", .notEquals), ("<=", .lessEquals), (">=", .greaterEquals),
        ("||", .or), ("&&", .and), ("++", .plusPlus), ("--", .minusMinus)] := by decide
  have hall : ∀ entry ∈ TokenKind.marks.filter (·.1.toList.length == 2),
      Pattern.first? (entry.1.toList ++ rest) = some (.mark entry.1 entry.2, 2) := by
    rw [htwo]
    simp only [List.forall_mem_cons]
    exact ⟨rfl, rfl, rfl, rfl, rfl, rfl, rfl, rfl, nofun⟩
  exact hall (spelling, kind) (List.mem_filter.mpr ⟨hmark, by simpa using hlength⟩)

theorem first?_lineComment (text : List Char) :
    Pattern.first? ('/' :: '/' :: text) =
      some (.lineComment, (text.takeWhile (· != '\n')).length + 2) := by
  rfl

theorem first?_blockComment {text : List Char} {m : Nat} (h : Pattern.commentRest? text = some m) :
    Pattern.first? ('/' :: '*' :: text) = some (.blockComment, m + 2) := by
  have hbefore : ∀ other ∈ [Pattern.word, .number, .blank, .string, .char, .directive, .lineComment],
      other.length? ('/' :: '*' :: text) = none := by
    simp only [List.forall_mem_cons]
    exact ⟨rfl, rfl, rfl, rfl, rfl, rfl, rfl, nofun⟩
  exact Pattern.first?_eq_some_iff.mpr ⟨_, _, rfl, hbefore, by simp [Pattern.length?, h]⟩

/-- Only words are read as reserved. -/
theorem ofWord?_of_read {cs : List Char} {value : String}
    (hfirst : Pattern.first? cs = some (pattern, n))
    (hread : pattern.read (cs.take n) = .ok (some (kind, value)))
    (hkind : kind ∈ TokenKind.reservedWords.map (·.2)) :
    TokenKind.ofWord? (String.ofList (cs.takeWhile isWordChar)) = some kind := by
  have hmarks : ∀ entry ∈ TokenKind.marks, entry.2 ∉ TokenKind.reservedWords.map (·.2) := by decide
  obtain ⟨hmem, hlength⟩ := Pattern.first?_spec hfirst
  cases pattern with
  | word =>
    have htake : cs.take n = cs.takeWhile isWordChar := by
      cases cs with
      | nil => cases hlength
      | cons c cs =>
        have hword : Pattern.first? (c :: cs) = _ :=
          Pattern.first?_word (Pattern.starts_of_length? hlength)
        rw [hfirst] at hword
        rw [(Prod.mk.inj (Option.some.inj hword)).2, Pattern.take_takeWhile]
    simp only [Pattern.read, htake, Except.ok.injEq, Option.some.injEq, Prod.mk.injEq] at hread
    obtain ⟨rfl, -⟩ := hread
    cases hof : TokenKind.ofWord? (String.ofList (cs.takeWhile isWordChar)) with
    | some kind => rfl
    | none =>
      rw [hof] at hkind
      exact absurd hkind (by decide)
  | mark spelling kind =>
    simp only [Pattern.read, Except.ok.injEq, Option.some.injEq, Prod.mk.injEq] at hread
    have hentry : (spelling, kind) ∈ TokenKind.marks := by simpa [Pattern.table] using hmem
    exact absurd (hread.1 ▸ hkind) (hmarks _ hentry)
  | number =>
    simp only [Pattern.read, Except.ok.injEq, Option.some.injEq, Prod.mk.injEq] at hread
    exact absurd (hread.1 ▸ hkind) (by decide)
  | string | char =>
    simp only [Pattern.read] at hread
    split at hread <;> simp at hread
    exact absurd (hread.1 ▸ hkind) (by decide)
  | _ => simp [Pattern.read] at hread

theorem unsplit (cursor : Cursor) : Unsplit cursor where
  mark spelling kind hmark hlength hfront := by
    obtain ⟨rest, hrest⟩ := hfront
    rw [← hrest]
    exact first?_mark hmark hlength rest
  lineComment text h := by rw [h, first?_lineComment]
  blockComment text h hclosed := by
    obtain ⟨m, hm⟩ := Pattern.exists_commentRest? hclosed
    obtain ⟨body, rest, htext, rfl, hbody⟩ := Pattern.of_commentRest? hm
    exact ⟨body, rest, htext, hbody, by rw [h, first?_blockComment hm]⟩
  word c hnext hc := by
    obtain ⟨cs, hrest⟩ := List.head?_eq_some_iff.mp hnext
    exact ⟨_, by rw [hrest, Pattern.first?_word hc], rfl⟩
  reserved pattern n moved token hfirst hhandle hkind := by
    obtain ⟨read, hread, htoken⟩ := read_of_handle hhandle
    obtain ⟨⟨kind, value⟩, rfl, rfl⟩ := Option.map_eq_some_iff.mp htoken.symm
    exact ofWord?_of_read hfirst hread hkind

/-- Wherever the loop of `tokenize` gets to, the first pattern that fits takes the longest lexeme, of
at least one character, and its handler moves past exactly this lexeme; what belongs together is not
split. The loop takes no more rounds than the source has characters, and it answers what the scanner
answers. -/
theorem first_match_is_longest (source : String) (file : Option String) :
    (∀ rounds cursor, Reached source file rounds cursor →
      rounds + cursor.rest.length ≤ source.toList.length ∧ Unsplit cursor ∧
      ∀ pattern n, Pattern.first? cursor.rest = some (pattern, n) →
        LongestFirst cursor pattern n) ∧
    (∃ rounds cursor, Reached source file rounds cursor ∧ Ends cursor (tokenize source file)) ∧
    tokenize source file = scan source :=
  ⟨fun _ cursor h => ⟨h.rounds_le, unsplit cursor, fun _ _ => longestFirst⟩,
    Reached.start.exists_ends, tokenizeFrom_eq_scanFrom _⟩

theorem first_match_is_longest_lessEquals :
    ∃ cursor, Reached "a<=b" none 1 cursor ∧ LongestFirst cursor (.mark "<=" .lessEquals) 2 := by
  have hfirst : Pattern.first? "a<=b".toList = some (.word, 1) := rfl
  have hreached : Reached "a<=b" none 1 ⟨"<=b".toList, 1, "shell"⟩ := Reached.start.round hfirst rfl
  exact ⟨_, hreached, ((first_match_is_longest "a<=b" none).1 _ _ hreached).2.2 _ _ rfl⟩

end MiniC.Token
