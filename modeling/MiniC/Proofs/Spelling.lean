import Mathlib.Data.List.Forall2
import MiniC.Proofs.Token.Literal

/-!
# Scanning inverts spelling

A token can be spelled in several ways, since literals can. Spelled tokens that stand one behind the
other with a space between them are scanned as what they are: a spelling is taken whole by its own
pattern (`Whole`), whatever stands behind the space.
-/

namespace MiniC.Token

variable {token : TokenKind × String} {spelling : String} {line : Nat}

/-- The spellings of a kind with its value. -/
inductive Spells : TokenKind × String → String → Prop
  | reserved {word : String} {kind : TokenKind} :
    (word, kind) ∈ TokenKind.reservedWords → Spells (kind, word) word
  | mark {spelling : String} {kind : TokenKind} :
    (spelling, kind) ∈ TokenKind.marks → Spells (kind, spelling) spelling
  | identifier {name : String} : IsIdentifier name → Spells (.identifier, name) name
  | number {digits : String} : digits ≠ "" → digits.toList.all Char.isDigit →
    Spells (.number, digits) digits
  | string {value : String} {body : List Char} : SpellsText value.toList body →
    Spells (.string, value) (String.ofList ('"' :: (body ++ ['"'])))
  | char {c : Char} {body : List Char} : SpellsChar c body →
    Spells (.charLiteral, String.singleton c) (String.ofList ('\'' :: (body ++ ['\''])))

/-- In front of a space or the end a text is taken whole, and read as one token. -/
def Whole (token : TokenKind × String) (text : List Char) : Prop :=
  ∃ pattern, (∀ rest : List Char, (∀ c ∈ rest.head?, c = ' ') →
    Pattern.first? (text ++ rest) = some (pattern, text.length)) ∧
    pattern.read text = .ok (some token)

/-! ## Spellings are taken whole -/

theorem takeWhile_append_of_all {f : Char → Bool} (hspace : f ' ' = false) {text rest : List Char}
    (htext : text.all f) (hrest : ∀ c ∈ rest.head?, c = ' ') :
    (text ++ rest).takeWhile f = text := by
  rw [List.takeWhile_append_of_pos (List.all_eq_true.mp htext)]
  cases rest with
  | nil => simp
  | cons c rest =>
    obtain rfl := hrest c rfl
    simp [hspace]

theorem whole_of_isWord {word : String} {kind : TokenKind} (h : isWord word.toList)
    (hkind : (TokenKind.ofWord? word).getD .identifier = kind) : Whole (kind, word) word.toList := by
  refine ⟨.word, fun rest hrest => ?_, by simp [Pattern.read, hkind]⟩
  have hall : word.toList.all isWordChar :=
    List.all_eq_true.mpr fun _ => isWordChar_of_mem h
  have htake := takeWhile_append_of_all (by decide) hall hrest
  cases hword : word.toList with
  | nil => simp [hword, isWord] at h
  | cons c cs =>
    rw [hword] at h htake
    have hstart : isWordStart c := by
      simp only [isWord, Bool.and_eq_true] at h
      exact h.1
    rw [List.cons_append, Pattern.first?_word hstart, ← List.cons_append, htake]

theorem whole_of_mark {kind : TokenKind} (h : (spelling, kind) ∈ TokenKind.marks) :
    Whole (kind, spelling) spelling.toList := by
  refine ⟨.mark spelling kind, fun rest hrest => ?_, rfl⟩
  have hend : ∀ entry ∈ TokenKind.marks, Pattern.first? (entry.1.toList ++ []) =
      some (.mark entry.1 entry.2, entry.1.toList.length) := by decide
  have hspace : ∀ rest, ∀ entry ∈ TokenKind.marks, Pattern.first? (entry.1.toList ++ ' ' :: rest) =
      some (.mark entry.1 entry.2, entry.1.toList.length) := by
    intro rest
    simp only [TokenKind.marks, List.forall_mem_cons]
    and_intros <;> first | rfl | nofun
  cases rest with
  | nil => exact hend (spelling, kind) h
  | cons c rest =>
    obtain rfl := hrest c rfl
    exact hspace rest (spelling, kind) h

/-- A text that a sole pattern takes whole. -/
theorem whole_of_isSole (pattern : Pattern) {c : Char} {cs : List Char}
    (hmem : pattern ∈ Pattern.table) (hsole : pattern.IsSole) (hstarts : pattern.Starts c)
    (hlength : ∀ rest : List Char, (∀ c ∈ rest.head?, c = ' ') →
      pattern.length? (c :: (cs ++ rest)) = some (cs.length + 1))
    (hread : pattern.read (c :: cs) = .ok (some token)) : Whole token (c :: cs) := by
  refine ⟨pattern, fun rest hrest => ?_, hread⟩
  rw [List.cons_append, Pattern.first?_of_starts hmem hsole hstarts, hlength rest hrest]
  rfl

theorem whole_of_digits {digits : String} (hne : digits ≠ "") (h : digits.toList.all Char.isDigit) :
    Whole (.number, digits) digits.toList := by
  cases hdigits : digits.toList with
  | nil => exact absurd (by simpa using hdigits) hne
  | cons c cs =>
    rw [hdigits] at h
    have hc : c.isDigit := by simpa using And.left (by simpa using h)
    refine whole_of_isSole .number (by decide) rfl hc (fun rest hrest => ?_) ?_
    · have htake := takeWhile_append_of_all (f := Char.isDigit) (by decide) h hrest
      rw [List.cons_append] at htake
      simp only [Pattern.length?, Pattern.run?, htake]
      rfl
    · rw [Pattern.read, ← hdigits, String.ofList_toList]

theorem literalBody_quoted (quote : Char) (body : List Char) :
    literalBody (quote :: (body ++ [quote])) = body := by simp [literalBody]

theorem whole_of_string {value : String} {body : List Char} (h : SpellsText value.toList body) :
    Whole (.string, value) ('"' :: (body ++ ['"'])) := by
  refine whole_of_isSole .string (by decide) rfl rfl (fun rest _ => ?_) ?_
  · have hrest : body ++ ['"'] ++ rest = body ++ '"' :: rest := by simp
    rw [Pattern.length?, hrest, stringRest?_of_spells h]
    simp
  · simp [Pattern.read, literalBody_quoted, unescape_of_spells h]

theorem whole_of_char {c : Char} {body : List Char} (h : SpellsChar c body) :
    Whole (.charLiteral, String.singleton c) ('\'' :: (body ++ ['\''])) := by
  have hvalue : unescape body = .ok [c] := by
    rw [← List.append_nil body, unescape_append h]
    rfl
  refine whole_of_isSole .char (by decide) rfl rfl (fun rest _ => ?_) ?_
  · have hrest : body ++ ['\''] ++ rest = body ++ '\'' :: rest := by simp
    rw [Pattern.length?, hrest, charRest?_of_spells h]
    simp
  · rw [Pattern.read, literalBody_quoted, hvalue]

theorem Spells.whole (h : Spells token spelling) : Whole token spelling.toList := by
  have hreserved : ∀ entry ∈ TokenKind.reservedWords,
      isWord entry.1.toList ∧ (TokenKind.ofWord? entry.1).getD .identifier = entry.2 := by decide
  cases h with
  | reserved hmem =>
    obtain ⟨hword, hkind⟩ := hreserved _ hmem
    exact whole_of_isWord hword hkind
  | mark hmem => exact whole_of_mark hmem
  | identifier hname => exact whole_of_isWord hname.1 (by rw [hname.2]; rfl)
  | number hne hdigits => exact whole_of_digits hne hdigits
  | string hbody => simpa using whole_of_string hbody
  | char hbody => simpa using whole_of_char hbody

/-! ## Scanning spelled tokens -/

theorem Whole.lineFeeds {text : List Char} (h : Whole token text) : Text.lineFeeds text = 0 := by
  obtain ⟨pattern, hfirst, hread⟩ := h
  have hfirst := hfirst [] nofun
  rw [List.append_nil] at hfirst
  obtain ⟨hmem, hlength⟩ := Pattern.first?_spec hfirst
  have hline := Pattern.onOneLine_of_read hmem hlength (by rwa [List.take_length])
  rw [List.take_length] at hline
  exact List.count_eq_zero.mpr hline.no_feed

/-- No token is written by white space. -/
theorem Whole.exists_cons {text : List Char} (h : Whole token text) :
    ∃ c cs, text = c :: cs ∧ Text.isBlank c = false := by
  obtain ⟨pattern, hfirst, hread⟩ := h
  have hfirst := hfirst [] nofun
  rw [List.append_nil] at hfirst
  cases text with
  | nil => cases hfirst
  | cons c cs =>
    refine ⟨c, cs, rfl, ?_⟩
    cases hc : Text.isBlank c with
    | false => rfl
    | true =>
      rw [Pattern.first?_of_starts (p := .blank) (by decide) rfl hc] at hfirst
      obtain ⟨_, -, heq⟩ := Option.map_eq_some_iff.mp hfirst
      obtain ⟨rfl, -⟩ := Prod.mk.inj heq
      cases hread

theorem Whole.scanFrom_append {text rest : List Char} (h : Whole token text)
    (hrest : ∀ c ∈ rest.head?, c = ' ') :
    scanFrom line (text ++ rest) =
      (scanFrom line rest).map (⟨token.1, token.2, line⟩ :: ·) := by
  have hfeeds := h.lineFeeds
  obtain ⟨pattern, hfirst, hread⟩ := h
  rw [scanFrom_of_first? (hfirst rest hrest), List.take_left, List.drop_left, hread, hfeeds]
  rfl

/-- A space in front of a token is skipped. -/
theorem scanFrom_space {c : Char} {cs : List Char} (h : Text.isBlank c = false) :
    scanFrom line (' ' :: c :: cs) = scanFrom line (c :: cs) := by
  have hfirst : Pattern.first? (' ' :: c :: cs) = some (.blank, 1) := by
    have hblank : Text.isBlank ' ' := by decide
    rw [Pattern.first?_of_starts (p := .blank) (by decide) rfl hblank]
    simp [Pattern.length?, Pattern.run?, h, hblank]
  rw [scanFrom_of_first? hfirst]
  change (scanFrom line (c :: cs)).map ([] ++ ·) = _
  cases scanFrom line (c :: cs) <;> rfl

theorem scanFrom_intercalate {tokens : List (TokenKind × String)} {texts : List (List Char)}
    (h : List.Forall₂ Whole tokens texts) :
    scanFrom line ([' '].intercalate texts) =
      .ok (tokens.map (fun token => ⟨token.1, token.2, line⟩) ++ [endOfInput line]) := by
  induction h with
  | nil => simp [scanFrom]
  | @cons token text tokens texts hwhole htexts ih =>
    cases htexts with
    | nil =>
      have hend : scanFrom line (text ++ []) = _ := hwhole.scanFrom_append (by simp)
      simpa [scanFrom, Except.map] using hend
    | @cons next nextText tokens texts hnext htexts =>
      obtain ⟨c, cs, hcs, hc⟩ := hnext.exists_cons
      have hrest : ∃ more, [' '].intercalate (nextText :: texts) = c :: more := by
        cases texts <;> simp [hcs, List.intercalate_cons_cons]
      obtain ⟨more, hmore⟩ := hrest
      rw [List.intercalate_cons_cons, List.append_assoc, hwhole.scanFrom_append (by simp)]
      rw [hmore] at ih ⊢
      rw [List.singleton_append, scanFrom_space hc, ih]
      rfl

/-- Every string and every character can be spelled, and those of the first codes in hexadecimal too.
However tokens are spelled, with single spaces between them they are scanned as what they are, all on
the first line. -/
theorem scan_inverts_spelling :
    (∀ value : String, ∃ spelling, Spells (.string, value) spelling) ∧
    (∀ c : Char, ∃ spelling, Spells (.charLiteral, String.singleton c) spelling) ∧
    (∀ c : Char, c.toNat < 256 → ∃ a b, SpellsChar c ['\\', 'x', a, b]) ∧
    ∀ tokens spellings, List.Forall₂ Spells tokens spellings →
      scan (" ".intercalate spellings) =
        .ok (tokens.map (fun token => ⟨token.1, token.2, 1⟩) ++ [endOfInput 1]) := by
  refine ⟨fun value => ?_, fun c => ?_, fun c => exists_spellsChar_hex, fun tokens spellings h => ?_⟩
  · obtain ⟨body, hbody⟩ := exists_spellsText value.toList
    exact ⟨_, .string hbody⟩
  · obtain ⟨body, hbody⟩ := exists_spellsChar c
    exact ⟨_, .char hbody⟩
  · have hwhole : List.Forall₂ Whole tokens (spellings.map String.toList) :=
      List.forall₂_map_right_iff.mpr (h.imp fun _ _ => Spells.whole)
    rw [scan, String.toList_intercalate]
    exact scanFrom_intercalate hwhole

/-- A letter in hexadecimal in front of a digit, and a backslash in front of the closing quote. -/
theorem scan_inverts_spelling_escapes :
    scan "int x = \"\\x411\\\\\" '\\''" = .ok [⟨.int, "int", 1⟩, ⟨.identifier, "x", 1⟩,
      ⟨.assignment, "=", 1⟩, ⟨.string, "A1\\", 1⟩, ⟨.charLiteral, "'", 1⟩, endOfInput 1] := by
  have hbody : SpellsText "A1\\".toList (['\\', 'x', '4', '1'] ++ (['1'] ++ (['\\', '\\'] ++ []))) :=
    .cons (.hex (by decide : hexValue? '4' = some 4) (by decide : hexValue? '1' = some 1) (by decide))
      (.cons (.raw (by decide)) (.cons (.escape (by decide)) .nil))
  have hspells : List.Forall₂ Spells
      [(.int, "int"), (.identifier, "x"), (.assignment, "="), (.string, "A1\\"), (.charLiteral, "'")]
      ["int", "x", "=", "\"\\x411\\\\\"", "'\\''"] :=
    .cons (.reserved (by decide)) (.cons (.identifier (by decide)) (.cons (.mark (by decide))
      (.cons (.string hbody) (.cons (.char (c := '\'') (.escape (by decide))) .nil))))
  exact scan_inverts_spelling.2.2.2 _ _ hspells

end MiniC.Token
