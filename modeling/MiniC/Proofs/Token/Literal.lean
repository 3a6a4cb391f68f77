import MiniC.Proofs.Token.First

/-!
# Spelling literals

Between the quotes of a literal a character is written by a backslash and a letter, by `\x` and two
hexadecimal digits, or as it is; the quotes, the backslash and some control characters are never
written as they are. However a text is written, its pattern finds the closing quote, and `unescape`
gives the text back.
-/

namespace MiniC.Token

variable {c : Char} {text body value rest : List Char}

/-- The characters that are written by a backslash, with the letter behind it. -/
def escapes : List (Char × Char) :=
  [('\n', 'n'), ('\t', 't'), ('\r', 'r'), ('\x00', '0'), ('\\', '\\'), ('\'', '\''), ('"', '"')]

/-- The spellings of a character in a literal. -/
inductive SpellsChar : Char → List Char → Prop
  | escape {c letter : Char} : (c, letter) ∈ escapes → SpellsChar c ['\\', letter]
  | hex {c a b : Char} {high low : Nat} : hexValue? a = some high → hexValue? b = some low →
    c.toNat = 16 * high + low → SpellsChar c ['\\', 'x', a, b]
  | raw {c : Char} : c ∉ escapes.map (·.1) → SpellsChar c [c]

/-- The spellings of a text between quotes. -/
inductive SpellsText : List Char → List Char → Prop
  | nil : SpellsText [] []
  | cons {c : Char} {text value body : List Char} :
    SpellsChar c text → SpellsText value body → SpellsText (c :: value) (text ++ body)

/-- Every character has a spelling. -/
theorem exists_spellsChar (c : Char) : ∃ text, SpellsChar c text := by
  by_cases h : c ∈ escapes.map (·.1)
  · obtain ⟨⟨c, letter⟩, hmem, rfl⟩ := List.mem_map.mp h
    exact ⟨_, .escape hmem⟩
  · exact ⟨_, .raw h⟩

theorem exists_spellsText : ∀ value, ∃ body, SpellsText value body
  | [] => ⟨[], .nil⟩
  | c :: value =>
    have ⟨_, hc⟩ := exists_spellsChar c
    have ⟨_, hvalue⟩ := exists_spellsText value
    ⟨_, .cons hc hvalue⟩

/-- The characters of the first codes can be written in hexadecimal. -/
theorem exists_spellsChar_hex (h : c.toNat < 256) :
    ∃ a b, SpellsChar c ['\\', 'x', a, b] := by
  have hdigit : ∀ n < 16, ∃ d, hexValue? d = some n := by
    intro n hn
    refine ⟨Nat.digitChar n, ?_⟩
    revert n
    decide
  obtain ⟨a, ha⟩ := hdigit (c.toNat / 16) (by omega)
  obtain ⟨b, hb⟩ := hdigit (c.toNat % 16) (by omega)
  exact ⟨a, b, .hex ha hb (by omega)⟩

/-! ## Finding the closing quote -/

/-- A hexadecimal digit ends no line and no literal. -/
theorem ne_of_hexValue? {a : Char} {n : Nat} (h : hexValue? a = some n) :
    a ≠ '"' ∧ a ≠ '\'' ∧ a ≠ '\\' ∧ a ≠ '\n' := by
  refine ⟨?_, ?_, ?_, ?_⟩ <;> (rintro rfl; cases h)

theorem ne_of_not_escaped (h : c ∉ escapes.map (·.1)) :
    c ≠ '"' ∧ c ≠ '\'' ∧ c ≠ '\\' ∧ c ≠ '\n' := by
  refine ⟨?_, ?_, ?_, ?_⟩ <;> (rintro rfl; exact h (by decide))

theorem letter_of_escape {letter : Char} (h : (c, letter) ∈ escapes) :
    letter ≠ 'x' ∧ letter ≠ '\n' ∧ simpleEscape? letter = some c := by
  have hall : ∀ entry ∈ escapes,
      entry.2 ≠ 'x' ∧ entry.2 ≠ '\n' ∧ simpleEscape? entry.2 = some entry.1 := by decide
  exact hall _ h

theorem stringRest?_cons (hquote : c ≠ '"') (hslash : c ≠ '\\') (hfeed : c ≠ '\n') :
    Pattern.stringRest? (c :: rest) = (Pattern.stringRest? rest).map (· + 1) := by
  rw [Pattern.stringRest?.eq_def]
  split <;> simp_all

theorem stringRest?_append (h : SpellsChar c text) (rest : List Char) :
    Pattern.stringRest? (text ++ rest) = (Pattern.stringRest? rest).map (· + text.length) := by
  cases h with
  | escape hmem => simp [Pattern.stringRest?, (letter_of_escape hmem).2.1]
  | hex ha hb _ =>
    obtain ⟨haq, -, has, haf⟩ := ne_of_hexValue? ha
    obtain ⟨hbq, -, hbs, hbf⟩ := ne_of_hexValue? hb
    simp [Pattern.stringRest?, stringRest?_cons haq has haf, stringRest?_cons hbq hbs hbf,
      Option.map_map, Function.comp_def]
  | raw hraw =>
    obtain ⟨hquote, -, hslash, hfeed⟩ := ne_of_not_escaped hraw
    exact stringRest?_cons hquote hslash hfeed

/-- A string ends at its closing quote, whatever is written in front of it and behind it. -/
theorem stringRest?_of_spells (h : SpellsText value body) (rest : List Char) :
    Pattern.stringRest? (body ++ '"' :: rest) = some (body.length + 1) := by
  induction h with
  | nil => rfl
  | cons hc _ ih =>
    rw [List.append_assoc, stringRest?_append hc, ih, Option.map_some, List.length_append]
    congr 1
    omega

theorem charRest?_of_spells (h : SpellsChar c text) (rest : List Char) :
    Pattern.charRest? (text ++ '\'' :: rest) = some (text.length + 1) := by
  cases h with
  | escape hmem => simp [Pattern.charRest?, (letter_of_escape hmem).2.1]
  | @hex a b _ _ ha hb _ =>
    obtain ⟨-, haq, -, -⟩ := ne_of_hexValue? ha
    obtain ⟨-, hbq, -, -⟩ := ne_of_hexValue? hb
    have hrest : Pattern.hexRest? (a :: b :: '\'' :: rest) = some 3 := by
      rw [Pattern.hexRest?.eq_def]
      split <;> simp_all
    simp [Pattern.charRest?, haq, hrest]
  | raw hraw =>
    obtain ⟨-, hquote, hslash, hfeed⟩ := ne_of_not_escaped hraw
    rw [Pattern.charRest?.eq_def]
    split <;> simp_all

/-! ## Decoding -/

theorem unescape_append (h : SpellsChar c text) (rest : List Char) :
    unescape (text ++ rest) = (unescape rest).map (c :: ·) := by
  cases h with
  | escape hmem =>
    obtain ⟨hx, -, hescape⟩ := letter_of_escape hmem
    rw [List.cons_append, List.cons_append, List.nil_append, unescape.eq_def]
    simp [hx, hescape]
  | hex ha hb hcode =>
    rw [List.cons_append, List.cons_append, unescape.eq_def]
    simp [ha, hb, ← hcode]
  | raw hraw =>
    obtain ⟨-, -, hslash, -⟩ := ne_of_not_escaped hraw
    rw [List.cons_append, List.nil_append, unescape.eq_def]
    cases rest with
    | nil => simp only [if_neg hslash]; rfl
    | cons d rest => simp [hslash]

/-- Decoding gives back what has been spelled. -/
theorem unescape_of_spells (h : SpellsText value body) : unescape body = .ok value := by
  induction h with
  | nil => rfl
  | cons hc _ ih =>
    rw [unescape_append hc, ih]
    rfl

end MiniC.Token
