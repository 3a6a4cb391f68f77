/-!
# Blank characters and words

`isBlank` is the Unicode property `White_Space`. `trim` drops blanks at both ends of a text and
`words` cuts a text at its runs of blanks. A word holds no blank, and cutting a word followed by a
blank gives that word first.
-/

namespace MiniC.Text

/-- A character with the Unicode property `White_Space`. -/
def isBlank (c : Char) : Bool :=
  let n := c.toNat
  (0x09 ≤ n && n ≤ 0x0D) || n == 0x20 || n == 0x85 || n == 0xA0 || n == 0x1680 ||
    (0x2000 ≤ n && n ≤ 0x200A) || n == 0x2028 || n == 0x2029 || n == 0x202F || n == 0x205F ||
    n == 0x3000

/-- Every blank of the ASCII class is a blank. -/
theorem isBlank_of_isWhitespace {c : Char} (h : c.isWhitespace) : isBlank c := by
  simp only [Char.isWhitespace, Bool.or_eq_true, decide_eq_true_eq] at h
  rcases h with ((h | h) | h) | h <;> subst h <;> decide

/-- Drops the blanks at both ends. -/
def trim (cs : List Char) : List Char :=
  ((cs.dropWhile isBlank).reverse.dropWhile isBlank).reverse

@[simp] theorem trim_nil : trim [] = [] := rfl

/-- Puts a finished word in front of the others; an empty one is no word. -/
def closeWord (word : List Char) (others : List (List Char)) : List (List Char) :=
  if word.isEmpty then others else word :: others

/-- The word that the text starts with, empty before a blank, and the words after it. -/
def cutWord : List Char → List Char × List (List Char)
  | [] => ([], [])
  | c :: cs =>
    let (word, others) := cutWord cs
    if isBlank c then ([], closeWord word others) else (c :: word, others)

/-- The maximal runs of characters that are not blank, in order. -/
def words (cs : List Char) : List (List Char) :=
  closeWord (cutWord cs).1 (cutWord cs).2

@[simp] theorem words_nil : words [] = [] := rfl

theorem cutWord_blank {c : Char} (hc : isBlank c) (cs : List Char) :
    cutWord (c :: cs) = ([], words cs) := by simp [cutWord, words, hc]

theorem words_cons_blank {c : Char} (hc : isBlank c) (cs : List Char) :
    words (c :: cs) = words cs := by
  simp [words, cutWord, hc, closeWord]

/-- A run without blanks goes to the front of the word that follows it. -/
theorem cutWord_append {w : List Char} (hw : ∀ c ∈ w, isBlank c = false) (cs : List Char) :
    cutWord (w ++ cs) = (w ++ (cutWord cs).1, (cutWord cs).2) := by
  induction w with
  | nil => rfl
  | cons c w ih =>
    have hc : isBlank c = false := hw c (by simp)
    simp [cutWord, ih (fun d hd => hw d (by simp [hd])), hc]

/-- A word, a blank and a text are cut into the word and the words of the text. -/
theorem words_append_blank {w : List Char} (hw : ∀ c ∈ w, isBlank c = false) (hne : w ≠ [])
    {b : Char} (hb : isBlank b) (cs : List Char) : words (w ++ b :: cs) = w :: words cs := by
  unfold words
  rw [cutWord_append hw, cutWord_blank hb]
  simp [closeWord, hne, words]

/-- A run without blanks is one word. -/
theorem words_single {w : List Char} (hw : ∀ c ∈ w, isBlank c = false) (hne : w ≠ []) :
    words w = [w] := by
  have h := cutWord_append hw []
  simp only [List.append_nil, cutWord] at h
  simp [words, h, closeWord, hne]

end MiniC.Text
