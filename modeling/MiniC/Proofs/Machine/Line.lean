import MiniC.Machine.Line
import MiniC.Proofs.Text.Lines

/-!
# Reading program text back

A line is read back as it has been written if its parts are not empty, hold no blank and do not end with a
colon. A text of such lines is split into them again.
-/

namespace MiniC

namespace Text

/-- A text without blanks at its ends is not trimmed. -/
theorem trim_eq_self {cs : List Char} (hhead : ∀ c ∈ cs.head?, isBlank c = false)
    (hlast : ∀ c ∈ cs.getLast?, isBlank c = false) : trim cs = cs := by
  have hdrop : ∀ {cs : List Char}, (∀ c ∈ cs.head?, isBlank c = false) → cs.dropWhile isBlank = cs := by
    intro cs hcs
    cases cs with
    | nil => rfl
    | cons c cs => rw [List.dropWhile_cons_of_neg (by simp [hcs c rfl])]
  have hback : ∀ c ∈ cs.reverse.head?, isBlank c = false := by simpa [List.head?_reverse] using hlast
  rw [trim, hdrop hhead, hdrop hback, List.reverse_reverse]

end Text

namespace Machine.Line

open Text

/-- A text that stays in one piece when its line is read. -/
structure IsPart (text : String) : Prop where
  ne_nil : text.toList ≠ []
  solid : ∀ c ∈ text.toList, isBlank c = false
  closed : text.toList.getLast? ≠ some ':'

/-- The parts of a line can be told apart. -/
def Proper : Line → Prop
  | label name => IsPart name
  | operation mnemonic operands => ∀ part ∈ mnemonic :: operands, IsPart part

variable {part : List Char} {parts : List (List Char)} {line : Line} {lines : List Line}

/-- Parts with blanks between them start and end with a part. -/
theorem ends_spaced (hne : parts ≠ []) (hparts : ∀ part ∈ parts, part ≠ []) :
    (∃ part ∈ parts, ([' '].intercalate parts).head? = part.head?) ∧
      ∃ part ∈ parts, ([' '].intercalate parts).getLast? = part.getLast? := by
  induction parts with
  | nil => exact absurd rfl hne
  | cons part parts ih =>
    obtain ⟨hpart, hparts⟩ := List.forall_mem_cons.mp hparts
    cases parts with
    | nil => simp
    | cons next parts =>
      obtain ⟨-, last, hlast, heq⟩ := ih (List.cons_ne_nil _ _) hparts
      rw [List.intercalate_cons_cons]
      refine ⟨⟨part, List.mem_cons_self, ?_⟩, last, List.mem_cons_of_mem _ hlast, ?_⟩
      · rw [List.append_assoc, List.head?_append, List.head?_eq_some_head hpart, Option.some_or]
      · rw [List.getLast?_append, heq, List.getLast?_eq_some_getLast (hparts last hlast), Option.some_or]

theorem mem_spaced {c : Char} (h : c ∈ [' '].intercalate parts) : c = ' ' ∨ ∃ part ∈ parts, c ∈ part := by
  induction parts with
  | nil => cases h
  | cons part parts ih =>
    cases parts with
    | nil => exact .inr ⟨part, List.mem_cons_self, by simpa using h⟩
    | cons next parts =>
      rw [List.intercalate_cons_cons, List.mem_append, List.mem_append] at h
      rcases h with (h | h) | h
      · exact .inr ⟨part, List.mem_cons_self, h⟩
      · exact .inl (List.mem_singleton.mp h)
      · refine (ih h).imp_right fun hmem => ?_
        obtain ⟨other, hother, hc⟩ := hmem
        exact ⟨other, List.mem_cons_of_mem _ hother, hc⟩

/-- Parts with blanks between them are the words of their line. -/
theorem words_spaced (hne : ∀ part ∈ parts, part ≠ [])
    (hsolid : ∀ part ∈ parts, ∀ c ∈ part, isBlank c = false) : words ([' '].intercalate parts) = parts := by
  induction parts with
  | nil => rfl
  | cons part parts ih =>
    obtain ⟨hpart, hne⟩ := List.forall_mem_cons.mp hne
    obtain ⟨hclean, hsolid⟩ := List.forall_mem_cons.mp hsolid
    cases parts with
    | nil => simpa using words_single hclean hpart
    | cons next parts =>
      rw [List.intercalate_cons_cons, List.append_assoc, List.singleton_append,
        words_append_blank hclean hpart (by decide), ih hne hsolid]

theorem text_label (name : String) : (label name).text.toList = name.toList ++ [':'] := by simp [text]

theorem text_operation (mnemonic : String) (operands : List String) :
    (operation mnemonic operands).text.toList =
      [' '].intercalate ((mnemonic :: operands).map String.toList) := String.toList_intercalate

/-- A proper line has no blank at its ends. -/
theorem Proper.ends (h : line.Proper) : (∀ c ∈ line.text.toList.head?, isBlank c = false) ∧
    ∀ c ∈ line.text.toList.getLast?, isBlank c = false := by
  cases line with
  | label name =>
    rw [text_label]
    refine ⟨fun c hc => ?_, fun c hc => ?_⟩
    · rw [List.head?_append, List.head?_eq_some_head h.ne_nil, Option.some_or] at hc
      exact h.solid c (Option.some.inj hc ▸ List.head_mem h.ne_nil)
    · rw [List.getLast?_concat] at hc
      obtain rfl := Option.some.inj hc
      decide
  | operation mnemonic operands =>
    have hne : ∀ part ∈ (mnemonic :: operands).map String.toList, part ≠ [] :=
      List.forall_mem_map.mpr fun part hpart => (h part hpart).ne_nil
    have hsolid : ∀ part ∈ (mnemonic :: operands).map String.toList, ∀ c ∈ part, isBlank c = false :=
      List.forall_mem_map.mpr fun part hpart => (h part hpart).solid
    obtain ⟨⟨first, hfirst, hhead⟩, last, hlast, hend⟩ := ends_spaced (List.cons_ne_nil _ _) hne
    rw [text_operation]
    exact ⟨fun c hc => hsolid first hfirst c (List.mem_of_mem_head? (hhead ▸ hc)),
      fun c hc => hsolid last hlast c (List.mem_of_mem_getLast? (hend ▸ hc))⟩

/-- A proper line is read back. -/
theorem parse?_text (h : line.Proper) : parse? line.text = some line := by
  rw [parse?, trim_eq_self h.ends.1 h.ends.2]
  cases line with
  | label name => simp [text_label]
  | operation mnemonic operands =>
    have hne : ∀ part ∈ (mnemonic :: operands).map String.toList, part ≠ [] :=
      List.forall_mem_map.mpr fun part hpart => (h part hpart).ne_nil
    have hsolid : ∀ part ∈ (mnemonic :: operands).map String.toList, ∀ c ∈ part, isBlank c = false :=
      List.forall_mem_map.mpr fun part hpart => (h part hpart).solid
    have hclosed : ∀ part ∈ (mnemonic :: operands).map String.toList, part.getLast? ≠ some ':' :=
      List.forall_mem_map.mpr fun part hpart => (h part hpart).closed
    obtain ⟨-, last, hlast, hend⟩ := ends_spaced (List.cons_ne_nil _ _) hne
    rw [text_operation, if_neg (hend ▸ hclosed last hlast), words_spaced hne hsolid]
    simp

/-- A proper line is one line. -/
theorem Proper.unbroken (h : line.Proper) : '\n' ∉ line.text.toList := by
  intro hmem
  cases line with
  | label name =>
    rw [text_label, List.mem_append] at hmem
    rcases hmem with hmem | hmem
    · exact absurd (h.solid _ hmem) (by decide)
    · exact absurd hmem (by decide)
  | operation mnemonic operands =>
    rw [text_operation] at hmem
    rcases mem_spaced hmem with heq | ⟨part, hpart, hmem⟩
    · cases heq
    · obtain ⟨text, htext, rfl⟩ := List.mem_map.mp hpart
      exact absurd ((h text htext).solid _ hmem) (by decide)

/-- A text of proper lines is split into them. -/
theorem splitLines_render (h : ∀ line ∈ lines, line.Proper) :
    splitLines (render lines).toList = lines.map (·.text.toList) := by
  have htext : (render lines).toList = lines.flatMap fun line => line.text.toList ++ ['\n'] := by
    simp [render, List.flatMap_map]
  rw [htext]
  clear htext
  induction lines with
  | nil => rfl
  | cons line lines ih =>
    obtain ⟨hline, h⟩ := List.forall_mem_cons.mp h
    have hlast : line.text.toList.getLast? ≠ some '\r' := fun heq => absurd (hline.ends.2 _ heq) (by decide)
    rw [List.flatMap_cons, List.append_assoc, List.singleton_append, splitLines_append hline.unbroken hlast,
      ih h, List.map_cons]

/-- Proper lines are read back from their text. -/
theorem parse?_render (h : ∀ line ∈ lines, line.Proper) :
    (splitLines (render lines).toList).map (fun cs => parse? (String.ofList cs)) = lines.map some := by
  rw [splitLines_render h, List.map_map]
  refine List.map_congr_left fun line hline => ?_
  rw [Function.comp_apply, String.ofList_toList, parse?_text (h line hline)]

end Machine.Line

end MiniC
