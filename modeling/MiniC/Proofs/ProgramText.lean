import MiniC.Proofs.Alike.Compile
import MiniC.Proofs.Machine.Line
import MiniC.Proofs.Token.Scan

/-!
# The text of programs

The text of a program says what the program is: its lines, read one by one, are its instructions. Whatever
the literals and names of the source are, no operand is empty, holds a blank or ends with a colon: characters
that would do so are written by their code, and the names in labels are words.
-/

namespace MiniC

open Machine

namespace Machine

namespace Line.IsPart

/-- A text that has no blank and no colon in it stays in one piece. -/
theorem of_plain {text : String} (hne : text.toList ≠ [])
    (hplain : ∀ c ∈ text.toList, Text.isBlank c = false ∧ c ≠ ':') : IsPart text :=
  ⟨hne, fun c hc => (hplain c hc).1, fun heq => (hplain ':' (List.mem_of_getLast? heq)).2 rfl⟩

instance (text : String) : Decidable (IsPart text) :=
  decidable_of_iff (text.toList ≠ [] ∧ (text.toList.all fun c => !Text.isBlank c) ∧
      text.toList.getLast? ≠ some ':')
    ⟨fun h => ⟨h.1, fun c hc => by simpa using List.all_eq_true.mp h.2.1 c hc, h.2.2⟩,
      fun h => ⟨h.1, List.all_eq_true.mpr fun c hc => by simp [h.2 c hc], h.3⟩⟩

/-- Visible characters are no blanks. -/
theorem isBlank_of_visible {c : Char} (hlow : 0x21 ≤ c.toNat) (hhigh : c.toNat ≤ 0x7E) :
    Text.isBlank c = false := by
  simp only [Text.isBlank, Bool.or_eq_false_iff, Bool.and_eq_false_iff, decide_eq_false_iff_not,
    beq_eq_false_iff_ne]
  omega

/-- Letters, digits and underscores are neither blanks nor colons. -/
theorem plain_of_isWordChar {c : Char} (h : Token.isWordChar c) : Text.isBlank c = false ∧ c ≠ ':' := by
  have hcases : (decide (c.val ≥ 'A'.val ∧ c.val ≤ 'Z'.val) ||
      decide (c.val ≥ 'a'.val) && decide (c.val ≤ 'z'.val) || c == '_' ||
      decide (c.val ≥ '0'.val) && decide (c.val ≤ '9'.val)) = true := h
  have hrange : 0x30 ≤ c.toNat ∧ c.toNat ≤ 0x7A ∧ c.toNat ≠ 0x3A := by
    simp only [Bool.or_eq_true, Bool.and_eq_true, decide_eq_true_eq, beq_iff_eq, ge_iff_le,
      UInt32.le_iff_toNat_le] at hcases
    have hval : c.val.toNat = c.toNat := rfl
    rcases hcases with ((h | h) | rfl) | h
    · simp at h
      omega
    · simp at h
      omega
    · decide
    · simp at h
      omega
  refine ⟨isBlank_of_visible (by omega) (by omega), ?_⟩
  rintro rfl
  exact hrange.2.2 rfl

theorem plain_nat (n : Nat) : ∀ c ∈ (toString n).toList, Text.isBlank c = false ∧ c ≠ ':' := by
  intro c hc
  rw [Nat.toString_eq_repr, Nat.toList_repr] at hc
  have hdigit : c.isDigit := Nat.isDigit_of_mem_toDigits (by decide) (by decide) hc
  exact plain_of_isWordChar (by simp [Token.isWordChar, hdigit])

theorem nat (n : Nat) : IsPart (toString n) := by
  refine .of_plain ?_ (plain_nat n)
  rw [Nat.toString_eq_repr, Nat.toList_repr]
  exact Nat.toDigits_ne_nil

theorem int (n : Int) : IsPart (toString n) := by
  cases n with
  | ofNat n => exact nat n
  | negSucc n =>
    have htext : (toString (Int.negSucc n)).toList = '-' :: (toString (n + 1)).toList := by
      show ("-" ++ toString (n + 1)).toList = _
      simp
    refine .of_plain (htext ▸ List.cons_ne_nil _ _) fun c hc => ?_
    rcases List.mem_cons.mp (htext ▸ hc) with rfl | hc
    · decide
    · exact plain_nat _ c hc

theorem tag (tag : Tag) : IsPart tag.text := by cases tag <;> decide

/-- A character is quoted if it can be seen; the quote behind it closes the line, not the character. -/
theorem char (c : Char) : IsPart (charOperand c) := by
  unfold charOperand
  split
  · rename_i hplain
    simp only [isPlainOperand, Bool.and_eq_true, decide_eq_true_eq, bne_iff_ne] at hplain
    refine ⟨by simp, fun d hd => ?_, by simp⟩
    simp only [String.toList_ofList, List.mem_cons, List.not_mem_nil, or_false] at hd
    rcases hd with rfl | rfl | rfl
    · decide
    · exact isBlank_of_visible hplain.1.1 hplain.1.2
    · decide
  · exact nat _

end Line.IsPart

open Line.IsPart

/-- An instruction with labels that stay in one piece is a line that is read back. -/
theorem Instr.proper {instr : Instr}
    (hlabel : ∀ label, instr.defined? = some label ∨ instr.target? = some label → Line.IsPart label.text) :
    instr.line.Proper := by
  have hparts : ∀ {mnemonic operands}, Line.IsPart mnemonic → (∀ operand ∈ operands, Line.IsPart operand) →
      (Line.operation mnemonic operands).Proper :=
    fun hmnemonic hoperands => List.forall_mem_cons.mpr ⟨hmnemonic, hoperands⟩
  cases instr with
  | label name => exact hlabel name (.inl rfl)
  | ujp target | fjp target =>
    exact hparts (by decide) (List.forall_mem_singleton.mpr (hlabel target (.inr rfl)))
  | cup count target =>
    exact hparts (by decide) (List.forall_mem_cons.mpr
      ⟨nat count, List.forall_mem_singleton.mpr (hlabel target (.inr rfl))⟩)
  | ldc value =>
    refine hparts (by decide) ?_
    cases value with
    | int value => exact List.forall_mem_cons.mpr ⟨tag _, List.forall_mem_singleton.mpr (int value)⟩
    | char value => exact List.forall_mem_cons.mpr ⟨tag _, List.forall_mem_singleton.mpr (char value)⟩
    | bool value => cases value <;> decide
  | arith op | compare op | logic op =>
    refine hparts (by cases op <;> decide) ?_
    simp only [List.forall_mem_cons, tag, and_self, List.not_mem_nil, false_imp_iff,
      implies_true]
  | _ =>
    refine hparts (by decide) ?_
    simp only [List.forall_mem_cons, tag, nat, and_self, List.not_mem_nil, false_imp_iff,
      implies_true]

end Machine

namespace Likeness

/-- Words stand for themselves. -/
def onWords : Likeness where
  name name name' := name = name' ∧ Token.isWord name.toList
  line _ _ := True
  name_iff := by
    rintro name _ other _ ⟨rfl, -⟩ ⟨rfl, -⟩
    exact Iff.rfl
  routine := by
    have hall : ∀ name ∈ Routine.catalog.map (·.name), Token.isWord name.toList := by decide +kernel
    exact fun routine hroutine => ⟨rfl, hall _ (List.mem_map_of_mem hroutine)⟩
  main := ⟨rfl, by decide⟩

theorem sameTokens_onWords {source : String} {tokens : List Token} (hscan : Token.scan source = .ok tokens) :
    List.Forall₂ onWords.SameToken tokens tokens :=
  List.forall₂_same.mpr fun token htoken => ⟨rfl, trivial,
    fun hkind => ⟨rfl, ((Token.token_of_scanFrom 1 _ _ hscan token htoken).2 hkind).1⟩, fun _ => rfl⟩

/-- The labels of an instruction that is alike to itself are. -/
theorem SameInstr.label_self {L : Likeness} {instr : Instr} {label : Label} (h : L.SameInstr instr instr)
    (hlabel : instr.defined? = some label ∨ instr.target? = some label) : L.SameLabel label label := by
  cases h with
  | other hdefined htarget => simp [hdefined, htarget] at hlabel
  | label h =>
    obtain heq | heq := hlabel
    · exact Option.some.inj heq ▸ h
    · cases heq
  | ujp h | fjp h | cup _ h =>
    obtain heq | heq := hlabel
    · cases heq
    · exact Option.some.inj heq ▸ h

/-- A label of a function whose name is a word stays in one piece. -/
theorem isPart_of_onWords {label : Label} (h : onWords.SameLabel label label) : Line.IsPart label.text := by
  cases h with
  | jump number =>
    have htext := Label.text_jump number
    refine .of_plain (htext ▸ List.cons_ne_nil _ _) fun c hc => ?_
    rcases List.mem_cons.mp (htext ▸ hc) with rfl | hc
    · decide
    · exact Line.IsPart.plain_nat number c hc
  | @function name _ hname number =>
    have htext := Label.text_function name number
    refine .of_plain (by simp [htext]) fun c hc => ?_
    rw [htext, List.mem_append, List.mem_cons] at hc
    rcases hc with hc | rfl | hc
    · exact Line.IsPart.plain_of_isWordChar (Token.isWordChar_of_mem hname.2 hc)
    · decide
    · exact Line.IsPart.plain_nat number c hc
  | named hname =>
    have hall : ∀ name ∈ Routine.catalog.map (·.name), Line.IsPart name := by decide +kernel
    exact hall _ hname

end Likeness

/-- The text of a program determines it: read line by line, it gives its instructions again. -/
theorem compile_text {source : String} {program : Program} (h : compile source = .ok program) :
    (Text.splitLines program.render.toList).map (fun line => Line.parse? (String.ofList line)) =
      program.code.map fun instr => some instr.line := by
  rcases hscan : Token.scan source with fault | tokens
  · have hrefused : compile source = .error fault := by
      rw [compile, Grammar.read, hscan]
      rfl
    cases hrefused.symm.trans h
  have hagree := Likeness.agree_compileSource hscan hscan (Likeness.sameTokens_onWords hscan)
  rw [h] at hagree
  have hcode : Likeness.onWords.SameCode program.code program.code := by
    cases hagree with
    | ok hprogram => exact hprogram.code
  have hproper : ∀ line ∈ program.code.map Instr.line, line.Proper := by
    refine List.forall_mem_map.mpr fun instr hinstr => Instr.proper fun label hlabel => ?_
    exact Likeness.isPart_of_onWords ((List.forall₂_same.mp hcode instr hinstr).label_self hlabel)
  rw [Program.render, Code.render, Line.parse?_render hproper, List.map_map]
  rfl

/-- Blanks and colons among the characters of a program. -/
theorem compile_text_blanks : ∃ program,
    compile "void main() \x7b char c = ':'; char d = ' '; print(\"a: b\\n\"); \x7d" = .ok program ∧
    (Text.splitLines program.render.toList).map (fun line => Line.parse? (String.ofList line)) =
      program.code.map fun instr => some instr.line := by
  have hok : (compile "void main() \x7b char c = ':'; char d = ' '; print(\"a: b\\n\"); \x7d").isOk := by
    decide +kernel
  cases hcompile : compile "void main() \x7b char c = ':'; char d = ' '; print(\"a: b\\n\"); \x7d" with
  | error fault => simp [hcompile, Except.isOk, Except.toBool] at hok
  | ok program => exact ⟨program, rfl, compile_text hcompile⟩

end MiniC
