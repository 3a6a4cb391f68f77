import MiniC.Token.Scan

/-!
# Tokens of a source

Every token of a source, and every place that cannot be scanned, stands on one of its lines. The value of
an identifier is a word that is not reserved.
-/

namespace MiniC.Token

/-- A letter or an underscore, and such characters and digits behind it. -/
def isWord : List Char → Bool
  | [] => false
  | c :: cs => isWordStart c && cs.all isWordChar

theorem isWordChar_of_mem {c : Char} {cs : List Char} (h : isWord cs) (hc : c ∈ cs) : isWordChar c := by
  cases cs with
  | nil => cases hc
  | cons d cs =>
    simp only [isWord, Bool.and_eq_true, List.all_eq_true] at h
    rcases List.mem_cons.mp hc with rfl | hc
    · simp [isWordChar, h.1]
    · exact h.2 c hc

/-- A word that is not reserved. -/
def IsIdentifier (name : String) : Prop := isWord name.toList ∧ TokenKind.ofWord? name = none

instance (name : String) : Decidable (IsIdentifier name) := inferInstanceAs (Decidable (_ ∧ _))

variable {line length : Nat} {c : Char} {cs lexeme : List Char} {pattern : Pattern} {value : String}
  {tokens : List Token} {fault : Fault}

namespace Pattern

theorem isWord_of_length? (h : word.length? cs = some length) : isWord (cs.take length) := by
  cases cs with
  | nil => cases h
  | cons c cs =>
    simp only [length?] at h
    split at h
    · rename_i hstart
      have htake : cs.take (cs.takeWhile isWordChar).length = cs.takeWhile isWordChar :=
        (List.prefix_iff_eq_take.mp (List.takeWhile_prefix _)).symm
      rw [← Option.some.inj h, List.take_succ_cons, htake]
      simp only [isWord, hstart, Bool.true_and, List.all_takeWhile]
    · cases h

/-- No mark and no reserved word is an identifier. -/
theorem ne_identifier_of_ofWord? {word : String} {kind : TokenKind} (h : TokenKind.ofWord? word = some kind) :
    kind ≠ .identifier := by
  have hall : ∀ entry ∈ TokenKind.reservedWords, entry.2 ≠ .identifier := by decide
  obtain ⟨front, back, hsplit, -⟩ := List.lookup_eq_some_iff.mp h
  exact hall (word, kind) (hsplit ▸ List.mem_append_right front List.mem_cons_self)

/-- What is read as an identifier is one. -/
theorem isIdentifier_of_read (hfirst : first? cs = some (pattern, length))
    (hread : pattern.read (cs.take length) = .ok (some (.identifier, value))) : IsIdentifier value := by
  obtain ⟨hmem, hlength⟩ := first?_spec hfirst
  cases pattern with
  | word =>
    simp only [read, Except.ok.injEq, Option.some.injEq, Prod.mk.injEq] at hread
    obtain ⟨hkind, rfl⟩ := hread
    refine ⟨by simpa using isWord_of_length? hlength, ?_⟩
    cases hword : TokenKind.ofWord? (String.ofList (cs.take length)) with
    | none => rfl
    | some kind =>
      rw [hword] at hkind
      exact absurd hkind (ne_identifier_of_ofWord? hword)
  | mark spelling kind =>
    have hall : ∀ entry ∈ TokenKind.marks, entry.2 ≠ .identifier := by decide
    simp only [read, Except.ok.injEq, Option.some.injEq, Prod.mk.injEq] at hread
    have hentry : (spelling, kind) ∈ TokenKind.marks := by simpa [table] using hmem
    exact absurd hread.1 (hall _ hentry)
  | string | char =>
    simp only [read] at hread
    split at hread <;> simp at hread
  | _ => simp [read] at hread

end Pattern

theorem lineFeeds_take_add_drop (cs : List Char) (length : Nat) :
    Text.lineFeeds (cs.take length) + Text.lineFeeds (cs.drop length) = Text.lineFeeds cs := by
  rw [← Text.lineFeeds_append, List.take_append_drop]

/-- A place that cannot be scanned stands on a line of the text. -/
theorem line_of_scanFrom_error (h : scanFrom line cs = .error fault) :
    line ≤ fault.line ∧ fault.line ≤ line + Text.lineFeeds cs := by
  fun_induction scanFrom line cs with
  | case1 => cases h
  | case2 | case3 =>
    obtain rfl := Except.error.inj h
    exact ⟨Nat.le_refl _, Nat.le_add_right _ _⟩
  | case4 line c rest pattern length hfirst lexeme reading hread other herror ih =>
    obtain ⟨hle, hge⟩ := ih (herror.trans h)
    have hfeeds : Text.lineFeeds lexeme + _ = _ := lineFeeds_take_add_drop (c :: rest) length
    omega
  | _ => cases h

/-- Every token stands on a line of the text, and identifiers are what they should be. -/
theorem token_of_scanFrom (line : Nat) (cs : List Char) : ∀ tokens, scanFrom line cs = .ok tokens →
    ∀ token ∈ tokens, (line ≤ token.line ∧ token.line ≤ line + Text.lineFeeds cs) ∧
      (token.kind = .identifier → IsIdentifier token.value) := by
  fun_induction scanFrom line cs with
  | case1 line =>
    intro tokens h
    obtain rfl := Except.ok.inj h
    exact List.forall_mem_singleton.mpr ⟨⟨Nat.le_refl _, Nat.le_add_right _ _⟩, nofun⟩
  | case5 line c rest pattern length hfirst lexeme others hok hread ih =>
    intro tokens h token htoken
    obtain rfl := Except.ok.inj h
    have hfeeds : Text.lineFeeds lexeme + _ = _ := lineFeeds_take_add_drop (c :: rest) length
    obtain ⟨⟨hle, hge⟩, hname⟩ := ih _ hok token htoken
    exact ⟨by omega, hname⟩
  | case6 line c rest pattern length hfirst lexeme others hok kind value hread ih =>
    intro tokens h
    obtain rfl := Except.ok.inj h
    have hfeeds : Text.lineFeeds lexeme + _ = _ := lineFeeds_take_add_drop (c :: rest) length
    refine List.forall_mem_cons.mpr ⟨⟨⟨Nat.le_refl _, Nat.le_add_right _ _⟩, ?_⟩, fun token htoken => ?_⟩
    · rintro rfl
      exact Pattern.isIdentifier_of_read hfirst hread
    · obtain ⟨⟨hle, hge⟩, hname⟩ := ih _ hok token htoken
      exact ⟨by omega, hname⟩
  | _ => nofun

end MiniC.Token
