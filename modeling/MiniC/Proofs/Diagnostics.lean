import MiniC.Proofs.Alike.Compile
import MiniC.Proofs.Text.Lines
import MiniC.Proofs.Token.Scan

/-!
# Lines of diagnostics

Every fault and every warning is about a line of the source. Once the source has been cut into tokens this
is the line of one of them, unless there is no `main`: no node that is made up, no routine of the library
and no absent part is ever reported. A compilation is compared with itself for this, with the lines of its
tokens as the only lines alike.
-/

namespace MiniC

variable {source : String} {tokens : List Token}

/-- Names stand for themselves, and so do the lines in a list. -/
def Likeness.onLines (lines : List Nat) : Likeness where
  name name name' := name = name'
  line line line' := line = line' ∧ line ∈ lines
  name_iff := by
    rintro name _ other _ rfl rfl
    exact Iff.rfl
  routine _ _ := rfl
  main := rfl

theorem Likeness.sameTokens_onLines (tokens : List Token) :
    List.Forall₂ (Likeness.onLines (tokens.map (·.line))).SameToken tokens tokens :=
  List.forall₂_same.mpr fun _ htoken =>
    ⟨rfl, ⟨rfl, List.mem_map_of_mem htoken⟩, fun _ => rfl, fun _ => rfl⟩

/-- A fault that is not about a token is that of a malformed tree, or that of a missing `main`. -/
theorem Cause.hasToken_of_ne {cause : Cause} (hordinary : ∀ message, cause ≠ .malformedTree message)
    (hmain : cause ≠ .missingMain) : cause.hasToken := by
  cases cause with
  | malformedTree message => exact absurd rfl (hordinary message)
  | missingMain => exact absurd rfl hmain
  | _ => rfl

/-- A source that has been cut into tokens is refused on the line of one of them, or for its missing `main`. -/
theorem line_of_fault (hscan : Token.scan source = .ok tokens) {fault : Fault}
    (h : compile source = .error fault) :
    if fault.cause = .missingMain then fault.line = 1 else ∃ token ∈ tokens, token.line = fault.line := by
  have hagree := Likeness.agree_compileSource hscan hscan (Likeness.sameTokens_onLines tokens)
  have hordinary := (compile_cases source).resolve_left fun hok => by
    obtain ⟨c, hc⟩ := hok
    cases hc.symm.trans h
  obtain ⟨_, heq, hordinary⟩ := hordinary
  obtain rfl := Except.error.inj (h.symm.trans heq)
  rw [h] at hagree
  cases hagree with
  | error hfault =>
    split
    · exact hfault.start ‹_›
    · exact List.mem_map.mp (hfault.line (Cause.hasToken_of_ne hordinary ‹_›)).2

/-- A warning is about the line of a token. -/
theorem line_of_warning (hscan : Token.scan source = .ok tokens) {program : Program}
    (h : compile source = .ok program) {warning : Warning} (hwarning : warning ∈ program.warnings) :
    ∃ token ∈ tokens, token.line = warning.line := by
  have hagree := Likeness.agree_compileSource hscan hscan (Likeness.sameTokens_onLines tokens)
  rw [h] at hagree
  cases hagree with
  | ok hprogram =>
    exact List.mem_map.mp (List.forall₂_same.mp hprogram.warnings warning hwarning).line.2

/-- The source is refused, or warned about, on a line. -/
def Reported (source : String) (line : Nat) : Prop :=
  (∃ fault, compile source = .error fault ∧ fault.line = line) ∨
    ∃ program, compile source = .ok program ∧ ∃ warning ∈ program.warnings, warning.line = line

/-- What is reported stands on a line of the source. -/
theorem Reported.bounds {line : Nat} (h : Reported source line) :
    1 ≤ line ∧ line ≤ 1 + Text.lineFeeds source.toList := by
  cases hscan : Token.scan source with
  | error fault =>
    have hrefused : compile source = .error fault := by
      rw [compile, Grammar.read, hscan]
      rfl
    rcases h with ⟨other, hother, rfl⟩ | ⟨program, hprogram, -⟩
    · obtain rfl := Except.error.inj (hrefused.symm.trans hother)
      exact Token.line_of_scanFrom_error hscan
    · cases hrefused.symm.trans hprogram
  | ok tokens =>
    have htoken : (∃ token ∈ tokens, token.line = line) →
        1 ≤ line ∧ line ≤ 1 + Text.lineFeeds source.toList := by
      rintro ⟨token, hmem, rfl⟩
      exact (Token.token_of_scanFrom 1 _ _ hscan token hmem).1
    rcases h with ⟨fault, hfault, rfl⟩ | ⟨program, hprogram, warning, hwarning, rfl⟩
    · have hline := line_of_fault hscan hfault
      split at hline
      · omega
      · exact htoken hline
    · exact htoken (line_of_warning hscan hprogram hwarning)

/-- Every diagnostic points into the source: at a line that is there, unless it is the one behind the last
line end, and at a token, unless the source cannot be cut into tokens or has no `main`. -/
theorem diagnostics_point_into_source (source : String) :
    (∀ line, Reported source line →
      (1 ≤ line ∧ line ≤ 1 + Text.lineFeeds source.toList) ∧
      ((Text.getLine? source line).isSome ∨ line = 1 + Text.lineFeeds source.toList ∧
        (source.toList = [] ∨ source.toList.getLast? = some '\n'))) ∧
    ∀ tokens, Token.scan source = .ok tokens →
      (∀ fault, compile source = .error fault → if fault.cause = .missingMain then fault.line = 1
        else ∃ token ∈ tokens, token.line = fault.line) ∧
      ∀ program, compile source = .ok program → ∀ warning ∈ program.warnings,
        ∃ token ∈ tokens, token.line = warning.line := by
  refine ⟨fun line h => ⟨h.bounds, ?_⟩, fun tokens hscan =>
    ⟨fun fault => line_of_fault hscan, fun program hprogram warning => line_of_warning hscan hprogram⟩⟩
  exact (Text.getLine?_isSome h.bounds.1 h.bounds.2).imp_right fun hbehind =>
    ⟨hbehind.1, Text.isFinished_iff.mp hbehind.2⟩

/-- A warning about a function on the second line. -/
theorem diagnostics_point_into_source_owing :
    Reported "// no result\nint f() \x7b\x7d\nvoid main() \x7b\x7d\n" 2 ∧
      (Text.getLine? "// no result\nint f() \x7b\x7d\nvoid main() \x7b\x7d\n" 2).isSome := by
  have hlines : ((compile "// no result\nint f() \x7b\x7d\nvoid main() \x7b\x7d\n").toOption.map fun program =>
      program.warnings.map (·.line)) = some [2] := by decide +kernel
  have hreported : Reported "// no result\nint f() \x7b\x7d\nvoid main() \x7b\x7d\n" 2 := by
    cases hcompile : compile "// no result\nint f() \x7b\x7d\nvoid main() \x7b\x7d\n" with
    | error fault => simp [hcompile, Except.toOption] at hlines
    | ok program =>
      simp only [hcompile, Except.toOption, Option.map_some, Option.some.injEq] at hlines
      have hwarned : 2 ∈ program.warnings.map (·.line) := hlines ▸ List.mem_singleton_self 2
      exact .inr ⟨program, hcompile, List.mem_map.mp hwarned⟩
  refine ⟨hreported, ((diagnostics_point_into_source _).1 2 hreported).2.resolve_right fun hbehind => ?_⟩
  exact absurd hbehind.1 (by decide)

end MiniC
