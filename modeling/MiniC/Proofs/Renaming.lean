import Mathlib.Logic.Equiv.Basic
import MiniC.Proofs.Alike.Compile
import MiniC.Proofs.Token.Scan

/-!
# Renaming

What a source is compiled to depends neither on its layout nor on the names in it. If the identifiers of a
source are replaced one to one, `main` and the routines of the library staying what they are, then it is
compiled or refused as before, and its code is the same but for the labels of functions.
-/

namespace MiniC

open Machine

variable {σ : String → String} {source source' : String} {tokens tokens' : List Token}

/-- Renames the function that a label stands for. -/
def Machine.Label.rename (σ : String → String) : Label → Label
  | function name number => function (σ name) number
  | other => other

/-- Renames the function that a concern is about. -/
def Concern.rename (σ : String → String) : Concern → Concern
  | missingReturn name => missingReturn (σ name)
  | other => other

/-- The same token under another name, if it is an identifier, and on any line. -/
structure Token.Renamed (σ : String → String) (token token' : Token) : Prop where
  kind : token'.kind = token.kind
  value : token'.value = if token.kind = .identifier then σ token.value else token.value

instance (σ : String → String) (token token' : Token) : Decidable (Token.Renamed σ token token') :=
  decidable_of_iff (token'.kind = token.kind ∧
    token'.value = if token.kind = .identifier then σ token.value else token.value)
    ⟨fun h => ⟨h.1, h.2⟩, fun h => ⟨h.kind, h.value⟩⟩

/-- Replaces names one to one, but neither `main` nor the names of the library. -/
structure Renaming (σ : String → String) : Prop where
  injOn : Set.InjOn σ {name | Token.IsIdentifier name}
  main : σ "main" = "main"
  library : ∀ routine ∈ Routine.catalog, σ routine.name = routine.name

namespace Renaming

/-- Identifiers stand for what they are replaced by. -/
def likeness (h : Renaming σ) : Likeness where
  name name name' := Token.IsIdentifier name ∧ name' = σ name
  line _ _ := True
  name_iff := by
    rintro name _ other _ ⟨hname, rfl⟩ ⟨hother, rfl⟩
    exact ⟨fun heq => congrArg σ heq, fun heq => h.injOn hname hother heq⟩
  routine := by
    have hall : ∀ name ∈ Routine.catalog.map (·.name), Token.IsIdentifier name := by decide +kernel
    exact fun routine hroutine => ⟨hall _ (List.mem_map_of_mem hroutine), (h.library routine hroutine).symm⟩
  main := ⟨by decide, h.main.symm⟩

variable (h : Renaming σ)
include h

theorem sameTokens (hscan : Token.scan source = .ok tokens)
    (htokens : List.Forall₂ (Token.Renamed σ) tokens tokens') :
    List.Forall₂ h.likeness.SameToken tokens tokens' := by
  have hnames : ∀ token ∈ tokens, token.kind = .identifier → Token.IsIdentifier token.value :=
    fun token htoken => (Token.token_of_scanFrom 1 _ _ hscan token htoken).2
  clear hscan
  induction htokens with
  | nil => exact .nil
  | @cons token token' _ _ htoken _ ih =>
    obtain ⟨hname, hnames⟩ := List.forall_mem_cons.mp hnames
    refine .cons ⟨htoken.kind, trivial, fun hkind => ?_, fun hkind => ?_⟩ (ih hnames)
    · exact ⟨hname hkind, by rw [htoken.value, if_pos hkind]⟩
    · rw [htoken.value, if_neg hkind]

theorem rename_of_sameLabel {label label' : Label} (hlabel : h.likeness.SameLabel label label') :
    label' = label.rename σ := by
  cases hlabel with
  | function hname number => rw [hname.2, Label.rename]
  | _ => rfl

theorem relabel_of_sameCode {code code' : Code} (hcode : h.likeness.SameCode code code') :
    code' = code.map (Instr.relabel (Label.rename σ)) := by
  induction hcode with
  | nil => rfl
  | @cons instr instr' _ _ hinstr _ ih =>
    rw [List.map_cons, ← ih]
    congr 1
    cases hinstr with
    | other hdefined htarget => cases instr <;> simp_all [Instr.defined?, Instr.target?, Instr.relabel]
    | label hlabel | ujp hlabel | fjp hlabel | cup count hlabel =>
      rw [h.rename_of_sameLabel hlabel, Instr.relabel]

theorem rename_of_sameWarnings {warnings warnings' : List Warning}
    (hwarnings : List.Forall₂ h.likeness.SameWarning warnings warnings') :
    warnings'.map (·.concern) = warnings.map (·.concern.rename σ) := by
  induction hwarnings with
  | nil => rfl
  | @cons warning warning' _ _ hwarning _ ih =>
    rw [List.map_cons, List.map_cons, ih]
    congr 1
    obtain ⟨concern, line⟩ := warning
    obtain ⟨concern', line'⟩ := warning'
    cases hwarning.concern with
    | missingReturn hname => exact congrArg Concern.missingReturn hname.2
    | unmappedType => rfl

end Renaming

/-- A source and what becomes of it when its identifiers are renamed and its layout changes: both are compiled,
and code and warnings are the same but for the names, or both are refused for the same kind of fault. -/
theorem compile_renamed (hσ : Renaming σ) (hscan : Token.scan source = .ok tokens)
    (hscan' : Token.scan source' = .ok tokens')
    (htokens : List.Forall₂ (Token.Renamed σ) tokens tokens') :
    (∃ program program', compile source = .ok program ∧ compile source' = .ok program' ∧
      program'.code = program.code.map (Instr.relabel (Label.rename σ)) ∧
      program'.warnings.map (·.concern) = program.warnings.map (·.concern.rename σ)) ∨
    ∃ fault fault', compile source = .error fault ∧ compile source' = .error fault' ∧
      fault'.cause.name = fault.cause.name := by
  have hagree := Likeness.agree_compileSource hscan hscan' (hσ.sameTokens hscan htokens)
  generalize compile source = answer, compile source' = answer' at hagree ⊢
  cases hagree with
  | ok h =>
    exact .inl ⟨_, _, rfl, rfl, hσ.relabel_of_sameCode h.code, hσ.rename_of_sameWarnings h.warnings⟩
  | error h => exact .inr ⟨_, _, rfl, rfl, h.name.symm⟩

/-- A function that is renamed, in a source with another layout. -/
theorem compile_renamed_swapped : ∃ program program',
    compile "int f() \x7b\x7d void main() \x7b f(); \x7d" = .ok program ∧
    compile "int g() // no result\n\x7b\x7d\nvoid main()\n\x7b g(); \x7d" = .ok program' ∧
    program'.code = program.code.map (Instr.relabel (Label.rename (Equiv.swap "f" "g"))) ∧
    program'.warnings.map (·.concern) = program.warnings.map (·.concern.rename (Equiv.swap "f" "g")) := by
  have hne : ∀ name ∈ "main" :: Routine.catalog.map (·.name), name ≠ "f" ∧ name ≠ "g" := by decide +kernel
  have hfixed : ∀ name ∈ "main" :: Routine.catalog.map (·.name), Equiv.swap "f" "g" name = name :=
    fun name hname => Equiv.swap_apply_of_ne_of_ne (hne name hname).1 (hne name hname).2
  have hσ : Renaming (Equiv.swap "f" "g") := ⟨(Equiv.injective _).injOn, hfixed _ List.mem_cons_self,
    fun routine hroutine => hfixed _ (List.mem_cons_of_mem _ (List.mem_map_of_mem hroutine))⟩
  let tokens (name : String) (second third fourth : Nat) : List Token :=
    [⟨.int, "int", 1⟩, ⟨.identifier, name, 1⟩, ⟨.openParen, "(", 1⟩, ⟨.closeParen, ")", 1⟩,
      ⟨.openCurly, "\x7b", second⟩, ⟨.closeCurly, "\x7d", second⟩, ⟨.void, "void", third⟩,
      ⟨.identifier, "main", third⟩, ⟨.openParen, "(", third⟩, ⟨.closeParen, ")", third⟩,
      ⟨.openCurly, "\x7b", fourth⟩, ⟨.identifier, name, fourth⟩, ⟨.openParen, "(", fourth⟩,
      ⟨.closeParen, ")", fourth⟩, ⟨.semicolon, ";", fourth⟩, ⟨.closeCurly, "\x7d", fourth⟩,
      .endOfInput fourth]
  have hscan : Token.scan "int f() \x7b\x7d void main() \x7b f(); \x7d" = .ok (tokens "f" 1 1 1) := by
    decide +kernel
  have hscan' : Token.scan "int g() // no result\n\x7b\x7d\nvoid main()\n\x7b g(); \x7d" =
      .ok (tokens "g" 2 3 4) := by decide +kernel
  have htokens : List.Forall₂ (Token.Renamed (Equiv.swap "f" "g")) (tokens "f" 1 1 1) (tokens "g" 2 3 4) := by
    decide +kernel
  have hok : (compile "int f() \x7b\x7d void main() \x7b f(); \x7d").isOk := by decide +kernel
  rcases compile_renamed hσ hscan hscan' htokens with h | ⟨fault, -, herror, -⟩
  · exact h
  · simp [herror, Except.isOk, Except.toBool] at hok

end MiniC
