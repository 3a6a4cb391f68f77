import MiniC.Proofs.Alike.Emit
import MiniC.Proofs.Alike.Grammar
import MiniC.Proofs.Alike.Program

/-!
# Compiling alike

Sources with tokens alike are both compiled, to programs alike, or both refused, with faults alike. Nothing
else of a source matters.
-/

namespace MiniC.Likeness

variable {L : Likeness} {source source' : String} {tokens tokens' : List Token}

variable (L) in
/-- Programs alike. -/
structure SameProgram (program program' : Program) : Prop where
  code : L.SameCode program.code program'.code
  warnings : List.Forall₂ L.SameWarning program.warnings program'.warnings

theorem agree_analyse {forest forest' : Forest} (h : L.SameForest forest forest')
    (hlined : L.Lined forest forest') :
    L.Agree (L.SameResolution ∅) (analyse forest {}) (analyse forest' {}) := by
  refine (agree_program h hlined).bind fun resolution resolution' hresolution => .ok ?_
  have hsession := sameSession_warnReturns hresolution.forest.toSameForest hresolution.forest.lined
    hresolution.session
  exact { hresolution with session := hsession }

theorem agree_read (hscan : Token.scan source = .ok tokens) (hscan' : Token.scan source' = .ok tokens')
    (h : List.Forall₂ L.SameToken tokens tokens') :
    L.Agree (fun forest forest' => L.SameForest forest forest' ∧ L.Lined forest forest')
      (Grammar.read source) (Grammar.read source') := by
  have hne : tokens ≠ [] := by
    rcases Grammar.scanFrom_cases 1 source.toList with ⟨front, last, heq, -⟩ | ⟨fault, heq, -⟩
    · rw [Except.ok.inj (hscan.symm.trans heq)]
      exact List.append_ne_nil_of_right_ne_nil _ (List.cons_ne_nil _ _)
    · cases hscan.symm.trans heq
  have hread : ∀ {source tokens}, Token.scan source = .ok tokens →
      Grammar.read source = Grammar.parse tokens := by
    intro source tokens hscan
    rw [Grammar.read, hscan]
    rfl
  rw [hread hscan, hread hscan']
  exact agree_parse h hne

/-- The code of programs that have been resolved alike, and why one is refused. -/
theorem agree_emit {parsed parsed' : Forest} {root : NodeId} {resolution resolution' : Resolution}
    (hparsed : parsed.Parsed root) (hparsed' : parsed'.Parsed root)
    (hresolved : Resolved parsed root resolution) (hresolved' : Resolved parsed' root resolution')
    (hline : parsed.line root = 1) (h : L.SameResolution ∅ resolution resolution') :
    L.Agree
      (fun compiled compiled' => L.SameCode compiled.code compiled'.code ∧
        L.SameSession compiled.session compiled'.session)
      (Emit.compile resolution.forest resolution.table resolution.session)
      (Emit.compile resolution'.forest resolution'.table resolution'.session) := by
  have hroot : resolution.forest.root = some root := hresolved.grown.root_eq.trans hparsed.root_eq
  have hline : resolution.forest.line root = 1 :=
    (hresolved.grown.line root hparsed.lt_size).trans hline
  have hcompile := agree_compile h.forest.toSameForest h.forest.lined h.table h.session fun other hother => by
    rwa [Option.some.inj (hother.symm.trans hroot)]
  have hmain : L.Agree L.SameLabel _ (Emit.mainLabel resolution'.forest resolution'.table root) :=
    agree_mainLabel h.table hline
  generalize hanswer : Emit.compile resolution.forest resolution.table resolution.session = answer,
    hanswer' : Emit.compile resolution'.forest resolution'.table resolution'.session = answer' at hcompile ⊢
  cases hcompile with
  | ok h => exact .ok h
  | error =>
    rw [hresolved.mainLabel_of_refused hparsed hanswer, hresolved'.mainLabel_of_refused hparsed' hanswer']
      at hmain
    cases hmain with
    | error hfault => exact .error hfault

/-- Sources with tokens alike are compiled alike. -/
theorem agree_compileSource (hscan : Token.scan source = .ok tokens)
    (hscan' : Token.scan source' = .ok tokens') (h : List.Forall₂ L.SameToken tokens tokens') :
    L.Agree L.SameProgram (MiniC.compile source) (MiniC.compile source') := by
  have hread := agree_read hscan hscan' h
  have hparsed := Grammar.read_cases source
  have hparsed' := Grammar.read_cases source'
  have hline := @Grammar.line_root_of_read source
  unfold MiniC.compile
  generalize Grammar.read source = answer, Grammar.read source' = answer' at hread hparsed hparsed' hline ⊢
  cases hread with
  | error hfault => exact .error hfault
  | @ok parsed parsed' hforest =>
    obtain ⟨_, root, heq, hparsed⟩ := hparsed.resolve_right nofun
    obtain rfl := Except.ok.inj heq
    obtain ⟨_, root', heq, hparsed'⟩ := hparsed'.resolve_right nofun
    obtain rfl := Except.ok.inj heq
    obtain rfl : root' = root := by
      have hroot := hparsed'.root_eq
      rw [hforest.1.root, hparsed.root_eq] at hroot
      exact (Option.some.inj hroot).symm
    have hanalyse := agree_analyse hforest.1 hforest.2
    have hresolved := analyse_cases hparsed {}
    have hresolved' := analyse_cases hparsed' {}
    simp only [Bind.bind, Except.bind]
    generalize analyse parsed {} = answer, analyse parsed' {} = answer' at hanalyse hresolved hresolved' ⊢
    cases hanalyse with
    | error hfault => exact .error hfault
    | @ok resolution resolution' hresolution =>
      obtain ⟨_, heq, hresolved⟩ := hresolved.resolve_right nofun
      obtain rfl := Except.ok.inj heq
      obtain ⟨_, heq, hresolved'⟩ := hresolved'.resolve_right nofun
      obtain rfl := Except.ok.inj heq
      refine (agree_emit hparsed hparsed' hresolved hresolved' (hline rfl hparsed.root_eq) hresolution).bind fun compiled compiled' h => ?_
      exact .ok ⟨h.1, h.2.warnings⟩

end MiniC.Likeness
