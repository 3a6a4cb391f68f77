import MiniC.Compile
import MiniC.Proofs.Emit.Program
import MiniC.Proofs.Grammar.Statement

/-!
# Compilations

Every source is compiled or refused, and never because its tree is malformed. A `Compilation` of a
source holds what the passes have made of it. What is right about the outcome of one pass is what the
next one relies on.
-/

namespace MiniC

open Forest

/-- Warnings draw no labels. -/
theorem Forest.drawn_warnReturns (forest : Forest) (session : Session) :
    (forest.warnReturns session).drawn = session.drawn := by
  unfold warnReturns
  split
  · rfl
  · refine List.foldlRecOn (motive := fun other : Session => other.drawn = session.drawn) _ _ rfl ?_
    intro other hother id _
    split <;> exact hother

/-- Analysing a parsed program is refused with an ordinary fault only, and what it ends with is
resolved. -/
theorem analyse_cases {parsed : Forest} {root : NodeId} (hparsed : parsed.Parsed root)
    (session : Session) :
    (∃ resolution, analyse parsed session = .ok resolution ∧ Resolved parsed root resolution) ∨
    ∃ fault, analyse parsed session = .error fault ∧ fault.Ordinary := by
  rcases Resolve.program_cases hparsed session with
    ⟨resolution, hprogram, h, -⟩ | ⟨fault, hprogram, hfault⟩
  · refine .inl ⟨_, by simp only [analyse, hprogram]; rfl, ?_⟩
    have hdrawn := drawn_warnReturns resolution.forest resolution.session
    exact { h with labelled := hdrawn ▸ h.labelled, declared := hdrawn ▸ h.declared }
  · exact .inr ⟨fault, by simp only [analyse, hprogram]; rfl, hfault⟩

theorem Fault.AboutMain.ordinary {fault : Fault} (h : fault.AboutMain) : fault.Ordinary := by
  rintro message hcause
  rcases h with h | ⟨reason, h⟩ <;> simp [hcause] at h

/-- What the passes make of a source. -/
structure Compilation (source : String) where
  parsed : Forest
  root : NodeId
  resolution : Resolution
  compiled : Compiled
  read_eq : Grammar.read source = .ok parsed
  root_eq : parsed.root = some root
  analyse_eq : analyse parsed {} = .ok resolution
  compile_eq : Emit.compile resolution.forest resolution.table resolution.session = .ok compiled

namespace Compilation

variable {source : String} (c : Compilation source)

/-- The program that a source is compiled to. -/
def program : Program := { code := c.compiled.code, warnings := c.compiled.session.warnings }

/-- The program that has been laid out. -/
abbrev layout : Layout := c.compiled.layout

theorem isParsed : c.parsed.Parsed c.root := by
  rcases Grammar.read_cases source with ⟨parsed, root, hread, hparsed⟩ | ⟨fault, hread, -⟩
  · obtain rfl : parsed = c.parsed := Except.ok.inj (hread.symm.trans c.read_eq)
    obtain rfl : root = c.root := Option.some.inj (hparsed.root_eq.symm.trans c.root_eq)
    exact hparsed
  · cases hread.symm.trans c.read_eq

theorem isResolved : Resolved c.parsed c.root c.resolution := by
  rcases analyse_cases c.isParsed {} with ⟨resolution, hanalyse, h⟩ | ⟨fault, hanalyse, -⟩
  · obtain rfl : resolution = c.resolution := Except.ok.inj (hanalyse.symm.trans c.analyse_eq)
    exact h
  · cases hanalyse.symm.trans c.analyse_eq

theorem exists_sections : Laid c.root c.resolution c.layout ∧ ∃ sections : Emit.Sections,
    c.program.code = sections.code c.layout c.root ∧
      sections.Right c.layout c.root c.resolution.session c.compiled.session := by
  rcases c.isResolved.compile_cases c.isParsed c.resolution.session with
    ⟨compiled, hcompile, h⟩ | ⟨fault, hcompile, -⟩
  · obtain rfl : compiled = c.compiled := Except.ok.inj (hcompile.symm.trans c.compile_eq)
    exact h
  · cases hcompile.symm.trans c.compile_eq

theorem isLaid : Laid c.root c.resolution c.layout := c.exists_sections.1

/-- The parts that the code of the program is made of. -/
noncomputable def sections : Emit.Sections := c.exists_sections.2.choose

theorem code_eq : c.program.code = c.sections.code c.layout c.root :=
  c.exists_sections.2.choose_spec.1

theorem isRight :
    c.sections.Right c.layout c.root c.resolution.session c.compiled.session :=
  c.exists_sections.2.choose_spec.2

/-- The frames of the program with their code. -/
noncomputable def frames : List (Option NodeId × Machine.Code) := c.sections.frames c.layout c.root

/-- The code of a program is that of its frames, the file and the functions with a body, and the
library behind it. -/
theorem frames_eq : c.program.code = c.frames.flatMap (·.2) ++ c.sections.library ∧
    c.frames.map (·.1) = none :: (c.layout.forest.definitions c.root).map some :=
  ⟨c.code_eq.trans c.isRight.code_eq, c.isRight.frames_eq⟩

end Compilation

/-- A source is compiled, or refused with an ordinary fault. -/
theorem compile_cases (source : String) :
    (∃ c : Compilation source, compile source = .ok c.program) ∨
      ∃ fault, compile source = .error fault ∧ fault.Ordinary := by
  simp only [compile, Bind.bind, Except.bind]
  rcases Grammar.read_cases source with ⟨parsed, root, hread, hparsed⟩ | ⟨fault, hread, hfault⟩
  · simp only [hread]
    rcases analyse_cases hparsed {} with ⟨resolution, hanalyse, h⟩ | ⟨fault, hanalyse, hfault⟩
    · simp only [hanalyse]
      rcases h.compile_cases hparsed resolution.session with
        ⟨compiled, hcompile, -⟩ | ⟨fault, hcompile, hfault⟩
      · simp only [hcompile]
        exact .inl ⟨⟨parsed, root, resolution, compiled, hread, hparsed.root_eq, hanalyse, hcompile⟩,
          rfl⟩
      · simp only [hcompile]
        exact .inr ⟨fault, rfl, hfault.ordinary⟩
    · simp only [hanalyse]
      exact .inr ⟨fault, rfl, hfault⟩
  · simp only [hread]
    exact .inr ⟨fault, rfl, hfault⟩

/-- A source that is compiled has a compilation. -/
theorem compile_eq_ok_iff {source : String} {program : Program} :
    compile source = .ok program ↔ ∃ c : Compilation source, c.program = program := by
  constructor
  · intro hok
    rcases compile_cases source with ⟨c, hc⟩ | ⟨fault, herror, -⟩
    · exact ⟨c, Except.ok.inj (hc.symm.trans hok)⟩
    · cases herror.symm.trans hok
  · rintro ⟨c, rfl⟩
    simp only [compile, Bind.bind, Except.bind, c.read_eq, c.analyse_eq, c.compile_eq]
    rfl

/-- What the passes make of a source, one after the other, is what a compilation holds. -/
theorem exists_compilation_of_any (source : String) (p : Compiled → Bool)
    (h : (((Grammar.read source).bind (analyse · {})).bind fun resolution =>
      Emit.compile resolution.forest resolution.table resolution.session).toOption.any p) :
    ∃ c : Compilation source, p c.compiled := by
  rcases Grammar.read_cases source with ⟨parsed, root, hread, hparsed⟩ | ⟨fault, hread, -⟩
  · cases hanalyse : analyse parsed {} with
    | error fault => simp [hread, hanalyse, Except.bind, Except.toOption] at h
    | ok resolution =>
      cases hcompile : Emit.compile resolution.forest resolution.table resolution.session with
      | error fault => simp [hread, hanalyse, hcompile, Except.bind, Except.toOption] at h
      | ok compiled =>
        refine ⟨⟨parsed, root, resolution, compiled, hread, hparsed.root_eq, hanalyse, hcompile⟩, ?_⟩
        simpa [hread, hanalyse, hcompile, Except.bind, Except.toOption] using h
  · simp [hread, Except.bind, Except.toOption] at h

end MiniC
