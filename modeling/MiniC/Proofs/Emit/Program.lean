import MiniC.Proofs.Emit.Statement

/-!
# Code of programs can be made

The code of a laid-out program is made of the parts that `Sections` holds. Making it is never
refused: all that can be wrong with a resolved program is its `main`.
-/

namespace MiniC

open Machine Forest Emit Ensures

/-- What a resolved program can be refused for. -/
def Fault.AboutMain (fault : Fault) : Prop :=
  fault.cause = .missingMain ∨ ∃ reason, fault.cause = .invalidMain reason

namespace Emit

/-- The parts of the code of a program. -/
structure Sections where
  main : Label
  /-- The initializers of the global variables. -/
  initial : List Item
  /-- The functions, in the order in which they stand. -/
  functions : List (List Item)
  library : Code

/-- The code of a program. -/
def Sections.code (sections : Sections) (layout : Layout) (root : NodeId) : Code :=
  [.ssp (layout.sizeOf none)] ++ strings layout root ++ codeOf sections.initial ++
    [.mst 0, .cup 0 sections.main, .hlt] ++ codeOf sections.functions.flatten ++ sections.library

/-- The label of a function `main` that a program can start with. -/
structure IsMain (table : SymbolTable) (s : SymbolId) (signature : Signature) : Prop where
  lookup_eq : table.lookupFile "main" = some s
  signature_eq : (table.symbol s).signature? = some signature
  void : (table.symbol s).type.isVoid
  params : signature.params = []
  defined : signature.defined = true

/-- The parts of the code of a program are right; `session` is the session before the code is made,
`session'` the one behind it. -/
structure Sections.Right (sections : Sections) (layout : Layout) (root : NodeId)
    (session session' : Session) : Prop where
  main : ∃ s signature, IsMain layout.table s signature ∧ sections.main = signature.label
  initial : Lowered layout root (.statements (layout.forest.frameVariables root none)) sections.initial
  functions : List.Forall₂ (Sectioned layout root) (layout.forest.definitions root)
    sections.functions
  library : ∃ output : Output, Extends (VoidFree layout.forest root) { session } output
      (codeOf sections.initial ++ codeOf sections.functions.flatten) ∧
    routines output.session (Routine.closure output.used) = (sections.library, session')

theorem IsMain.moved {table table' : SymbolTable} {s : SymbolId} {signature : Signature}
    (h : IsMain table s signature) (hm : table.Moved table') : IsMain table' s signature :=
  ⟨(hm.lookupFile_eq _).trans h.lookup_eq, (hm.signature?_eq s).trans h.signature_eq,
    hm.type_eq s ▸ h.void, h.params, h.defined⟩

/-- A program can start with its `main`, or is refused because of it. -/
theorem mainLabel_cases (forest : Forest) (table : SymbolTable) (root : NodeId) :
    (∃ s signature, IsMain table s signature ∧
      mainLabel forest table root = .ok signature.label) ∨
    ∃ fault, mainLabel forest table root = .error fault ∧ fault.AboutMain := by
  unfold mainLabel
  split
  · exact .inr ⟨_, rfl, .inl rfl⟩
  · next s hlookup =>
    simp only []
    split
    · exact .inr ⟨_, rfl, .inr ⟨_, rfl⟩⟩
    · next signature hsignature =>
      split_ifs with hvoid hparams hdefined
      · exact .inr ⟨_, rfl, .inr ⟨_, rfl⟩⟩
      · exact .inr ⟨_, rfl, .inr ⟨_, rfl⟩⟩
      · exact .inr ⟨_, rfl, .inr ⟨_, rfl⟩⟩
      · exact .inl ⟨s, signature, ⟨hlookup, hsignature, by simpa using hvoid, by simpa using hparams,
          by simpa using hdefined⟩, rfl⟩

end Emit

namespace Laid

variable {root f : NodeId} {resolution : Resolution} {layout : Layout}
  (h : Laid root resolution layout)

include h

/-- The code of the global variables. -/
theorem lays_globals :
    Lays layout root (.statements (layout.forest.frameVariables root none)) (globals layout root) := by
  refine lays_inOrder fun d hd => ?_
  obtain ⟨hmem, hdecl⟩ := List.mem_filter.mp hd
  exact h.lays_statement (.of_mem hmem) (Kind.isStatement_of_isDeclaration hdecl)

/-- The code of a function. -/
theorem ensures_function (hf : f ∈ layout.forest.definitions root) (output : Output) :
    Ensures (function layout f) output Fault.Never fun code output' =>
      ∃ items, code = codeOf items ∧ Sectioned layout root f items ∧
        Extends (VoidFree layout.forest root) output output' code := by
  obtain ⟨hroot, hfun, -⟩ := (mem_definitions h.sound.whole.ranked).mp hf
  obtain ⟨result, params, body, hchildren, -, -, hbody⟩ := h.sound.whole.exists_body hf
  obtain ⟨name, symbol, hk⟩ : ∃ name symbol, layout.forest.kind f = .function name symbol := by
    cases hk : layout.forest.kind f <;> simp_all [Kind.isFunction]
  have hrule := (h.sound.statement f hroot (by rw [role, hk]; trivial)).rule
  unfold StatementRule at hrule
  simp only [hk] at hrule
  obtain ⟨s, signature, -, rfl, -, hsignature, -⟩ := hrule
  have hsymbol : (layout.forest.kind f).symbol? = some s := by
    rw [hk]
    rfl
  have hbelow : layout.forest.Below body root :=
    (Below.of_mem (by simp [hchildren])).trans hroot
  have hstatements : ∀ c ∈ layout.forest.children body, (layout.forest.role c).IsStatement := by
    intro c hc
    have hholds := h.sound.whole.shaped body
    rw [Kind.eq_block hbody] at hholds
    exact hholds _ (List.mem_map_of_mem hc)
  simp only [function, bind_iff]
  rw [ensures_symbolOf hsymbol]
  simp only [hsignature, bind_iff, pure_iff]
  rw [ensures_child (c := body) (by simp [child?, hchildren])]
  refine (lays_inOrder (fun c hc => h.lays_statement ((Below.of_mem hc).trans hbelow)
    (hstatements c hc)) output).imp ?_
  rintro _ output₁ ⟨items, rfl, hitems, hout₁⟩
  refine ⟨_, ?_, .intro hf hsymbol hsignature hchildren hitems, hout₁.congr ?_⟩
  · simp [Item.code]
  · cases hvoid : (layout.table.symbol s).type.isVoid <;> simp [Instr.routine?]

/-- The code of functions one behind the other. -/
theorem ensures_functions {fs : List NodeId} (hfs : ∀ f ∈ fs, f ∈ layout.forest.definitions root) :
    ∀ output, Ensures (inOrder (function layout) fs) output Fault.Never fun code output' =>
      ∃ functions, code = codeOf functions.flatten ∧
        List.Forall₂ (Sectioned layout root) fs functions ∧
        Extends (VoidFree layout.forest root) output output' code := by
  induction fs with
  | nil => exact fun output => ⟨[], rfl, .nil, .refl rfl⟩
  | cons f fs ih =>
    obtain ⟨hf, hfs⟩ := List.forall_mem_cons.mp hfs
    intro output
    simp only [inOrder, bind_iff, pure_iff]
    refine (h.ensures_function hf output).imp ?_
    rintro _ output₁ ⟨items, rfl, hitems, hout₁⟩
    refine (ih hfs output₁).imp ?_
    rintro _ output₂ ⟨rest, rfl, hrest, hout₂⟩
    exact ⟨items :: rest, by simp, .cons hitems hrest, hout₁.trans hout₂⟩

/-- The code of a program can be made. -/
theorem ensures_program {s : SymbolId} {signature : Signature} (session : Session)
    (hmain : IsMain layout.table s signature) :
    Ensures (program layout root signature.label) { session } Fault.Never fun code output =>
      ∃ sections : Sections, code = sections.code layout root ∧
        sections.Right layout root session output.session := by
  simp only [program, bind_iff, pure_iff]
  refine (h.lays_globals { session }).imp ?_
  rintro _ output₁ ⟨initial, rfl, hinitial, hout₁⟩
  refine (h.ensures_functions (fun _ hf => hf) output₁).imp ?_
  rintro _ output₂ ⟨functions, rfl, hfunctions, hout₂⟩
  rw [library, modifyGet_iff]
  exact ⟨⟨_, initial, functions, _⟩, rfl, ⟨s, signature, hmain, rfl⟩, hinitial, hfunctions, output₂,
    hout₁.trans hout₂, rfl⟩

end Laid

namespace Emit

/-! ## Frames -/

/-- The code of the frame of the file. -/
def Sections.fileCode (sections : Sections) (layout : Layout) (root : NodeId) : Code :=
  [.ssp (layout.sizeOf none)] ++ strings layout root ++ codeOf sections.initial ++
    [.mst 0, .cup 0 sections.main, .hlt]

/-- The frames of a program with their code: that of the file, then those of the functions. -/
def Sections.frames (sections : Sections) (layout : Layout) (root : NodeId) :
    List (Option NodeId × Code) :=
  (none, sections.fileCode layout root) ::
    List.zipWith (fun f items => (some f, codeOf items)) (layout.forest.definitions root)
      sections.functions

section Frames

variable {layout : Layout} {root : NodeId} {sections : Sections} {session session' : Session}

/-- The code of a program is that of its frames, and the library behind it. -/
theorem Sections.Right.code_eq (h : sections.Right layout root session session') :
    sections.code layout root =
      (sections.frames layout root).flatMap (·.2) ++ sections.library := by
  have hfunctions : ∀ {fs : List NodeId} {functions : List (List Item)},
      List.Forall₂ (Sectioned layout root) fs functions →
      (List.zipWith (fun f items => (some f, codeOf items)) fs functions).flatMap (·.2) =
        codeOf functions.flatten := by
    intro fs functions hfs
    induction hfs with
    | nil => rfl
    | cons _ _ ih => simp [ih]
  simp [Sections.code, Sections.frames, Sections.fileCode, hfunctions h.functions]

/-- The frames of a program are those of the file and of the functions with a body. -/
theorem Sections.Right.frames_eq (h : sections.Right layout root session session') :
    (sections.frames layout root).map (·.1) =
      none :: (layout.forest.definitions root).map some := by
  have hfunctions : ∀ {fs : List NodeId} {functions : List (List Item)},
      List.Forall₂ (Sectioned layout root) fs functions →
      (List.zipWith (fun f items => (some f, codeOf items)) fs functions).map (·.1) =
        fs.map some := by
    intro fs functions hfs
    induction hfs with
    | nil => rfl
    | cons _ _ ih => simp [ih]
  simp [Sections.frames, hfunctions h.functions]

theorem Sections.Right.cases_of_mem (h : sections.Right layout root session session')
    {frame : Option NodeId × Code} (hframe : frame ∈ sections.frames layout root) :
    frame = (none, sections.fileCode layout root) ∨
      ∃ f items, frame = (some f, codeOf items) ∧ Sectioned layout root f items := by
  have hfunctions : ∀ {fs : List NodeId} {functions : List (List Item)},
      List.Forall₂ (Sectioned layout root) fs functions →
      frame ∈ List.zipWith (fun f items => (some f, codeOf items)) fs functions →
      ∃ f items, frame = (some f, codeOf items) ∧ Sectioned layout root f items := by
    intro fs functions hfs
    induction hfs with
    | nil => simp
    | @cons f items _ _ hf _ ih =>
      intro hmem
      rcases List.mem_cons.mp hmem with rfl | hmem
      · exact ⟨f, items, rfl, hf⟩
      · exact ih hmem
  rcases List.mem_cons.mp hframe with rfl | hmem
  · exact .inl rfl
  · exact .inr (hfunctions h.functions hmem)

end Frames

end Emit

/-- A resolved program with a `main` is compiled. -/
theorem Resolved.exists_compiled {parsed : Forest} {root : NodeId} {resolution : Resolution}
    (hparsed : parsed.Parsed root) (h : Resolved parsed root resolution) (session : Session) {s : SymbolId}
    {signature : Signature} (hmain : IsMain resolution.table s signature)
    (hlabel : mainLabel resolution.forest resolution.table root = .ok signature.label) :
    ∃ compiled, Emit.compile resolution.forest resolution.table session = .ok compiled ∧
      Laid root resolution compiled.layout ∧ ∃ sections : Sections,
        compiled.code = sections.code compiled.layout root ∧
        sections.Right compiled.layout root session compiled.session := by
  have hroot := (h.sound hparsed).whole.root_eq
  obtain ⟨layout, hlayout, hlaid⟩ := h.exists_laid hparsed
  obtain ⟨code, output, hprogram, sections, hcode, hright⟩ :=
    (hlaid.ensures_program session (hmain.moved hlaid.moved)).exists_ok
  refine ⟨⟨code, layout, output.session⟩, ?_, hlaid, sections, hcode, hright⟩
  simp only [Emit.compile, hroot, hlabel, hlayout, Bind.bind, Except.bind, hprogram]

/-- A resolved program is compiled, or refused because of its `main`. -/
theorem Resolved.compile_cases {parsed : Forest} {root : NodeId} {resolution : Resolution}
    (hparsed : parsed.Parsed root) (h : Resolved parsed root resolution) (session : Session) :
    (∃ compiled, Emit.compile resolution.forest resolution.table session = .ok compiled ∧
      Laid root resolution compiled.layout ∧ ∃ sections : Sections,
        compiled.code = sections.code compiled.layout root ∧
        sections.Right compiled.layout root session compiled.session) ∨
    ∃ fault, Emit.compile resolution.forest resolution.table session = .error fault ∧
      fault.AboutMain := by
  have hroot := (h.sound hparsed).whole.root_eq
  rcases mainLabel_cases resolution.forest resolution.table root with
    ⟨s, signature, hmain, hlabel⟩ | ⟨fault, hlabel, hfault⟩
  · exact .inl (h.exists_compiled hparsed session hmain hlabel)
  · refine .inr ⟨fault, ?_, hfault⟩
    simp only [Emit.compile, hroot, hlabel, Bind.bind, Except.bind]

/-- A resolved program that is refused has been asked for its `main` in vain. -/
theorem Resolved.mainLabel_of_refused {parsed : Forest} {root : NodeId} {resolution : Resolution}
    (hparsed : parsed.Parsed root) (h : Resolved parsed root resolution) {session : Session} {fault : Fault}
    (hcompile : Emit.compile resolution.forest resolution.table session = .error fault) :
    mainLabel resolution.forest resolution.table root = .error fault := by
  have hroot := (h.sound hparsed).whole.root_eq
  rcases mainLabel_cases resolution.forest resolution.table root with
    ⟨s, signature, hmain, hlabel⟩ | ⟨other, hlabel, -⟩
  · obtain ⟨compiled, hok, -⟩ := h.exists_compiled hparsed session hmain hlabel
    cases hok.symm.trans hcompile
  · simp only [Emit.compile, hroot, hlabel, Bind.bind, Except.bind] at hcompile
    rw [hlabel, Except.error.inj hcompile]

end MiniC
