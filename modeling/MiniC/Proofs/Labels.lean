import MiniC.Proofs.Compile
import MiniC.Proofs.Emit.Targets

/-!
# Labels of programs

No label of a program is defined twice, not even one with the same text, and every jump and every call
leads to a label that is defined. The labels of statements have numbers that resolution has drawn, those
of functions have numbers that belong to one symbol each, and those of library routines have numbers
that are drawn last.
-/

namespace MiniC

open Machine Forest Emit

namespace Machine.Label

/-- A label of a program: what is known by its text alone is a routine of the library. -/
def Regular : Label → Prop
  | named text => text ∈ Routine.catalog.map (·.name)
  | jump _ | function .. => True

theorem not_underscore (number : Nat) : ∀ c ∈ (toString number).toList, c ≠ '_' := by
  rintro c hc rfl
  exact Nat.underscore_not_in_toDigits (Nat.toList_repr (n := number) ▸ hc)

theorem digits_injective {number number' : Nat}
    (h : (toString number).toList = (toString number').toList) : number = number' := by
  simp only [Nat.toString_eq_repr, Nat.toList_repr] at h
  rw [← Nat.ofDigitChars_ten_toDigits (n := number), h, Nat.ofDigitChars_ten_toDigits]

theorem text_jump (number : Nat) : (jump number).text.toList = 'l' :: (toString number).toList := by
  simp [text]

theorem text_function (name : String) (number : Nat) :
    (function name number).text.toList = name.toList ++ '_' :: (toString number).toList := by
  simp [text]

/-- The number behind the last underscore. -/
theorem takeWhile_text_function (name : String) (number : Nat) :
    (function name number).text.toList.reverse.takeWhile (· != '_') =
      (toString number).toList.reverse := by
  have hdigits : ∀ c ∈ (toString number).toList.reverse, (c != '_') = true := fun c hc =>
    bne_iff_ne.mpr (not_underscore number c (List.mem_reverse.mp hc))
  rw [text_function, List.reverse_append, List.reverse_cons, List.append_assoc,
    List.takeWhile_append_of_pos hdigits]
  simp

/-- The names of routines do not look like other labels. -/
theorem catalog_text {text : String} (h : text ∈ Routine.catalog.map (·.name)) :
    '_' ∉ text.toList ∧ text.toList.head? ≠ some 'l' := by
  have hall : (Routine.catalog.map (·.name)).all fun text =>
      '_' ∉ text.toList && text.toList.head? ≠ some 'l' := by decide +kernel
  simpa using List.all_eq_true.mp hall text h

/-- Different labels of programs have different texts. -/
theorem eq_of_text_eq {label label' : Label} (h : label.Regular) (h' : label'.Regular)
    (heq : label.text = label'.text) : label = label' := by
  have hmixed : ∀ number name number', (jump number).text ≠ (function name number').text := by
    intro number name number' heq
    have hmem : '_' ∈ (jump number).text.toList := by simp [heq, text_function]
    rw [text_jump] at hmem
    rcases List.mem_cons.mp hmem with hmem | hmem
    · cases hmem
    · exact not_underscore number _ hmem rfl
  have hjump : ∀ number text, text ∈ Routine.catalog.map (·.name) → (jump number).text ≠ text := by
    rintro number _ hmem rfl
    exact (catalog_text hmem).2 (by rw [text_jump]; rfl)
  have hfunction : ∀ name number text, text ∈ Routine.catalog.map (·.name) →
      (function name number).text ≠ text := by
    rintro name number _ hmem rfl
    exact (catalog_text hmem).1 (by simp [text_function])
  cases label with
  | jump number =>
    cases label' with
    | jump number' =>
      have hlist := congrArg String.toList heq
      rw [text_jump, text_jump] at hlist
      rw [digits_injective (List.cons.inj hlist).2]
    | function => exact absurd heq (hmixed _ _ _)
    | named => exact absurd heq (hjump _ _ h')
  | function name number =>
    cases label' with
    | jump => exact absurd heq.symm (hmixed _ _ _)
    | function name' number' =>
      have htake := takeWhile_text_function name number
      rw [heq, takeWhile_text_function, List.reverse_inj] at htake
      obtain rfl := digits_injective htake
      have hlist := congrArg String.toList heq
      rw [text_function, text_function] at hlist
      rw [String.toList_inj.mp (List.append_cancel_right hlist)]
    | named => exact absurd heq (hfunction _ _ _ h')
  | named text =>
    cases label' with
    | jump => exact absurd heq.symm (hjump _ _ h)
    | function => exact absurd heq.symm (hfunction _ _ _ h)
    | named => exact congrArg named heq

end Machine.Label

namespace Emit

variable {layout : Layout} {root f : NodeId} {sections : Sections} {drawn : Nat}
  {session session' : Session} {items : List Item} {label : Label}

/-! ## Frames -/

/-- Declarations are initialized and nothing else. -/
theorem Lowered.events {ds : List NodeId} (h : Lowered layout root (.statements ds) items)
    (hds : ∀ d ∈ ds, (layout.forest.kind d).isDeclaration) :
    ∀ item ∈ items, ∃ event code, item = .event event code := by
  induction ds generalizing items with
  | nil =>
    cases h
    exact List.forall_mem_nil _
  | cons d ds ih =>
    obtain ⟨hd, hds⟩ := List.forall_mem_cons.mp hds
    cases h with
    | cons hitems hothers =>
      refine List.forall_mem_append.mpr ⟨?_, ih hothers hds⟩
      rcases hitems.cases_of_declaration hd with ⟨rfl, -⟩ | ⟨_, _, _, _, _, _, _, rfl⟩ |
        ⟨_, _, _, _, _, _, _, _, _, _, _, rfl⟩
      · exact List.forall_mem_nil _
      · exact List.forall_mem_singleton.mpr ⟨_, _, rfl⟩
      · exact List.forall_mem_singleton.mpr ⟨_, _, rfl⟩

theorem plain_storeChars (slot : Nat) (cs : List Char) :
    ∀ instr ∈ storeChars slot cs, instr.isPlain ∧ instr.target? = none := by
  induction cs generalizing slot with
  | nil => exact List.forall_mem_nil _
  | cons c cs ih =>
    simp only [storeChars, List.forall_mem_append, List.forall_mem_cons]
    exact ⟨⟨⟨rfl, rfl⟩, ⟨rfl, rfl⟩, List.forall_mem_nil _⟩, ih (slot + 1)⟩

theorem plain_strings (layout : Layout) (root : NodeId) :
    ∀ instr ∈ strings layout root, instr.isPlain ∧ instr.target? = none := by
  intro instr hinstr
  obtain ⟨id, -, hinstr⟩ := List.mem_flatMap.mp hinstr
  split at hinstr
  · exact plain_storeChars _ _ instr hinstr
  · cases hinstr

/-- The initializers of the global variables run from the first to the last instruction. -/
theorem Sections.Right.plain_initial (h : sections.Right layout root session session') :
    ∀ instr ∈ codeOf sections.initial, instr.isPlain := by
  intro instr hinstr
  obtain ⟨item, hitem, hinstr⟩ := List.mem_flatMap.mp hinstr
  obtain ⟨event, code, rfl⟩ := h.initial.events
    (fun d hd => (List.mem_filter.mp hd).2) item hitem
  exact h.initial.proper _ hitem instr hinstr

/-- Nothing in the code of the file is jumped to. -/
theorem Sections.Right.labels_fileCode (h : sections.Right layout root session session') :
    (sections.fileCode layout root).labels = [] := by
  simp only [fileCode, Code.labels_append, labels_plain h.plain_initial,
    labels_plain fun instr hinstr => (plain_strings layout root instr hinstr).1]
  rfl

/-- The labels of the code of a function: its own, and those of the statements in it. -/
structure Headed (layout : Layout) (f : NodeId) (labels : List Label) : Prop where
  nodup : labels.Nodup
  origin : ∀ label ∈ labels,
    (∃ s signature, (layout.forest.kind f).symbol? = some s ∧
      (layout.table.symbol s).signature? = some signature ∧ signature.label = label) ∨
    ∃ n, layout.forest.owningFunction n = some f ∧ label ∈ (layout.forest.kind n).ownLabels
  head : ∀ s signature, (layout.forest.kind f).symbol? = some s →
    (layout.table.symbol s).signature? = some signature → signature.label ∈ labels

/-- A function with a body is a function of the program whose label has been drawn. -/
theorem exists_label (h : Sound root layout.forest layout.table drawn)
    (hf : f ∈ layout.forest.definitions root) {s : SymbolId} {signature : Signature}
    (hsymbol : (layout.forest.kind f).symbol? = some s)
    (hsignature : (layout.table.symbol s).signature? = some signature) :
    s < layout.table.size ∧ signature.builtin = false ∧
      ∃ number < drawn, signature.label = .function (layout.table.symbol s).name number := by
  obtain ⟨-, hfun, hbody⟩ := (mem_definitions h.whole.ranked).mp hf
  have hrole : layout.forest.role f = .function := Kind.role_eq_function.mpr hfun
  obtain ⟨hs, signature', hsignature', hown⟩ := h.declared.bound_function f s hrole hsymbol
  obtain rfl := Option.some.inj (hsignature.symm.trans hsignature')
  have hlength : 2 < (layout.forest.children f).length := by simpa [child?] using hbody
  obtain ⟨hbuiltin, -⟩ := hown hlength
  refine ⟨hs, hbuiltin, ?_⟩
  rcases (h.declared.function s hs signature hsignature).origin with ⟨h', -⟩ | ⟨-, -, hlabel, -⟩
  · simp [hbuiltin] at h'
  · exact hlabel

theorem Sectioned.headed (h : Sectioned layout root f items)
    (hsound : Sound root layout.forest layout.table drawn) :
    Headed layout f (codeOf items).labels := by
  obtain ⟨hf, hsymbol, hsignature, hchildren, hbody⟩ := h
  next s signature result params body items =>
  have hwhole := hsound.whole
  obtain ⟨-, hfun, -⟩ := (mem_definitions hwhole.ranked).mp hf
  have howner : layout.forest.owningFunction body = some f := by
    rw [owningFunction_of_mem_children hwhole.linked hwhole.ranked
      (show body ∈ layout.forest.children f by simp [hchildren]), around_of_function hfun]
  obtain ⟨_, _, body', hchildren', -, -, hrole⟩ := hwhole.exists_body hf
  obtain rfl : body = body' := by simp_all
  have hpiece : ∀ c ∈ layout.forest.children body, layout.forest.owningFunction c = some f :=
    fun c hc => owner_of_mem hwhole (by rw [Kind.eq_block hrole]; rfl) howner hc
  have hmarks := hbody.marks hwhole hsound.labelled hpiece
    ⟨hwhole.linked.nodup body, body, List.Subset.refl _⟩
  obtain ⟨-, -, number, -, hlabel⟩ := exists_label hsound hf hsymbol hsignature
  have hcode : (codeOf ([.control (.label signature.label), .control (.ssp (layout.sizeOf (some f)))] ++
      items ++ [.leave false (if (layout.table.symbol s).type.isVoid then .retp else .retf)])).labels =
      signature.label :: (codeOf items).labels := by
    cases (layout.table.symbol s).type.isVoid <;> simp [Item.code, Instr.defined?]
  rw [hcode]
  refine ⟨List.nodup_cons.mpr ⟨fun hmem => ?_, hmarks.nodup⟩, fun label hmem => ?_, ?_⟩
  · obtain ⟨n, -, -, hown⟩ := hmarks.origin _ hmem
    obtain ⟨number', -, heq⟩ := hsound.labelled.drawn n _ hown
    cases hlabel.symm.trans heq
  · rcases List.mem_cons.mp hmem with rfl | hmem
    · exact .inl ⟨s, signature, hsymbol, hsignature, rfl⟩
    · obtain ⟨n, -, howner, hown⟩ := hmarks.origin _ hmem
      exact .inr ⟨n, howner, hown⟩
  · intro s' signature' hsymbol' hsignature'
    obtain rfl := Option.some.inj (hsymbol.symm.trans hsymbol')
    obtain rfl := Option.some.inj (hsignature.symm.trans hsignature')
    exact List.mem_cons_self

/-- Different functions share no label. -/
theorem Headed.disjoint {f' : NodeId} {labels labels' : List Label} (h : Headed layout f labels)
    (h' : Headed layout f' labels') (hsound : Sound root layout.forest layout.table drawn)
    (hf : f ∈ layout.forest.definitions root) (hf' : f' ∈ layout.forest.definitions root)
    (hne : f ≠ f') : labels.Disjoint labels' := by
  have hhead : ∀ {f}, f ∈ layout.forest.definitions root →
      layout.forest.role f = .function ∧ 2 < (layout.forest.children f).length := by
    intro f hf
    obtain ⟨-, hfun, hbody⟩ := (mem_definitions hsound.whole.ranked).mp hf
    exact ⟨Kind.role_eq_function.mpr hfun, by simpa [child?] using hbody⟩
  intro label hlabel hlabel'
  rcases h.origin label hlabel with ⟨s, signature, hsymbol, hsignature, rfl⟩ | ⟨n, howner, hown⟩ <;>
    rcases h'.origin _ hlabel' with ⟨s', signature', hsymbol', hsignature', heq⟩ | ⟨n', howner', hown'⟩
  · obtain ⟨hs, -, number, -, hnumber⟩ := exists_label hsound hf hsymbol hsignature
    obtain ⟨hs', -, number', -, hnumber'⟩ := exists_label hsound hf' hsymbol' hsignature'
    obtain rfl : number' = number := by
      rw [hnumber, hnumber'] at heq
      exact (Label.function.inj heq).2
    obtain rfl := hsound.declared.label_unique s s' _ _ _ _ _ hs hs' hsignature hsignature' hnumber
      hnumber'
    exact hne (hsound.declared.body_unique f f' s (hhead hf).1 (hhead hf').1 hsymbol hsymbol'
      (hhead hf).2 (hhead hf').2)
  · obtain ⟨-, -, number, -, hnumber⟩ := exists_label hsound hf hsymbol hsignature
    obtain ⟨number', -, hnumber'⟩ := hsound.labelled.drawn n' _ hown'
    cases hnumber.symm.trans hnumber'
  · obtain ⟨-, -, number, -, hnumber⟩ := exists_label hsound hf' hsymbol' hsignature'
    obtain ⟨number', -, hnumber'⟩ := hsound.labelled.drawn n _ hown
    cases hnumber.symm.trans (heq.trans hnumber')
  · obtain rfl := hsound.labelled.apart n n' label hown hown'
    exact hne (Option.some.inj (howner.symm.trans howner'))

/-- Labels of functions are numbered by resolution. -/
theorem Headed.numbered {labels : List Label} (h : Headed layout f labels)
    (hsound : Sound root layout.forest layout.table drawn)
    (hf : f ∈ layout.forest.definitions root) : ∀ label ∈ labels, ∃ number < drawn,
      label = .jump number ∨ ∃ name, label = .function name number := by
  intro label hlabel
  rcases h.origin label hlabel with ⟨s, signature, hsymbol, hsignature, rfl⟩ | ⟨n, -, hown⟩
  · obtain ⟨-, -, number, hlt, hnumber⟩ := exists_label hsound hf hsymbol hsignature
    exact ⟨number, hlt, .inr ⟨_, hnumber⟩⟩
  · obtain ⟨number, hlt, hnumber⟩ := hsound.labelled.drawn n label hown
    exact ⟨number, hlt, .inl hnumber⟩

end Emit

/-! ## The program -/

namespace Compilation

variable {source : String} (c : Compilation source)

theorem mem_frames {f : NodeId} (hf : f ∈ c.layout.forest.definitions c.root) :
    ∃ items, (some f, codeOf items) ∈ c.frames ∧ Sectioned c.layout c.root f items := by
  have hmem : some f ∈ c.frames.map (·.1) := by
    rw [c.frames_eq.2]
    exact List.mem_cons_of_mem _ (List.mem_map_of_mem hf)
  obtain ⟨frame, hframe, heq⟩ := List.mem_map.mp hmem
  rcases c.isRight.cases_of_mem hframe with rfl | ⟨f', items, rfl, hsectioned⟩
  · cases heq
  · obtain rfl := Option.some.inj heq
    exact ⟨items, hframe, hsectioned⟩

/-- The labels of a frame. -/
theorem labels_frame {frame : Option NodeId × Code} (hframe : frame ∈ c.frames) :
    frame.2.labels = [] ∨ ∃ f, frame.1 = some f ∧ f ∈ c.layout.forest.definitions c.root ∧
      Headed c.layout f frame.2.labels := by
  rcases c.isRight.cases_of_mem hframe with rfl | ⟨f, items, rfl, hsectioned⟩
  · exact .inl c.isRight.labels_fileCode
  · have hf : f ∈ c.layout.forest.definitions c.root := by
      cases hsectioned
      assumption
    exact .inr ⟨f, rfl, hf, hsectioned.headed c.isLaid.sound⟩

theorem labels_eq : c.program.code.labels =
    (c.frames.flatMap (·.2.labels)) ++ c.sections.library.labels := by
  rw [c.frames_eq.1, Code.labels_append]
  congr 1
  exact List.filterMap_flatMap

/-- The library of a program, with the names of the routines that its code calls. -/
theorem exists_library : ∃ (names : List String) (session : Session),
    session.drawn = c.resolution.session.drawn ∧
    c.sections.library = (routines session (Routine.closure names)).1 ∧
    (∀ name ∈ names, (Routine.find? name).isSome) ∧
    (codeOf c.sections.initial ++ codeOf c.sections.functions.flatten).routines ⊆ names := by
  obtain ⟨output, hextends, hlibrary⟩ := c.isRight.library
  refine ⟨output.used, output.session, hextends.drawn_eq, by rw [hlibrary], ?_, hextends.called⟩
  intro name hname
  exact (hextends.known name hname).resolve_left List.not_mem_nil

theorem nodup_labels : c.program.code.labels.Nodup := by
  have hwhole := c.isLaid.sound.whole
  obtain ⟨names, session, hdrawn, hlibrary, -, -⟩ := c.exists_library
  have hsupplies := supplies_closure names session
  rw [← hlibrary] at hsupplies
  rw [c.labels_eq]
  refine List.Nodup.append ?_ hsupplies.nodup ?_
  · refine List.nodup_flatMap.mpr ⟨fun frame hframe => ?_, ?_⟩
    · rcases c.labels_frame hframe with hnil | ⟨f, -, -, hheaded⟩
      · exact hnil ▸ List.nodup_nil
      · exact hheaded.nodup
    · have hnodup : (c.frames.map (·.1)).Nodup := by
        rw [c.frames_eq.2]
        refine List.nodup_cons.mpr ⟨by simp, ?_⟩
        exact (nodup_definitions hwhole.linked hwhole.ranked).map (Option.some_injective _)
      refine (List.pairwise_map.mp hnodup).imp_of_mem fun {frame frame'} hframe hframe' hne => ?_
      rcases c.labels_frame hframe with hnil | ⟨f, hfst, hf, hheaded⟩
      · simp [Function.onFun, hnil]
      rcases c.labels_frame hframe' with hnil | ⟨f', hfst', hf', hheaded'⟩
      · simp [Function.onFun, hnil]
      refine hheaded.disjoint hheaded' c.isLaid.sound hf hf' ?_
      rintro rfl
      exact hne (hfst.trans hfst'.symm)
  · intro label hlabel hlabel'
    obtain ⟨frame, hframe, hlabel⟩ := List.mem_flatMap.mp hlabel
    rcases c.labels_frame hframe with hnil | ⟨f, -, hf, hheaded⟩
    · simp [hnil] at hlabel
    obtain ⟨number, hlt, hnumber⟩ := hheaded.numbered c.isLaid.sound hf label hlabel
    rcases hsupplies.numbered label hlabel' with ⟨routine, -, rfl⟩ | ⟨number', hle, -, rfl⟩
    · rcases hnumber with hnumber | ⟨name, hnumber⟩ <;> cases hnumber
    · rcases hnumber with hnumber | ⟨name, hnumber⟩
      · cases hnumber
        omega
      · cases hnumber

theorem regular_labels : ∀ label ∈ c.program.code.labels, label.Regular := by
  intro label hlabel
  rw [c.labels_eq] at hlabel
  rcases List.mem_append.mp hlabel with hlabel | hlabel
  · obtain ⟨frame, hframe, hlabel⟩ := List.mem_flatMap.mp hlabel
    rcases c.labels_frame hframe with hnil | ⟨f, -, hf, hheaded⟩
    · simp [hnil] at hlabel
    · obtain ⟨number, -, rfl | ⟨name, rfl⟩⟩ := hheaded.numbered c.isLaid.sound hf label hlabel
      · trivial
      · trivial
  · obtain ⟨names, session, -, hlibrary, -, -⟩ := c.exists_library
    rw [hlibrary] at hlabel
    rcases (supplies_closure names session).numbered label hlabel with
      ⟨routine, hroutine, rfl⟩ | ⟨number, -, -, rfl⟩
    · exact List.mem_map_of_mem (Routine.closureIn_subset hroutine)
    · trivial

/-- A function of the program that has a body has its label in the program. -/
theorem label_mem {s : SymbolId} {signature : Signature} (hs : s < c.layout.table.size)
    (hsignature : (c.layout.table.symbol s).signature? = some signature)
    (hdefined : signature.defined = true) :
    signature.label ∈ c.program.code.labels ∨
      ∃ routine ∈ Routine.catalog, (c.layout.table.symbol s).name = routine.name ∧
        signature.label = .named routine.name := by
  have hsound := c.isLaid.sound
  rcases (hsound.declared.function s hs signature hsignature).origin with
    ⟨-, -, -, routine, hroutine, hname, hlabel, -⟩ | ⟨-, -, -, hbody⟩
  · exact .inr ⟨routine, hroutine, hname, hlabel⟩
  · obtain ⟨f, hrole, hsymbol, hlength⟩ := hbody hdefined
    have hf : f ∈ c.layout.forest.definitions c.root :=
      (mem_definitions hsound.whole.ranked).mpr ⟨hsound.bound f s hsymbol (by simp [hrole]),
        Kind.role_eq_function.mp hrole, by simpa [child?] using hlength⟩
    obtain ⟨items, hframe, hsectioned⟩ := c.mem_frames hf
    rw [c.labels_eq]
    exact .inl (List.mem_append_left _ (List.mem_flatMap.mpr
      ⟨_, hframe, (hsectioned.headed hsound).head s signature hsymbol hsignature⟩))

/-- A routine that the program calls is in its library. -/
theorem routine_mem {name : String}
    (h : name ∈ (codeOf c.sections.initial ++ codeOf c.sections.functions.flatten).routines) :
    .named name ∈ c.program.code.labels := by
  obtain ⟨names, session, -, hlibrary, hknown, hcalled⟩ := c.exists_library
  have havailable : name ∈ Routine.catalog.map (·.name) := by
    obtain ⟨routine, hfind⟩ := Option.isSome_iff_exists.mp (hknown name (hcalled h))
    have hname : routine.name = name := by simpa using List.find?_some hfind
    exact List.mem_map.mpr ⟨routine, List.mem_of_find?_eq_some hfind, hname⟩
  rw [c.labels_eq, hlibrary]
  exact List.mem_append_right _ (named_mem_library (.inl (hcalled h)) havailable session)

/-- What the code of statements calls is in the program. -/
theorem callee_mem {code : Code} (hcalls : CallsOnly c.layout c.root code)
    (hcode : code ⊆ codeOf c.sections.initial ++ codeOf c.sections.functions.flatten)
    {instr : Instr} (hinstr : instr ∈ code) {label : Label} (hlabel : instr.callee? = some label) :
    label ∈ c.program.code.labels := by
  have hnamed : ∀ name, label = .named name → label ∈ c.program.code.labels := by
    rintro name rfl
    refine c.routine_mem (List.mem_filterMap.mpr ⟨instr, hcode hinstr, ?_⟩)
    cases instr <;> simp_all [Instr.callee?, Instr.routine?, Label.routine?]
  rcases hcalls instr hinstr label hlabel with ⟨name, heq⟩ | ⟨id, s, signature, depth, hcall, rfl⟩
  · exact hnamed name heq
  · have hs := SymbolTable.lt_size_of_signature hcall.signature_eq
    rcases c.label_mem hs hcall.signature_eq hcall.defined with hmem | ⟨routine, -, -, heq⟩
    · exact hmem
    · exact hnamed _ heq

/-- The code of a function is part of the code of all functions. -/
theorem subset_functions {f : NodeId} {code : Code} (h : (some f, code) ∈ c.frames) :
    code ⊆ codeOf c.sections.functions.flatten := by
  rcases List.mem_cons.mp h with heq | hmem
  · cases heq
  rw [← List.map_uncurry_zip_eq_zipWith] at hmem
  obtain ⟨⟨f', items⟩, hzip, heq⟩ := List.mem_map.mp hmem
  obtain rfl : codeOf items = code := (Prod.mk.inj heq).2
  intro instr hinstr
  obtain ⟨item, hitem, hinstr⟩ := List.mem_flatMap.mp hinstr
  exact List.mem_flatMap.mpr
    ⟨item, List.mem_flatten.mpr ⟨items, (List.of_mem_zip hzip).2, hitem⟩, hinstr⟩

/-- The program starts with a function of its own. -/
theorem main_mem : c.sections.main ∈ c.program.code.labels := by
  obtain ⟨s, signature, hmain, heq⟩ := c.isRight.main
  obtain ⟨hs, hname, -⟩ := c.isLaid.sound.file "main" s hmain.lookup_eq
  rw [heq]
  refine (c.label_mem hs hmain.signature_eq hmain.defined).resolve_right ?_
  rintro ⟨routine, hroutine, hroutineName, -⟩
  have hcatalog : "main" ∉ Routine.catalog.map (·.name) := by decide +kernel
  exact hcatalog (List.mem_map.mpr ⟨routine, hroutine, hroutineName.symm.trans hname⟩)

end Compilation

/-- The code of a function jumps to labels in it only. -/
theorem Emit.Sectioned.jump_mem {layout : Layout} {root f : NodeId} {items : List Item}
    (h : Sectioned layout root f items) (hwhole : layout.forest.Whole root) {instr : Instr}
    (hinstr : instr ∈ codeOf items) {label : Label} (hlabel : instr.jump? = some label) :
    label ∈ (codeOf items).labels := by
  obtain ⟨hf, -, -, hchildren, hbody⟩ := h
  next s signature result params body items =>
  obtain ⟨-, hfun, -⟩ := (mem_definitions hwhole.ranked).mp hf
  obtain ⟨_, _, body', hchildren', -, -, hrole⟩ := hwhole.exists_body hf
  obtain rfl : body = body' := by simp_all
  have hkind := Kind.eq_block hrole
  have hloop := enclosingLoop_of_function hwhole hfun (show body ∈ layout.forest.children f by simp [hchildren])
  have hjumps := hbody.jumps hwhole fun c hc =>
    enclosingLoop_of_mem hwhole (by rw [hkind]; rfl) (by rw [hkind]; rfl) hloop hc
  have hown : ∀ instr ∈ codeOf items, instr.jump? = some label → label ∈ (codeOf items).labels := by
    intro instr hinstr hlabel
    rcases hjumps instr hinstr label hlabel with hmem | ⟨_, _, hnone, -⟩
    · exact hmem
    · cases hnone
  simp only [codeOf_append, Code.labels_append, List.mem_append] at hinstr ⊢
  rcases hinstr with (hinstr | hinstr) | hinstr
  · simp only [codeOf_cons, codeOf_nil, Item.code, List.append_nil, List.mem_append,
      List.mem_singleton] at hinstr
    rcases hinstr with rfl | rfl <;> cases hlabel
  · exact .inl (.inr (hown instr hinstr hlabel))
  · simp only [codeOf_cons, codeOf_nil, Item.code, List.append_nil, List.mem_singleton] at hinstr
    split at hinstr <;> obtain rfl := hinstr <;> cases hlabel

theorem Emit.Sectioned.callsOnly {layout : Layout} {root f : NodeId} {items : List Item}
    (h : Sectioned layout root f items) : CallsOnly layout root (codeOf items) := by
  obtain ⟨-, -, -, -, hbody⟩ := h
  next s _ _ _ _ _ =>
  simp only [codeOf_append, codeOf_cons, codeOf_nil, Item.code, List.append_nil,
    CallsOnly.append_iff, CallsOnly.cons_iff]
  refine ⟨⟨⟨⟨by simp [Instr.callee?], .nil⟩, by simp [Instr.callee?], .nil⟩, hbody.callsOnly⟩, ?_,
    .nil⟩
  split <;> simp [Instr.callee?]

/-- What the code of the file goes to. -/
theorem Emit.Sections.Right.target_fileCode {layout : Layout} {root : NodeId} {sections : Sections}
    {session session' : Session} (h : sections.Right layout root session session') {instr : Instr}
    (hinstr : instr ∈ sections.fileCode layout root) {label : Label}
    (hlabel : instr.target? = some label) :
    label = sections.main ∨ instr ∈ codeOf sections.initial ∧ instr.callee? = some label := by
  simp only [Sections.fileCode, List.mem_append, List.mem_cons, List.not_mem_nil, or_false] at hinstr
  rcases hinstr with ((rfl | hinstr) | hinstr) | rfl | rfl | rfl
  · cases hlabel
  · simp [(plain_strings layout root instr hinstr).2] at hlabel
  · have hplain := h.plain_initial instr hinstr
    rcases Instr.target?_cases hlabel with hjump | hcallee
    · cases instr <;> simp_all [Instr.isPlain, Instr.jump?]
    · exact .inr ⟨hinstr, hcallee⟩
  · cases hlabel
  · exact .inl (Option.some.inj hlabel).symm
  · cases hlabel

/-- Where the code of a frame goes to is in the program. -/
theorem Compilation.target_mem {source : String} (c : Compilation source)
    {frame : Option NodeId × Code} (hframe : frame ∈ c.frames) {instr : Instr}
    (hinstr : instr ∈ frame.2) {label : Label} (hlabel : instr.target? = some label) :
    label ∈ c.program.code.labels := by
  rcases c.isRight.cases_of_mem hframe with rfl | ⟨f, items, rfl, hsectioned⟩
  · rcases c.isRight.target_fileCode hinstr hlabel with rfl | ⟨hinitial, hcallee⟩
    · exact c.main_mem
    · exact c.callee_mem c.isRight.initial.callsOnly (List.subset_append_left _ _) hinitial hcallee
  · rcases Instr.target?_cases hlabel with hjump | hcallee
    · rw [c.labels_eq]
      exact List.mem_append_left _ (List.mem_flatMap.mpr
        ⟨_, hframe, hsectioned.jump_mem c.isLaid.sound.whole hinstr hjump⟩)
    · exact c.callee_mem hsectioned.callsOnly
        (List.Subset.trans (c.subset_functions hframe) (List.subset_append_right _ _)) hinstr hcallee

/-- No two labels of a program have the same text, and every jump and every call in it leads to one
of its labels. -/
theorem labels_unique_and_closed {source : String} {program : Program}
    (h : compile source = .ok program) :
    (program.code.labels.map Label.text).Nodup ∧
      ∀ target ∈ program.code.targets, target ∈ program.code.labels := by
  obtain ⟨c, rfl⟩ := compile_eq_ok_iff.mp h
  refine ⟨c.nodup_labels.map_on fun label hlabel label' hlabel' heq =>
    Label.eq_of_text_eq (c.regular_labels label hlabel) (c.regular_labels label' hlabel') heq, ?_⟩
  intro target htarget
  rw [c.frames_eq.1, Code.targets_append] at htarget
  rcases List.mem_append.mp htarget with htarget | htarget
  · obtain ⟨instr, hinstr, hlabel⟩ := List.mem_filterMap.mp htarget
    obtain ⟨frame, hframe, hinstr⟩ := List.mem_flatMap.mp hinstr
    exact c.target_mem hframe hinstr hlabel
  · obtain ⟨names, session, -, hlibrary, -, -⟩ := c.exists_library
    rw [c.labels_eq]
    rw [hlibrary] at htarget ⊢
    exact List.mem_append_right _ (library_defined htarget)

/-- A program whose functions have names that look like labels and like routines. -/
def shadowing : String :=
  "void l(int n) \x7b while (n % 2) n++; \x7d void f_1() \x7b l(1); \x7d " ++
  "void main() \x7b int mod(int n) \x7b return n; \x7d f_1(); mod(3); \x7d"

theorem labels_unique_and_closed_shadowing :
    ∃ program, compile shadowing = .ok program ∧ (program.code.labels.map Label.text).Nodup ∧
      ∀ target ∈ program.code.targets, target ∈ program.code.labels := by
  have hok : (compile shadowing).isOk := by decide +kernel
  cases hcompile : compile shadowing with
  | error fault => simp [hcompile, Except.isOk, Except.toBool] at hok
  | ok program => exact ⟨program, rfl, labels_unique_and_closed hcompile⟩

end MiniC
