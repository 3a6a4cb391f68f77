import MiniC.Proofs.FrameLayout
import MiniC.Proofs.Labels
import MiniC.Proofs.StaticDepth
import MiniC.Proofs.Emit.Tags

/-!
# Tags of programs

If nothing in a program is void but calls that are statements, its code runs on tags: on every path each
instruction finds the tags that it names, loads and stores have the tags of the variables that they are
for, and no type has been reported to have no tag.
-/

namespace MiniC

open Machine Forest Emit

namespace Emit

variable {callee? : Label → Option Callee} {items items' : List Item} {code rest : Code}
  {instr : Instr} {stack : List Tag}

theorem Balanced.suffix (h : Balanced callee? items) (hsuffix : items' <:+ items) :
    Balanced callee? items' := by
  obtain ⟨before, rfl⟩ := hsuffix
  induction before with
  | nil => exact h
  | cons _ _ ih => exact ih h.2

/-- No instruction inside of an item jumps. -/
def Item.Straight : Item → Prop
  | event _ code => ∀ instr ∈ code, instr.jump? = none
  | control _ => True
  | leave _ instr => instr.jump? = none

/-- A run that is midway in an item: the rest of the item leads to what the next item starts with. -/
def Midway (callee? : Label → Option Callee) (items : List Item) (rest : Code) (stack : List Tag) :
    Prop :=
  ∃ tail items', items' <:+ items ∧ rest = tail ++ codeOf items' ∧
    (∀ instr ∈ tail, instr.jump? = none) ∧ tail.retag callee? stack = some (entry items')

/-- The first instruction of items is the first one of an item that finds what they start with. -/
theorem Balanced.exists_first (h : Balanced callee? items) (hcode : instr :: rest = codeOf items) :
    ∃ item items' tail, item :: items' <:+ items ∧ item.finds = entry items ∧
      item.code = instr :: tail ∧ rest = tail ++ codeOf items' := by
  induction items with
  | nil => cases hcode
  | cons item items ih =>
    rw [codeOf_cons] at hcode
    cases hitem : item.code with
    | nil =>
      rw [hitem] at hcode
      obtain ⟨first, items', tail, hsuffix, hfinds, hrest⟩ := ih h.2 hcode
      refine ⟨first, items', tail, hsuffix.trans (List.suffix_cons _ _), hfinds.trans ?_, hrest⟩
      have hskip := h.1
      rw [hitem] at hskip
      exact (Option.some.inj hskip).symm
    | cons first tail =>
      rw [hitem] at hcode
      obtain ⟨rfl, hrest⟩ := List.cons.inj hcode
      exact ⟨item, items, tail, List.suffix_rfl, rfl, hitem, hrest⟩

/-- An instruction inside of balanced items finds its tags. The run stays inside of the items, and
jumps with an empty stack. -/
theorem Midway.step (h : Midway callee? items (instr :: rest) stack)
    (hbalanced : Balanced callee? items) (hstraight : ∀ item ∈ items, item.Straight) :
    ∃ stack', instr.retag callee? stack = some stack' ∧ Midway callee? items rest stack' ∧
      (instr.jump? ≠ none → stack' = []) := by
  obtain ⟨tail, items', hsuffix, hrest, htail, hretag⟩ := h
  have hinner : ∀ {tail items'}, items' <:+ items → rest = tail ++ codeOf items' →
      (∀ other ∈ instr :: tail, other.jump? = none) →
      Code.retag callee? (instr :: tail) stack = some (entry items') →
      ∃ stack', instr.retag callee? stack = some stack' ∧ Midway callee? items rest stack' ∧
        (instr.jump? ≠ none → stack' = []) := by
    intro tail items' hsuffix hrest htail hretag
    obtain ⟨hinstr, htail⟩ := List.forall_mem_cons.mp htail
    obtain ⟨stack', hstep, hretag⟩ := Option.bind_eq_some_iff.mp hretag
    exact ⟨stack', hstep, ⟨tail, items', hsuffix, hrest, htail, hretag⟩,
      fun hjump => absurd hinstr hjump⟩
  cases tail with
  | cons first tail =>
    obtain ⟨rfl, hrest⟩ := List.cons.inj hrest
    exact hinner hsuffix (List.cons.inj hrest).2 htail hretag
  | nil =>
    obtain rfl : stack = entry items' := Option.some.inj hretag
    obtain ⟨item, items'', tail, hsuffix', hfinds, hcode, hrest⟩ :=
      (hbalanced.suffix hsuffix).exists_first hrest
    have hsuffix'' := hsuffix'.trans hsuffix
    have hitem := (hbalanced.suffix hsuffix'').1
    have hmem := hstraight item (hsuffix''.subset List.mem_cons_self)
    have hafter := (List.suffix_cons item items'').trans hsuffix''
    rw [entry, hfinds, hcode] at hitem
    cases item with
    | event event code =>
      obtain rfl : code = instr :: tail := hcode
      exact hinner hafter hrest hmem hitem
    | leave returned leave =>
      obtain ⟨rfl, rfl⟩ := List.cons.inj hcode
      exact hinner hafter hrest (List.forall_mem_singleton.mpr hmem) hitem
    | control control =>
      obtain ⟨rfl, rfl⟩ := List.cons.inj hcode
      obtain ⟨stack', hstep, hstack⟩ := Option.bind_eq_some_iff.mp hitem
      obtain rfl : stack' = entry items'' := Option.some.inj hstack
      refine ⟨_, hstep, ⟨[], items'', hafter, hrest, List.forall_mem_nil _, rfl⟩, fun hjump => ?_⟩
      rw [← hfinds] at hstep
      cases control with
      | ujp => exact (Option.some.inj hstep).symm
      | fjp => exact (Option.some.inj hstep).symm
      | _ => exact absurd rfl hjump

/-- Wherever a run of balanced items comes to, it is inside of them. -/
theorem Midway.of_arrives (h : Arrives callee? code rest stack) (hstart : Midway callee? items code [])
    (hbalanced : Balanced callee? items) (hstraight : ∀ item ∈ items, item.Straight)
    (hlabel : ∀ before target after, code = before ++ .label target :: after →
      ∃ items', .control (.label target) :: items' <:+ items ∧ after = codeOf items') :
    Midway callee? items rest stack := by
  induction h with
  | start => exact hstart
  | next _ _ hstep ih =>
    obtain ⟨stack', hstep', hinside, -⟩ := ih.step hbalanced hstraight
    obtain rfl := Option.some.inj (hstep.symm.trans hstep')
    exact hinside
  | jump _ hjump hstep hcode ih =>
    obtain ⟨stack', hstep', -, hempty⟩ := ih.step hbalanced hstraight
    obtain rfl := Option.some.inj (hstep.symm.trans hstep')
    obtain ⟨items', hsuffix, rfl⟩ := hlabel _ _ _ hcode
    rw [hempty (by simp [hjump])]
    exact ⟨[], _, hsuffix, rfl, List.forall_mem_nil _, rfl⟩

/-- Balanced items leave nothing. -/
theorem Balanced.retag (h : Balanced callee? items) :
    Code.retag callee? (codeOf items) (entry items) = some [] := by
  induction items with
  | nil => rfl
  | cons item items ih =>
    rw [codeOf_cons, Code.retag_append, h.1]
    exact ih h.2

theorem retag_storeChars (slot : Nat) (cs : List Char) :
    Code.retag callee? (storeChars slot cs) stack = some stack := by
  induction cs generalizing slot with
  | nil => rfl
  | cons c cs ih =>
    rw [storeChars, Code.retag_append]
    exact ih (slot + 1)

theorem retag_strings (layout : Layout) (root : NodeId) :
    Code.retag callee? (strings layout root) stack = some stack := by
  unfold strings
  induction layout.forest.preorder root with
  | nil => rfl
  | cons id ids ih =>
    rw [List.flatMap_cons, Code.retag_append]
    split
    · rw [retag_storeChars]
      exact ih
    · exact ih

/-- The jumps of a function stand between its items. -/
theorem Sectioned.straight {layout : Layout} {root f : NodeId} (h : Sectioned layout root f items) :
    ∀ item ∈ items, item.Straight ∧
      ∀ name, .label name ∈ item.code → item = .control (.label name) := by
  have hproper : ∀ {item : Item}, item.Proper → item.Straight ∧
      ∀ name, .label name ∈ item.code → item = .control (.label name) := by
    intro item hitem
    cases item with
    | event event code =>
      refine ⟨fun instr hinstr => ?_, fun name hname => ?_⟩
      · have hplain := hitem instr hinstr
        cases instr <;> simp_all [Instr.isPlain, Instr.jump?]
      · cases hitem _ hname
    | control control =>
      exact ⟨trivial, fun name hname => by rw [List.mem_singleton.mp hname]⟩
    | leave returned leave =>
      rcases hitem with rfl | rfl
      · exact ⟨rfl, fun name hname => by cases List.mem_singleton.mp hname⟩
      · exact ⟨rfl, fun name hname => by cases List.mem_singleton.mp hname⟩
  obtain ⟨-, -, -, -, hbody⟩ := h
  next s signature _ _ _ items =>
  simp only [List.forall_mem_append, List.forall_mem_cons, List.not_mem_nil, IsEmpty.forall_iff,
    implies_true, and_true]
  refine ⟨⟨⟨⟨trivial, fun name hname => ?_⟩, trivial, fun name hname => ?_⟩,
    fun item hitem => hproper (hbody.proper item hitem)⟩, hproper ?_⟩
  · rw [List.mem_singleton.mp hname]
  · cases List.mem_singleton.mp hname
  · cases (layout.table.symbol s).type.isVoid
    · exact .inr rfl
    · exact .inl rfl

end Emit

/-- Missing returns are no types without tags. -/
theorem Forest.warnings_warnReturns (forest : Forest) (session : Session)
    (h : ∀ warning ∈ session.warnings, ∀ text, warning.concern ≠ .unmappedType text) :
    ∀ warning ∈ (forest.warnReturns session).warnings, ∀ text,
      warning.concern ≠ .unmappedType text := by
  unfold warnReturns
  split
  · exact h
  · refine List.foldlRecOn (motive := fun other : Session =>
      ∀ warning ∈ other.warnings, ∀ text, warning.concern ≠ .unmappedType text) _ _ h ?_
    intro other hother id _
    split
    · simp only [Session.warnings_warn, List.forall_mem_append, List.forall_mem_singleton]
      exact ⟨hother, (by simp)⟩
    · exact hother

theorem Emit.warnings_routines (session : Session) (rs : List Routine) :
    (routines session rs).2.warnings = session.warnings := by
  induction rs generalizing session with
  | nil => rfl
  | cons routine rs ih => exact ih _

namespace Compilation

variable {source : String} (c : Compilation source)

/-- What is void in the program that has been laid out is void in the one that has been resolved. -/
theorem voidFree (h : VoidFree c.resolution.forest c.root) : VoidFree c.layout.forest c.root := by
  have hpooled := c.isLaid.pooled
  intro e type hbelow hrole htype hvoid
  rw [hpooled.role_eq] at hrole
  rw [hpooled.type_eq] at htype
  obtain ⟨⟨name, s, hkind⟩, p, hparent, hkindp⟩ :=
    h e type (hpooled.below_iff.mp hbelow) hrole htype hvoid
  refine ⟨⟨name, s, ?_⟩, p, ?_, ?_⟩
  · rw [hpooled.kind_eq (by simp [hkind]), hkind]
  · rw [hpooled.parent_eq, hparent]
  · rw [hpooled.kind_eq (by simp [hkindp]), hkindp]

/-- The program starts with a call that needs nothing and leaves nothing. -/
theorem callee?_main : c.layout.callee? c.sections.main = some ⟨[], false, []⟩ := by
  obtain ⟨s, signature, hmain, heq⟩ := c.isRight.main
  have hsound := c.isLaid.sound
  obtain ⟨hs, hname, -⟩ := hsound.file "main" s hmain.lookup_eq
  rw [heq, Layout.callee?_label hsound hmain.signature_eq]
  rcases (hsound.declared.function s hs signature hmain.signature_eq).origin with
    ⟨-, -, -, routine, hroutine, hroutineName, -⟩ | ⟨-, hvariadic, -⟩
  · have hcatalog : "main" ∉ Routine.catalog.map (·.name) := by decide +kernel
    exact absurd (List.mem_map.mpr ⟨routine, hroutine, hroutineName.symm.trans hname⟩) hcatalog
  · simp [Callee.of, hmain.params, hvariadic, Ty.cells, hmain.void]

/-- Wherever a run of a frame comes to, the next instruction finds its tags. -/
theorem finds_tags (hvoid : VoidFree c.layout.forest c.root) {frame : Option NodeId × Code}
    (hframe : frame ∈ c.frames) {instr : Instr} {rest : Code} {stack : List Tag}
    (h : Arrives c.layout.callee? frame.2 (instr :: rest) stack) :
    (instr.retag c.layout.callee? stack).isSome := by
  have hsound := c.isLaid.sound
  rcases c.isRight.cases_of_mem hframe with rfl | ⟨f, items, rfl, hsectioned⟩
  · have hinitial := c.isRight.initial.even hvoid hsound
    have hretag : (c.sections.fileCode c.layout c.root).retag c.layout.callee? [] = some [] := by
      have hcode := hinitial.balanced.retag
      rw [hinitial.entry_eq] at hcode
      simp only [Sections.fileCode, Code.retag_append, Code.retag_cons, Code.retag_nil, Instr.retag,
        Option.bind_some, retag_strings, hcode, popArguments, c.callee?_main, Callee.accepts]
      rfl
    have hnoJump : ∀ instr ∈ c.sections.fileCode c.layout c.root, instr.jump? = none := by
      intro instr hinstr
      simp only [Sections.fileCode, List.mem_append, List.mem_cons, List.not_mem_nil,
        or_false] at hinstr
      rcases hinstr with ((rfl | hinstr) | hinstr) | rfl | rfl | rfl
      · rfl
      · have hplain := (plain_strings c.layout c.root instr hinstr).1
        cases instr <;> simp_all [Instr.isPlain, Instr.jump?]
      · have hplain := c.isRight.plain_initial instr hinstr
        cases instr <;> simp_all [Instr.isPlain, Instr.jump?]
      · rfl
      · rfl
      · rfl
    have hstart : Midway c.layout.callee? [] (c.sections.fileCode c.layout c.root) [] :=
      ⟨_, [], List.suffix_rfl, (List.append_nil _).symm, hnoJump, hretag⟩
    have hnoLabel : ∀ before target after,
        c.sections.fileCode c.layout c.root ≠ before ++ .label target :: after := by
      intro before target after hcode
      have hmem : target ∈ (c.sections.fileCode c.layout c.root).labels :=
        Code.mem_labels.mpr (by simp [hcode])
      simp [c.isRight.labels_fileCode] at hmem
    obtain ⟨stack', hstep, -⟩ := (Midway.of_arrives h hstart trivial (by simp) fun before target after
      hcode => absurd hcode (hnoLabel before target after)).step trivial (by simp)
    rw [hstep]
    rfl
  · have heven := hsectioned.even hvoid hsound
    have hstart : Midway c.layout.callee? items (codeOf items) [] :=
      ⟨[], items, List.suffix_rfl, rfl, List.forall_mem_nil _, congrArg some heven.entry_eq.symm⟩
    obtain ⟨stack', hstep, -⟩ := (Midway.of_arrives h hstart heven.balanced
      (fun item hitem => (hsectioned.straight item hitem).1) fun before target after hcode =>
        exists_items_of_label (fun item hitem => (hsectioned.straight item hitem).2) hcode).step
      heven.balanced fun item hitem => (hsectioned.straight item hitem).1
    rw [hstep]
    rfl

/-- No pass has reported a type without a tag. -/
theorem warnings_mapped (hvoid : VoidFree c.layout.forest c.root) :
    ∀ warning ∈ c.program.warnings, ∀ text, warning.concern ≠ .unmappedType text := by
  obtain ⟨output, hextends, hlibrary⟩ := c.isRight.library
  have hcompiled : c.compiled.session.warnings = c.resolution.session.warnings := by
    have hroutines := warnings_routines output.session (Routine.closure output.used)
    rw [hlibrary] at hroutines
    rw [hroutines, hextends.session_eq hvoid]
  rw [program, hcompiled]
  have hanalyse := c.analyse_eq
  rcases Resolve.program_cases c.isParsed {} with ⟨resolution, hprogram, -, hwarnings⟩ | ⟨_, hprogram, -⟩
  · rw [analyse, hprogram] at hanalyse
    have hresolution := Except.ok.inj hanalyse
    rw [← hresolution]
    refine resolution.forest.warnings_warnReturns resolution.session ?_
    rw [hwarnings]
    exact List.forall_mem_nil _
  · rw [analyse, hprogram] at hanalyse
    cases hanalyse

end Compilation

namespace Laid

variable {root d : NodeId} {resolution : Resolution} {layout : Layout}
  {function target : Option NodeId} {type : Ty} {slot : Nat}

/-- Nothing but a variable of one slot is at its slot. -/
theorem eq_declared (h : Laid root resolution layout) (hframe : layout.forest.IsFrame root target)
    (hd : layout.Resides root target (.declared d)) (hslot : layout.slot? d = some slot)
    (htype : layout.forest.type? d = some type) (harray : type.isArray = false)
    {resident : Resident} (hresident : layout.Resides root target resident)
    (hcovers : Covers (layout.first? target) layout.extent resident slot) :
    resident = .declared d := by
  have hextent : layout.extent (.declared d) = 1 := by
    cases type <;> simp_all [Layout.extent, Ty.slots, Ty.isArray, Ty.kind]
  have hown : Covers (layout.first? target) layout.extent (.declared d) slot :=
    ⟨slot, hslot, Nat.le_refl _, by omega⟩
  exact (h.tiled_residents hframe).eq_of_covers (h.nodup_residents hframe)
    ((h.mem_residents hframe _).mpr hresident) ((h.mem_residents hframe _).mpr hd) hcovers hown

/-- Loads and stores of a variable have its tag. -/
theorem own_tag (h : Laid root resolution layout) (hfunction : layout.forest.IsFrame root function)
    {instr : Instr} (haccess : Access layout root function instr target) {tag : Tag} {depth : Nat}
    (hinstr : instr = .lod tag depth slot ∨ instr = .str tag depth slot)
    (hd : layout.Resides root target (.declared d)) (hslot : layout.slot? d = some slot)
    (htype : layout.forest.type? d = some type) (harray : type.isArray = false) :
    tag = type.cell := by
  have hdeclared : ∀ {d' type'}, layout.forest.IsFrame root target →
      layout.Resides root target (.declared d') → layout.forest.type? d' = some type' →
      Covers (layout.first? target) layout.extent (.declared d') slot → type' = type := by
    intro d' type' hframe hd' htype' hcovers
    obtain rfl := Resident.declared.inj (h.eq_declared hframe hd hslot htype harray hd' hcovers)
    exact Option.some.inj (htype'.symm.trans htype)
  have hnames : ∀ {id d' place type'}, Names layout root id d' place type' →
      layout.forest.owningFunction d' = target → place.slot = slot → type'.isArray = false →
      type' = type := by
    rintro id d' place type' hnames rfl rfl harray'
    obtain ⟨hkind, hbelow, howner⟩ := (h.sound.whole.mem_variables hnames.frame).mp hnames.mem
    refine hdeclared hnames.frame (.declared hkind hbelow howner) hnames.declared
      ⟨_, hnames.slot, Nat.le_refl _, ?_⟩
    cases type' <;> simp_all [Layout.extent, hnames.declared, Ty.slots, Ty.isArray, Ty.kind]
  cases haccess with
  | load hname _ harray' =>
    obtain ⟨rfl, -, hslot'⟩ := Instr.lod.inj (hinstr.resolve_right (by simp))
    rw [hnames hname rfl hslot' harray']
  | store hname _ harray' =>
    obtain ⟨rfl, -, hslot'⟩ := Instr.str.inj (hinstr.resolve_left (by simp))
    rw [hnames hname rfl hslot' harray']
  | @fill id value first index his hfile hindex =>
    obtain ⟨-, -, hslot'⟩ := Instr.str.inj (hinstr.resolve_left (by simp))
    have hstring : (layout.forest.kind id).isString := by
      rw [his.kind_eq]
      rfl
    have hcovers : Covers (layout.first? none) layout.extent (.literal id) slot := by
      refine ⟨first, ?_, by omega, ?_⟩
      · simp [Layout.first?, Layout.pool?, his.kind_eq, Kind.pool?]
      · simp only [Layout.extent, Layout.chars, his.kind_eq, Kind.chars]
        omega
    cases h.eq_declared isFrame_none hd hslot htype harray (.literal rfl hstring his.below) hcovers
  | @initializer d' first index type' _ hinit howner hindex htag =>
    obtain ⟨rfl, -, hslot'⟩ := Instr.str.inj (hinstr.resolve_left (by simp))
    obtain ⟨hkind, hbelow, -⟩ := (h.sound.whole.mem_variables hinit.frame).mp hinit.mem
    have hcovers : Covers (layout.first? (layout.forest.owningFunction d')) layout.extent
        (.declared d') slot := by
      refine ⟨first, hinit.slot_eq, by omega, ?_⟩
      simp only [Layout.extent, hinit.type_eq, Option.map_some, Option.getD_some]
      omega
    obtain rfl := hdeclared hinit.frame (.declared hkind hbelow rfl) hinit.type_eq hcovers
    exact htag harray
  | @park slot' _ hscratch | @unpark slot' _ hscratch =>
    obtain rfl : slot' = slot := by
      rcases hinstr with heq | heq <;> cases heq
      rfl
    have hresident : layout.Resides root function .scratch := .scratch (by rw [hscratch]; rfl)
    have hcovers : Covers (layout.first? function) layout.extent .scratch slot' :=
      ⟨slot', hscratch, Nat.le_refl _, Nat.lt_succ_self _⟩
    cases h.eq_declared hfunction hd hslot htype harray hresident hcovers
  | result =>
    obtain ⟨-, -, rfl⟩ := Instr.str.inj (hinstr.resolve_left (by simp))
    obtain ⟨first, hfirst, hle, -⟩ :=
      (h.tiled_residents hfunction).bounds ((h.mem_residents hfunction _).mpr hd)
    obtain rfl : 0 = first := Option.some.inj (hslot.symm.trans hfirst)
    cases hle
  | address | string | call | start | remainder => simp at hinstr

end Laid

/-- The code of a program is right about tags. -/
structure Compilation.Tagged {source : String} (c : Compilation source) : Prop where
  /-- On every path through the code of the file and of each function, every instruction finds the
  tags that it names, and every call arguments with the tags of the parameters. -/
  finds : ∀ frame ∈ c.frames, ∀ instr rest stack,
    Arrives c.layout.callee? frame.2 (instr :: rest) stack →
      (instr.retag c.layout.callee? stack).isSome
  /-- A call asks for the tags of the parameters and leaves that of the result. -/
  callee : ∀ s signature, (c.layout.table.symbol s).signature? = some signature →
    c.layout.callee? signature.label =
      some (.of (c.layout.table.symbol s).type signature.params signature.variadic)
  /-- Whatever loads or stores the slot of a variable that is no array has its tag. -/
  own : ∀ frame ∈ c.frames, ∀ instr ∈ frame.2, ∀ tag depth slot target d type,
    instr = .lod tag depth slot ∨ instr = .str tag depth slot →
    c.layout.forest.outward depth frame.1 = some target →
    c.layout.Resides c.root target (.declared d) → c.layout.slot? d = some slot →
    c.layout.forest.type? d = some type → type.isArray = false → tag = type.cell
  mapped : ∀ warning ∈ c.program.warnings, ∀ text, warning.concern ≠ .unmappedType text

/-- Whether nothing is void but calls that are statements. -/
def Emit.isVoidFree (forest : Forest) (root : NodeId) : Bool :=
  (forest.preorder root).all fun e =>
    !(forest.role e = .expression && (forest.type? e).any Ty.isVoid) ||
      (forest.kind e matches .call ..) &&
        (forest.parent e).any fun p => forest.kind p = .exprStatement

theorem Emit.voidFree_of_isVoidFree {forest : Forest} {root : NodeId} (hranked : forest.Ranked)
    (h : isVoidFree forest root) : VoidFree forest root := by
  intro e type hbelow hrole htype hvoid
  have he := List.all_eq_true.mp h e ((mem_preorder hranked).mpr hbelow)
  simp only [hrole, htype, Option.any_some, hvoid, decide_true, Bool.and_true, Bool.not_true,
    Bool.false_or, Bool.and_eq_true] at he
  obtain ⟨hcall, hparent⟩ := he
  obtain ⟨p, hp, hkind⟩ := (Option.any_eq_true ..).mp hparent
  refine ⟨?_, p, hp, by simpa using hkind⟩
  cases hk : forest.kind e <;> simp_all

/-- A program with conversions, a step through an address and a call that is void. -/
def converting : String :=
  "void main() \x7b int a[2]; char c; c = a[a[0]++] == c; print(&c); \x7d"

end MiniC
