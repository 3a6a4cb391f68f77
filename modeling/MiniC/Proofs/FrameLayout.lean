import MiniC.Proofs.Compile
import MiniC.Proofs.Emit.Contained

/-!
# Frames are laid out without gaps and overlaps

What has a place in a frame are its variables, the strings if it is the frame of the file, and the
scratch slot if there is one. Their ranges fill the frame behind its header, each slot belongs to one
of them, and the code of a frame uses a scratch slot if and only if the frame has one.
-/

namespace MiniC

open Machine Forest Emit

namespace Machine

/-- The slot of its own frame that an instruction loads or stores. -/
def Instr.ownSlot? : Instr → Option Nat
  | lod _ 0 slot | str _ 0 slot => some slot
  | _ => none

theorem Instr.ownSlot?_lod {tag : Tag} {depth slot slot' : Nat} :
    (lod tag depth slot).ownSlot? = some slot' ↔ depth = 0 ∧ slot = slot' := by
  cases depth <;> simp [ownSlot?]

theorem Instr.ownSlot?_str {tag : Tag} {depth slot slot' : Nat} :
    (str tag depth slot).ownSlot? = some slot' ↔ depth = 0 ∧ slot = slot' := by
  cases depth <;> simp [ownSlot?]

end Machine

/-- What has a place in a frame. -/
inductive Resident
  | declared (d : NodeId)
  | literal (id : NodeId)
  | scratch
  deriving DecidableEq

namespace Layout

variable (layout : Layout) (root : NodeId) (function : Option NodeId)

/-- What has a place in the frame of a function or of the file: the variables and parameters that it
owns, every string of the program if it is the frame of the file, and the scratch slot. -/
inductive Resides : Resident → Prop
  | declared {d : NodeId}
      (hkind : (layout.forest.kind d).isDeclaration ∨ (layout.forest.kind d).isParameter)
      (hbelow : layout.forest.Below d root) (howner : layout.forest.owningFunction d = function) :
      Resides (.declared d)
  | literal {id : NodeId} (hfile : function = none) (hstring : (layout.forest.kind id).isString)
      (hbelow : layout.forest.Below id root) : Resides (.literal id)
  | scratch (hscratch : (layout.scratch? function).isSome) : Resides .scratch

/-- The first slot of what has a place in a frame. -/
def first? : Resident → Option Nat
  | .declared d => layout.slot? d
  | .literal id => layout.pool? id
  | .scratch => layout.scratch? function

/-- How many slots a resident takes: what its type asks for, or the characters of a string and the
one that closes it, or one. -/
def extent : Resident → Nat
  | .declared d => ((layout.forest.type? d).map Ty.slots).getD 0
  | .literal id => layout.chars id
  | .scratch => 1

/-- What has a place in a frame, in the order of the slots. -/
def residents : List Resident :=
  (layout.forest.frameVariables root function).map .declared ++
    (layout.forest.frameStrings root function).map .literal ++
    if (layout.scratch? function).isSome then [.scratch] else []

/-- Code that loads or stores a slot behind the header that belongs to no variable and no string. -/
def UsesScratch (code : Code) : Prop :=
  ∃ instr ∈ code, ∃ slot, instr.ownSlot? = some slot ∧ frameHeader ≤ slot ∧
    ∀ resident, layout.Resides root function resident → resident ≠ .scratch →
      ¬Covers (layout.first? function) layout.extent resident slot

/-- How a frame with its code is laid out up to `stop`. -/
structure Tidy (code : Code) (stop : Nat) : Prop where
  /-- The code sets the size of the frame to where the frame stops. -/
  size : code.filterMap Instr.size? = [stop]
  /-- The ranges of the residents fill the frame behind its header. -/
  filled : ∀ slot, frameHeader ≤ slot ∧ slot < stop ↔ ∃ resident,
    layout.Resides root function resident ∧
      Covers (layout.first? function) layout.extent resident slot
  /-- The ranges of different residents are apart. -/
  apart : ∀ resident resident' slot, layout.Resides root function resident →
    layout.Resides root function resident' →
    Covers (layout.first? function) layout.extent resident slot →
    Covers (layout.first? function) layout.extent resident' slot → resident = resident'
  /-- Every resident has a place. -/
  placed : ∀ resident, layout.Resides root function resident →
    (layout.first? function resident).isSome
  /-- The parameters come first, where arguments are pushed. -/
  parameters : ∀ f params index d, function = some f → layout.forest.child? f 1 = some params →
    (layout.forest.children params)[index]? = some d → layout.slot? d = some (frameHeader + index)
  /-- There is a scratch slot if and only if the code uses one. -/
  scratch : layout.Resides root function .scratch ↔ layout.UsesScratch root function code
  /-- A list of initializers is stored within its array. -/
  stored : ∀ d list, layout.Resides root function (.declared d) →
    layout.forest.child? d 1 = some list → layout.forest.kind list = .initializers →
    ∃ element size constant first, layout.forest.type? d = some (.array element size constant) ∧
      layout.slot? d = some first ∧
      (∀ index < (layout.forest.children list).length,
        first + index * element.slots + element.slots ≤ first + layout.extent (.declared d)) ∧
      ∃ stores, Filled layout root element.cell element.slots first (layout.forest.children list)
        stores ∧ stores ⊆ code

end Layout

variable {root p e : NodeId} {layout : Layout} {function : Option NodeId} {part : Part} {code : Code}
  {resolution : Resolution}

/-- Assignments and steps write. -/
def Kind.writes : Kind → Bool
  | binary .assign | unary (.step ..) => true
  | _ => false

/-- What needs the scratch slot. -/
theorem Forest.cases_of_needsScratchAt {forest : Forest} (h : forest.needsScratchAt p e) :
    (forest.kind e).writes ∧ forest.writesThroughAddress e ∧
      (forest.kind e = .binary .assign → forest.kind p ≠ .exprStatement) := by
  unfold needsScratchAt at h
  split at h
  · next hk => exact ⟨by rw [hk]; rfl, h, by simp [hk]⟩
  · next hk =>
    rw [Bool.and_eq_true, bne_iff_ne] at h
    exact ⟨by rw [hk]; rfl, h.2, fun _ => h.1⟩
  · cases h

/-- The expression that code is made for, if its value is used or it is no assignment. -/
theorem Emit.Part.eq_of_of {keep : Bool} {id : NodeId} {assigns : Prop}
    (h : Part.of keep id = .value e ∨ Part.of keep id = .effect e ∧ ¬assigns) :
    id = e ∧ (assigns → keep = true) := by
  cases keep <;> simp_all [Part.of]

/-- A target that is a name is not written through an address. -/
theorem Emit.Names.not_writes {id target d : NodeId} {place : Place} {type : Ty}
    (h : Names layout root target d place type) {others : List NodeId}
    (hchildren : layout.forest.children id = target :: others) :
    ¬layout.forest.writesThroughAddress id := by
  simp [writesThroughAddress, child?, hchildren, h.isIdentifier]

/-- What writes is no place. -/
theorem Emit.Coded.not_writes_place (h : Coded layout root (.place e) code) :
    (layout.forest.kind e).writes = false := by
  generalize hpart : Part.place e = part at h
  cases h with
  | named hnames =>
    obtain rfl := Part.place.inj hpart
    have hidentifier := hnames.isIdentifier
    cases hk : layout.forest.kind e <;> simp_all [Kind.isIdentifier, Kind.writes]
  | element his | pointee his =>
    rw [Part.place.inj hpart, his.kind_eq]
    rfl
  | assignVariable keep | assignAddress keep | stepVariable keep | stepAddress keep =>
    cases keep <;> cases hpart
  | _ => cases hpart

/-- An expression that writes through an address parks something in the scratch slot, if its value is
used or it is a step. -/
theorem Emit.Coded.parks (h : Coded layout root part code)
    (hpart : part = .value e ∨ part = .effect e ∧ ¬layout.forest.kind e = .binary .assign)
    (hkind : (layout.forest.kind e).writes) (hwrites : layout.forest.writesThroughAddress e) :
    ∃ tag slot, layout.scratch? (layout.forest.owningFunction e) = some slot ∧
      .str tag 0 slot ∈ code := by
  -- Only assignments and steps are left.
  have hother : ∀ {id : NodeId} {goal : Prop}, (layout.forest.kind id).writes = false →
      (Part.value id = .value e ∨ Part.value id = .effect e ∧
        ¬layout.forest.kind e = .binary .assign) → goal := by
    intro id goal hid hpart
    rcases hpart with heq | ⟨heq, -⟩
    · rw [Part.value.inj heq, hkind] at hid
      cases hid
    · cases heq
  have hname : ∀ {id d place type}, Names layout root id d place type →
      (layout.forest.kind id).writes = false := by
    intro id d place type hnames
    have hidentifier := hnames.isIdentifier
    cases hk : layout.forest.kind id <;> simp_all [Kind.isIdentifier, Kind.writes]
  induction h with
  | scalar hnames | array hnames => exact hother (hname hnames) hpart
  | int his | char his | string his | remainder his | logic his | compare his | arith his
  | negate his | not his | deref his | addressOf his | subscript his | conversion his =>
    exact hother (by rw [his.kind_eq]; rfl) hpart
  | call hcalls =>
    obtain ⟨name, hk⟩ := hcalls.kind_eq
    exact hother (by rw [hk]; rfl) hpart
  | assignVariable keep _ hchildren hnames =>
    obtain ⟨rfl, -⟩ := Part.eq_of_of hpart
    exact absurd hwrites (hnames.not_writes hchildren)
  | stepVariable keep _ hchildren hnames =>
    obtain ⟨rfl, -⟩ := Part.eq_of_of hpart
    exact absurd hwrites (hnames.not_writes hchildren)
  | @assignAddress _ _ _ type _ _ _ _ keep his _ _ _ _ _ _ hscratch =>
    obtain ⟨rfl, hkeep⟩ := Part.eq_of_of hpart
    have hkeep := hkeep his.kind_eq
    exact ⟨type.cell, _, hscratch hkeep, by simp [hkeep]⟩
  | stepAddress keep _ _ _ _ _ hscratch =>
    obtain ⟨rfl, -⟩ := Part.eq_of_of hpart
    exact ⟨.address, _, hscratch, by simp⟩
  | drop _ _ _ _ ih | run _ _ _ _ ih =>
    obtain ⟨heq, -⟩ := hpart.resolve_left (by simp)
    obtain ⟨tag, slot, hslot, hmem⟩ := ih (.inl (by rw [Part.effect.inj heq]))
    exact ⟨tag, slot, hslot, by simp [hmem]⟩
  | named | element | pointee | nil | cons => simp at hpart

namespace Laid

variable {sections : Sections} {session session' : Session} {m d : NodeId}
  (h : Laid root resolution layout)

include h

/-- The code of a frame contains the code of everything in the frame. -/
theorem holds_frame (hright : sections.Right layout root session session')
    {frame : Option NodeId × Code} (hframe : frame ∈ sections.frames layout root)
    (hm : Sought layout.forest frame.1 m) (hbelow : layout.forest.Below m root) :
    Holds layout root frame.2 m := by
  have hwhole := h.sound.whole
  rcases hright.cases_of_mem hframe with rfl | ⟨f, items, rfl, hitems⟩
  · have hkind := hwhole.kind_root
    obtain ⟨c, hc, hmc⟩ :=
      hm.exists_child hbelow (by simp [role, hkind, Kind.role]) (by rw [hkind]; rfl)
    have hpart : ∀ c ∈ layout.forest.children root, layout.forest.owningFunction c = none :=
      fun c hc => owner_of_mem hwhole (by rw [hkind]; rfl) hwhole.owningFunction_root hc
    have hdecl : (layout.forest.kind c).isDeclaration := by
      have hholds := hwhole.shaped root
      rw [hkind] at hholds
      refine Kind.role_eq_declaration.mp ((hholds _ (List.mem_map_of_mem hc)).resolve_right ?_)
      exact fun hrole => hm.not_below_function hwhole (Kind.role_eq_function.mp hrole) (hpart c hc) hmc
    refine (hright.initial.holds hwhole hm (fun c hc => hpart c (List.mem_of_mem_filter hc))
      ⟨c, List.mem_filter.mpr ⟨hc, hdecl⟩, hmc⟩).mono fun instr hinstr => ?_
    simp [Sections.fileCode, hinstr]
  · cases hitems with
    | @intro s signature result params body items hf _ _ hchildren hbody =>
      obtain ⟨-, hfun, -⟩ := (mem_definitions hwhole.ranked).mp hf
      obtain ⟨hmf, -⟩ := below_of_owningFunction hwhole.linked hm.owner
      have hrole := Kind.role_eq_function.mpr hfun
      obtain ⟨c, hc, hmc⟩ := hm.exists_child hmf (by rw [role, hrole]; simp)
        (by cases hk : layout.forest.kind f <;> simp_all [Kind.isFunction, Kind.isDeclaration])
      have howner : layout.forest.owningFunction c = some f := by
        rw [owningFunction_of_mem_children hwhole.linked hwhole.ranked hc, around_of_function hfun]
      obtain ⟨result', params', body', hparts, hresult, hparams, hblock⟩ := hwhole.exists_body hf
      simp only [hchildren, List.cons.injEq, and_true] at hparts
      obtain ⟨rfl, rfl, rfl⟩ := hparts
      simp only [hchildren, List.mem_cons, List.not_mem_nil, or_false] at hc
      rcases hc with rfl | rfl | rfl
      · exact absurd hmc (hm.not_below_written hwhole (by rw [hresult]; trivial))
      · exact absurd hmc (hm.not_below_written hwhole (by rw [hparams]; trivial))
      · have hkind := Kind.eq_block hblock
        obtain ⟨b, hb, hmb⟩ :=
          hm.exists_child hmc (by simp [role, hkind, Kind.role]) (by rw [hkind]; rfl)
        refine (hbody.holds hwhole hm (fun b hb => owner_of_mem hwhole (by rw [hkind]; rfl) howner hb)
          ⟨b, hb, hmb⟩).mono fun instr hinstr => ?_
        simp [hinstr]

/-- A variable takes the slots that its type asks for. -/
theorem extent_declared (hframe : layout.forest.IsFrame root function)
    (hd : d ∈ layout.forest.frameVariables root function) :
    layout.extent (.declared d) = layout.slots d := by
  obtain ⟨s, hs, hlt, hvariable⟩ := h.sound.declares function hframe d hd
  have htype := (h.sound.declared.variableAt s hlt d hvariable).type_eq
  simp [Layout.extent, Layout.slots, hs, htype]

/-- What resides in a frame, in the order of the slots. -/
theorem mem_residents (hframe : layout.forest.IsFrame root function) (resident : Resident) :
    resident ∈ layout.residents root function ↔ layout.Resides root function resident := by
  have hvariables := fun d => h.sound.whole.mem_variables (d := d) hframe
  have hstrings : ∀ id, id ∈ layout.forest.frameStrings root function ↔
      function = none ∧ (layout.forest.kind id).isString ∧ layout.forest.Below id root := by
    intro id
    cases function with
    | none => simp [frameStrings, mem_preorder h.sound.whole.ranked, and_comm]
    | some f => simp [frameStrings]
  cases resident with
  | declared d =>
    simp only [Layout.residents, List.mem_append, List.mem_map, Resident.declared.injEq,
      exists_eq_right, reduceCtorEq, and_false, exists_false, or_false, hvariables]
    constructor
    · rintro (⟨hkind, hbelow, howner⟩ | hmem)
      · exact .declared hkind hbelow howner
      · split at hmem <;> simp at hmem
    · rintro ⟨⟩
      exact .inl ⟨‹_›, ‹_›, ‹_›⟩
  | literal id =>
    simp only [Layout.residents, List.mem_append, List.mem_map, Resident.literal.injEq,
      exists_eq_right, reduceCtorEq, and_false, exists_false, false_or, hstrings]
    constructor
    · rintro (⟨hfile, hstring, hbelow⟩ | hmem)
      · exact .literal hfile hstring hbelow
      · split at hmem <;> simp at hmem
    · rintro ⟨⟩
      exact .inl ⟨‹_›, ‹_›, ‹_›⟩
  | scratch =>
    simp only [Layout.residents, List.mem_append, List.mem_map, reduceCtorEq, and_false,
      exists_false, false_or]
    constructor
    · intro hmem
      split at hmem
      · next hscratch => exact .scratch hscratch
      · cases hmem
    · rintro (_ | _ | hscratch)
      simp [hscratch]

theorem nodup_residents (hframe : layout.forest.IsFrame root function) :
    (layout.residents root function).Nodup := by
  have hwhole := h.sound.whole
  have hvariables := (hwhole.nodup_variables hframe).map (f := Resident.declared)
    fun _ _ => Resident.declared.inj
  have hstrings : (layout.forest.frameStrings root function).Nodup := by
    cases function with
    | none =>
      rw [frameStrings]
      exact (nodup_preorder hwhole.linked hwhole.ranked).filter _
    | some f => exact List.nodup_nil
  refine (hvariables.append (hstrings.map fun _ _ => Resident.literal.inj) ?_).append ?_ ?_
  · intro resident hd hid
    obtain ⟨d, -, rfl⟩ := List.mem_map.mp hd
    simp at hid
  · split
    · exact List.nodup_singleton _
    · exact List.nodup_nil
  · intro resident hmem hscratch
    split at hscratch
    · rw [List.mem_singleton.mp hscratch] at hmem
      simp at hmem
    · cases hscratch

/-- The variables and strings of a frame follow each other from the header on, and a scratch slot
comes last if code needs one. -/
theorem exists_ending (hframe : layout.forest.IsFrame root function) :
    ∃ stop, Tiled (layout.first? function) layout.extent frameHeader
        ((layout.forest.frameVariables root function).map .declared ++
          (layout.forest.frameStrings root function).map .literal) stop ∧
      ((layout.forest.frameCode root function).any layout.forest.needsScratch = true ∧
          layout.scratch? function = some stop ∧ layout.sizeOf function = stop + 1 ∨
        (layout.forest.frameCode root function).any layout.forest.needsScratch = false ∧
          layout.scratch? function = none ∧ layout.sizeOf function = stop) := by
  obtain ⟨middle, stop, hframed⟩ := h.framed function hframe
  refine ⟨stop, .append (.map ?_) (.map hframed.strings), ?_⟩
  · exact hframed.slots.congr fun d hd => ⟨rfl, h.extent_declared hframe hd⟩
  · rw [Layout.scratch?, Layout.sizeOf, hframed.frame]
    cases (layout.forest.frameCode root function).any layout.forest.needsScratch with
    | false => exact .inr ⟨rfl, rfl, rfl⟩
    | true => exact .inl ⟨rfl, rfl, rfl⟩

/-- The residents of a frame follow each other from the header to its end. -/
theorem tiled_residents (hframe : layout.forest.IsFrame root function) :
    Tiled (layout.first? function) layout.extent frameHeader (layout.residents root function)
      (layout.sizeOf function) := by
  obtain ⟨stop, htiled, ⟨-, hscratch, hsize⟩ | ⟨-, hscratch, hsize⟩⟩ := h.exists_ending hframe
  · rw [Layout.residents, hscratch, hsize]
    exact htiled.append ⟨hscratch, rfl⟩
  · rw [Layout.residents, hscratch, hsize]
    exact htiled.append rfl

omit h in
/-- The frames that code is made for. -/
theorem isFrame_of_mem (hright : sections.Right layout root session session')
    {frame : Option NodeId × Code} (hframe : frame ∈ sections.frames layout root) :
    layout.forest.IsFrame root frame.1 := by
  rcases hright.cases_of_mem hframe with rfl | ⟨f, items, rfl, hitems⟩
  · exact isFrame_none
  · cases hitems with
    | intro hf => exact isFrame_some hf

omit h in
/-- The code of a frame sets its size once. -/
theorem sizes_frame (hright : sections.Right layout root session session')
    {frame : Option NodeId × Code} (hframe : frame ∈ sections.frames layout root) :
    frame.2.filterMap Instr.size? = [layout.sizeOf frame.1] := by
  have hnone : ∀ {code : Code}, (∀ instr ∈ code, instr.size? = none) →
      code.filterMap Instr.size? = [] := fun hcode => List.filterMap_eq_nil_iff.mpr hcode
  rcases hright.cases_of_mem hframe with rfl | ⟨f, items, rfl, hitems⟩
  · have hstrings : ∀ instr ∈ strings layout root, instr.size? = none := by
      intro instr hinstr
      obtain ⟨id, -, hinstr⟩ := List.mem_flatMap.mp hinstr
      split at hinstr
      · rcases mem_storeChars hinstr with ⟨c, rfl⟩ | ⟨index, -, rfl⟩ <;> rfl
      · cases hinstr
    simp [Sections.fileCode, Instr.size?, hnone hstrings, hnone hright.initial.size?_eq]
  · cases hitems with
    | @intro s signature result params body items _ _ _ _ hbody =>
      have hbody := hnone hbody.size?_eq
      cases (layout.table.symbol s).type.isVoid <;>
        simp [Item.code, List.filterMap_cons, Instr.size?, hbody]

/-- Where a scratch slot is needed, something is parked in it. -/
theorem exists_park (hright : sections.Right layout root session session')
    {frame : Option NodeId × Code} (hframe : frame ∈ sections.frames layout root) {slot : Nat}
    (hneeds : (layout.forest.frameCode root frame.1).any layout.forest.needsScratch = true)
    (hslot : layout.scratch? frame.1 = some slot) : ∃ tag, .str tag 0 slot ∈ frame.2 := by
  have hwhole := h.sound.whole
  obtain ⟨body, hbody, hneeds⟩ := (Option.any_eq_true ..).mp hneeds
  obtain ⟨p, e, he, hp, howner, hat⟩ := (needsScratch_iff hwhole.linked hwhole.ranked).mp hneeds
  obtain ⟨hbelow, hframeOwner⟩ : layout.forest.Below body root ∧
      layout.forest.around body = frame.1 := by
    cases hfunction : frame.1 with
    | none =>
      obtain rfl : root = body := by simpa [hfunction, frameCode] using hbody
      refine ⟨.refl, ?_⟩
      rw [around_of_not_function (by rw [hwhole.kind_root]; rfl), hwhole.owningFunction_root]
    | some f =>
      have hf := isFrame_of_mem hright hframe f hfunction
      obtain ⟨hfroot, hfun, -⟩ := (mem_definitions hwhole.ranked).mp hf
      obtain ⟨_, _, body', hchildren, -, -, hrole⟩ := hwhole.exists_body hf
      obtain rfl : body' = body := by simpa [hfunction, frameCode, child?, hchildren] using hbody
      have hmem : body' ∈ layout.forest.children f := by simp [hchildren]
      refine ⟨(Below.of_mem hmem).trans hfroot, ?_⟩
      rw [around_of_not_function (by rw [Kind.eq_block hrole]; rfl),
        owningFunction_of_mem_children hwhole.linked hwhole.ranked hmem, around_of_function hfun]
  obtain ⟨hwrites, haddress, hassign⟩ := cases_of_needsScratchAt hat
  have hsought : Sought layout.forest frame.1 e := by
    refine ⟨.inl ?_, howner.trans hframeOwner⟩
    rw [role]
    cases hk : layout.forest.kind e <;>
      simp_all [Kind.writes, Kind.role, Kind.isIdentifier]
  have heroot : layout.forest.Below e root := (Below.of_mem he).trans (hp.trans hbelow)
  have hparks : ∀ {part code}, Coded layout root part code →
      (part = .value e ∨ part = .effect e ∧ ¬layout.forest.kind e = .binary .assign) →
      code ⊆ frame.2 → ∃ tag, .str tag 0 slot ∈ frame.2 := by
    intro part code hcoded hpart hsub
    obtain ⟨tag, slot', hslot', hmem⟩ := hcoded.parks hpart hwrites haddress
    rw [hsought.owner, hslot, Option.some.injEq] at hslot'
    exact ⟨tag, hsub (hslot' ▸ hmem)⟩
  rcases h.holds_frame hright hframe hsought heroot with ⟨code, hsub, hcoded | hcoded⟩ |
    ⟨hparent, hkind, hcoded, hsub⟩ | ⟨hdecl, -, -⟩
  · exact hparks hcoded (.inl rfl) hsub
  · simp [hcoded.not_writes_place] at hwrites
  · rw [hwhole.linked.parent_of_mem he, Option.some.injEq] at hparent
    exact hparks hcoded (.inr ⟨rfl, fun hk => hassign hk (hparent ▸ hkind)⟩) hsub
  · cases hk : layout.forest.kind e <;> simp_all [Kind.writes, Kind.isDeclaration]

/-- The slots of a variable are in the range of the variable. -/
theorem covers_declared (hframe : layout.forest.IsFrame root function) {first index : Nat}
    (hd : d ∈ layout.forest.frameVariables root function) (hfirst : layout.slot? d = some first)
    (hindex : index < layout.slots d) :
    ∃ resident, layout.Resides root function resident ∧ resident ≠ .scratch ∧
      Covers (layout.first? function) layout.extent resident (first + index) := by
  obtain ⟨hkind, hbelow, howner⟩ := (h.sound.whole.mem_variables hframe).mp hd
  refine ⟨.declared d, .declared hkind hbelow howner, (by simp), first, hfirst, Nat.le_add_right _ _, ?_⟩
  rw [h.extent_declared hframe hd]
  omega

/-- The slot of its own frame that an instruction loads or stores is that of the result, the scratch
slot, or one of a variable or a string. -/
theorem cases_of_ownSlot? (hframe : layout.forest.IsFrame root function) {instr : Instr}
    {target : Option NodeId} {slot : Nat} (haccess : Access layout root function instr target)
    (hslot : instr.ownSlot? = some slot) :
    slot = 0 ∨ layout.scratch? function = some slot ∨
      ∃ resident, layout.Resides root function resident ∧ resident ≠ .scratch ∧
        Covers (layout.first? function) layout.extent resident slot := by
  have hnamed : ∀ {id d place type}, Names layout root id d place type →
      layout.forest.owningFunction id = function → type.isArray = false →
      place.depth = 0 ∧ place.slot = slot → ∃ resident, layout.Resides root function resident ∧
        resident ≠ .scratch ∧ Covers (layout.first? function) layout.extent resident slot := by
    rintro id d place type hnames howner harray ⟨hdepth, rfl⟩
    have houtward := hnames.depth
    rw [hdepth, Forest.outward, Option.some.injEq, howner] at houtward
    have hslots : 0 < layout.slots d := by
      rw [hnames.slots]
      cases type <;> simp_all [Ty.slots, Ty.isArray, Ty.kind]
    exact h.covers_declared hframe (houtward ▸ hnames.mem) hnames.slot hslots
  cases haccess with
  | load hnames howner harray =>
    exact .inr (.inr (hnamed hnames howner harray (Instr.ownSlot?_lod.mp hslot)))
  | store hnames howner harray =>
    exact .inr (.inr (hnamed hnames howner harray (Instr.ownSlot?_str.mp hslot)))
  | @fill id value first index his hfile hindex =>
    obtain ⟨-, rfl⟩ := Instr.ownSlot?_str.mp hslot
    have hstring : (layout.forest.kind id).isString := by
      rw [his.kind_eq]
      rfl
    refine .inr (.inr ⟨.literal id, .literal hfile hstring his.below, (by simp), first, ?_,
      Nat.le_add_right _ _, ?_⟩)
    · simp [Layout.first?, Layout.pool?, his.kind_eq, Kind.pool?]
    · simp only [Layout.extent, Layout.chars, his.kind_eq, Kind.chars]
      omega
  | initializer hd howner hindex =>
    obtain ⟨-, rfl⟩ := Instr.ownSlot?_str.mp hslot
    rw [← hd.slots_eq] at hindex
    exact .inr (.inr (h.covers_declared hframe (howner ▸ hd.mem) hd.slot_eq hindex))
  | park _ hscratch =>
    obtain ⟨-, rfl⟩ := Instr.ownSlot?_str.mp hslot
    exact .inr (.inl hscratch)
  | unpark _ hscratch =>
    obtain ⟨-, rfl⟩ := Instr.ownSlot?_lod.mp hslot
    exact .inr (.inl hscratch)
  | result =>
    obtain ⟨-, rfl⟩ := Instr.ownSlot?_str.mp hslot
    exact .inl rfl
  | address | string | call | start | remainder => cases hslot

/-- The code of a frame uses a scratch slot if and only if the frame has one. -/
theorem scratch_iff (hright : sections.Right layout root session session')
    {frame : Option NodeId × Code} (hframe : frame ∈ sections.frames layout root) :
    layout.Resides root frame.1 .scratch ↔ layout.UsesScratch root frame.1 frame.2 := by
  have hwhole := h.sound.whole
  have hisFrame := isFrame_of_mem hright hframe
  constructor
  · rintro (_ | _ | hscratch)
    obtain ⟨stop, htiled, ⟨hneeds, hslot, -⟩ | ⟨-, hslot, -⟩⟩ := h.exists_ending hisFrame
    · obtain ⟨tag, hmem⟩ := h.exists_park hright hframe hneeds hslot
      refine ⟨_, hmem, stop, rfl, htiled.le, fun resident hresides hne hcovers => ?_⟩
      have hmem := (h.mem_residents hisFrame _).mpr hresides
      obtain ⟨first, hfirst, -, hstop⟩ := htiled.bounds (show resident ∈ _ from by
        rcases List.mem_append.mp hmem with hmem | hmem
        · exact hmem
        · rw [hslot] at hmem
          exact absurd (List.mem_singleton.mp hmem) hne)
      obtain ⟨first', hfirst', -, hlt⟩ := hcovers
      obtain rfl : first = first' := Option.some.inj (hfirst.symm.trans hfirst')
      omega
    · simp [hslot] at hscratch
  · rintro ⟨instr, hinstr, slot, hslot, hheader, hfree⟩
    rcases h.reaches_frame hright hframe instr hinstr with hnone | ⟨target, haccess⟩
    · cases instr <;> simp_all [Instr.depth?, Instr.ownSlot?]
    · rcases h.cases_of_ownSlot? hisFrame haccess hslot with rfl | hscratch | ⟨resident, hin, hne, hc⟩
      · cases hheader
      · exact .scratch (by rw [hscratch]; rfl)
      · exact absurd hc (hfree resident hin hne)

/-- Parameters have the first slots. -/
theorem slot?_parameter {f params index : Nat} (hframe : layout.forest.IsFrame root (some f))
    (hchild : layout.forest.child? f 1 = some params)
    (hd : (layout.forest.children params)[index]? = some d) :
    layout.slot? d = some (frameHeader + index) := by
  have hwhole := h.sound.whole
  obtain ⟨middle, stop, hframed⟩ := h.framed _ hframe
  have hslots := hframed.slots
  rw [frameVariables, hchild, Option.elim_some] at hslots
  refine hslots.first_eq (fun d hd => ?_) hd
  obtain ⟨_, params', _, hchildren, -, hrole, -⟩ := hwhole.exists_body (hframe f rfl)
  obtain rfl : params' = params := by simpa [child?, hchildren] using hchild
  have hparameter := hwhole.isParameter_of_mem hrole hd
  have hmem : d ∈ layout.forest.frameVariables root (some f) := by
    rw [frameVariables, hchild]
    exact List.mem_append_left _ hd
  obtain ⟨s, hs, hlt, hvariable⟩ := h.sound.declares _ hframe d hmem
  have hflat : (layout.table.symbol s).type.Flat := by
    rcases (h.sound.declared.variableAt s hlt d hvariable).role with hdecl | ⟨-, hflat⟩
    · rw [role, Kind.role_eq_parameter.mpr hparameter] at hdecl
      cases hdecl
    · exact hflat
  simp only [Layout.slots, hs, Option.map_some, Option.getD_some]
  cases htype : (layout.table.symbol s).type with
  | base | pointer => rfl
  | array =>
    rw [htype] at hflat
    exact hflat.elim

/-- The elements of an array are stored within the array. -/
theorem stored (hright : sections.Right layout root session session')
    {frame : Option NodeId × Code} (hframe : frame ∈ sections.frames layout root) {list : NodeId}
    (hd : layout.Resides root frame.1 (.declared d)) (hchild : layout.forest.child? d 1 = some list)
    (hlist : layout.forest.kind list = .initializers) :
    ∃ element size constant first, layout.forest.type? d = some (.array element size constant) ∧
      layout.slot? d = some first ∧
      (∀ index < (layout.forest.children list).length,
        first + index * element.slots + element.slots ≤ first + layout.extent (.declared d)) ∧
      ∃ stores, Filled layout root element.cell element.slots first (layout.forest.children list)
        stores ∧ stores ⊆ frame.2 := by
  have hwhole := h.sound.whole
  cases hd with
  | declared hkind hbelow howner =>
    have hdecl : (layout.forest.kind d).isDeclaration := by
      refine hkind.resolve_right fun hparameter => ?_
      have hholds := hwhole.shaped d
      cases hk : layout.forest.kind d with
      | parameter name symbol =>
        rw [hk] at hholds
        obtain ⟨a, hchildren, -⟩ := exists_single hholds
        simp [child?, hchildren] at hchild
      | _ => simp [hk, Kind.isParameter] at hparameter
    have hnot : layout.forest.role d ≠ .expression := by
      rw [role, Kind.role_eq_declaration.mpr hdecl]
      simp
    rcases h.holds_frame hright hframe ⟨.inr hdecl, howner⟩ hbelow with ⟨code, -, hcoded | hcoded⟩ |
      ⟨-, -, hcoded, -⟩ | ⟨-, hlowered, hsub⟩
    · exact absurd (hcoded.role_eq (.inl rfl)) hnot
    · exact absurd (hcoded.role_eq (.inr (.inr rfl))) hnot
    · exact absurd (hcoded.role_eq (.inr (.inl rfl))) hnot
    · rcases hlowered.cases_of_declaration hdecl with ⟨-, hnone⟩ |
        ⟨initial, slot, type, code, -, hinitial, hvalue, -⟩ |
        ⟨list', slot, element, size, constant, code, hd, hinitial, -, hlength, hfilled, rfl⟩
      · simp [hchild] at hnone
      · obtain rfl : list = initial := Option.some.inj (hchild.symm.trans hinitial)
        have hrole := hvalue.role_eq (.inl rfl)
        rw [role, hlist] at hrole
        cases hrole
      · obtain rfl : list = list' := Option.some.inj (hchild.symm.trans hinitial)
        refine ⟨element, size, constant, slot, hd.type_eq, hd.slot_eq, fun index hindex => ?_, code,
          hfilled, by simpa [Item.code] using hsub⟩
        have hextent : layout.extent (.declared d) = element.slots * size := by
          simp [Layout.extent, hd.type_eq, Ty.slots]
        rw [hextent, Nat.add_assoc, ← Nat.succ_mul, Nat.mul_comm]
        exact Nat.add_le_add_left (Nat.mul_le_mul_left _ (by omega)) _

end Laid

end MiniC
