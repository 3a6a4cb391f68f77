import MiniC.Proofs.Emit.Program

/-!
# What code accesses

Every instruction that names a slot or opens a frame is there for something: a variable, a string, a
call, an initializer, the scratch slot of the frame, or its result. `Access` says for what, and that
the depth of the instruction is the number of static links that lead there from the frame that the
code is in.
-/

namespace MiniC

open Machine Forest Emit

/-- How many static links an instruction follows. -/
def Machine.Instr.depth? : Instr → Option Nat
  | lod _ depth _ | str _ depth _ | lda depth _ | mst depth => some depth
  | _ => none

namespace Emit

/-- Everything that code is made for is in a frame. -/
def Part.In (forest : Forest) (function : Option NodeId) : Part → Prop
  | value id | effect id | place id => forest.owningFunction id = function
  | arguments ids => ∀ id ∈ ids, forest.owningFunction id = function

/-- What an instruction is for in the code of the frame of a function or of the file, and the frame
that this is in. -/
inductive Access (layout : Layout) (root : NodeId) (function : Option NodeId) :
    Instr → Option NodeId → Prop
  | load {id d : NodeId} {place : Place} {type : Ty} (hnames : Names layout root id d place type)
      (howner : layout.forest.owningFunction id = function) (harray : type.isArray = false) :
      Access layout root function (.lod type.cell place.depth place.slot)
        (layout.forest.owningFunction d)
  | store {id d : NodeId} {place : Place} {type : Ty} (hnames : Names layout root id d place type)
      (howner : layout.forest.owningFunction id = function) (harray : type.isArray = false) :
      Access layout root function (.str type.cell place.depth place.slot)
        (layout.forest.owningFunction d)
  | address {id d : NodeId} {place : Place} {type : Ty} (hnames : Names layout root id d place type)
      (howner : layout.forest.owningFunction id = function) :
      Access layout root function (.lda place.depth place.slot) (layout.forest.owningFunction d)
  | string {id : NodeId} {value : String} {slot depth : Nat}
      (his : Is layout root id (.string value (some slot)) (.pointerTo .char))
      (howner : layout.forest.owningFunction id = function)
      (hdepth : layout.forest.outward depth function = some none) :
      Access layout root function (.lda depth slot) none
  | fill {id : NodeId} {value : String} {slot index : Nat}
      (his : Is layout root id (.string value (some slot)) (.pointerTo .char))
      (hfile : function = none) (hindex : index ≤ value.length) :
      Access layout root function (.str .char 0 (slot + index)) none
  | call {id : NodeId} {s : SymbolId} {signature : Signature} {depth : Nat}
      (hcalls : Calls layout root id s signature depth)
      (howner : layout.forest.owningFunction id = function) :
      Access layout root function (.mst depth) (layout.table.symbol s).frame
  | start {s : SymbolId} {signature : Signature} (hmain : IsMain layout.table s signature)
      (hfile : function = none) (hframe : (layout.table.symbol s).frame = none) :
      Access layout root function (.mst 0) (layout.table.symbol s).frame
  | remainder {id : NodeId} {depth : Nat} (his : Is layout root id (.binary .remainder) .int)
      (howner : layout.forest.owningFunction id = function)
      (hdepth : layout.forest.outward depth function = some none) :
      Access layout root function (.mst depth) none
  | initializer {d : NodeId} {slot index : Nat} {type : Ty} {tag : Tag}
      (hd : Initializes layout root d slot type)
      (howner : layout.forest.owningFunction d = function) (hindex : index < type.slots)
      (htag : type.isArray = false → tag = type.cell) :
      Access layout root function (.str tag 0 (slot + index)) (layout.forest.owningFunction d)
  | park {slot : Nat} (tag : Tag) (hscratch : layout.scratch? function = some slot) :
      Access layout root function (.str tag 0 slot) function
  | unpark {slot : Nat} (tag : Tag) (hscratch : layout.scratch? function = some slot) :
      Access layout root function (.lod tag 0 slot) function
  | result (tag : Tag) : Access layout root function (.str tag 0 0) function

/-- An instruction that names no frame, or one that names the frame of what it is for. -/
def Reaches (layout : Layout) (root : NodeId) (function : Option NodeId) (instr : Instr) : Prop :=
  instr.depth? = none ∨ ∃ target, Access layout root function instr target

variable {layout : Layout} {root : NodeId} {function : Option NodeId} {part : Part} {code : Code}

/-- The parts of an expression are in its frame. -/
theorem Is.owner_eq {id c : NodeId} {kind : Kind} {type : Ty} (h : Is layout root id kind type)
    (hwhole : layout.forest.Whole root) (hkind : kind.isFunction = false)
    (howner : layout.forest.owningFunction id = function) (hc : c ∈ layout.forest.children id) :
    layout.forest.owningFunction c = function := by
  rw [owningFunction_of_mem_children hwhole.linked hwhole.ranked hc,
    around_of_not_function (h.kind_eq ▸ hkind), howner]

@[simp] theorem Part.in_of {forest : Forest} (keep : Bool) (id : NodeId) :
    (Part.of keep id).In forest function ↔ forest.owningFunction id = function := by
  cases keep <;> rfl

/-- The code of an expression accesses what can be reached from its frame. -/
theorem Coded.access (h : Coded layout root part code) (hwhole : layout.forest.Whole root)
    (hpart : part.In layout.forest function) : ∀ instr ∈ code, Reaches layout root function instr := by
  induction h with
  | int | char => exact List.forall_mem_singleton.mpr (.inl rfl)
  | string his hdepth =>
    have howner : layout.forest.owningFunction _ = function := hpart
    exact List.forall_mem_singleton.mpr (.inr ⟨_, .string his howner (howner ▸ hdepth)⟩)
  | scalar hnames harray => exact List.forall_mem_singleton.mpr (.inr ⟨_, .load hnames hpart harray⟩)
  | array hnames => exact List.forall_mem_singleton.mpr (.inr ⟨_, .address hnames hpart⟩)
  | @call id s signature depth code hcalls harguments ih =>
    obtain ⟨name, hkind⟩ := hcalls.kind_eq
    have hids : ∀ c ∈ layout.forest.children id, layout.forest.owningFunction c = function :=
      fun c hc => Is.owner_eq ⟨hcalls.below, hkind, hcalls.type_eq⟩ hwhole rfl hpart hc
    simp only [List.forall_mem_append, List.forall_mem_singleton]
    refine ⟨⟨⟨.inr ⟨_, .call hcalls hpart⟩, ?_⟩, ih hids⟩, .inl rfl⟩
    split
    · exact List.forall_mem_singleton.mpr (.inl rfl)
    · exact List.forall_mem_nil _
  | @assignVariable id target value d place type given code keep his hchildren hnames harray _ _ _ ih =>
    have howner : layout.forest.owningFunction id = function := Part.in_of keep id |>.mp hpart
    have htarget := his.owner_eq hwhole rfl howner (c := target) (by simp [hchildren])
    have hvalue := his.owner_eq hwhole rfl howner (c := value) (by simp [hchildren])
    simp only [List.forall_mem_append, List.forall_mem_singleton]
    refine ⟨⟨ih hvalue, .inr ⟨_, .store hnames htarget harray⟩⟩, ?_⟩
    split
    · exact List.forall_mem_singleton.mpr (.inr ⟨_, .load hnames htarget harray⟩)
    · exact List.forall_mem_nil _
  | @assignAddress id target value type given scratch _ _ keep his hchildren _ _ _ _ _ hscratch _ _
      ihplace ihvalue =>
    have howner : layout.forest.owningFunction id = function := Part.in_of keep id |>.mp hpart
    have htarget := his.owner_eq hwhole rfl howner (c := target) (by simp [hchildren])
    have hvalue := his.owner_eq hwhole rfl howner (c := value) (by simp [hchildren])
    simp only [List.forall_mem_append]
    refine ⟨⟨ihplace htarget, ihvalue hvalue⟩, ?_⟩
    split
    · next hkeep =>
      have hslot : layout.scratch? function = some scratch := howner ▸ hscratch hkeep
      simp only [List.forall_mem_singleton, List.forall_mem_cons]
      exact ⟨.inr ⟨_, .park _ hslot⟩, .inr ⟨_, .unpark _ hslot⟩, .inl rfl, .inr ⟨_, .unpark _ hslot⟩⟩
    · exact List.forall_mem_singleton.mpr (.inl rfl)
  | @stepVariable id target d place type position direction keep his hchildren hnames hscalar =>
    have howner : layout.forest.owningFunction id = function := Part.in_of keep id |>.mp hpart
    have htarget := his.owner_eq hwhole rfl howner (c := target) (by simp [hchildren])
    have harray := Ty.not_array_of_isScalar hscalar
    have hload : Reaches layout root function (.lod type.cell place.depth place.slot) :=
      .inr ⟨_, .load hnames htarget harray⟩
    simp only [List.forall_mem_append, List.forall_mem_singleton, List.forall_mem_cons]
    refine ⟨⟨⟨?_, hload⟩, ?_, .inr ⟨_, .store hnames htarget harray⟩⟩, ?_⟩
    · split
      · exact List.forall_mem_singleton.mpr hload
      · exact List.forall_mem_nil _
    · cases direction <;> exact .inl rfl
    · split
      · exact List.forall_mem_singleton.mpr hload
      · exact List.forall_mem_nil _
  | @stepAddress id target type position direction scratch targetCode keep his hchildren _ _ hscalar
      hscratch _ ih =>
    have howner : layout.forest.owningFunction id = function := Part.in_of keep id |>.mp hpart
    have htarget := his.owner_eq hwhole rfl howner (c := target) (by simp [hchildren])
    have hslot : layout.scratch? function = some scratch := howner ▸ hscratch
    have hload : ∀ instr ∈ [Instr.lod .address 0 scratch, .ind type.cell],
        Reaches layout root function instr := by
      simp only [List.forall_mem_singleton, List.forall_mem_cons]
      exact ⟨.inr ⟨_, .unpark _ hslot⟩, .inl rfl⟩
    simp only [List.forall_mem_append, List.forall_mem_singleton]
    refine ⟨⟨⟨⟨⟨⟨ih htarget, .inr ⟨_, .park _ hslot⟩⟩, ?_⟩, .inr ⟨_, .unpark _ hslot⟩⟩, hload⟩, ?_⟩, ?_⟩
    · split
      · exact hload
      · exact List.forall_mem_nil _
    · simp only [List.forall_mem_singleton, List.forall_mem_cons]
      cases direction <;> exact ⟨.inl rfl, .inl rfl⟩
    · split
      · exact hload
      · exact List.forall_mem_nil _
  | @remainder id left right depth _ _ his hchildren _ _ hdepth _ _ ihleft ihright =>
    have howner : layout.forest.owningFunction id = function := hpart
    have hleft := his.owner_eq hwhole rfl howner (c := left) (by simp [hchildren])
    have hright := his.owner_eq hwhole rfl howner (c := right) (by simp [hchildren])
    simp only [List.forall_mem_append, List.forall_mem_singleton]
    exact ⟨⟨⟨.inr ⟨_, .remainder his howner (howner ▸ hdepth)⟩, ihleft hleft⟩, ihright hright⟩, .inl rfl⟩
  | @logic id left right _ _ _ his hchildren _ _ _ _ ihleft ihright =>
    have hleft := his.owner_eq hwhole rfl hpart (c := left) (by simp [hchildren])
    have hright := his.owner_eq hwhole rfl hpart (c := right) (by simp [hchildren])
    simp only [List.forall_mem_append, List.forall_mem_singleton, List.forall_mem_cons]
    exact ⟨⟨⟨ihleft hleft, .inl rfl⟩, ihright hright⟩, .inl rfl, .inl rfl, .inl rfl⟩
  | @compare id left right _ _ _ _ _ his hchildren _ _ _ _ _ _ ihleft ihright =>
    have hleft := his.owner_eq hwhole rfl hpart (c := left) (by simp [hchildren])
    have hright := his.owner_eq hwhole rfl hpart (c := right) (by simp [hchildren])
    simp only [List.forall_mem_append, List.forall_mem_singleton, List.forall_mem_cons]
    exact ⟨⟨ihleft hleft, ihright hright⟩, .inl rfl, .inl rfl⟩
  | @arith id left right _ _ _ _ _ _ his hchildren _ _ _ _ _ _ _ ihleft ihright =>
    have hleft := his.owner_eq hwhole rfl hpart (c := left) (by simp [hchildren])
    have hright := his.owner_eq hwhole rfl hpart (c := right) (by simp [hchildren])
    simp only [List.forall_mem_append, List.forall_mem_singleton]
    exact ⟨⟨ihleft hleft, ihright hright⟩, .inl rfl⟩
  | @negate id operand _ _ his hchildren _ _ _ ih =>
    have hoperand := his.owner_eq hwhole rfl hpart (c := operand) (by simp [hchildren])
    simp only [List.forall_mem_append, List.forall_mem_singleton]
    exact ⟨ih hoperand, .inl rfl⟩
  | @not id operand _ his hchildren _ _ ih =>
    have hoperand := his.owner_eq hwhole rfl hpart (c := operand) (by simp [hchildren])
    simp only [List.forall_mem_append, List.forall_mem_singleton, List.forall_mem_cons]
    exact ⟨ih hoperand, .inl rfl, .inl rfl, .inl rfl⟩
  | deref _ _ _ ih | subscript _ _ _ ih =>
    simp only [List.forall_mem_append, List.forall_mem_singleton]
    exact ⟨ih hpart, .inl rfl⟩
  | @addressOf id operand _ _ his hchildren _ _ ih =>
    exact ih (his.owner_eq hwhole rfl hpart (c := operand) (by simp [hchildren]))
  | @conversion id inner change _ his hchildren _ _ _ ih =>
    simp only [List.forall_mem_append]
    refine ⟨ih (his.owner_eq hwhole rfl hpart (c := inner) (by simp [hchildren])), ?_⟩
    cases change.coercion with
    | none => exact List.forall_mem_nil _
    | some tags => exact List.forall_mem_singleton.mpr (.inl rfl)
  | named hnames => exact List.forall_mem_singleton.mpr (.inr ⟨_, .address hnames hpart⟩)
  | @element id base index _ _ _ _ _ his hchildren _ _ _ _ _ ihbase ihindex =>
    have hbase := his.owner_eq hwhole rfl hpart (c := base) (by simp [hchildren])
    have hindex := his.owner_eq hwhole rfl hpart (c := index) (by simp [hchildren])
    simp only [List.forall_mem_append, List.forall_mem_singleton]
    exact ⟨⟨ihbase hbase, ihindex hindex⟩, .inl rfl⟩
  | @pointee id operand _ _ _ his hchildren _ _ _ ih =>
    exact ih (his.owner_eq hwhole rfl hpart (c := operand) (by simp [hchildren]))
  | drop _ _ _ _ ih =>
    simp only [List.forall_mem_append, List.forall_mem_singleton]
    exact ⟨ih hpart, .inr ⟨_, .result _⟩⟩
  | run _ _ _ _ ih => exact ih hpart
  | nil => exact List.forall_mem_nil _
  | cons _ _ ihvalue ihothers =>
    obtain ⟨hid, hothers⟩ := List.forall_mem_cons.mp (show ∀ c ∈ _ :: _, _ from hpart)
    exact List.forall_mem_append.mpr ⟨ihvalue hid, ihothers hothers⟩

/-! ## Statements -/

/-- Everything that code is made for is in a frame. -/
def Piece.In (forest : Forest) (function : Option NodeId) : Piece → Prop
  | statement id => forest.owningFunction id = function
  | statements ids => ∀ id ∈ ids, forest.owningFunction id = function

/-- The code that stores values into the elements of a variable stays within it. -/
theorem Filled.access {d : NodeId} {slot size : Nat} {type : Ty} {tag : Tag}
    (hd : Initializes layout root d slot type) (howner : layout.forest.owningFunction d = function)
    (hwhole : layout.forest.Whole root) (harray : type.isArray = true) (hsize : 0 < size)
    {first : Nat} {items : List NodeId} (h : Filled layout root tag size first items code) :
    ∀ {index}, first = slot + index → index + items.length * size ≤ type.slots →
      (∀ item ∈ items, layout.forest.owningFunction item = function) →
      ∀ instr ∈ code, Reaches layout root function instr := by
  induction h with
  | nil => exact fun _ _ _ => List.forall_mem_nil _
  | @cons first item others code rest hvalue _ ih =>
    intro index hfrom hwithin hitems
    obtain ⟨hitem, hothers⟩ := List.forall_mem_cons.mp hitems
    rw [List.length_cons, Nat.add_mul, Nat.one_mul] at hwithin
    simp only [List.forall_mem_append, List.forall_mem_singleton]
    refine ⟨⟨hvalue.access hwhole hitem, ?_⟩,
      ih (show _ = slot + (index + size) by omega) (by omega) hothers⟩
    rw [hfrom]
    exact .inr ⟨_, .initializer hd howner (by omega) fun h => by simp [harray] at h⟩

/-- The parts of a statement are in its frame. -/
theorem owner_of_mem {id c : NodeId} (hwhole : layout.forest.Whole root)
    (hkind : (layout.forest.kind id).isFunction = false)
    (howner : layout.forest.owningFunction id = function) (hc : c ∈ layout.forest.children id) :
    layout.forest.owningFunction c = function := by
  rw [owningFunction_of_mem_children hwhole.linked hwhole.ranked hc, around_of_not_function hkind,
    howner]

/-- What is below a function in the frame that the function is in is the function itself. -/
theorem eq_of_owner {forest : Forest} {s f : NodeId} {function : Option NodeId}
    (hwhole : forest.Whole root) (hfun : (forest.kind f).isFunction)
    (hf : forest.owningFunction f = function) (hs : forest.owningFunction s = function)
    (h : forest.Below s f) : s = f := by
  by_contra hne
  obtain ⟨g, hg, hgf⟩ := exists_owningFunction hwhole.linked hwhole.ranked hfun h hne
  rw [← hs, hg] at hf
  obtain rfl : f = g :=
    Below.antisymm hwhole.ranked (below_of_owningFunction hwhole.linked hf).1 hgf
  exact owningFunction_ne hwhole.linked hwhole.ranked hf

theorem Tests.access {test : NodeId} (h : Tests layout root test code) (target : Label)
    (hwhole : layout.forest.Whole root) (howner : layout.forest.owningFunction test = function) :
    ∀ instr ∈ codeOf (jumpItems test code target), Reaches layout root function instr := by
  simp only [jumpItems, codeOf_cons, codeOf_nil, Item.code, List.append_nil, List.forall_mem_append,
    List.forall_mem_singleton]
  exact ⟨⟨h.value.access hwhole howner, .inl rfl⟩, .inl rfl⟩

theorem Guards.access {test : NodeId} {target : Label} {items : List Item}
    (h : Guards layout root test target items) (hwhole : layout.forest.Whole root)
    (howner : layout.forest.owningFunction test = function) :
    ∀ instr ∈ codeOf items, Reaches layout root function instr := by
  cases h with
  | always => exact List.forall_mem_nil _
  | tested _ htest => exact htest.access target hwhole howner

/-- The code of a statement accesses what can be reached from its frame. -/
theorem Lowered.access {piece : Piece} {items : List Item} (h : Lowered layout root piece items)
    (hwhole : layout.forest.Whole root) (hpiece : piece.In layout.forest function) :
    ∀ instr ∈ codeOf items, Reaches layout root function instr := by
  induction h with
  | declared | function | nothing | nil => exact List.forall_mem_nil _
  | @initialized d initial slot type given code hd hinitial harray _ _ hvalue =>
    have hmem := List.mem_of_getElem? hinitial
    have howner := owner_of_mem hwhole (Kind.not_isFunction_of_isDeclaration hd.isDeclaration)
      hpiece hmem
    simp only [codeOf_cons, codeOf_nil, Item.code, List.append_nil, List.forall_mem_append,
      List.forall_mem_singleton]
    refine ⟨hvalue.access hwhole howner, ?_⟩
    have hslots : 0 < type.slots := by cases type <;> simp_all [Ty.slots, Ty.isArray, Ty.kind]
    exact .inr ⟨_, .initializer hd hpiece hslots fun _ => rfl⟩
  | @listed d list slot element size constant code hd hinitial hlist hlength _ hfilled =>
    have hmem := List.mem_of_getElem? hinitial
    have howner := owner_of_mem hwhole (Kind.not_isFunction_of_isDeclaration hd.isDeclaration)
      hpiece hmem
    have hitems : ∀ item ∈ layout.forest.children list,
        layout.forest.owningFunction item = function :=
      fun _ hitem => owner_of_mem hwhole (by rw [hlist]; rfl) howner hitem
    have hflat : element.Flat := hd.ofVariable.shallow
    have hslots : element.slots = 1 := by cases element <;> first | rfl | exact hflat.elim
    simp only [codeOf_cons, codeOf_nil, Item.code, List.append_nil]
    refine hfilled.access hd hpiece hwhole rfl (by omega) (show slot = slot + 0 from rfl) ?_ hitems
    simpa [Ty.slots, hslots] using hlength
  | block hkind _ ih =>
    exact ih fun c hc => owner_of_mem hwhole (by rw [hkind]; rfl) hpiece hc
  | @exprStatement id e code hkind hchildren _ hcode =>
    simp only [codeOf_cons, codeOf_nil, Item.code, List.append_nil]
    exact hcode.access hwhole (owner_of_mem hwhole (by rw [hkind]; rfl) hpiece (by simp [hchildren]))
  | @ifThen id test yes labels code items hkind hchildren htest _ ih =>
    have hpart : ∀ c ∈ layout.forest.children id, layout.forest.owningFunction c = function :=
      fun c hc => owner_of_mem hwhole (by rw [hkind]; rfl) hpiece hc
    simp only [codeOf_append, codeOf_cons, codeOf_nil, Item.code, List.append_nil,
      List.forall_mem_append, List.forall_mem_singleton]
    exact ⟨⟨htest.access _ hwhole (hpart _ (by simp [hchildren])),
      ih (hpart _ (by simp [hchildren]))⟩, .inl rfl⟩
  | @ifElse id test yes no labels code items others hkind hchildren htest _ _ ihyes ihno =>
    have hpart : ∀ c ∈ layout.forest.children id, layout.forest.owningFunction c = function :=
      fun c hc => owner_of_mem hwhole (by rw [hkind]; rfl) hpiece hc
    simp only [codeOf_append, codeOf_cons, codeOf_nil, Item.code, List.append_nil,
      List.forall_mem_append, List.forall_mem_singleton]
    exact ⟨⟨⟨⟨htest.access _ hwhole (hpart _ (by simp [hchildren])),
      ihyes (hpart _ (by simp [hchildren]))⟩, .inl rfl, .inl rfl⟩,
      ihno (hpart _ (by simp [hchildren]))⟩, .inl rfl⟩
  | @whileLoop id test body labels code items hkind hchildren htest _ ih =>
    have hpart : ∀ c ∈ layout.forest.children id, layout.forest.owningFunction c = function :=
      fun c hc => owner_of_mem hwhole (by rw [hkind]; rfl) hpiece hc
    simp only [codeOf_append, codeOf_cons, codeOf_nil, Item.code, List.append_nil,
      List.forall_mem_append, List.forall_mem_singleton]
    exact ⟨⟨⟨.inl rfl, htest.access _ hwhole (hpart _ (by simp [hchildren]))⟩,
      ih (hpart _ (by simp [hchildren]))⟩, .inl rfl, .inl rfl⟩
  | @forLoop id start test next body labels first guard items others hkind hchildren _ hguard _ _ _
      ihstart ihbody ihnext =>
    have hpart : ∀ c ∈ layout.forest.children id, layout.forest.owningFunction c = function :=
      fun c hc => owner_of_mem hwhole (by rw [hkind]; rfl) hpiece hc
    simp only [codeOf_append, codeOf_cons, codeOf_nil, Item.code, List.append_nil,
      List.forall_mem_append, List.forall_mem_singleton]
    exact ⟨⟨⟨⟨⟨⟨ihstart (hpart _ (by simp [hchildren])), .inl rfl⟩,
      hguard.access hwhole (hpart _ (by simp [hchildren]))⟩,
      ihbody (hpart _ (by simp [hchildren]))⟩, .inl rfl⟩,
      ihnext (hpart _ (by simp [hchildren]))⟩, .inl rfl, .inl rfl⟩
  | leave => exact List.forall_mem_singleton.mpr (.inl rfl)
  | @giveBack id value f type result code hkind hchildren _ _ _ _ _ _ hvalue =>
    simp only [codeOf_cons, codeOf_nil, Item.code, List.append_nil, List.forall_mem_append,
      List.forall_mem_singleton]
    exact ⟨⟨hvalue.access hwhole (owner_of_mem hwhole (by rw [hkind]; rfl) hpiece
      (by simp [hchildren])), .inr ⟨_, .result _⟩⟩, .inl rfl⟩
  | jump => exact List.forall_mem_singleton.mpr (.inl rfl)
  | cons _ _ ihitems ihothers =>
    obtain ⟨hid, hothers⟩ := List.forall_mem_cons.mp (show ∀ c ∈ _ :: _, _ from hpiece)
    rw [codeOf_append]
    exact List.forall_mem_append.mpr ⟨ihitems hid, ihothers hothers⟩

/-- The code of a function accesses what can be reached from its frame. -/
theorem Sectioned.access {f : NodeId} {items : List Item} (h : Sectioned layout root f items)
    (hwhole : layout.forest.Whole root) :
    ∀ instr ∈ codeOf items, Reaches layout root (some f) instr := by
  cases h with
  | @intro s signature result params body items hf _ _ hchildren hbody =>
    obtain ⟨-, hfun, -⟩ := (mem_definitions hwhole.ranked).mp hf
    obtain ⟨_, _, body', hchildren', -, -, hrole⟩ := hwhole.exists_body hf
    have hbodyOwner : layout.forest.owningFunction body = some f := by
      rw [owningFunction_of_mem_children hwhole.linked hwhole.ranked
        (show body ∈ layout.forest.children f by simp [hchildren]), around_of_function hfun]
    have hkind : layout.forest.kind body = .block := by
      simp only [hchildren, List.cons.injEq] at hchildren'
      exact Kind.eq_block (hchildren'.2.2.1 ▸ hrole)
    have hpiece : (Piece.statements (layout.forest.children body)).In layout.forest (some f) :=
      fun c hc => owner_of_mem hwhole (by rw [hkind]; rfl) hbodyOwner hc
    simp only [codeOf_append, codeOf_cons, codeOf_nil, Item.code, List.append_nil,
      List.forall_mem_append, List.forall_mem_singleton]
    refine ⟨⟨⟨.inl rfl, .inl rfl⟩, hbody.access hwhole hpiece⟩, ?_⟩
    split <;> exact .inl rfl

/-! ## Frames -/

/-- Characters are stored one behind the other. -/
theorem mem_storeChars {instr : Instr} : ∀ {slot : Nat} {chars : List Char},
    instr ∈ storeChars slot chars → (∃ c, instr = .ldc (.char c)) ∨
      ∃ index < chars.length, instr = .str .char 0 (slot + index) := by
  intro slot chars
  induction chars generalizing slot with
  | nil => simp [storeChars]
  | cons c chars ih =>
    intro hmem
    rcases List.mem_append.mp hmem with hmem | hmem
    · simp only [List.mem_cons, List.not_mem_nil, or_false] at hmem
      rcases hmem with rfl | rfl
      · exact .inl ⟨c, rfl⟩
      · exact .inr ⟨0, Nat.zero_lt_succ _, rfl⟩
    · rcases ih hmem with hldc | ⟨index, hindex, rfl⟩
      · exact .inl hldc
      · exact .inr ⟨index + 1, Nat.succ_lt_succ hindex, by rw [Nat.add_right_comm, Nat.add_assoc]⟩

end Emit

namespace Laid

variable {root : NodeId} {resolution : Resolution} {layout : Layout} {sections : Sections}
  {session session' : Session} (h : Laid root resolution layout)
  (hright : sections.Right layout root session session')

include h

/-- Strings are stored in the frame of the file. -/
theorem reaches_strings : ∀ instr ∈ strings layout root, Reaches layout root none instr := by
  intro instr hmem
  obtain ⟨id, hid, hmem⟩ := List.mem_flatMap.mp hmem
  have hbelow := (mem_preorder h.sound.whole.ranked).mp hid
  split at hmem
  · next value slot hk =>
    obtain ⟨type, htype, hjudged⟩ := h.sound.expression id hbelow (by rw [role, hk]; rfl)
    have hrule := hjudged.rule
    unfold ExpressionRule at hrule
    simp only [hk] at hrule
    rcases mem_storeChars hmem with ⟨c, rfl⟩ | ⟨index, hindex, rfl⟩
    · exact .inl rfl
    · rw [List.length_append, List.length_singleton, String.length_toList] at hindex
      exact .inr ⟨_, .fill ⟨hbelow, hk, hrule ▸ htype⟩ rfl (Nat.le_of_lt_succ hindex)⟩
  · cases hmem

include hright

/-- The code of a frame accesses what can be reached from the frame. -/
theorem reaches_frame {frame : Option NodeId × Code} (hframe : frame ∈ sections.frames layout root) :
    ∀ instr ∈ frame.2, Reaches layout root frame.1 instr := by
  have hwhole := h.sound.whole
  rcases hright.cases_of_mem hframe with rfl | ⟨f, items, rfl, hitems⟩
  · have hglobals : (Piece.statements (layout.forest.frameVariables root none)).In layout.forest
        none := by
      intro d hd
      exact owner_of_mem hwhole (by rw [hwhole.kind_root]; rfl) hwhole.owningFunction_root
        (List.mem_of_mem_filter hd)
    obtain ⟨s, signature, hmain, -⟩ := hright.main
    obtain ⟨-, -, hfile⟩ := h.sound.file _ s hmain.lookup_eq
    simp only [Sections.fileCode, List.forall_mem_append, List.forall_mem_singleton,
      List.forall_mem_cons]
    exact ⟨⟨⟨.inl rfl, h.reaches_strings⟩, hright.initial.access hwhole hglobals⟩,
      .inr ⟨_, .start hmain rfl hfile⟩, .inl rfl, .inl rfl⟩
  · exact hitems.access hwhole

end Laid

end MiniC
