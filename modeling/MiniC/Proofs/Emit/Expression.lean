import MiniC.Proofs.Emit.Steps

/-!
# Code of expressions can be made

In a laid-out program every name has a slot, every string has a place, and every frame whose code
needs a scratch slot has one. So making the code of an expression is never refused, and gives code as
`Coded` says.
-/

namespace MiniC

open Machine Forest Emit Ensures

variable {root id c p : NodeId} {resolution : Resolution} {layout : Layout} {forest : Forest}
  {table : SymbolTable} {drawn : Nat}

namespace Ty

theorem Flat.not_array {type : Ty} (h : type.Flat) : type.isArray = false := by
  cases type with
  | base name => cases name <;> rfl
  | pointer => rfl
  | array => exact h.elim

/-- What a pointer points at is no array. -/
theorem Shallow.pointee {type target : Ty} (h : type.Shallow) (htarget : type.pointee? = some target) :
    target.isArray = false := by
  cases type with
  | pointer =>
    obtain rfl := Option.some.inj htarget
    exact Flat.not_array h
  | base | array => cases htarget

/-- The elements of an array or of what a pointer points at are no arrays. -/
theorem Shallow.elements {type element : Ty} {size : Option Nat} (h : type.Shallow)
    (helement : Resolve.elements? type = some (element, size)) : element.isArray = false := by
  cases type with
  | pointer | array =>
    obtain ⟨rfl, -⟩ := Prod.mk.inj (Option.some.inj helement)
    exact Flat.not_array h
  | base => cases helement

theorem not_array_of_isScalar {type : Ty} (h : type.isScalar) : type.isArray = false := by
  cases type with
  | base name => cases name <;> rfl
  | pointer => rfl
  | array => cases h

theorem not_void_of_isScalar {type : Ty} (h : type.isScalar) : type.isVoid = false := by
  cases type with
  | base name => cases name <;> first | rfl | cases h
  | pointer => rfl
  | array => cases h

end Ty

/-- Nothing but a call is void in a program in which values are never void. -/
theorem Emit.VoidFree.not_void {type : Ty} (h : VoidFree forest root) (hid : forest.Below id root)
    (hrole : forest.role id = .expression) (htype : forest.type? id = some type)
    (hkind : ∀ name s, forest.kind id ≠ .call name s) : type.isVoid = false := by
  by_contra hvoid
  obtain ⟨⟨name, s, hk⟩, -⟩ := h id type hid hrole htype (by simpa using hvoid)
  exact hkind name s hk

/-- A variable is one of those of its frame. -/
theorem Sound.mem_variables (h : Sound root forest table drawn) {s : SymbolId} {d : NodeId}
    (hlt : s < table.size) (hs : (table.symbol s).kind = .variableAt d) :
    forest.IsFrame root (forest.owningFunction d) ∧
      d ∈ forest.frameVariables root (forest.owningFunction d) := by
  have hrule := h.declared.variableAt s hlt d hs
  have hne : forest.role d ≠ .expression := by
    rcases hrule.role with hrole | ⟨hrole, -⟩ <;> rw [hrole] <;> simp
  have hbelow := h.bound d s hrule.symbol_eq hne
  have hframe : forest.IsFrame root (forest.owningFunction d) := by
    rcases hrule.role with hrole | ⟨hrole, -⟩
    · exact (h.whole.exists_frameCode hbelow (by simp [hrole, Role.IsWritten])).1
    · obtain ⟨f, howner, hlength⟩ := hrule.body hrole
      obtain ⟨hdf, hfun⟩ := below_of_owningFunction h.whole.linked howner
      rw [howner]
      refine isFrame_some ((mem_definitions h.whole.ranked).mpr
        ⟨h.whole.below_root hbelow hdf, hfun, ?_⟩)
      rw [child?, List.getElem?_eq_getElem hlength]
      rfl
  refine ⟨hframe, (h.whole.mem_variables hframe).mpr ⟨?_, hbelow, rfl⟩⟩
  exact hrule.role.imp Kind.role_eq_declaration.mp fun hrole => Kind.role_eq_parameter.mp hrole.1

namespace Laid

variable (h : Laid root resolution layout)

include h

/-- Every string of the program has its place. -/
theorem exists_pool {value : String} {pool : Option Nat} (hid : layout.forest.Below id root)
    (hkind : layout.forest.kind id = .string value pool) : ∃ slot, pool = some slot := by
  obtain ⟨middle, stop, hframed⟩ := h.framed none isFrame_none
  have hmem : id ∈ layout.forest.frameStrings root none := by
    rw [frameStrings, List.mem_filter, mem_preorder h.sound.whole.ranked]
    exact ⟨hid, by rw [hkind]; rfl⟩
  obtain ⟨slot, hslot, -⟩ := hframed.strings.bounds hmem
  refine ⟨slot, ?_⟩
  rw [Layout.pool?, hkind] at hslot
  exact hslot

/-- Where code needs a scratch slot there is one. -/
theorem exists_scratch (hp : layout.forest.Below p root) (hc : c ∈ layout.forest.children p)
    (hneeds : layout.forest.needsScratchAt p c) :
    ∃ slot, layout.scratch? (layout.forest.owningFunction c) = some slot := by
  have hwhole := h.sound.whole
  have hrole : layout.forest.role c = .expression := by
    rw [role]
    cases hk : layout.forest.kind c <;> simp_all [needsScratchAt, Kind.role]
  obtain ⟨hframe, code, hcode, hbelow, haround, hne⟩ :=
    hwhole.exists_frameCode ((Below.of_mem hc).trans hp) (by simp [hrole, Role.IsWritten])
  obtain ⟨q, hq, hpcode⟩ := hbelow.exists_parent hwhole.linked fun he => hne (he ▸ hrole)
  obtain rfl : p = q := by
    rw [hwhole.linked.parent_of_mem hc] at hq
    exact Option.some.inj hq
  have hneeded : layout.forest.needsScratch code :=
    (needsScratch_iff hwhole.linked hwhole.ranked).mpr
      ⟨p, c, hc, hpcode, haround.symm, hneeds⟩
  obtain ⟨middle, stop, hframed⟩ := h.framed _ hframe
  refine ⟨stop, ?_⟩
  rw [Layout.scratch?, hframed.frame, hcode, Option.any_some, hneeded]
  rfl

/-- The value of what is part of anything but a statement can be kept. -/
theorem keeps_of_mem (hp : layout.forest.Below p root) (hc : c ∈ layout.forest.children p)
    (hne : layout.forest.kind p ≠ .exprStatement) (hk : layout.forest.kind c = .binary .assign) :
    layout.Keeps c :=
  fun hwrites => h.exists_scratch hp hc (by simpa [needsScratchAt, hk, hwrites] using hne)

/-- The frames around an expression lead to the one of a symbol that it reaches. -/
theorem outward_depthTo {s : SymbolId} (hid : layout.forest.Below id root)
    (hrole : layout.forest.role id = .expression)
    (hreached : Reached layout.forest layout.table (layout.forest.node id).function s) :
    layout.forest.outward (layout.depthTo id s) (layout.forest.owningFunction id) =
      some (layout.table.symbol s).frame := by
  have hchain := hreached.chain
  rw [h.sound.function id hid hrole] at hchain
  rw [Layout.depthTo, h.sound.function id hid hrole]
  exact h.sound.outward_links hchain (h.sound.whole.owner hid)

/-- The frames around an expression lead to that of the file. -/
theorem outward_depthToFile (hid : layout.forest.Below id root)
    (hrole : layout.forest.role id = .expression) :
    layout.forest.outward (layout.depthToFile id) (layout.forest.owningFunction id) =
      some none := by
  have howner := h.sound.whole.owner hid
  rw [Layout.depthToFile, h.sound.function id hid hrole]
  exact h.sound.outward_links (h.sound.whole.chain_none (Nat.le_add_left _ _) howner) howner

/-- Every expression is a part of something. -/
theorem exists_parent (hid : layout.forest.Below id root)
    (hrole : layout.forest.role id = .expression) :
    ∃ p, layout.forest.Below p root ∧ id ∈ layout.forest.children p := by
  have hne : id ≠ root := by
    rintro rfl
    rw [role, h.sound.whole.kind_root] at hrole
    cases hrole
  obtain ⟨p, hp, hproot⟩ := hid.exists_parent h.sound.whole.linked hne
  exact ⟨p, hproot, h.sound.whole.linked.mem_of_parent hp⟩

/-- What a name stands for. -/
theorem ensures_placeOf {output : Output} {refusal : Fault → Output → Prop} {post : Place → Output → Prop}
    {line : Nat} (hid : layout.forest.Below id root)
    (hname : (layout.forest.kind id).isIdentifier)
    (hpost : ∀ d place type, Names layout root id d place type → post place output) :
    Ensures (placeOf layout id line) output refusal post := by
  obtain ⟨name, symbol, hk⟩ : ∃ name symbol, layout.forest.kind id = .identifier name symbol := by
    cases hk : layout.forest.kind id <;> simp_all [Kind.isIdentifier]
  have hrole : layout.forest.role id = .expression := by
    rw [role, hk]
    rfl
  obtain ⟨type, htype, hjudged⟩ := h.sound.expression id hid hrole
  have hrule := hjudged.rule
  unfold ExpressionRule at hrule
  rw [hk] at hrule
  obtain ⟨s, d, rfl, hreached, hvariable, htypes⟩ := hrule
  have hd := h.sound.declared.variableAt s hreached.lt_size d hvariable
  obtain ⟨hframe, hmem⟩ := h.sound.mem_variables hreached.lt_size hvariable
  obtain ⟨middle, stop, hframed⟩ := h.framed _ hframe
  obtain ⟨slot, hslot, -⟩ := hframed.slots.bounds hmem
  have hoffset : (layout.table.symbol s).offset = some slot := by
    simpa [Layout.slot?, hd.symbol_eq] using hslot
  have hsymbol : (layout.forest.kind id).symbol? = some s := by
    rw [hk]
    rfl
  rw [placeOf, bind_iff, ensures_symbolOf hsymbol, bind_iff, ensures_offsetOf hoffset, pure_iff]
  refine hpost d _ type ⟨hid, hname, hsymbol.trans hd.symbol_eq.symm, htype, ?_, ?_, hframe, hmem,
    hslot, ?_, ?_⟩
  · rw [htypes]
    exact hd.type_eq
  · rw [htypes]
    exact hd.type
  · simp [Layout.slots, hd.symbol_eq, htypes]
  · rw [← hd.frame]
    exact h.outward_depthTo hid hrole hreached

section Inner

variable {inner : NodeId → Emit Code} (hid : layout.forest.Below id root)
  (hinner : ∀ c, layout.forest.Below c id → c ≠ id → Makes layout root (.value c) (inner c))

include hid hinner

/-- Code that leaves the address of a place. -/
theorem makes_address (hplace : (layout.forest.kind id).isPlace) :
    Makes layout root (.place id) (address layout inner id) := by
  intro output
  have hchild : ∀ {c}, c ∈ layout.forest.children id →
      Makes layout root (.value c) (inner c) := fun hc =>
    hinner _ (.of_mem hc) (h.sound.whole.ranked.ne_of_mem hc)
  have hrole : layout.forest.role id = .expression := by
    rw [role]
    cases hk : layout.forest.kind id <;> simp_all [Kind.isPlace, Kind.role]
  obtain ⟨type, htype, hjudged⟩ := h.sound.expression id hid hrole
  have hrule := hjudged.rule
  unfold ExpressionRule at hrule
  cases hk : layout.forest.kind id with
  | identifier name symbol =>
    simp only [address, hk, bind_iff]
    refine h.ensures_placeOf hid (by rw [hk]; rfl) fun d place type hnames => ?_
    exact ⟨.named hnames, .refl rfl⟩
  | subscript =>
    simp only [hk] at hrule
    obtain ⟨base, index, b, size, hchildren, -, hb, helements, hindex⟩ := hrule
    simp only [address, hk, bind_iff]
    rw [ensures_child (c := base) (by simp [child?, hchildren]),
      ensures_child (c := index) (by simp [child?, hchildren]), ensures_typeOf htype]
    refine (hchild (c := base) (by simp [hchildren]) output).imp ?_
    rintro baseCode output₁ ⟨hbase, hout₁⟩
    refine (hchild (c := index) (by simp [hchildren]) output₁).imp ?_
    rintro indexCode output₂ ⟨hindexCode, hout₂⟩
    refine ⟨.element ⟨hid, hk, htype⟩ hchildren hb helements hindex hbase hindexCode, ?_⟩
    exact (hout₁.trans hout₂).trans (.refl rfl)
  | unary op =>
    obtain rfl : op = .deref := by
      cases op <;> simp_all [Kind.isPlace]
    simp only [hk] at hrule
    obtain ⟨operand, o, hchildren, ho, hpointee⟩ := hrule
    simp only [address, hk, bind_iff]
    rw [ensures_child (c := operand) (by simp [child?, hchildren])]
    refine (hchild (c := operand) (by simp [hchildren]) output).imp ?_
    rintro code output₁ ⟨hcode, hout⟩
    exact ⟨.pointee ⟨hid, hk, htype⟩ hchildren ho hpointee hcode, hout⟩
  | _ => simp [hk, Kind.isPlace] at hplace

omit hinner in
/-- The value of a variable. -/
theorem makes_identifier (hname : (layout.forest.kind id).isIdentifier) :
    Makes layout root (.value id) (identifier layout id) := by
  intro output
  simp only [identifier, bind_iff]
  refine h.ensures_placeOf hid hname fun d place type hnames => ?_
  rw [ensures_typeOf hnames.type_eq, ite_iff]
  refine ⟨fun harray => ⟨.array hnames harray, .refl rfl⟩, fun harray => ?_⟩
  have harray := Bool.eq_false_of_not_eq_true harray
  rw [bind_iff]
  refine ensures_tagOf (VoidFree layout.forest root) harray (fun _ => hnames.ofVariable.not_void) fun output₁ hout => ?_
  exact ⟨.scalar hnames harray, hout.congr (List.nil_subset _)⟩

omit hid in
/-- The code of arguments. -/
theorem makes_arguments {ids : List NodeId} (hids : ∀ c ∈ ids, c ∈ layout.forest.children id) :
    Makes layout root (.arguments ids) (inOrder inner ids) := by
  intro output
  induction ids generalizing output with
  | nil => exact ⟨.nil, .refl rfl⟩
  | cons c ids ih =>
    obtain ⟨hc, hids⟩ := List.forall_mem_cons.mp hids
    simp only [inOrder, bind_iff, pure_iff]
    refine (hinner c (.of_mem hc) (h.sound.whole.ranked.ne_of_mem hc) output).imp ?_
    rintro code output₁ ⟨hcode, hout₁⟩
    refine (ih hids output₁).imp ?_
    rintro rest output₂ ⟨hrest, hout₂⟩
    exact ⟨.cons hcode hrest, hout₁.trans hout₂⟩

/-- The code of a call. -/
theorem makes_call {name : String} {symbol : Option SymbolId}
    (hk : layout.forest.kind id = .call name symbol) :
    Makes layout root (.value id) (call layout inner id) := by
  intro output
  have hrole : layout.forest.role id = .expression := by
    rw [role, hk]
    rfl
  obtain ⟨type, htype, hjudged⟩ := h.sound.expression id hid hrole
  have hrule := hjudged.rule
  unfold ExpressionRule at hrule
  simp only [hk] at hrule
  obtain ⟨s, signature, rfl, hreached, hsignature, rfl, hfits, harguments⟩ := hrule
  have hcalls : Calls layout root id s signature (layout.depthTo id s) :=
    ⟨hid, ⟨name, hk⟩, hsignature, h.sound.called id name s hk signature hsignature, htype, hfits,
      harguments, h.outward_depthTo hid hrole hreached⟩
  have hsymbol : (layout.forest.kind id).symbol? = some s := by
    rw [hk]
    rfl
  have hdeclared := h.sound.declared.function s hreached.lt_size signature hsignature
  simp only [call, bind_iff]
  rw [ensures_symbolOf hsymbol]
  simp only [hsignature, bind_iff, ite_iff, pure_iff]
  refine (makes_arguments h hinner (fun _ hc => hc) output).imp ?_
  rintro code output₁ ⟨hcode, hout₁⟩
  have hcoded := Coded.call hcalls hcode
  -- What is left is the same with and without a count of the arguments.
  have hleft : ∀ output₂, Extends (VoidFree layout.forest root) output₁ output₂
      [.cup 0 signature.label] → (signature.variadic = true →
        Coded layout root (.value id) (([.mst (layout.depthTo id s),
          .ldc (.int (layout.forest.children id).length)] : Code) ++ code ++
          ([.cup ((layout.forest.children id).length + 1) signature.label] : Code)) ∧
        Extends (VoidFree layout.forest root) output output₂ (([.mst (layout.depthTo id s),
          .ldc (.int (layout.forest.children id).length)] : Code) ++ code ++
          ([.cup ((layout.forest.children id).length + 1) signature.label] : Code))) ∧
      (¬signature.variadic = true → Coded layout root (.value id)
          (([.mst (layout.depthTo id s)] : Code) ++ code ++
            ([.cup (layout.forest.children id).length signature.label] : Code)) ∧
        Extends (VoidFree layout.forest root) output output₂
          (([.mst (layout.depthTo id s)] : Code) ++ code ++
            ([.cup (layout.forest.children id).length signature.label] : Code))) := by
    intro output₂ hout₂
    refine ⟨fun hv => ⟨by simpa [hv] using hcoded, (hout₁.trans hout₂).congr ?_⟩,
      fun hv => ⟨by simpa [hv] using hcoded, (hout₁.trans hout₂).congr ?_⟩⟩ <;>
      simp [Instr.routine?]
  rcases hdeclared.origin with ⟨hbuiltin, -, -, routine, hroutine, hname, hlabel, -⟩ |
    ⟨hbuiltin, -, ⟨number, -, hlabel⟩, -⟩
  · refine ⟨fun _ => ?_, fun hnot => absurd hbuiltin hnot⟩
    have hknown : (Routine.find? (layout.table.symbol s).name).isSome := by
      rw [Routine.find?, List.find?_isSome]
      exact ⟨routine, hroutine, by simp [hname]⟩
    refine ensures_useRoutine (VoidFree layout.forest root) hknown fun output₂ hout₂ => hleft output₂ ?_
    rwa [hlabel, ← hname]
  · refine ⟨fun hyes => by simp [hbuiltin] at hyes, fun _ => hleft output₁ (.refl ?_)⟩
    rw [hlabel]
    rfl

/-- Code that leaves the address of a part. -/
theorem makes_address_of_mem (hc : c ∈ layout.forest.children id)
    (hplace : (layout.forest.kind c).isPlace) :
    Makes layout root (.place c) (address layout inner c) := by
  refine h.makes_address ((Below.of_mem hc).trans hid) (fun d hd hne => ?_) hplace
  refine hinner d (hd.trans (.of_mem hc)) ?_
  rintro rfl
  exact Below.not_child h.sound.whole.ranked hc hd

omit hinner in
/-- The scratch slot of an expression that writes through an address. -/
theorem exists_scratch_of_write (hrole : layout.forest.role id = .expression)
    {target : NodeId} (hchild : layout.forest.child? id 0 = some target)
    (htarget : (layout.forest.kind target).isIdentifier = false) (hkeeps : layout.Keeps id) :
    ∃ slot, layout.scratch? (layout.forest.owningFunction id) = some slot ∧
      layout.scratch? (layout.forest.node id).function = some slot := by
  obtain ⟨slot, hslot⟩ := hkeeps (by simp [writesThroughAddress, hchild, htarget])
  exact ⟨slot, hslot, by rw [h.sound.function id hid hrole, hslot]⟩

/-- The code of an assignment. -/
theorem makes_assignment {keep : Bool} (hk : layout.forest.kind id = .binary .assign)
    (hkeep : keep = true → layout.Keeps id) :
    Makes layout root (.of keep id) (assignment layout inner id keep) := by
  intro output
  have hrole : layout.forest.role id = .expression := by
    rw [role, hk]
    rfl
  obtain ⟨type, htype, hjudged⟩ := h.sound.expression id hid hrole
  have hrule := hjudged.rule
  unfold ExpressionRule at hrule
  simp only [hk] at hrule
  obtain ⟨target, value, l, r, hchildren, hl, hr, hplace, harray, -, hsame, rfl⟩ := hrule
  have hmem : target ∈ layout.forest.children id := by simp [hchildren]
  have hvmem : value ∈ layout.forest.children id := by simp [hchildren]
  have htid := (Below.of_mem hmem).trans hid
  have hchild : layout.forest.child? id 0 = some target := by simp [child?, hchildren]
  have his : Is layout root id (.binary .assign) type := ⟨hid, hk, htype⟩
  have hvoid : VoidFree layout.forest root → type.isVoid = false := fun hv =>
    hv.not_void hid hrole htype fun name s heq => by rw [hk] at heq; cases heq
  have hvalue := hinner value (.of_mem hvmem) (h.sound.whole.ranked.ne_of_mem hvmem)
  simp only [assignment, bind_iff]
  rw [ensures_child hchild, ensures_child (c := value) (by simp [child?, hchildren]),
    ensures_typeOf hl]
  refine ensures_tagOf (VoidFree layout.forest root) harray hvoid fun output₁ hout₁ => ?_
  simp only [ite_iff, bind_iff]
  refine ⟨fun hname => ?_, fun hname => ?_⟩
  · refine h.ensures_placeOf htid hname fun d place type' hnames => ?_
    obtain rfl : type' = type := by
      rw [hnames.type_eq] at hl
      exact Option.some.inj hl
    refine (hvalue output₁).imp ?_
    rintro code output₂ ⟨hcode, hout₂⟩
    refine ⟨.assignVariable keep his hchildren hnames harray hr hsame hcode, ?_⟩
    refine (hout₁.trans hout₂).congr ?_
    cases keep <;> simp [Instr.routine?]
  · have hname := Bool.eq_false_of_not_eq_true hname
    refine (h.makes_address_of_mem hid hinner hmem hplace output₁).imp ?_
    rintro targetCode output₂ ⟨htarget, hout₂⟩
    refine (hvalue output₂).imp ?_
    rintro code output₃ ⟨hcode, hout₃⟩
    have hout := (hout₁.trans hout₂).trans hout₃
    refine ⟨fun hk' => ?_, fun hk' => ?_⟩
    · obtain ⟨slot, hslot, hslot'⟩ := h.exists_scratch_of_write hid hrole hchild hname (hkeep hk')
      rw [ensures_scratchOf hslot', hk']
      have hcoded := Coded.assignAddress true his hchildren hname hl harray hr hsame
        (fun _ => hslot) htarget hcode
      exact ⟨hcoded, hout.congr (by simp [Instr.routine?])⟩
    · rw [Bool.eq_false_of_not_eq_true hk']
      have hnone : false = true →
          layout.scratch? (layout.forest.owningFunction id) = some 0 := by simp
      have hcoded := Coded.assignAddress false his hchildren hname hl harray hr hsame hnone htarget
        hcode
      exact ⟨hcoded, hout.congr (by simp [Instr.routine?])⟩

/-- The code of a step. -/
theorem makes_step {keep : Bool} {position : Position} {direction : Direction}
    (hk : layout.forest.kind id = .unary (.step position direction))
    (hparent : ∃ p, layout.forest.Below p root ∧ id ∈ layout.forest.children p) :
    Makes layout root (.of keep id) (step layout inner id position direction keep) := by
  intro output
  have hrole : layout.forest.role id = .expression := by
    rw [role, hk]
    rfl
  obtain ⟨type, htype, hjudged⟩ := h.sound.expression id hid hrole
  have hrule := hjudged.rule
  unfold ExpressionRule at hrule
  simp only [hk] at hrule
  obtain ⟨target, o, hchildren, ho, hplace, hscalar, -, rfl⟩ := hrule
  have hmem : target ∈ layout.forest.children id := by simp [hchildren]
  have hchild : layout.forest.child? id 0 = some target := by simp [child?, hchildren]
  have his : Is layout root id (.unary (.step position direction)) type := ⟨hid, hk, htype⟩
  simp only [step, bind_iff]
  rw [ensures_child hchild, ensures_typeOf ho]
  refine ensures_tagOf (VoidFree layout.forest root) (Ty.not_array_of_isScalar hscalar) (fun _ => Ty.not_void_of_isScalar hscalar)
    fun output₁ hout₁ => ?_
  simp only [ite_iff, bind_iff]
  refine ⟨fun hname => ?_, fun hname => ?_⟩
  · refine h.ensures_placeOf ((Below.of_mem hmem).trans hid) hname fun d place type' hnames => ?_
    obtain rfl : type' = type := by
      rw [hnames.type_eq] at ho
      exact Option.some.inj ho
    refine ⟨.stepVariable keep his hchildren hnames hscalar, hout₁.congr ?_⟩
    cases keep <;> cases position <;> cases direction <;> simp [Instr.routine?, stepInstr]
  · have hname := Bool.eq_false_of_not_eq_true hname
    obtain ⟨p, hp, hpmem⟩ := hparent
    obtain ⟨slot, hslot, hslot'⟩ := h.exists_scratch_of_write hid hrole hchild hname fun hwrites =>
      h.exists_scratch hp hpmem (by simpa [needsScratchAt, hk] using hwrites)
    rw [ensures_scratchOf hslot']
    refine (h.makes_address_of_mem hid hinner hmem hplace output₁).imp ?_
    rintro targetCode output₂ ⟨htarget, hout₂⟩
    refine ⟨.stepAddress keep his hchildren hname ho hscalar hslot htarget,
      (hout₁.trans hout₂).congr ?_⟩
    cases keep <;> cases position <;> cases direction <;> simp [Instr.routine?, stepInstr]

/-- The code of an operator between two expressions. -/
theorem makes_binary {op : BinaryOp} (hk : layout.forest.kind id = .binary op)
    (hkeep : op = .assign → layout.Keeps id) :
    Makes layout root (.value id) (binary layout inner id op) := by
  intro output
  have hrole : layout.forest.role id = .expression := by
    rw [role, hk]
    rfl
  obtain ⟨type, htype, hjudged⟩ := h.sound.expression id hid hrole
  have hrule := hjudged.rule
  unfold ExpressionRule at hrule
  simp only [hk] at hrule
  obtain ⟨left, right, l, r, hchildren, hl, hr, hrule⟩ := hrule
  have hchild : ∀ {c}, c ∈ layout.forest.children id →
      Makes layout root (.value c) (inner c) := fun hc =>
    hinner _ (.of_mem hc) (h.sound.whole.ranked.ne_of_mem hc)
  have hleft := hchild (c := left) (by simp [hchildren])
  have hright := hchild (c := right) (by simp [hchildren])
  simp only [binary, bind_iff]
  rw [ensures_child (c := left) (by simp [child?, hchildren]),
    ensures_child (c := right) (by simp [child?, hchildren])]
  cases op with
  | assign =>
    have hkept : Makes layout root (.of true id) (assignment layout inner id true) :=
      h.makes_assignment hid hinner hk fun _ => hkeep rfl
    exact hkept output
  | remainder =>
    obtain ⟨hlsame, hrsame, rfl⟩ := hrule
    simp only [bind_iff]
    refine (hleft output).imp ?_
    rintro leftCode output₁ ⟨hl', hout₁⟩
    refine (hright output₁).imp ?_
    rintro rightCode output₂ ⟨hr', hout₂⟩
    refine ensures_useRoutine (VoidFree layout.forest root) (by decide) fun output₃ hout₃ => ?_
    refine ⟨.remainder ⟨hid, hk, htype⟩ hchildren ⟨l, hl, hlsame⟩ ⟨r, hr, hrsame⟩
      (h.outward_depthToFile hid hrole) hl' hr', ((hout₁.trans hout₂).trans hout₃).congr ?_⟩
    simp [Instr.routine?]
  | logic op =>
    obtain ⟨hlsame, hrsame, rfl⟩ := hrule
    simp only [bind_iff]
    refine (hleft output).imp ?_
    rintro leftCode output₁ ⟨hl', hout₁⟩
    refine (hright output₁).imp ?_
    rintro rightCode output₂ ⟨hr', hout₂⟩
    refine ⟨.logic ⟨hid, hk, htype⟩ hchildren ⟨l, hl, hlsame⟩ ⟨r, hr, hrsame⟩ hl' hr',
      (hout₁.trans hout₂).congr ?_⟩
    simp [Instr.routine?]
  | compare op =>
    obtain ⟨hsame, hscalar, rfl⟩ := hrule
    simp only [bind_iff]
    refine (hleft output).imp ?_
    rintro leftCode output₁ ⟨hl', hout₁⟩
    refine (hright output₁).imp ?_
    rintro rightCode output₂ ⟨hr', hout₂⟩
    rw [ensures_typeOf hl]
    refine ensures_tagOf (VoidFree layout.forest root) (Ty.not_array_of_isScalar hscalar)
      (fun _ => Ty.not_void_of_isScalar hscalar) fun output₃ hout₃ => ?_
    refine ⟨.compare ⟨hid, hk, htype⟩ hchildren hl hr hsame hscalar hl' hr',
      ((hout₁.trans hout₂).trans hout₃).congr ?_⟩
    simp [Instr.routine?]
  | arith op =>
    obtain ⟨hlsame, hrsame, hscalar⟩ := hrule
    simp only [bind_iff]
    refine (hleft output).imp ?_
    rintro leftCode output₁ ⟨hl', hout₁⟩
    refine (hright output₁).imp ?_
    rintro rightCode output₂ ⟨hr', hout₂⟩
    rw [ensures_typeOf htype]
    refine ensures_tagOf (VoidFree layout.forest root) (Ty.not_array_of_isScalar hscalar)
      (fun _ => Ty.not_void_of_isScalar hscalar) fun output₃ hout₃ => ?_
    refine ⟨.arith ⟨hid, hk, htype⟩ hchildren hl hr hlsame hrsame hscalar hl' hr',
      ((hout₁.trans hout₂).trans hout₃).congr ?_⟩
    simp [Instr.routine?]

/-- The code of an operator on one expression. -/
theorem makes_unary {op : UnaryOp} (hk : layout.forest.kind id = .unary op)
    (hparent : ∃ p, layout.forest.Below p root ∧ id ∈ layout.forest.children p) :
    Makes layout root (.value id) (unary layout inner id op) := by
  intro output
  have hrole : layout.forest.role id = .expression := by
    rw [role, hk]
    rfl
  obtain ⟨type, htype, hjudged⟩ := h.sound.expression id hid hrole
  have hrule := hjudged.rule
  unfold ExpressionRule at hrule
  simp only [hk] at hrule
  obtain ⟨operand, o, hchildren, ho, hrule⟩ := hrule
  have hmem : operand ∈ layout.forest.children id := by simp [hchildren]
  have hoperand := hinner operand (.of_mem hmem) (h.sound.whole.ranked.ne_of_mem hmem)
  simp only [unary, bind_iff]
  rw [ensures_child (c := operand) (by simp [child?, hchildren])]
  cases op with
  | negate =>
    obtain ⟨hintegral, rfl⟩ := hrule
    simp only [bind_iff]
    refine (hoperand output).imp ?_
    rintro code output₁ ⟨hcode, hout₁⟩
    rw [ensures_typeOf htype]
    have hscalar : (o.withConst false).isScalar := by
      cases o with
      | base name => cases name <;> exact hintegral
      | pointer | array => cases hintegral
    refine ensures_tagOf (VoidFree layout.forest root) (Ty.not_array_of_isScalar hscalar)
      (fun _ => Ty.not_void_of_isScalar hscalar) fun output₂ hout₂ => ?_
    rw [Ty.cell_eq_of_same (Ty.withConst_same o false)]
    exact ⟨.negate ⟨hid, hk, htype⟩ hchildren ho hintegral hcode,
      (hout₁.trans hout₂).congr (by simp [Instr.routine?])⟩
  | not =>
    obtain ⟨hsame, rfl⟩ := hrule
    simp only [bind_iff]
    refine (hoperand output).imp ?_
    rintro code output₁ ⟨hcode, hout₁⟩
    exact ⟨.not ⟨hid, hk, htype⟩ hchildren ⟨o, ho, hsame⟩ hcode,
      hout₁.congr (by simp [Instr.routine?])⟩
  | deref =>
    have hpointee : o.pointee? = some type := hrule
    simp only [bind_iff]
    refine (hoperand output).imp ?_
    rintro code output₁ ⟨hcode, hout₁⟩
    rw [ensures_typeOf htype]
    have hoshallow : o.Shallow := by
      obtain ⟨o', ho', hjudged'⟩ := h.sound.expression operand ((Below.of_mem hmem).trans hid)
        (h.sound.whole.role_of_mem hrole hmem)
      rw [ho, Option.some.injEq] at ho'
      exact ho' ▸ hjudged'.shallow
    have harray := hoshallow.pointee hpointee
    refine ensures_tagOf (VoidFree layout.forest root) harray (fun hv => hv.not_void hid hrole htype
      fun name s heq => by rw [hk] at heq; cases heq) fun output₂ hout₂ => ?_
    have his : Is layout root id (.unary .deref) type := ⟨hid, hk, htype⟩
    exact ⟨.deref his harray (.pointee his hchildren ho hpointee hcode),
      (hout₁.trans hout₂).congr (by simp [Instr.routine?])⟩
  | addressOf =>
    obtain ⟨hplace, rfl⟩ := hrule
    refine (h.makes_address_of_mem hid hinner hmem hplace output).imp ?_
    rintro code output₁ ⟨hcode, hout₁⟩
    exact ⟨.addressOf ⟨hid, hk, htype⟩ hchildren ho hcode, hout₁⟩
  | step position direction =>
    have hkept : Makes layout root (.of true id) (step layout inner id position direction true) :=
      h.makes_step hid hinner hk hparent
    exact hkept output

/-- The code of an expression by its kind. -/
theorem makes_byKind (hrole : layout.forest.role id = .expression)
    (hkeep : layout.forest.kind id = .binary .assign → layout.Keeps id) :
    Makes layout root (.value id) (byKind layout inner id) := by
  intro output
  obtain ⟨type, htype, hjudged⟩ := h.sound.expression id hid hrole
  have hrule := hjudged.rule
  unfold ExpressionRule at hrule
  have hparent := h.exists_parent hid hrole
  cases hk : layout.forest.kind id with
  | int value =>
    simp only [hk] at hrule
    simp only [byKind, hk]
    exact ⟨.int ⟨hid, hk, hrule ▸ htype⟩, .refl rfl⟩
  | char value =>
    simp only [hk] at hrule
    simp only [byKind, hk]
    exact ⟨.char ⟨hid, hk, hrule ▸ htype⟩, .refl rfl⟩
  | string value pool =>
    simp only [hk] at hrule
    obtain ⟨slot, rfl⟩ := h.exists_pool hid hk
    simp only [byKind, hk]
    exact ⟨.string ⟨hid, hk, hrule ▸ htype⟩ (h.outward_depthToFile hid hrole), .refl rfl⟩
  | identifier name symbol =>
    simp only [byKind, hk]
    exact h.makes_identifier hid (by rw [hk]; rfl) output
  | call name symbol =>
    simp only [byKind, hk]
    exact h.makes_call hid hinner hk output
  | binary op =>
    simp only [byKind, hk]
    exact h.makes_binary hid hinner hk (fun heq => hkeep (heq ▸ hk)) output
  | unary op =>
    simp only [byKind, hk]
    exact h.makes_unary hid hinner hk hparent output
  | subscript =>
    simp only [hk] at hrule
    obtain ⟨base, index, b, size, hchildren, -, hb, helements, -⟩ := hrule
    obtain ⟨b', hb', hbase⟩ := h.sound.expression base
      ((Below.of_mem (by simp [hchildren])).trans hid)
      (h.sound.whole.role_of_mem hrole (by simp [hchildren]))
    rw [hb, Option.some.injEq] at hb'
    have harray := (hb' ▸ hbase.shallow).elements helements
    simp only [byKind, hk, bind_iff]
    refine (h.makes_address hid hinner (by rw [hk]; rfl) output).imp ?_
    rintro code output₁ ⟨hcode, hout₁⟩
    rw [ensures_typeOf htype]
    refine ensures_tagOf (VoidFree layout.forest root) harray (fun hv => hv.not_void hid hrole htype
      fun name s heq => by rw [hk] at heq; cases heq) fun output₂ hout₂ => ?_
    exact ⟨.subscript ⟨hid, hk, htype⟩ harray hcode,
      (hout₁.trans hout₂).congr (by simp [Instr.routine?])⟩
  | conversion change =>
    simp only [hk] at hrule
    obtain ⟨operand, hchildren, hoperand, rfl, -, hchange⟩ := hrule
    have hmem : operand ∈ layout.forest.children id := by simp [hchildren]
    simp only [byKind, hk, bind_iff]
    rw [ensures_child (c := operand) (by simp [child?, hchildren])]
    refine (hinner operand (.of_mem hmem) (h.sound.whole.ranked.ne_of_mem hmem) output).imp ?_
    rintro code output₁ ⟨hcode, hout₁⟩
    have hcoded := Coded.conversion ⟨hid, hk, htype⟩ hchildren hoperand hchange hcode
    cases hcoercion : change.coercion with
    | none =>
      rw [hcoercion] at hcoded
      exact ⟨by simpa using hcoded, hout₁⟩
    | some tags =>
      rw [hcoercion] at hcoded
      exact ⟨by simpa using hcoded, hout₁.congr (by simp [Instr.routine?])⟩
  | _ => simp only [hk] at hrule

end Inner

/-- What is properly below an expression is an expression whose value is used. -/
theorem kept_below (hrole : layout.forest.role id = .expression)
    (hid : layout.forest.Below id root) (hc : layout.forest.Below c id) (hne : c ≠ id) :
    layout.forest.role c = .expression ∧ layout.forest.weight c < layout.forest.weight id ∧
      (layout.forest.kind c = .binary .assign → layout.Keeps c) := by
  obtain ⟨p, hp, hpid⟩ := hc.exists_parent h.sound.whole.linked hne
  have hmem := h.sound.whole.linked.mem_of_parent hp
  have hprole : layout.forest.role p = .expression :=
    hpid.descend (P := fun n => layout.forest.role n = .expression) hrole
      fun q d _ hd hq => h.sound.whole.role_of_mem hq hd
  refine ⟨h.sound.whole.role_of_mem hprole hmem, ?_, h.keeps_of_mem (hpid.trans hid) hmem fun heq => ?_⟩
  · exact Nat.lt_of_lt_of_le (weight_lt h.sound.whole.ranked hmem)
      (Below.rank_le (fun hc => weight_lt h.sound.whole.ranked hc) hpid)
  · rw [role, heq] at hprole
    cases hprole

/-- The code of an expression can be made, and is as `Coded` says. An assignment whose value is not
used is made code of in another way. -/
theorem makes_expressionWithin {levels : Nat} : ∀ {id}, layout.forest.weight id < levels →
    layout.forest.Below id root → layout.forest.role id = .expression →
    (layout.forest.kind id = .binary .assign → layout.Keeps id) →
    Makes layout root (.value id) (expressionWithin layout levels id) := by
  induction levels with
  | zero => intro id hlevels; omega
  | succ levels ih =>
    intro id hlevels hid hrole hkeep
    refine h.makes_byKind hid (fun c hc hne => ?_) hrole hkeep
    obtain ⟨hcrole, hlt, hkept⟩ := h.kept_below hrole hid hc hne
    exact ih (by omega) (hc.trans hid) hcrole hkept

theorem makes_expression (hid : layout.forest.Below id root)
    (hrole : layout.forest.role id = .expression)
    (hkeep : layout.forest.kind id = .binary .assign → layout.Keeps id) :
    Makes layout root (.value id) (expression layout id) :=
  h.makes_expressionWithin (Nat.lt_succ_of_le (weight_le layout.forest id)) hid hrole hkeep

/-- The code of an expression whose value is not used. -/
theorem makes_discarded (hid : layout.forest.Below id root)
    (hrole : layout.forest.role id = .expression) :
    Makes layout root (.effect id) (discarded layout id) := by
  have hinner : ∀ c, layout.forest.Below c id → c ≠ id →
      Makes layout root (.value c) (expression layout c) := by
    intro c hc hne
    obtain ⟨hcrole, -, hkept⟩ := h.kept_below hrole hid hc hne
    exact h.makes_expression (hc.trans hid) hcrole hkept
  intro output
  rw [discarded]
  split
  · next hk =>
    have hmakes : Makes layout root (.of false id) (assignment layout (expression layout) id false) :=
      h.makes_assignment hid hinner hk (by simp)
    exact hmakes output
  · next position direction hk =>
    have hmakes : Makes layout root (.of false id)
        (step layout (expression layout) id position direction false) :=
      h.makes_step hid hinner hk (h.exists_parent hid hrole)
    exact hmakes output
  · next hassign _ =>
    obtain ⟨type, htype, hjudged⟩ := h.sound.expression id hid hrole
    rw [bind_iff]
    refine (h.makes_expression hid hrole (fun hk => absurd hk hassign) output).imp ?_
    rintro code output₁ ⟨hcode, hout₁⟩
    rw [bind_iff, ensures_typeOf htype, ite_iff]
    refine ⟨fun hvoid => ⟨.run hid htype hvoid hcode, hout₁⟩, fun hvoid => ?_⟩
    have hvoid := Bool.eq_false_of_not_eq_true hvoid
    have hdecay : type.decay.isArray = false := hjudged.shallow.decay.not_array
    have hdecayed : type.decay.isVoid = false := by
      cases type with
      | array => rfl
      | base | pointer => exact hvoid
    rw [bind_iff]
    refine ensures_tagOf (VoidFree layout.forest root) hdecay (fun _ => hdecayed)
      fun output₂ hout₂ => ?_
    have hcell : type.decay.cell = type.cell := by cases type <;> rfl
    rw [hcell]
    exact ⟨.drop hid htype hvoid hcode, (hout₁.trans hout₂).congr (by simp [Instr.routine?])⟩

end Laid

end MiniC
