import MiniC.Proofs.Emit.Targets
import MiniC.Proofs.Machine.Tags

/-!
# Tags in the code of expressions and statements

If nothing but a statement is void, the code of an expression finds the tags that its instructions name,
and leaves one cell with the tag of its type. The code of a statement leaves nothing.
-/

namespace MiniC

open Machine Forest

/-! ## Cells of types -/

namespace Ty

variable {type source target : Ty}

theorem isVoid_of_same {a b : Ty} (h : a.same b) : a.isVoid = b.isVoid := by
  simp only [isVoid, kind_eq_of_same h]

theorem cell_of_array (h : type.isArray) : type.cell = .address := by
  cases type with
  | array => rfl
  | base name => cases name <;> cases h
  | pointer => cases h

theorem cell_of_pointee? (h : source.pointee? = some target) :
    source.cell = .address ∧ source.isVoid = false := by
  cases source with
  | pointer => exact ⟨rfl, rfl⟩
  | base | array => cases h

theorem cell_of_elements? {size : Option Nat} (h : Resolve.elements? source = some (target, size)) :
    source.cell = .address ∧ source.isVoid = false := by
  cases source with
  | pointer | array => exact ⟨rfl, rfl⟩
  | base => cases h

theorem not_void_of_isIntegral (h : type.isIntegral) : type.isVoid = false :=
  not_void_of_isScalar (by rw [isScalar, h]; rfl)

/-- A conversion starts from the tag of the one type and ends with that of the other. -/
theorem cells_of_conversion? {change : Coercion} (h : source.conversion? target = some change) :
    (change = none ∧ source.cell = target.cell ∨ change = some (source.cell, target.cell)) ∧
      (target.isVoid = false → source.isVoid = false) := by
  unfold conversion? at h
  split at h
  · next hsame =>
    obtain rfl := Option.some.inj h
    exact ⟨.inl ⟨rfl, cell_eq_of_same hsame⟩, fun hvoid => (isVoid_of_same hsame).trans hvoid⟩
  · cases source with
    | base name =>
      cases target with
      | base name' => cases name <;> cases name' <;> simp_all [kind, cell, decay, tag?, isVoid]
      | pointer | array => cases name <;> simp_all [kind, cell, decay, tag?, isVoid]
    | pointer | array =>
      cases target with
      | base name' => cases name' <;> simp_all [kind, cell, decay, tag?, isVoid]
      | pointer | array => simp_all [kind, cell, decay, tag?, isVoid]

end Ty

/-- The cells that hold a value of a type. There is none for a void value. -/
def Ty.cells (type : Ty) : List Tag := if type.isVoid then [] else [type.cell]

theorem Ty.cells_eq {type : Ty} (h : type.isVoid = false) : type.cells = [type.cell] := by
  simp [cells, h]

/-! ## Callees -/

/-- The callee with these types. -/
def Machine.Callee.of (result : Ty) (params : List Ty) (variadic : Bool) : Callee :=
  { params := params.map Ty.cell, variadic, result := result.cells }

namespace Layout

variable {layout : Layout} {root : NodeId} {s : SymbolId} {signature : Signature}

/-- The library routine or the function of the program that a label stands for. -/
def callee? (layout : Layout) : Label → Option Callee
  | .named name =>
    (Routine.find? name).map fun routine => .of routine.result routine.params routine.variadic
  | label =>
    let stands (s : SymbolId) : Bool :=
      (layout.table.symbol s).signature?.any fun signature => signature.label = label
    ((List.range layout.table.size).find? stands).bind fun s =>
      (layout.table.symbol s).signature?.map fun signature =>
        .of (layout.table.symbol s).type signature.params signature.variadic

/-- A label stands for the function that it is the label of. -/
theorem callee?_label {drawn : Nat} (h : Sound root layout.forest layout.table drawn)
    (hsignature : (layout.table.symbol s).signature? = some signature) :
    layout.callee? signature.label =
      some (.of (layout.table.symbol s).type signature.params signature.variadic) := by
  have hs := SymbolTable.lt_size_of_signature hsignature
  rcases (h.declared.function s hs signature hsignature).origin with
    ⟨-, -, -, routine, hroutine, -, hlabel, htype, hparams, hvariadic⟩ |
    ⟨-, -, ⟨number, -, hlabel⟩, -⟩
  · have hfind := Routine.find?_name hroutine
    simp only [hlabel, callee?, hfind, Option.map_some, htype, hparams, hvariadic]
  · have hstands : ∃ s' ∈ List.range layout.table.size, (layout.table.symbol s').signature?.any
        fun signature => signature.label = .function (layout.table.symbol s).name number :=
      ⟨s, List.mem_range.mpr hs, by simp [hsignature, hlabel]⟩
    obtain ⟨s', hfind⟩ := Option.isSome_iff_exists.mp (List.find?_isSome.mpr hstands)
    have hs' := List.mem_range.mp (List.mem_of_find?_eq_some hfind)
    have hfound := List.find?_some hfind
    cases hsignature' : (layout.table.symbol s').signature? with
    | none => simp [hsignature'] at hfound
    | some signature' =>
      have hlabel' : signature'.label = .function (layout.table.symbol s).name number := by
        simpa [hsignature'] using hfound
      obtain rfl := h.declared.label_unique s s' _ _ _ _ _ hs hs' hsignature hsignature' hlabel
        hlabel'
      simp only [hlabel, callee?, hfind, Option.bind_some, hsignature, Option.map_some]

end Layout

namespace Emit

variable {layout : Layout} {root id c : NodeId} {kind : Kind} {type : Ty} {part : Part} {code : Code}
  {stack : List Tag} {drawn : Nat}

/-! ## Expressions -/

/-- The cells that an expression leaves. -/
def cellsOf (forest : Forest) (id : NodeId) : List Tag := ((forest.type? id).map Ty.cells).getD []

theorem cellsOf_eq {forest : Forest} (h : forest.type? id = some type)
    (hvoid : type.isVoid = false) : cellsOf forest id = [type.cell] := by
  simp [cellsOf, h, Ty.cells_eq hvoid]

theorem cellsOf_hasType {forest : Forest} (h : forest.HasType id type)
    (hvoid : type.isVoid = false) : cellsOf forest id = [type.cell] := by
  obtain ⟨found, hfound, hsame⟩ := h
  rw [cellsOf_eq hfound ((Ty.isVoid_of_same hsame).trans hvoid), Ty.cell_eq_of_same hsame]

/-- At most one cell is left. -/
@[simp] theorem reverse_cellsOf (forest : Forest) (id : NodeId) :
    (cellsOf forest id).reverse = cellsOf forest id := by
  unfold cellsOf
  cases forest.type? id with
  | none => rfl
  | some type => cases hvoid : type.isVoid <;> simp [Ty.cells, hvoid]

/-- Only calls are void. -/
theorem Is.not_void (his : Is layout root id kind type) (h : VoidFree layout.forest root)
    (hrole : kind.role = .expression) (hcall : ∀ name s, kind ≠ .call name s) :
    type.isVoid = false :=
  h.not_void his.below (by rw [role, his.kind_eq, hrole]) his.type_eq fun name s hkind =>
    hcall name s (his.kind_eq.symm.trans hkind)

/-- No part of an expression is void. -/
theorem VoidFree.part_not_void (h : VoidFree layout.forest root) (hwhole : layout.forest.Whole root)
    (hbelow : layout.forest.Below id root) (hrole : layout.forest.role id = .expression)
    (hc : c ∈ layout.forest.children id) (htype : layout.forest.type? c = some type) :
    type.isVoid = false := by
  by_contra hvoid
  obtain ⟨-, p, hparent, hkind⟩ := h c type ((Below.of_mem hc).trans hbelow)
    (hwhole.role_of_mem hrole hc) htype (by simpa using hvoid)
  obtain rfl : p = id := Option.some.inj (hparent.symm.trans (hwhole.linked.parent_of_mem hc))
  rw [role, hkind] at hrole
  cases hrole

/-- What is on the stack behind code, above what was there before. -/
def Part.leaves (forest : Forest) : Part → List Tag
  | value id => cellsOf forest id
  | effect _ => []
  | place _ => [.address]
  | arguments ids => (ids.flatMap (cellsOf forest)).reverse

/-- The arguments of a call have the tags of the parameters. -/
theorem cells_of_argumentsFit {forest : Forest} {params : List Ty} {ids : List NodeId}
    (h : ArgumentsFit forest params ids) (hlength : params.length ≤ ids.length)
    (hvoid : ∀ id ∈ ids, ∀ type, forest.type? id = some type → type.isVoid = false) :
    params.map Ty.cell <+: ids.flatMap (cellsOf forest) := by
  induction params generalizing ids with
  | nil => exact List.nil_prefix
  | cons param params ih =>
    cases ids with
    | nil => simp at hlength
    | cons id ids =>
      obtain ⟨⟨found, hfound, hsame⟩, hrest⟩ := h
      obtain ⟨hid, hids⟩ := List.forall_mem_cons.mp hvoid
      rw [List.flatMap_cons, cellsOf_eq hfound (hid found hfound), Ty.cell_eq_of_same hsame]
      exact (List.prefix_cons_inj _).mpr (ih hrest (Nat.le_of_succ_le_succ hlength) hids)

/-- A call finds its arguments and leaves its result. -/
theorem Calls.retag {s : SymbolId} {signature : Signature} {depth : Nat}
    (h : Calls layout root id s signature depth) (hvoid : VoidFree layout.forest root)
    (hsound : Sound root layout.forest layout.table drawn) (stack : List Tag) :
    popArguments layout.callee?
        ((layout.forest.children id).length + if signature.variadic then 1 else 0) signature.label
        (((layout.forest.children id).flatMap (cellsOf layout.forest)).reverse ++
          ((if signature.variadic then [.int] else []) ++ stack)) =
      some (cellsOf layout.forest id ++ stack) := by
  obtain ⟨name, hkind⟩ := h.kind_eq
  have hrole : layout.forest.role id = .expression := by
    rw [role, hkind]
    rfl
  have hparts : ∀ c ∈ layout.forest.children id, ∀ type, layout.forest.type? c = some type →
      type.isVoid = false := fun c hc type =>
    hvoid.part_not_void hsound.whole h.below hrole hc
  have hlength : ((layout.forest.children id).flatMap (cellsOf layout.forest)).length =
      (layout.forest.children id).length := by
    have hone : (layout.forest.children id).map (fun c => (cellsOf layout.forest c).length) =
        (layout.forest.children id).map fun _ => 1 := by
      refine List.map_congr_left fun c hc => ?_
      obtain ⟨type, htype, -⟩ := hsound.expression c ((Below.of_mem hc).trans h.below)
        (hsound.whole.role_of_mem hrole hc)
      rw [cellsOf_eq htype (hparts c hc type htype)]
      rfl
    rw [List.length_flatMap, hone]
    simp
  have hfits := h.fits
  rw [Resolve.fits] at hfits
  have hparams : signature.params.length ≤ (layout.forest.children id).length := by
    split at hfits
    · simpa using hfits
    · exact Nat.le_of_eq (by simpa using hfits : _ = _).symm
  have hfront := cells_of_argumentsFit h.arguments hparams hparts
  have hcells : cellsOf layout.forest id = (layout.table.symbol s).type.cells := by
    simp [cellsOf, h.type_eq]
  have hcallee := Layout.callee?_label hsound h.signature_eq
  set arguments := (layout.forest.children id).flatMap (cellsOf layout.forest)
  rw [hcells, ← hlength]
  cases hvariadic : signature.variadic with
  | false =>
    have heq : signature.params.map Ty.cell = arguments := hfront.eq_of_length (by simp_all)
    exact popArguments_eq hcallee (by simp [Callee.of, Callee.accepts, hvariadic, heq])
  | true =>
    have haccepts : (Callee.of (layout.table.symbol s).type signature.params
        signature.variadic).accepts (.int :: arguments) := by
      simp [Callee.of, Callee.accepts, hvariadic, hfront]
    simpa [Callee.of] using popArguments_eq hcallee haccepts

/-- The code of an expression finds the tags that it names, and leaves one cell with the tag of its
type if it is not void. -/
theorem Coded.retag (h : Coded layout root part code)
    (hvoid : VoidFree layout.forest root) (hsound : Sound root layout.forest layout.table drawn) :
    code.retag layout.callee? stack = some (part.leaves layout.forest ++ stack) := by
  have hnumber : ∀ {id}, layout.forest.HasType id .int → cellsOf layout.forest id = [.int] :=
    fun h => cellsOf_hasType h rfl
  induction h generalizing stack with
  | int his | char his | string his =>
    rw [Part.leaves, cellsOf_eq his.type_eq rfl]
    rfl
  | scalar hnames =>
    rw [Part.leaves, cellsOf_eq hnames.type_eq hnames.ofVariable.not_void]
    rfl
  | array hnames harray =>
    rw [Part.leaves, cellsOf_eq hnames.type_eq hnames.ofVariable.not_void, Ty.cell_of_array harray]
    rfl
  | @call id s signature depth code hcalls _ ih =>
    have hretag := hcalls.retag hvoid hsound stack
    cases hvariadic : signature.variadic <;>
      simp_all [Instr.retag, Part.leaves, Constant.tag]
  | assignVariable keep his _ hnames _ hgiven hsame _ ih =>
    have htype := his.type_eq
    have hnot := hnames.ofVariable.not_void
    have hvalue := cellsOf_hasType ⟨_, hgiven, hsame⟩ hnot
    cases keep <;> simp [Part.of, Part.leaves, ih, hvalue, Instr.retag, cellsOf_eq htype hnot]
  | assignAddress keep his _ _ _ _ hgiven hsame _ _ _ ihplace ihvalue =>
    have htype := his.type_eq
    have hnot := his.not_void hvoid rfl (by simp)
    have hvalue := cellsOf_hasType ⟨_, hgiven, hsame⟩ hnot
    cases keep <;>
      simp [Part.of, Part.leaves, ihplace, ihvalue, hvalue, Instr.retag, cellsOf_eq htype hnot]
  | @stepVariable _ _ _ _ _ position direction keep his _ _ hscalar =>
    have hcells := cellsOf_eq his.type_eq (Ty.not_void_of_isScalar hscalar)
    cases keep <;> cases position <;> cases direction <;>
      simp [Part.of, Part.leaves, Instr.retag, stepInstr, hcells]
  | @stepAddress _ _ _ position direction _ _ keep his _ _ _ hscalar _ _ ih =>
    have hcells := cellsOf_eq his.type_eq (Ty.not_void_of_isScalar hscalar)
    cases keep <;> cases position <;> cases direction <;>
      simp [Part.of, Part.leaves, ih, Instr.retag, stepInstr, hcells]
  | remainder his _ hl hr _ _ _ ihleft ihright =>
    have hmod : layout.callee? (.named "mod") =
        some { params := [.int, .int], variadic := false, result := [.int] } := by rfl
    simp [Part.leaves, Instr.retag, ihleft, ihright, hnumber hl, hnumber hr, popArguments, hmod,
      Callee.accepts, cellsOf_eq his.type_eq rfl]
    rfl
  | logic his _ hl hr _ _ ihleft ihright =>
    simp [Part.leaves, Instr.retag, ihleft, ihright, hnumber hl, hnumber hr,
      cellsOf_eq his.type_eq rfl]
    rfl
  | compare his _ hl hr hsame hscalar _ _ ihleft ihright =>
    have hnot := Ty.not_void_of_isScalar hscalar
    have hright := cellsOf_hasType ⟨_, hr, (Ty.same_comm _ _).trans hsame⟩ hnot
    simp [Part.leaves, Instr.retag, ihleft, ihright, cellsOf_eq hl hnot, hright,
      cellsOf_eq his.type_eq rfl]
    rfl
  | arith his _ hl hr hlsame hrsame hscalar _ _ ihleft ihright =>
    have hnot := Ty.not_void_of_isScalar hscalar
    simp [Part.leaves, Instr.retag, ihleft, ihright, cellsOf_hasType ⟨_, hl, hlsame⟩ hnot,
      cellsOf_hasType ⟨_, hr, hrsame⟩ hnot, cellsOf_eq his.type_eq hnot]
  | negate his _ ho hintegral _ ih =>
    have hnot := Ty.not_void_of_isIntegral hintegral
    have hcells := cellsOf_hasType ⟨_, his.type_eq, Ty.withConst_same _ _⟩ hnot
    simp [Part.leaves, Instr.retag, ih, cellsOf_eq ho hnot, hcells]
  | not his _ ho _ ih =>
    simp [Part.leaves, Instr.retag, ih, hnumber ho, cellsOf_eq his.type_eq rfl]
    rfl
  | deref his _ _ ih | subscript his _ _ ih =>
    have hnot := his.not_void hvoid rfl (by simp)
    simp [Part.leaves, Instr.retag, ih, cellsOf_eq his.type_eq hnot]
  | addressOf his _ _ _ ih =>
    rw [ih, Part.leaves, Part.leaves, cellsOf_eq his.type_eq rfl]
    rfl
  | @conversion id inner change code his _ hinner hchange _ ih =>
    have hnot := his.not_void hvoid rfl (by simp)
    obtain ⟨hcells, hsource⟩ := Ty.cells_of_conversion? hchange
    have hinner := cellsOf_eq hinner (hsource hnot)
    rcases hcells with ⟨hnone, hcells⟩ | hsome
    · simp [Part.leaves, ih, hnone, hinner, hcells, cellsOf_eq his.type_eq hnot]
    · simp [Part.leaves, ih, hsome, hinner, Instr.retag, cellsOf_eq his.type_eq hnot]
  | named => rfl
  | element his _ hb helements hi _ _ ihbase ihindex =>
    obtain ⟨hcell, hnot⟩ := Ty.cell_of_elements? helements
    simp [Part.leaves, Instr.retag, ihbase, ihindex, cellsOf_eq hb hnot, hcell, hnumber hi]
  | pointee his _ ho hpointee _ ih =>
    obtain ⟨hcell, hnot⟩ := Ty.cell_of_pointee? hpointee
    simp [Part.leaves, ih, cellsOf_eq ho hnot, hcell]
  | drop _ htype hnot _ ih => simp [Part.leaves, ih, Instr.retag, cellsOf_eq htype hnot]
  | run _ htype hisVoid _ ih => simp [Part.leaves, ih, cellsOf, htype, Ty.cells, hisVoid]
  | nil => rfl
  | cons _ _ ihvalue ihothers =>
    simp [Part.leaves, ihvalue, ihothers]

/-! ## Statements -/

theorem Tests.retag {test : NodeId} (h : Tests layout root test code)
    (hvoid : VoidFree layout.forest root) (hsound : Sound root layout.forest layout.table drawn) :
    Code.retag layout.callee? (code ++ [.conv .int .bool]) stack = some (.bool :: stack) := by
  rw [Code.retag_append, h.value.retag hvoid hsound, Part.leaves, cellsOf_hasType h.type rfl]
  rfl

theorem Filled.retag {element : Ty} {size slot : Nat} {list : List NodeId}
    (h : Filled layout root element.cell size slot list code)
    (hlist : ∀ item ∈ list, layout.forest.HasType item element) (helement : element.isVoid = false)
    (hvoid : VoidFree layout.forest root) (hsound : Sound root layout.forest layout.table drawn) :
    code.retag layout.callee? stack = some stack := by
  induction h with
  | nil => rfl
  | cons hvalue _ ih =>
    obtain ⟨hitem, hlist⟩ := List.forall_mem_cons.mp hlist
    simp [hvalue.retag hvoid hsound, Part.leaves, cellsOf_hasType hitem helement, Instr.retag,
      ih hlist]

/-- What an item finds on the stack: only the jump that tests a condition finds its value. -/
def Item.finds : Item → List Tag
  | .control (.fjp _) => [.bool]
  | _ => []

/-- The stack in front of items. -/
def entry : List Item → List Tag
  | [] => []
  | item :: _ => item.finds

/-- Every item finds the tags that it names and leaves what the next one starts with. -/
def Balanced (callee? : Label → Option Callee) : List Item → Prop
  | [] => True
  | item :: items =>
    item.code.retag callee? (entry (item :: items)) = some (entry items) ∧ Balanced callee? items

/-- Items that start with an empty stack and end with one. -/
structure Even (callee? : Label → Option Callee) (items : List Item) : Prop where
  balanced : Balanced callee? items
  entry_eq : entry items = []

namespace Even

variable {callee? : Label → Option Callee} {items items' : List Item}

theorem nil : Even callee? [] := ⟨trivial, rfl⟩

theorem event {event : Event} (h : code.retag callee? [] = some []) :
    Even callee? [.event event code] := ⟨⟨h, trivial⟩, rfl⟩

theorem label (name : Label) : Even callee? [.control (.label name)] := ⟨⟨rfl, trivial⟩, rfl⟩

theorem ujp (target : Label) : Even callee? [.control (.ujp target)] := ⟨⟨rfl, trivial⟩, rfl⟩

theorem append (h : Even callee? items) (h' : Even callee? items') :
    Even callee? (items ++ items') := by
  obtain ⟨hbalanced, hentry⟩ := h
  have hboth : ∀ {items}, Balanced callee? items → Balanced callee? (items ++ items') := by
    intro items hitems
    induction items with
    | nil => exact h'.balanced
    | cons item items ih =>
      have hnext : entry (items ++ items') = entry items := by
        cases items with
        | nil => exact h'.entry_eq
        | cons => rfl
      exact ⟨hnext ▸ hitems.1, ih hitems.2⟩
  refine ⟨hboth hbalanced, ?_⟩
  cases items with
  | nil => exact h'.entry_eq
  | cons => exact hentry

theorem jumpItems {test : NodeId} (h : Tests layout root test code)
    (hvoid : VoidFree layout.forest root) (hsound : Sound root layout.forest layout.table drawn)
    (target : Label) : Even layout.callee? (jumpItems test code target) :=
  ⟨⟨h.retag hvoid hsound, rfl, trivial⟩, rfl⟩

end Even

theorem Guards.even {test : NodeId} {target : Label} {items : List Item}
    (h : Guards layout root test target items) (hvoid : VoidFree layout.forest root)
    (hsound : Sound root layout.forest layout.table drawn) : Even layout.callee? items := by
  cases h with
  | always => exact .nil
  | tested _ htest => exact .jumpItems htest hvoid hsound _

/-- The code of a statement leaves nothing on the stack. -/
theorem Lowered.even {piece : Piece} {items : List Item} (h : Lowered layout root piece items)
    (hvoid : VoidFree layout.forest root)
    (hsound : Sound root layout.forest layout.table drawn) : Even layout.callee? items := by
  have hleave : ∀ returned instr, instr = .retp ∨ instr = .retf →
      Even layout.callee? [.leave returned instr] := by
    rintro returned instr (rfl | rfl)
    · exact ⟨⟨rfl, trivial⟩, rfl⟩
    · exact ⟨⟨rfl, trivial⟩, rfl⟩
  induction h with
  | declared | function | nothing | nil => exact .nil
  | initialized hd _ harray hgiven hsame hvalue =>
    have hcells := cellsOf_hasType ⟨_, hgiven, hsame⟩ hd.ofVariable.not_void
    exact .event (by simp [hvalue.retag hvoid hsound, Part.leaves, hcells, Instr.retag])
  | listed hd _ _ _ hitems hfilled =>
    exact .event (hfilled.retag hitems (hd.ofVariable.element_not_void _ rfl) hvoid hsound)
  | exprStatement _ _ _ hcode => exact .event (hcode.retag hvoid hsound)
  | leave => exact hleave _ _ (.inl rfl)
  | giveBack _ _ _ _ _ htype _ hnot hvalue =>
    refine Even.append (.event ?_) (hleave _ _ (.inr rfl))
    simp [hvalue.retag hvoid hsound, Part.leaves, cellsOf_eq htype hnot, Instr.retag]
  | jump => exact .ujp _
  | block _ _ ih => exact ih
  | ifThen _ _ htest _ ih => exact ((Even.jumpItems htest hvoid hsound _).append ih).append (.label _)
  | ifElse _ _ htest _ _ ihyes ihno =>
    exact ((((Even.jumpItems htest hvoid hsound _).append ihyes).append
      ((Even.ujp _).append (.label _))).append ihno).append (.label _)
  | whileLoop _ _ htest _ ih =>
    exact (((Even.label _).append (Even.jumpItems htest hvoid hsound _)).append ih).append
      ((Even.ujp _).append (.label _))
  | forLoop _ _ _ hguard _ _ _ ihstart ihbody ihnext =>
    exact (((((ihstart.append (.label _)).append (hguard.even hvoid hsound)).append ihbody).append
      (.label _)).append ihnext).append ((Even.ujp _).append (.label _))
  | cons _ _ ihitems ihothers => exact ihitems.append ihothers

theorem Sectioned.even {f : NodeId} {items : List Item} (h : Sectioned layout root f items)
    (hvoid : VoidFree layout.forest root)
    (hsound : Sound root layout.forest layout.table drawn) : Even layout.callee? items := by
  obtain ⟨-, -, -, -, hbody⟩ := h
  next s signature _ _ _ items =>
  have hhead : Even layout.callee?
      [.control (.label signature.label), .control (.ssp (layout.sizeOf (some f)))] :=
    ⟨⟨rfl, rfl, trivial⟩, rfl⟩
  refine (hhead.append (hbody.even hvoid hsound)).append ⟨⟨?_, trivial⟩, rfl⟩
  cases (layout.table.symbol s).type.isVoid <;> rfl

/-! ## Runs -/

/-- A label in the code of items starts one of them. -/
theorem exists_items_of_label {items : List Item} {before after : Code} {target : Label}
    (h : ∀ item ∈ items, ∀ name, .label name ∈ item.code → item = .control (.label name))
    (hcode : codeOf items = before ++ .label target :: after) :
    ∃ items', .control (.label target) :: items' <:+ items ∧ after = codeOf items' := by
  induction items generalizing before with
  | nil => simp at hcode
  | cons item items ih =>
    obtain ⟨hitem, hitems⟩ := List.forall_mem_cons.mp h
    rw [codeOf_cons] at hcode
    rcases List.append_eq_append_iff.mp hcode with ⟨rest, hbefore, hrest⟩ | ⟨rest, hitemCode, hrest⟩
    · obtain ⟨items', hsuffix, hafter⟩ := ih hitems hrest
      exact ⟨items', hsuffix.trans (List.suffix_cons _ _), hafter⟩
    · cases rest with
      | nil =>
        obtain ⟨items', hsuffix, hafter⟩ := ih hitems (show codeOf items = [] ++ .label target :: after from hrest.symm)
        exact ⟨items', hsuffix.trans (List.suffix_cons _ _), hafter⟩
      | cons instr rest =>
        obtain ⟨rfl, hafter⟩ := List.cons.inj hrest
        have hmem : .label target ∈ item.code := by simp [hitemCode]
        obtain rfl := hitem target hmem
        have hrestNil : rest = [] := by
          cases before with
          | nil => exact (List.cons.inj hitemCode).2.symm
          | cons _ before => simp [Item.code] at hitemCode
        exact ⟨items, List.suffix_rfl, by simpa [hrestNil] using hafter⟩

end Emit

end MiniC
