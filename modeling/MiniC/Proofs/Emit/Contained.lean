import MiniC.Proofs.Emit.Access

/-!
# What code contains

Code of an expression or a statement contains the code of everything in it that is in the same frame.
The code of an expression runs from its first to its last instruction, calls apart.
-/

namespace MiniC

/-- The machine goes on with the next instruction after this one, or after the call is done. -/
def Machine.Instr.isPlain : Instr → Bool
  | label _ | ujp _ | fjp _ | ssp _ | retf | retp | hlt => false
  | _ => true

/-- The size that an instruction gives its frame. -/
def Machine.Instr.size? : Instr → Option Nat
  | ssp size => some size
  | _ => none

namespace Emit

open Machine Forest

variable {layout : Layout} {root e : NodeId} {part : Part} {code code' : Code}

/-- The code of an expression has no jumps and no labels. -/
theorem Coded.plain (h : Coded layout root part code) : ∀ instr ∈ code, instr.isPlain := by
  induction h with
  | assignVariable keep | assignAddress keep => cases keep <;> simp_all [Instr.isPlain, or_imp]
  | @stepVariable _ _ _ _ _ position direction keep | @stepAddress _ _ _ position direction _ _ keep =>
    cases keep <;> cases position <;> cases direction <;> simp_all [Instr.isPlain, or_imp, stepInstr]
  | @conversion _ _ change => cases change.coercion <;> simp_all [Instr.isPlain, or_imp]
  | @call _ _ signature => cases signature.variadic <;> simp_all [Instr.isPlain, or_imp]
  | _ => simp_all [Instr.isPlain, or_imp]

/-- What has code for its value, its effect or its address is an expression. -/
theorem Coded.role_eq (h : Coded layout root part code)
    (hpart : part = .value e ∨ part = .effect e ∨ part = .place e) :
    layout.forest.role e = .expression := by
  have hname : ∀ {id d place type}, Names layout root id d place type →
      layout.forest.role id = .expression := by
    intro id d place type hnames
    have hidentifier := hnames.isIdentifier
    rw [role]
    cases hk : layout.forest.kind id <;> simp_all [Kind.isIdentifier, Kind.role]
  induction h with
  | scalar hnames | array hnames | named hnames =>
    obtain rfl : _ = e := by simpa using hpart
    exact hname hnames
  | call hcalls =>
    obtain rfl : _ = e := by simpa using hpart
    obtain ⟨name, hk⟩ := hcalls.kind_eq
    rw [role, hk]
    rfl
  | drop _ _ _ _ ih | run _ _ _ _ ih =>
    obtain rfl : _ = e := by simpa using hpart
    exact ih (.inl rfl)
  | assignVariable keep his | assignAddress keep his | stepVariable keep his
  | stepAddress keep his =>
    obtain rfl : _ = e := by cases keep <;> simpa [Part.of] using hpart
    rw [role, his.kind_eq]
    rfl
  | nil | cons => simp at hpart
  | int his | char his | string his | remainder his | logic his | compare his | arith his
  | negate his | not his | deref his | addressOf his | subscript his | conversion his | element his
  | pointee his =>
    obtain rfl : _ = e := by simpa using hpart
    rw [role, his.kind_eq]
    rfl

/-- The code of a declaration. -/
theorem Lowered.cases_of_declaration {d : NodeId} {items : List Item}
    (h : Lowered layout root (.statement d) items)
    (hdecl : (layout.forest.kind d).isDeclaration) :
    items = [] ∧ layout.forest.child? d 1 = none ∨
    (∃ initial slot type code, Initializes layout root d slot type ∧
      layout.forest.child? d 1 = some initial ∧ Coded layout root (.value initial) code ∧
      items = [.event (.initializer d) (code ++ [.str type.cell 0 slot])]) ∨
    ∃ list slot element size constant code,
      Initializes layout root d slot (.array element size constant) ∧
      layout.forest.child? d 1 = some list ∧ layout.forest.kind list = .initializers ∧
      (layout.forest.children list).length ≤ size ∧
      Filled layout root element.cell element.slots slot (layout.forest.children list) code ∧
      items = [.event (.initializer d) code] := by
  cases h with
  | declared _ _ hnone => exact .inl ⟨rfl, hnone⟩
  | initialized hd hinitial _ _ _ hvalue =>
    exact .inr (.inl ⟨_, _, _, _, hd, hinitial, hvalue, rfl⟩)
  | listed hd hinitial hlist hlength _ hfilled =>
    exact .inr (.inr ⟨_, _, _, _, _, _, hd, hinitial, hlist, hlength, hfilled, rfl⟩)
  | function hkind => simp [Kind.not_isFunction_of_isDeclaration hdecl] at hkind
  | @jump _ _ leaving _ hjump => cases leaving <;> simp [hjump.kind_eq, Kind.isDeclaration] at hdecl
  | block hk | exprStatement hk | ifThen hk | ifElse hk | whileLoop hk | forLoop hk | leave hk
  | giveBack hk | nothing hk => simp [hk, Kind.isDeclaration] at hdecl

/-- Events run from their first to their last instruction; what is between them is a label, a jump or
a way out. -/
def Item.Proper : Item → Prop
  | event _ code => ∀ instr ∈ code, instr.isPlain
  | control instr => ∃ name, instr = .label name ∨ instr = .ujp name ∨ instr = .fjp name
  | leave _ instr => instr = .retp ∨ instr = .retf

theorem Item.Proper.size?_eq {item : Item} (h : item.Proper) :
    ∀ instr ∈ item.code, instr.size? = none := by
  intro instr hinstr
  cases item with
  | event event code =>
    have hplain := h instr hinstr
    cases instr <;> simp_all [Instr.isPlain, Instr.size?]
  | control instr' =>
    obtain rfl := List.mem_singleton.mp hinstr
    obtain ⟨name, rfl | rfl | rfl⟩ := h <;> rfl
  | leave returned instr' =>
    obtain rfl := List.mem_singleton.mp hinstr
    rcases h with rfl | rfl <;> rfl

theorem Filled.plain {tag : Tag} {size slot : Nat} {items : List NodeId}
    (h : Filled layout root tag size slot items code) : ∀ instr ∈ code, instr.isPlain := by
  induction h with
  | nil => exact List.forall_mem_nil _
  | cons hvalue _ ih =>
    simp only [List.forall_mem_append, List.forall_mem_singleton]
    exact ⟨⟨hvalue.plain, rfl⟩, ih⟩

theorem Tests.proper {test : NodeId} (h : Tests layout root test code) (target : Label) :
    ∀ item ∈ jumpItems test code target, item.Proper := by
  simp only [jumpItems, List.forall_mem_cons, List.not_mem_nil, IsEmpty.forall_iff, implies_true,
    and_true]
  refine ⟨fun instr hinstr => ?_, target, .inr (.inr rfl)⟩
  rcases List.mem_append.mp hinstr with hinstr | hinstr
  · exact h.value.plain instr hinstr
  · rw [List.mem_singleton.mp hinstr]
    rfl

theorem Guards.proper {test : NodeId} {target : Label} {items : List Item}
    (h : Guards layout root test target items) : ∀ item ∈ items, item.Proper := by
  cases h with
  | always => exact List.forall_mem_nil _
  | tested _ htest => exact htest.proper target

/-- The items of statements are proper. -/
theorem Lowered.proper {piece : Piece} {items : List Item} (h : Lowered layout root piece items) :
    ∀ item ∈ items, item.Proper := by
  have label : ∀ name, (Item.control (.label name)).Proper := fun name => ⟨name, .inl rfl⟩
  have jump : ∀ name, (Item.control (.ujp name)).Proper := fun name => ⟨name, .inr (.inl rfl)⟩
  induction h with
  | declared | function | nothing | nil => exact List.forall_mem_nil _
  | initialized _ _ _ _ _ hvalue =>
    refine List.forall_mem_singleton.mpr fun instr hinstr => ?_
    rcases List.mem_append.mp hinstr with hinstr | hinstr
    · exact hvalue.plain instr hinstr
    · rw [List.mem_singleton.mp hinstr]
      rfl
  | listed _ _ _ _ _ hfilled => exact List.forall_mem_singleton.mpr hfilled.plain
  | block _ _ ih => exact ih
  | exprStatement _ _ _ hcode => exact List.forall_mem_singleton.mpr hcode.plain
  | ifThen _ _ htest _ ih =>
    simp only [List.forall_mem_append, List.forall_mem_singleton]
    exact ⟨⟨htest.proper _, ih⟩, label _⟩
  | ifElse _ _ htest _ _ ihyes ihno =>
    simp only [List.forall_mem_append, List.forall_mem_singleton, List.forall_mem_cons]
    exact ⟨⟨⟨⟨htest.proper _, ihyes⟩, jump _, label _⟩, ihno⟩, label _⟩
  | whileLoop _ _ htest _ ih =>
    simp only [List.forall_mem_append, List.forall_mem_singleton, List.forall_mem_cons]
    exact ⟨⟨⟨label _, htest.proper _⟩, ih⟩, jump _, label _⟩
  | forLoop _ _ _ hguard _ _ _ ihstart ihbody ihnext =>
    simp only [List.forall_mem_append, List.forall_mem_singleton, List.forall_mem_cons]
    exact ⟨⟨⟨⟨⟨⟨ihstart, label _⟩, hguard.proper⟩, ihbody⟩, label _⟩, ihnext⟩, jump _, label _⟩
  | leave => exact List.forall_mem_singleton.mpr (.inl rfl)
  | giveBack _ _ _ _ _ _ _ _ hvalue =>
    simp only [List.forall_mem_singleton, List.forall_mem_cons]
    refine ⟨fun instr hinstr => ?_, .inr rfl⟩
    rcases List.mem_append.mp hinstr with hinstr | hinstr
    · exact hvalue.plain instr hinstr
    · rw [List.mem_singleton.mp hinstr]
      rfl
  | jump => exact List.forall_mem_singleton.mpr (jump _)
  | cons _ _ ihitems ihothers => exact List.forall_mem_append.mpr ⟨ihitems, ihothers⟩

theorem Lowered.size?_eq {piece : Piece} {items : List Item} (h : Lowered layout root piece items) :
    ∀ instr ∈ codeOf items, instr.size? = none := by
  intro instr hinstr
  obtain ⟨item, hitem, hinstr⟩ := List.mem_flatMap.mp hinstr
  exact (h.proper item hitem).size?_eq instr hinstr

/-- Code that contains the code of an expression, for its value or its address. -/
def Finds (layout : Layout) (root e : NodeId) (code : Code) : Prop :=
  ∃ found, found ⊆ code ∧
    (Coded layout root (.value e) found ∨ Coded layout root (.place e) found)

theorem Finds.mono (h : Finds layout root e code) (hsub : code ⊆ code') :
    Finds layout root e code' := by
  obtain ⟨found, hfound, hcoded⟩ := h
  exact ⟨found, List.Subset.trans hfound hsub, hcoded⟩

/-- The code of an expression contains the code of that expression. -/
theorem Coded.finds_value {id : NodeId} (h : Coded layout root (.value id) code)
    (hbelow : e ≠ id → Finds layout root e code) : Finds layout root e code := by
  by_cases heq : e = id
  · exact ⟨code, List.Subset.refl _, .inl (heq ▸ h)⟩
  · exact hbelow heq

theorem Coded.finds_place {id : NodeId} (h : Coded layout root (.place id) code)
    (hbelow : e ≠ id → Finds layout root e code) : Finds layout root e code := by
  by_cases heq : e = id
  · exact ⟨code, List.Subset.refl _, .inr (heq ▸ h)⟩
  · exact hbelow heq

/-- An expression is properly below what code is made for. -/
def Part.Above (forest : Forest) (e : NodeId) : Part → Prop
  | value id | effect id | place id => ∃ c ∈ forest.children id, forest.Below e c
  | arguments ids => ∃ id ∈ ids, forest.Below e id

@[simp] theorem Part.above_of {forest : Forest} (keep : Bool) (id : NodeId) :
    (Part.of keep id).Above forest e ↔ ∃ c ∈ forest.children id, forest.Below e c := by
  cases keep <;> rfl

theorem above_of_below {forest : Forest} {id : NodeId} (h : forest.Below e id) (hne : e ≠ id) :
    ∃ c ∈ forest.children id, forest.Below e c := h.eq_or_child.resolve_left hne

/-- The code of a part, in the code of the whole. -/
theorem Coded.finds_part {id : NodeId} (h : Coded layout root (.value id) code)
    (ih : (Part.value id).Above layout.forest e → Finds layout root e code)
    (hbelow : layout.forest.Below e id) (hsub : code ⊆ code') : Finds layout root e code' :=
  (h.finds_value fun hne => ih (above_of_below hbelow hne)).mono hsub

theorem Coded.finds_place_part {id : NodeId} (h : Coded layout root (.place id) code)
    (ih : (Part.place id).Above layout.forest e → Finds layout root e code)
    (hbelow : layout.forest.Below e id) (hsub : code ⊆ code') : Finds layout root e code' :=
  (h.finds_place fun hne => ih (above_of_below hbelow hne)).mono hsub

/-- Nothing is below a node without parts. -/
theorem not_above_leaf {forest : Forest} {id : NodeId} (hwhole : forest.Whole root)
    (hholds : (forest.kind id).Holds (forest.roles id) → forest.roles id = []) :
    ¬∃ c ∈ forest.children id, forest.Below e c := by
  rintro ⟨c, hc, -⟩
  have hroles := hholds (hwhole.shaped id)
  rw [roles, List.map_eq_nil_iff] at hroles
  simp [hroles] at hc

/-- Nothing is below a name. -/
theorem Names.not_above {id d : NodeId} {place : Place} {type : Ty}
    (h : Names layout root id d place type) (hwhole : layout.forest.Whole root) :
    ¬∃ c ∈ layout.forest.children id, layout.forest.Below e c := by
  have hidentifier := h.isIdentifier
  refine not_above_leaf hwhole fun hholds => ?_
  cases hk : layout.forest.kind id <;> simp_all [Kind.isIdentifier, Kind.Holds]

theorem Is.not_above {id : NodeId} {kind : Kind} {type : Ty} (h : Is layout root id kind type)
    (hwhole : layout.forest.Whole root)
    (hholds : kind.Holds (layout.forest.roles id) → layout.forest.roles id = []) :
    ¬∃ c ∈ layout.forest.children id, layout.forest.Below e c :=
  not_above_leaf hwhole (h.kind_eq ▸ hholds)

theorem Names.not_below {id d : NodeId} {place : Place} {type : Ty}
    (h : Names layout root id d place type) (hwhole : layout.forest.Whole root)
    (hname : (layout.forest.kind e).isIdentifier = false) : ¬layout.forest.Below e id := by
  intro hbelow
  by_cases heq : e = id
  · rw [heq, h.isIdentifier] at hname
    cases hname
  · exact h.not_above hwhole (above_of_below hbelow heq)

/-- The code of an expression contains the code of everything in it, except for variables that are
only stored into. -/
theorem Coded.finds (h : Coded layout root part code) (hwhole : layout.forest.Whole root)
    (hname : (layout.forest.kind e).isIdentifier = false)
    (habove : part.Above layout.forest e) : Finds layout root e code := by
  induction h with
  | int his | char his | string his => exact absurd habove (his.not_above hwhole id)
  | scalar hnames | array hnames | named hnames => exact absurd habove (hnames.not_above hwhole)
  | call _ _ ih =>
    refine (ih habove).mono fun instr hinstr => ?_
    simp [hinstr]
  | assignVariable keep _ hchildren hnames _ _ _ hvalue ih =>
    obtain ⟨c, hc, hbelow⟩ := (Part.above_of keep _).mp habove
    rw [hchildren, List.mem_pair] at hc
    rcases hc with rfl | rfl
    · exact absurd hbelow (hnames.not_below hwhole hname)
    · exact hvalue.finds_part ih hbelow fun instr hinstr => by simp [hinstr]
  | assignAddress keep _ hchildren _ _ _ _ _ _ hplace hvalue ihplace ihvalue =>
    obtain ⟨c, hc, hbelow⟩ := (Part.above_of keep _).mp habove
    rw [hchildren, List.mem_pair] at hc
    rcases hc with rfl | rfl
    · exact hplace.finds_place_part ihplace hbelow fun instr hinstr => by simp [hinstr]
    · exact hvalue.finds_part ihvalue hbelow fun instr hinstr => by simp [hinstr]
  | stepVariable keep _ hchildren hnames =>
    obtain ⟨c, hc, hbelow⟩ := (Part.above_of keep _).mp habove
    rw [hchildren, List.mem_singleton] at hc
    exact absurd (hc ▸ hbelow) (hnames.not_below hwhole hname)
  | stepAddress keep _ hchildren _ _ _ _ hplace ih =>
    obtain ⟨c, hc, hbelow⟩ := (Part.above_of keep _).mp habove
    rw [hchildren, List.mem_singleton] at hc
    exact hplace.finds_place_part ih (hc ▸ hbelow) fun instr hinstr => by simp [hinstr]
  | remainder _ hchildren _ _ _ hleft hright ihleft ihright
  | logic _ hchildren _ _ hleft hright ihleft ihright
  | compare _ hchildren _ _ _ _ hleft hright ihleft ihright
  | arith _ hchildren _ _ _ _ _ hleft hright ihleft ihright
  | element _ hchildren _ _ _ hleft hright ihleft ihright =>
    obtain ⟨c, hc, hbelow⟩ := habove
    rw [hchildren, List.mem_pair] at hc
    rcases hc with rfl | rfl
    · exact hleft.finds_part ihleft hbelow fun instr hinstr => by simp [hinstr]
    · exact hright.finds_part ihright hbelow fun instr hinstr => by simp [hinstr]
  | negate _ hchildren _ _ hvalue ih | not _ hchildren _ hvalue ih
  | conversion _ hchildren _ _ hvalue ih | pointee _ hchildren _ _ hvalue ih =>
    obtain ⟨c, hc, hbelow⟩ := habove
    rw [hchildren, List.mem_singleton] at hc
    exact hvalue.finds_part ih (hc ▸ hbelow) fun instr hinstr => by simp [hinstr]
  | addressOf _ hchildren _ hplace ih =>
    obtain ⟨c, hc, hbelow⟩ := habove
    rw [hchildren, List.mem_singleton] at hc
    exact hplace.finds_place_part ih (hc ▸ hbelow) fun instr hinstr => by simp [hinstr]
  | deref _ _ _ ih | subscript _ _ _ ih | drop _ _ _ _ ih | run _ _ _ _ ih =>
    exact (ih habove).mono fun instr hinstr => by simp [hinstr]
  | nil =>
    obtain ⟨id, hid, -⟩ := habove
    cases hid
  | cons hvalue _ ihvalue ihothers =>
    obtain ⟨id, hid, hbelow⟩ := habove
    rcases List.mem_cons.mp hid with rfl | hid
    · exact hvalue.finds_part ihvalue hbelow fun instr hinstr => by simp [hinstr]
    · exact (ihothers ⟨id, hid, hbelow⟩).mono fun instr hinstr => by simp [hinstr]

/-! ## Statements -/

/-- Code that contains the code of an expression or of a declaration. -/
inductive Holds (layout : Layout) (root : NodeId) (code : Code) (m : NodeId) : Prop
  | part (h : Finds layout root m code)
  | effect {found : Code} {p : NodeId} (hp : layout.forest.parent m = some p)
      (hkind : layout.forest.kind p = .exprStatement) (hcoded : Coded layout root (.effect m) found)
      (hsub : found ⊆ code)
  | declaration {items : List Item} (hdecl : (layout.forest.kind m).isDeclaration)
      (hlowered : Lowered layout root (.statement m) items) (hsub : codeOf items ⊆ code)

variable {m : NodeId}

theorem Holds.mono (h : Holds layout root code m) (hsub : code ⊆ code') :
    Holds layout root code' m := by
  cases h with
  | part h => exact .part (h.mono hsub)
  | effect hp hkind hcoded hfound => exact .effect hp hkind hcoded (List.Subset.trans hfound hsub)
  | declaration hdecl hlowered hfound =>
    exact .declaration hdecl hlowered (List.Subset.trans hfound hsub)

/-- The node is below what code is made for. -/
def Piece.Above (forest : Forest) (m : NodeId) : Piece → Prop
  | statement id => forest.Below m id
  | statements ids => ∃ id ∈ ids, forest.Below m id

/-- An expression whose code can be found, or a declaration, in a frame. -/
structure Sought (forest : Forest) (function : Option NodeId) (m : NodeId) : Prop where
  role : forest.role m = .expression ∧ (forest.kind m).isIdentifier = false ∨
    (forest.kind m).isDeclaration
  owner : forest.owningFunction m = function

variable {function : Option NodeId}

theorem Sought.isIdentifier {forest : Forest} (h : Sought forest function m) :
    (forest.kind m).isIdentifier = false := by
  rcases h.role with ⟨-, hname⟩ | hdecl
  · exact hname
  · cases hk : forest.kind m <;> simp_all [Kind.isDeclaration, Kind.isIdentifier]

/-- What is sought is no statement besides declarations. -/
theorem Sought.exists_child {forest : Forest} {id : NodeId} (h : Sought forest function m)
    (hbelow : forest.Below m id) (hrole : forest.role id ≠ .expression)
    (hdecl : (forest.kind id).isDeclaration = false) :
    ∃ c ∈ forest.children id, forest.Below m c := by
  refine above_of_below hbelow ?_
  rintro rfl
  rcases h.role with ⟨hrole', -⟩ | hdecl'
  · exact hrole hrole'
  · simp [hdecl] at hdecl'

/-- Nothing sought is below what makes no code. -/
theorem Sought.not_below_written {forest : Forest} {id : NodeId} (h : Sought forest function m)
    (hwhole : forest.Whole root) (hrole : (forest.role id).IsWritten) : ¬forest.Below m id := by
  intro hbelow
  have hwritten : (forest.role m).IsWritten :=
    hbelow.descend (P := fun n => (forest.role n).IsWritten) hrole fun p c _ hc hp =>
      Kind.isWritten_of_holds hp (hwhole.shaped p) _ (List.mem_map_of_mem hc)
  rcases h.role with ⟨hexpression, -⟩ | hdecl
  · rw [hexpression] at hwritten
    exact hwritten
  · exact (Kind.isStatement_of_isDeclaration hdecl).not_isWritten hwritten

/-- What is in a function is not in the frame that the function is in. -/
theorem Sought.not_below_function {forest : Forest} {f : NodeId} (h : Sought forest function m)
    (hwhole : forest.Whole root) (hfun : (forest.kind f).isFunction)
    (howner : forest.owningFunction f = function) : ¬forest.Below m f := by
  intro hbelow
  obtain rfl := eq_of_owner hwhole hfun howner h.owner hbelow
  rcases h.role with ⟨hrole, -⟩ | hdecl
  · simp [Kind.isFunction_of_role hrole] at hfun
  · simp [Kind.not_isFunction_of_isDeclaration hdecl] at hfun

/-- An expression in the code of a statement. -/
theorem Sought.holds_part {id : NodeId} (h : Sought layout.forest function m)
    (hwhole : layout.forest.Whole root) (hcoded : Coded layout root (.value id) code)
    (hbelow : layout.forest.Below m id) (hsub : code ⊆ code') : Holds layout root code' m :=
  .part (hcoded.finds_part (hcoded.finds hwhole h.isIdentifier) hbelow hsub)

/-- The code that stores values into elements contains that of the values. -/
theorem Filled.holds {tag : Tag} {size slot : Nat} {items : List NodeId}
    (h : Filled layout root tag size slot items code) (hwhole : layout.forest.Whole root)
    (hm : Sought layout.forest function m) (habove : ∃ item ∈ items, layout.forest.Below m item) :
    Holds layout root code m := by
  induction h with
  | nil =>
    obtain ⟨item, hitem, -⟩ := habove
    cases hitem
  | cons hvalue _ ih =>
    obtain ⟨item, hitem, hbelow⟩ := habove
    rcases List.mem_cons.mp hitem with rfl | hitem
    · exact hm.holds_part hwhole hvalue hbelow fun instr hinstr => by simp [hinstr]
    · exact (ih ⟨item, hitem, hbelow⟩).mono fun instr hinstr => by simp [hinstr]

/-- What is properly below a declaration is below its initializer. -/
theorem Sought.below_initial {d : NodeId} (h : Sought layout.forest function m)
    (hwhole : layout.forest.Whole root) (hdecl : (layout.forest.kind d).isDeclaration)
    (hbelow : layout.forest.Below m d) (hne : m ≠ d) :
    ∃ initial, layout.forest.child? d 1 = some initial ∧ layout.forest.Below m initial := by
  obtain ⟨c, hc, hmc⟩ := above_of_below hbelow hne
  have hholds := hwhole.shaped d
  obtain ⟨name, symbol, hk⟩ : ∃ name symbol, layout.forest.kind d = .declaration name symbol := by
    cases hk : layout.forest.kind d <;> simp_all [Kind.isDeclaration]
  rw [hk] at hholds
  obtain ⟨written, hwritten, hroles⟩ := hholds
  have hwritten : written.IsWritten := by
    rcases hwritten with rfl | rfl <;> trivial
  rcases hroles with hroles | hroles | hroles
  · obtain ⟨a, hchildren, rfl⟩ := exists_single hroles
    rw [hchildren, List.mem_singleton] at hc
    exact absurd (hc ▸ hmc) (h.not_below_written hwhole hwritten)
  all_goals
    obtain ⟨a, b, hchildren, rfl, -⟩ := exists_pair hroles
    rw [hchildren, List.mem_pair] at hc
    rcases hc with rfl | rfl
    · exact absurd hmc (h.not_below_written hwhole hwritten)
    · exact ⟨c, by simp [child?, hchildren], hmc⟩

/-- The code of a statement contains the code of everything in it that is in the same frame. -/
theorem Lowered.holds {piece : Piece} {items : List Item} (h : Lowered layout root piece items)
    (hwhole : layout.forest.Whole root) (hm : Sought layout.forest function m)
    (hpiece : piece.In layout.forest function) (habove : piece.Above layout.forest m) :
    Holds layout root (codeOf items) m := by
  induction h with
  | @declared d hbelow hkind hnone =>
    by_cases hmd : m = d
    · subst hmd
      exact .declaration hkind (.declared hbelow hkind hnone) (List.Subset.refl _)
    · obtain ⟨initial, hinitial, -⟩ := hm.below_initial hwhole hkind habove hmd
      simp [hnone] at hinitial
  | @initialized d initial slot type given code hd hinitial harray hgiven hsame hvalue =>
    by_cases hmd : m = d
    · subst hmd
      exact .declaration hd.isDeclaration (.initialized hd hinitial harray hgiven hsame hvalue)
        (List.Subset.refl _)
    · obtain ⟨initial', hinitial', hbelow⟩ :=
        hm.below_initial hwhole hd.isDeclaration habove hmd
      obtain rfl : initial = initial' := Option.some.inj (hinitial.symm.trans hinitial')
      exact hm.holds_part hwhole hvalue hbelow fun instr hinstr => by simp [Item.code, hinstr]
  | @listed d list slot element size constant code hd hinitial hlist hlength hitems hfilled =>
    by_cases hmd : m = d
    · subst hmd
      exact .declaration hd.isDeclaration (.listed hd hinitial hlist hlength hitems hfilled)
        (List.Subset.refl _)
    · obtain ⟨initial', hinitial', hbelow⟩ :=
        hm.below_initial hwhole hd.isDeclaration habove hmd
      obtain rfl : list = initial' := Option.some.inj (hinitial.symm.trans hinitial')
      have hchild := hm.exists_child hbelow (by simp [role, hlist, Kind.role]) (by rw [hlist]; rfl)
      exact (hfilled.holds hwhole hm hchild).mono fun instr hinstr => by simp [Item.code, hinstr]
  | function hkind => exact absurd habove (hm.not_below_function hwhole hkind hpiece)
  | block hkind _ ih =>
    refine ih (fun c hc => owner_of_mem hwhole (by rw [hkind]; rfl) hpiece hc) ?_
    exact hm.exists_child habove (by simp [role, hkind, Kind.role]) (by rw [hkind]; rfl)
  | @exprStatement id e code hkind hchildren _ hcode =>
    obtain ⟨c, hc, hbelow⟩ :=
      hm.exists_child habove (by simp [role, hkind, Kind.role]) (by rw [hkind]; rfl)
    have hparent := hwhole.linked.parent_of_mem hc
    rw [hchildren, List.mem_singleton] at hc
    subst hc
    have hsub : code ⊆ codeOf [.event (.discarded c) code] :=
      fun instr hinstr => by simp [Item.code, hinstr]
    by_cases hmc : m = c
    · exact .effect (hmc ▸ hparent) hkind (hmc ▸ hcode) hsub
    · exact .part ((hcode.finds hwhole hm.isIdentifier (above_of_below hbelow hmc)).mono hsub)
  | @ifThen id test yes labels code items hkind hchildren htest _ ih =>
    obtain ⟨c, hc, hbelow⟩ :=
      hm.exists_child habove (by simp [role, hkind, Kind.role]) (by rw [hkind]; rfl)
    have howner := owner_of_mem hwhole (by rw [hkind]; rfl) hpiece hc
    simp only [hchildren, List.mem_cons, List.not_mem_nil, or_false] at hc
    rcases hc with rfl | rfl
    · exact hm.holds_part hwhole htest.value hbelow fun instr hinstr => by
        simp [jumpItems, Item.code, hinstr]
    · exact (ih howner hbelow).mono fun instr hinstr => by simp [hinstr]
  | @ifElse id test yes no labels code items others hkind hchildren htest _ _ ihyes ihno =>
    obtain ⟨c, hc, hbelow⟩ :=
      hm.exists_child habove (by simp [role, hkind, Kind.role]) (by rw [hkind]; rfl)
    have howner := owner_of_mem hwhole (by rw [hkind]; rfl) hpiece hc
    simp only [hchildren, List.mem_cons, List.not_mem_nil, or_false] at hc
    rcases hc with rfl | rfl | rfl
    · exact hm.holds_part hwhole htest.value hbelow fun instr hinstr => by
        simp [jumpItems, Item.code, hinstr]
    · exact (ihyes howner hbelow).mono fun instr hinstr => by simp [hinstr]
    · exact (ihno howner hbelow).mono fun instr hinstr => by simp [hinstr]
  | @whileLoop id test body labels code items hkind hchildren htest _ ih =>
    obtain ⟨c, hc, hbelow⟩ :=
      hm.exists_child habove (by simp [role, hkind, Kind.role]) (by rw [hkind]; rfl)
    have howner := owner_of_mem hwhole (by rw [hkind]; rfl) hpiece hc
    simp only [hchildren, List.mem_cons, List.not_mem_nil, or_false] at hc
    rcases hc with rfl | rfl
    · exact hm.holds_part hwhole htest.value hbelow fun instr hinstr => by
        simp [jumpItems, Item.code, hinstr]
    · exact (ih howner hbelow).mono fun instr hinstr => by simp [hinstr]
  | @forLoop id start test next body labels first guard items others hkind hchildren _ hguard _ _ _
      ihstart ihbody ihnext =>
    obtain ⟨c, hc, hbelow⟩ :=
      hm.exists_child habove (by simp [role, hkind, Kind.role]) (by rw [hkind]; rfl)
    have howner := owner_of_mem hwhole (by rw [hkind]; rfl) hpiece hc
    simp only [hchildren, List.mem_cons, List.not_mem_nil, or_false] at hc
    rcases hc with rfl | rfl | rfl | rfl
    · exact (ihstart howner hbelow).mono fun instr hinstr => by simp [hinstr]
    · cases hguard with
      | always hnothing =>
        refine absurd (hm.exists_child hbelow (by simp [role, hnothing, Kind.role])
          (by rw [hnothing]; rfl)) (not_above_leaf hwhole fun hholds => ?_)
        rwa [hnothing] at hholds
      | tested _ htest =>
        exact hm.holds_part hwhole htest.value hbelow fun instr hinstr => by
          simp [jumpItems, Item.code, hinstr]
    · exact (ihnext howner hbelow).mono fun instr hinstr => by simp [hinstr]
    · exact (ihbody howner hbelow).mono fun instr hinstr => by simp [hinstr]
  | leave hkind hchildren =>
    obtain ⟨c, hc, -⟩ :=
      hm.exists_child habove (by simp [role, hkind, Kind.role]) (by rw [hkind]; rfl)
    simp [hchildren] at hc
  | giveBack hkind hchildren _ _ _ _ _ _ hvalue =>
    obtain ⟨c, hc, hbelow⟩ :=
      hm.exists_child habove (by simp [role, hkind, Kind.role]) (by rw [hkind]; rfl)
    rw [hchildren, List.mem_singleton] at hc
    exact hm.holds_part hwhole hvalue (hc ▸ hbelow) fun instr hinstr => by simp [Item.code, hinstr]
  | @jump id loop leaving label hjump =>
    have hkind := hjump.kind_eq
    cases leaving <;> refine absurd (hm.exists_child habove (by simp [role, hkind, Kind.role])
      (by rw [hkind]; rfl)) (not_above_leaf hwhole fun hholds => ?_) <;> rwa [hkind] at hholds
  | nothing hnothing =>
    refine absurd (hm.exists_child habove (by simp [role, hnothing, Kind.role])
      (by rw [hnothing]; rfl)) (not_above_leaf hwhole fun hholds => ?_)
    rwa [hnothing] at hholds
  | nil =>
    obtain ⟨id, hid, -⟩ := habove
    cases hid
  | cons _ _ ihitems ihothers =>
    obtain ⟨id, hid, hbelow⟩ := habove
    obtain ⟨hfirst, hothers⟩ := List.forall_mem_cons.mp (show ∀ c ∈ _ :: _, _ from hpiece)
    rcases List.mem_cons.mp hid with rfl | hid
    · exact (ihitems hfirst hbelow).mono fun instr hinstr => by simp [hinstr]
    · exact (ihothers hothers ⟨id, hid, hbelow⟩).mono fun instr hinstr => by simp [hinstr]

end Emit

end MiniC
