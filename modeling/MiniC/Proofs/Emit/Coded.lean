import MiniC.Emit.Program
import MiniC.Proofs.Layout.Depth

/-!
# What the code of an expression is

`Coded` says which code expressions, places and arguments have, one rule for each form. A rule names
the types that the code depends on, the variable that a name stands for, and how many static links
lead to its frame. What is proved about the code of expressions is proved along these rules.
-/

namespace MiniC

open Machine Forest

namespace Ty

/-- The tag of the cells that hold values of a type. An array is held as its address, and what has no
tag of its own as an integer. -/
def cell (type : Ty) : Tag := type.decay.tag?.getD .int

theorem cell_of_not_array {type : Ty} (h : type.isArray = false) :
    type.tag?.getD .int = type.cell := by
  cases type with
  | base | pointer => rfl
  | array => cases h

/-- Every type of a cell has a tag. -/
theorem isSome_tag? {type : Ty} (harray : type.isArray = false) (hvoid : type.isVoid = false) :
    type.tag?.isSome := by
  cases type with
  | base name => cases name <;> simp_all [tag?, isVoid, kind]
  | pointer => rfl
  | array => cases harray

/-- Types that are the same in all but constness have the same cells. -/
theorem cell_plain (type : Ty) : type.plain.cell = type.cell := by
  cases type with
  | base name => cases name <;> rfl
  | pointer | array => rfl

theorem cell_eq_of_same {a b : Ty} (h : a.same b) : a.cell = b.cell := by
  rw [← cell_plain a, ← cell_plain b, show a.plain = b.plain by simpa [same] using h]

end Ty

/-- The scratch slot of the frame of a function or of the file. -/
def Layout.scratch? (layout : Layout) (function : Option NodeId) : Option Nat :=
  (layout.frame? function).bind (·.scratch)

/-- If an expression writes through an address, its frame has a scratch slot to keep the value in. -/
def Layout.Keeps (layout : Layout) (id : NodeId) : Prop :=
  layout.forest.writesThroughAddress id →
    ∃ slot, layout.scratch? (layout.forest.owningFunction id) = some slot

namespace Emit

/-- What code is made for. -/
inductive Part
  /-- An expression, for its value. -/
  | value (id : NodeId)
  /-- An expression whose value is not used. -/
  | effect (id : NodeId)
  /-- A place, for its address. -/
  | place (id : NodeId)
  /-- Expressions one behind the other. -/
  | arguments (ids : List NodeId)

/-- An expression whose value is kept or not. -/
def Part.of (keep : Bool) (id : NodeId) : Part := if keep then .value id else .effect id

variable (layout : Layout) (root : NodeId)

/-- An expression of the program with its kind and type. -/
structure Is (id : NodeId) (kind : Kind) (type : Ty) : Prop where
  below : layout.forest.Below id root
  kind_eq : layout.forest.kind id = kind
  type_eq : layout.forest.type? id = some type

/-- A name that stands for the variable declared by `d`. -/
structure Names (id d : NodeId) (place : Place) (type : Ty) : Prop where
  below : layout.forest.Below id root
  isIdentifier : (layout.forest.kind id).isIdentifier
  symbol_eq : (layout.forest.kind id).symbol? = (layout.forest.kind d).symbol?
  type_eq : layout.forest.type? id = some type
  declared : layout.forest.type? d = some type
  ofVariable : type.OfVariable
  frame : layout.forest.IsFrame root (layout.forest.owningFunction d)
  mem : d ∈ layout.forest.frameVariables root (layout.forest.owningFunction d)
  slot : layout.slot? d = some place.slot
  slots : layout.slots d = type.slots
  depth : layout.forest.outward place.depth (layout.forest.owningFunction id) =
    some (layout.forest.owningFunction d)

/-- A call of the function with the symbol `s`, over `depth` static links. -/
structure Calls (id : NodeId) (s : SymbolId) (signature : Signature) (depth : Nat) : Prop where
  below : layout.forest.Below id root
  kind_eq : ∃ name, layout.forest.kind id = .call name (some s)
  signature_eq : (layout.table.symbol s).signature? = some signature
  defined : signature.defined = true
  type_eq : layout.forest.type? id = some (layout.table.symbol s).type
  fits : Resolve.fits signature (layout.forest.children id).length
  arguments : ArgumentsFit layout.forest signature.params (layout.forest.children id)
  depth : layout.forest.outward depth (layout.forest.owningFunction id) =
    some (layout.table.symbol s).frame

/-- The code of expressions, places and arguments. -/
inductive Coded : Part → Code → Prop
  | int {id : NodeId} {value : Int} (his : Is layout root id (.int value) .int) :
      Coded (.value id) [.ldc (.int value)]
  | char {id : NodeId} {value : Char} (his : Is layout root id (.char value) .char) :
      Coded (.value id) [.ldc (.char value)]
  | string {id : NodeId} {value : String} {slot depth : Nat}
      (his : Is layout root id (.string value (some slot)) (.pointerTo .char))
      (hdepth : layout.forest.outward depth (layout.forest.owningFunction id) = some none) :
      Coded (.value id) [.lda depth slot]
  | scalar {id d : NodeId} {place : Place} {type : Ty} (hnames : Names layout root id d place type)
      (harray : type.isArray = false) :
      Coded (.value id) [.lod type.cell place.depth place.slot]
  | array {id d : NodeId} {place : Place} {type : Ty} (hnames : Names layout root id d place type)
      (harray : type.isArray = true) : Coded (.value id) [.lda place.depth place.slot]
  | call {id : NodeId} {s : SymbolId} {signature : Signature} {depth : Nat} {code : Code}
      (hcalls : Calls layout root id s signature depth)
      (harguments : Coded (.arguments (layout.forest.children id)) code) :
      Coded (.value id) ([.mst depth] ++
        (if signature.variadic then [.ldc (.int (layout.forest.children id).length)] else []) ++
        code ++ [.cup ((layout.forest.children id).length + if signature.variadic then 1 else 0)
          signature.label])
  | assignVariable {id target value d : NodeId} {place : Place} {type given : Ty} {code : Code}
      (keep : Bool) (his : Is layout root id (.binary .assign) type)
      (hchildren : layout.forest.children id = [target, value])
      (hnames : Names layout root target d place type) (harray : type.isArray = false)
      (hgiven : layout.forest.type? value = some given) (hsame : given.same type)
      (hvalue : Coded (.value value) code) :
      Coded (.of keep id) (code ++ [.str type.cell place.depth place.slot] ++
        if keep then [.lod type.cell place.depth place.slot] else [])
  | assignAddress {id target value : NodeId} {type given : Ty} {scratch : Nat}
      {targetCode code : Code} (keep : Bool) (his : Is layout root id (.binary .assign) type)
      (hchildren : layout.forest.children id = [target, value])
      (htarget : (layout.forest.kind target).isIdentifier = false)
      (htype : layout.forest.type? target = some type) (harray : type.isArray = false)
      (hgiven : layout.forest.type? value = some given) (hsame : given.same type)
      (hscratch : keep = true → layout.scratch? (layout.forest.owningFunction id) = some scratch)
      (hplace : Coded (.place target) targetCode) (hvalue : Coded (.value value) code) :
      Coded (.of keep id) (targetCode ++ code ++
        if keep then [.str type.cell 0 scratch, .lod type.cell 0 scratch, .sto type.cell,
          .lod type.cell 0 scratch] else [.sto type.cell])
  | stepVariable {id target d : NodeId} {place : Place} {type : Ty} {position : Position}
      {direction : Direction} (keep : Bool)
      (his : Is layout root id (.unary (.step position direction)) type)
      (hchildren : layout.forest.children id = [target])
      (hnames : Names layout root target d place type) (hscalar : type.isScalar) :
      Coded (.of keep id)
        ((if keep && position = .after then [.lod type.cell place.depth place.slot] else []) ++
          [.lod type.cell place.depth place.slot] ++
          [stepInstr direction type.cell, .str type.cell place.depth place.slot] ++
          if keep && position = .before then [.lod type.cell place.depth place.slot] else [])
  | stepAddress {id target : NodeId} {type : Ty} {position : Position} {direction : Direction}
      {scratch : Nat} {targetCode : Code} (keep : Bool)
      (his : Is layout root id (.unary (.step position direction)) type)
      (hchildren : layout.forest.children id = [target])
      (htarget : (layout.forest.kind target).isIdentifier = false)
      (htype : layout.forest.type? target = some type) (hscalar : type.isScalar)
      (hscratch : layout.scratch? (layout.forest.owningFunction id) = some scratch)
      (hplace : Coded (.place target) targetCode) :
      Coded (.of keep id) (targetCode ++ [.str .address 0 scratch] ++
        (if keep && position = .after then [.lod .address 0 scratch, .ind type.cell] else []) ++
        [.lod .address 0 scratch] ++ [.lod .address 0 scratch, .ind type.cell] ++
        [stepInstr direction type.cell, .sto type.cell] ++
        if keep && position = .before then [.lod .address 0 scratch, .ind type.cell] else [])
  | remainder {id left right : NodeId} {depth : Nat} {leftCode rightCode : Code}
      (his : Is layout root id (.binary .remainder) .int)
      (hchildren : layout.forest.children id = [left, right])
      (hl : layout.forest.HasType left .int) (hr : layout.forest.HasType right .int)
      (hdepth : layout.forest.outward depth (layout.forest.owningFunction id) = some none)
      (hleft : Coded (.value left) leftCode) (hright : Coded (.value right) rightCode) :
      Coded (.value id) ([.mst depth] ++ leftCode ++ rightCode ++ [.cup 2 (.named "mod")])
  | logic {id left right : NodeId} {op : LogicOp} {leftCode rightCode : Code}
      (his : Is layout root id (.binary (.logic op)) .int)
      (hchildren : layout.forest.children id = [left, right])
      (hl : layout.forest.HasType left .int) (hr : layout.forest.HasType right .int)
      (hleft : Coded (.value left) leftCode) (hright : Coded (.value right) rightCode) :
      Coded (.value id) (leftCode ++ [.conv .int .bool] ++ rightCode ++
        [.conv .int .bool, .logic op, .conv .bool .int])
  | compare {id left right : NodeId} {op : CompareOp} {l r : Ty} {leftCode rightCode : Code}
      (his : Is layout root id (.binary (.compare op)) .int)
      (hchildren : layout.forest.children id = [left, right])
      (hl : layout.forest.type? left = some l) (hr : layout.forest.type? right = some r)
      (hsame : l.same r) (hscalar : l.isScalar)
      (hleft : Coded (.value left) leftCode) (hright : Coded (.value right) rightCode) :
      Coded (.value id) (leftCode ++ rightCode ++ [.compare op l.cell, .conv .bool .int])
  | arith {id left right : NodeId} {op : ArithOp} {type l r : Ty} {leftCode rightCode : Code}
      (his : Is layout root id (.binary (.arith op)) type)
      (hchildren : layout.forest.children id = [left, right])
      (hl : layout.forest.type? left = some l) (hr : layout.forest.type? right = some r)
      (hlsame : l.same type) (hrsame : r.same type) (hscalar : type.isScalar)
      (hleft : Coded (.value left) leftCode) (hright : Coded (.value right) rightCode) :
      Coded (.value id) (leftCode ++ rightCode ++ [.arith op type.cell])
  | negate {id operand : NodeId} {o : Ty} {code : Code}
      (his : Is layout root id (.unary .negate) (o.withConst false))
      (hchildren : layout.forest.children id = [operand])
      (ho : layout.forest.type? operand = some o) (hintegral : o.isIntegral)
      (hoperand : Coded (.value operand) code) : Coded (.value id) (code ++ [.neg o.cell])
  | not {id operand : NodeId} {code : Code} (his : Is layout root id (.unary .not) .int)
      (hchildren : layout.forest.children id = [operand])
      (ho : layout.forest.HasType operand .int) (hoperand : Coded (.value operand) code) :
      Coded (.value id) (code ++ [.conv .int .bool, .not, .conv .bool .int])
  | deref {id : NodeId} {type : Ty} {code : Code} (his : Is layout root id (.unary .deref) type)
      (harray : type.isArray = false) (hplace : Coded (.place id) code) :
      Coded (.value id) (code ++ [.ind type.cell])
  | addressOf {id operand : NodeId} {o : Ty} {code : Code}
      (his : Is layout root id (.unary .addressOf) (.pointerTo (o.element?.getD o)))
      (hchildren : layout.forest.children id = [operand])
      (ho : layout.forest.type? operand = some o) (hplace : Coded (.place operand) code) :
      Coded (.value id) code
  | subscript {id : NodeId} {type : Ty} {code : Code} (his : Is layout root id .subscript type)
      (harray : type.isArray = false) (hplace : Coded (.place id) code) :
      Coded (.value id) (code ++ [.ind type.cell])
  | conversion {id inner : NodeId} {change : Conversion} {code : Code}
      (his : Is layout root id (.conversion change) change.target)
      (hchildren : layout.forest.children id = [inner])
      (hinner : layout.forest.type? inner = some change.source)
      (hchange : change.source.conversion? change.target = some change.coercion)
      (hvalue : Coded (.value inner) code) :
      Coded (.value id) (code ++ (change.coercion.map fun tags => .conv tags.1 tags.2).toList)
  | named {id d : NodeId} {place : Place} {type : Ty}
      (hnames : Names layout root id d place type) :
      Coded (.place id) [.lda place.depth place.slot]
  | element {id base index : NodeId} {type b : Ty} {size : Option Nat} {baseCode indexCode : Code}
      (his : Is layout root id .subscript type)
      (hchildren : layout.forest.children id = [base, index])
      (hb : layout.forest.type? base = some b) (helements : Resolve.elements? b = some (type, size))
      (hi : layout.forest.HasType index .int)
      (hbase : Coded (.value base) baseCode) (hindex : Coded (.value index) indexCode) :
      Coded (.place id) (baseCode ++ indexCode ++ [.ixa type.slots])
  | pointee {id operand : NodeId} {type o : Ty} {code : Code}
      (his : Is layout root id (.unary .deref) type)
      (hchildren : layout.forest.children id = [operand])
      (ho : layout.forest.type? operand = some o) (hpointee : o.pointee? = some type)
      (hoperand : Coded (.value operand) code) : Coded (.place id) code
  | drop {id : NodeId} {type : Ty} {code : Code} (hbelow : layout.forest.Below id root)
      (htype : layout.forest.type? id = some type) (hvoid : type.isVoid = false)
      (hvalue : Coded (.value id) code) : Coded (.effect id) (code ++ [.str type.cell 0 0])
  | run {id : NodeId} {type : Ty} {code : Code} (hbelow : layout.forest.Below id root)
      (htype : layout.forest.type? id = some type) (hvoid : type.isVoid = true)
      (hvalue : Coded (.value id) code) : Coded (.effect id) code
  | nil : Coded (.arguments []) []
  | cons {id : NodeId} {others : List NodeId} {code rest : Code}
      (hvalue : Coded (.value id) code) (hothers : Coded (.arguments others) rest) :
      Coded (.arguments (id :: others)) (code ++ rest)

end Emit

end MiniC
