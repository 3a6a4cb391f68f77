import MiniC.Proofs.Tree.Casts
import MiniC.Proofs.Tree.Constant
import MiniC.Resolve.Program

/-!
# What is right about a resolved node

`Judged` is the rule for an expression of some type: its parts have the types that the operation
asks for, up to constness, and its name stands for a symbol that its code can reach. `Settled` is the
rule for a statement. Both look at the node and its children only, so they stay true of a node when
other parts of the program are resolved.
-/

namespace MiniC

namespace Ty

/-- At most the outermost part of the type is an array. -/
def Shallow : Ty → Prop
  | array element _ _ => element.Flat
  | type => type.Flat

theorem Flat.shallow {type : Ty} (h : type.Flat) : type.Shallow := by
  cases type with
  | base | pointer => exact h
  | array => exact h.elim

theorem Shallow.decay {type : Ty} (h : type.Shallow) : type.decay.Flat := by
  cases type <;> exact h

/-- A type that a variable can have. -/
structure OfVariable (type : Ty) : Prop where
  shallow : type.Shallow
  not_void : type.isVoid = false
  element_not_void : ∀ element, type.element? = some element → element.isVoid = false

end Ty

/-- The frames that code in a frame reaches over static links: its own, that of the function around
it, and so on up to that of the file. -/
inductive Forest.Chain (parsed : Forest) : Option NodeId → Option NodeId → Prop
  | refl (source : Option NodeId) : Chain parsed source source
  | outer {function : NodeId} {target : Option NodeId}
      (h : Chain parsed (parsed.owningFunction function) target) :
      Chain parsed (some function) target

namespace Symbol

/-- What is said about a symbol stays, but a function may have got a body. -/
structure Kept (symbol other : Symbol) : Prop where
  name_eq : other.name = symbol.name
  type_eq : other.type = symbol.type
  frame_eq : other.frame = symbol.frame
  kind : other.kind = symbol.kind ∨ ∃ signature, symbol.kind = .function signature ∧
    other.kind = .function { signature with defined := true }

variable {symbol other third : Symbol}

theorem Kept.refl : Kept symbol symbol := ⟨rfl, rfl, rfl, .inl rfl⟩

theorem Kept.trans (h : Kept symbol other) (h' : Kept other third) : Kept symbol third := by
  refine ⟨h'.name_eq.trans h.name_eq, h'.type_eq.trans h.type_eq, h'.frame_eq.trans h.frame_eq, ?_⟩
  rcases h.kind with hkind | ⟨signature, hold, hnew⟩
  · rw [← hkind]
    exact h'.kind
  · refine .inr ⟨signature, hold, ?_⟩
    rcases h'.kind with hkind | ⟨signature', hold', hnew'⟩
    · rw [hkind, hnew]
    · rw [hnew, SymbolKind.function.injEq] at hold'
      rw [hnew', ← hold']

theorem Kept.setDefined : Kept symbol (symbol.setDefined true) := by
  unfold Symbol.setDefined
  split
  · next signature hkind => exact ⟨rfl, rfl, rfl, .inr ⟨signature, hkind, rfl⟩⟩
  · exact .refl

theorem Kept.offset (offset : Option Nat) : Kept symbol { symbol with offset } :=
  ⟨rfl, rfl, rfl, .inl rfl⟩

end Symbol

namespace SymbolTable

/-- Only what is in the table is a function. -/
theorem lt_size_of_signature {table : SymbolTable} {id : SymbolId} {signature : Signature}
    (h : (table.symbol id).signature? = some signature) : id < table.size := by
  by_contra hid
  rw [symbol, Array.getElem?_eq_none (Nat.le_of_not_lt hid)] at h
  cases h

/-- A table with more symbols, in which what was said about the others stays. -/
structure Grew (table other : SymbolTable) : Prop where
  size_le : table.size ≤ other.size
  symbol : ∀ id, id < table.size → (table.symbol id).Kept (other.symbol id)

variable {table other third : SymbolTable} {id : SymbolId}

theorem Grew.refl : table.Grew table := ⟨Nat.le_refl _, fun _ _ => .refl⟩

/-- Scopes do not matter. -/
theorem Grew.of_symbols (h : other.symbols = table.symbols) : table.Grew other := by
  refine ⟨?_, fun id _ => ?_⟩
  · rw [size, size, h]
  · rw [show other.symbol id = table.symbol id by rw [SymbolTable.symbol, SymbolTable.symbol, h]]
    exact .refl

/-- Closing a scope that was opened in another one. -/
theorem scopes_leave {scopes : List Scope} (h : table.scopes ≠ [])
    (htail : table.scopes.tail = scopes) (hscopes : scopes ≠ []) :
    table.leave.scopes = scopes ∧ table.leave.symbols = table.symbols := by
  rw [leave]
  split
  · next heq => exact absurd heq h
  · next scope heq =>
    rw [heq] at htail
    exact absurd htail.symm hscopes
  · next scope others _ heq =>
    rw [heq] at htail
    exact ⟨htail, rfl⟩

theorem Grew.trans (h : table.Grew other) (h' : other.Grew third) : table.Grew third :=
  ⟨Nat.le_trans h.size_le h'.size_le, fun id hid =>
    (h.symbol id hid).trans (h'.symbol id (Nat.lt_of_lt_of_le hid h.size_le))⟩

section Fields

variable (h : table.Grew other) (hid : id < table.size)

include h hid

theorem Grew.name_eq : (other.symbol id).name = (table.symbol id).name := (h.symbol id hid).name_eq

theorem Grew.type_eq : (other.symbol id).type = (table.symbol id).type := (h.symbol id hid).type_eq

theorem Grew.frame_eq : (other.symbol id).frame = (table.symbol id).frame :=
  (h.symbol id hid).frame_eq

theorem Grew.variable_iff (d : NodeId) :
    (other.symbol id).kind = .variableAt d ↔ (table.symbol id).kind = .variableAt d := by
  rcases (h.symbol id hid).kind with heq | ⟨signature, hold, hnew⟩
  · rw [heq]
  · rw [hold, hnew]
    exact ⟨(by simp), (by simp)⟩

/-- A function keeps its signature, and stays defined. -/
theorem Grew.signature_eq {signature : Signature}
    (hs : (table.symbol id).signature? = some signature) :
    ∃ defined, (other.symbol id).signature? = some { signature with defined } ∧
      (signature.defined = true → defined = true) := by
  rcases (h.symbol id hid).kind with heq | ⟨signature', hold, hnew⟩
  · refine ⟨signature.defined, ?_, fun hdefined => hdefined⟩
    rw [← hs, Symbol.signature?, heq, Symbol.signature?]
  · rw [Symbol.signature?, hold, Option.some.injEq] at hs
    exact ⟨true, by rw [Symbol.signature?, hnew, hs], fun _ => rfl⟩

end Fields

end SymbolTable

namespace Forest

/-- An expression has a type, up to constness. -/
def HasType (forest : Forest) (id : NodeId) (type : Ty) : Prop :=
  ∃ found, forest.type? id = some found ∧ found.same type

theorem HasType.agrees {forest other : Forest} {id : NodeId} {type : Ty}
    (h : forest.HasType id type) (ha : Agrees forest other id) : other.HasType id type := by
  obtain ⟨found, hfound, hsame⟩ := h
  exact ⟨found, ha.type_eq.trans hfound, hsame⟩

end Forest

/-- A symbol that code in a frame can reach. -/
structure Reached (parsed : Forest) (table : SymbolTable) (function : Option NodeId)
    (symbol : SymbolId) : Prop where
  lt_size : symbol < table.size
  chain : parsed.Chain function (table.symbol symbol).frame

/-- Arguments fit the parameters, as far as there are some; the others are no arrays. -/
def ArgumentsFit (forest : Forest) : List Ty → List NodeId → Prop
  | _, [] => True
  | [], argument :: others =>
    (∃ type, forest.type? argument = some type ∧ type.isArray = false) ∧
      ArgumentsFit forest [] others
  | param :: params, argument :: others =>
    forest.HasType argument param ∧ ArgumentsFit forest params others

/-- The rule for an operator between two expressions of types `left` and `right`. -/
def BinaryRule (op : BinaryOp) (place : Bool) (left right type : Ty) : Prop :=
  match op with
  | .assign =>
    place = true ∧ left.isArray = false ∧ left.isConst = false ∧ right.same left ∧ type = left
  | .logic _ | .remainder => left.same .int ∧ right.same .int ∧ type = .int
  | .arith _ => left.same type ∧ right.same type ∧ type.isScalar
  | .compare _ => left.same right ∧ left.isScalar ∧ type = .int

/-- The rule for an operator on one expression of type `operand`. -/
def UnaryRule (op : UnaryOp) (place : Bool) (operand type : Ty) : Prop :=
  match op with
  | .negate => operand.isIntegral ∧ type = operand.withConst false
  | .not => operand.same .int ∧ type = .int
  | .deref => operand.pointee? = some type
  | .addressOf => place = true ∧ type = .pointerTo (operand.element?.getD operand)
  | .step .. => place = true ∧ operand.isScalar ∧ operand.isConst = false ∧ type = operand

/-- The rule for an expression, by its kind. -/
def ExpressionRule (parsed : Forest) (table : SymbolTable) (forest : Forest) (id : NodeId)
    (type : Ty) : Prop :=
  match forest.kind id with
  | .int _ => type = .int
  | .char _ => type = .char
  | .string .. => type = .pointerTo .char
  | .identifier _ symbol =>
    ∃ s d, symbol = some s ∧ Reached parsed table (forest.node id).function s ∧
      (table.symbol s).kind = .variableAt d ∧ type = (table.symbol s).type
  | .call _ symbol =>
    ∃ s signature, symbol = some s ∧ Reached parsed table (forest.node id).function s ∧
      (table.symbol s).signature? = some signature ∧ type = (table.symbol s).type ∧
      Resolve.fits signature (forest.children id).length ∧
      ArgumentsFit forest signature.params (forest.children id)
  | .binary op =>
    ∃ left right l r, forest.children id = [left, right] ∧ forest.type? left = some l ∧
      forest.type? right = some r ∧ BinaryRule op (forest.kind left).isPlace l r type
  | .unary op =>
    ∃ operand o, forest.children id = [operand] ∧ forest.type? operand = some o ∧
      UnaryRule op (forest.kind operand).isPlace o type
  | .subscript =>
    ∃ base index b size, forest.children id = [base, index] ∧ (forest.kind base).isIdentifier ∧
      forest.type? base = some b ∧ Resolve.elements? b = some (type, size) ∧
      forest.HasType index .int
  | .conversion change =>
    ∃ inner, forest.children id = [inner] ∧ forest.type? inner = some change.source ∧
      type = change.target ∧ change.source.same change.target = false ∧
      change.source.conversion? change.target = some change.coercion
  | _ => False

/-! ## Operands -/

/-- The types that an operator wants its operands to be brought to, if it accepts their types. -/
def BinaryOp.wanted? (op : BinaryOp) (left right : Ty) : Option (List Ty × List Ty) :=
  match op with
  | .assign => some ([], [left])
  | .logic _ => some ([.int], [.int])
  | .remainder => if left.isIntegral && right.isIntegral then some ([.int], [.int]) else none
  | .arith _ | .compare _ =>
    (left.common? right).map fun common => (left.stops common, right.stops common)

/-- The types that an operator on one expression wants it to be brought to. -/
def UnaryOp.wanted (op : UnaryOp) (operand : Ty) : List Ty :=
  match op with
  | .not => [.int]
  | .deref => [operand.decay]
  | .negate | .addressOf | .step .. => []

/-- The types that an argument is brought to: that of the parameter, if there is one. -/
def Ty.argumentWanted (argument : Ty) : Option Ty → List Ty
  | some param => [param]
  | none => if argument.isArray then [argument.decay] else []

/-- An index that is a constant lies in an array of a known size. -/
def IndexRule (forest : Forest) (size : Option Nat) (index : NodeId) : Prop :=
  ∀ n, size = some n → ∀ value, forest.Constant index value → 0 ≤ value ∧ value < n

/-- Arguments have been brought to the types that their parameters want. -/
def ArgumentsBrought (parsed forest : Forest) : List Ty → List NodeId → Prop
  | _, [] => True
  | params, argument :: others =>
    (∃ e top type,
        forest.Supplied parsed argument e top type (type.argumentWanted params.head?)) ∧
      ArgumentsBrought parsed forest params.tail others

/-- What stands in the slots of an expression, by its kind: operands whose casts have been carried out,
accepted as they are then, and brought to what the operation wants. -/
def OperandsRule (parsed : Forest) (table : SymbolTable) (forest : Forest) (id : NodeId) : Prop :=
  match forest.kind id with
  | .call _ symbol =>
    ∃ s signature, symbol = some s ∧ s < table.size ∧
      (table.symbol s).signature? = some signature ∧
      ArgumentsBrought parsed forest signature.params (forest.children id)
  | .binary op =>
    ∃ left right e e' top top' l r lw rw, forest.children id = [left, right] ∧
      op.wanted? l r = some (lw, rw) ∧ forest.Supplied parsed left e top l lw ∧
      forest.Supplied parsed right e' top' r rw
  | .unary op =>
    ∃ operand e top o, forest.children id = [operand] ∧
      forest.Supplied parsed operand e top o (op.wanted o)
  | .subscript =>
    ∃ base index e e' top top' b i element size, forest.children id = [base, index] ∧
      Resolve.elements? b = some (element, size) ∧ forest.Supplied parsed base e top b [] ∧
      i.isIntegral ∧ forest.Supplied parsed index e' top' i [.int] ∧ IndexRule forest size top'
  | _ => True

/-- What is right about an expression of some type. -/
structure Judged (parsed : Forest) (table : SymbolTable) (forest : Forest) (id : NodeId) (type : Ty) :
    Prop where
  shallow : type.Shallow
  typed : ∀ c ∈ forest.children id, forest.type? c ≠ none
  function : ∀ c ∈ forest.children id, (forest.node c).function = (forest.node id).function
  rule : ExpressionRule parsed table forest id type
  operands : OperandsRule parsed table forest id

theorem ArgumentsFit.agrees {forest other : Forest} {params : List Ty} {arguments : List NodeId}
    (h : ArgumentsFit forest params arguments) (ha : ∀ c ∈ arguments, Forest.Agrees forest other c) :
    ArgumentsFit other params arguments := by
  induction arguments generalizing params with
  | nil => simp [ArgumentsFit]
  | cons argument others ih =>
    have hargument := ha argument List.mem_cons_self
    have hothers := fun c hc => ha c (List.mem_cons_of_mem _ hc)
    cases params with
    | nil =>
      obtain ⟨⟨type, htype, harray⟩, hrest⟩ := h
      exact ⟨⟨type, hargument.type_eq.trans htype, harray⟩, ih hrest hothers⟩
    | cons param params => exact ⟨h.1.agrees hargument, ih h.2 hothers⟩

theorem Reached.grew {parsed : Forest} {table other : SymbolTable} {function : Option NodeId}
    {symbol : SymbolId} (h : Reached parsed table function symbol) (hg : table.Grew other) :
    Reached parsed other function symbol :=
  ⟨Nat.lt_of_lt_of_le h.lt_size hg.size_le, hg.frame_eq h.lt_size ▸ h.chain⟩

section Operands

variable {parsed parsed' forest other : Forest} {table table' : SymbolTable} {id : NodeId}

theorem ArgumentsBrought.imp {params : List Ty} {arguments : List NodeId}
    (h : ArgumentsBrought parsed forest params arguments)
    (hs : ∀ slot ∈ arguments, ∀ {e top type wanted},
      forest.Supplied parsed slot e top type wanted → other.Supplied parsed' slot e top type wanted) :
    ArgumentsBrought parsed' other params arguments := by
  induction arguments generalizing params with
  | nil => trivial
  | cons argument others ih =>
    obtain ⟨⟨e, top, type, hsupplied⟩, hrest⟩ := h
    exact ⟨⟨e, top, type, hs argument List.mem_cons_self hsupplied⟩,
      ih hrest fun slot hslot => hs slot (List.mem_cons_of_mem _ hslot)⟩

/-- The rule for operands holds wherever the same stands in the slots and nothing has become an integer
literal under minus signs. -/
theorem OperandsRule.imp (h : OperandsRule parsed table forest id)
    (hkind : other.kind id = forest.kind id) (hchildren : other.children id = forest.children id)
    (hs : ∀ slot ∈ forest.children id, ∀ {e top type wanted},
      forest.Supplied parsed slot e top type wanted → other.Supplied parsed' slot e top type wanted)
    (hsigned : ∀ slot ∈ forest.children id, ∀ m, forest.Below m slot → ∀ {signs value},
      other.Signed m signs value → forest.Signed m signs value)
    (hg : table.Grew table') : OperandsRule parsed' table' other id := by
  unfold OperandsRule at h ⊢
  rw [hkind]
  cases hk : forest.kind id <;> rw [hk] at h
  case call =>
    obtain ⟨s, signature, hsymbol, hlt, hsignature, harguments⟩ := h
    obtain ⟨defined, hsignature', -⟩ := hg.signature_eq hlt hsignature
    refine ⟨s, { signature with defined }, hsymbol, Nat.lt_of_lt_of_le hlt hg.size_le, hsignature', ?_⟩
    rw [hchildren]
    exact harguments.imp hs
  case binary =>
    obtain ⟨left, right, e, e', top, top', l, r, lw, rw, hparts, hwanted, hleft, hright⟩ := h
    exact ⟨left, right, e, e', top, top', l, r, lw, rw, hchildren.trans hparts, hwanted,
      hs left (by simp [hparts]) hleft, hs right (by simp [hparts]) hright⟩
  case unary =>
    obtain ⟨operand, e, top, o, hparts, hoperand⟩ := h
    exact ⟨operand, e, top, o, hchildren.trans hparts, hs operand (by simp [hparts]) hoperand⟩
  case subscript =>
    obtain ⟨base, index, e, e', top, top', b, i, element, size, hparts, helements, hbase, hintegral,
      hindex, hrange⟩ := h
    have hmem : index ∈ forest.children id := by simp [hparts]
    refine ⟨base, index, e, e', top, top', b, i, element, size, hchildren.trans hparts, helements,
      hs base (by simp [hparts]) hbase, hintegral, hs index hmem hindex, ?_⟩
    rintro n hn value ⟨signs, literal, h, hvalue⟩
    exact hrange n hn value ⟨signs, literal, hsigned index hmem top' hindex.top_below h, hvalue⟩
  all_goals trivial

/-- What stands in the slots does not depend on anything outside. -/
theorem OperandsRule.mono (h : OperandsRule parsed table forest id)
    (hkind : other.kind id = forest.kind id) (hchildren : other.children id = forest.children id)
    (ha : ∀ c ∈ forest.children id, ∀ m, forest.Below m c → Forest.Agrees forest other m)
    (hg : table.Grew table') : OperandsRule parsed table' other id := by
  refine h.imp hkind hchildren (fun slot hslot _ _ _ _ hs => ?_) (fun slot hslot m hm _ _ hsigned => ?_) hg
  · exact hs.mono fun m hm _ _ => ha slot hslot m hm
  · refine hsigned.mono fun m' hm' => ?_
    have hm'' := ha slot hslot m' (hm'.trans hm)
    exact ⟨hm''.kind_eq.symm, hm''.children_eq.symm⟩

end Operands

/-- The rule for an expression looks at the node and what is below it only, and not at the type that
the node has been given. -/
theorem Judged.mono {parsed forest other : Forest} {table table' : SymbolTable} {id : NodeId}
    {type : Ty} (h : Judged parsed table forest id type) (hkind : other.kind id = forest.kind id)
    (hchildren : other.children id = forest.children id)
    (hfunction : (other.node id).function = (forest.node id).function)
    (ha : ∀ c ∈ forest.children id, ∀ m, forest.Below m c → Forest.Agrees forest other m)
    (hg : table.Grew table') : Judged parsed table' other id type := by
  have hc : ∀ c ∈ forest.children id, Forest.Agrees forest other c := fun c hc => ha c hc c .refl
  refine ⟨h.shallow, ?_, ?_, ?_, h.operands.mono hkind hchildren ha hg⟩
  · intro c hmem
    rw [hchildren] at hmem
    rw [(hc c hmem).type_eq]
    exact h.typed c hmem
  · intro c hmem
    rw [hchildren] at hmem
    rw [(hc c hmem).function_eq, hfunction]
    exact h.function c hmem
  · have hrule := h.rule
    unfold ExpressionRule at hrule ⊢
    rw [hkind]
    cases hk : forest.kind id <;> rw [hk] at hrule
    case int | char | string => exact hrule
    case identifier =>
      obtain ⟨s, d, rfl, hreached, hvariable, htype⟩ := hrule
      have hlt := hreached.lt_size
      refine ⟨s, d, rfl, ?_, (hg.variable_iff hlt d).mpr hvariable, ?_⟩
      · rw [hfunction]
        exact hreached.grew hg
      · rw [hg.type_eq hlt, htype]
    case call =>
      obtain ⟨s, signature, rfl, hreached, hsignature, htype, hfits, harguments⟩ := hrule
      have hlt := hreached.lt_size
      obtain ⟨defined, hsignature', -⟩ := hg.signature_eq hlt hsignature
      refine ⟨s, { signature with defined }, rfl, ?_, hsignature', ?_, ?_, ?_⟩
      · rw [hfunction]
        exact hreached.grew hg
      · rw [hg.type_eq hlt, htype]
      · rw [hchildren]
        exact hfits
      · rw [hchildren]
        exact harguments.agrees hc
    case binary =>
      obtain ⟨left, right, l, r, hparts, hl, hr, hrule⟩ := hrule
      have hleft := hc left (by simp [hparts])
      have hright := hc right (by simp [hparts])
      exact ⟨left, right, l, r, hchildren.trans hparts, hleft.type_eq.trans hl,
        hright.type_eq.trans hr, hleft.kind_eq ▸ hrule⟩
    case unary =>
      obtain ⟨operand, o, hparts, ho, hrule⟩ := hrule
      have hoperand := hc operand (by simp [hparts])
      exact ⟨operand, o, hchildren.trans hparts, hoperand.type_eq.trans ho,
        hoperand.kind_eq ▸ hrule⟩
    case subscript =>
      obtain ⟨base, index, b, size, hparts, hidentifier, hb, helements, hindex⟩ := hrule
      have hbase := hc base (by simp [hparts])
      exact ⟨base, index, b, size, hchildren.trans hparts, hbase.kind_eq ▸ hidentifier,
        hbase.type_eq.trans hb, helements, hindex.agrees (hc index (by simp [hparts]))⟩
    case conversion =>
      obtain ⟨inner, hparts, hinner, hrest⟩ := hrule
      exact ⟨inner, hchildren.trans hparts,
        (hc inner (by simp [hparts])).type_eq.trans hinner, hrest⟩
    all_goals exact hrule.elim

/-! ## Statements -/

/-- The rule for the initializer of a variable of some type, in the frame of `function`. -/
def InitialRule (forest : Forest) (function : Option NodeId) (type : Ty) : List NodeId → Prop
  | [_, initial] =>
    if forest.role initial = .expression then type.isArray = false ∧ forest.HasType initial type
    else
      forest.type? initial ≠ none ∧ ∃ element size constant, type = .array element size constant ∧
        (forest.children initial).length ≤ size ∧
        ∀ item ∈ forest.children initial,
          forest.HasType item element ∧ (forest.node item).function = function
  | _ => True

/-- The rule for the parameters of a function with a body. -/
def ParametersRule (forest : Forest) (params : List Ty) : List NodeId → Prop
  | [_, list, _] =>
    (forest.node list).scope ≠ 0 ∧
      List.Forall₂ (fun param type => (∃ name s, forest.kind param = .parameter name (some s)) ∧
        forest.HasType param type) (forest.children list) params
  | _ => True

/-- The rule for a statement, by its kind. -/
def StatementRule (parsed : Forest) (table : SymbolTable) (forest : Forest) (id : NodeId) : Prop :=
  match forest.kind id with
  | .declaration _ symbol =>
    ∃ s type, symbol = some s ∧ forest.type? id = some type ∧
      InitialRule forest (forest.node id).function type (forest.children id)
  | .function _ symbol =>
    ∃ s signature result, symbol = some s ∧ s < table.size ∧
      (table.symbol s).signature? = some signature ∧ forest.type? id = some result ∧
      (table.symbol s).type.same result ∧
      ParametersRule forest signature.params (forest.children id)
  | .block | .exprStatement | .nothing => True
  | .ifElse labels =>
    labels ≠ none ∧ ∀ test, forest.child? id 0 = some test → forest.HasType test .int
  | .whileLoop labels =>
    labels ≠ none ∧ ∀ test, forest.child? id 0 = some test → forest.HasType test .int
  | .forLoop labels =>
    labels ≠ none ∧ ∀ test, forest.child? id 1 = some test → forest.role test = .expression →
      forest.HasType test .int
  | .giveBack =>
    ∃ f result, parsed.owningFunction id = some f ∧ forest.type? f = some result ∧
      (forest.children id = [] → result.isVoid) ∧
      ∀ value, forest.child? id 0 = some value →
        result.isVoid = false ∧ forest.HasType value result
  | .breakOut target =>
    ∃ loop label, parsed.enclosingLoop id = some loop ∧
      Resolve.jumpTarget? (forest.kind loop) true = some label ∧ target = some label
  | .continueOn target =>
    ∃ loop label, parsed.enclosingLoop id = some loop ∧
      Resolve.jumpTarget? (forest.kind loop) false = some label ∧ target = some label
  | _ => False

/-- What stands in the slots for the initializer of a variable of some type. -/
def InitialSlots (parsed forest : Forest) (type : Ty) : List NodeId → Prop
  | [_, initial] =>
    if forest.role initial = .expression then forest.Brought parsed initial [type]
    else
      forest.type? initial ≠ none ∧ ∃ element size constant, type = .array element size constant ∧
        ∀ item ∈ forest.children initial, forest.Brought parsed item [element]
  | _ => True

/-- What stands in the slots of a statement, by its kind: expressions whose casts have been carried out,
brought to what the statement wants. -/
def SlotsRule (parsed forest : Forest) (id : NodeId) : Prop :=
  match forest.kind id with
  | .declaration .. =>
    ∃ type, forest.type? id = some type ∧ InitialSlots parsed forest type (forest.children id)
  | .exprStatement => ∀ value, forest.child? id 0 = some value → forest.Brought parsed value []
  | .ifElse _ | .whileLoop _ => ∀ test, forest.child? id 0 = some test → forest.Brought parsed test [.int]
  | .forLoop _ =>
    ∀ test, forest.child? id 1 = some test → forest.role test = .expression →
      forest.Brought parsed test [.int]
  | .giveBack =>
    ∀ value, forest.child? id 0 = some value → ∃ f result, parsed.owningFunction id = some f ∧
      forest.type? f = some result ∧ forest.Brought parsed value [result.withConst false]
  | _ => True

/-- What is right about a statement. -/
structure Settled (parsed : Forest) (table : SymbolTable) (forest : Forest) (id : NodeId) : Prop where
  noted : (forest.node id).scope ≠ 0
  function : (forest.node id).function = parsed.owningFunction id
  parts : ∀ c ∈ forest.children id, forest.role c = .expression →
    forest.type? c ≠ none ∧ (forest.node c).function = (forest.node id).function
  rule : StatementRule parsed table forest id
  slots : SlotsRule parsed forest id

namespace Forest

/-- A typed node is not fresh. -/
theorem not_fresh_of_type {forest : Forest} {m : NodeId} (h : forest.type? m ≠ none) :
    ¬(forest.node m).Fresh := fun hfresh => h hfresh.type

/-- What has been found out about nodes stays as it is, only `p` may have got other children, and all
nodes keep their roles. -/
structure Keeps (forest other : Forest) (p : NodeId) : Prop where
  agrees : ∀ m, ¬(forest.node m).Fresh → m ≠ p → Agrees forest other m
  outer : other.node p = { forest.node p with children := other.children p }
  role : ∀ m : Nat, m < forest.size → other.role m = forest.role m

namespace Keeps

variable {parsed forest other : Forest} {c m p top : NodeId}

theorem kind_eq (h : Keeps forest other p) (hm : ¬(forest.node m).Fresh) :
    other.kind m = forest.kind m := by
  by_cases hp : m = p
  · rw [hp, kind, h.outer]
    rfl
  · exact (h.agrees m hm hp).kind_eq

theorem type_eq (h : Keeps forest other p) (hm : forest.type? m ≠ none) :
    other.type? m = forest.type? m := by
  by_cases hp : m = p
  · rw [hp, type?, h.outer]
    rfl
  · exact (h.agrees m (fun hfresh => hm hfresh.type) hp).type_eq

theorem function_eq (h : Keeps forest other p) (hm : ¬(forest.node m).Fresh) :
    (other.node m).function = (forest.node m).function := by
  by_cases hp : m = p
  · rw [hp, h.outer]
  · exact (h.agrees m hm hp).function_eq

theorem hasType (h : Keeps forest other p) {type : Ty} (ht : forest.HasType m type) :
    other.HasType m type := by
  obtain ⟨found, hfound, hsame⟩ := ht
  exact ⟨found, (h.type_eq (by simp [hfound])).trans hfound, hsame⟩

/-- A step on a part that is still as it was parsed keeps what has been found out elsewhere. -/
theorem of_inside (hraw : parsed.Raw) (hg : Grown parsed forest) (hg' : Grown parsed other)
    (hc : Ready parsed forest c) (h : Inside parsed forest other c) (hlt : c < parsed.size)
    (hp : p < forest.size) (hpc : ¬parsed.Below p c) : Keeps forest other p := by
  refine ⟨?_, ?_, ?_⟩
  · intro m hm _
    have hsize : m < forest.size := by
      by_contra hsize
      exact hm (node_of_size_le (Nat.le_of_not_lt hsize) ▸ Node.fresh_default)
    refine .of_node (h.outside m hsize fun hbelow => hm ?_)
    rw [hc.below m hbelow]
    exact hraw.fresh m
  · rw [children, h.outside p hp hpc]
  · intro m hm
    by_cases hbelow : parsed.Below m c
    · have hmlt := hbelow.lt_size hraw.linked hlt
      rw [hg'.role_eq hmlt, hg.role_eq hmlt]
    · rw [Forest.role, kind, h.outside m hm hbelow]
      rfl

/-- Replacing a part that is still as it was parsed keeps what has been found out elsewhere. -/
theorem of_replaced (hraw : parsed.Raw) (hg : Grown parsed forest) (hg' : Grown parsed other)
    (hc : Ready parsed forest c) (h : Replaced parsed forest other c p top)
    (hlt : c < parsed.size) : Keeps forest other p := by
  refine ⟨?_, ?_, ?_⟩
  · intro m hm hmp
    have hsize : m < forest.size := by
      by_contra hsize
      exact hm (node_of_size_le (Nat.le_of_not_lt hsize) ▸ Node.fresh_default)
    refine .of_node (h.outside m hsize (fun hbelow => hm ?_) hmp)
    rw [hc.below m hbelow]
    exact hraw.fresh m
  · rw [children, h.outer]
  · intro m hm
    by_cases hbelow : parsed.Below m c
    · have hmlt := hbelow.lt_size hraw.linked hlt
      rw [hg'.role_eq hmlt, hg.role_eq hmlt]
    · by_cases hmp : m = p
      · rw [hmp, Forest.role, kind, h.outer]
        rfl
      · rw [Forest.role, kind, h.outside m hm hbelow hmp]
        rfl

/-- What is known of typed expressions stays, unless `p` is one. -/
theorem retains (h : Keeps forest other p)
    (hp : forest.role p = .expression → forest.type? p = none) : Retains forest other := by
  intro m hrole htype
  refine h.agrees m (not_fresh_of_type htype) ?_
  rintro rfl
  exact htype (hp hrole)

end Keeps

end Forest

/-- The rule for an initializer looks at what is typed only. -/
theorem InitialRule.mono {forest other : Forest} {function : Option NodeId} {type : Ty}
    {children : List NodeId} (h : InitialRule forest function type children)
    (hrole : ∀ c ∈ children, other.role c = forest.role c)
    (hchildren : ∀ c ∈ children, forest.type? c ≠ none → other.children c = forest.children c)
    (htype : ∀ m, forest.type? m ≠ none → other.type? m = forest.type? m)
    (hfunction : ∀ m, forest.type? m ≠ none →
      (other.node m).function = (forest.node m).function) :
    InitialRule other function type children := by
  have hhas : ∀ {m type}, forest.HasType m type →
      other.HasType m type ∧ (other.node m).function = (forest.node m).function := by
    rintro m type ⟨found, hfound, hsame⟩
    have hm : forest.type? m ≠ none := by simp [hfound]
    exact ⟨⟨found, (htype m hm).trans hfound, hsame⟩, hfunction m hm⟩
  unfold InitialRule at h ⊢
  split
  · next written initial =>
    rw [hrole initial (by simp)]
    by_cases hinitial : forest.role initial = .expression
    · simp only [if_pos hinitial] at h ⊢
      exact ⟨h.1, (hhas h.2).1⟩
    · simp only [if_neg hinitial] at h ⊢
      obtain ⟨htyped, element, size, constant, rfl, hlength, hitems⟩ := h
      rw [htype initial htyped, hchildren initial (by simp) htyped]
      refine ⟨htyped, element, size, constant, rfl, hlength, fun item hitem => ?_⟩
      obtain ⟨hitem, howner⟩ := hitems item hitem
      exact ⟨(hhas hitem).1, (hhas hitem).2.trans howner⟩
  · trivial

theorem InitialRule.keeps {forest other : Forest} {function : Option NodeId} {type : Ty}
    {children : List NodeId} {p : NodeId} (h : InitialRule forest function type children)
    (hk : forest.Keeps other p) (hlt : ∀ c : Nat, c ∈ children → c < forest.size)
    (hp : p ∉ children) : InitialRule other function type children := by
  refine h.mono (fun c hc => hk.role c (hlt c hc)) (fun c hc htyped => ?_)
    (fun m => hk.type_eq) fun m htyped => hk.function_eq (Forest.not_fresh_of_type htyped)
  exact (hk.agrees c (Forest.not_fresh_of_type htyped) fun he => hp (he ▸ hc)).children_eq

theorem ParametersRule.keeps {forest other : Forest} {params : List Ty} {children : List NodeId}
    {p : NodeId} (h : ParametersRule forest params children) (hk : forest.Keeps other p)
    (hp : p ∉ children) : ParametersRule other params children := by
  unfold ParametersRule at h ⊢
  split
  · next written list body =>
    obtain ⟨hnoted, hparams⟩ := h
    have hne : list ≠ p := fun he => hp (by simp [he])
    have ha := hk.agrees list (fun hfresh => hnoted hfresh.scope) hne
    rw [ha.scope_eq, ha.children_eq]
    refine ⟨hnoted, hparams.imp fun param type ⟨hbound, htype⟩ => ⟨?_, hk.hasType htype⟩⟩
    obtain ⟨name, s, hkind⟩ := hbound
    have hfresh : ¬(forest.node param).Fresh := by
      intro hfresh
      have hkindFresh := hfresh.kind
      rw [Forest.kind] at hkind
      rw [hkind] at hkindFresh
      cases hkindFresh
    exact ⟨name, s, (hk.kind_eq hfresh).trans hkind⟩
  · trivial

section Slots

variable {parsed parsed' forest other : Forest} {id p : NodeId} {type : Ty}

theorem InitialSlots.imp {children : List NodeId} (h : InitialSlots parsed forest type children)
    (hrole : ∀ c ∈ children, other.role c = forest.role c)
    (hlist : ∀ c ∈ children, forest.type? c ≠ none →
      other.children c = forest.children c ∧ other.type? c = forest.type? c)
    (hs : ∀ {slot wanted}, forest.Brought parsed slot wanted → other.Brought parsed' slot wanted) :
    InitialSlots parsed' other type children := by
  unfold InitialSlots at h ⊢
  split
  · next written initial =>
    rw [hrole initial (by simp)]
    by_cases hinitial : forest.role initial = .expression
    · simp only [if_pos hinitial] at h ⊢
      exact hs h
    · simp only [if_neg hinitial] at h ⊢
      obtain ⟨htyped, element, size, constant, rfl, hitems⟩ := h
      obtain ⟨hchildren, htype⟩ := hlist initial (by simp) htyped
      rw [hchildren, htype]
      exact ⟨htyped, element, size, constant, rfl, fun item hitem => hs (hitems item hitem)⟩
  · trivial

/-- The rule for the slots of a statement holds wherever the same stands in them. -/
theorem SlotsRule.imp (h : SlotsRule parsed forest id) (hkind : other.kind id = forest.kind id)
    (hchildren : other.children id = forest.children id)
    (htype : ∀ {m}, forest.type? m ≠ none → other.type? m = forest.type? m)
    (hrole : ∀ c ∈ forest.children id, other.role c = forest.role c)
    (hlist : ∀ c ∈ forest.children id, forest.type? c ≠ none →
      other.children c = forest.children c ∧ other.type? c = forest.type? c)
    (howner : parsed'.owningFunction id = parsed.owningFunction id)
    (hs : ∀ {slot wanted}, forest.Brought parsed slot wanted → other.Brought parsed' slot wanted) :
    SlotsRule parsed' other id := by
  have hchild : ∀ slot, other.child? id slot = forest.child? id slot := by
    intro slot
    rw [Forest.child?, hchildren, Forest.child?]
  unfold SlotsRule at h ⊢
  rw [hkind]
  split at h
  · obtain ⟨type, hfound, hinitial⟩ := h
    refine ⟨type, (htype (by simp [hfound])).trans hfound, ?_⟩
    rw [hchildren]
    exact hinitial.imp hrole hlist hs
  · exact fun value hvalue => hs (h value (hchild 0 ▸ hvalue))
  · exact fun test htest => hs (h test (hchild 0 ▸ htest))
  · exact fun test htest => hs (h test (hchild 0 ▸ htest))
  · intro test htest hexpression
    rw [hchild] at htest
    rw [hrole test (List.mem_of_getElem? htest)] at hexpression
    exact hs (h test htest hexpression)
  · intro value hvalue
    obtain ⟨f, result, hf, hresult, hbrought⟩ := h value (hchild 0 ▸ hvalue)
    exact ⟨f, result, howner.trans hf, (htype (by simp [hresult])).trans hresult, hs hbrought⟩
  · trivial

/-- What stands in the slots of a statement stays there when parts of a node that it does not look at
are resolved. -/
theorem SlotsRule.keeps (h : SlotsRule parsed forest id) (hk : forest.Keeps other p)
    (hl : forest.Linked) (ha : forest.Agrees other id) (hp : p ∉ forest.children id)
    (hrole : forest.role p ≠ .expression) : SlotsRule parsed other id := by
  have hr : forest.Retains other := hk.retains fun he => absurd he hrole
  refine h.imp ha.kind_eq ha.children_eq (fun htyped => hk.type_eq htyped)
    (fun c hc => hk.role c (hl.lt_size hc)) (fun c hc htyped => ?_) rfl
    fun hs => hs.mono fun m _ => hr m
  have hc' := hk.agrees c (Forest.not_fresh_of_type htyped) fun he => hp (he ▸ hc)
  exact ⟨hc'.children_eq, hc'.type_eq⟩

end Slots

/-- A loop whose jumps lead somewhere is not fresh. -/
theorem Forest.not_fresh_of_jumpTarget? {forest : Forest} {loop : NodeId} {leaving : Bool}
    {label : Machine.Label} (h : Resolve.jumpTarget? (forest.kind loop) leaving = some label) :
    ¬(forest.node loop).Fresh := by
  intro hfresh
  have hkind := hfresh.kind
  unfold Resolve.jumpTarget? Forest.kind at h
  split at h <;> simp_all [Kind.Fresh]

/-- The rule for a statement stays true when parts of a node that is not among those it looks at are
resolved. -/
theorem Settled.keeps {parsed forest other : Forest} {table table' : SymbolTable} {id p : NodeId}
    (h : Settled parsed table forest id) (hk : forest.Keeps other p) (hl : forest.Linked)
    (hid : id ≠ p) (hp : p ∉ forest.children id) (hrole : forest.role p ≠ .expression)
    (hg : table.Grew table') : Settled parsed table' other id := by
  have ha := hk.agrees id (fun hfresh => h.noted hfresh.scope) hid
  have hlt : ∀ c : Nat, c ∈ forest.children id → c < forest.size := fun c hc => hl.lt_size hc
  refine ⟨ha.scope_eq ▸ h.noted, ha.function_eq ▸ h.function, ?_, ?_, h.slots.keeps hk hl ha hp hrole⟩
  · intro c hc hrole
    rw [ha.children_eq] at hc
    rw [hk.role c (hlt c hc)] at hrole
    obtain ⟨htyped, hfunction⟩ := h.parts c hc hrole
    refine ⟨hk.type_eq htyped ▸ htyped, ?_⟩
    rw [hk.function_eq (Forest.not_fresh_of_type htyped), ha.function_eq, hfunction]
  · have hrule := h.rule
    unfold StatementRule at hrule ⊢
    rw [ha.kind_eq]
    split at hrule
    · obtain ⟨s, type, rfl, htype, hinitial⟩ := hrule
      refine ⟨s, type, rfl, ha.type_eq.trans htype, ?_⟩
      rw [ha.function_eq, ha.children_eq]
      exact hinitial.keeps hk hlt hp
    · obtain ⟨s, signature, result, rfl, hs, hsignature, htype, hsame, hparams⟩ := hrule
      obtain ⟨defined, hsignature', -⟩ := hg.signature_eq hs hsignature
      refine ⟨s, { signature with defined }, result, rfl, Nat.lt_of_lt_of_le hs hg.size_le,
        hsignature', ha.type_eq.trans htype, ?_, ?_⟩
      · rwa [hg.type_eq hs]
      · rw [ha.children_eq]
        exact hparams.keeps hk hp
    · trivial
    · trivial
    · trivial
    · refine ⟨hrule.1, fun test htest => hk.hasType (hrule.2 test ?_)⟩
      rwa [Forest.child?, ha.children_eq] at htest
    · refine ⟨hrule.1, fun test htest => hk.hasType (hrule.2 test ?_)⟩
      rwa [Forest.child?, ha.children_eq] at htest
    · refine ⟨hrule.1, fun test htest hrole => ?_⟩
      rw [Forest.child?, ha.children_eq] at htest
      rw [hk.role test (hlt test (List.mem_of_getElem? htest))] at hrole
      exact hk.hasType (hrule.2 test htest hrole)
    · obtain ⟨f, result, howner, hresult, hnone, hvalue⟩ := hrule
      refine ⟨f, result, howner, (hk.type_eq (by simp [hresult])).trans hresult, ?_, ?_⟩
      · rwa [ha.children_eq]
      · intro value hchild
        rw [Forest.child?, ha.children_eq] at hchild
        obtain ⟨hvoid, htype⟩ := hvalue value hchild
        exact ⟨hvoid, hk.hasType htype⟩
    · obtain ⟨loop, label, hloop, htarget, rfl⟩ := hrule
      refine ⟨loop, label, hloop, ?_, rfl⟩
      rwa [hk.kind_eq (Forest.not_fresh_of_jumpTarget? htarget)]
    · obtain ⟨loop, label, hloop, htarget, rfl⟩ := hrule
      refine ⟨loop, label, hloop, ?_, rfl⟩
      rwa [hk.kind_eq (Forest.not_fresh_of_jumpTarget? htarget)]
    · exact hrule.elim

end MiniC
