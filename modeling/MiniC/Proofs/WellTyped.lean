import MiniC.Proofs.Compile

/-!
# Resolved programs are well typed

`WellTypedExpression` and `WellTypedStatement` are the typing rules of the language, one for each form,
as they can be checked on a node and its children. A program that has been resolved keeps them at every
node below its root, whatever casts and conversions have been put in. Constness does not count where
`HasType` compares types.
-/

namespace MiniC

open Forest

variable {root e target : NodeId} {forest : Forest} {table : SymbolTable} {type : Ty} {drawn : Nat}

/-- A place that is written to: a name, an element or what a pointer points at, of a type that is
neither an array nor constant. -/
structure Forest.Writable (forest : Forest) (target : NodeId) (type : Ty) : Prop where
  place : (∃ name symbol, forest.kind target = .identifier name symbol) ∨
    forest.kind target = .subscript ∨ forest.kind target = .unary .deref
  type_eq : forest.type? target = some type
  not_array : type.isArray = false
  not_const : type.isConst = false

/-- The typing rules of expressions. -/
structure WellTypedExpression (forest : Forest) (table : SymbolTable) (e : NodeId) (type : Ty) :
    Prop where
  int : ∀ value, forest.kind e = .int value → type = .int
  char : ∀ value, forest.kind e = .char value → type = .char
  string : ∀ value pool, forest.kind e = .string value pool → type = .pointerTo .char
  identifier : ∀ name symbol, forest.kind e = .identifier name symbol →
    ∃ s, symbol = some s ∧ (table.symbol s).isFunction = false ∧ type = (table.symbol s).type
  call : ∀ name symbol, forest.kind e = .call name symbol →
    ∃ s signature, symbol = some s ∧ (table.symbol s).signature? = some signature ∧
      type = (table.symbol s).type ∧ Resolve.fits signature (forest.children e).length ∧
      (∀ (i : Nat) argument param, (forest.children e)[i]? = some argument →
        signature.params[i]? = some param → forest.HasType argument param) ∧
      ∀ argument ∈ forest.children e, ∃ given, forest.type? argument = some given ∧
        given.isArray = false
  assign : forest.kind e = .binary .assign →
    ∃ target value, forest.children e = [target, value] ∧ forest.Writable target type ∧
      forest.HasType value type
  arith : ∀ op, forest.kind e = .binary (.arith op) →
    ∃ left right, forest.children e = [left, right] ∧ forest.HasType left type ∧
      forest.HasType right type
  compare : ∀ op, forest.kind e = .binary (.compare op) →
    ∃ left right operand, forest.children e = [left, right] ∧ forest.HasType left operand ∧
      forest.HasType right operand ∧ operand.isScalar ∧ type = .int
  logic : ∀ op, op = .remainder ∨ (∃ connective, op = .logic connective) →
    forest.kind e = .binary op →
    ∃ left right, forest.children e = [left, right] ∧ forest.HasType left .int ∧
      forest.HasType right .int ∧ type = .int
  negate : forest.kind e = .unary .negate →
    ∃ operand, forest.children e = [operand] ∧ forest.HasType operand type ∧ type.isIntegral
  not : forest.kind e = .unary .not →
    ∃ operand, forest.children e = [operand] ∧ forest.HasType operand .int ∧ type = .int
  deref : forest.kind e = .unary .deref →
    ∃ operand constant, forest.children e = [operand] ∧
      forest.type? operand = some (.pointer type constant)
  addressOf : forest.kind e = .unary .addressOf →
    ∃ operand given, forest.children e = [operand] ∧ (forest.kind operand).isPlace ∧
      forest.type? operand = some given ∧ type = .pointerTo (given.element?.getD given)
  step : ∀ position direction, forest.kind e = .unary (.step position direction) →
    ∃ target, forest.children e = [target] ∧ forest.Writable target type ∧ type.isScalar
  subscript : forest.kind e = .subscript →
    ∃ base index name symbol constant, forest.children e = [base, index] ∧
      forest.kind base = .identifier name symbol ∧
      ((∃ size, forest.type? base = some (.array type size constant)) ∨
        forest.type? base = some (.pointer type constant)) ∧
      forest.HasType index .int
  conversion : ∀ change, forest.kind e = .conversion change →
    ∃ inner, forest.children e = [inner] ∧ forest.type? inner = some change.source ∧
      type = change.target ∧ change.source.conversion? change.target = some change.coercion

/-- The typing rules of statements. -/
structure WellTypedStatement (forest : Forest) (m : NodeId) : Prop where
  initial : ∀ name symbol initial, forest.kind m = .declaration name symbol →
    forest.child? m 1 = some initial → forest.role initial = .expression →
    ∃ type, forest.type? m = some type ∧ forest.HasType initial type
  items : ∀ name symbol list, forest.kind m = .declaration name symbol →
    forest.child? m 1 = some list → forest.kind list = .initializers →
    ∃ element size constant, forest.type? m = some (.array element size constant) ∧
      (forest.children list).length ≤ size ∧
      ∀ item ∈ forest.children list, forest.HasType item element
  condition : ∀ slot test, forest.child? m slot = some test → forest.role test = .expression →
    (∃ labels, slot = 0 ∧ forest.kind m = .ifElse labels) ∨
      (∃ labels, slot = 0 ∧ forest.kind m = .whileLoop labels) ∨
      (∃ labels, slot = 1 ∧ forest.kind m = .forLoop labels) → forest.HasType test .int
  result : forest.kind m = .giveBack →
    ∃ f type, forest.owningFunction m = some f ∧ forest.type? f = some type ∧
      (forest.children m = [] → type.isVoid) ∧
      ∀ value, forest.child? m 0 = some value → type.isVoid = false ∧ forest.HasType value type

/-- Every expression of a program has a type, and all of the program keeps the typing rules. -/
structure WellTyped (root : NodeId) (forest : Forest) (table : SymbolTable) : Prop where
  expression : ∀ e, forest.Below e root → forest.role e = .expression →
    ∃ type, forest.type? e = some type ∧ WellTypedExpression forest table e type
  statement : ∀ m, forest.Below m root → (forest.role m).IsStatement → WellTypedStatement forest m

theorem Kind.isPlace_iff {kind : Kind} :
    kind.isPlace ↔ (∃ name symbol, kind = .identifier name symbol) ∨ kind = .subscript ∨
      kind = .unary .deref := by
  cases kind with
  | unary op => cases op <;> simp [isPlace]
  | _ => simp [isPlace]

/-- The second part of a declaration is its last. -/
theorem exists_declared {name : String} {symbol : Option SymbolId} {d initial : NodeId}
    (hholds : (Kind.declaration name symbol).Holds (forest.roles d))
    (hinitial : forest.child? d 1 = some initial) :
    ∃ written, forest.children d = [written, initial] := by
  obtain ⟨role, -, hroles⟩ := hholds
  rcases hroles with hroles | hroles | hroles
  · rw [child?_eq_none (by rw [hroles]; rfl)] at hinitial
    cases hinitial
  all_goals
    obtain ⟨written, other, hchildren, -⟩ := exists_pair hroles
    obtain rfl : other = initial := by simpa [child?, hchildren] using hinitial
    exact ⟨written, hchildren⟩

namespace ArgumentsFit

variable {params : List Ty} {arguments : List NodeId}

/-- Every argument that there is a parameter for has its type. -/
theorem hasType (h : ArgumentsFit forest params arguments) {i : Nat} {argument : NodeId} {param : Ty}
    (hargument : arguments[i]? = some argument) (hparam : params[i]? = some param) :
    forest.HasType argument param := by
  induction arguments generalizing params i with
  | nil => simp at hargument
  | cons first others ih =>
    cases params with
    | nil => simp at hparam
    | cons wanted params =>
      cases i with
      | zero =>
        obtain rfl : first = argument := by simpa using hargument
        obtain rfl : wanted = param := by simpa using hparam
        exact h.1
      | succ i => exact ih h.2 (by simpa using hargument) (by simpa using hparam)

/-- No argument is an array if no parameter is one. -/
theorem not_array (h : ArgumentsFit forest params arguments)
    (hparams : ∀ param ∈ params, param.Flat) :
    ∀ argument ∈ arguments, ∃ given, forest.type? argument = some given ∧ given.isArray = false := by
  induction arguments generalizing params with
  | nil => simp
  | cons first others ih =>
    cases params with
    | nil => exact List.forall_mem_cons.mpr ⟨h.1, ih h.2 (by simp)⟩
    | cons wanted params =>
      obtain ⟨hwanted, hparams⟩ := List.forall_mem_cons.mp hparams
      refine List.forall_mem_cons.mpr ⟨?_, ih h.2 hparams⟩
      obtain ⟨given, hgiven, hsame⟩ := h.1
      exact ⟨given, hgiven, Ty.isArray_eq_of_same hsame ▸ hwanted.not_array⟩

end ArgumentsFit

namespace Sound

variable (h : Sound root forest table drawn)

include h

/-- An expression that has been judged keeps the typing rules. -/
theorem wellTypedExpression (hrule : ExpressionRule forest table forest e type) :
    WellTypedExpression forest table e type := by
  unfold ExpressionRule at hrule
  constructor
  case int | char =>
    intro value hk
    simpa only [hk] using hrule
  case string =>
    intro value pool hk
    simpa only [hk] using hrule
  case identifier =>
    intro name symbol hk
    simp only [hk] at hrule
    obtain ⟨s, d, rfl, -, hd, rfl⟩ := hrule
    exact ⟨s, rfl, Resolve.isFunction_eq_false_iff.mpr ⟨d, hd⟩, rfl⟩
  case call =>
    intro name symbol hk
    simp only [hk] at hrule
    obtain ⟨s, signature, rfl, hreached, hs, rfl, hfits, harguments⟩ := hrule
    have hparams := (h.declared.function s hreached.lt_size signature hs).params
    exact ⟨s, signature, rfl, hs, rfl, hfits, fun i argument param => harguments.hasType,
      harguments.not_array fun param hparam => (hparams param hparam).1⟩
  case assign =>
    intro hk
    simp only [hk, BinaryRule] at hrule
    obtain ⟨left, right, l, r, hchildren, hl, hr, hplace, harray, hconst, hsame, rfl⟩ := hrule
    exact ⟨left, right, hchildren, ⟨Kind.isPlace_iff.mp hplace, hl, harray, hconst⟩, r, hr, hsame⟩
  case arith =>
    intro op hk
    simp only [hk, BinaryRule] at hrule
    obtain ⟨left, right, l, r, hchildren, hl, hr, hlsame, hrsame, -⟩ := hrule
    exact ⟨left, right, hchildren, ⟨l, hl, hlsame⟩, r, hr, hrsame⟩
  case compare =>
    intro op hk
    simp only [hk, BinaryRule] at hrule
    obtain ⟨left, right, l, r, hchildren, hl, hr, hsame, hscalar, rfl⟩ := hrule
    exact ⟨left, right, l, hchildren, ⟨l, hl, Ty.same_refl l⟩, ⟨r, hr, Ty.same_comm l r ▸ hsame⟩,
      hscalar, rfl⟩
  case logic =>
    intro op hop hk
    have hboth : ∃ left right l r, forest.children e = [left, right] ∧ forest.type? left = some l ∧
        forest.type? right = some r ∧ l.same .int ∧ r.same .int ∧ type = .int := by
      rcases hop with rfl | ⟨connective, rfl⟩ <;> simpa only [hk, BinaryRule] using hrule
    obtain ⟨left, right, l, r, hchildren, hl, hr, hlsame, hrsame, rfl⟩ := hboth
    exact ⟨left, right, hchildren, ⟨l, hl, hlsame⟩, ⟨r, hr, hrsame⟩, rfl⟩
  case negate =>
    intro hk
    simp only [hk, UnaryRule] at hrule
    obtain ⟨operand, o, hchildren, ho, hintegral, rfl⟩ := hrule
    have hsame := Ty.withConst_same o false
    refine ⟨operand, hchildren, ⟨o, ho, Ty.same_comm _ _ ▸ hsame⟩, ?_⟩
    rw [Ty.isIntegral, Ty.kind_eq_of_same hsame]
    exact hintegral
  case not =>
    intro hk
    simp only [hk, UnaryRule] at hrule
    obtain ⟨operand, o, hchildren, ho, hsame, rfl⟩ := hrule
    exact ⟨operand, hchildren, ⟨o, ho, hsame⟩, rfl⟩
  case deref =>
    intro hk
    simp only [hk, UnaryRule] at hrule
    obtain ⟨operand, o, hchildren, ho, hpointee⟩ := hrule
    cases o with
    | pointer target constant =>
      obtain rfl := Option.some.inj hpointee
      exact ⟨operand, constant, hchildren, ho⟩
    | base | array => cases hpointee
  case addressOf =>
    intro hk
    simp only [hk, UnaryRule] at hrule
    obtain ⟨operand, o, hchildren, ho, hplace, rfl⟩ := hrule
    exact ⟨operand, o, hchildren, hplace, ho, rfl⟩
  case step =>
    intro position direction hk
    simp only [hk, UnaryRule] at hrule
    obtain ⟨operand, o, hchildren, ho, hplace, hscalar, hconst, rfl⟩ := hrule
    exact ⟨operand, hchildren, ⟨Kind.isPlace_iff.mp hplace, ho, Ty.not_array_of_isScalar hscalar,
      hconst⟩, hscalar⟩
  case subscript =>
    intro hk
    simp only [hk] at hrule
    obtain ⟨base, index, b, size, hchildren, hname, hb, helements, hindex⟩ := hrule
    obtain ⟨name, symbol, hbase⟩ : ∃ name symbol, forest.kind base = .identifier name symbol := by
      cases hkb : forest.kind base <;> simp_all [Kind.isIdentifier]
    cases b with
    | array element count constant =>
      obtain ⟨rfl, -⟩ := Prod.mk.inj (Option.some.inj helements)
      exact ⟨base, index, name, symbol, constant, hchildren, hbase, .inl ⟨count, hb⟩, hindex⟩
    | pointer target constant =>
      obtain ⟨rfl, -⟩ := Prod.mk.inj (Option.some.inj helements)
      exact ⟨base, index, name, symbol, constant, hchildren, hbase, .inr hb, hindex⟩
    | base => cases helements
  case conversion =>
    intro change hk
    simp only [hk] at hrule
    obtain ⟨inner, hchildren, hinner, rfl, -, hconversion⟩ := hrule
    exact ⟨inner, hchildren, hinner, rfl, hconversion⟩

omit h in
/-- A statement that has been settled keeps the typing rules. -/
theorem wellTypedStatement {m : NodeId} (hsettled : Settled forest table forest m)
    (hholds : (forest.kind m).Holds (forest.roles m)) : WellTypedStatement forest m := by
  have hrule := hsettled.rule
  unfold StatementRule at hrule
  constructor
  case initial =>
    intro name symbol initial hk hinitial hrole
    simp only [hk] at hrule
    obtain ⟨s, type, rfl, htype, hrule⟩ := hrule
    rw [hk] at hholds
    obtain ⟨written, hchildren⟩ := exists_declared hholds hinitial
    rw [hchildren, InitialRule, if_pos hrole] at hrule
    exact ⟨type, htype, hrule.2⟩
  case items =>
    intro name symbol list hk hlist hkind
    simp only [hk] at hrule
    obtain ⟨s, type, rfl, htype, hrule⟩ := hrule
    rw [hk] at hholds
    obtain ⟨written, hchildren⟩ := exists_declared hholds hlist
    rw [hchildren, InitialRule, if_neg (by simp [role, hkind, Kind.role])] at hrule
    obtain ⟨-, element, size, constant, rfl, hlength, hitems⟩ := hrule
    exact ⟨element, size, constant, htype, hlength, fun item hitem => (hitems item hitem).1⟩
  case condition =>
    rintro slot test htest hrole (⟨labels, rfl, hk⟩ | ⟨labels, rfl, hk⟩ | ⟨labels, rfl, hk⟩)
    · simp only [hk] at hrule
      exact hrule.2 test htest
    · simp only [hk] at hrule
      exact hrule.2 test htest
    · simp only [hk] at hrule
      exact hrule.2 test htest hrole
  case result =>
    intro hk
    simpa only [hk] using hrule

/-- A sound program is well typed. -/
theorem wellTyped : WellTyped root forest table where
  expression e he hrole := by
    obtain ⟨type, htype, hjudged⟩ := h.expression e he hrole
    exact ⟨type, htype, h.wellTypedExpression hjudged.rule⟩
  statement m hm hrole := wellTypedStatement (h.statement m hm hrole) (h.whole.shaped m)

end Sound

/-- A program that has been resolved is well typed. -/
theorem resolved_well_typed {source : String} {parsed : Forest} {session : Session}
    {resolution : Resolution} (hread : Grammar.read source = .ok parsed)
    (hresolve : Resolve.program parsed session = .ok resolution) :
    ∃ root, resolution.forest.root = some root ∧
      WellTyped root resolution.forest resolution.table := by
  rcases Grammar.read_cases source with ⟨parsed', root, hread', hparsed⟩ | ⟨fault, hread', -⟩
  · obtain rfl : parsed' = parsed := Except.ok.inj (hread'.symm.trans hread)
    rcases Resolve.program_cases hparsed session with
      ⟨resolution', hresolve', h, -⟩ | ⟨fault, hresolve', -⟩
    · obtain rfl : resolution' = resolution := Except.ok.inj (hresolve'.symm.trans hresolve)
      exact ⟨root, (h.sound hparsed).whole.root_eq, (h.sound hparsed).wellTyped⟩
    · cases hresolve'.symm.trans hresolve
  · cases hread'.symm.trans hread

/-- A program with casts, conversions of both operands, an array that decays and a pointer that is
converted. -/
def coercing : String :=
  "int a[2] = \x7b1, 'b'\x7d; char f(char *p, int n) \x7b return p[n] + (char)(int)a[*p]; \x7d " ++
  "void main() \x7b char c; while (c < 3) *a = f(&c, c++) * 2; \x7d"

theorem resolved_well_typed_coercing :
    ∃ parsed resolution root, Grammar.read coercing = .ok parsed ∧
      Resolve.program parsed {} = .ok resolution ∧ resolution.forest.root = some root ∧
      WellTyped root resolution.forest resolution.table := by
  have hrun : ((Grammar.read coercing).bind (Resolve.program · {})).isOk := by decide +kernel
  cases hread : Grammar.read coercing with
  | error fault => simp [hread, Except.bind, Except.isOk, Except.toBool] at hrun
  | ok parsed =>
    cases hresolve : Resolve.program parsed {} with
    | error fault => simp [hread, hresolve, Except.bind, Except.isOk, Except.toBool] at hrun
    | ok resolution =>
      obtain ⟨root, hroot, h⟩ := resolved_well_typed hread hresolve
      exact ⟨parsed, resolution, root, rfl, hresolve, hroot, h⟩

end MiniC
