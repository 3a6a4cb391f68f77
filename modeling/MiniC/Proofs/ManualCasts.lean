import MiniC.Proofs.Resolve.Sound
import MiniC.Proofs.Splicing

/-!
# Casts come before their context

Casts that are written in front of an expression are carried out right above it, in their order. What is
around the expression then looks at the last of them, and may bring that to other types. `Wants` says,
context by context, what is looked at and which types are wanted.
-/

namespace MiniC

open Forest

variable {parsed forest : Forest} {table : SymbolTable} {root p e slot top : NodeId} {i : Nat}
  {type : Ty} {wanted : List Ty}

/-- What an operator on one expression accepts, which may depend on the node that stands for it. -/
def UnaryOp.Accepts (op : UnaryOp) (operand : Kind) (type : Ty) : Prop :=
  match op with
  | .negate => type.isIntegral
  | .not => True
  | .deref => ∃ target, type.decay.pointee? = some target
  | .addressOf => operand.isPlace
  | .step .. => operand.isPlace ∧ type.isScalar ∧ type.isConst = false

/-- In slot `i` of `p` the node `top` of some type is accepted, and other types are wanted of it. -/
inductive Forest.Wants (forest parsed : Forest) (table : SymbolTable) (p : NodeId) :
    Nat → NodeId → Ty → List Ty → Prop
  /-- What is on the left of an assignment may be written to. -/
  | left {top e' top' : NodeId} {type right : Ty} {op : BinaryOp} {wanted others : List Ty}
      (hkind : forest.kind p = .binary op) (hother : parsed.child? p 1 = some e')
      (hcast : forest.Cast parsed e' top' right)
      (hwanted : op.wanted? type right = some (wanted, others))
      (hassign : op = .assign →
        (forest.kind top).isPlace ∧ type.isArray = false ∧ type.isConst = false) :
      Wants forest parsed table p 0 top type wanted
  | right {top e' top' : NodeId} {left type : Ty} {op : BinaryOp} {others wanted : List Ty}
      (hkind : forest.kind p = .binary op) (hother : parsed.child? p 0 = some e')
      (hcast : forest.Cast parsed e' top' left)
      (hwanted : op.wanted? left type = some (others, wanted)) :
      Wants forest parsed table p 1 top type wanted
  | operand {top : NodeId} {type : Ty} {op : UnaryOp} (hkind : forest.kind p = .unary op)
      (haccepts : op.Accepts (forest.kind top) type) :
      Wants forest parsed table p 0 top type (op.wanted type)
  /-- What is subscripted is named, and an array or a pointer. -/
  | base {top : NodeId} {type : Ty} (hkind : forest.kind p = .subscript)
      (hname : (forest.kind top).isIdentifier) (helements : Resolve.elements? type ≠ none) :
      Wants forest parsed table p 0 top type []
  | index {top : NodeId} {type : Ty} (hkind : forest.kind p = .subscript)
      (hintegral : type.isIntegral) : Wants forest parsed table p 1 top type [.int]
  | argument {i : Nat} {top : NodeId} {type : Ty} {name : String} {s : SymbolId}
      {signature : Signature} (hkind : forest.kind p = .call name (some s))
      (hsignature : (table.symbol s).signature? = some signature) :
      Wants forest parsed table p i top type (type.argumentWanted signature.params[i]?)
  /-- Nobody wants the value of a statement. -/
  | statement {top : NodeId} {type : Ty} (hkind : forest.kind p = .exprStatement) :
      Wants forest parsed table p 0 top type []
  | choice {top : NodeId} {type : Ty} {labels : Option IfLabels}
      (hkind : forest.kind p = .ifElse labels) : Wants forest parsed table p 0 top type [.int]
  | loop {top : NodeId} {type : Ty} {labels : Option WhileLabels}
      (hkind : forest.kind p = .whileLoop labels) : Wants forest parsed table p 0 top type [.int]
  | clause {top : NodeId} {type : Ty} {labels : Option ForLabels}
      (hkind : forest.kind p = .forLoop labels) : Wants forest parsed table p 1 top type [.int]
  | result {f top : NodeId} {type result : Ty} (hkind : forest.kind p = .giveBack)
      (howner : parsed.owningFunction p = some f) (hresult : forest.type? f = some result) :
      Wants forest parsed table p 0 top type [result.withConst false]
  | initial {top : NodeId} {type declared : Ty} (hkind : (forest.kind p).isDeclaration)
      (hdeclared : forest.type? p = some declared) :
      Wants forest parsed table p 1 top type [declared]
  | item {d : NodeId} {i : Nat} {top : NodeId} {type element : Ty} {size : Nat} {constant : Bool}
      (hkind : (forest.kind d).isDeclaration) (hlist : parsed.child? d 1 = some p)
      (hdeclared : forest.type? d = some (.array element size constant)) :
      Wants forest parsed table p i top type [element]

theorem BinaryOp.length_le_of_wanted? {op : BinaryOp} {left right : Ty} {lw rw : List Ty}
    (h : op.wanted? left right = some (lw, rw)) : lw.length ≤ 2 ∧ rw.length ≤ 2 := by
  cases op with
  | assign | logic =>
    obtain ⟨rfl, rfl⟩ := Prod.mk.inj (Option.some.inj h)
    simp
  | remainder =>
    rw [wanted?] at h
    split at h
    · obtain ⟨rfl, rfl⟩ := Prod.mk.inj (Option.some.inj h)
      simp
    · cases h
  | arith | compare =>
    rw [wanted?, Option.map_eq_some_iff] at h
    obtain ⟨common, -, hstops⟩ := h
    obtain ⟨rfl, rfl⟩ := Prod.mk.inj hstops
    exact ⟨Ty.length_stops_le left common, Ty.length_stops_le right common⟩

/-- No context wants more than two types in turn. -/
theorem Forest.Wants.length_le (h : forest.Wants parsed table p i top type wanted) :
    wanted.length ≤ 2 := by
  cases h with
  | left _ _ _ hwanted => exact (BinaryOp.length_le_of_wanted? hwanted).1
  | right _ _ _ hwanted => exact (BinaryOp.length_le_of_wanted? hwanted).2
  | @operand _ _ op => cases op <;> simp [UnaryOp.wanted]
  | argument =>
    unfold Ty.argumentWanted
    split
    · simp
    · split <;> simp
  | _ => simp

/-- What has become of the expression `e`, which was parsed in slot `i` of `p`. -/
structure CastChain (parsed forest : Forest) (table : SymbolTable) (p : NodeId) (i : Nat)
    (e : NodeId) where
  /-- What is in the slot now. -/
  slot : NodeId
  /-- The last of the casts, or the expression itself if there is nothing to do for them. -/
  top : NodeId
  own : Ty
  final : Ty
  casts : List Conversion
  wanted : List Ty
  context : List Conversion
  slot_eq : forest.child? p i = some slot
  own_eq : forest.type? e = some own
  casts_eq : own.route? (parsed.node e).casts = some casts
  carried : forest.Stacked e casts top
  final_eq : forest.type? top = some final
  wants : forest.Wants parsed table p i top final wanted
  context_eq : final.route? wanted = some context
  length_le : context.length ≤ 2
  brought : forest.Stacked top context slot

/-- In a resolved program casts come before their context. -/
def CastsFirst (parsed : Forest) (root : NodeId) (resolution : Resolution) : Prop :=
  ∀ p i e, parsed.Below p root → parsed.child? p i = some e → parsed.role e = .expression →
    Nonempty (CastChain parsed resolution.forest resolution.table p i e)

namespace Forest

/-- What stands in a slot and is accepted there makes a chain. -/
theorem Supplied.chain {e' : NodeId} (hs : forest.Supplied parsed slot e' top type wanted)
    (hg : Grown parsed forest) (hraw : parsed.Raw) (hp : p < parsed.size)
    (he : parsed.child? p i = some e) (hslot : forest.child? p i = some slot)
    (hw : forest.Wants parsed table p i top type wanted) :
    Nonempty (CastChain parsed forest table p i e) := by
  obtain rfl : e' = e := by
    have he' := hg.child?_of_supplied hraw hp hslot hs
    exact Option.some.inj (he'.symm.trans he)
  obtain ⟨own, casts, hown, hcasts, hcarried⟩ := hs.cast.carried
  obtain ⟨context, hcontext, hbrought⟩ := hs.brought
  have hlength : context.length ≤ 2 := (Ty.length_le_of_route? hcontext).trans hw.length_le
  exact ⟨⟨slot, top, own, type, casts, wanted, context, hslot, hown, hcasts, hcarried, hs.cast.type, hw,
    hcontext, hlength, hbrought⟩⟩

end Forest

theorem ArgumentsBrought.get {params : List Ty} {arguments : List NodeId}
    (h : ArgumentsBrought parsed forest params arguments) (hslot : arguments[i]? = some slot) :
    ∃ e top type, forest.Supplied parsed slot e top type (type.argumentWanted params[i]?) := by
  induction arguments generalizing params i with
  | nil => cases hslot
  | cons argument others ih =>
    obtain ⟨⟨e, top, type, hs⟩, hrest⟩ := h
    cases i with
    | zero =>
      obtain rfl : argument = slot := Option.some.inj hslot
      rw [List.head?_eq_getElem?] at hs
      exact ⟨e, top, type, hs⟩
    | succ i =>
      have hget := ih hrest hslot
      rwa [List.getElem?_tail] at hget

namespace Resolved

variable {resolution : Resolution} (hparsed : parsed.Parsed root)
  (h : Resolved parsed root resolution)

include hparsed h

/-- Operands of operators, arguments of calls, and what is around brackets. -/
theorem chain_of_expression (hp : parsed.Below p root) (hrole : resolution.forest.role p = .expression)
    (he : parsed.child? p i = some e) :
    Nonempty (CastChain parsed resolution.forest resolution.table p i e) := by
  have hraw := hparsed.raw
  have hlt : p < parsed.size := lt_size_of_mem_children (List.mem_of_getElem? he)
  obtain ⟨type, htype⟩ :=
    Option.ne_none_iff_exists'.mp (h.placed hparsed (h.below_of_parsed hp) hrole).1
  obtain ⟨-, -, -, hrule, hoperands⟩ := h.typed p type hrole htype
  have hslots := (h.grown.children p hlt).length_eq
  obtain ⟨hi, -⟩ := List.getElem?_eq_some_iff.mp he
  have hsupplied : ∀ {j slot e top type wanted}, resolution.forest.child? p j = some slot →
      resolution.forest.Supplied parsed slot e top type wanted → parsed.child? p j = some e :=
    fun hslot hs => h.grown.child?_of_supplied hraw hlt hslot hs
  unfold ExpressionRule at hrule
  unfold OperandsRule at hoperands
  cases hk : resolution.forest.kind p <;> rw [hk] at hrule hoperands
  case call name symbol =>
    obtain ⟨s, signature, rfl, -, hsignature, harguments⟩ := hoperands
    obtain ⟨slot, hslot⟩ : ∃ slot, resolution.forest.child? p i = some slot :=
      ⟨_, List.getElem?_eq_getElem (hslots ▸ hi)⟩
    obtain ⟨e', top, type, hs⟩ := harguments.get hslot
    exact hs.chain h.grown hraw hlt he hslot (.argument hk hsignature)
  case binary op =>
    obtain ⟨left, right, l, r, hparts, hl, -, hbinary⟩ := hrule
    obtain ⟨left', right', e₁, e₂, top, top', l', r', lw, rw, hparts', hwanted, hleft, hright⟩ :=
      hoperands
    obtain ⟨rfl, rfl⟩ : left' = left ∧ right' = right := by simpa [hparts] using hparts'.symm
    have hleftSlot : resolution.forest.child? p 0 = some left' := by rw [child?, hparts]; rfl
    have hrightSlot : resolution.forest.child? p 1 = some right' := by rw [child?, hparts]; rfl
    obtain rfl | rfl : i = 0 ∨ i = 1 := by
      rw [← hslots, hparts] at hi
      simp only [List.length_cons, List.length_nil] at hi
      omega
    · refine hleft.chain h.grown hraw hlt he hleftSlot
        (.left hk (hsupplied hrightSlot hright) hright.cast hwanted ?_)
      rintro rfl
      obtain ⟨rfl, -⟩ := Prod.mk.inj (Option.some.inj hwanted)
      obtain rfl := hleft.top_eq
      obtain rfl : l' = l := Option.some.inj (hleft.cast.type.symm.trans hl)
      obtain ⟨hplace, harray, hconst, -⟩ := hbinary
      exact ⟨hplace, harray, hconst⟩
    · exact hright.chain h.grown hraw hlt he hrightSlot
        (.right hk (hsupplied hleftSlot hleft) hleft.cast hwanted)
  case unary op =>
    obtain ⟨operand, o, hparts, ho, hunary⟩ := hrule
    obtain ⟨operand', e', top, o', hparts', hs⟩ := hoperands
    obtain rfl : operand' = operand := by simpa [hparts] using hparts'.symm
    have hslot : resolution.forest.child? p 0 = some operand' := by rw [child?, hparts]; rfl
    obtain rfl : i = 0 := by
      rw [← hslots, hparts] at hi
      exact Nat.lt_one_iff.mp hi
    refine hs.chain h.grown hraw hlt he hslot (.operand hk ?_)
    -- Where nothing is wanted, the rule for the operator is about the operand itself.
    have hplain : op.wanted o' = [] → top = operand' ∧ o' = o := by
      intro hnone
      rw [hnone] at hs
      obtain rfl := hs.top_eq
      exact ⟨rfl, Option.some.inj (hs.cast.type.symm.trans ho)⟩
    cases op with
    | negate =>
      obtain ⟨rfl, rfl⟩ := hplain rfl
      exact hunary.1
    | not => trivial
    | deref =>
      obtain ⟨path, hpath, hstacked⟩ := hs.brought
      have htop := hstacked.type_top hs.cast.type
      obtain rfl : o = o'.after path := Option.some.inj (ho.symm.trans htop)
      rcases Ty.route?_singleton_cases hpath with ⟨hsame, rfl⟩ | ⟨coercion, -, -, rfl⟩
      · refine ⟨type, ?_⟩
        cases o' with
        | base | pointer => exact hunary
        | array => cases hunary
      · exact ⟨type, hunary⟩
    | addressOf =>
      obtain ⟨rfl, rfl⟩ := hplain rfl
      exact hunary.1
    | step back prefixed =>
      obtain ⟨rfl, rfl⟩ := hplain rfl
      obtain ⟨hplace, hscalar, hconst, -⟩ := hunary
      exact ⟨hplace, hscalar, hconst⟩
  case subscript =>
    obtain ⟨base, index, b, size, hparts, hname, hb, helements, -⟩ := hrule
    obtain ⟨base', index', e₁, e₂, top, top', b', ty, element, size', hparts', helements', hbase,
      hintegral, hindex, -⟩ := hoperands
    obtain ⟨rfl, rfl⟩ : base' = base ∧ index' = index := by simpa [hparts] using hparts'.symm
    have hbaseSlot : resolution.forest.child? p 0 = some base' := by rw [child?, hparts]; rfl
    have hindexSlot : resolution.forest.child? p 1 = some index' := by rw [child?, hparts]; rfl
    obtain rfl | rfl : i = 0 ∨ i = 1 := by
      rw [← hslots, hparts] at hi
      simp only [List.length_cons, List.length_nil] at hi
      omega
    · obtain rfl := hbase.top_eq
      refine hbase.chain h.grown hraw hlt he hbaseSlot (.base hk hname ?_)
      rw [helements']
      exact Option.some_ne_none _
    · exact hindex.chain h.grown hraw hlt he hindexSlot (.index hk hintegral)
  case conversion change => exact absurd hk (h.grown.kind_ne_conversion hraw hlt change)
  case type part =>
    rw [Forest.role, hk] at hrole
    cases hform : part.form <;> simp [Kind.role, hform] at hrole
  case int | char | string | identifier =>
    have hshape := h.grown.shaped hraw p
    rw [hk] at hshape
    rw [← hslots, List.map_eq_nil_iff.mp hshape] at hi
    exact absurd hi (Nat.not_lt_zero i)
  all_goals simp [Forest.role, hk, Kind.role] at hrole

/-- Conditions, results, initializers of one value, and values that nobody wants. -/
theorem chain_of_statement (hp : parsed.Below p root)
    (hrole : (resolution.forest.role p).IsStatement) (he : parsed.child? p i = some e)
    (hexpression : parsed.role e = .expression) :
    Nonempty (CastChain parsed resolution.forest resolution.table p i e) := by
  have hraw := hparsed.raw
  have hmem := List.mem_of_getElem? he
  have hlt : p < parsed.size := lt_size_of_mem_children hmem
  obtain ⟨hi, hget⟩ := List.getElem?_eq_some_iff.mp he
  have hslots := (h.grown.children p hlt).length_eq
  have hroles : (resolution.forest.roles p)[i]? = some .expression := by
    rw [h.grown.roles_eq hraw hlt, roles, List.getElem?_map, show (parsed.children p)[i]? = some e from he,
      Option.map_some, hexpression]
  obtain ⟨slot, hslot⟩ : ∃ slot, resolution.forest.child? p i = some slot :=
    ⟨_, List.getElem?_eq_getElem (hslots ▸ hi)⟩
  have hslotRole : resolution.forest.role slot = .expression := by
    rw [roles, List.getElem?_map, show (resolution.forest.children p)[i]? = some slot from hslot,
      Option.map_some, Option.some.injEq] at hroles
    exact hroles
  have hshape := h.grown.shaped hraw p
  have hsettled := (h.settled p hp (h.grown.role_eq hlt ▸ hrole)).slots
  have hchain : ∀ {wanted}, resolution.forest.Brought parsed slot wanted →
      (∀ top type, resolution.forest.Wants parsed resolution.table p i top type wanted) →
      Nonempty (CastChain parsed resolution.forest resolution.table p i e) := by
    rintro wanted ⟨e', top, type, hs⟩ hwants
    exact hs.chain h.grown hraw hlt he hslot (hwants top type)
  have hnot : ∀ {role : Role}, role.IsStatement → role ≠ .expression := Role.ne_of_isStatement
  unfold SlotsRule at hsettled
  cases hk : resolution.forest.kind p <;> rw [hk] at hsettled hshape
  case declaration name symbol =>
    obtain ⟨written, hwritten, hshape⟩ := hshape
    obtain ⟨declared, hdeclared, hinitial⟩ := hsettled
    have hfirst : i ≠ 0 := by
      rintro rfl
      rcases hshape with hshape | hshape | hshape <;> rw [hshape] at hroles <;>
        rcases hwritten with rfl | rfl <;> simp at hroles
    obtain rfl : i = 1 := by
      have hlength : i < (resolution.forest.roles p).length :=
        (List.getElem?_eq_some_iff.mp hroles).1
      rcases hshape with hshape | hshape | hshape <;>
        simp only [hshape, List.length_cons, List.length_nil] at hlength <;> omega
    obtain ⟨first, hchildren⟩ : ∃ first, resolution.forest.children p = [first, slot] := by
      rcases hshape with hshape | hshape | hshape
      · simp [hshape] at hroles
      all_goals
        obtain ⟨first, second, hchildren, -⟩ := exists_pair hshape
        rw [child?, hchildren] at hslot
        exact ⟨first, by rw [hchildren, Option.some.inj hslot]⟩
    rw [hchildren, InitialSlots, if_pos hslotRole] at hinitial
    exact hchain hinitial fun top type => .initial (by rw [hk]; rfl) hdeclared
  case exprStatement =>
    obtain rfl : i = 0 := by
      rw [hshape] at hroles
      exact Nat.lt_one_iff.mp (List.getElem?_eq_some_iff.mp hroles).1
    exact hchain (hsettled slot hslot) fun top type => .statement hk
  case ifElse labels =>
    obtain rfl : i = 0 := by
      obtain ⟨yes, hyes, hshape | ⟨no, hno, hshape⟩⟩ := hshape <;> rw [hshape] at hroles
      · rcases i with _ | _ | i
        · rfl
        · exact absurd (Option.some.inj hroles) (hnot hyes)
        · simp at hroles
      · rcases i with _ | _ | _ | i
        · rfl
        · exact absurd (Option.some.inj hroles) (hnot hyes)
        · exact absurd (Option.some.inj hroles) (hnot hno)
        · simp at hroles
    exact hchain (hsettled slot hslot) fun top type => .choice hk
  case whileLoop labels =>
    obtain rfl : i = 0 := by
      obtain ⟨body, hbody, hshape⟩ := hshape
      rw [hshape] at hroles
      rcases i with _ | _ | i
      · rfl
      · exact absurd (Option.some.inj hroles) (hnot hbody)
      · simp at hroles
    exact hchain (hsettled slot hslot) fun top type => .loop hk
  case forLoop labels =>
    obtain rfl : i = 1 := by
      obtain ⟨start, test, next, body, hstart, -, hnext, hbody, hshape⟩ := hshape
      rw [hshape] at hroles
      rcases i with _ | _ | _ | _ | i
      · exact absurd (Option.some.inj hroles) (hnot hstart.isStatement)
      · rfl
      · exact absurd (Option.some.inj hroles) (hnot hnext.isStatement)
      · exact absurd (Option.some.inj hroles) (hnot hbody)
      · simp at hroles
    exact hchain (hsettled slot hslot hslotRole) fun top type => .clause hk
  case giveBack =>
    obtain rfl : i = 0 := by
      rcases hshape with hshape | hshape <;> rw [hshape] at hroles
      · cases hroles
      · exact Nat.lt_one_iff.mp (List.getElem?_eq_some_iff.mp hroles).1
    obtain ⟨f, result, howner, hresult, hbrought⟩ := hsettled slot hslot
    exact hchain hbrought fun top type => .result hk howner hresult
  case function name symbol =>
    have hexpr : Role.expression ∈ resolution.forest.roles p := List.mem_of_getElem? hroles
    rcases hshape with hshape | hshape <;> simp [hshape] at hexpr
  case block =>
    exact absurd rfl (hnot (hshape _ (List.mem_of_getElem? hroles)))
  case type part =>
    rw [Forest.role, hk] at hrole
    cases hform : part.form <;> simp [Kind.role, hform, Role.IsStatement] at hrole
  case breakOut | continueOn | nothing =>
    rw [hshape] at hroles
    cases hroles
  all_goals
    rw [Forest.role, hk] at hrole
    exact hrole.elim

/-- Initializers in a list. -/
theorem chain_of_item (hp : parsed.Below p root)
    (hrole : resolution.forest.role p = .initializers) (he : parsed.child? p i = some e) :
    Nonempty (CastChain parsed resolution.forest resolution.table p i e) := by
  have hraw := hparsed.raw
  have hlt : p < parsed.size := lt_size_of_mem_children (List.mem_of_getElem? he)
  have hparsedRole : parsed.role p = .initializers := h.grown.role_eq hlt ▸ hrole
  have hne : p ≠ root := by
    rintro rfl
    rw [hparsed.role_root] at hparsedRole
    cases hparsedRole
  obtain ⟨d, hparent, hd⟩ := hp.exists_parent hraw.linked hne
  have hmem := hraw.linked.mem_of_parent hparent
  have hdlt : d < parsed.size := lt_size_of_mem_children hmem
  have hshape := hraw.shaped d
  obtain ⟨hdeclaration, written, hwritten, hroles⟩ :=
    Kind.of_initializers hshape (hparsedRole ▸ List.mem_map_of_mem hmem)
  obtain ⟨typeNode, list, hchildren, htypeNode, hlist⟩ := exists_pair hroles
  obtain rfl : p = list := by
    rw [hchildren, List.mem_pair] at hmem
    refine hmem.resolve_left ?_
    rintro rfl
    exact hwritten (htypeNode.symm.trans hparsedRole)
  have hdrole : resolution.forest.role d = .declaration := by
    rw [h.grown.role_eq hdlt]
    cases hk : parsed.kind d <;> rw [hk] at hdeclaration <;> cases hdeclaration
    rw [Forest.role, hk, Kind.role]
  -- The list is where it was parsed.
  obtain ⟨typeNode', list, hchildren', htypeNode', hlist'⟩ :=
    exists_pair ((h.grown.roles_eq hraw hdlt).trans hroles)
  obtain rfl : p = list := by
    have hmem' : p ∈ resolution.forest.children d :=
      (h.grown.mem_children_iff hraw (by simp [hrole])).mpr hmem
    rw [hchildren', List.mem_pair] at hmem'
    refine hmem'.resolve_left ?_
    rintro rfl
    exact hwritten (htypeNode'.symm.trans hrole)
  have hslots := (h.settled d hd (by rw [← h.grown.role_eq hdlt, hdrole]; trivial)).slots
  obtain ⟨hi, -⟩ := List.getElem?_eq_some_iff.mp he
  obtain ⟨slot, hslot⟩ : ∃ slot, resolution.forest.child? p i = some slot :=
    ⟨_, List.getElem?_eq_getElem ((h.grown.children p hlt).length_eq ▸ hi)⟩
  unfold SlotsRule at hslots
  cases hk : resolution.forest.kind d with
  | declaration name symbol =>
    rw [hk] at hslots
    obtain ⟨declared, hdeclared, hinitial⟩ := hslots
    rw [hchildren', InitialSlots, if_neg (by simp [hrole])] at hinitial
    obtain ⟨-, element, size, constant, rfl, hitems⟩ := hinitial
    obtain ⟨e', top, type, hs⟩ := hitems slot (List.mem_of_getElem? hslot)
    refine hs.chain h.grown hraw hlt he hslot (.item (by rw [hk]; rfl) ?_ hdeclared)
    rw [child?, hchildren]
    rfl
  | type part =>
    rw [Forest.role, hk] at hdrole
    cases hform : part.form <;> simp [Kind.role, hform] at hdrole
  | _ => simp [Forest.role, hk, Kind.role] at hdrole

theorem castsFirst : CastsFirst parsed root resolution := by
  intro p i e hp he hexpression
  have hmem := List.mem_of_getElem? he
  have hlt : p < parsed.size := lt_size_of_mem_children hmem
  have hrole := h.grown.role_eq hlt
  rcases Kind.cases_of_expression (hparsed.raw.shaped p) (hexpression ▸ List.mem_map_of_mem hmem) with
    hparent | hparent | ⟨hparent, -⟩
  · exact h.chain_of_expression hparsed hp (hrole.trans hparent) he
  · exact h.chain_of_item hparsed hp (hrole.trans hparent) he
  · refine h.chain_of_statement hparsed hp ?_ he hexpression
    rw [hrole]
    exact hparent

end Resolved

/-! ## Casts that cannot be carried out -/

/-- A fault of a value that cannot become what is wanted. -/
def Fault.NoConversion (fault : Fault) : Prop :=
  ∃ source target : Ty, fault.cause = .noConversion source.text target.text ∧
    source.conversion? target = none

namespace Resolve

open Ensures

variable {state typed : Resolution} {own : Ty} {levels : Nat}

/-- Casts are refused at the first of them that is not possible. -/
theorem ensures_castThrough_stuck {casts : List Ty} (hl : state.forest.Linked)
    (hr : state.forest.Ranked) (hparent : state.forest.parent e = some p)
    (htype : state.forest.type? e = some own) (hstuck : own.route? casts = none) :
    Ensures (castThrough e casts) state (fun fault _ => fault.NoConversion) fun _ _ => False := by
  induction casts generalizing state e own with
  | nil => cases hstuck
  | cons target casts ih =>
    simp only [castThrough, convert, bind_iff, ensures_forest]
    rcases Forest.convert_cases hl hr target hparent htype with
      ⟨hsame, hok⟩ | ⟨hsame, herror⟩ | ⟨coercion, other, hsame, hconversion, hok, hs⟩
    · rw [Ty.route?_of_same hsame] at hstuck
      simp only [hok, bind_iff, ensures_onForest, pure_iff]
      exact ih hl hr hparent htype hstuck
    · simp only [herror, throw_iff]
      refine ⟨own, target, rfl, ?_⟩
      cases hconversion : own.conversion? target with
      | none => rfl
      | some coercion => simp [Forest.convert, htype, hsame, hconversion] at herror
    · rw [Ty.route?_of_conversion hsame hconversion, Option.map_eq_none_iff] at hstuck
      simp only [hok, bind_iff, ensures_onForest, pure_iff]
      exact ih (hs.linked hl hparent) (hs.ranked hl hr hparent) hs.parent_new hs.type_new hstuck

/-- An expression is refused if its casts cannot be carried out from the type that it has. -/
theorem expressionWithin_stuck
    (hrun : byKind (expressionWithin levels) e (annotated state e) = .ok own typed)
    (hw : typed.forest.Woven) (hparent : typed.forest.parent e = some p)
    (hstuck : own.route? (typed.forest.node e).casts = none) :
    ∃ fault stopped, expressionWithin (levels + 1) e state = .error fault stopped ∧
      fault.NoConversion := by
  refine exists_error ?_
  have hlt : e < typed.forest.size := hw.linked.lt_size (hw.linked.mem_of_parent hparent)
  have hn := noted_setType hlt own
  have hnode : (typed.forest.setType e own).node e = { typed.forest.node e with type := some own } := by
    rw [setType, node_update _ _ _ _ hlt, if_pos rfl]
  have hkind : Ensures (byKind (expressionWithin levels) e) (annotated state e)
      (fun fault _ => fault.NoConversion) fun type state' => type = own ∧ state' = typed := by
    rw [Ensures, hrun]
    exact ⟨rfl, rfl⟩
  simp only [expressionWithin, bind_iff, ensures_annotate]
  refine hkind.imp ?_
  rintro _ _ ⟨rfl, rfl⟩
  simp only [ensures_onForest, ensures_forest]
  refine ensures_castThrough_stuck (hn.linked hw.linked) (hn.ranked hw.ranked)
    ((hn.parent e).trans hparent) (by rw [type?, hnode]) ?_
  rw [hnode]
  exact hstuck

end Resolve

/-- In a resolved program the casts in front of an expression have been carried out right above it, in
their order and one conversion for each that changes the type, and what its context wants, which is no
more than two conversions, has been put in above them, starting from the type of the last cast. A program
that leaves an expression with a type from which its casts cannot be carried out is refused; the
expression itself is what is refused, for want of a conversion. -/
theorem manual_casts_come_first {source : String} (session : Session)
    (hread : Grammar.read source = .ok parsed) :
    ∃ root, parsed.root = some root ∧
      (∀ resolution, Resolve.program parsed session = .ok resolution →
        CastsFirst parsed root resolution) ∧
      (∀ e own, parsed.Below e root → parsed.role e = .expression →
        (Resolve.leftOver parsed root session).type? e = some own →
        own.route? (parsed.node e).casts = none →
        ∃ fault, Resolve.program parsed session = .error fault ∧ fault.Ordinary) ∧
      ∀ levels state typed e p own,
        Resolve.byKind (Resolve.expressionWithin levels) e (Resolve.annotated state e) =
          .ok own typed →
        typed.forest.Woven → typed.forest.parent e = some p →
        own.route? (typed.forest.node e).casts = none →
        ∃ fault stopped, Resolve.expressionWithin (levels + 1) e state = .error fault stopped ∧
          fault.NoConversion := by
  rcases Grammar.read_cases source with ⟨parsed', root, hread', hparsed⟩ | ⟨fault, hread', -⟩
  · obtain rfl : parsed' = parsed := Except.ok.inj (hread'.symm.trans hread)
    refine ⟨root, hparsed.root_eq, ?_, ?_, fun _ _ _ _ _ _ hrun hw hparent hstuck =>
      Resolve.expressionWithin_stuck hrun hw hparent hstuck⟩
    · intro resolution hresolve
      rcases Resolve.program_cases hparsed session with ⟨resolution', hresolve', h, -⟩ | ⟨fault, herror, -⟩
      · obtain rfl : resolution' = resolution := Except.ok.inj (hresolve'.symm.trans hresolve)
        exact h.castsFirst hparsed
      · cases hresolve.symm.trans herror
    · intro e own he hrole htype hstuck
      rcases Resolve.program_cases hparsed session with ⟨resolution, hresolve, h, -⟩ | ⟨fault, herror, hfault⟩
      · -- The type is the one in the resolved program, where the casts have been carried out.
        rw [← Resolve.forest_of_program hparsed.root_eq hresolve] at htype
        have hne : e ≠ root := by
          rintro rfl
          rw [hparsed.role_root] at hrole
          cases hrole
        obtain ⟨p, hparent, hp⟩ := he.exists_parent hparsed.raw.linked hne
        obtain ⟨i, hi⟩ := List.mem_iff_getElem?.mp (hparsed.raw.linked.mem_of_parent hparent)
        obtain ⟨chain⟩ := h.castsFirst hparsed p i e hp hi hrole
        have hown := chain.own_eq.symm.trans htype
        have hcasts := chain.casts_eq
        rw [Option.some.inj hown, hstuck] at hcasts
        cases hcasts
      · exact ⟨fault, herror, hfault⟩
  · cases hread'.symm.trans hread

/-- A program with casts in front of operands, an argument, an index, a condition and a result, some of
which change nothing and some of which go by way of an integer. -/
def castingAround : String :=
  "int *p; char c; int a[3]; int f(char x) \x7b return (char)(int)x; \x7d " ++
  "void main() \x7b p = (int *)(int)c; if ((char)(int)p == p) f((int)(char)a[(char)2]); \x7d"

/-- A program with a cast of a character to an address. -/
def castingAway : String := "void main() \x7b int *p; p = (int *)(const char)'x'; \x7d"

theorem manual_casts_come_first_castingAround :
    (∃ parsed resolution root, Grammar.read castingAround = .ok parsed ∧
      Resolve.program parsed {} = .ok resolution ∧ parsed.root = some root ∧
      CastsFirst parsed root resolution) ∧
    ∃ parsed root e own, Grammar.read castingAway = .ok parsed ∧ parsed.root = some root ∧
      parsed.Below e root ∧ (Resolve.leftOver parsed root {}).type? e = some own ∧
      own.route? (parsed.node e).casts = none ∧
      ∃ fault, Resolve.program parsed {} = .error fault ∧ fault.Ordinary := by
  constructor
  · have hrun : ((Grammar.read castingAround).bind (Resolve.program · {})).isOk := by decide +kernel
    cases hread : Grammar.read castingAround with
    | error fault => simp [hread, Except.bind, Except.isOk, Except.toBool] at hrun
    | ok parsed =>
      cases hresolve : Resolve.program parsed {} with
      | error fault => simp [hread, hresolve, Except.bind, Except.isOk, Except.toBool] at hrun
      | ok resolution =>
        obtain ⟨root, hroot, h, -⟩ := manual_casts_come_first {} hread
        exact ⟨parsed, resolution, root, rfl, hresolve, hroot, h resolution hresolve⟩
  · have hrun : (Grammar.read castingAway).toOption.any (fun parsed => parsed.root.any fun root =>
        (parsed.preorder root).any fun e => decide (parsed.role e = .expression) &&
          ((Resolve.leftOver parsed root {}).type? e).any fun own =>
            (own.route? (parsed.node e).casts).isNone) = true := by decide +kernel
    cases hread : Grammar.read castingAway with
    | error fault => simp [hread, Except.toOption] at hrun
    | ok parsed =>
      obtain ⟨root, hroot, -, h, -⟩ := manual_casts_come_first {} hread
      simp only [hread, Except.toOption, hroot, Option.any_some, List.any_eq_true, Bool.and_eq_true,
        decide_eq_true_eq, Option.any_eq_true, Option.isNone_iff_eq_none] at hrun
      obtain ⟨e, he, hrole, own, hown, hstuck⟩ := hrun
      rcases Grammar.read_cases castingAway with ⟨parsed', root', hread', hparsed⟩ | ⟨fault, hread', -⟩
      · obtain rfl : parsed' = parsed := Except.ok.inj (hread'.symm.trans hread)
        have hbelow := (mem_preorder hparsed.raw.ranked).mp he
        exact ⟨parsed', root, e, own, rfl, hroot, hbelow, hown, hstuck, h e own hbelow hrole hown hstuck⟩
      · cases hread'.symm.trans hread

end MiniC
