import MiniC.Proofs.Resolve.Names
import MiniC.Proofs.Ty.Common

/-!
# Resolving operators

The operands of an operator are resolved from left to right and then converted. What the operator
asks of them is checked in between, so the rule for the operator holds of the types that they have in
the end.
-/

namespace MiniC

namespace Ty

theorem shallow_withConst {type : Ty} (constant : Bool) :
    (type.withConst constant).Shallow ↔ type.Shallow := by
  cases type <;> exact Iff.rfl

theorem shallow_of_common? {left right common : Ty} (h : left.common? right = some common)
    (hleft : left.Shallow) (hright : right.Shallow) : common.Shallow := by
  rcases (common?_cases h).2 with rfl | rfl
  · exact (shallow_withConst _).mpr hleft.decay.shallow
  · exact (shallow_withConst _).mpr hright.decay.shallow

/-- What a subscripted type holds is no array. -/
theorem flat_of_elements? {type element : Ty} {size : Option Nat}
    (h : Resolve.elements? type = some (element, size)) (hshallow : type.Shallow) :
    element.Flat := by
  cases type with
  | base => cases h
  | pointer | array =>
    obtain ⟨rfl, -⟩ := Prod.mk.inj (Option.some.inj h)
    exact hshallow

end Ty

namespace Resolve

open Forest Ensures

variable {parsed : Forest} {start state state' : Resolution} {n e e' left right operand : NodeId}
  {type target : Ty} {targets : Ty → List Ty} {inner : NodeId → Resolve NodeId} {levels : Nat}

/-- A step that brings an operand to other types in turn, depending on its own, so that in the end it
has a certain type, up to constness. -/
def Gives (parsed : Forest) (step : NodeId → Resolve NodeId) (targets : Ty → List Ty) (target : Ty) :
    Prop :=
  ∀ {state : Resolution} {id p : NodeId} {source : Ty}, Operand parsed state id p source →
    Ensures (step id) state (Refused parsed) fun id' state' =>
      (∃ path, Carried parsed state state' id id' p source (targets source) path) ∧
        state'.forest.HasType id' target

theorem gives_convert (hraw : parsed.Raw) (htarget : target.Shallow) :
    Gives parsed (convert · target) (fun _ => [target]) target := by
  intro state id p source h
  refine (ensures_convert hraw h htarget).imp ?_
  rintro id' state' ⟨path, hcarried⟩
  exact ⟨⟨path, hcarried⟩, hcarried.hasType⟩

theorem gives_promote (hraw : parsed.Raw) (htarget : target.Shallow) :
    Gives parsed (promote · target) (·.stops target) target := by
  intro state id p source h
  refine (ensures_promote hraw h htarget).imp ?_
  rintro id' state' ⟨path, hcarried⟩
  exact ⟨⟨path, hcarried⟩, _, hcarried.operand.type, Ty.after_stops_same hcarried.route⟩

/-- Converting one operand after the other. -/
theorem ensures_both {step : NodeId → Resolve NodeId} {l r : Ty} (hraw : parsed.Raw)
    (hstep : Gives parsed step targets target) (h : Begun parsed start n)
    (hp : Progress parsed start state n [left, right] [])
    (hleft : state.forest.Cast parsed e left l) (hright : state.forest.Cast parsed e' right r) :
    Ensures (step left) state (Refused parsed) fun _ state₁ =>
      Ensures (step right) state₁ (Refused parsed) fun _ state₂ =>
        ∃ left' right', Progress parsed start state₂ n [left', right'] [] ∧
          state₂.forest.HasType left' target ∧ state₂.forest.HasType right' target ∧
          state₂.forest.Supplied parsed left' e left l (targets l) ∧
          state₂.forest.Supplied parsed right' e' right r (targets r) := by
  have hoperand := hp.operand (by simp) (fun _ => h.untyped) hleft.type
  refine (hstep hoperand).imp ?_
  rintro left' state₁ ⟨⟨path, hcarried⟩, hltype⟩
  have hne : right ≠ left := by
    have hnodup := hp.nodup
    simp only [List.append_nil, List.nodup_cons, List.mem_singleton] at hnodup
    exact fun he => hnodup.1 he.symm
  have hr₁ := hcarried.converted.retains hoperand.untyped
  have hp₁ := hp.converted hraw (by simp) hcarried.converted hcarried.operand
  rw [List.map_cons, List.map_singleton, swap_self, swap_of_ne hne] at hp₁
  have hright₁ := hright.mono fun m _ => hr₁ m
  have hoperand' := hp₁.operand (by simp) (fun _ => h.untyped) hright₁.type
  refine (hstep hoperand').imp ?_
  rintro right' state₂ ⟨⟨path', hcarried'⟩, hrtype⟩
  have hr₂ := hcarried'.converted.retains hoperand'.untyped
  have hlast : Progress parsed start state₁ n ([left'] ++ [right]) [] := hp₁
  refine ⟨left', right', hlast.converted_last hraw hcarried'.converted hcarried'.operand, ?_,
    hrtype, ?_, hcarried'.supplied hoperand' hright₁⟩
  · refine hltype.agrees (hr₂ left' hcarried.operand.role ?_)
    rw [hcarried.operand.type]
    exact Option.some_ne_none _
  · exact (hcarried.supplied hoperand hleft).mono fun m _ => hr₂ m

/-- Converting the operand that was resolved last. -/
theorem ensures_last {step : NodeId → Resolve NodeId} {o : Ty} (done : List NodeId)
    (hraw : parsed.Raw) (hstep : Gives parsed step targets target) (h : Begun parsed start n)
    (hp : Progress parsed start state n (done ++ [operand]) [])
    (hcast : state.forest.Cast parsed e operand o) :
    Ensures (step operand) state (Refused parsed) fun operand' state' =>
      Progress parsed start state' n (done ++ [operand']) [] ∧
        state'.forest.HasType operand' target ∧
        state'.forest.Supplied parsed operand' e operand o (targets o) ∧
        state.forest.Retains state'.forest := by
  have hoperand := hp.operand (by simp) (fun _ => h.untyped) hcast.type
  refine (hstep hoperand).imp ?_
  rintro operand' state' ⟨⟨path, hcarried⟩, htype⟩
  exact ⟨hp.converted_last hraw hcarried.converted hcarried.operand, htype,
    hcarried.supplied hoperand hcast, hcarried.converted.retains hoperand.untyped⟩

/-- What is written to is a place of its type, neither an array nor constant. -/
theorem ensures_writable (htype : state.forest.type? operand = some type) :
    Ensures (writable operand) state (Refused parsed) fun type' state' =>
      type' = type ∧ state' = state ∧ (state.forest.kind operand).isPlace = true ∧
        type.isArray = false ∧ type.isConst = false := by
  simp only [writable, bind_iff, ensures_forest, ite_iff, ensures_refuse, ensures_typeOf htype,
    pure_iff, true_and]
  refine ⟨fun _ => Refused.of_plain rfl, fun hplace => ⟨fun _ =>
    Refused.of_plain rfl, fun harray => ⟨fun _ => Refused.of_plain rfl,
      fun hconst => ⟨?_, ?_, ?_⟩⟩⟩⟩
  · simpa using hplace
  · simpa using harray
  · simpa using hconst

/-- An operator on two operands that have got their final types. -/
theorem founded_of_pair {op : BinaryOp} {top top' : NodeId} {l r l' r' : Ty} {lw rw : List Ty}
    (h : Begun parsed start n) (hkind : start.forest.kind n = .binary op)
    (hp : Progress parsed start state n [left, right] [])
    (hl : state.forest.type? left = some l') (hr : state.forest.type? right = some r')
    (hshallow : type.Shallow) (hrule : BinaryRule op (state.forest.kind left).isPlace l' r' type)
    (hwanted : op.wanted? l r = some (lw, rw))
    (hleft : state.forest.Supplied parsed left e top l lw)
    (hright : state.forest.Supplied parsed right e' top' r rw) :
    Founded parsed start state n type := by
  refine h.founded hp hshallow ?_ ?_
  · simp only [ExpressionRule, hp.kind_eq, hkind]
    exact ⟨left, right, l', r', hp.children_eq, hl, hr, hrule⟩
  · simp only [OperandsRule, hp.kind_eq, hkind]
    exact ⟨left, right, e, e', top, top', l, r, lw, rw, hp.children_eq, hwanted, hleft, hright⟩

theorem ensures_bothToInt {op : BinaryOp} {l r : Ty} (hraw : parsed.Raw) (h : Begun parsed start n)
    (hkind : start.forest.kind n = .binary op)
    (hrule : ∀ {place l r}, l.same .int → r.same .int → BinaryRule op place l r .int)
    (hwanted : op.wanted? l r = some ([.int], [.int]))
    (hp : Progress parsed start state n [left, right] [])
    (hleft : state.forest.Cast parsed e left l) (hright : state.forest.Cast parsed e' right r) :
    Ensures (bothToInt left right) state (Refused parsed) fun type state' =>
      Founded parsed start state' n type := by
  simp only [bothToInt, bind_iff, pure_iff]
  refine (ensures_both hraw (gives_convert hraw shallow_int) h hp hleft hright).imp
    fun _ _ hboth => hboth.imp ?_
  rintro _ state' ⟨left', right', hp', ⟨l', hl, hlsame⟩, ⟨r', hr, hrsame⟩, hleft', hright'⟩
  exact founded_of_pair h hkind hp' hl hr shallow_int (hrule hlsame hrsame) hwanted hleft' hright'

/-- Both operands brought to their common type. -/
theorem ensures_bothToCommon {op : BinaryOp} {line : Nat} {l r : Ty} (hraw : parsed.Raw)
    (h : Begun parsed start n) (hp : Progress parsed start state n [left, right] [])
    (hl : l.Shallow) (hr : r.Shallow)
    (hleft : state.forest.Cast parsed e left l) (hright : state.forest.Cast parsed e' right r) :
    Ensures (bothToCommon op line left right l r) state (Refused parsed) fun common state' =>
      l.common? r = some common ∧ common.isScalar ∧ common.Shallow ∧ ∃ left' right',
        Progress parsed start state' n [left', right'] [] ∧
          state'.forest.HasType left' common ∧ state'.forest.HasType right' common ∧
          state'.forest.Supplied parsed left' e left l (l.stops common) ∧
          state'.forest.Supplied parsed right' e' right r (r.stops common) := by
  simp only [bothToCommon]
  split
  · exact Refused.of_plain rfl
  · next common hcommon =>
    have hshallow := Ty.shallow_of_common? hcommon hl hr
    simp only [bind_iff, pure_iff]
    refine (ensures_both hraw (gives_promote hraw hshallow) h hp hleft hright).imp
      fun _ _ hboth => hboth.imp ?_
    exact fun _ state' hfinal => ⟨hcommon, (Ty.common?_cases hcommon).1, hshallow, hfinal⟩

theorem ensures_binary {op : BinaryOp} (hraw : parsed.Raw) (hinner : Resolves parsed inner levels)
    (hlevels : n ≤ levels) (h : Begun parsed state n)
    (hkind : state.forest.kind n = .binary op) :
    Ensures (binary inner n op) state (Refused parsed) fun type state' =>
      Founded parsed state state' n type := by
  have hholds := h.holds hraw
  rw [hkind] at hholds
  obtain ⟨first, second, hchildren, hfirst, hsecond⟩ := exists_pair hholds
  have hp := h.progress
  rw [hchildren] at hp
  have hchild : ∀ slot {c}, state.forest.children n = parsed.children n →
      [first, second][slot]? = some c → state.forest.child? n slot = some c := by
    intro slot c heq hc
    rw [child?, heq, hchildren, hc]
  simp only [binary, bind_iff, ensures_forest,
    ensures_child (hchild 0 h.children_eq rfl)]
  refine (h.ensures_next hraw hinner hlevels hp hfirst).imp ?_
  rintro left state₁ ⟨hp₁, -, l, hleft₁⟩
  have hchild₁ : state₁.forest.child? n 1 = some second := by rw [child?, hp₁.children_eq]; rfl
  simp only [ensures_child hchild₁]
  refine (h.ensures_next hraw hinner hlevels hp₁ hsecond).imp ?_
  rintro right state₂ ⟨hp₂, hr₂, r, hright⟩
  have hleft := hleft₁.mono fun m _ => hr₂ m
  replace hp₂ : Progress parsed state state₂ n [left, right] [] := hp₂
  have hl := hleft.type
  have hr := hright.type
  have hlshallow := (hp₂.consistent.typed left l (hp₂.resolved left (by simp)).1 hl).shallow
  have hrshallow := (hp₂.consistent.typed right r (hp₂.resolved right (by simp)).1 hr).shallow
  simp only [ensures_typeOf hl, ensures_typeOf hr]
  cases op with
  | assign =>
    simp only [bind_iff, pure_iff]
    refine (ensures_writable hl).imp ?_
    rintro _ _ ⟨rfl, rfl, hplace, harray, hconst⟩
    refine (ensures_last [left] hraw (gives_convert hraw hlshallow) h hp₂ hright).imp ?_
    rintro right' state₃ ⟨hp₃, ⟨r', hr', hsame⟩, hright', hr₃⟩
    have hagrees := hr₃ left (hp₂.resolved left (by simp)).1 (by simp [hl])
    have hleft' := (hleft.mono fun m _ => hr₃ m).supplied
    refine founded_of_pair h hkind hp₃ (hagrees.type_eq.trans hl) hr' hlshallow ?_ rfl hleft' hright'
    exact ⟨by rw [hagrees.kind_eq, hplace], harray, hconst, hsame, rfl⟩
  | logic op =>
    exact ensures_bothToInt hraw h hkind (fun hl hr => ⟨hl, hr, rfl⟩) rfl hp₂ hleft hright
  | remainder =>
    simp only [bind_iff, ite_iff, ensures_refuse]
    refine ⟨fun _ => Refused.of_plain rfl, fun hlintegral => ⟨fun _ =>
      Refused.of_plain rfl, fun hrintegral => ?_⟩⟩
    have hwanted : BinaryOp.wanted? .remainder l r = some ([.int], [.int]) := by
      simp only [Bool.not_eq_true', Bool.not_eq_false] at hlintegral hrintegral
      simp [BinaryOp.wanted?, hlintegral, hrintegral]
    exact ensures_bothToInt hraw h hkind (fun hl hr => ⟨hl, hr, rfl⟩) hwanted hp₂ hleft hright
  | arith op =>
    refine (ensures_bothToCommon hraw h hp₂ hlshallow hrshallow hleft hright).imp ?_
    rintro common state₃ ⟨hcommon, hscalar, hshallow, left', right', hp₃, ⟨l', hl', hlsame⟩,
      ⟨r', hr', hrsame⟩, hleft', hright'⟩
    exact founded_of_pair h hkind hp₃ hl' hr' hshallow ⟨hlsame, hrsame, hscalar⟩
      (by simp [BinaryOp.wanted?, hcommon]) hleft' hright'
  | compare op =>
    simp only [bind_iff, pure_iff]
    refine (ensures_bothToCommon hraw h hp₂ hlshallow hrshallow hleft hright).imp ?_
    rintro common state₃ ⟨hcommon, hscalar, hshallow, left', right', hp₃, ⟨l', hl', hlsame⟩,
      ⟨r', hr', hrsame⟩, hleft', hright'⟩
    refine founded_of_pair h hkind hp₃ hl' hr' shallow_int ⟨?_, ?_, rfl⟩
      (by simp [BinaryOp.wanted?, hcommon]) hleft' hright'
    · exact Ty.same_trans hlsame (Ty.same_comm common r' ▸ hrsame)
    · rw [Ty.isScalar_of_same hlsame]
      exact hscalar

/-- An operator on an operand that has got its final type. -/
theorem founded_of_single {op : UnaryOp} {top : NodeId} {o o' : Ty} (h : Begun parsed start n)
    (hkind : start.forest.kind n = .unary op) (hp : Progress parsed start state n [operand] [])
    (ho : state.forest.type? operand = some o') (hshallow : type.Shallow)
    (hrule : UnaryRule op (state.forest.kind operand).isPlace o' type)
    (hsupplied : state.forest.Supplied parsed operand e top o (op.wanted o)) :
    Founded parsed start state n type := by
  refine h.founded hp hshallow ?_ ?_
  · simp only [ExpressionRule, hp.kind_eq, hkind]
    exact ⟨operand, o', hp.children_eq, ho, hrule⟩
  · simp only [OperandsRule, hp.kind_eq, hkind]
    exact ⟨operand, e, top, o, hp.children_eq, hsupplied⟩

theorem ensures_unary {op : UnaryOp} (hraw : parsed.Raw) (hinner : Resolves parsed inner levels)
    (hlevels : n ≤ levels) (h : Begun parsed state n)
    (hkind : state.forest.kind n = .unary op) :
    Ensures (unary inner n op) state (Refused parsed) fun type state' =>
      Founded parsed state state' n type := by
  have hholds := h.holds hraw
  rw [hkind] at hholds
  obtain ⟨part, hchildren, hrole⟩ := exists_single hholds
  have hp := h.progress
  rw [hchildren] at hp
  have hchild : state.forest.child? n 0 = some part := by
    rw [child?, h.children_eq, hchildren]
    rfl
  simp only [unary, bind_iff, ensures_forest, ensures_child hchild]
  refine (h.ensures_next hraw hinner hlevels hp hrole).imp ?_
  rintro operand state₁ ⟨hp₁, -, o, hcast⟩
  replace hp₁ : Progress parsed state state₁ n [operand] [] := hp₁
  have hmem : operand ∈ [operand] := List.mem_cons_self
  have ho := hcast.type
  have hshallow := (hp₁.consistent.typed operand o (hp₁.resolved operand hmem).1 ho).shallow
  simp only [ensures_typeOf ho]
  cases op with
  | negate =>
    simp only [bind_iff, ite_iff, ensures_refuse, pure_iff]
    refine ⟨fun _ => Refused.of_plain rfl, fun hintegral => ?_⟩
    exact founded_of_single h hkind hp₁ ho ((Ty.shallow_withConst _).mpr hshallow)
      ⟨by simpa using hintegral, rfl⟩ hcast.supplied
  | not =>
    simp only [bind_iff, pure_iff]
    refine (ensures_last [] hraw (gives_convert hraw shallow_int) h hp₁ hcast).imp ?_
    rintro operand' state₂ ⟨hp₂, ⟨o', ho', hsame⟩, hsupplied, -⟩
    exact founded_of_single h hkind hp₂ ho' shallow_int ⟨hsame, rfl⟩ hsupplied
  | deref =>
    simp only
    split
    · exact Refused.of_plain rfl
    · next target htarget =>
      have hpointer : o.decay.Flat := hshallow.decay
      have hflat : target.Flat := by
        cases hd : o.decay with
        | pointer pointee =>
          rw [hd] at htarget hpointer
          exact Option.some.inj htarget ▸ hpointer
        | base | array => simp [hd, Ty.pointee?] at htarget
      simp only [bind_iff, pure_iff]
      have hoperand := hp₁.operand hmem (fun _ => h.untyped) ho
      refine (ensures_convert hraw hoperand hpointer.shallow).imp ?_
      rintro operand' state₂ ⟨path, hcarried⟩
      replace hp₁ : Progress parsed state state₁ n ([] ++ [operand]) [] := hp₁
      have hp₂ := hp₁.converted_last hraw hcarried.converted hcarried.operand
      refine founded_of_single h hkind hp₂ hcarried.operand.type hflat.shallow ?_
        (hcarried.supplied hoperand hcast)
      -- An operand that is left as it is is a pointer already.
      rcases Ty.route?_singleton_cases hcarried.route with ⟨hsame, rfl⟩ | ⟨_, -, -, rfl⟩
      · have harray := isArray_eq_false_of_decay hsame
        cases o with
        | base | pointer => exact htarget
        | array => cases harray
      · exact htarget
  | addressOf =>
    simp only [bind_iff, ensures_forest, ite_iff, ensures_refuse, pure_iff]
    refine ⟨fun _ => Refused.of_plain rfl, fun hplace => ?_⟩
    refine founded_of_single h hkind hp₁ ho ?_ ⟨by simpa using hplace, rfl⟩ hcast.supplied
    cases o <;> exact hshallow
  | step back prefixed =>
    simp only [bind_iff, ite_iff, ensures_refuse]
    refine ⟨fun _ => Refused.of_plain rfl, fun hscalar => ?_⟩
    refine (ensures_writable ho).imp ?_
    rintro _ _ ⟨rfl, rfl, hplace, harray, hconst⟩
    refine founded_of_single h hkind hp₁ ho hshallow ⟨hplace, ?_, hconst, rfl⟩ hcast.supplied
    simpa [harray] using hscalar

/-- A subscript is refused for its index at the subscript, with its operands resolved. -/
theorem Begun.refused_index (hraw : parsed.Raw) (h : Begun parsed state n)
    (hkind : state.forest.kind n = .subscript) {first second base index : NodeId} {b i element : Ty}
    {size : Nat} {value : Int} (hchildren : parsed.children n = [first, second])
    (hp : Progress parsed state state' n [base, index] []) (hb : state'.forest.type? base = some b)
    (helements : elements? b = some (element, some size))
    (hindex : state'.forest.Cast parsed second index i) (hintegral : i.isIntegral)
    (hvalue : state'.forest.Constant index value) (hout : ¬(0 ≤ value ∧ value < size)) :
    Refused parsed ⟨.indexOutOfRange value size, state.forest.line n⟩ state' := by
  have hfirst : first ∈ parsed.children n := by simp [hchildren]
  obtain ⟨constant, rfl⟩ : ∃ constant, b = .array element size constant := by
    cases b <;> simp_all [elements?]
  refine ⟨Fault.ordinary_of_cause (by simp), fun _ _ hcause => ?_⟩
  cases hcause
  refine ⟨n, index, (h.ready first hfirst).included.parent hraw.linked hfirst,
    (h.consistent.grown.line n h.lt_size).symm, hp.type_eq.trans h.untyped,
    ⟨h.kind_eq.symm.trans hkind, ⟨base, element, constant, ?_, hb⟩,
      ⟨index, second, i, ?_, .refl, ?_, hindex, hintegral⟩⟩, hvalue, hout⟩
  · rw [child?, hp.children_eq]
    rfl
  · rw [child?, hp.children_eq]
    rfl
  · rw [child?, hchildren]
    rfl

theorem ensures_subscript (hraw : parsed.Raw) (hinner : Resolves parsed inner levels)
    (hlevels : n ≤ levels) (h : Begun parsed state n) (hkind : state.forest.kind n = .subscript) :
    Ensures (subscript inner n) state (Refused parsed) fun type state' =>
      Founded parsed state state' n type := by
  have hholds := h.holds hraw
  rw [hkind] at hholds
  obtain ⟨first, second, hchildren, hfirst, hsecond⟩ := exists_pair hholds
  have hp := h.progress
  rw [hchildren] at hp
  have hchild : state.forest.child? n 0 = some first := by
    rw [child?, h.children_eq, hchildren]
    rfl
  simp only [subscript, bind_iff, ensures_forest, ensures_child hchild]
  refine (h.ensures_next hraw hinner hlevels hp hfirst).imp ?_
  rintro base state₁ ⟨hp₁, -, b, hbase₁⟩
  replace hp₁ : Progress parsed state state₁ n [base] [second] := hp₁
  have hb := hbase₁.type
  obtain ⟨hrole, htyped, -⟩ := hp₁.resolved base List.mem_cons_self
  have hshallow := (hp₁.consistent.typed base b hrole hb).shallow
  split
  · next name symbol hname =>
    simp only [bind_iff, ensures_typeOf hb]
    split
    · exact Refused.of_plain rfl
    · next element size helements =>
      have hchild₁ : state₁.forest.child? n 1 = some second := by
        rw [child?, hp₁.children_eq]
        rfl
      simp only [bind_iff, ensures_child hchild₁]
      refine (h.ensures_next hraw hinner hlevels hp₁ hsecond).imp ?_
      rintro index state₂ ⟨hp₂, hr₂, i, hindex₂⟩
      have hi := hindex₂.type
      -- An index in range remains to be converted.
      have hrest : i.isIntegral → IndexRule state₂.forest size index →
          Ensures (do let _ ← convert index .int; return element) state₂ (Refused parsed)
            fun type state' => Founded parsed state state' n type := by
        intro hintegral hrange
        simp only [bind_iff, pure_iff]
        refine (ensures_last _ hraw (gives_convert hraw shallow_int) h hp₂ hindex₂).imp ?_
        rintro index' state₃ ⟨hp₃, htype, hindex, hr₃⟩
        have hr := hr₂.trans hr₃
        have hagrees := hr base hrole htyped
        refine h.founded hp₃ (Ty.flat_of_elements? helements hshallow).shallow ?_ ?_
        · simp only [ExpressionRule, hp₃.kind_eq, hkind]
          refine ⟨base, index', b, size, hp₃.children_eq, ?_, hagrees.type_eq.trans hb, helements,
            htype⟩
          rw [hagrees.kind_eq, hname]
          rfl
        · simp only [OperandsRule, hp₃.kind_eq, hkind]
          refine ⟨base, index', first, second, base, index, b, i, element, size, hp₃.children_eq,
            helements, (hbase₁.mono fun m _ => hr m).supplied, hintegral, hindex, ?_⟩
          rintro m hm value ⟨signs, literal, hsigned, hvalue⟩
          -- Converting the index has left it as it is.
          refine hrange m hm value ⟨signs, literal, hsigned.mono fun m hm => ?_, hvalue⟩
          obtain ⟨hindexRole, hindexTyped, -⟩ :=
            hp₂.resolved index (List.mem_append_right _ List.mem_cons_self)
          obtain ⟨hrole', htyped'⟩ := hp₂.consistent.typed.of_below hp₂.consistent.grown hraw
            hindexRole hindexTyped hm
          have hm' := hr₃ m hrole' htyped'
          exact ⟨hm'.kind_eq.symm, hm'.children_eq.symm⟩
      simp only [bind_iff, ensures_typeOf hi, ite_iff, ensures_refuse, ensures_forest,
        pure_iff] at hrest ⊢
      refine ⟨fun _ => Refused.of_plain rfl, fun hintegral => ?_⟩
      replace hintegral : i.isIntegral := by simpa using hintegral
      have hconstant := constant?_eq_some_iff hp₂.consistent.grown.ranked index
      split
      · next _ value m hvalue =>
        simp only [ite_iff, ensures_refuse, bind_iff, pure_iff]
        refine ⟨fun hout => ?_, fun hin => hrest hintegral ?_⟩
        · exact h.refused_index hraw hkind hchildren hp₂
            ((hr₂ base hrole htyped).type_eq.trans hb) helements hindex₂ hintegral
            ((hconstant value).mp hvalue) fun hin => by simp [inRange, hin] at hout
        · intro m' hm' found hfound
          obtain rfl := Option.some.inj (hvalue.symm.trans ((hconstant found).mpr hfound))
          obtain rfl := Option.some.inj hm'
          simpa [inRange] using hin
      · next hnone =>
        simp only [bind_iff, pure_iff]
        refine hrest hintegral fun m hm value hvalue => ?_
        exact (hnone value m ((hconstant value).mpr hvalue) hm).elim
  · exact Refused.of_plain rfl

end Resolve

end MiniC
