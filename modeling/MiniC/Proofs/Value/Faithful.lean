import MiniC.Proofs.Value.Simulation

/-!
# Code of expressions is faithful

Along the rules for the code of expressions, each piece of code leaves the value of its expression or
the address of its place, whatever it is nested in.
-/

namespace MiniC

open Machine Forest Emit

section

variable (layout : Layout) (root : NodeId) (live : Set Activation) (function : Option NodeId)
  (setting : Setting) (whereabouts : Whereabouts)

/-- Evaluation of expressions that nest at most `levels` deep. -/
abbrev evaluation (levels : Nat) : NodeId → Evaluate Int :=
  Evaluate.valueWithin layout.forest whereabouts setting.convert levels

/-- The code of a part runs as its evaluation does. -/
abbrev RunsAs (step : Evaluate Int) (code : Code) (keep : Bool) : Prop :=
  Runs setting (layout.data root live) (layout.hidden (function, setting.base)) step code keep

/-- The evaluation behind an expression whose value is not used. What writes does not keep it;
otherwise it is dropped into the result slot. -/
inductive Dropped (kind : Kind) (base value : Int) (finish : Evaluation) : Code → Evaluation → Prop
  | unkept {code : Code} (hwrites : kind.writes) : Dropped kind base value finish code finish
  | stored (front : Code) (tag : Tag) : Dropped kind base value finish (front ++ [.str tag 0 0])
      { finish with memory := finish.memory.store base value }

/-- The code of a part of an expression does what its evaluation does. -/
def Faithful : Part → Code → Prop
  | .value id, code => layout.forest.owningFunction id = function → layout.forest.Exact id →
    ∀ levels, layout.forest.weight id < levels →
      RunsAs layout root live function setting (evaluation layout setting whereabouts levels id) code true
  | .place id, code => layout.forest.owningFunction id = function → layout.forest.Exact id →
    ∀ levels, layout.forest.weight id ≤ levels →
      RunsAs layout root live function setting
        (Evaluate.place layout.forest whereabouts (evaluation layout setting whereabouts levels) id) code true
  | .effect id, code => layout.forest.owningFunction id = function → layout.forest.Exact id →
    (∀ type, layout.forest.type? id = some type → type.isVoid = false) →
    ∀ levels, layout.forest.weight id < levels → ∀ start, ∃ value finish finish',
      evaluation layout setting whereabouts levels id start = some (value, finish) ∧
        Dropped (layout.forest.kind id) setting.base value finish code finish' ∧
        Leaves setting (layout.data root live) (layout.hidden (function, setting.base)) code start
          finish' []
  | .arguments _, _ => True

end

section

open Evaluate (ask_some)

variable {layout : Layout} {root id : NodeId} {live : Set Activation} {function : Option NodeId}
  {setting : Setting} {whereabouts : Whereabouts} {resolution : Resolution} {part : Part} {code : Code}

/-- Code of what writes is faithful if it runs as its evaluation does, whether the value is kept or
not. -/
theorem Faithful.of_runs {keep : Bool} (hwrites : (layout.forest.kind id).writes)
    (h : layout.forest.owningFunction id = function → layout.forest.Exact id → ∀ levels,
      layout.forest.weight id ≤ levels → RunsAs layout root live function setting
        (evaluation layout setting whereabouts (levels + 1) id) code keep) :
    Faithful layout root live function setting whereabouts (.of keep id) code := by
  cases keep with
  | true =>
    intro howner hexact levels hlevels
    obtain ⟨levels, rfl⟩ : ∃ n, levels = n + 1 := ⟨levels - 1, by omega⟩
    exact h howner hexact levels (by omega)
  | false =>
    intro howner hexact _ levels hlevels start
    obtain ⟨levels, rfl⟩ : ∃ n, levels = n + 1 := ⟨levels - 1, by omega⟩
    obtain ⟨value, finish, hvalue, hcode⟩ := h howner hexact levels (by omega) start
    exact ⟨value, finish, finish, hvalue, .unkept hwrites, hcode⟩


/-- The code of the parts of an expression runs as their evaluation does. -/
theorem Faithful.of_mem {p c : NodeId} (h : Faithful layout root live function setting whereabouts (.value c) code)
    (hwhole : layout.forest.Whole root) (hkind : (layout.forest.kind p).isFunction = false)
    (hc : c ∈ layout.forest.children p) (howner : layout.forest.owningFunction p = function)
    (hexact : layout.forest.Exact p) {levels : Nat} (hlevels : layout.forest.weight p ≤ levels) :
    RunsAs layout root live function setting (evaluation layout setting whereabouts levels c) code true := by
  refine h ?_ (hexact.of_mem hc) levels (Nat.lt_of_lt_of_le (weight_lt hwhole.ranked hc) hlevels)
  rw [owningFunction_of_mem_children hwhole.linked hwhole.ranked hc, around_of_not_function hkind, howner]

/-- The code of the places in an expression runs as their evaluation does. -/
theorem Faithful.place_of_mem {p c : NodeId}
    (h : Faithful layout root live function setting whereabouts (.place c) code)
    (hwhole : layout.forest.Whole root) (hkind : (layout.forest.kind p).isFunction = false)
    (hc : c ∈ layout.forest.children p) (howner : layout.forest.owningFunction p = function)
    (hexact : layout.forest.Exact p) {levels : Nat} (hlevels : layout.forest.weight p ≤ levels) :
    RunsAs layout root live function setting
      (Evaluate.place layout.forest whereabouts (evaluation layout setting whereabouts levels) c) code true := by
  refine h ?_ (hexact.of_mem hc) levels ((weight_lt hwhole.ranked hc).le.trans hlevels)
  rw [owningFunction_of_mem_children hwhole.linked hwhole.ranked hc, around_of_not_function hkind, howner]

theorem Faithful.of_byKind (h : layout.forest.owningFunction id = function → layout.forest.Exact id →
      ∀ levels, layout.forest.weight id ≤ levels → RunsAs layout root live function setting
        (Evaluate.byKind layout.forest whereabouts setting.convert (evaluation layout setting whereabouts levels) id)
        code true) :
    Faithful layout root live function setting whereabouts (.value id) code := by
  intro howner hexact levels hlevels
  obtain ⟨levels, rfl⟩ : ∃ n, levels = n + 1 := ⟨levels - 1, by omega⟩
  exact h howner hexact levels (by omega)

variable {d : NodeId} {place : Place} {type : Ty}

/-- The value of a name is what its variable holds, or the address of an array. -/
theorem Evaluate.byKind_of_isIdentifier {forest : Forest} {convert : Tag → Tag → Int → Int}
    {inner : NodeId → Evaluate Int} (hname : (forest.kind id).isIdentifier)
    (htype : forest.type? id = some type) :
    byKind forest whereabouts convert inner id =
      if type.isArray then Evaluate.place forest whereabouts inner id
      else content forest whereabouts inner id := by
  cases hk : forest.kind id with
  | identifier => simp only [byKind, hk, htype, ask_some, pure_bind]
  | _ => simp [hk, Kind.isIdentifier] at hname

/-- A name stands for a cell that its code addresses. -/
theorem Laid.exists_cell (h : Laid root resolution layout)
    (hrunning : layout.Running root live function setting whereabouts)
    (hnames : Names layout root id d place type) (howner : layout.forest.owningFunction id = function)
    (inner : NodeId → Evaluate Int) :
    ∃ base, Evaluate.place layout.forest whereabouts inner id = Pure.pure (base + (place.slot : Int)) ∧
      setting.frame? place.depth = some base ∧
      (type.isArray = false → base + place.slot ∉ layout.hidden (function, setting.base)) := by
  obtain ⟨s, base, hs, hframe, hsymbol, hdata⟩ := h.whereabouts_of_names hrunning hnames howner
  refine ⟨base, ?_, hframe, fun harray => Set.disjoint_left.mp (h.disjoint_hidden hrunning) (hdata harray)⟩
  have hname := hnames.isIdentifier
  cases hk : layout.forest.kind id with
  | identifier name symbol =>
    obtain rfl : symbol = some s := by simpa [hk, Kind.symbol?] using hs
    simp only [Evaluate.place, hk, ask_some, pure_bind, hsymbol]
  | _ => simp [hk, Kind.isIdentifier] at hname

end

section

open Evaluate (ask_some)

variable {layout : Layout} {root : NodeId} {live : Set Activation} {function : Option NodeId}
  {setting : Setting} {whereabouts : Whereabouts} {resolution : Resolution} {part : Part} {code : Code}

/-- The code of every part of an expression is faithful. -/
theorem Laid.faithful (h : Laid root resolution layout)
    (hrunning : layout.Running root live function setting whereabouts) (htruthful : setting.Truthful)
    (hcoded : Coded layout root part code) :
    Faithful layout root live function setting whereabouts part code := by
  have hwhole := h.sound.whole
  have hdisjoint := h.disjoint_hidden hrunning
  induction hcoded with
  | int his =>
    refine .of_byKind fun _ _ levels _ => ?_
    simp only [Evaluate.byKind, his.kind_eq]
    exact .pure fun _ _ => rfl
  | char his =>
    refine .of_byKind fun _ _ levels _ => ?_
    simp only [Evaluate.byKind, his.kind_eq]
    exact .pure fun _ _ => rfl
  | @string id value slot depth his hdepth =>
    refine .of_byKind fun howner _ levels _ => ?_
    obtain ⟨base, hframe, -, -, hstring⟩ := hrunning.linked depth none (howner ▸ hdepth)
    have hpool : layout.pool? id = some slot := by
      rw [Layout.pool?, his.kind_eq]
      rfl
    simp only [Evaluate.byKind, his.kind_eq, hstring id slot rfl hpool]
    exact .pure fun _ _ => by simp [Instr.compute, hframe]
  | @scalar id d place type hnames harray =>
    refine .of_byKind fun howner _ levels _ => ?_
    obtain ⟨base, hplace, hframe, hvisible⟩ := h.exists_cell hrunning hnames howner
      (evaluation layout setting whereabouts levels)
    rw [Evaluate.byKind_of_isIdentifier hnames.isIdentifier hnames.type_eq, if_neg (by simp [harray])]
    exact .contentVariable hnames.isIdentifier hplace hframe rfl (hvisible harray) _
  | @array id d place type hnames harray =>
    refine .of_byKind fun howner _ levels _ => ?_
    obtain ⟨base, hplace, hframe, -⟩ := h.exists_cell hrunning hnames howner
      (evaluation layout setting whereabouts levels)
    rw [Evaluate.byKind_of_isIdentifier hnames.isIdentifier hnames.type_eq, if_pos harray, hplace]
    exact .pure fun _ _ => by simp [Instr.compute, hframe]
  | @call id s signature depth code hcalls =>
    intro _ hexact
    obtain ⟨name, hkind⟩ := hcalls.kind_eq
    have := hexact id .refl
    simp [hkind, Kind.isExact] at this
  | @assignVariable id target value d place type given code keep his hchildren hnames harray _ _ _ ih =>
    refine .of_runs (by rw [his.kind_eq]; rfl) fun howner hexact levels hlevels => ?_
    have htarget := his.owner_eq hwhole rfl howner (c := target) (by simp [hchildren])
    obtain ⟨base, hplace, hframe, -⟩ := h.exists_cell hrunning hnames htarget
      (evaluation layout setting whereabouts levels)
    have hvalue := ih.of_mem hwhole (by rw [his.kind_eq]; rfl) (by simp [hchildren]) howner hexact hlevels
    have heval : evaluation layout setting whereabouts (levels + 1) id =
        Evaluate.assign layout.forest whereabouts (evaluation layout setting whereabouts levels) target
          value := by
      simp [evaluation, Evaluate.valueWithin, Evaluate.byKind, his.kind_eq, Evaluate.binary, child?,
        hchildren]
    rw [heval]
    exact hvalue.assignVariable hnames.isIdentifier hplace hframe rfl _ keep
  | @assignAddress id target value type given scratch targetCode code keep his hchildren hname _ _ _ _
      hscratch _ _ ihplace ihvalue =>
    refine .of_runs (by rw [his.kind_eq]; rfl) fun howner hexact levels hlevels => ?_
    have hplace := ihplace.place_of_mem hwhole (by rw [his.kind_eq]; rfl) (by simp [hchildren]) howner
      hexact hlevels
    have hvalue := ihvalue.of_mem hwhole (by rw [his.kind_eq]; rfl) (by simp [hchildren]) howner hexact
      hlevels
    have heval : evaluation layout setting whereabouts (levels + 1) id =
        Evaluate.assign layout.forest whereabouts (evaluation layout setting whereabouts levels) target
          value := by
      simp [evaluation, Evaluate.valueWithin, Evaluate.byKind, his.kind_eq, Evaluate.binary, child?,
        hchildren]
    rw [heval]
    exact .assignAddress hdisjoint hname hplace hvalue _ keep fun hkeep =>
      ⟨scratch, howner ▸ hscratch hkeep, rfl⟩
  | @stepVariable id target d place type position direction keep his hchildren hnames hscalar =>
    refine .of_runs (by rw [his.kind_eq]; rfl) fun howner hexact levels hlevels => ?_
    have htarget := his.owner_eq hwhole rfl howner (c := target) (by simp [hchildren])
    obtain ⟨base, hplace, hframe, hvisible⟩ := h.exists_cell hrunning hnames htarget
      (evaluation layout setting whereabouts levels)
    have heval : evaluation layout setting whereabouts (levels + 1) id =
        Evaluate.step layout.forest whereabouts (evaluation layout setting whereabouts levels) target
          position direction := by
      simp [evaluation, Evaluate.valueWithin, Evaluate.byKind, his.kind_eq, Evaluate.unary, child?,
        hchildren]
    rw [heval]
    exact .stepVariable hnames.isIdentifier hplace hframe rfl
      (hvisible (Ty.not_array_of_isScalar hscalar)) _ keep position direction
  | @stepAddress id target type position direction scratch targetCode keep his hchildren hname _ _
      hscratch _ ih =>
    refine .of_runs (by rw [his.kind_eq]; rfl) fun howner hexact levels hlevels => ?_
    have hplace := ih.place_of_mem hwhole (by rw [his.kind_eq]; rfl) (by simp [hchildren]) howner hexact
      hlevels
    have heval : evaluation layout setting whereabouts (levels + 1) id =
        Evaluate.step layout.forest whereabouts (evaluation layout setting whereabouts levels) target
          position direction := by
      simp [evaluation, Evaluate.valueWithin, Evaluate.byKind, his.kind_eq, Evaluate.unary, child?,
        hchildren]
    rw [heval]
    exact .stepAddress hdisjoint hname hplace _ keep ⟨scratch, howner ▸ hscratch, rfl⟩ position direction
  | @remainder id _ _ _ _ _ his =>
    intro _ hexact
    have := hexact id .refl
    simp [his.kind_eq, Kind.isExact] at this
  | @logic id left right op leftCode rightCode his hchildren _ _ _ _ ihleft ihright =>
    refine .of_byKind fun howner hexact levels hlevels => ?_
    have hleft := ihleft.of_mem hwhole (by rw [his.kind_eq]; rfl) (by simp [hchildren]) howner hexact hlevels
    have hright := ihright.of_mem hwhole (by rw [his.kind_eq]; rfl) (by simp [hchildren]) howner hexact
      hlevels
    simp only [Evaluate.byKind, his.kind_eq, Evaluate.binary, child?, hchildren,
      List.getElem?_cons_zero, List.getElem?_cons_succ, ask_some, pure_bind]
    have htest : Runs setting _ _ _ (leftCode ++ [.conv .int .bool]) true :=
      hleft.map (fun value => truth (value ≠ 0)) fun value _ _ => by
        simp [Instr.compute, htruthful.int_bool]
    have hboth := htest.map₂ hright (fun left right => truth (op.holds (left ≠ 0) (right ≠ 0)))
      [.conv .int .bool, .logic op, .conv .bool .int] fun left right _ _ => by
        simp [Instr.compute, htruthful.int_bool, htruthful.bool_int, truth_eq_zero]
    simpa only [bind_assoc, pure_bind, truth_ne_zero] using hboth
  | @compare id left right op l r leftCode rightCode his hchildren _ _ _ _ _ _ ihleft ihright =>
    refine .of_byKind fun howner hexact levels hlevels => ?_
    have hleft := ihleft.of_mem hwhole (by rw [his.kind_eq]; rfl) (by simp [hchildren]) howner hexact hlevels
    have hright := ihright.of_mem hwhole (by rw [his.kind_eq]; rfl) (by simp [hchildren]) howner hexact
      hlevels
    simp only [Evaluate.byKind, his.kind_eq, Evaluate.binary, child?, hchildren,
      List.getElem?_cons_zero, List.getElem?_cons_succ, ask_some, pure_bind]
    exact hleft.map₂ hright (fun left right => truth (op.holds left right)) _ fun left right _ _ => by
      simp [Instr.compute, htruthful.bool_int]
  | @arith id left right op type l r leftCode rightCode his hchildren _ _ _ _ _ _ _ ihleft ihright =>
    refine .of_byKind fun howner hexact levels hlevels => ?_
    have hleft := ihleft.of_mem hwhole (by rw [his.kind_eq]; rfl) (by simp [hchildren]) howner hexact hlevels
    have hright := ihright.of_mem hwhole (by rw [his.kind_eq]; rfl) (by simp [hchildren]) howner hexact
      hlevels
    simp only [Evaluate.byKind, his.kind_eq, Evaluate.binary, child?, hchildren,
      List.getElem?_cons_zero, List.getElem?_cons_succ, ask_some, pure_bind]
    cases op with
    | add => exact hleft.map₂ hright (· + ·) _ fun _ _ _ _ => rfl
    | sub => exact hleft.map₂ hright (· - ·) _ fun _ _ _ _ => rfl
    | mul => exact hleft.map₂ hright (· * ·) _ fun _ _ _ _ => rfl
    | div =>
      have := hexact id .refl
      simp [his.kind_eq, Kind.isExact] at this
  | @negate id operand o code his hchildren _ _ _ ih =>
    refine .of_byKind fun howner hexact levels hlevels => ?_
    have hoperand := ih.of_mem hwhole (by rw [his.kind_eq]; rfl) (by simp [hchildren]) howner hexact hlevels
    simp only [Evaluate.byKind, his.kind_eq, Evaluate.unary, child?, hchildren, List.getElem?_cons_zero,
      ask_some, pure_bind]
    exact hoperand.map (- ·) fun _ _ _ => rfl
  | @not id operand code his hchildren _ _ ih =>
    refine .of_byKind fun howner hexact levels hlevels => ?_
    have hoperand := ih.of_mem hwhole (by rw [his.kind_eq]; rfl) (by simp [hchildren]) howner hexact hlevels
    simp only [Evaluate.byKind, his.kind_eq, Evaluate.unary, child?, hchildren, List.getElem?_cons_zero,
      ask_some, pure_bind]
    refine hoperand.map (fun value => truth (value = 0)) fun value _ _ => ?_
    simp [Instr.compute, htruthful.int_bool, htruthful.bool_int, truth_eq_zero]
  | @deref id type code his _ hplace ih =>
    refine .of_byKind fun howner hexact levels hlevels => ?_
    have hholds := hwhole.shaped id
    rw [his.kind_eq] at hholds
    obtain ⟨operand, hchildren, -⟩ := List.map_eq_singleton_iff.mp hholds
    have hoperand : layout.forest.child? id 0 = some operand := by simp [child?, hchildren]
    simp only [Evaluate.byKind, his.kind_eq, Evaluate.unary, hoperand, ask_some, pure_bind]
    exact (ih howner hexact levels hlevels).content hdisjoint (by rw [his.kind_eq]; rfl) _
  | @addressOf id operand o code his hchildren _ _ ih =>
    refine .of_byKind fun howner hexact levels hlevels => ?_
    have hoperand := ih.place_of_mem hwhole (by rw [his.kind_eq]; rfl) (by simp [hchildren]) howner hexact
      hlevels
    simpa only [Evaluate.byKind, his.kind_eq, Evaluate.unary, child?, hchildren, List.getElem?_cons_zero,
      ask_some, pure_bind] using hoperand
  | @subscript id type code his _ _ ih =>
    refine .of_byKind fun howner hexact levels hlevels => ?_
    simp only [Evaluate.byKind, his.kind_eq]
    exact (ih howner hexact levels hlevels).content hdisjoint (by rw [his.kind_eq]; rfl) _
  | @conversion id inner change code his hchildren _ _ _ ih =>
    refine .of_byKind fun howner hexact levels hlevels => ?_
    have hinner := ih.of_mem hwhole (by rw [his.kind_eq]; rfl) (by simp [hchildren]) howner hexact hlevels
    simp only [Evaluate.byKind, his.kind_eq, child?, hchildren, List.getElem?_cons_zero, ask_some, pure_bind]
    refine hinner.map (fun value => (change.coercion.map fun tags =>
      setting.convert tags.1 tags.2 value).getD value) fun value _ _ => ?_
    cases change.coercion <;> rfl
  | @named id d place type hnames =>
    intro howner _ levels _
    obtain ⟨base, hplace, hframe, -⟩ := h.exists_cell hrunning hnames howner
      (evaluation layout setting whereabouts levels)
    rw [hplace]
    exact .pure fun _ _ => by simp [Instr.compute, hframe]
  | @element id base index type b size baseCode indexCode his hchildren _ _ _ _ _ ihbase ihindex =>
    intro howner hexact levels hlevels
    have hbase := ihbase.of_mem hwhole (by rw [his.kind_eq]; rfl) (by simp [hchildren]) howner hexact hlevels
    have hindex := ihindex.of_mem hwhole (by rw [his.kind_eq]; rfl) (by simp [hchildren]) howner hexact
      hlevels
    simp only [Evaluate.place, his.kind_eq, child?, hchildren, List.getElem?_cons_zero,
      List.getElem?_cons_succ, ask_some, pure_bind, his.type_eq]
    exact hbase.map₂ hindex (fun address number => address + number * type.slots) _ fun _ _ _ _ => rfl
  | @pointee id operand type o code his hchildren _ _ _ ih =>
    intro howner hexact levels hlevels
    have hoperand := ih.of_mem hwhole (by rw [his.kind_eq]; rfl) (by simp [hchildren]) howner hexact hlevels
    simpa only [Evaluate.place, his.kind_eq, child?, hchildren, List.getElem?_cons_zero, ask_some,
      pure_bind] using hoperand
  | @drop id type code _ htype hvoid hvalue ih =>
    intro howner hexact _ levels hlevels start
    obtain ⟨value, finish, hvalue, hcode⟩ := ih howner hexact levels hlevels start
    refine ⟨value, finish, _, hvalue, .stored code _, hcode.extend (List.Subset.refl _)
      fun _ stack memory hmemory => ⟨memory.store setting.base value, ?_, Memory.store_congr hmemory⟩⟩
    simp [Instr.compute]
  | @run id type _ _ htype hvoid _ _ =>
    intro _ _ hnot
    simp [hnot type htype] at hvoid
  | nil => trivial
  | cons => trivial

end

end MiniC
