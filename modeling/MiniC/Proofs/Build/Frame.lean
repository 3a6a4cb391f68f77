import MiniC.Proofs.Build.Trees

/-!
# Construction above other operands

A step of construction neither looks at nor changes what lies below the operands that it takes. So what
a builder does from nothing it does in the same way above any other builder, whatever that one holds:
`Builder.extend` puts the nodes and operands of the one above those of the other, with the numbers of the
new nodes moved up, and every step goes along with that.
-/

namespace MiniC

/-- A node with the numbers of other nodes moved up by `count`. -/
def Node.shift (count : Nat) (node : Node) : Node :=
  { node with
    parent := node.parent.map (· + count)
    children := node.children.map (· + count)
    function := node.function.map (· + count) }

namespace Forest

variable {base more : Forest} {id : NodeId}

/-- The nodes of `more` behind those of `base`. -/
def extend (base more : Forest) : Forest :=
  { nodes := base.nodes ++ more.nodes.map (Node.shift base.size)
    root := (more.root.map (· + base.size)).or base.root }

@[simp] theorem size_extend (base more : Forest) : (base.extend more).size = base.size + more.size := by
  simp [size, extend]

@[simp] theorem node_extend (base more : Forest) (id : NodeId) :
    (base.extend more).node (id + base.size) = (more.node id).shift base.size := by
  have hle : base.nodes.size ≤ id + base.nodes.size := Nat.le_add_left _ _
  simp only [node, extend, size, Array.getElem?_append_right hle, Nat.add_sub_cancel, Array.getElem?_map]
  cases more.nodes[id]? <;> rfl

theorem node_extend_of_lt {id : Nat} (h : id < base.size) :
    (base.extend more).node id = base.node id := by
  simp only [node, extend, Array.getElem?_append_left h]

@[simp] theorem kind_extend (base more : Forest) (id : NodeId) :
    (base.extend more).kind (id + base.size) = more.kind id := by
  rw [kind, node_extend]
  rfl

@[simp] theorem children_extend (base more : Forest) (id : NodeId) :
    (base.extend more).children (id + base.size) = (more.children id).map (· + base.size) := by
  rw [children, node_extend]
  rfl

/-- A change of a new node is made there. -/
theorem update_extend (id : Nat) {change change' : Node → Node}
    (h : ∀ node, change' (node.shift base.size) = (change node).shift base.size) :
    (base.extend more).update (id + base.size) change' = base.extend (more.update id change) := by
  have hsize : base.size = base.nodes.size := rfl
  simp only [update, extend]
  refine congrArg (Forest.mk · _) (Array.ext_getElem? fun i => ?_)
  rw [Array.getElem?_modify]
  by_cases hi : i < base.nodes.size
  · have hne : id + base.size ≠ i := by omega
    rw [if_neg hne, Array.getElem?_append_left hi, Array.getElem?_append_left hi]
  · obtain ⟨j, rfl⟩ := Nat.exists_eq_add_of_le (Nat.le_of_not_lt hi)
    rw [Array.getElem?_append_right (Nat.le_add_right _ _), Array.getElem?_append_right (Nat.le_add_right _ _),
      Nat.add_sub_cancel_left, Array.getElem?_map, Array.getElem?_map, Array.getElem?_modify]
    by_cases hj : id = j
    · subst hj
      rw [if_pos (by omega), if_pos rfl]
      cases more.nodes[id]? with
      | none => rfl
      | some node => exact congrArg some (h node)
    · rw [if_neg (by omega), if_neg hj]

theorem append_extend (parent child : NodeId) :
    (base.extend more).append (parent + base.size) (child + base.size) =
      base.extend (more.append parent child) := by
  have hchild : (base.extend more).update (child + base.size)
      (fun node => { node with parent := some (parent + base.size) }) =
        base.extend (more.update child fun node => { node with parent := some parent }) :=
    update_extend child fun _ => rfl
  rw [append, hchild]
  exact update_extend parent fun node => by simp [Node.shift]

theorem link_extend (id : NodeId) (children : List NodeId) :
    (base.extend more).link (id + base.size) (children.map (· + base.size)) =
      base.extend (more.link id children) := by
  induction children generalizing more with
  | nil => rfl
  | cons child children ih =>
    show ((base.extend more).append (id + base.size) (child + base.size)).link _ _ = _
    rw [append_extend, ih]
    rfl

theorem adopt_extend (kind : Kind) (line : Nat) (children : List NodeId) :
    (base.extend more).adopt kind line (children.map (· + base.size)) =
      base.extend (more.adopt kind line children) := by
  have hadd : ((base.extend more).add kind line).1 = base.extend (more.add kind line).1 := by
    simp only [add, extend, Array.map_push, Array.append_push]
    rfl
  rw [adopt, adopt, hadd, size_extend, Nat.add_comm base.size, link_extend]

/-- A written type is the same type above. -/
theorem typeWithin_extend (levels : Nat) (id : NodeId) :
    (base.extend more).typeWithin levels (id + base.size) = more.typeWithin levels id := by
  induction levels generalizing id with
  | zero => rfl
  | succ levels ih =>
    have hchild : (base.extend more).child? (id + base.size) 0 =
        (more.child? id 0).map (· + base.size) := by
      rw [child?, children_extend, List.getElem?_map, child?]
    simp only [typeWithin, kind_extend, hchild]
    cases more.child? id 0 with
    | none => rfl
    | some c => simp [ih]

/-- A type that has been found is found with more levels as well. -/
theorem typeWithin_mono {levels levels' : Nat} {type : Ty} (hle : levels ≤ levels')
    (h : more.typeWithin levels id = some type) : more.typeWithin levels' id = some type := by
  induction levels generalizing levels' id type with
  | zero => cases h
  | succ levels ih =>
    obtain ⟨levels', rfl⟩ := Nat.exists_eq_succ_of_ne_zero (Nat.ne_zero_of_lt hle)
    have hbelow : ∀ {c : NodeId} {part : Ty}, more.typeWithin levels c = some part →
        more.typeWithin levels' c = some part := ih (Nat.le_of_succ_le_succ hle)
    simp only [typeWithin] at h ⊢
    split at h
    · split at h
      · exact h
      · cases hc : more.child? id 0 with
        | none => simp [hc] at h
        | some c =>
          cases ht : more.typeWithin levels c with
          | none => simp [hc, ht] at h
          | some target => simpa [hc, ht, hbelow ht] using h
      · cases hc : more.child? id 0 with
        | none => simp [hc] at h
        | some c =>
          cases ht : more.typeWithin levels c with
          | none => simp [hc, ht] at h
          | some target => simpa [hc, ht, hbelow ht] using h
    · cases h

theorem typeOf_extend {type : Ty} (h : more.typeOf? id = some type) :
    (base.extend more).typeOf? (id + base.size) = some type := by
  rw [typeOf?, typeWithin_extend, size_extend]
  exact typeWithin_mono (by omega) h

/-- A tree says the same above. -/
theorem map_treeWithin_extend (levels : Nat) (id : NodeId) :
    ((base.extend more).treeWithin levels (id + base.size)).map Entry.content =
      (more.treeWithin levels id).map Entry.content := by
  have hcontent : ∀ id : NodeId,
      ((base.extend more).entry (id + base.size)).content = (more.entry id).content := by
    intro id
    simp only [entry, Entry.content, kind_extend, node_extend]
    rfl
  induction levels generalizing id with
  | zero => rw [treeWithin, treeWithin, Rose.map_node, Rose.map_node, hcontent, List.map_nil]
  | succ levels ih =>
    rw [treeWithin, treeWithin, Rose.map_node, Rose.map_node, hcontent, children_extend, List.map_map,
      List.map_map, List.map_map]
    exact congrArg _ (List.map_congr_left fun c _ => ih c)

theorem contents_extend (hr : more.Ranked) (id : NodeId) :
    (base.extend more).contents (id + base.size) = more.contents id := by
  have hlevels : ∀ levels, more.treeWithin (levels + more.size) id = more.tree id := by
    intro levels
    induction levels with
    | zero => rw [Nat.zero_add, tree]
    | succ levels ih =>
      rw [Nat.succ_add, treeWithin_succ hr ((weight_le more id).trans (Nat.le_add_left _ _)), ih]
  rw [contents, tree, size_extend, map_treeWithin_extend, hlevels, contents]

end Forest

/-- What `more` has built and has in hand, above what `base` has. -/
def Builder.extend (base more : Builder) : Builder :=
  { forest := base.forest.extend more.forest
    stack := more.stack.map (· + base.forest.size) ++ base.stack }

/-- Nothing above a builder. -/
theorem Builder.extend_empty (base : Builder) : base.extend {} = base := by
  obtain ⟨⟨nodes, root⟩, stack⟩ := base
  simp [extend, Forest.extend]

/-- A builder above nothing. -/
theorem Builder.empty_extend (more : Builder) : ({} : Builder).extend more = more := by
  obtain ⟨⟨nodes, root⟩, stack⟩ := more
  have hshift : Node.shift 0 = id := funext fun node => by simp [Node.shift]
  simp [extend, Forest.extend, Forest.size, hshift]

namespace Build

variable {α β γ δ : Type} {base : Builder} {move : α → β} {move' : γ → δ} {line : Nat}

/-- What `step` does from nothing, `step'` does above `base`. The result is moved. -/
def Lifts (base : Builder) (move : α → β) (step : Build α) (step' : Build β) : Prop :=
  ∀ ⦃more more' : Builder⦄ ⦃value : α⦄, step more = .ok value more' →
    step' (base.extend more) = .ok (move value) (base.extend more')

/-- The number of a node above `base`. -/
abbrev moved (base : Builder) (id : NodeId) : NodeId := id + base.forest.size

namespace Lifts

theorem pure (value : α) : Lifts base move (Pure.pure value) (Pure.pure (move value)) := by
  rintro more _ _ ⟨⟩
  rfl

theorem bind {step : Build α} {step' : Build β} {next : α → Build γ} {next' : β → Build δ}
    (h : Lifts base move step step') (hnext : ∀ value, Lifts base move' (next value) (next' (move value))) :
    Lifts base move' (step >>= next) (step' >>= next') := by
  intro more more' value hrun
  simp only [Bind.bind, EStateM.bind] at hrun ⊢
  cases hstep : step more with
  | error fault more₁ => simp [hstep] at hrun
  | ok result more₁ =>
    rw [hstep] at hrun
    rw [h hstep]
    exact hnext result hrun

theorem modify {change change' : Builder → Builder}
    (h : ∀ more, change' (base.extend more) = base.extend (change more)) :
    Lifts base id (modify change) (modify change') := by
  rintro more _ _ ⟨⟩
  exact congrArg (EStateM.Result.ok ()) (h more)

theorem pop : Lifts base (moved base) (pop line) (pop line) := by
  rintro ⟨forest, _ | ⟨id, stack⟩⟩ more' value hrun
  · cases hrun
  · cases hrun
    rfl

theorem popMany (count : Nat) :
    Lifts base (List.map (moved base)) (popMany count line) (popMany count line) := by
  rintro ⟨forest, stack⟩ more' value hrun
  have hcases : ∀ builder : Builder, Build.popMany count line builder =
      if builder.stack.length < count then
        .error (.malformed s!"expected {count} operands, found {builder.stack.length}" line) builder
      else .ok (builder.stack.take count).reverse { builder with stack := builder.stack.drop count } := by
    intro builder
    change (if builder.stack.length < count then _ else _ : Build (List NodeId)) builder = _
    split <;> rfl
  rw [hcases] at hrun ⊢
  split at hrun
  · cases hrun
  · next henough =>
    cases hrun
    have hle : count ≤ stack.length := Nat.le_of_not_lt henough
    have hle' : count ≤ (stack.map (moved base)).length := by simpa using hle
    rw [if_neg (by simp [Builder.extend]; omega)]
    simp only [Builder.extend, List.take_append_of_le_length hle', List.drop_append_of_le_length hle',
      List.map_reverse, List.map_take, List.map_drop]

/-- Looking at the builder. -/
theorem look {next : Builder → Build α} {next' : Builder → Build β}
    (h : ∀ more, Lifts base move (next more) (next' (base.extend more))) :
    Lifts base move (MonadState.get >>= next) (MonadState.get >>= next') :=
  fun more _ _ hrun => h more hrun

/-- A step that is refused. -/
theorem refused {fault : Fault} {step' : Build β} : Lifts base move (throw fault) step' := nofun

theorem popType : Lifts base (moved base) (popType line) (popType line) := by
  refine pop.bind fun id => look fun more => ?_
  have hkind : (base.extend more).forest.kind (moved base id) = more.forest.kind id :=
    Forest.kind_extend ..
  rw [hkind]
  cases more.forest.kind id with
  | type part => exact .pure id
  | _ => exact refused

theorem popIf (present : Bool) :
    Lifts base (List.map (moved base)) (popIf present line) (popIf present line) := by
  cases present with
  | false => exact .pure []
  | true => exact pop.bind fun id => .pure [id]

theorem push (kind : Kind) (children : List NodeId) :
    Lifts base id (push kind line children) (push kind line (children.map (moved base))) := by
  refine modify fun ⟨forest, stack⟩ => ?_
  have hadopt : (base.forest.extend forest).adopt kind line (children.map (moved base)) =
      base.forest.extend (forest.adopt kind line children) := Forest.adopt_extend kind line children
  refine congrArg₂ Builder.mk hadopt ?_
  show (base.forest.extend forest).size :: _ = (forest.size + base.forest.size) :: _
  rw [Forest.size_extend, Nat.add_comm]
  rfl

theorem updateType (written : NodeId) (change : TypePart → TypePart) :
    Lifts base id (updateType written change) (updateType (moved base written) change) := by
  refine modify fun ⟨forest, stack⟩ => ?_
  have hkind : (base.extend ⟨forest, stack⟩).forest.kind (moved base written) = forest.kind written :=
    Forest.kind_extend ..
  dsimp only at hkind ⊢
  rw [hkind]
  cases forest.kind written with
  | type part =>
    exact congrArg (Builder.mk · _) (Forest.update_extend written fun _ => rfl)
  | _ => rfl

theorem markTopLevel (written : NodeId) :
    Lifts base id (markTopLevel written) (markTopLevel (moved base written)) := updateType written _

end Lifts

/-- A step that does the same above any builder. -/
def Frames (step : Build Unit) : Prop := ∀ base, Lifts base id step step

theorem frames_push (kind : Kind) : Frames (push kind line []) := fun _ => .push kind []

theorem frames_const : Frames (const line) := fun _ =>
  Lifts.popType.bind fun written => (Lifts.updateType written _).bind fun _ => .modify fun _ => rfl

theorem frames_pointerType : Frames (pointerType line) := fun _ =>
  Lifts.popType.bind fun target => .push _ [target]

theorem frames_arrayType (size : Option Nat) : Frames (arrayType size line) := fun _ =>
  Lifts.popType.bind fun element => .push _ [element]

theorem frames_binary (op : BinaryOp) : Frames (binary op line) := fun _ =>
  Lifts.pop.bind fun right => Lifts.pop.bind fun left => .push _ [left, right]

theorem frames_unary (op : UnaryOp) : Frames (unary op line) := fun _ =>
  Lifts.pop.bind fun operand => .push _ [operand]

theorem frames_subscript : Frames (subscript line) := fun _ =>
  Lifts.pop.bind fun index => Lifts.pop.bind fun array => .push _ [array, index]

theorem frames_cast : Frames (cast line) := by
  refine fun base => Lifts.pop.bind fun expr => Lifts.popType.bind fun written => .look fun more => ?_
  cases htype : more.forest.typeOf? written with
  | none => exact .refused
  | some type =>
    have habove : (base.extend more).forest.typeOf? (moved base written) = some type :=
      Forest.typeOf_extend htype
    rw [habove]
    refine .modify fun more => ?_
    have hcast : (base.extend more).forest.addCast (moved base expr) type =
        base.forest.extend (more.forest.addCast expr type) := Forest.update_extend expr fun _ => rfl
    rw [hcast]
    rfl

/-- A node above the `count` top operands. -/
theorem frames_many (kind : Kind) (count : Nat) :
    Frames (do let parts ← popMany count line; push kind line parts) := fun _ =>
  (Lifts.popMany count).bind fun parts => .push kind parts

theorem frames_declaration (name : String) (initialized : Bool) :
    Frames (declaration name initialized line) := fun _ =>
  (Lifts.popIf initialized).bind fun initial => Lifts.popType.bind fun type =>
    (Lifts.markTopLevel type).bind fun _ => .push _ (type :: initial)

theorem frames_parameter (name : String) : Frames (parameter name line) := fun _ =>
  Lifts.popType.bind fun type => (Lifts.markTopLevel type).bind fun _ => .push _ [type]

theorem frames_function (name : String) (defined : Bool) : Frames (function name defined line) := fun _ =>
  (Lifts.popIf defined).bind fun body => Lifts.pop.bind fun params => Lifts.popType.bind fun result =>
    (Lifts.markTopLevel result).bind fun _ => .push _ (result :: params :: body)

theorem frames_exprStatement : Frames (exprStatement line) := fun _ =>
  Lifts.pop.bind fun expr => .push _ [expr]

theorem frames_giveBack (hasValue : Bool) : Frames (giveBack hasValue line) := fun _ =>
  (Lifts.popIf hasValue).bind fun value => .push _ value

end Build

end MiniC
