import MiniC.Proofs.Alike.Forest

/-!
# Building alike

Steps of construction go along if the names and lines that they are given are alike. A fault of theirs
is not about a token, so where operands are missing the lines do not matter.
-/

namespace MiniC.Likeness

open Build

variable {L : Likeness} {line line' : Nat}

theorem builds_malformed {α : Type} {V : α → α → Prop} {message message' : String} :
    L.Builds V (throw (.malformed message line)) (throw (.malformed message' line')) :=
  .throw .malformed

theorem builds_push {k k' : Kind} (hkind : L.SameKind k k')
    (hline : k.isSilent = false → L.line line line') (children : List NodeId) :
    L.Builds Eq (push k line children) (push k' line' children) := by
  refine .modify fun builder builder' h => ?_
  have hid : (builder'.forest.add k' line').2 = (builder.forest.add k line).2 := h.forest.size
  have hadd := h.forest.add hkind line line'
  have hlined : L.Lined (builder.forest.add k line).1 (builder'.forest.add k' line').1 :=
    h.line.add h.forest.size hline
  simp only [hid, h.stack]
  generalize (builder.forest.add k line).2 = id
  generalize (builder.forest.add k line).1 = forest, (builder'.forest.add k' line').1 = forest'
    at hadd hlined
  suffices hlinked : L.SameForest (children.foldl (fun forest child => forest.append id child) forest)
      (children.foldl (fun forest child => forest.append id child) forest') ∧
      L.Lined (children.foldl (fun forest child => forest.append id child) forest)
      (children.foldl (fun forest child => forest.append id child) forest') from
    ⟨hlinked.1, rfl, hlinked.2⟩
  induction children generalizing forest forest' with
  | nil => exact ⟨hadd, hlined⟩
  | cons child children ih => exact ih _ _ (hadd.append id child) (hlined.append id child hadd.size)

/-- Adding a node that is neither named nor silent. -/
theorem builds_node {k : Kind} (hkind : k.isNamed = false) (hline : L.line line line')
    (children : List NodeId) : L.Builds Eq (push k line children) (push k line' children) :=
  builds_push (.other hkind) (fun _ => hline) children

theorem builds_setStack (stack : List NodeId) :
    L.Builds Eq (modify fun builder => { builder with stack }) (modify fun builder => { builder with stack }) :=
  .modify fun _ _ h => ⟨h.forest, rfl, h.line⟩

theorem builds_pop : L.Builds Eq (pop line) (pop line') := by
  refine Tracks.get.bind fun builder builder' h => ?_
  rw [h.stack]
  cases builder.stack with
  | nil => exact builds_malformed
  | cons id stack => exact (builds_setStack stack).next fun _ => .pure rfl

theorem builds_popMany (count : Nat) : L.Builds Eq (popMany count line) (popMany count line') := by
  refine Tracks.get.bind fun builder builder' h => ?_
  rw [h.stack]
  refine Tracks.when (V := Eq) (fun _ => builds_malformed) ?_
  refine Tracks.next ?_ fun _ => .pure rfl
  exact .modify fun _ _ h => ⟨h.forest, by rw [h.stack], h.line⟩

theorem builds_popType : L.Builds Eq (popType line) (popType line') := by
  refine builds_pop.next fun id => Tracks.get.bind fun builder builder' h => ?_
  have hkind := h.forest.kind id
  generalize builder.forest.kind id = k, builder'.forest.kind id = k' at hkind ⊢
  cases hkind with
  | @other k => cases k <;> first | exact .pure rfl | exact builds_malformed
  | _ => exact builds_malformed

theorem builds_updateType (id : NodeId) (change : TypePart → TypePart) :
    L.Builds Eq (updateType id change) (updateType id change) := by
  refine .modify fun builder builder' h => ?_
  have hkind := h.forest.kind id
  dsimp only
  generalize hk : builder.forest.kind id = k, builder'.forest.kind id = k' at hkind ⊢
  cases hkind with
  | @other k =>
    cases k with
    | type part =>
      refine ⟨h.forest.setKind id (.other rfl), h.stack, ?_⟩
      exact Lined.update h.line id h.forest.size (fun _ => rfl) (fun _ => rfl) fun _ =>
        h.line id (.inl (by rw [hk]; rfl))
    | _ => exact h
  | _ => exact h

theorem builds_popIf (present : Bool) : L.Builds Eq (popIf present line) (popIf present line') := by
  refine .ite (fun _ => builds_pop.next fun _ => .pure rfl) fun _ => .pure rfl

section Parts

variable (hline : L.line line line')
include hline

theorem builds_int (value : Int) : L.Builds Eq (int value line) (int value line') :=
  builds_node rfl hline _

theorem builds_char (value : Char) : L.Builds Eq (char value line) (char value line') :=
  builds_node rfl hline _

theorem builds_string (value : String) : L.Builds Eq (string value line) (string value line') :=
  builds_node rfl hline _

theorem builds_identifier {name name' : String} (hname : L.name name name') :
    L.Builds Eq (identifier name line) (identifier name' line') :=
  builds_push (.identifier hname _) (fun _ => hline) _

theorem builds_type (form : TypeForm) : L.Builds Eq (type form line) (type form line') :=
  builds_node rfl hline _

theorem builds_pointerType : L.Builds Eq (pointerType line) (pointerType line') :=
  builds_popType.next fun _ => builds_node rfl hline _

theorem builds_arrayType (size : Option Nat) : L.Builds Eq (arrayType size line) (arrayType size line') :=
  builds_popType.next fun _ => builds_node rfl hline _

theorem builds_binary (op : BinaryOp) : L.Builds Eq (binary op line) (binary op line') :=
  builds_pop.next fun _ => builds_pop.next fun _ => builds_node rfl hline _

theorem builds_unary (op : UnaryOp) : L.Builds Eq (unary op line) (unary op line') :=
  builds_pop.next fun _ => builds_node rfl hline _

theorem builds_subscript : L.Builds Eq (subscript line) (subscript line') :=
  builds_pop.next fun _ => builds_pop.next fun _ => builds_node rfl hline _

theorem builds_call {name name' : String} (hname : L.name name name') (count : Nat) :
    L.Builds Eq (call name count line) (call name' count line') :=
  (builds_popMany count).next fun _ => builds_push (.call hname _) (fun _ => hline) _

theorem builds_initializers (count : Nat) :
    L.Builds Eq (initializers count line) (initializers count line') :=
  (builds_popMany count).next fun _ => builds_node rfl hline _

theorem builds_declaration {name name' : String} (hname : L.name name name') (initialized : Bool) :
    L.Builds Eq (declaration name initialized line) (declaration name' initialized line') :=
  (builds_popIf initialized).next fun _ => builds_popType.next fun _ =>
    (builds_updateType _ _).next fun _ => builds_push (.declaration hname _) (fun _ => hline) _

theorem builds_parameter {name name' : String} (hname : L.name name name') :
    L.Builds Eq (parameter name line) (parameter name' line') :=
  builds_popType.next fun _ => (builds_updateType _ _).next fun _ =>
    builds_push (.parameter hname _) (fun _ => hline) _

theorem builds_parameters (count : Nat) : L.Builds Eq (parameters count line) (parameters count line') :=
  (builds_popMany count).next fun _ => builds_node rfl hline _

theorem builds_function {name name' : String} (hname : L.name name name') (defined : Bool) :
    L.Builds Eq (function name defined line) (function name' defined line') :=
  (builds_popIf defined).next fun _ => builds_pop.next fun _ => builds_popType.next fun _ =>
    (builds_updateType _ _).next fun _ => builds_push (.function hname _) (fun _ => hline) _

theorem builds_exprStatement : L.Builds Eq (exprStatement line) (exprStatement line') :=
  builds_pop.next fun _ => builds_node rfl hline _

theorem builds_block (count : Nat) : L.Builds Eq (block count line) (block count line') :=
  (builds_popMany count).next fun _ => builds_node rfl hline _

theorem builds_ifElse (hasElse : Bool) : L.Builds Eq (ifElse hasElse line) (ifElse hasElse line') :=
  (builds_popMany _).next fun _ => builds_node rfl hline _

theorem builds_whileLoop : L.Builds Eq (whileLoop line) (whileLoop line') :=
  (builds_popMany _).next fun _ => builds_node rfl hline _

theorem builds_forLoop : L.Builds Eq (forLoop line) (forLoop line') :=
  (builds_popMany _).next fun _ => builds_node rfl hline _

theorem builds_giveBack (hasValue : Bool) : L.Builds Eq (giveBack hasValue line) (giveBack hasValue line') :=
  (builds_popIf hasValue).next fun _ => builds_node rfl hline _

theorem builds_breakOut : L.Builds Eq (breakOut line) (breakOut line') := builds_node rfl hline _

theorem builds_continueOn : L.Builds Eq (continueOn line) (continueOn line') := builds_node rfl hline _

end Parts

theorem builds_const : L.Builds Eq (const line) (const line') := by
  refine builds_popType.next fun id => (builds_updateType id _).next fun _ => .modify fun _ _ h => ?_
  exact ⟨h.forest, by rw [h.stack], h.line⟩

theorem builds_nothing : L.Builds Eq (nothing line) (nothing line') := builds_push (.other rfl) (fun h => by cases h) _

theorem builds_cast : L.Builds Eq (cast line) (cast line') := by
  refine builds_pop.next fun expr => builds_popType.next fun id =>
    Tracks.get.bind fun builder builder' h => ?_
  rw [h.forest.typeOf?]
  cases builder.forest.typeOf? id with
  | none => exact builds_malformed
  | some type =>
    refine .modify fun builder builder' h => ⟨h.forest.addCast expr type, by rw [h.stack], ?_⟩
    exact Lined.update h.line expr h.forest.size (fun _ => rfl) (fun _ => rfl) (h.line expr)

theorem builds_file (count : Nat) : L.Builds Eq (file count line) (file count line') := by
  refine (builds_popMany count).next fun declarations =>
    (builds_push (.other rfl) (fun h => by cases h) declarations).next fun _ => .modify fun builder builder' h => ?_
  rw [h.stack]
  cases builder.stack with
  | nil => exact h
  | cons id stack => exact ⟨h.forest.setRoot id, rfl, h.line⟩

/-- Builders alike finish alike. -/
theorem agree_finish {builder builder' : Builder} (h : L.SameBuilder builder builder') :
    L.Agree (fun forest forest' => L.SameForest forest forest' ∧ L.Lined forest forest')
      builder.finish builder'.finish := by
  unfold Builder.finish
  rw [h.stack]
  cases hstack : builder.stack with
  | nil => exact .malformed
  | cons id stack =>
    cases stack with
    | cons => exact .malformed
    | nil =>
      have hkind := h.forest.kind id
      dsimp only
      generalize hk : builder.forest.kind id = k, builder'.forest.kind id = k' at hkind ⊢
      cases hkind with
      | @other k => cases k <;> first | exact .ok ⟨h.forest.setRoot id, h.line⟩ | exact .malformed
      | _ => exact .malformed

end MiniC.Likeness
