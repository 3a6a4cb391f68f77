import MiniC.Proofs.Build.Adopt
import MiniC.Proofs.Ensures

/-!
# Steps of construction

`Builder.Since` says what a builder has done since it was another one: it has added nodes and put
operands of known roles above the old ones, and the old nodes are as they were. Every step `Turns`
the roles of some operands on top into those of what it leaves, and is not refused.
-/

namespace MiniC

namespace Forest

variable {forest other : Forest}

/-- A change that leaves links and roles alone leaves a forest raw. -/
theorem Raw.of_same (h : forest.Raw) (hchildren : ∀ m, other.children m = forest.children m)
    (hparent : ∀ m, other.parent m = forest.parent m) (hrole : ∀ m, other.role m = forest.role m)
    (hholds : ∀ m roles, (forest.kind m).Holds roles → (other.kind m).Holds roles)
    (hfresh : ∀ m, (other.node m).Fresh)
    (hcasts : ∀ m, ∀ type ∈ (other.node m).casts, type.Flat) : other.Raw := by
  refine ⟨⟨?_, ?_, ?_⟩, ?_, hfresh, ?_, hcasts⟩
  · intro p c hc
    rw [hparent]
    exact h.linked.parent_of_mem (hchildren p ▸ hc)
  · intro p c hc
    rw [hchildren]
    exact h.linked.mem_of_parent (hparent c ▸ hc)
  · intro p
    rw [hchildren]
    exact h.linked.nodup p
  · intro p c hc
    exact h.rising (hchildren p ▸ hc)
  · intro m
    rw [roles, hchildren, List.map_congr_left fun c _ => hrole c]
    exact hholds m _ (h.shaped m)

section SetType

variable {id : Nat} {part changed : TypePart}

theorem role_setKind_type (hid : id < forest.size) (hkind : forest.kind id = .type part)
    (hform : changed.form = part.form) (m : NodeId) :
    (forest.setKind id (.type changed)).role m = forest.role m := by
  simp only [kind] at hkind
  simp only [role, kind, setKind, node_update forest id m _ hid]
  split
  · next hm => simp [hm, hkind, Kind.role, hform]
  · rfl

/-- Marking a part of a written type leaves a forest raw. -/
theorem raw_setKind_type (h : forest.Raw) (hid : id < forest.size)
    (hkind : forest.kind id = .type part) (hform : changed.form = part.form) :
    (forest.setKind id (.type changed)).Raw := by
  have hnode : ∀ m, (forest.setKind id (.type changed)).node m =
      if m = id then { forest.node id with kind := .type changed } else forest.node m :=
    fun m => node_update forest id m _ hid
  refine h.of_same ?_ ?_ (role_setKind_type hid hkind hform) ?_ ?_ ?_
  · intro m
    simp only [children, hnode]
    split <;> simp [*]
  · intro m
    simp only [parent, hnode]
    split <;> simp [*]
  · intro m roles hholds
    rw [kind, hnode]
    split
    · next hm =>
      rw [hm, hkind] at hholds
      simpa [Kind.Holds, hform] using hholds
    · exact hholds
  · intro m
    have hfresh := h.fresh m
    rw [hnode]
    split
    · next hm =>
      subst hm
      exact ⟨trivial, hfresh.scope, hfresh.function, hfresh.type⟩
    · exact hfresh
  · intro m
    have hcasts := h.casts m
    rw [hnode]
    split
    · next hm => exact hm ▸ hcasts
    · exact hcasts

end SetType

section AddCast

variable {id : Nat} {type : Ty}

theorem kind_addCast (hid : id < forest.size) (m : NodeId) :
    (forest.addCast id type).kind m = forest.kind m := by
  simp only [kind, addCast, node_update forest id m _ hid]
  split <;> simp [*]

/-- A cast to a type that is no array leaves a forest raw. -/
theorem raw_addCast (h : forest.Raw) (hid : id < forest.size) (htype : type.Flat) :
    (forest.addCast id type).Raw := by
  have hnode : ∀ m, (forest.addCast id type).node m =
      if m = id then { forest.node id with casts := (forest.node id).casts ++ [type] }
      else forest.node m := fun m => node_update forest id m _ hid
  refine h.of_same ?_ ?_ ?_ ?_ ?_ ?_
  · intro m
    simp only [children, hnode]
    split <;> simp [*]
  · intro m
    simp only [parent, hnode]
    split <;> simp [*]
  · intro m
    rw [role, role, kind_addCast hid]
  · intro m roles hholds
    rwa [kind_addCast hid]
  · intro m
    have hfresh := h.fresh m
    rw [hnode]
    split
    · next hm =>
      subst hm
      exact ⟨hfresh.kind, hfresh.scope, hfresh.function, hfresh.type⟩
    · exact hfresh
  · intro m written hwritten
    rw [hnode] at hwritten
    split at hwritten
    · rcases List.mem_append.mp hwritten with hold | hnew
      · exact h.casts id written hold
      · exact List.mem_singleton.mp hnew ▸ htype
    · exact h.casts m written hwritten

end AddCast

end Forest

/-- What a builder has done since it was `base`: operands of some `roles` are on top of the old
ones, some have been taken and are `held`, and the old nodes are as they were. -/
structure Builder.Since (base builder : Builder) (held : List NodeId) (roles : List Role) :
    Prop where
  raw : builder.forest.Raw
  free : builder.forest.Free (held ++ builder.stack)
  size_le : base.forest.size ≤ builder.forest.size
  untouched : ∀ id : Nat, id < base.forest.size → builder.forest.node id = base.forest.node id
  held_new : ∀ id : Nat, id ∈ held → base.forest.size ≤ id
  stack : ∃ ids, builder.stack = ids ++ base.stack ∧ ids.map builder.forest.role = roles ∧
    ∀ id : Nat, id ∈ ids → base.forest.size ≤ id

namespace Build

open Ensures

variable {base builder : Builder} {held : List NodeId} {role : Role} {roles rest : List Role}
  {line : Nat}

theorem ensures_pop (h : base.Since builder held (role :: rest)) :
    Ensures (pop line) builder Fault.Never fun id builder' =>
      builder'.forest = builder.forest ∧ builder.forest.role id = role ∧
        base.Since builder' (id :: held) rest := by
  obtain ⟨ids, hstack, hroles, hnew⟩ := h.stack
  obtain ⟨id, others, rfl, hrole, hothers⟩ := List.map_eq_cons_iff.mp hroles
  simp only [pop, bind_iff, get_iff, hstack, List.cons_append, modify_iff, pure_iff]
  refine ⟨trivial, hrole, h.raw, ?_, h.size_le, h.untouched, ?_, others, rfl, hothers, ?_⟩
  · refine h.free.perm ?_
    rw [hstack]
    exact List.perm_middle
  · intro m hm
    rcases List.mem_cons.mp hm with rfl | hm
    · exact hnew m List.mem_cons_self
    · exact h.held_new m hm
  · exact fun m hm => hnew m (List.mem_cons_of_mem _ hm)

theorem ensures_popMany {count : Nat} (h : base.Since builder [] (roles ++ rest))
    (hcount : roles.length = count) :
    Ensures (popMany count line) builder Fault.Never fun ids builder' =>
      builder'.forest = builder.forest ∧ ids.map builder.forest.role = roles.reverse ∧
        base.Since builder' ids rest := by
  obtain ⟨ids, hstack, hroles, hnew⟩ := h.stack
  obtain ⟨taken, others, rfl, htaken, hothers⟩ := List.map_eq_append_iff.mp hroles
  have hlength : taken.length = count := by rw [← hcount, ← htaken, List.length_map]
  have htake : builder.stack.take count = taken := by
    rw [hstack, List.append_assoc, ← hlength, List.take_left]
  have hdrop : builder.stack.drop count = others ++ base.stack := by
    rw [hstack, List.append_assoc, ← hlength, List.drop_left]
  have henough : ¬builder.stack.length < count := by simp [hstack, hlength]
  simp only [popMany, bind_iff, get_iff, henough, ite_iff, modify_iff, pure_iff, htake, hdrop]
  refine ⟨fun hc => hc.elim, fun _ => ⟨trivial, by simp [htaken], h.raw, ?_, h.size_le,
    h.untouched, ?_, others, rfl, hothers, ?_⟩⟩
  · refine h.free.perm ?_
    rw [hstack, List.nil_append, List.append_assoc]
    exact (List.reverse_perm taken).symm.append_right _
  · exact fun m hm => hnew m (List.mem_append_left _ (List.mem_reverse.mp hm))
  · exact fun m hm => hnew m (List.mem_append_right _ hm)

/-- A node of the role of a written type is one. -/
theorem exists_kind_of_role {forest : Forest} {id : NodeId}
    (h : forest.role id = .type ∨ forest.role id = .array) :
    ∃ part, forest.kind id = .type part := by
  simp only [Forest.role] at h
  cases hk : forest.kind id <;> simp_all [Kind.role]

theorem ensures_popType (h : base.Since builder held (role :: rest))
    (hrole : role = .type ∨ role = .array) :
    Ensures (popType line) builder Fault.Never fun id builder' =>
      builder'.forest = builder.forest ∧ builder.forest.role id = role ∧
        base.Since builder' (id :: held) rest := by
  simp only [popType, bind_iff, get_iff]
  refine (ensures_pop h).imp ?_
  rintro id builder' ⟨hforest, hid, hsince⟩
  obtain ⟨part, hkind⟩ := exists_kind_of_role (hid ▸ hrole)
  rw [← hforest] at hkind
  simp only [hkind, pure_iff]
  exact ⟨hforest, hid, hsince⟩

theorem ensures_updateType {id : NodeId} {change : TypePart → TypePart} (hid : id ∈ held)
    (h : base.Since builder held roles) (hchange : ∀ part, (change part).form = part.form) :
    Ensures (updateType id change) builder Fault.Never fun _ builder' =>
      (∀ m, builder'.forest.role m = builder.forest.role m) ∧
        base.Since builder' held roles := by
  simp only [updateType, modify_iff]
  split
  · next part hkind =>
    have hlt := h.free.lt_size id (List.mem_append_left _ hid)
    have hrole := Forest.role_setKind_type hlt hkind (hchange part)
    have hnode : ∀ m, m ≠ id → (builder.forest.setKind id (.type (change part))).node m =
        builder.forest.node m := fun m hm => Forest.node_update_of_ne _ _ hm
    obtain ⟨ids, hstack, hroles, hnew⟩ := h.stack
    refine ⟨hrole, Forest.raw_setKind_type h.raw hlt hkind (hchange part), ?_, ?_, ?_, h.held_new,
      ids, hstack, ?_, hnew⟩
    · refine ⟨fun m hm => ?_, fun m hm => ?_, h.free.nodup⟩
      · rw [Forest.setKind, Forest.size_update]
        exact h.free.lt_size m hm
      · have hparent := h.free.parent_eq m hm
        simp only [Forest.parent, Forest.setKind, Forest.node_update _ _ _ _ hlt] at hparent ⊢
        split <;> simp_all
    · rw [Forest.setKind, Forest.size_update]
      exact h.size_le
    · intro m hm
      have hne : m ≠ id := by
        have := h.held_new id hid
        omega
      rw [hnode m hne]
      exact h.untouched m hm
    · rw [← hroles]
      exact List.map_congr_left fun m _ => hrole m
  · exact ⟨fun _ => rfl, h⟩

/-- A node above what is held takes its place. -/
theorem ensures_push {kind : Kind} (h : base.Since builder held rest) (hfresh : kind.Fresh)
    (hkind : kind.Holds (held.map builder.forest.role)) :
    Ensures (push kind line held) builder Fault.Never fun _ builder' =>
      base.Since builder' [] (kind.role :: rest) := by
  have hfree := h.free.of_append_left
  have hstacklt : ∀ m : Nat, m ∈ builder.stack → m < builder.forest.size :=
    h.free.of_append_right.lt_size
  obtain ⟨ids, hstack, hroles, hnew⟩ := h.stack
  have hlink : (builder.forest.adopt kind line held).Raw := Forest.raw_adopt h.raw hfree hfresh hkind
  show base.Since ⟨builder.forest.adopt kind line held, builder.forest.size :: builder.stack⟩ [] _
  refine ⟨hlink, Forest.free_adopt h.free, ?_, ?_, by simp, builder.forest.size :: ids, by simp [hstack], ?_, ?_⟩
  · rw [Forest.size_adopt]
    exact Nat.le_succ_of_le h.size_le
  · intro m hm
    have hsize := h.size_le
    have hne : m ≠ builder.forest.size := by omega
    have hnot : m ∉ held := fun hheld => by
      have := h.held_new m hheld
      omega
    rw [Forest.node_adopt hfree, if_neg hne, if_neg hnot]
    exact h.untouched m hm
  · have hself : (builder.forest.adopt kind line held).role builder.forest.size = kind.role := by
      rw [Forest.role, Forest.kind_adopt hfree, if_pos rfl]
    have hold : ∀ m ∈ ids,
        (builder.forest.adopt kind line held).role m = builder.forest.role m := fun m hm =>
      Forest.role_adopt hfree (hstacklt m (hstack ▸ List.mem_append_left _ hm))
    rw [List.map_cons, hself, List.map_congr_left hold, hroles]
  · intro m hm
    rcases List.mem_cons.mp hm with rfl | hm
    · exact h.size_le
    · exact hnew m hm

/-- A step takes operands of the roles `before` from the top and leaves some of the roles `after`,
whatever is below them. -/
def Turns (step : Build Unit) (before after : List Role) : Prop :=
  ∀ {base builder : Builder} {rest : List Role}, base.Since builder [] (before ++ rest) →
    Ensures step builder Fault.Never fun _ builder' => base.Since builder' [] (after ++ rest)

theorem turns_push (kind : Kind) (hfresh : kind.Fresh) (hkind : kind.Holds []) :
    Turns (push kind line []) [] [kind.role] := fun h => ensures_push h hfresh hkind

theorem turns_int (value : Int) : Turns (int value line) [] [.expression] :=
  turns_push (.int value) trivial rfl

theorem turns_char (value : Char) : Turns (char value line) [] [.expression] :=
  turns_push (.char value) trivial rfl

theorem turns_string (value : String) : Turns (string value line) [] [.expression] :=
  turns_push (.string value none) rfl rfl

theorem turns_identifier (name : String) : Turns (identifier name line) [] [.expression] :=
  turns_push (.identifier name none) rfl rfl

theorem turns_base (name : BaseTy) : Turns (type (.base name) line) [] [.type] :=
  turns_push (.type { form := .base name }) trivial rfl

theorem turns_nothing : Turns (nothing line) [] [.absent] := turns_push .nothing trivial rfl

theorem turns_breakOut : Turns (breakOut line) [] [.statement] := turns_push (.breakOut none) rfl rfl

theorem turns_continueOn : Turns (continueOn line) [] [.statement] := turns_push (.continueOn none) rfl rfl

/-- Putting the only operand in hand back. -/
theorem since_cons {id : NodeId} (h : base.Since builder [id] rest) :
    base.Since { builder with stack := id :: builder.stack } []
      (builder.forest.role id :: rest) := by
  obtain ⟨ids, hstack, hroles, hnew⟩ := h.stack
  refine ⟨h.raw, h.free, h.size_le, h.untouched, by simp, id :: ids, by simp [hstack],
    by simp [hroles], ?_⟩
  intro m hm
  rcases List.mem_cons.mp hm with rfl | hm
  · exact h.held_new m List.mem_cons_self
  · exact hnew m hm

theorem turns_const : Turns (const line) [.type] [.type] := by
  intro base builder rest h
  simp only [const, bind_iff]
  refine (ensures_popType h (.inl rfl)).imp ?_
  rintro id builder' ⟨hforest, hid, hsince⟩
  refine (ensures_updateType List.mem_cons_self hsince ?_).imp ?_
  · exact fun _ => rfl
  rintro _ builder'' ⟨hrole, hsince⟩
  have hcons := since_cons hsince
  rwa [hrole, hforest, hid] at hcons

theorem turns_pointerType : Turns (pointerType line) [.type] [.type] := by
  intro base builder rest h
  simp only [pointerType, bind_iff]
  refine (ensures_popType h (.inl rfl)).imp ?_
  rintro id builder' ⟨hforest, hid, hsince⟩
  exact ensures_push hsince trivial (by simp [Kind.Holds, hforest, hid])

theorem turns_arrayType (size : Option Nat) : Turns (arrayType size line) [.type] [.array] := by
  intro base builder rest h
  simp only [arrayType, bind_iff]
  refine (ensures_popType h (.inl rfl)).imp ?_
  rintro id builder' ⟨hforest, hid, hsince⟩
  exact ensures_push hsince trivial (by simp [Kind.Holds, hforest, hid])

/-- A step that takes two operands and puts a node above them. -/
theorem ensures_pop_pop {lower upper : Role} {kind : Kind}
    (h : base.Since builder [] (upper :: lower :: rest)) (hfresh : kind.Fresh)
    (hkind : kind.Holds [lower, upper]) :
    Ensures (do let right ← pop line; let left ← pop line; push kind line [left, right]) builder
      Fault.Never fun _ builder' => base.Since builder' [] (kind.role :: rest) := by
  simp only [bind_iff]
  refine (ensures_pop h).imp ?_
  rintro right builder₁ ⟨hforest₁, hright, hsince⟩
  refine (ensures_pop hsince).imp ?_
  rintro left builder₂ ⟨hforest₂, hleft, hsince⟩
  rw [hforest₁] at hforest₂ hleft
  exact ensures_push hsince hfresh (by simpa [hforest₂, hleft, hright] using hkind)

theorem turns_binary (op : BinaryOp) :
    Turns (binary op line) [.expression, .expression] [.expression] :=
  fun h => ensures_pop_pop h trivial rfl

theorem turns_subscript : Turns (subscript line) [.expression, .expression] [.expression] :=
  fun h => ensures_pop_pop h trivial rfl

/-- A step that takes one operand and puts a node above it. -/
theorem ensures_pop_push {kind : Kind} (h : base.Since builder [] (role :: rest))
    (hfresh : kind.Fresh) (hkind : kind.Holds [role]) :
    Ensures (do let operand ← pop line; push kind line [operand]) builder Fault.Never
      fun _ builder' => base.Since builder' [] (kind.role :: rest) := by
  simp only [bind_iff]
  refine (ensures_pop h).imp ?_
  rintro operand builder' ⟨hforest, hoperand, hsince⟩
  exact ensures_push hsince hfresh (by simpa [hforest, hoperand] using hkind)

theorem turns_unary (op : UnaryOp) : Turns (unary op line) [.expression] [.expression] :=
  fun h => ensures_pop_push h trivial rfl

theorem turns_exprStatement : Turns (exprStatement line) [.expression] [.action] :=
  fun h => ensures_pop_push h trivial rfl

/-- Noting a cast on an operand in hand, whose written type is put away, and putting it back. -/
theorem since_cast {written expr : NodeId} {type : Ty}
    (h : base.Since builder [written, expr] rest) (hflat : type.Flat) :
    base.Since { forest := builder.forest.addCast expr type, stack := expr :: builder.stack } []
      (builder.forest.role expr :: rest) := by
  have hlt : expr < builder.forest.size := h.free.lt_size expr (by simp)
  have hrole : ∀ m, (builder.forest.addCast expr type).role m = builder.forest.role m := by
    intro m
    rw [Forest.role, Forest.role, Forest.kind_addCast hlt]
  have hnodup : (expr :: builder.stack).Nodup :=
    (List.nodup_cons.mp (show (written :: expr :: builder.stack).Nodup from h.free.nodup)).2
  obtain ⟨ids, hstack, hroles, hnew⟩ := h.stack
  refine ⟨Forest.raw_addCast h.raw hlt hflat, ⟨?_, ?_, hnodup⟩, ?_, ?_, by simp, expr :: ids,
    by simp [hstack], ?_, ?_⟩
  · intro m hm
    rw [Forest.addCast, Forest.size_update]
    exact h.free.lt_size m (List.mem_cons_of_mem _ hm)
  · intro m hm
    have hparent := h.free.parent_eq m (List.mem_cons_of_mem _ hm)
    simp only [Forest.parent, Forest.addCast, Forest.node_update _ _ _ _ hlt] at hparent ⊢
    split <;> simp_all
  · rw [Forest.addCast, Forest.size_update]
    exact h.size_le
  · intro m hm
    have hne : m ≠ expr := by
      have := h.held_new expr (by simp)
      omega
    rw [Forest.addCast, Forest.node_update_of_ne _ _ hne]
    exact h.untouched m hm
  · rw [List.map_cons, hrole, ← hroles, List.map_congr_left fun m _ => hrole m]
  · intro m hm
    rcases List.mem_cons.mp hm with rfl | hm
    · exact h.held_new m (by simp)
    · exact hnew m hm

theorem turns_cast : Turns (cast line) [.expression, .type] [.expression] := by
  intro base builder rest h
  simp only [cast, bind_iff, get_iff]
  refine (ensures_pop h).imp ?_
  rintro expr builder₁ ⟨hforest₁, hexpr, hsince⟩
  refine (ensures_popType hsince (.inl rfl)).imp ?_
  rintro written builder₂ ⟨hforest₂, hwritten, hsince⟩
  have hlt := hsince.free.lt_size written (by simp)
  have hltexpr := hsince.free.lt_size expr (by simp)
  rw [← hforest₂] at hwritten
  obtain ⟨type, htype, hflat⟩ := hsince.raw.exists_typeOf hlt hwritten
  simp only [htype, modify_iff]
  rw [← hexpr, ← hforest₁, ← hforest₂]
  exact since_cast hsince hflat

/-- A step that takes some operands and puts a node above them. -/
theorem ensures_popMany_push {kind : Kind} {count : Nat}
    (h : base.Since builder [] (roles ++ rest)) (hcount : roles.length = count)
    (hfresh : kind.Fresh) (hkind : kind.Holds roles.reverse) :
    Ensures (do let parts ← popMany count line; push kind line parts) builder Fault.Never
      fun _ builder' => base.Since builder' [] (kind.role :: rest) := by
  simp only [bind_iff]
  refine (ensures_popMany h hcount).imp ?_
  rintro parts builder' ⟨hforest, hparts, hsince⟩
  exact ensures_push hsince hfresh (by rwa [hforest, hparts])

theorem turns_call (name : String) (count : Nat) :
    Turns (call name count line) (.replicate count .expression) [.expression] :=
  fun h => ensures_popMany_push h List.length_replicate rfl (by simp [Kind.Holds])

theorem turns_initializers (count : Nat) :
    Turns (initializers count line) (.replicate count .expression) [.initializers] :=
  fun h => ensures_popMany_push h List.length_replicate trivial (by simp [Kind.Holds])

theorem turns_parameters (count : Nat) :
    Turns (parameters count line) (.replicate count .parameter) [.parameters] :=
  fun h => ensures_popMany_push h List.length_replicate trivial (by simp [Kind.Holds])

theorem turns_block {count : Nat} (hcount : roles.length = count)
    (hroles : ∀ role ∈ roles, role.IsStatement) : Turns (block count line) roles [.block] :=
  fun h => ensures_popMany_push h hcount trivial (by simpa [Kind.Holds] using hroles)

theorem turns_ifElse {yes : Role} (hyes : yes.IsStatement) :
    Turns (ifElse false line) [yes, .expression] [.statement] :=
  fun h => ensures_popMany_push h rfl rfl ⟨yes, hyes, .inl rfl⟩

theorem turns_ifElse_else {yes no : Role} (hyes : yes.IsStatement) (hno : no.IsStatement) :
    Turns (ifElse true line) [no, yes, .expression] [.statement] :=
  fun h => ensures_popMany_push h rfl rfl ⟨yes, hyes, .inr ⟨no, hno, rfl⟩⟩

theorem turns_whileLoop {body : Role} (hbody : body.IsStatement) :
    Turns (whileLoop line) [body, .expression] [.statement] :=
  fun h => ensures_popMany_push h rfl rfl ⟨body, hbody, rfl⟩

theorem turns_forLoop {start test next body : Role} (hstart : start.IsClause)
    (htest : test = .expression ∨ test = .absent) (hnext : next.IsClause)
    (hbody : body.IsStatement) : Turns (forLoop line) [body, next, test, start] [.statement] :=
  fun h => ensures_popMany_push h rfl rfl
    ⟨start, test, next, body, hstart, htest, hnext, hbody, rfl⟩

theorem ensures_popIf {present : Bool}
    (h : base.Since builder [] ((if present then [role] else []) ++ rest)) :
    Ensures (popIf present line) builder Fault.Never fun ids builder' =>
      builder'.forest = builder.forest ∧
        ids.map builder.forest.role = (if present then [role] else []) ∧
        base.Since builder' ids rest := by
  cases present with
  | false => exact ⟨rfl, rfl, h⟩
  | true =>
    simp only [popIf, if_true, bind_iff, pure_iff]
    refine (ensures_pop h).imp ?_
    rintro id builder' ⟨hforest, hid, hsince⟩
    exact ⟨hforest, by simp [hid], hsince⟩

theorem turns_giveBack (hasValue : Bool) :
    Turns (giveBack hasValue line) (if hasValue then [.expression] else []) [.statement] := by
  intro base builder rest h
  simp only [giveBack, bind_iff]
  refine (ensures_popIf h).imp ?_
  rintro ids builder' ⟨hforest, hids, hsince⟩
  refine ensures_push hsince trivial ?_
  rw [hforest, hids]
  cases hasValue <;> simp [Kind.Holds]

theorem turns_declaration (name : String) {initialized : Bool} {initial written : Role}
    (hinitial : initial = .expression ∨ initial = .initializers)
    (hwritten : written = .type ∨ written = .array) :
    Turns (declaration name initialized line)
      ((if initialized then [initial] else []) ++ [written]) [.declaration] := by
  intro base builder rest h
  rw [List.append_assoc] at h
  simp only [declaration, markTopLevel, bind_iff]
  refine (ensures_popIf h).imp ?_
  rintro ids builder₁ ⟨hforest₁, hids, hsince⟩
  refine (ensures_popType hsince hwritten).imp ?_
  rintro type builder₂ ⟨hforest₂, htype, hsince⟩
  refine (ensures_updateType List.mem_cons_self hsince ?_).imp ?_
  · exact fun _ => rfl
  rintro _ builder₃ ⟨hrole, hsince⟩
  refine ensures_push hsince rfl ?_
  have hroles : (type :: ids).map builder₃.forest.role =
      written :: if initialized then [initial] else [] := by
    rw [← hids, ← htype, ← hforest₁, ← hforest₂]
    exact List.map_congr_left fun m _ => hrole m
  rw [hroles]
  refine ⟨written, hwritten, ?_⟩
  cases initialized
  · exact .inl rfl
  · rcases hinitial with rfl | rfl
    · exact .inr (.inl rfl)
    · exact .inr (.inr rfl)

theorem turns_parameter (name : String) : Turns (parameter name line) [.type] [.parameter] := by
  intro base builder rest h
  simp only [parameter, markTopLevel, bind_iff]
  refine (ensures_popType h (.inl rfl)).imp ?_
  rintro type builder₁ ⟨hforest₁, htype, hsince⟩
  refine (ensures_updateType List.mem_cons_self hsince ?_).imp ?_
  · exact fun _ => rfl
  rintro _ builder₂ ⟨hrole, hsince⟩
  exact ensures_push hsince rfl (by simp [Kind.Holds, hrole, hforest₁, htype])

theorem turns_function (name : String) (defined : Bool) :
    Turns (function name defined line)
      ((if defined then [.block] else []) ++ [.parameters, .type]) [.function] := by
  intro base builder rest h
  rw [List.append_assoc] at h
  simp only [function, markTopLevel, bind_iff]
  refine (ensures_popIf h).imp ?_
  rintro ids builder₁ ⟨hforest₁, hids, hsince⟩
  refine (ensures_pop hsince).imp ?_
  rintro params builder₂ ⟨hforest₂, hparams, hsince⟩
  refine (ensures_popType hsince (.inl rfl)).imp ?_
  rintro result builder₃ ⟨hforest₃, hresult, hsince⟩
  refine (ensures_updateType List.mem_cons_self hsince ?_).imp ?_
  · exact fun _ => rfl
  rintro _ builder₄ ⟨hrole, hsince⟩
  refine ensures_push hsince rfl ?_
  have hroles : (result :: params :: ids).map builder₄.forest.role =
      .type :: .parameters :: if defined then [.block] else [] := by
    rw [List.map_congr_left fun m _ => hrole m, hforest₃, hforest₂, List.map_cons, List.map_cons,
      hforest₁, hids, ← hforest₁, hparams, ← hforest₂, hresult]
  rw [hroles]
  cases defined
  · exact .inl rfl
  · exact .inr rfl

theorem since_setRoot {id : NodeId} (h : base.Since builder held roles) :
    base.Since { builder with forest := builder.forest.setRoot id } held roles :=
  ⟨h.raw.of_same (fun _ => rfl) (fun _ => rfl) (fun _ => rfl) (fun _ _ hk => hk) h.raw.fresh
    h.raw.casts, ⟨h.free.lt_size, h.free.parent_eq, h.free.nodup⟩, h.size_le, h.untouched,
    h.held_new, h.stack⟩

theorem turns_file {count : Nat} (hcount : roles.length = count)
    (hroles : ∀ role ∈ roles, role = .declaration ∨ role = .function) :
    Turns (file count line) roles [.file] := by
  intro base builder rest h
  simp only [file, bind_iff]
  refine (ensures_popMany h hcount).imp ?_
  rintro parts builder₁ ⟨hforest, hparts, hsince⟩
  refine (ensures_push hsince ?_ ?_).imp ?_
  · trivial
  · rw [hforest, hparts]
    simpa [Kind.Holds] using hroles
  · rintro _ builder₂ hsince
    simp only [modify_iff]
    split
    · exact hsince
    · exact since_setRoot hsince

/-- A file stands on its line, and on top of the stack. -/
theorem line_file (count line : Nat) (builder : Builder) :
    Ensures (file count line) builder Fault.Any fun _ builder' =>
      ∃ id rest, builder'.stack = id :: rest ∧ builder'.forest.line id = line := by
  simp only [file, bind_iff]
  refine (any (popMany count line) builder).imp fun declarations builder₁ _ => ?_
  refine ⟨builder₁.forest.size, builder₁.stack, rfl, ?_⟩
  have hadded : (builder₁.forest.add .file line).1.line builder₁.forest.size = line := by
    simp [Forest.line, Forest.add, Forest.node, Forest.size]
  exact (Forest.line_link _ declarations _).trans hadded

end Build

/-- A builder that has built a file from nothing is finished. -/
theorem Builder.exists_finish {builder : Builder} (h : Builder.Since {} builder [] [.file]) :
    ∃ forest root, builder.finish = .ok forest ∧ forest.Parsed root := by
  obtain ⟨ids, hstack, hroles, -⟩ := h.stack
  obtain ⟨root, rfl, hroot⟩ := List.map_eq_singleton_iff.mp hroles
  have hstack : builder.stack = [root] := by simpa using hstack
  have hkind : builder.forest.kind root = .file := by
    simp only [Forest.role] at hroot
    cases hk : builder.forest.kind root <;> simp_all [Kind.role]
    split at hroot <;> cases hroot
  refine ⟨builder.forest.setRoot root, root, by simp [finish, hstack, hkind],
    (Build.since_setRoot h).raw, rfl, hroot, ?_⟩
  exact h.free.parent_eq root (by simp [hstack])

end MiniC
