import MiniC.Proofs.Build.Trees

/-!
# The strings of trees under construction

`Builder.Says` reads the strings off what a builder has built, from the first operand to the one on
top. A step of construction adds the string that it is for behind them, if it is for one, and keeps
all others in their order.
-/

namespace MiniC

/-- The text of a string. -/
def Kind.text? : Kind → Option String
  | string value _ => some value
  | _ => none

@[simp] theorem Kind.text?_plain (kind : Kind) : kind.plain.text? = kind.text? := by
  cases kind <;> rfl

/-- Whether the kind is a part of a written type. -/
def Kind.isType : Kind → Bool
  | type _ => true
  | _ => false

namespace Tree

/-- The strings of a tree, from left to right. -/
def texts : Tree → List String
  | .node content parts => content.kind.text?.toList ++ parts.flatMap fun part => texts part

theorem texts_node (content : Content) (parts : List Tree) :
    texts (.node content parts) = content.kind.text?.toList ++ parts.flatMap texts := by
  simp [texts]

/-- A tree with strings is no type. -/
def Quiet (tree : Tree) : Prop := tree.kind.isType = true → tree.texts = []

end Tree

/-- What a node says is of its kind. -/
theorem Forest.kind_contents {forest : Forest} (hr : forest.Rising) (id : NodeId) :
    Tree.kind (forest.contents id) = (forest.kind id).plain := by
  rw [contents_eq hr.ranked]
  rfl

/-- The nodes in hand and the operands of a builder say strings, those of the operand on top behind those
of the ones below it. Types say none. -/
structure Builder.Says (builder : Builder) (held : List NodeId) (texts : List String) : Prop where
  exists_trees : ∃ parts trees, builder.Handles held parts trees ∧
    (∀ tree ∈ parts ++ trees, tree.Quiet) ∧ (trees.reverse ++ parts).flatMap Tree.texts = texts

namespace Build

open Ensures

variable {builder : Builder} {held : List NodeId} {texts : List String} {line : Nat}

theorem says_empty : ({} : Builder).Says [] [] := ⟨[], [], shows_empty, by simp, rfl⟩

/-- The operand on top comes into the hand. -/
theorem says_pop (h : builder.Says held texts) :
    Ensures (pop line) builder Fault.Any fun id builder' =>
      builder'.forest = builder.forest ∧ builder'.Says (id :: held) texts := by
  obtain ⟨parts, trees, hhandles, hquiet, rfl⟩ := h
  cases trees with
  | nil =>
    have hstack : builder.stack = [] := List.map_eq_nil_iff.mp hhandles.stack_eq
    simp only [pop, bind_iff, get_iff, hstack]
    trivial
  | cons tree trees =>
    refine (handles_pop hhandles).mono ?_ fun _ _ => False.elim
    rintro id builder' ⟨hforest, -, hhandles'⟩
    exact ⟨hforest, tree :: parts, trees, hhandles', by simpa [or_imp, forall_and, and_assoc,
      and_left_comm] using hquiet, by simp⟩

/-- Operands come into the hand in the order in which they were put on the stack. -/
theorem says_popMany {count : Nat} (h : builder.Says [] texts) :
    Ensures (popMany count line) builder Fault.Any fun ids builder' => builder'.Says ids texts := by
  obtain ⟨parts, trees, hhandles, hquiet, rfl⟩ := h
  obtain rfl : [] = parts := hhandles.held_eq
  have hlength : builder.stack.length = trees.length := by rw [← hhandles.stack_eq, List.length_map]
  by_cases henough : builder.stack.length < count
  · simp only [popMany, bind_iff, get_iff, ite_iff, throw_iff]
    exact ⟨fun _ => trivial, fun hnot => absurd henough hnot⟩
  · have hcount : (trees.take count).length = count := by
      rw [List.length_take, ← hlength]
      omega
    rw [← List.take_append_drop count trees] at hhandles
    refine (handles_popMany hhandles hcount).mono ?_ fun _ _ => False.elim
    intro ids builder' hhandles'
    refine ⟨_, _, hhandles', fun tree htree => hquiet tree ?_, ?_⟩
    · rcases List.mem_append.mp htree with htree | htree
      · exact List.mem_of_mem_take (List.mem_reverse.mp htree)
      · exact List.mem_of_mem_drop htree
    · rw [← List.reverse_append, List.take_append_drop, List.append_nil]

theorem says_popIf {present : Bool} (h : builder.Says [] texts) :
    Ensures (popIf present line) builder Fault.Any fun ids builder' => builder'.Says ids texts := by
  cases present with
  | false => exact h
  | true =>
    simp only [popIf, if_true, bind_iff, pure_iff]
    exact (says_pop h).imp fun _ _ h => h.2

/-- The type on top comes into the hand. -/
theorem says_popType (h : builder.Says held texts) :
    Ensures (popType line) builder Fault.Any fun id builder' =>
      (builder'.forest.kind id).isType ∧ builder'.Says (id :: held) texts := by
  simp only [popType, bind_iff, get_iff]
  refine (says_pop h).imp fun id builder' hpopped => ?_
  split
  · next part hkind => exact ⟨by rw [hkind]; rfl, hpopped.2⟩
  · trivial

/-- The node in hand says what it is. -/
theorem exists_handles {id : NodeId} (h : builder.Says (id :: held) texts) :
    ∃ content below parts trees, builder.Handles (id :: held) (.node content below :: parts) trees ∧
      content.kind = (builder.forest.kind id).plain ∧
      (∀ tree ∈ .node content below :: parts ++ trees, tree.Quiet) ∧
      (trees.reverse ++ .node content below :: parts).flatMap Tree.texts = texts := by
  obtain ⟨parts, trees, hhandles, hquiet, rfl⟩ := h
  obtain rfl := hhandles.held_eq
  have hkind := Forest.kind_contents hhandles.rising id
  cases hid : builder.forest.contents id with
  | node content below =>
    rw [hid] at hkind
    rw [List.map_cons, hid] at hhandles hquiet
    exact ⟨content, below, _, trees, hhandles, hkind, hquiet, by rw [List.map_cons, hid]⟩

/-- A change of a type in hand says nothing new. -/
theorem says_updateType {id : NodeId} {change : TypePart → TypePart}
    (h : builder.Says (id :: held) texts) :
    Ensures (updateType id change) builder Fault.Any fun _ builder' =>
      builder'.Says (id :: held) texts := by
  cases hkind : builder.forest.kind id with
  | type part =>
    obtain ⟨⟨kind, casts⟩, below, parts, trees, hhandles, hcontent, hquiet, rfl⟩ := exists_handles h
    obtain rfl : kind = .type part := hcontent.trans (by rw [hkind]; rfl)
    refine (handles_updateType hhandles).mono (fun _ builder' hhandles' => ?_) fun _ _ => False.elim
    refine ⟨_, _, hhandles', fun tree htree => ?_, by simp [Tree.texts_node, Kind.text?]⟩
    rw [List.cons_append, List.mem_cons] at htree
    rcases htree with rfl | htree
    · have hold := hquiet _ List.mem_cons_self
      simpa [Tree.Quiet, Tree.kind, Kind.isType, Tree.texts_node, Kind.text?] using hold
    · exact hquiet tree (List.mem_cons_of_mem _ htree)
  | _ => simpa only [updateType, modify_iff, hkind] using h

/-- A node above what is in hand says what that does, behind its own string. -/
theorem says_push {kind : Kind} (hplain : kind.plain = kind)
    (hquiet : kind.isType = true → ∀ id ∈ held, (builder.forest.kind id).isType)
    (htext : kind.text? = none ∨ held = []) (h : builder.Says held texts) :
    Ensures (push kind line held) builder Fault.Any fun _ builder' =>
      builder'.Says [] (texts ++ kind.text?.toList) := by
  obtain ⟨parts, trees, hhandles, hall, rfl⟩ := h
  refine (handles_push hplain hhandles).mono (fun _ builder' hhandles' => ?_) fun _ _ => False.elim
  have htexts : Tree.texts (.bare kind parts) = parts.flatMap Tree.texts ++ kind.text?.toList := by
    rw [Tree.texts_node]
    rcases htext with hnone | rfl
    · simp [hnone]
    · obtain rfl : [] = parts := hhandles.held_eq
      simp
  refine ⟨_, _, hhandles', fun tree htree => ?_, by simp [htexts]⟩
  rw [List.nil_append, List.mem_cons] at htree
  rcases htree with rfl | htree
  · intro hkind
    have hnone : kind.text? = none := by cases kind <;> first | rfl | cases hkind
    rw [htexts, hnone, Option.toList_none, List.append_nil, List.flatMap_eq_nil_iff]
    intro part hpart
    refine hall part (List.mem_append_left _ hpart) ?_
    rw [← hhandles.held_eq, List.mem_map] at hpart
    obtain ⟨id, hid, rfl⟩ := hpart
    have hpart := hquiet hkind id hid
    rw [Forest.kind_contents hhandles.rising]
    cases hk : builder.forest.kind id <;> simp_all [Kind.isType, Kind.plain]
  · exact hall tree (List.mem_append_right _ htree)

/-- A step of construction says `more` behind what has been said before. -/
def Adds (step : Build Unit) (more : List String) : Prop :=
  ∀ {builder : Builder} {texts : List String}, builder.Says [] texts →
    Ensures step builder Fault.Any fun _ builder' => builder'.Says [] (texts ++ more)

/-- A step of construction says nothing new. -/
abbrev Quiet (step : Build Unit) : Prop := Adds step []

/-- A node above what is in hand says nothing new if it is neither a string nor a type. -/
theorem says_push_quiet {kind : Kind} (hplain : kind.plain = kind) (htype : kind.isType = false)
    (htext : kind.text? = none) (h : builder.Says held texts) :
    Ensures (push kind line held) builder Fault.Any fun _ builder' =>
      builder'.Says [] (texts ++ []) := by
  have hpush := @says_push _ _ _ line _ hplain (by simp [htype]) (.inl htext) h
  rwa [htext] at hpush

theorem quiet_leaf {kind : Kind} (hplain : kind.plain = kind) (htext : kind.text? = none) :
    Quiet (push kind line []) := by
  intro builder texts h
  have hpush := @says_push _ _ _ line _ hplain (by simp) (.inl htext) h
  rwa [htext] at hpush

/-- A string says its text. -/
theorem adds_string (value : String) : Adds (string value line) [value] :=
  fun h => says_push rfl (by simp) (.inr rfl) h

theorem quiet_unary {kind : Kind} (hplain : kind.plain = kind) (htype : kind.isType = false)
    (htext : kind.text? = none) : Quiet (do let id ← pop line; push kind line [id]) := by
  intro builder texts h
  simp only [bind_iff]
  exact (says_pop h).imp fun id builder' h => says_push_quiet hplain htype htext h.2

theorem quiet_binary {kind : Kind} (hplain : kind.plain = kind) (htype : kind.isType = false)
    (htext : kind.text? = none) :
    Quiet (do let right ← pop line; let left ← pop line; push kind line [left, right]) := by
  intro builder texts h
  simp only [bind_iff]
  exact (says_pop h).imp fun right builder₁ h => (says_pop h.2).imp fun left builder₂ h =>
    says_push_quiet hplain htype htext h.2

theorem quiet_many {kind : Kind} {count : Nat} (hplain : kind.plain = kind)
    (htype : kind.isType = false) (htext : kind.text? = none) :
    Quiet (do let parts ← popMany count line; push kind line parts) := by
  intro builder texts h
  simp only [bind_iff]
  exact (says_popMany h).imp fun ids builder' h => says_push_quiet hplain htype htext h

/-- A type above the type on top. -/
theorem quiet_wrap (form : TypeForm) :
    Quiet (do let id ← popType line; push (.type { form }) line [id]) := by
  intro builder texts h
  simp only [bind_iff]
  refine (says_popType h).imp fun id builder' hpopped => ?_
  exact says_push rfl (fun _ => by simpa using hpopped.1) (.inl rfl) hpopped.2

theorem says_cons {id : NodeId} (h : builder.Says [id] texts) :
    Builder.Says { builder with stack := id :: builder.stack } [] texts := by
  obtain ⟨content, below, parts, trees, hhandles, -, hquiet, rfl⟩ := exists_handles h
  obtain rfl : [] = parts := (List.cons.inj hhandles.held_eq).2
  exact ⟨[], _, shows_cons hhandles, hquiet, by simp⟩

theorem quiet_const : Quiet (const line) := by
  intro builder texts h
  simp only [const, bind_iff, modify_iff, List.append_nil]
  exact (says_popType h).imp fun id builder₁ hpopped =>
    (says_updateType hpopped.2).imp fun _ builder₂ h => says_cons h

/-- A cast that is noted on the expression in hand says nothing. -/
theorem says_addCast {id : NodeId} (type : Ty) (h : builder.Says [id] texts) :
    Builder.Says { forest := builder.forest.addCast id type, stack := id :: builder.stack } [] texts := by
  obtain ⟨content, below, parts, trees, hhandles, -, hquiet, rfl⟩ := exists_handles h
  obtain ⟨hkind, -, hbelow⟩ :=
    Forest.of_contents hhandles.rising (List.cons.inj hhandles.held_eq).1
  obtain rfl : [] = parts := (List.cons.inj hhandles.held_eq).2
  have hadded := handles_update (fun node => { node with casts := node.casts ++ [type] })
    ⟨fun _ => rfl, fun _ => rfl⟩ hhandles
  have htexts : ∀ casts, Tree.texts (.node ⟨(builder.forest.kind id).plain, casts⟩
      ((builder.forest.children id).map builder.forest.contents)) = Tree.texts (.node content below) := by
    intro casts
    rw [Tree.texts_node, Tree.texts_node, hkind, hbelow]
  refine ⟨[], _, shows_cons hadded, fun tree htree => ?_, ?_⟩
  · rw [List.nil_append, List.mem_cons] at htree
    rcases htree with rfl | htree
    · intro htype
      refine (htexts _).trans (hquiet _ List.mem_cons_self ?_)
      rwa [Tree.kind, ← hkind]
    · exact hquiet tree (List.mem_cons_of_mem _ htree)
  · simp only [List.reverse_cons, List.append_nil, List.flatMap_append, List.flatMap_singleton]
    exact congrArg _ (htexts _)

/-- The type of a cast says nothing, so it may be dropped. -/
theorem quiet_cast : Quiet (cast line) := by
  intro builder texts h
  simp only [cast, bind_iff, get_iff, List.append_nil]
  refine (says_pop h).imp fun expr builder₁ hpopped =>
    (says_popType hpopped.2).imp fun id builder₂ hpopped => ?_
  obtain ⟨htype, h⟩ := hpopped
  split
  · trivial
  · next type _ =>
    simp only [modify_iff]
    obtain ⟨content, below, parts, trees, hhandles, hcontent, hquiet, rfl⟩ := exists_handles h
    have hnone : Tree.texts (.node content below) = [] := by
      refine hquiet _ List.mem_cons_self ?_
      rw [Tree.kind, hcontent]
      cases hk : builder₂.forest.kind id <;> simp_all [Kind.isType, Kind.plain]
    have hexpr : builder₂.Says [expr] ((trees.reverse ++ parts).flatMap Tree.texts) :=
      ⟨parts, trees, handles_tail hhandles,
        fun tree htree => hquiet tree (List.mem_cons_of_mem _ htree), rfl⟩
    simpa [hnone] using says_addCast type hexpr

theorem quiet_declaration (name : String) (initialized : Bool) :
    Quiet (declaration name initialized line) := by
  intro builder texts h
  simp only [declaration, bind_iff]
  exact (says_popIf h).imp fun initial builder₁ h => (says_popType h).imp fun id builder₂ ⟨_, h⟩ =>
    (says_updateType h).imp fun _ builder₃ h => says_push_quiet rfl rfl rfl h

theorem quiet_parameter (name : String) : Quiet (parameter name line) := by
  intro builder texts h
  simp only [parameter, bind_iff]
  exact (says_popType h).imp fun id builder₁ ⟨_, h⟩ => (says_updateType h).imp fun _ builder₂ h =>
    says_push_quiet rfl rfl rfl h

theorem quiet_function (name : String) (defined : Bool) : Quiet (function name defined line) := by
  intro builder texts h
  simp only [function, bind_iff]
  exact (says_popIf h).imp fun body builder₁ h => (says_pop h).imp fun params builder₂ ⟨_, h⟩ =>
    (says_popType h).imp fun result builder₃ ⟨_, h⟩ => (says_updateType h).imp fun _ builder₄ h =>
      says_push_quiet rfl rfl rfl h

theorem quiet_giveBack (hasValue : Bool) : Quiet (giveBack hasValue line) := by
  intro builder texts h
  simp only [giveBack, bind_iff]
  exact (says_popIf h).imp fun value builder₁ h => says_push_quiet rfl rfl rfl h

theorem quiet_file (count : Nat) : Quiet (file count line) := by
  intro builder texts h
  simp only [file, bind_iff]
  refine (says_popMany h).imp fun ids builder₁ h =>
    (@says_push_quiet _ _ _ line .file rfl rfl rfl h).imp fun _ builder₂ h => ?_
  simp only [modify_iff]
  split
  · exact h
  · obtain ⟨parts, trees, hhandles, hquiet, htexts⟩ := h
    obtain rfl : [] = parts := hhandles.held_eq
    exact ⟨[], trees, shows_setRoot hhandles, hquiet, htexts⟩

end Build

end MiniC
