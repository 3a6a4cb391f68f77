import MiniC.Proofs.Tree.Shape

/-!
# Scopes of a tree

Which scopes are around a node, which names are declared in them, and which declarations come before
a place in the text: all of it is read off the tree alone. A variable can be seen from behind its
declaration on, a function from its own header on, and both to the end of the scope that they are in.
What a name means at a place is what can be seen of it in the innermost scope that has it in sight.
-/

namespace MiniC

namespace Role

/-- The roles of nodes that may declare a name. -/
def IsDeclaring : Role → Prop
  | declaration | function | parameter => True
  | _ => False

/-- The roles of nodes below which nothing is declared. -/
def IsMute : Role → Prop
  | type | array | expression | initializers => True
  | _ => False

theorem not_isDeclaring_of_isMute {role : Role} (h : role.IsMute) : ¬role.IsDeclaring := by
  cases role <;> simp_all [IsMute, IsDeclaring]

end Role

/-- The parts of a mute node are mute. -/
theorem Kind.isMute_of_holds {kind : Kind} {roles : List Role} (hkind : kind.role.IsMute)
    (h : kind.Holds roles) : ∀ role ∈ roles, role.IsMute := by
  intro role hmem
  cases kind with
  | type part => cases hform : part.form <;> simp_all [Holds, Role.IsMute]
  | initializers | call =>
    rw [h role hmem]
    trivial
  | _ => simp_all [Kind.role, Holds, Role.IsMute]

/-- Whether the kind is a variable: a declaration or a parameter. -/
def Kind.isVariable : Kind → Bool
  | declaration .. | parameter .. => true
  | _ => false

namespace Forest

variable {forest : Forest}

/-- The node `p` opens a scope, and its child `c` is in it. The body of a function is in the scope of
its parameters and opens none of its own; the condition of a `while` loop is outside of its scope. -/
def Opens (forest : Forest) (p c : NodeId) : Prop :=
  match forest.kind p with
  | .file | .function .. | .forLoop _ => True
  | .block => ∀ f, forest.parent p = some f → (forest.kind f).isFunction = false
  | .whileLoop _ => forest.child? p 1 = some c
  | _ => False

/-- The nodes whose scopes are around a node, the innermost first. -/
inductive Enclosed (forest : Forest) : NodeId → List NodeId → Prop
  | top {n : NodeId} (h : forest.parent n = none) : Enclosed forest n []
  | inside {p c : NodeId} {scopes : List NodeId} (hc : c ∈ forest.children p)
      (ho : forest.Opens p c) (h : Enclosed forest p scopes) : Enclosed forest c (p :: scopes)
  | through {p c : NodeId} {scopes : List NodeId} (hc : c ∈ forest.children p)
      (ho : ¬forest.Opens p c) (h : Enclosed forest p scopes) : Enclosed forest c scopes

/-- The node declares the name. Parameters count if their function has a body. -/
inductive Declares (forest : Forest) (d : NodeId) (name : String) : Prop
  | declaration {symbol : Option SymbolId} (h : forest.kind d = .declaration name symbol)
  | function {symbol : Option SymbolId} (h : forest.kind d = .function name symbol)
  | parameter {symbol : Option SymbolId} {list f : NodeId} (h : forest.kind d = .parameter name symbol)
      (hlist : forest.parent d = some list) (hf : forest.parent list = some f)
      (hbody : (forest.child? f 2).isSome)

/-- The node declares the name in the scope of `scope`. -/
structure DeclaredIn (forest : Forest) (scope d : NodeId) (name : String) : Prop where
  declares : forest.Declares d name
  enclosed : ∃ outer, forest.Enclosed d (scope :: outer)

/-- All of `d` comes before `u` in the text. -/
def Precedes (forest : Forest) (d u : NodeId) : Prop :=
  ∃ p left c right, forest.children p = left ++ c :: right ∧ (∃ b ∈ left, forest.Below d b) ∧
    forest.Below u c

/-- A declaration is in sight behind it, and that of a function within the function, too. -/
def InSight (forest : Forest) (d u : NodeId) : Prop :=
  forest.Precedes d u ∨ (forest.kind d).isFunction ∧ forest.Below u d ∧ u ≠ d

/-- At `u`, the name means what is declared at `d`: a declaration in sight, such that no scope further
in has one in sight. -/
def Means (forest : Forest) (u : NodeId) (name : String) (d : NodeId) : Prop :=
  ∃ inner scope outer, forest.Enclosed u (inner ++ scope :: outer) ∧
    forest.DeclaredIn scope d name ∧ forest.InSight d u ∧
    ∀ scope' ∈ inner, ∀ d', forest.DeclaredIn scope' d' name → ¬forest.InSight d' u

/-- At `u`, some declaration of the name is in sight. -/
def Sees (forest : Forest) (u : NodeId) (name : String) : Prop :=
  ∃ scopes, forest.Enclosed u scopes ∧
    ∃ scope ∈ scopes, ∃ d, forest.DeclaredIn scope d name ∧ forest.InSight d u

theorem Means.sees {u d : NodeId} {name : String} (h : forest.Means u name d) :
    forest.Sees u name := by
  obtain ⟨inner, scope, outer, henclosed, hd, hsight, -⟩ := h
  exact ⟨_, henclosed, scope, by simp, d, hd, hsight⟩

/-- The scopes around a node are determined. -/
theorem Enclosed.unique (hl : forest.Linked) {n : NodeId} {scopes scopes' : List NodeId}
    (h : forest.Enclosed n scopes) (h' : forest.Enclosed n scopes') : scopes = scopes' := by
  have same : ∀ {p p' c}, c ∈ forest.children p → c ∈ forest.children p' → p' = p := fun hc hc' =>
    Option.some.inj ((hl.parent_of_mem hc').symm.trans (hl.parent_of_mem hc))
  induction h generalizing scopes' with
  | top hnone =>
    cases h' with
    | top => rfl
    | inside hc | through hc => rw [hl.parent_of_mem hc] at hnone; cases hnone
  | inside hc ho _ ih =>
    cases h' with
    | top hnone => rw [hl.parent_of_mem hc] at hnone; cases hnone
    | inside hc' _ h' =>
      obtain rfl := same hc hc'
      rw [ih h']
    | through hc' ho' =>
      obtain rfl := same hc hc'
      exact absurd ho ho'
  | through hc ho _ ih =>
    cases h' with
    | top hnone => rw [hl.parent_of_mem hc] at hnone; cases hnone
    | inside hc' ho' =>
      obtain rfl := same hc hc'
      exact absurd ho' ho
    | through hc' _ h' =>
      obtain rfl := same hc hc'
      exact ih h'

/-- A node whose child declares has one more scope around its children, or as many. -/
theorem Enclosed.child {p c : NodeId} {scopes : List NodeId} (h : forest.Enclosed p scopes)
    (hc : c ∈ forest.children p) :
    forest.Opens p c ∧ forest.Enclosed c (p :: scopes) ∨
      ¬forest.Opens p c ∧ forest.Enclosed c scopes := by
  by_cases ho : forest.Opens p c
  · exact .inl ⟨ho, .inside hc ho h⟩
  · exact .inr ⟨ho, .through hc ho h⟩

/-- Scopes are open around what is below them. -/
theorem Enclosed.below_of_mem {n : NodeId} {scopes : List NodeId} (h : forest.Enclosed n scopes) :
    ∀ scope ∈ scopes, forest.Below n scope ∧ (forest.Ranked → n ≠ scope) := by
  induction h with
  | top => simp
  | inside hc _ _ ih =>
    intro scope hscope
    rcases List.mem_cons.mp hscope with rfl | hscope
    · exact ⟨.of_mem hc, fun hr => hr.ne_of_mem hc⟩
    · have hbelow := (ih scope hscope).1
      refine ⟨(Below.of_mem hc).trans hbelow, ?_⟩
      rintro hr rfl
      exact Below.not_child hr hc hbelow
  | through hc _ _ ih =>
    intro scope hscope
    have hbelow := (ih scope hscope).1
    refine ⟨(Below.of_mem hc).trans hbelow, ?_⟩
    rintro hr rfl
    exact Below.not_child hr hc hbelow

/-- The scopes around a node are different ones. -/
theorem Enclosed.nodup (hr : forest.Ranked) {n : NodeId} {scopes : List NodeId}
    (h : forest.Enclosed n scopes) : scopes.Nodup := by
  induction h with
  | top => exact List.nodup_nil
  | inside _ _ h ih =>
    exact List.nodup_cons.mpr ⟨fun hmem => (h.below_of_mem _ hmem).2 hr rfl, ih⟩
  | through _ _ _ ih => exact ih

theorem lt_size_of_kind_ne {id : Nat} (h : forest.kind id ≠ .nothing) : id < forest.size := by
  by_contra hid
  exact h (by rw [kind, node_of_size_le (Nat.le_of_not_lt hid)]; rfl)

namespace Declares

variable {d : NodeId} {name name' : String}

theorem lt_size (h : forest.Declares d name) : (d : Nat) < forest.size := by
  refine lt_size_of_kind_ne ?_
  cases h with
  | declaration h | function h | parameter h => simp [h]

theorem isDeclaring (h : forest.Declares d name) : (forest.role d).IsDeclaring := by
  cases h with
  | declaration h | function h | parameter h => rw [role, h]; trivial

theorem name_eq (h : forest.Declares d name) (h' : forest.Declares d name') : name = name' := by
  cases h <;> cases h' <;> simp_all

end Declares

/-- Nothing is declared below a mute node. -/
theorem Raw.isMute_of_below (h : forest.Raw) {n m : NodeId} (hn : (forest.role n).IsMute)
    (hm : forest.Below m n) : (forest.role m).IsMute := by
  induction hm with
  | refl => exact hn
  | @child p c hc _ ih =>
    exact ih (Kind.isMute_of_holds hn (h.shaped p) _ (List.mem_map_of_mem hc))

theorem Raw.not_declares (h : forest.Raw) {n d : NodeId} {name : String}
    (hn : (forest.role n).IsMute) (hd : forest.Below d n) : ¬forest.Declares d name := fun hdeclares =>
  Role.not_isDeclaring_of_isMute (h.isMute_of_below hn hd) hdeclares.isDeclaring

/-! ## From a node to its children -/

/-- What is before a child is what is before its parent, and what is below the children before. -/
theorem precedes_child_iff (hl : forest.Linked) {d p c : NodeId} {left right : List NodeId}
    (hchildren : forest.children p = left ++ c :: right) :
    forest.Precedes d c ↔ forest.Precedes d p ∨ ∃ b ∈ left, forest.Below d b := by
  have hc : c ∈ forest.children p := by simp [hchildren]
  constructor
  · rintro ⟨q, left', c', right', hq, hbefore, hbelow⟩
    have hc' : c' ∈ forest.children q := by simp [hq]
    by_cases hcc : c = c'
    · subst hcc
      obtain rfl : q = p :=
        Option.some.inj ((hl.parent_of_mem hc').symm.trans (hl.parent_of_mem hc))
      have hsplit : left' ++ c :: right' = left ++ c :: right := hq.symm.trans hchildren
      have hnodup : (left' ++ c :: right').Nodup := hq ▸ hl.nodup q
      have hleft : c ∉ left' := fun h =>
        (List.nodup_append.mp hnodup).2.2 c h c List.mem_cons_self rfl
      have hright : c ∉ right' := (List.nodup_cons.mp (List.nodup_append.mp hnodup).2.1).1
      obtain ⟨rfl, -⟩ := (List.append_cons_inj_of_notMem hleft hright).mp hsplit
      exact .inr hbefore
    · obtain ⟨parent, hparent, habove⟩ := hbelow.exists_parent hl hcc
      rw [hl.parent_of_mem hc] at hparent
      exact .inl ⟨q, left', c', right', hq, hbefore, Option.some.inj hparent ▸ habove⟩
  · rintro (⟨q, left', c', right', hq, hbefore, hbelow⟩ | hbefore)
    · exact ⟨q, left', c', right', hq, hbefore, (Below.of_mem hc).trans hbelow⟩
    · exact ⟨p, left, c, right, hchildren, hbefore, .refl⟩

/-- What is in sight behind the children `left` of `p`, before the next of its children. -/
def Met (forest : Forest) (p : NodeId) (left : List NodeId) (d : NodeId) : Prop :=
  forest.InSight d p ∨ (∃ b ∈ left, forest.Below d b) ∨ d = p ∧ (forest.kind p).isFunction

/-- What is in sight of a child is what is in sight of its parent, what is below the children before
it, and its parent itself if that is a function. -/
theorem inSight_child_iff (hl : forest.Linked) (hr : forest.Ranked) {d p c : NodeId}
    {left right : List NodeId} (hchildren : forest.children p = left ++ c :: right) :
    forest.InSight d c ↔ forest.Met p left d := by
  have hc : c ∈ forest.children p := by simp [hchildren]
  rw [InSight, Met, InSight, precedes_child_iff hl hchildren]
  constructor
  · rintro ((h | h) | ⟨hd, hbelow, hne⟩)
    · exact .inl (.inl h)
    · exact .inr (.inl h)
    · obtain ⟨q, hq, habove⟩ := hbelow.exists_parent hl hne
      rw [hl.parent_of_mem hc] at hq
      obtain rfl := Option.some.inj hq
      by_cases hdp : p = d
      · exact .inr (.inr ⟨hdp.symm, hdp ▸ hd⟩)
      · exact .inl (.inr ⟨hd, habove, hdp⟩)
  · rintro ((h | ⟨hd, hbelow, -⟩) | h | ⟨rfl, hd⟩)
    · exact .inl (.inl h)
    · refine .inr ⟨hd, (Below.of_mem hc).trans hbelow, ?_⟩
      rintro rfl
      exact Below.not_child hr hc hbelow
    · exact .inl (.inr h)
    · exact .inr ⟨hd, .of_mem hc, hr.ne_of_mem hc⟩

/-- What is not below a child is not met behind it for the first time. -/
theorem met_snoc_iff {p c d : NodeId} {left : List NodeId} (hc : ¬forest.Below d c) :
    forest.Met p (left ++ [c]) d ↔ forest.Met p left d := by
  simp [Met, or_and_right, exists_or, hc]

/-- Behind a child, what is below it has been met, too. -/
theorem met_behind_iff (hl : forest.Linked) (hr : forest.Ranked) {d p c : NodeId}
    {left right : List NodeId} (hchildren : forest.children p = left ++ c :: right) :
    forest.Met p (left ++ [c]) d ↔ forest.InSight d c ∨ forest.Below d c := by
  rw [inSight_child_iff hl hr hchildren]
  simp only [Met, List.mem_append, List.mem_singleton, or_and_right, exists_or, exists_eq_left,
    or_assoc, or_comm (a := forest.Below d c)]

/-- Behind all its children, everything below a node has been met. -/
theorem met_children_iff {p d : NodeId} :
    forest.Met p (forest.children p) d ∨ d = p ↔ forest.InSight d p ∨ forest.Below d p := by
  constructor
  · rintro ((h | ⟨b, hb, hbelow⟩ | ⟨rfl, -⟩) | rfl)
    · exact .inl h
    · exact .inr (hbelow.trans (.of_mem hb))
    · exact .inr .refl
    · exact .inr .refl
  · rintro (h | h)
    · exact .inl (.inl h)
    · rcases h.eq_or_child with rfl | ⟨c, hc, hbelow⟩
      · exact .inr rfl
      · exact .inl (.inr (.inl ⟨c, hc, hbelow⟩))

/-- What is in sight of a node is not below it. -/
theorem InSight.not_below (hl : forest.Linked) (hr : forest.Ranked) {d u : NodeId}
    (h : forest.InSight d u) : ¬forest.Below d u := by
  rcases h with ⟨p, left, c, right, hchildren, ⟨b, hb, hdb⟩, huc⟩ | ⟨-, hbelow, hne⟩
  · intro hdu
    have hnodup : (left ++ c :: right).Nodup := hchildren ▸ hl.nodup p
    have hbc : b ≠ c := fun he =>
      (List.nodup_append.mp hnodup).2.2 b hb c List.mem_cons_self he
    have hb' : b ∈ forest.children p := by simp [hchildren, hb]
    have hc : c ∈ forest.children p := by simp [hchildren]
    exact Below.apart hl hr hb' hc hbc hdb (hdu.trans huc)
  · exact fun hdu => hne (hbelow.antisymm hr hdu)

/-- A declaration is below the node whose scope it is in. -/
theorem DeclaredIn.below (hr : forest.Ranked) {scope d : NodeId} {name : String}
    (h : forest.DeclaredIn scope d name) : forest.Below d scope ∧ d ≠ scope := by
  obtain ⟨outer, henclosed⟩ := h.enclosed
  obtain ⟨hbelow, hne⟩ := henclosed.below_of_mem scope List.mem_cons_self
  exact ⟨hbelow, hne hr⟩

/-- Among mute nodes nothing new comes in sight. -/
theorem Raw.inSight_child_iff (h : forest.Raw) {n c d : NodeId} {name : String}
    (hmute : ∀ c ∈ forest.children n, (forest.role c).IsMute)
    (hfunction : (forest.kind n).isFunction = false) (hc : c ∈ forest.children n)
    (hd : forest.Declares d name) : forest.InSight d c ↔ forest.InSight d n := by
  obtain ⟨left, right, hsplit⟩ := List.append_of_mem hc
  rw [Forest.inSight_child_iff h.linked h.ranked hsplit, Met, hfunction]
  refine ⟨fun hmet => ?_, .inl⟩
  rcases hmet with hsight | ⟨b, hb, hbelow⟩ | ⟨-, hf⟩
  · exact hsight
  · have hb' : b ∈ forest.children n := by simp [hsplit, hb]
    exact absurd hd (h.not_declares (hmute b hb') hbelow)
  · cases hf

/-- Below a mute node nothing changes: the same scopes are around it, and the same declarations are in
sight. -/
theorem Raw.mute_below (h : forest.Raw) {n u : NodeId} {scopes : List NodeId}
    (hn : (forest.role n).IsMute) (hu : forest.Below u n) (he : forest.Enclosed n scopes) :
    forest.Enclosed u scopes ∧
      ∀ d name, forest.Declares d name → (forest.InSight d u ↔ forest.InSight d n) := by
  induction hu with
  | refl => exact ⟨he, fun _ _ _ => Iff.rfl⟩
  | @child p c hc _ ih =>
    have hmute : ∀ c ∈ forest.children p, (forest.role c).IsMute := fun _ hc =>
      h.isMute_of_below hn (.of_mem hc)
    have hclosed : ¬forest.Opens p c ∧ (forest.kind p).isFunction = false := by
      rw [role] at hn
      unfold Opens
      cases hkind : forest.kind p <;> simp_all [Kind.role, Role.IsMute, Kind.isFunction]
    obtain ⟨henclosed, hsight⟩ := ih (hmute c hc) (.through hc hclosed.1 he)
    exact ⟨henclosed, fun d name hd =>
      (hsight d name hd).trans (h.inSight_child_iff hmute hclosed.2 hc hd)⟩

/-- Below a node with mute parts only, which opens no scope, nothing changes either. -/
theorem Raw.below_of_mute_children (h : forest.Raw) {n u : NodeId} {scopes : List NodeId}
    (hmute : ∀ c ∈ forest.children n, (forest.role c).IsMute)
    (hclosed : ∀ c, ¬forest.Opens n c) (hfunction : (forest.kind n).isFunction = false)
    (hu : forest.Below u n) (he : forest.Enclosed n scopes) :
    forest.Enclosed u scopes ∧
      ∀ d name, forest.Declares d name → (forest.InSight d u ↔ forest.InSight d n) := by
  rcases hu.eq_or_child with rfl | ⟨c, hc, hu⟩
  · exact ⟨he, fun _ _ _ => Iff.rfl⟩
  · obtain ⟨henclosed, hsight⟩ := h.mute_below (hmute c hc) hu (.through hc (hclosed c) he)
    exact ⟨henclosed, fun d name hd =>
      (hsight d name hd).trans (h.inSight_child_iff hmute hfunction hc hd)⟩

end Forest

end MiniC
