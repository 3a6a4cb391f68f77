import MiniC.Proofs.Tree.Promotion

/-!
# Where operands meet

Up to constness the common type is a partial join on the types of operands: it does not depend on
their order or grouping, and it is missing for void and for different pointers only. Promotion brings
both operands there, so that an instruction finds two cells of one tag.
-/

namespace MiniC

namespace Ty

variable {a b c : Ty}

theorem isScalar_of_mem_common? : ∀ d ∈ a.common? b, d.isScalar := fun _ h => (common?_cases h).1

/-- Constness of the operands does not count. -/
theorem common?_congr {a' b' : Ty} (ha : a.same a') (hb : b.same b') :
    (a'.common? b').map plain = (a.common? b).map plain := by
  refine map_plain_eq_of_rises isScalar_of_mem_common? isScalar_of_mem_common? fun d => ?_
  rw [rises_common?, rises_common?, rises_congr (decay_same ha), rises_congr (decay_same hb)]

theorem common?_comm (a b : Ty) : (b.common? a).map plain = (a.common? b).map plain := by
  refine map_plain_eq_of_rises isScalar_of_mem_common? isScalar_of_mem_common? fun d => ?_
  rw [rises_common?, rises_common?, and_comm]

theorem common?_self (a : Ty) :
    (a.common? a).map plain = if a.isVoid then none else some a.decay.plain := by
  split
  · next h => rw [common?_eq_none_iff.mpr (.inl h), Option.map_none]
  · next h =>
    have hscalar : a.decay.isScalar := by
      rw [isVoid_iff_rank?] at h
      obtain ⟨rank, hrank⟩ := Option.ne_none_iff_exists'.mp h
      exact isScalar_of_rank? hrank
    change _ = (some a.decay).map plain
    refine map_plain_eq_of_rises isScalar_of_mem_common? (by simpa using hscalar) fun d => ?_
    rw [rises_common?, and_self]
    simp

/-- What the common type of a common type and a third operand rises to. -/
theorem rises_bind_common? {o : Option Ty} {d : Ty} :
    (∃ t ∈ o.bind (·.common? c), t.Rises d) ↔ (∃ t ∈ o, t.Rises d) ∧ c.Rises d := by
  cases o with
  | none => simp
  | some t => simpa using rises_common?

theorem common?_assoc (a b c : Ty) :
    ((a.common? b).bind (·.common? c)).map plain = ((b.common? c).bind a.common?).map plain := by
  -- From either side the two common types are bounded by what all three operands rise to.
  have hscalar : ∀ {o : Option Ty} {f : Ty → Option Ty}, (∀ t, ∀ d ∈ f t, d.isScalar) →
      ∀ d ∈ o.bind f, d.isScalar := by
    intro o f hf d hd
    obtain ⟨t, -, hd⟩ := Option.bind_eq_some_iff.mp hd
    exact hf t d hd
  have hflip : ((b.common? c).bind a.common?).map plain =
      ((b.common? c).bind (·.common? a)).map plain := by
    cases b.common? c with
    | none => rfl
    | some t => exact common?_comm t a
  rw [hflip]
  refine map_plain_eq_of_rises (hscalar fun _ => isScalar_of_mem_common?)
    (hscalar fun _ => isScalar_of_mem_common?) fun d => ?_
  rw [rises_bind_common?, rises_bind_common?, rises_common?, rises_common?]
  tauto

theorem tag?_plain (type : Ty) : type.plain.tag? = type.tag? := by
  cases type with
  | base name => cases name <;> rfl
  | pointer | array => rfl

theorem tag?_eq_of_same (h : a.same b) : a.tag? = b.tag? := by
  rw [← tag?_plain a, ← tag?_plain b, show a.plain = b.plain by simpa [same] using h]

/-- Every type of one cell has a tag. -/
theorem exists_tag_of_isScalar (h : c.isScalar) : ∃ tag, c.tag? = some tag := by
  cases c with
  | base name => cases name <;> simp_all [isScalar, isIntegral, isPointer, kind, tag?]
  | pointer => exact ⟨_, rfl⟩
  | array => cases h

end Ty

namespace Forest

variable {forest middle other : Forest} {left right top top' id : NodeId} {common : Ty}

/-- The node carries a value of the type, constness apart, and of the tag. -/
def Carries (forest : Forest) (id : NodeId) (type : Ty) (tag : Machine.Tag) : Prop :=
  ∃ found, forest.type? id = some found ∧ found.same type ∧ found.tag? = some tag

/-- Two operands have been promoted to one type, the left one first. Whatever is now in a place
where one of them was, be it a slot or the root, carries a value of that type. -/
structure Joined (forest middle other : Forest) (left right top top' : NodeId) (common : Ty)
    (tag : Machine.Tag) : Prop where
  raised : Raised forest middle left top 2
  raised' : Raised middle other right top' 2
  carries : other.Carries top common tag
  carries' : other.Carries top' common tag
  slot : ∀ operand, operand = left ∨ operand = right → ∀ p i, forest.child? p i = some operand →
    ∃ found, other.child? p i = some found ∧ other.Carries found common tag
  root : ∀ operand, operand = left ∨ operand = right → forest.root = some operand →
    ∃ found, other.root = some found ∧ other.Carries found common tag

/-- Operands that rise to one type of one cell meet there. -/
theorem exists_joined (hr : forest.Rooted) {a b : Ty} {tag : Machine.Tag}
    (hleft : forest.type? left = some a) (hright : forest.type? right = some b)
    (ha : a.Rises common) (hb : b.Rises common) (htag : common.tag? = some tag) :
    ∃ middle other top top', forest.promote left common = .ok (middle, top) ∧
      middle.promote right common = .ok (other, top') ∧
      Joined forest middle other left right top top' common tag := by
  obtain ⟨middle, top, hpromote, hraised, htype⟩ := raised_of_promote hr hleft ha
  have hright' : middle.type? right = some b := by
    rw [hraised.type_eq right (lt_size_of_type (by simp [hright])), hright]
  obtain ⟨other, top', hpromote', hraised', htype'⟩ :=
    raised_of_promote hraised.rooted hright' hb
  have carries_of_hasType : ∀ id, other.HasType id common → other.Carries id common tag := by
    rintro id ⟨found, hfound, hsame⟩
    exact ⟨found, hfound, hsame, (Ty.tag?_eq_of_same hsame).trans htag⟩
  have hcarries : other.Carries top common tag := by
    obtain ⟨found, hfound, hsame⟩ := htype
    refine carries_of_hasType top ⟨found, ?_, hsame⟩
    rw [hraised'.type_eq top (lt_size_of_type (by simp [hfound])), hfound]
  have hcarries' := carries_of_hasType top' htype'
  -- Should the operands be one node, the second promotion goes in below the first one.
  have hplace : ∀ operand, operand = left ∨ operand = right →
      other.Carries (swap right top' (swap left top operand)) common tag := by
    intro operand hoperand
    by_cases hl : operand = left
    · rw [hl, swap_self]
      by_cases htop : top = right
      · rwa [htop, swap_self]
      · rwa [swap_of_ne htop]
    · rw [swap_of_ne hl, hoperand.resolve_left hl, swap_self]
      exact hcarries'
  refine ⟨middle, other, top, top', hpromote, hpromote', hraised, hraised', hcarries, hcarries',
    fun operand hoperand p i hp => ⟨_, ?_, hplace operand hoperand⟩,
    fun operand hoperand hroot => ⟨_, ?_, hplace operand hoperand⟩⟩
  · have hlt : p < forest.size := lt_size_of_mem_children (List.mem_of_getElem? hp)
    rw [child?, hraised'.children_eq p (hlt.trans_le hraised.size_le), hraised.children_eq p hlt,
      List.getElem?_map, List.getElem?_map, show (forest.children p)[i]? = some operand from hp]
    rfl
  · rw [hraised'.root_eq, hraised.root_eq, hroot]
    rfl

end Forest

/-- The common type is a partial join of the types of operands, constness apart, that promotion
brings both operands to. -/
theorem common_type_is_join_reached_by_promotion (a b c : Ty) :
    (∀ a' b', a.same a' → b.same b' →
      (a'.common? b').map Ty.plain = (a.common? b).map Ty.plain) ∧
    (b.common? a).map Ty.plain = (a.common? b).map Ty.plain ∧
    (a.common? a).map Ty.plain = (if a.isVoid then none else some a.decay.plain) ∧
    ((a.common? b).bind (·.common? c)).map Ty.plain =
      ((b.common? c).bind a.common?).map Ty.plain ∧
    (a.common? b = none ↔ a.isVoid ∨ b.isVoid ∨
      a.decay.isPointer ∧ b.decay.isPointer ∧ ¬a.decay.same b.decay) ∧
    ∀ common, a.common? b = some common → ∃ tag, common.tag? = some tag ∧
      ∀ (forest : Forest) (left right : NodeId), forest.Rooted → forest.type? left = some a →
        forest.type? right = some b →
        ∃ middle other top top', forest.promote left common = .ok (middle, top) ∧
          middle.promote right common = .ok (other, top') ∧
          Forest.Joined forest middle other left right top top' common tag := by
  refine ⟨fun _ _ => Ty.common?_congr, Ty.common?_comm a b, Ty.common?_self a,
    Ty.common?_assoc a b c, Ty.common?_eq_none_iff, fun common h => ?_⟩
  have hscalar := Ty.isScalar_of_mem_common? common h
  obtain ⟨tag, htag⟩ := Ty.exists_tag_of_isScalar hscalar
  obtain ⟨ha, hb⟩ := Ty.rises_common?.mp ⟨common, h, Ty.Rises.refl hscalar⟩
  exact ⟨tag, htag, fun _ _ _ hr hleft hright => Forest.exists_joined hr hleft hright ha hb htag⟩

/-- A sum of a character and a pointer. -/
def charAndPointer : Forest where
  nodes := #[
    { kind := .identifier "c" none, line := 1, parent := some 2, type := some .char },
    { kind := .identifier "p" none, line := 1, parent := some 2,
      type := some (.pointer (.base .int true) true) },
    { kind := .binary (.arith .add), line := 1, children := [0, 1] }]
  root := some 2

theorem rooted_charAndPointer : charAndPointer.Rooted := by
  have hchildren : ∀ p c : NodeId,
      c ∈ charAndPointer.children p ↔ p = 2 ∧ (c = 0 ∨ c = 1) := by
    intro p c
    match p with
    | 0 | 1 | 2 => simp [Forest.children, Forest.node, charAndPointer]
    | p + 3 =>
      have hsize : charAndPointer.size ≤ p + 3 := Nat.le_add_left 3 p
      simp [Forest.children, Forest.node_of_size_le hsize, default]
  have hparent : ∀ p c : NodeId,
      charAndPointer.parent c = some p ↔ p = 2 ∧ (c = 0 ∨ c = 1) := by
    intro p c
    match c with
    | 0 | 1 | 2 => simp [Forest.parent, Forest.node, charAndPointer, eq_comm]
    | c + 3 =>
      have hsize : charAndPointer.size ≤ c + 3 := Nat.le_add_left 3 c
      simp [Forest.parent, Forest.node_of_size_le hsize, default]
  refine ⟨⟨⟨fun {p c} h => ?_, fun {p c} h => ?_, fun p => ?_⟩, fun id => id, fun {p c} h => ?_⟩,
    ?_, ?_⟩
  · exact (hparent p c).mpr ((hchildren p c).mp h)
  · exact (hchildren p c).mpr ((hparent p c).mp h)
  · match p with
    | 0 | 1 | 2 => simp [Forest.children, Forest.node, charAndPointer]
    | p + 3 =>
      have hnil : charAndPointer.children (p + 3) = [] :=
        List.eq_nil_iff_forall_not_mem.mpr fun c hc => by simpa using ((hchildren _ c).mp hc).1
      rw [hnil]
      exact List.nodup_nil
  · obtain ⟨rfl, rfl | rfl⟩ := (hchildren p c).mp h <;> decide
  · rintro root ⟨rfl⟩
    decide
  · rintro root ⟨rfl⟩
    rfl

theorem common_type_is_join_reached_by_promotion_char_pointer :
    Ty.char.common? (.pointer (.base .int true) true) = some (.pointerTo (.base .int true)) ∧
    ∃ middle other top top',
      charAndPointer.promote 0 (.pointerTo (.base .int true)) = .ok (middle, top) ∧
      middle.promote 1 (.pointerTo (.base .int true)) = .ok (other, top') ∧
      charAndPointer.Joined middle other 0 1 top top' (.pointerTo (.base .int true)) .address := by
  have hcommon : Ty.char.common? (.pointer (.base .int true) true) =
      some (.pointerTo (.base .int true)) := by decide
  obtain ⟨-, -, -, -, -, hmeet⟩ :=
    common_type_is_join_reached_by_promotion .char (.pointer (.base .int true) true) .int
  obtain ⟨tag, htag, hjoined⟩ := hmeet _ hcommon
  obtain rfl : Machine.Tag.address = tag := Option.some.inj htag
  exact ⟨hcommon, hjoined charAndPointer 0 1 rooted_charAndPointer rfl rfl⟩

end MiniC
