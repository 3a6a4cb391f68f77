import MiniC.Proofs.Resolve.Rules
import MiniC.Proofs.Tree.Outgrown
import MiniC.Proofs.Ty.Common

/-!
# Promoting operands

A promotion puts at most two conversions above an operand, wherever the operand stands: in a slot of
another node, at the root, or by itself. `Raised` says what this changes and, more to the point, that
it changes nothing else.
-/

namespace MiniC.Forest

variable {forest other third : Forest} {id top top' m : NodeId} {extra extra' : Nat}

/-- A woven forest in which nothing is around the root. -/
structure Rooted (forest : Forest) : Prop where
  woven : forest.Woven
  lt_size : ∀ root ∈ forest.root, root < forest.size
  parent_root : ∀ root ∈ forest.root, forest.parent root = none

/-- At most `extra` conversions have been put in above `id`, and `top` is the uppermost of them. -/
structure Raised (forest other : Forest) (id top : NodeId) (extra : Nat) : Prop where
  rooted : other.Rooted
  size_le : forest.size ≤ other.size
  le_size : other.size ≤ forest.size + extra
  added : ∀ m : Nat, forest.size ≤ m → m < other.size → (other.kind m).isConversion
  stands : Stands other top id
  top_new : top = id ∨ forest.size ≤ top
  root_eq : other.root = forest.root.map (swap id top)
  children_eq : ∀ m : Nat, m < forest.size →
    other.children m = (forest.children m).map (swap id top)
  kind_eq : ∀ m : Nat, m < forest.size → other.kind m = forest.kind m
  type_eq : ∀ m : Nat, m < forest.size → other.type? m = forest.type? m

namespace Raised

theorem refl (hr : forest.Rooted) (id : NodeId) : Raised forest forest id id 0 where
  rooted := hr
  size_le := Nat.le_refl _
  le_size := Nat.le_refl _
  added m hle hlt := by omega
  stands := .refl id
  top_new := .inl rfl
  root_eq := by simp
  children_eq _ _ := by simp
  kind_eq _ _ := rfl
  type_eq _ _ := rfl

theorem mono (h : Raised forest other id top extra) (hle : extra ≤ extra') :
    Raised forest other id top extra' :=
  { h with le_size := h.le_size.trans (Nat.add_le_add_left hle _) }

/-- Two swaps in one slot are one. -/
theorem swap_swap (h : Raised forest other id top extra) (hm : m < forest.size) :
    swap top top' (swap id top m) = swap id top' m := by
  by_cases hid : m = id
  · rw [hid, swap_self, swap_self, swap_self]
  · rw [swap_of_ne hid, swap_of_ne hid]
    refine swap_of_ne fun htop => ?_
    rcases h.top_new with rfl | hle
    · exact hid htop
    · exact absurd (htop ▸ hm) (Nat.not_lt.mpr hle)

/-- What stood in a place below the operand still does. -/
theorem stands_of_below (h : Raised forest other id top extra) (hw : forest.Woven) {a b : NodeId}
    (hs : Stands forest a b) (ha : forest.Below a id) : Stands other a b := by
  induction hs with
  | refl a => exact .refl a
  | @wrap wrapper inner _ change hkind hchildren _ ih =>
    have hmem : inner ∈ forest.children wrapper := by simp [hchildren]
    have hlt : wrapper < forest.size := lt_size_of_mem_children hmem
    have hne : inner ≠ id := by
      rintro rfl
      exact Below.not_child hw.ranked hmem ha
    refine .wrap ((h.kind_eq wrapper hlt).trans hkind) ?_ (ih ((Below.of_mem hmem).trans ha))
    rw [h.children_eq wrapper hlt, hchildren, List.map_singleton, swap_of_ne hne]

/-- An operand may be raised further. -/
theorem trans (hr : forest.Rooted) (h : Raised forest other id top extra)
    (h' : Raised other third top top' extra') : Raised forest third id top' (extra + extra') where
  rooted := h'.rooted
  size_le := h.size_le.trans h'.size_le
  le_size := by
    have := h.le_size
    have := h'.le_size
    omega
  added m hle hlt := by
    by_cases hm : m < other.size
    · rw [h'.kind_eq m hm]
      exact h.added m hle hm
    · exact h'.added m (Nat.le_of_not_lt hm) hlt
  stands := h'.stands.trans (h'.stands_of_below h.rooted.woven h.stands .refl)
  top_new := by
    rcases h'.top_new with rfl | hle
    · exact h.top_new
    · exact .inr (h.size_le.trans hle)
  root_eq := by
    rw [h'.root_eq, h.root_eq]
    cases hroot : forest.root with
    | none => rfl
    | some root => exact congrArg some (h.swap_swap (hr.lt_size root hroot))
  children_eq m hm := by
    rw [h'.children_eq m (hm.trans_le h.size_le), h.children_eq m hm, List.map_map]
    exact List.map_congr_left fun c hc => h.swap_swap (hr.woven.linked.lt_size hc)
  kind_eq m hm := (h'.kind_eq m (hm.trans_le h.size_le)).trans (h.kind_eq m hm)
  type_eq m hm := (h'.type_eq m (hm.trans_le h.size_le)).trans (h.type_eq m hm)

end Raised

/-! ## One conversion -/

/-- A new conversion in the place of a node raises the node. -/
theorem raised_of_inserted (hr : forest.Rooted) {id : Nat} {change : Conversion}
    (hid : id < forest.size) (h : Inserted forest other id change) :
    Raised forest other id forest.size 1 := by
  have hl := hr.woven.linked
  have hanchored := h.anchored ⟨hl, hr.lt_size, hr.parent_root⟩ hid
  refine ⟨⟨⟨hanchored.linked, h.ranked hl hr.woven.ranked hid⟩, hanchored.lt_size, hanchored.parent_root⟩,
    ?_, h.size_eq.le, fun m hle hlt => ?_, ?_, .inr (Nat.le_refl _), h.root_eq_map hr.parent_root,
    fun m hm => h.children_old hm, fun m hm => ?_, fun m hm => ?_⟩
  · rw [h.size_eq]
    exact Nat.le_succ _
  · obtain rfl : m = forest.size := by
      have := h.size_eq
      omega
    rw [kind, h.node_new]
    rfl
  · exact .wrap (by rw [kind, h.node_new]) h.children_new (.refl id)
  · rw [kind, h.node_old m hm]
    rfl
  · rw [type?, h.node_old m hm]
    rfl

/-! ## Conversion and promotion -/

/-- Where there is a conversion, converting succeeds with one conversion node at most. -/
theorem raised_of_convert (hr : forest.Rooted) {source target : Ty} {coercion : Coercion}
    (hs : forest.type? id = some source) (hc : source.conversion? target = some coercion) :
    ∃ other top, forest.convert id target = .ok (other, top) ∧ Raised forest other id top 1 ∧
      other.HasType top target := by
  by_cases hsame : source.same target
  · exact ⟨forest, id, convert_of_same hs hsame, (Raised.refl hr id).mono (Nat.zero_le _),
      source, hs, hsame⟩
  · rw [Bool.not_eq_true] at hsame
    obtain ⟨other, hconvert, hinserted⟩ := inserted_of_convert hr.woven.linked hs hsame hc
    have hid : id < forest.size := lt_size_of_type (by simp [hs])
    exact ⟨other, forest.size, hconvert, raised_of_inserted hr hid hinserted, target, hinserted.type_new,
      Ty.same_refl _⟩

/-- Operands can be promoted to what they rise to. -/
theorem raised_of_promote (hr : forest.Rooted) {source common : Ty}
    (hs : forest.type? id = some source) (hrises : source.Rises common) :
    ∃ other top, forest.promote id common = .ok (other, top) ∧ Raised forest other id top 2 ∧
      other.HasType top common := by
  have hpromotes := Ty.promotesTo_of_rises hrises
  cases hwidens : source.widensThroughInt common with
  | false =>
    rw [Ty.promotesTo, hwidens, Bool.or_false, Option.isSome_iff_exists] at hpromotes
    obtain ⟨coercion, hc⟩ := hpromotes
    obtain ⟨other, top, hconvert, hraised, htype⟩ := raised_of_convert hr hs hc
    exact ⟨other, top, by simp [promote, hs, hwidens, hconvert], hraised.mono (by omega), htype⟩
  | true =>
    obtain ⟨⟨_, hfirst⟩, hsecond⟩ := Ty.conversion?_of_widensThroughInt hwidens
    obtain ⟨middle, widened, hconvert, hraised, type, htype, hint⟩ := raised_of_convert hr hs hfirst
    obtain ⟨_, hc⟩ := hsecond type hint
    obtain ⟨other, top, hconvert', hraised', htype'⟩ := raised_of_convert hraised.rooted htype hc
    exact ⟨other, top, by simp [promote, hs, hwidens, hconvert, hconvert'],
      hraised.trans hr hraised', htype'⟩

end MiniC.Forest
