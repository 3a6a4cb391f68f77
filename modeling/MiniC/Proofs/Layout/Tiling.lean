import Mathlib.Tactic.Common

/-!
# Items one behind the other

`Tiled start length next items stop` says that the ranges of `items` follow each other without a gap
from `next` to `stop`. Ranges of different items are apart then, and every number in between is in one
of them.
-/

namespace MiniC

variable {α β : Type} {start start' : α → Option Nat} {length length' : α → Nat}
  {items items' : List α} {item item' : α} {next middle stop slot : Nat}

/-- The ranges of items follow each other from `next` to `stop`. -/
def Tiled (start : α → Option Nat) (length : α → Nat) : Nat → List α → Nat → Prop
  | next, [], stop => next = stop
  | next, item :: items, stop =>
    start item = some next ∧ Tiled start length (next + length item) items stop

/-- A slot is in the range of an item. -/
def Covers (start : α → Option Nat) (length : α → Nat) (item : α) (slot : Nat) : Prop :=
  ∃ first, start item = some first ∧ first ≤ slot ∧ slot < first + length item

namespace Tiled

theorem append (h : Tiled start length next items middle)
    (h' : Tiled start length middle items' stop) : Tiled start length next (items ++ items') stop := by
  induction items generalizing next with
  | nil =>
    obtain rfl : next = middle := h
    exact h'
  | cons item items ih => exact ⟨h.1, ih h.2⟩

theorem congr (h : Tiled start length next items stop)
    (hsame : ∀ item ∈ items, start' item = start item ∧ length' item = length item) :
    Tiled start' length' next items stop := by
  induction items generalizing next with
  | nil => exact h
  | cons item items ih =>
    obtain ⟨hstart, hlength⟩ := hsame item List.mem_cons_self
    refine ⟨hstart.trans h.1, ?_⟩
    rw [hlength]
    exact ih h.2 fun other hother => hsame other (List.mem_cons_of_mem _ hother)

/-- Items that are other things have the ranges of those. -/
theorem map {f : β → α} {items : List β}
    (h : Tiled (start ∘ f) (length ∘ f) next items stop) :
    Tiled start length next (items.map f) stop := by
  induction items generalizing next with
  | nil => exact h
  | cons item items ih => exact ⟨h.1, ih h.2⟩

theorem le (h : Tiled start length next items stop) : next ≤ stop := by
  induction items generalizing next with
  | nil => exact Nat.le_of_eq h
  | cons item items ih =>
    have := ih h.2
    omega

/-- Every item lies between the ends. -/
theorem bounds (h : Tiled start length next items stop) (hitem : item ∈ items) :
    ∃ first, start item = some first ∧ next ≤ first ∧ first + length item ≤ stop := by
  induction items generalizing next with
  | nil => cases hitem
  | cons other items ih =>
    rcases List.mem_cons.mp hitem with rfl | hitem
    · exact ⟨next, h.1, Nat.le_refl _, h.2.le⟩
    · obtain ⟨first, hfirst, hnext, hstop⟩ := ih h.2 hitem
      exact ⟨first, hfirst, by omega, hstop⟩

/-- Items in front that take one number each are numbered in order. -/
theorem first_eq (h : Tiled start length next (items ++ items') stop)
    (hunit : ∀ item ∈ items, length item = 1) {index : Nat} (hitem : items[index]? = some item) :
    start item = some (next + index) := by
  induction items generalizing next index with
  | nil => cases hitem
  | cons other items ih =>
    obtain ⟨hother, hunit⟩ := List.forall_mem_cons.mp hunit
    cases index with
    | zero =>
      obtain rfl : other = item := Option.some.inj hitem
      exact h.1
    | succ index =>
      have hrest : Tiled start length (next + 1) (items ++ items') stop := hother ▸ h.2
      rw [ih hrest hunit hitem, Nat.add_assoc, Nat.add_comm 1 index]

/-- Every number between the ends is in the range of an item. -/
theorem exists_covers (h : Tiled start length next items stop) (hnext : next ≤ slot)
    (hstop : slot < stop) : ∃ item ∈ items, Covers start length item slot := by
  induction items generalizing next with
  | nil =>
    obtain rfl : next = stop := h
    omega
  | cons other items ih =>
    by_cases hslot : slot < next + length other
    · exact ⟨other, List.mem_cons_self, next, h.1, hnext, hslot⟩
    · obtain ⟨item, hitem, hcovers⟩ := ih h.2 (by omega)
      exact ⟨item, List.mem_cons_of_mem _ hitem, hcovers⟩

/-- A number is between the ends if and only if it is in the range of an item. -/
theorem covers_iff (h : Tiled start length next items stop) :
    (next ≤ slot ∧ slot < stop) ↔ ∃ item ∈ items, Covers start length item slot := by
  constructor
  · intro ⟨hnext, hstop⟩
    exact h.exists_covers hnext hstop
  · rintro ⟨item, hitem, first, hfirst, hle, hlt⟩
    obtain ⟨first', hfirst', hnext, hstop⟩ := h.bounds hitem
    rw [hfirst, Option.some.injEq] at hfirst'
    omega

/-- No number is in the ranges of two items. -/
theorem eq_of_covers (h : Tiled start length next items stop) (hnodup : items.Nodup)
    (hitem : item ∈ items) (hitem' : item' ∈ items) (hc : Covers start length item slot)
    (hc' : Covers start length item' slot) : item = item' := by
  induction items generalizing next with
  | nil => cases hitem
  | cons other items ih =>
    have apart : ∀ {x}, x ∈ items → Covers start length x slot →
        ¬Covers start length other slot := by
      rintro x hx ⟨first, hfirst, hle, -⟩ ⟨first', hfirst', -, hlt⟩
      obtain ⟨first'', hfirst'', hnext, -⟩ := h.2.bounds hx
      rw [hfirst, Option.some.injEq] at hfirst''
      rw [h.1, Option.some.injEq] at hfirst'
      omega
    rcases List.mem_cons.mp hitem with heq | hmem <;>
      rcases List.mem_cons.mp hitem' with heq' | hmem'
    · rw [heq, heq']
    · exact absurd (heq ▸ hc) (apart hmem' hc')
    · exact absurd (heq' ▸ hc') (apart hmem hc)
    · exact ih h.2 (List.nodup_cons.mp hnodup).2 hmem hmem'

end Tiled

end MiniC
