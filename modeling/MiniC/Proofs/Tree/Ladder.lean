import MiniC.Proofs.Tree.Casts
import MiniC.Proofs.Ty.Common

/-!
# Ladders of conversions

Conversions that are put in one after the other stand one above the other, in the place that their
expression had. `Topped` describes the whole forest behind them, node by node, for any number of
conversions; a conversion more is a conversion that is put in above the uppermost one.
-/

namespace MiniC

namespace Ty

variable {source target : Ty} {changes : List Conversion}

/-- A value can be brought to one type if there is a conversion to it. -/
theorem isSome_route?_singleton :
    (source.route? [target]).isSome = (source.conversion? target).isSome := by
  by_cases hsame : source.same target
  · simp [route?_of_same hsame, conversion?, hsame]
  · rw [Bool.not_eq_true] at hsame
    cases hc : source.conversion? target <;> simp [route?, hsame, hc]

/-- A character gets to a pointer in two parts, and neither of them is missing. -/
theorem exists_route?_stops (h : source.widensThroughInt target) :
    ∃ lower upper, source.route? [.int] = some lower ∧ (source.after lower).route? [target] = some upper ∧
      source.route? (source.stops target) = some (lower ++ upper) := by
  obtain ⟨⟨_, hfirst⟩, hsecond⟩ := conversion?_of_widensThroughInt h
  obtain ⟨lower, hlower⟩ : ∃ lower, source.route? [.int] = some lower :=
    Option.isSome_iff_exists.mp (by rw [isSome_route?_singleton, hfirst]; rfl)
  obtain ⟨_, hc⟩ := hsecond _ (after_same (show source.route? ([] ++ [.int]) = some lower from hlower))
  obtain ⟨upper, hupper⟩ : ∃ upper, (source.after lower).route? [target] = some upper :=
    Option.isSome_iff_exists.mp (by rw [isSome_route?_singleton, hc]; rfl)
  refine ⟨lower, upper, hlower, hupper, ?_⟩
  rw [stops, if_pos h]
  exact route?_append hlower hupper

/-- A value that does not have the type gets it by the only conversion. -/
theorem after_eq_of_route?_singleton (hsame : source.same target = false)
    (h : source.route? [target] = some changes) : changes ≠ [] ∧ source.after changes = target := by
  rcases route?_singleton_cases h with ⟨hsame', -⟩ | ⟨coercion, -, -, rfl⟩
  · rw [hsame] at hsame'
    cases hsame'
  · exact ⟨List.cons_ne_nil _ _, rfl⟩

/-- A value that does not have the common type gets it by the last conversion. -/
theorem after_eq_of_route?_stops (hsame : source.same target = false)
    (h : source.route? (source.stops target) = some changes) :
    changes ≠ [] ∧ source.after changes = target := by
  cases hwidens : source.widensThroughInt target with
  | false =>
    rw [stops, hwidens] at h
    exact after_eq_of_route?_singleton hsame h
  | true =>
    obtain ⟨lower, upper, hlower, hupper, hboth⟩ := exists_route?_stops hwidens
    obtain rfl : lower ++ upper = changes := Option.some.inj (hboth.symm.trans h)
    -- What stands between is an integer, and what is wanted is a pointer.
    have hne : (source.after lower).same target = false := by
      have hint := after_same (show source.route? ([] ++ [.int]) = some lower from hlower)
      have hpointer : target.kind = .pointer := by simp_all [widensThroughInt]
      by_contra hsame
      have hkind := (kind_eq_of_same hint).symm.trans (kind_eq_of_same (by simpa using hsame))
      rw [hpointer] at hkind
      cases hkind
    obtain ⟨hupper', hafter⟩ := after_eq_of_route?_singleton hne hupper
    exact ⟨by simp [hupper'], by rw [after_append, hafter]⟩

end Ty

namespace Forest

variable {forest mid other : Forest} {id : NodeId} {changes more : List Conversion} {change : Conversion}
  {source target : Ty}

/-- What stands so many conversions above `id`, once they have been put in. -/
def rung (forest : Forest) (id : NodeId) : Nat → NodeId
  | 0 => id
  | step + 1 => forest.size + step

/-- The conversions, the lowest first, have got the place of `id`, and nothing else has changed. -/
structure Topped (forest other : Forest) (id : NodeId) (changes : List Conversion) : Prop where
  size_eq : other.size = forest.size + changes.length
  root_eq : other.root = forest.root.map (swap id (forest.rung id changes.length))
  node_old : ∀ m < forest.size, other.node m =
    { forest.node m with
      parent := if m = id ∧ changes ≠ [] then some (forest.rung id 1) else forest.parent m
      children := (forest.children m).map (swap id (forest.rung id changes.length)) }
  node_new : ∀ step change, changes[step]? = some change →
    other.node (forest.rung id (step + 1)) =
      { kind := .conversion change, line := forest.line id, scope := (forest.node id).scope
        parent := if step + 1 = changes.length then forest.parent id else some (forest.rung id (step + 2))
        children := [forest.rung id step], function := (forest.node id).function
        type := some change.target }

/-! ## Rungs -/

theorem rung_lt (hid : id < forest.size) (step : Nat) : forest.rung id step < forest.size + step := by
  cases step with
  | zero => exact hid
  | succ step => exact Nat.lt_succ_self _

theorem rung_ne (hid : id < forest.size) {low high : Nat} (h : low < high) :
    forest.rung id low ≠ forest.rung id high := by
  obtain ⟨high, rfl⟩ := Nat.exists_eq_add_one_of_ne_zero (Nat.ne_zero_of_lt h)
  have hle : forest.size + low ≤ forest.size + high := Nat.add_le_add_left (Nat.le_of_lt_succ h) _
  exact Nat.ne_of_lt (Nat.lt_of_lt_of_le (rung_lt hid low) hle)

/-- Of the nodes that were there before, only the expression is on the ladder. -/
theorem ne_rung {m : Nat} (hm : m < forest.size) (hne : m ≠ id) (step : Nat) :
    m ≠ forest.rung id step := by
  cases step with
  | zero => exact hne
  | succ step => exact Nat.ne_of_lt (Nat.lt_add_right step hm)

/-- Two swaps in one place are one. -/
theorem swap_rung {m : Nat} (hm : m < forest.size) (step : Nat) (new : NodeId) :
    swap (forest.rung id step) new (swap id (forest.rung id step) m) = swap id new m := by
  by_cases hmid : m = id
  · rw [hmid, swap_self, swap_self, swap_self]
  · rw [swap_of_ne hmid, swap_of_ne hmid, swap_of_ne (ne_rung hm hmid step)]

namespace Topped

theorem refl (forest : Forest) (id : NodeId) : Topped forest forest id [] where
  size_eq := rfl
  root_eq := by simp [rung]
  node_old m _ := by simp [rung, parent, children]
  node_new step change h := by simp at h

/-- The uppermost conversion stands where the expression stood. -/
theorem node_top (h : Topped forest mid id changes) (hid : id < forest.size) :
    mid.line (forest.rung id changes.length) = forest.line id ∧
      (mid.node (forest.rung id changes.length)).scope = (forest.node id).scope ∧
      (mid.node (forest.rung id changes.length)).function = (forest.node id).function ∧
      mid.parent (forest.rung id changes.length) = forest.parent id := by
  rcases List.eq_nil_or_concat changes with rfl | ⟨lower, change, rfl⟩
  · have hnode := h.node_old id hid
    simp only [ne_eq, not_true_eq_false, and_false, if_false] at hnode
    simp [rung, line, parent, hnode]
  · have hnode := h.node_new lower.length change (by simp)
    rw [List.length_concat] at hnode ⊢
    simp [line, parent, hnode]

/-- One conversion more. -/
theorem snoc (h : Topped forest mid id changes) (ha : forest.Anchored) (hmid : mid.Anchored)
    (hid : id < forest.size) (hi : Inserted mid other (forest.rung id changes.length) change) :
    Topped forest other id (changes ++ [change]) := by
  have hnext : forest.rung id (changes.length + 1) = mid.size := h.size_eq.symm
  refine ⟨?_, ?_, fun m hm => ?_, fun step change' hstep => ?_⟩
  · rw [hi.size_eq, h.size_eq, List.length_append, List.length_singleton, Nat.add_assoc]
  · rw [hi.root_eq_map hmid.parent_root, h.root_eq, List.length_append, List.length_singleton, hnext]
    cases hroot : forest.root with
    | none => rfl
    | some root => exact congrArg some (swap_rung (ha.lt_size root hroot) _ _)
  · have hlt : m < mid.size := by
      rw [h.size_eq]
      exact Nat.lt_add_right _ hm
    have hslots : (mid.children m).map (swap (forest.rung id changes.length) mid.size) =
        (forest.children m).map (swap id mid.size) := by
      rw [children, h.node_old m hm, List.map_map]
      exact List.map_congr_left fun c hc => swap_rung (ha.linked.lt_size hc) _ _
    have hparent : (if m = forest.rung id changes.length then some mid.size else mid.parent m) =
        if m = id ∧ changes ++ [change] ≠ [] then some (forest.rung id 1) else forest.parent m := by
      have hold : mid.parent m =
          if m = id ∧ changes ≠ [] then some (forest.rung id 1) else forest.parent m := by
        rw [parent, h.node_old m hm]
      cases changes with
      | nil => simp [hold, rung, h.size_eq]
      | cons lowest others =>
        have hne : m ≠ forest.rung id (others.length + 1) := Nat.ne_of_lt (Nat.lt_add_right _ hm)
        simp [hold, hne]
    rw [hi.node_old m hlt, hparent, hslots, h.node_old m hm, List.length_append, List.length_singleton,
      hnext]
  · rw [List.length_append, List.length_singleton]
    rcases Nat.lt_or_ge step changes.length with hlt | hge
    · rw [List.getElem?_append_left hlt] at hstep
      have hnode := h.node_new step change' hstep
      have hle : forest.rung id (step + 1) < mid.size := by
        rw [h.size_eq]
        exact Nat.lt_of_lt_of_le (rung_lt hid _) (Nat.add_le_add_left hlt _)
      have hbelow : swap (forest.rung id changes.length) mid.size (forest.rung id step) =
          forest.rung id step := swap_of_ne (rung_ne hid hlt)
      have hparent : (if forest.rung id (step + 1) = forest.rung id changes.length then some mid.size
          else mid.parent (forest.rung id (step + 1))) = some (forest.rung id (step + 2)) := by
        rcases Nat.lt_or_eq_of_le hlt with hlt | heq
        · rw [if_neg (rung_ne hid hlt), parent, hnode, if_neg (Nat.ne_of_lt hlt)]
        · rw [if_pos (congrArg _ heq), ← hnext, ← heq]
      rw [hi.node_old _ hle, hparent, children, hnode, if_neg (by omega : ¬step + 1 = changes.length + 1)]
      simp [hbelow]
    · obtain ⟨rfl, rfl⟩ : step = changes.length ∧ change' = change := by
        rw [List.getElem?_append_right hge, List.getElem?_singleton] at hstep
        split at hstep
        · exact ⟨by omega, (Option.some.inj hstep).symm⟩
        · cases hstep
      obtain ⟨hline, hscope, hfunction, hparent⟩ := h.node_top hid
      rw [hnext, hi.node_new, hline, hscope, hfunction, hparent, if_pos rfl]

/-- Converting what stands on a ladder makes it higher, unless the type is right already. -/
theorem convert (h : Topped forest mid id changes) (ha : forest.Anchored) (hmid : mid.Anchored)
    (hid : id < forest.size) (hs : mid.type? (forest.rung id changes.length) = some source)
    (hroute : source.route? [target] = some more) :
    ∃ other, mid.convert (forest.rung id changes.length) target =
        .ok (other, forest.rung id (changes ++ more).length) ∧
      Topped forest other id (changes ++ more) ∧ other.Anchored ∧
      other.type? (forest.rung id (changes ++ more).length) = some (source.after more) := by
  rcases Ty.route?_singleton_cases hroute with ⟨hsame, rfl⟩ | ⟨coercion, hsame, hc, rfl⟩
  · rw [List.append_nil]
    exact ⟨mid, convert_of_same hs hsame, h, hmid, hs⟩
  · obtain ⟨other, hconvert, hinserted⟩ := inserted_of_convert hmid.linked hs hsame hc
    have htop : forest.rung id (changes ++ [(⟨source, target, coercion⟩ : Conversion)]).length =
        mid.size := by
      rw [List.length_append, List.length_singleton, h.size_eq]
      rfl
    have hlt : forest.rung id changes.length < mid.size := h.size_eq ▸ rung_lt hid _
    rw [htop]
    exact ⟨other, hconvert, h.snoc ha hmid hid hinserted, hinserted.anchored hmid hlt, hinserted.type_new⟩

/-- A node that is neither the expression nor its parent stays as it is. -/
theorem node_eq (h : Topped forest other id changes) (hl : forest.Linked) {m : Nat} (hm : m < forest.size)
    (hid : m ≠ id) (hp : forest.parent id ≠ some m) : other.node m = forest.node m := by
  rw [h.node_old m hm, if_neg fun h => hid h.1, hl.map_swap_of_ne hp]
  rfl

end Topped

/-! ## Conversion and promotion -/

/-- What is wanted in the end is the last of the types on the way. -/
theorem topped_of_convert (ha : forest.Anchored) (hs : forest.type? id = some source)
    (hroute : source.route? [target] = some changes) :
    ∃ other, forest.convert id target = .ok (other, forest.rung id changes.length) ∧
      Topped forest other id changes ∧ other.Anchored ∧
      other.type? (forest.rung id changes.length) = some (source.after changes) :=
  (Topped.refl forest id).convert ha ha (lt_size_of_type (by simp [hs])) hs hroute

theorem topped_of_promote (ha : forest.Anchored) (hs : forest.type? id = some source)
    (hroute : source.route? (source.stops target) = some changes) :
    ∃ other, forest.promote id target = .ok (other, forest.rung id changes.length) ∧
      Topped forest other id changes ∧ other.Anchored ∧
      other.type? (forest.rung id changes.length) = some (source.after changes) := by
  cases hwidens : source.widensThroughInt target with
  | false =>
    rw [Ty.stops, hwidens] at hroute
    have hpromote : forest.promote id target = forest.convert id target := by simp [promote, hs, hwidens]
    rw [hpromote]
    exact topped_of_convert ha hs hroute
  | true =>
    obtain ⟨lower, upper, hlower, hupper, hboth⟩ := Ty.exists_route?_stops hwidens
    obtain rfl : lower ++ upper = changes := Option.some.inj (hboth.symm.trans hroute)
    obtain ⟨mid, hconvert, htopped, hmid, htype⟩ := topped_of_convert ha hs hlower
    obtain ⟨other, hconvert', htopped', hother, htype'⟩ :=
      htopped.convert ha hmid (lt_size_of_type (by simp [hs])) htype hupper
    rw [Ty.after_append]
    exact ⟨other, by simp [promote, hs, hwidens, hconvert, hconvert'], htopped', hother, htype'⟩

end Forest

end MiniC
