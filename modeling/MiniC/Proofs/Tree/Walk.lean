import MiniC.Emit.Layout
import MiniC.Proofs.Tree.Shape

/-!
# Walks over a forest

A walk in preorder meets every node below its start, and meets it once. `around` is the function that
the parts of a node are in. The variables that `locals` finds below a node are those declared in that
frame, and `definitions` finds every function with a body.
-/

namespace MiniC.Forest

variable {forest : Forest} {id n : NodeId}

/-! ## Preorder -/

theorem map_walk_succ (forest : Forest) (levels level : Nat) (id : NodeId) :
    (forest.walk (levels + 1) level id).map (·.1) =
      id :: (forest.children id).flatMap fun c => (forest.walk levels (level + 1) c).map (·.1) := by
  simp [walk, List.map_flatMap]

theorem mem_walk (hr : forest.Ranked) {levels : Nat} :
    ∀ {level id}, forest.weight id < levels →
      (n ∈ (forest.walk levels level id).map (·.1) ↔ forest.Below n id) := by
  induction levels with
  | zero => intro level id h; omega
  | succ levels ih =>
    intro level id h
    rw [map_walk_succ, List.mem_cons, List.mem_flatMap]
    constructor
    · rintro (rfl | ⟨c, hc, hn⟩)
      · exact .refl
      · have := weight_lt hr hc
        exact .child hc ((ih (by omega)).mp hn)
    · intro hn
      rcases hn.eq_or_child with rfl | ⟨c, hc, hn⟩
      · exact .inl rfl
      · have := weight_lt hr hc
        exact .inr ⟨c, hc, (ih (by omega)).mpr hn⟩

theorem nodup_walk (hl : forest.Linked) (hr : forest.Ranked) {levels : Nat} :
    ∀ {level id}, forest.weight id < levels → ((forest.walk levels level id).map (·.1)).Nodup := by
  induction levels with
  | zero => intro level id h; omega
  | succ levels ih =>
    intro level id h
    have hlt : ∀ c ∈ forest.children id, forest.weight c < levels := by
      intro c hc
      have := weight_lt hr hc
      omega
    rw [map_walk_succ, List.nodup_cons, List.nodup_flatMap]
    refine ⟨?_, fun c hc => ih (hlt c hc), ?_⟩
    · intro hmem
      obtain ⟨c, hc, hid⟩ := List.mem_flatMap.mp hmem
      exact Below.not_child hr hc ((mem_walk hr (hlt c hc)).mp hid)
    · -- What is below two children is apart.
      refine List.Pairwise.imp_of_mem ?_ (hl.nodup id)
      intro c c' hc hc' hne n hn hn'
      exact Below.apart hl hr hc hc' hne ((mem_walk hr (hlt c hc)).mp hn)
        ((mem_walk hr (hlt c' hc')).mp hn')

theorem mem_preorder (hr : forest.Ranked) : n ∈ forest.preorder id ↔ forest.Below n id :=
  mem_walk hr (Nat.lt_succ_of_le (weight_le forest id))

theorem nodup_preorder (hl : forest.Linked) (hr : forest.Ranked) : (forest.preorder id).Nodup :=
  nodup_walk hl hr (Nat.lt_succ_of_le (weight_le forest id))

theorem mem_definitions (hr : forest.Ranked) {root : NodeId} :
    n ∈ forest.definitions root ↔
      forest.Below n root ∧ (forest.kind n).isFunction ∧ (forest.child? n 2).isSome := by
  simp [definitions, mem_preorder hr]

theorem nodup_definitions (hl : forest.Linked) (hr : forest.Ranked) {root : NodeId} :
    (forest.definitions root).Nodup := (nodup_preorder hl hr).filter _

/-! ## The function around a part -/

/-- The function that the parts of a node are in. -/
def around (forest : Forest) (id : NodeId) : Option NodeId :=
  if (forest.kind id).isFunction then some id else forest.owningFunction id

theorem owningFunction_of_mem_children (hl : forest.Linked) (hr : forest.Ranked) {p c : NodeId}
    (hc : c ∈ forest.children p) : forest.owningFunction c = forest.around p := by
  rw [owningFunction_of_parent hl hr (hl.parent_of_mem hc), around]

theorem around_of_not_function (h : (forest.kind id).isFunction = false) :
    forest.around id = forest.owningFunction id := by simp [around, h]

theorem around_of_function (h : (forest.kind id).isFunction = true) :
    forest.around id = some id := by simp [around, h]

/-- The function around a node is above it, or the node itself. -/
theorem below_of_around (hl : forest.Linked) {f : NodeId} (h : forest.around id = some f) :
    forest.Below id f := by
  unfold around at h
  split at h
  · exact Option.some.inj h ▸ .refl
  · exact (below_of_owningFunction hl h).1

/-- Between a node and one above it there is another function, or both are in the same one. -/
theorem owningFunction_cases (hl : forest.Linked) (hr : forest.Ranked) {top : NodeId}
    (hn : forest.Below n top) (hne : n ≠ top) :
    forest.owningFunction n = forest.around top ∨
      ∃ f, forest.owningFunction n = some f ∧ forest.Below f top ∧ f ≠ top := by
  induction hn with
  | refl => exact absurd rfl hne
  | @child p c hc h ih =>
    by_cases hnc : n = c
    · rw [hnc]
      exact .inl (owningFunction_of_mem_children hl hr hc)
    rcases ih hnc with heq | ⟨f, heq, hf, -⟩
    · by_cases hfun : (forest.kind c).isFunction
      · rw [around_of_function hfun] at heq
        exact .inr ⟨c, heq, .of_mem hc, hr.ne_of_mem hc⟩
      · rw [around_of_not_function (by simpa using hfun),
          owningFunction_of_mem_children hl hr hc] at heq
        exact .inl heq
    · refine .inr ⟨f, heq, .child hc hf, ?_⟩
      rintro rfl
      exact Below.not_child hr hc hf

/-- A function between a node and one above it is not around that one. -/
theorem around_ne (hl : forest.Linked) (hr : forest.Ranked) {top f : NodeId}
    (hf : forest.Below f top) (hne : f ≠ top) : forest.around top ≠ some f :=
  fun h => hne (Below.antisymm hr hf (below_of_around hl h))

/-- What is properly below a function is in that one or in one below it. -/
theorem exists_owningFunction (hl : forest.Linked) (hr : forest.Ranked) {f : NodeId}
    (hf : (forest.kind f).isFunction) (hn : forest.Below n f) (hne : n ≠ f) :
    ∃ g, forest.owningFunction n = some g ∧ forest.Below g f := by
  rcases owningFunction_cases hl hr hn hne with h | ⟨g, h, hg, -⟩
  · exact ⟨f, h.trans (around_of_function hf), .refl⟩
  · exact ⟨g, h, hg⟩

/-! ## Variables of a frame -/

/-- Nothing below a declaration is a declaration. -/
def DeclaresOnce (forest : Forest) : Prop :=
  ∀ {d d'}, (forest.kind d).isDeclaration → (forest.kind d').isDeclaration →
    forest.Below d' d → d' = d

theorem mem_localsWithin (hl : forest.Linked) (hr : forest.Ranked) (honce : forest.DeclaresOnce)
    {levels : Nat} : ∀ {id}, forest.weight id < levels →
      (n ∈ forest.localsWithin levels id ↔ (forest.kind n).isDeclaration ∧ forest.Below n id ∧
        n ≠ id ∧ forest.owningFunction n = forest.around id) := by
  induction levels with
  | zero => intro id h; omega
  | succ levels ih =>
    intro id h
    simp only [localsWithin, List.mem_flatMap]
    constructor
    · rintro ⟨c, hc, hmem⟩
      have hlt := weight_lt hr hc
      have hcid := owningFunction_of_mem_children hl hr hc
      split at hmem
      · cases hmem
      · next name symbol hkind =>
        rw [List.mem_singleton] at hmem
        subst hmem
        exact ⟨by simp [hkind, Kind.isDeclaration], .of_mem hc, hr.ne_of_mem hc, hcid⟩
      · next hfun hdecl =>
        obtain ⟨hn, hbelow, hne, howner⟩ := (ih (by omega)).mp hmem
        have hnot : (forest.kind c).isFunction = false := by
          cases hk : forest.kind c <;> simp_all [Kind.isFunction]
        rw [around_of_not_function hnot, hcid] at howner
        refine ⟨hn, .child hc hbelow, ?_, howner⟩
        rintro rfl
        exact Below.not_child hr hc hbelow
    · rintro ⟨hn, hbelow, hne, howner⟩
      obtain rfl | ⟨c, hc, hnc⟩ := hbelow.eq_or_child
      · exact absurd rfl hne
      have hlt := weight_lt hr hc
      have hcid := owningFunction_of_mem_children hl hr hc
      refine ⟨c, hc, ?_⟩
      split
      · next hkind =>
        -- A function in between would be around the variable.
        have hfun : (forest.kind c).isFunction := by simp [hkind, Kind.isFunction]
        have hnc' : n ≠ c := by
          rintro rfl
          simp [hkind, Kind.isDeclaration] at hn
        obtain ⟨g, hg, hgc⟩ := exists_owningFunction hl hr hfun hnc hnc'
        rw [hg] at howner
        refine absurd howner.symm (around_ne hl hr (.child hc hgc) ?_)
        rintro rfl
        exact Below.not_child hr hc hgc
      · next hkind =>
        exact List.mem_singleton.mpr (honce (by simp [hkind, Kind.isDeclaration]) hn hnc)
      · next hfun hdecl =>
        have hnot : (forest.kind c).isFunction = false := by
          cases hk : forest.kind c <;> simp_all [Kind.isFunction]
        refine (ih (by omega)).mpr ⟨hn, hnc, ?_, ?_⟩
        · rintro rfl
          cases hk : forest.kind n <;> simp_all [Kind.isDeclaration]
        · rw [around_of_not_function hnot, howner, hcid]

theorem nodup_localsWithin (hl : forest.Linked) (hr : forest.Ranked)
    (honce : forest.DeclaresOnce) {levels : Nat} :
    ∀ {id}, forest.weight id < levels → (forest.localsWithin levels id).Nodup := by
  induction levels with
  | zero => intro id h; omega
  | succ levels ih =>
    intro id h
    have hlt : ∀ c ∈ forest.children id, forest.weight c < levels := by
      intro c hc
      have := weight_lt hr hc
      omega
    have hbelow : ∀ c ∈ forest.children id, ∀ part,
        part = [] ∨ part = [c] ∨ part = forest.localsWithin levels c →
        ∀ n ∈ part, forest.Below n c := by
      rintro c hc part (rfl | rfl | rfl) n hn
      · cases hn
      · exact List.mem_singleton.mp hn ▸ .refl
      · exact ((mem_localsWithin hl hr honce (hlt c hc)).mp hn).2.1
    simp only [localsWithin]
    refine List.nodup_flatMap.mpr ⟨fun c hc => ?_, ?_⟩
    · split
      · exact List.nodup_nil
      · exact List.nodup_singleton c
      · exact ih (hlt c hc)
    · refine List.Pairwise.imp_of_mem ?_ (hl.nodup id)
      intro c c' hc hc' hne n hn hn'
      exact Below.apart hl hr hc hc' hne (hbelow c hc _ (by beta_reduce; split <;> simp) n hn)
        (hbelow c' hc' _ (by beta_reduce; split <;> simp) n hn')

theorem mem_locals (hl : forest.Linked) (hr : forest.Ranked) (honce : forest.DeclaresOnce) :
    n ∈ forest.locals id ↔ (forest.kind n).isDeclaration ∧ forest.Below n id ∧ n ≠ id ∧
      forest.owningFunction n = forest.around id :=
  mem_localsWithin hl hr honce (Nat.lt_succ_of_le (weight_le forest id))

theorem nodup_locals (hl : forest.Linked) (hr : forest.Ranked) (honce : forest.DeclaresOnce) :
    (forest.locals id).Nodup :=
  nodup_localsWithin hl hr honce (Nat.lt_succ_of_le (weight_le forest id))

end MiniC.Forest
