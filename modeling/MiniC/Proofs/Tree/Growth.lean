import MiniC.Proofs.Tree.Shape
import MiniC.Proofs.Tree.Splice

/-!
# How a parsed forest grows

Resolution adds to a parsed forest in two ways only: it notes things on nodes, and it splices
conversions in above expressions. `Grown` is what stays true of the forest all the time: without the
notes and the conversions it is the one that was parsed. `Inside` and `Replaced` say of a step on one
part what it leaves alone, and `Ready` that a part has not been touched so far.
-/

namespace MiniC

namespace Kind

/-- A kind without what has been found out about its node. -/
def bare : Kind → Kind
  | string value _ => string value none
  | identifier name _ => identifier name none
  | declaration name _ => declaration name none
  | function name _ => function name none
  | parameter name _ => parameter name none
  | call name _ => call name none
  | ifElse _ => ifElse none
  | whileLoop _ => whileLoop none
  | forLoop _ => forLoop none
  | breakOut _ => breakOut none
  | continueOn _ => continueOn none
  | other => other

variable {kind other : Kind}

theorem bare_of_fresh (h : kind.Fresh) : kind.bare = kind := by
  cases kind <;> simp_all [Fresh, bare]

@[simp] theorem bare_bind (symbol : SymbolId) : (kind.bind symbol).bare = kind.bare := by
  cases kind <;> rfl

@[simp] theorem bare_plain (kind : Kind) : kind.plain.bare = kind.bare := by cases kind <;> rfl

theorem role_bare (kind : Kind) : kind.bare.role = kind.role := by cases kind <;> rfl

theorem holds_bare (kind : Kind) : kind.bare.Holds = kind.Holds := by cases kind <;> rfl

theorem isFunction_bare (kind : Kind) : kind.bare.isFunction = kind.isFunction := by
  cases kind <;> rfl

theorem isLoop_bare (kind : Kind) : kind.bare.isLoop = kind.isLoop := by cases kind <;> rfl

theorem role_eq_of_bare (h : kind.bare = other.bare) : kind.role = other.role := by
  rw [← role_bare kind, h, role_bare]

theorem isFunction_of_bare (h : kind.bare = other.bare) : kind.isFunction = other.isFunction := by
  rw [← isFunction_bare kind, h, isFunction_bare]

theorem isLoop_of_bare (h : kind.bare = other.bare) : kind.isLoop = other.isLoop := by
  rw [← isLoop_bare kind, h, isLoop_bare]

theorem eq_conversion_of_bare {change : Conversion} (h : kind.bare = conversion change) :
    kind = conversion change := by cases kind <;> simp_all [bare]

end Kind

namespace Forest

variable {parsed forest other third : Forest} {n p top id : NodeId}

/-- A node stands in the place of another one if only conversions are between them. -/
inductive Stands (forest : Forest) : NodeId → NodeId → Prop
  | refl (id : NodeId) : Stands forest id id
  | wrap {wrapper inner id : NodeId} {change : Conversion}
      (hkind : forest.kind wrapper = .conversion change) (hchildren : forest.children wrapper = [inner])
      (h : Stands forest inner id) : Stands forest wrapper id

/-- What is always true of a forest that grows out of a parsed one. -/
structure Grown (parsed forest : Forest) : Prop where
  linked : forest.Linked
  ranked : forest.Ranked
  size_le : parsed.size ≤ forest.size
  root_eq : forest.root = parsed.root
  bare : ∀ m : Nat, m < parsed.size → (forest.kind m).bare = parsed.kind m
  casts : ∀ m : Nat, m < parsed.size → (forest.node m).casts = (parsed.node m).casts
  line : ∀ m : Nat, m < parsed.size → forest.line m = parsed.line m
  wrapper : ∀ m : Nat, parsed.size ≤ m → m < forest.size →
    ∃ change inner, forest.kind m = .conversion change ∧ forest.children m = [inner] ∧
      forest.role inner = .expression
  children : ∀ m : Nat, m < parsed.size →
    List.Forall₂ (Stands forest) (forest.children m) (parsed.children m)

/-- Two forests that differ in what is noted on one node. -/
structure Noted (forest other : Forest) (n : NodeId) : Prop where
  size_eq : other.size = forest.size
  root_eq : other.root = forest.root
  bare_eq : (other.kind n).bare = (forest.kind n).bare
  line_eq : other.line n = forest.line n
  parent_eq : other.parent n = forest.parent n
  children_eq : other.children n = forest.children n
  casts_eq : (other.node n).casts = (forest.node n).casts
  node_eq : ∀ m, m ≠ n → other.node m = forest.node m

namespace Noted

theorem trans (h : Noted forest other n) (h' : Noted other third n) : Noted forest third n :=
  ⟨h'.size_eq.trans h.size_eq, h'.root_eq.trans h.root_eq, h'.bare_eq.trans h.bare_eq,
    h'.line_eq.trans h.line_eq, h'.parent_eq.trans h.parent_eq,
    h'.children_eq.trans h.children_eq, h'.casts_eq.trans h.casts_eq,
    fun m hm => (h'.node_eq m hm).trans (h.node_eq m hm)⟩

/-- A change of one node that keeps its links, its line and its bare kind is a note. -/
theorem update (hn : n < forest.size) {change : Node → Node}
    (hkind : ∀ node, (change node).kind.bare = node.kind.bare)
    (hline : ∀ node, (change node).line = node.line)
    (hparent : ∀ node, (change node).parent = node.parent)
    (hchildren : ∀ node, (change node).children = node.children)
    (hcasts : ∀ node, (change node).casts = node.casts) :
    Noted forest (forest.update n change) n := by
  have hnode : (forest.update n change).node n = change (forest.node n) := by
    rw [node_update _ _ _ _ hn, if_pos rfl]
  refine ⟨size_update .., rfl, ?_, ?_, ?_, ?_, ?_, fun m hm => node_update_of_ne _ _ hm⟩
  · rw [kind, hnode, hkind, kind]
  · rw [line, hnode, hline, line]
  · rw [parent, hnode, hparent, parent]
  · rw [children, hnode, hchildren, children]
  · rw [hnode, hcasts]

theorem parent (h : Noted forest other n) (m : NodeId) : other.parent m = forest.parent m := by
  by_cases hm : m = n
  · exact hm ▸ h.parent_eq
  · rw [Forest.parent, h.node_eq m hm, Forest.parent]

theorem children (h : Noted forest other n) (m : NodeId) :
    other.children m = forest.children m := by
  by_cases hm : m = n
  · exact hm ▸ h.children_eq
  · rw [Forest.children, h.node_eq m hm, Forest.children]

theorem bare (h : Noted forest other n) (m : NodeId) :
    (other.kind m).bare = (forest.kind m).bare := by
  by_cases hm : m = n
  · exact hm ▸ h.bare_eq
  · rw [kind, h.node_eq m hm, kind]

theorem role (h : Noted forest other n) (m : NodeId) : other.role m = forest.role m :=
  Kind.role_eq_of_bare (h.bare m)

theorem kind_eq (h : Noted forest other n) {m : NodeId} (hm : m ≠ n) :
    other.kind m = forest.kind m := by rw [kind, h.node_eq m hm, kind]

theorem type_eq (h : Noted forest other n) {m : NodeId} (hm : m ≠ n) :
    other.type? m = forest.type? m := by rw [type?, h.node_eq m hm, type?]

theorem linked (h : Noted forest other n) (hl : forest.Linked) : other.Linked := by
  refine ⟨?_, ?_, ?_⟩
  · intro q c hc
    rw [h.parent]
    exact hl.parent_of_mem (h.children q ▸ hc)
  · intro q c hc
    rw [h.children]
    exact hl.mem_of_parent (h.parent c ▸ hc)
  · intro q
    rw [h.children]
    exact hl.nodup q

theorem ranked (h : Noted forest other n) (hr : forest.Ranked) : other.Ranked := by
  obtain ⟨rank, hrank⟩ := hr
  exact ⟨rank, fun hc => hrank (h.children _ ▸ hc)⟩

theorem stands (h : Noted forest other n) {c c' : NodeId} (hs : Stands forest c c') :
    Stands other c c' := by
  induction hs with
  | refl => exact .refl _
  | @wrap wrapper inner id change hkind hchildren _ ih =>
    have hbare := h.bare wrapper
    rw [hkind] at hbare
    exact .wrap (Kind.eq_conversion_of_bare hbare) ((h.children wrapper).trans hchildren) ih

end Noted

namespace Grown

theorem of_parsed (h : parsed.Raw) : Grown parsed parsed where
  linked := h.linked
  ranked := h.ranked
  size_le := Nat.le_refl _
  root_eq := rfl
  bare m _ := Kind.bare_of_fresh (h.fresh m).kind
  casts _ _ := rfl
  line _ _ := rfl
  wrapper m hle hlt := absurd hlt (Nat.not_lt.mpr hle)
  children m _ := by
    induction parsed.children m with
    | nil => exact .nil
    | cons c cs ih => exact .cons (.refl c) ih

theorem noted (h : Grown parsed forest) (hn : Noted forest other n) : Grown parsed other where
  linked := hn.linked h.linked
  ranked := hn.ranked h.ranked
  size_le := hn.size_eq ▸ h.size_le
  root_eq := hn.root_eq.trans h.root_eq
  bare m hm := (hn.bare m).trans (h.bare m hm)
  casts m hm := by
    by_cases hmn : m = n
    · rw [hmn, hn.casts_eq, ← hmn]
      exact h.casts m hm
    · rw [hn.node_eq m hmn]
      exact h.casts m hm
  line m hm := by
    by_cases hmn : m = n
    · rw [hmn, hn.line_eq, ← hmn]
      exact h.line m hm
    · rw [Forest.line, hn.node_eq m hmn]
      exact h.line m hm
  wrapper m hle hlt := by
    obtain ⟨change, inner, hkind, hchildren, hrole⟩ := h.wrapper m hle (hn.size_eq ▸ hlt)
    have hbare := hn.bare m
    rw [hkind] at hbare
    exact ⟨change, inner, Kind.eq_conversion_of_bare hbare, (hn.children m).trans hchildren,
      (hn.role inner).trans hrole⟩
  children m hm := by
    rw [hn.children]
    exact (h.children m hm).imp fun _ _ => hn.stands

/-- A parsed node keeps its role. -/
theorem role_eq (h : Grown parsed forest) {m : Nat} (hm : m < parsed.size) :
    forest.role m = parsed.role m := by
  rw [role, role, ← h.bare m hm, Kind.role_bare]

theorem role_wrapper (h : Grown parsed forest) {m : Nat} (hle : parsed.size ≤ m)
    (hlt : m < forest.size) : forest.role m = .expression := by
  obtain ⟨change, inner, hkind, -⟩ := h.wrapper m hle hlt
  rw [role, hkind]
  rfl

theorem kind_ne_conversion (h : Grown parsed forest) (hraw : parsed.Raw) {m : Nat}
    (hm : m < parsed.size) (change : Conversion) : forest.kind m ≠ .conversion change := by
  intro hkind
  have hbare := h.bare m hm
  have hfresh := (hraw.fresh m).kind
  rw [hkind] at hbare
  simp only [kind] at hbare
  rw [← hbare] at hfresh
  exact hfresh

/-- A node that stands in the place of an expression is one, and only expressions are replaced. -/
theorem role_of_stands (h : Grown parsed forest) (hraw : parsed.Raw) {c c' : NodeId}
    (hs : Stands forest c c') : forest.role c = forest.role c' ∧
      (c = c' ∨ forest.role c' = .expression) := by
  induction hs with
  | refl => exact ⟨rfl, .inl rfl⟩
  | @wrap wrapper inner id change hkind hchildren _ ih =>
    have hwrapper : forest.role wrapper = .expression := by
      rw [role, hkind]
      rfl
    have hlt : wrapper < forest.size := lt_size_of_mem_children (c := inner) (by simp [hchildren])
    by_cases hm : wrapper < parsed.size
    · exact absurd hkind (h.kind_ne_conversion hraw hm change)
    · obtain ⟨_, inner', _, hchildren', hrole⟩ := h.wrapper wrapper (Nat.le_of_not_lt hm) hlt
      obtain rfl : inner' = inner := by simpa [hchildren'] using hchildren
      rw [hrole] at ih
      exact ⟨hwrapper.trans ih.1, .inr ih.1.symm⟩

theorem roles_eq (h : Grown parsed forest) (hraw : parsed.Raw) {m : Nat} (hm : m < parsed.size) :
    forest.roles m = parsed.roles m := by
  have hlt : ∀ c : Nat, c ∈ parsed.children m → c < parsed.size := fun c hc =>
    hraw.linked.lt_size hc
  have hall : ∀ {cs cs' : List NodeId}, List.Forall₂ (Stands forest) cs cs' →
      (∀ c : Nat, c ∈ cs' → c < parsed.size) → cs.map forest.role = cs'.map parsed.role := by
    intro cs cs' hall
    induction hall with
    | nil => exact fun _ => rfl
    | cons hs _ ih =>
      intro hlt
      rw [List.map_cons, List.map_cons, ih fun c hc => hlt c (List.mem_cons_of_mem _ hc),
        (h.role_of_stands hraw hs).1, h.role_eq (hlt _ List.mem_cons_self)]
  exact hall (h.children m hm) hlt

/-- Every node has the children that its kind asks for. -/
theorem shaped (h : Grown parsed forest) (hraw : parsed.Raw) (m : Nat) :
    (forest.kind m).Holds (forest.roles m) := by
  by_cases hm : m < parsed.size
  · rw [h.roles_eq hraw hm, ← Kind.holds_bare, h.bare m hm]
    exact hraw.shaped m
  · by_cases hlt : m < forest.size
    · obtain ⟨change, inner, hkind, hchildren, hrole⟩ := h.wrapper m (Nat.le_of_not_lt hm) hlt
      rw [hkind, roles, hchildren, List.map_singleton, hrole]
      rfl
    · rw [kind, roles, Forest.children, node_of_size_le (Nat.le_of_not_lt hlt)]
      rfl

/-- A child that is no expression is one that was parsed. -/
theorem mem_children_iff (h : Grown parsed forest) (hraw : parsed.Raw) {q c : Nat}
    (hrole : forest.role c ≠ .expression) :
    c ∈ forest.children q ↔ c ∈ parsed.children q := by
  have hall : ∀ {cs cs' : List NodeId}, List.Forall₂ (Stands forest) cs cs' →
      (c ∈ cs ↔ c ∈ cs') := by
    intro cs cs' hall
    induction hall with
    | nil => exact Iff.rfl
    | @cons a b cs cs' hs _ ih =>
      obtain ⟨hab, heq | hb⟩ := h.role_of_stands hraw hs
      · rw [List.mem_cons, List.mem_cons, heq, ih]
      · have hca : c ≠ a := fun he => hrole (he ▸ hab.trans hb)
        have hcb : c ≠ b := fun he => hrole (he ▸ hb)
        simp [hca, hcb, ih]
  by_cases hq : q < parsed.size
  · exact hall (h.children q hq)
  · refine ⟨fun hc => ?_, fun hc => absurd (lt_size_of_mem_children hc) hq⟩
    obtain ⟨change, inner, _, hchildren, hinner⟩ :=
      h.wrapper q (Nat.le_of_not_lt hq) (lt_size_of_mem_children hc)
    obtain rfl : c = inner := by simpa [hchildren] using hc
    exact absurd hinner hrole

/-- What is around something that is no expression was parsed. -/
theorem sameAround (h : Grown parsed forest) (hraw : parsed.Raw) {m : Nat} (hm : m < parsed.size)
    (hrole : parsed.role m ≠ .expression) : parsed.SameAround forest m := by
  have hlt : ∀ a : Nat, parsed.Below m a → a < parsed.size := by
    intro a ha
    cases ha with
    | refl => exact hm
    | child hc _ => exact lt_size_of_mem_children hc
  have hbare : ∀ a, parsed.Below m a → (forest.kind a).bare = (parsed.kind a).bare := by
    intro a ha
    rw [h.bare a (hlt a ha)]
    exact (Kind.bare_of_fresh (hraw.fresh a).kind).symm
  refine ⟨h.size_le, fun a ha => ?_, fun a ha => Kind.isFunction_of_bare (hbare a ha),
    fun a ha => Kind.isLoop_of_bare (hbare a ha)⟩
  have hne : forest.role a ≠ .expression := by
    rw [h.role_eq (hlt a ha)]
    exact hraw.role_of_below hrole ha
  ext p
  constructor
  · intro hp
    exact hraw.linked.parent_of_mem
      ((h.mem_children_iff hraw hne).mp (h.linked.mem_of_parent hp))
  · intro hp
    exact h.linked.parent_of_mem
      ((h.mem_children_iff hraw hne).mpr (hraw.linked.mem_of_parent hp))

theorem spliced (h : Grown parsed forest) (hraw : parsed.Raw) {id p : Nat} {change : Conversion}
    (hs : Spliced forest other id p change) (hparent : forest.parent id = some p)
    (hp : p < parsed.size) (hrole : forest.role id = .expression) : Grown parsed other := by
  have hsize := h.size_le
  have hmem := h.linked.mem_of_parent hparent
  have hidne : id ≠ p := h.ranked.ne_of_mem hmem
  have hidsize : id < forest.size := h.linked.lt_size hmem
  have hkind : ∀ m, m ≠ forest.size → other.kind m = forest.kind m := by
    intro m hm
    rw [kind, hs.node_kept hm]
    rfl
  have hrest : ∀ m, m ≠ forest.size → (other.node m).casts = (forest.node m).casts ∧
      other.line m = forest.line m := by
    intro m hm
    rw [Forest.line, hs.node_kept hm]
    exact ⟨rfl, rfl⟩
  have hstands : ∀ {c c'}, Stands forest c c' → Stands other c c' := by
    intro c c' hs'
    induction hs' with
    | refl => exact .refl _
    | @wrap w inner c' change' hw hchildren _ ih =>
      have hlt : w < forest.size := lt_size_of_mem_children (c := inner) (by simp [hchildren])
      have hwp : w ≠ p := fun he => h.kind_ne_conversion hraw hp change' (he ▸ hw)
      have hwne : w ≠ forest.size := Nat.ne_of_lt hlt
      exact .wrap ((hkind w hwne).trans hw) ((hs.children_other hwp hwne).trans hchildren) ih
  refine ⟨hs.linked h.linked hparent, hs.ranked h.linked h.ranked hparent, ?_,
    hs.root_eq.trans h.root_eq, ?_, ?_, ?_, ?_, ?_⟩
  · rw [hs.size_eq]
    omega
  · intro m hm
    rw [hkind m (by omega)]
    exact h.bare m hm
  · intro m hm
    rw [(hrest m (by omega)).1]
    exact h.casts m hm
  · intro m hm
    rw [(hrest m (by omega)).2]
    exact h.line m hm
  · intro m hle hlt
    rw [hs.size_eq] at hlt
    by_cases hm : m = forest.size
    · subst hm
      refine ⟨change, id, ?_, hs.children_new, ?_⟩
      · rw [kind, hs.node_new]
      · rw [role, hkind id (Nat.ne_of_lt hidsize)]
        exact hrole
    · obtain ⟨change', inner, hm', hchildren, hinner⟩ := h.wrapper m hle (by omega)
      have hmp : m ≠ p := by omega
      refine ⟨change', inner, (hkind m hm).trans hm', (hs.children_other hmp hm).trans hchildren, ?_⟩
      have hlt' : inner < forest.size := h.linked.lt_size (p := m) (by simp [hchildren])
      rw [role, hkind inner (Nat.ne_of_lt hlt')]
      exact hinner
  · intro m hm
    have hall := (h.children m hm).imp fun _ _ => hstands
    by_cases hmp : m = p
    · subst hmp
      rw [hs.children_outer]
      have hnew : Stands other forest.size id :=
        .wrap (by rw [kind, hs.node_new]) hs.children_new (.refl id)
      have hswap : ∀ {cs cs' : List NodeId}, List.Forall₂ (Stands other) cs cs' →
          List.Forall₂ (Stands other) (cs.map (swap id forest.size)) cs' := by
        intro cs cs' hall
        induction hall with
        | nil => exact .nil
        | @cons a b _ _ hab _ ih =>
          refine .cons ?_ ih
          by_cases ha : a = id
          · subst ha
            rw [swap_self]
            exact .wrap (by rw [kind, hs.node_new]) hs.children_new hab
          · rwa [swap_of_ne ha]
      exact hswap hall
    · rwa [hs.children_other hmp (Nat.ne_of_lt (Nat.lt_of_lt_of_le hm hsize))]

end Grown

/-! ## Steps on one part -/

/-- Only the part below `n` is changed, and nodes may have been added. -/
structure Inside (parsed forest other : Forest) (n : NodeId) : Prop where
  size_le : forest.size ≤ other.size
  outside : ∀ m : Nat, m < forest.size → ¬parsed.Below m n → other.node m = forest.node m

namespace Inside

theorem refl : Inside parsed forest forest n := ⟨Nat.le_refl _, fun _ _ _ => rfl⟩

theorem trans (h : Inside parsed forest other n) (h' : Inside parsed other third n) :
    Inside parsed forest third n :=
  ⟨Nat.le_trans h.size_le h'.size_le, fun m hm hn =>
    (h'.outside m (Nat.lt_of_lt_of_le hm h.size_le) hn).trans (h.outside m hm hn)⟩

theorem of_child (h : Inside parsed forest other n) (hn : n ∈ parsed.children p) :
    Inside parsed forest other p :=
  ⟨h.size_le, fun m hm hp => h.outside m hm fun hb => hp (hb.trans (.of_mem hn))⟩

theorem of_noted (h : Noted forest other n) : Inside parsed forest other n :=
  ⟨Nat.le_of_eq h.size_eq.symm, fun m _ hm => h.node_eq m fun he => hm (he ▸ .refl)⟩

end Inside

/-- The part below `n` stands in its slot of `p` as `top`, and nothing outside it is changed. -/
structure Replaced (parsed forest other : Forest) (n p top : NodeId) : Prop where
  size_le : forest.size ≤ other.size
  outer : other.node p =
    { forest.node p with children := (forest.children p).map (swap n top) }
  outside : ∀ m : Nat, m < forest.size → ¬parsed.Below m n → m ≠ p → other.node m = forest.node m
  top_new : top = n ∨ forest.size ≤ top

namespace Replaced

theorem inside (h : Replaced parsed forest other n p top) (hn : n ∈ parsed.children p) :
    Inside parsed forest other p := by
  refine ⟨h.size_le, fun m hm hp => h.outside m hm ?_ ?_⟩
  · exact fun hb => hp (hb.trans (.of_mem hn))
  · exact fun he => hp (he ▸ .refl)

theorem of_inside (h : Inside parsed forest other n) (hp : p < forest.size)
    (hn : ¬parsed.Below p n) : Replaced parsed forest other n p n := by
  refine ⟨h.size_le, ?_, fun m hm hb _ => h.outside m hm hb, .inl rfl⟩
  have hid : (forest.children p).map (swap n n) = forest.children p := by
    have hsame : ∀ c ∈ forest.children p, swap n n c = c := by
      intro c _
      by_cases hc : c = n
      · rw [hc, swap_self]
      · exact swap_of_ne hc
    rw [List.map_congr_left hsame, List.map_id']
  rw [h.outside p hp hn, hid]
  rfl

theorem children_outer (h : Replaced parsed forest other n p top) :
    other.children p = (forest.children p).map (swap n top) := by rw [children, h.outer]

end Replaced

/-- The node is part of the program: it is below the root. -/
def Included (forest : Forest) (n : NodeId) : Prop :=
  ∃ root, forest.root = some root ∧ forest.parent root = none ∧ forest.Below n root

namespace Included

theorem child (h : forest.Included p) (hn : n ∈ forest.children p) : forest.Included n := by
  obtain ⟨root, hroot, hparent, hbelow⟩ := h
  exact ⟨root, hroot, hparent, (Below.of_mem hn).trans hbelow⟩

theorem parent (h : forest.Included n) (hl : forest.Linked) (hn : n ∈ forest.children p) :
    forest.Included p := by
  obtain ⟨root, hroot, hparent, hbelow⟩ := h
  have hne : n ≠ root := by
    rintro rfl
    cases hparent.symm.trans (hl.parent_of_mem hn)
  obtain ⟨q, hq, hup⟩ := hbelow.exists_parent hl hne
  rw [hl.parent_of_mem hn, Option.some.injEq] at hq
  exact ⟨root, hroot, hparent, hq ▸ hup⟩

end Included

theorem Parsed.included {root : NodeId} (h : forest.Parsed root) : forest.Included root :=
  ⟨root, h.root_eq, h.parent_root, .refl⟩

/-- What is noted on one node does not change what is around another one. -/
theorem SameAround.noted (h : parsed.SameAround forest id) (hn : Noted forest other n) :
    parsed.SameAround other id := by
  refine ⟨hn.size_eq ▸ h.size_le, fun a ha => ?_, fun a ha => ?_, fun a ha => ?_⟩
  · rw [hn.parent]
    exact h.parent a ha
  · rw [Kind.isFunction_of_bare (hn.bare a)]
    exact h.isFunction a ha
  · rw [Kind.isLoop_of_bare (hn.bare a)]
    exact h.isLoop a ha

/-- The part below `n` is as it was parsed, and so is what is asked for on the way up from it to the
root. -/
structure Ready (parsed forest : Forest) (n : NodeId) : Prop where
  included : parsed.Included n
  below : ∀ m, parsed.Below m n → forest.node m = parsed.node m
  around : parsed.SameAround forest n

namespace Ready

theorem of_parsed (h : parsed.Included n) : Ready parsed parsed n :=
  ⟨h, fun _ _ => rfl, Nat.le_refl _, fun _ _ => rfl, fun _ _ => rfl, fun _ _ => rfl⟩

theorem node_eq (h : Ready parsed forest n) : forest.node n = parsed.node n := h.below n .refl

theorem kind_eq (h : Ready parsed forest n) : forest.kind n = parsed.kind n := by
  rw [kind, h.node_eq, kind]

theorem children_eq (h : Ready parsed forest n) : forest.children n = parsed.children n := by
  rw [children, h.node_eq, children]

theorem parent_eq (h : Ready parsed forest n) : forest.parent n = parsed.parent n := by
  rw [parent, h.node_eq, parent]

theorem owningFunction_eq (h : Ready parsed forest n) (hraw : parsed.Raw) :
    forest.owningFunction n = parsed.owningFunction n :=
  h.around.owningFunction_eq hraw.linked hraw.ranked

/-- A written type is as it was parsed. -/
theorem typeWithin_eq (h : Ready parsed forest n) (levels : Nat) :
    forest.typeWithin levels n = parsed.typeWithin levels n := by
  have hsame : ∀ levels id, parsed.Below id n →
      forest.typeWithin levels id = parsed.typeWithin levels id := by
    intro levels
    induction levels with
    | zero => intro id _; rfl
    | succ levels ih =>
      intro id hid
      have hnode := h.below id hid
      have hkind : forest.kind id = parsed.kind id := by rw [kind, hnode, kind]
      have hchild : forest.child? id 0 = parsed.child? id 0 := by
        rw [child?, children, hnode, child?, children]
      simp only [typeWithin, hkind, hchild]
      cases hc : parsed.child? id 0 with
      | none => rfl
      | some c =>
        have hbelow : parsed.Below c n := .trans (.of_mem (List.mem_of_getElem? hc)) hid
        simp only [Option.bind_eq_bind, Option.bind_some, ih c hbelow]
  exact hsame levels n .refl

/-- The parts of what is ready are ready too. -/
theorem part (h : Ready parsed forest n) (hraw : parsed.Raw) (hc : id ∈ parsed.children n) :
    Ready parsed forest id := by
  have hup : ∀ a, parsed.Below id a → a = id ∨ parsed.Below n a := by
    intro a ha
    by_cases hid : id = a
    · exact .inl hid.symm
    · obtain ⟨q, hq, hbelow⟩ := ha.exists_parent hraw.linked hid
      rw [hraw.linked.parent_of_mem hc] at hq
      exact .inr (Option.some.inj hq ▸ hbelow)
  have hnode := h.below id (.of_mem hc)
  refine ⟨h.included.child hc, fun m hm => h.below m (hm.trans (.of_mem hc)), h.around.size_le,
    fun a ha => ?_, fun a ha => ?_, fun a ha => ?_⟩
  · rcases hup a ha with rfl | ha
    · rw [parent, hnode, parent]
    · exact h.around.parent a ha
  · rcases hup a ha with rfl | ha
    · rw [kind, hnode, kind]
    · exact h.around.isFunction a ha
  · rcases hup a ha with rfl | ha
    · rw [kind, hnode, kind]
    · exact h.around.isLoop a ha

/-- Noting something on a node leaves its children as they were. -/
theorem noted (h : Ready parsed forest id) (hraw : parsed.Raw) (hn : Noted forest other n)
    (hc : id ∈ parsed.children n) : Ready parsed other id := by
  refine ⟨h.included, fun m hm => ?_, h.around.noted hn⟩
  rw [hn.node_eq m]
  · exact h.below m hm
  · rintro rfl
    exact Below.not_child hraw.ranked hc hm

/-- A part stays ready while nothing below or above it changes but the children of its parent. -/
theorem of_outer (h : Ready parsed forest id) (hraw : parsed.Raw) (hid : id ∈ parsed.children p)
    (hsize : forest.size ≤ other.size) (hparent : other.parent p = forest.parent p)
    (hkind : other.kind p = forest.kind p)
    (hsame : ∀ m : Nat, m < forest.size → m ≠ p → parsed.Below m id ∨ parsed.Below id m →
      other.node m = forest.node m) : Ready parsed other id := by
  have hle := h.around.size_le
  have hlt : ∀ m : Nat, parsed.Below m id → m < forest.size := fun m hm =>
    Nat.lt_of_lt_of_le (hm.lt_size hraw.linked (hraw.linked.lt_size hid)) hle
  have hup : ∀ a : Nat, parsed.Below id a → a < forest.size := by
    intro a ha
    cases ha with
    | refl => exact hlt id .refl
    | child hc _ => exact Nat.lt_of_lt_of_le (lt_size_of_mem_children hc) hle
  refine ⟨h.included, fun m hm => ?_, ⟨Nat.le_trans hle hsize, ?_, ?_, ?_⟩⟩
  · rw [hsame m (hlt m hm) ?_ (.inl hm)]
    · exact h.below m hm
    · rintro rfl
      exact Below.not_child hraw.ranked hid hm
  · intro a ha
    rw [← h.around.parent a ha]
    by_cases hp : a = p
    · rw [hp, hparent]
    · rw [parent, hsame a (hup a ha) hp (.inr ha), parent]
  · intro a ha
    rw [← h.around.isFunction a ha]
    by_cases hp : a = p
    · rw [hp, hkind]
    · rw [kind, hsame a (hup a ha) hp (.inr ha), kind]
  · intro a ha
    rw [← h.around.isLoop a ha]
    by_cases hp : a = p
    · rw [hp, hkind]
    · rw [kind, hsame a (hup a ha) hp (.inr ha), kind]

/-- A step on one child leaves the others as they were. -/
theorem sibling (h : Ready parsed forest id) (hraw : parsed.Raw)
    (hr : Replaced parsed forest other n p top) (hn : n ∈ parsed.children p)
    (hid : id ∈ parsed.children p) (hne : id ≠ n) : Ready parsed other id := by
  refine h.of_outer hraw hid hr.size_le ?_ ?_ fun m hm hp hmid => hr.outside m hm ?_ hp
  · rw [parent, hr.outer]
    rfl
  · rw [kind, hr.outer]
    rfl
  · rcases hmid with hmid | hmid
    · exact Below.apart hraw.linked hraw.ranked hid hn hne hmid
    · exact fun hb => Below.apart hraw.linked hraw.ranked hid hn hne .refl (hmid.trans hb)

end Ready

end Forest

end MiniC
