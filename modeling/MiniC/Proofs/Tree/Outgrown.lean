import MiniC.Proofs.Tree.Growth

/-!
# What a growing forest keeps

`Outgrown` relates two states of one forest between which nodes were annotated and conversions were
spliced in, in any order and wherever the growth was broken off. It asks nothing about the meaning
of the nodes, so it composes along every path of a resolution, those that end with a fault included.
-/

namespace MiniC

/-- A node keeps what it is and its links; only what has been found out about it may change. -/
structure Node.Kept (node other : Node) : Prop where
  plain : other.kind.plain = node.kind.plain
  line : other.line = node.line
  casts : other.casts = node.casts
  parent : other.parent = node.parent
  children : other.children = node.children

theorem Node.Kept.refl (node : Node) : node.Kept node := ⟨rfl, rfl, rfl, rfl, rfl⟩

namespace Forest

variable {forest other third : Forest} {id : NodeId}

/-- Parents and children name each other, and no node is around itself. -/
structure Woven (forest : Forest) : Prop where
  linked : forest.Linked
  ranked : forest.Ranked

/-- What a change of a node leaves alone there, it leaves alone everywhere. -/
theorem project_update {β : Type} (project : Node → β) {change : Node → Node}
    (h : project (change (forest.node id)) = project (forest.node id)) (m : NodeId) :
    project ((forest.update id change).node m) = project (forest.node m) := by
  by_cases hm : m = id
  · subst hm
    by_cases hlt : m < forest.size
    · rw [node_update _ _ _ _ hlt, if_pos rfl, h]
    · have hsize : (forest.update m change).size ≤ m :=
        (size_update ..).trans_le (Nat.le_of_not_lt hlt)
      rw [node_of_size_le hsize, node_of_size_le (Nat.le_of_not_lt hlt)]
  · rw [node_update_of_ne _ _ hm]

/-- A change of a node that leaves its kind alone leaves all kinds alone. -/
theorem kind_update {change : Node → Node} (h : (change (forest.node id)).kind = forest.kind id)
    (m : NodeId) : (forest.update id change).kind m = forest.kind m :=
  project_update Node.kind h m

/-- A change of a node that leaves its scope alone leaves all scopes alone. -/
theorem scope_update {change : Node → Node}
    (h : (change (forest.node id)).scope = (forest.node id).scope) (m : NodeId) :
    ((forest.update id change).node m).scope = (forest.node m).scope :=
  project_update Node.scope h m

/-- Some node is around the node. -/
def Owned (forest : Forest) (id : NodeId) : Prop := (forest.parent id).isSome

/-- A conversion can be put in above the node. -/
structure Wrappable (forest : Forest) (id : NodeId) : Prop where
  owned : forest.Owned id
  role : forest.role id = .expression

theorem Woven.owned_of_mem (h : forest.Woven) {p c : NodeId} (hc : c ∈ forest.children p) :
    forest.Owned c := by
  rw [Owned, h.linked.parent_of_mem hc]
  rfl

/-- The second forest is the first one with annotations and with conversions spliced in. -/
structure Outgrown (forest other : Forest) : Prop where
  woven : other.Woven
  size_le : forest.size ≤ other.size
  root_eq : other.root = forest.root
  plain : ∀ m : Nat, m < forest.size → (other.kind m).plain = (forest.kind m).plain
  line : ∀ m : Nat, m < forest.size → other.line m = forest.line m
  casts : ∀ m : Nat, m < forest.size → (other.node m).casts = (forest.node m).casts
  owned : ∀ m, forest.Owned m → other.Owned m
  wrapper : ∀ m : Nat, forest.size ≤ m → m < other.size →
    ∃ change inner, other.kind m = .conversion change ∧ other.children m = [inner] ∧
      other.role inner = .expression
  children : ∀ m : Nat, m < forest.size →
    List.Forall₂ (Stands other) (other.children m) (forest.children m)

theorem Stands.trans {a b c : NodeId} (h : Stands forest a b) (h' : Stands forest b c) :
    Stands forest a c := by
  induction h with
  | refl => exact h'
  | wrap hkind hchildren _ ih => exact .wrap hkind hchildren (ih h')

theorem forall₂_stands_refl (ids : List NodeId) : List.Forall₂ (Stands forest) ids ids :=
  List.forall₂_same.mpr fun id _ => .refl id

theorem forall₂_stands_trans {as bs cs : List NodeId} (h : List.Forall₂ (Stands forest) as bs)
    (h' : List.Forall₂ (Stands forest) bs cs) : List.Forall₂ (Stands forest) as cs := by
  induction h generalizing cs with
  | nil => exact h'
  | cons hab _ ih =>
    cases h' with
    | cons hbc h' => exact .cons (hab.trans hbc) (ih h')

/-- Splicing a conversion in changes no more than links. -/
theorem Spliced.kept {p : NodeId} {change : Conversion} (h : Spliced forest other id p change)
    (m : NodeId) (hm : m ≠ forest.size) :
    other.kind m = forest.kind m ∧ other.line m = forest.line m ∧
      (other.node m).casts = (forest.node m).casts ∧
      (other.node m).scope = (forest.node m).scope := by
  rw [kind, line, h.node_kept hm]
  exact ⟨rfl, rfl, rfl, rfl⟩

/-- In a rising forest as many levels as there are nodes before a written type are enough. -/
theorem typeWithin_add (hr : forest.Rising) (more : Nat) :
    ∀ {levels id : Nat}, id < levels →
      forest.typeWithin (levels + more) id = forest.typeWithin levels id := by
  intro levels
  induction levels with
  | zero => exact fun h => absurd h (Nat.not_lt_zero _)
  | succ levels ih =>
    intro id h
    rw [Nat.add_right_comm]
    have hsame : (forest.child? id 0).bind (forest.typeWithin (levels + more)) =
        (forest.child? id 0).bind (forest.typeWithin levels) := by
      cases hc : forest.child? id 0 with
      | none => rfl
      | some c =>
        exact ih (Nat.lt_of_lt_of_le (hr (List.mem_of_getElem? hc)) (Nat.le_of_lt_succ h))
    simp only [typeWithin]
    cases forest.kind id with
    | type part => cases part.form <;> simp_all [← Option.bind_assoc]
    | _ => rfl

namespace Outgrown

/-- A forest whose nodes all keep what they are has grown by annotations alone. -/
theorem of_kept (hw : forest.Woven) (hsize : other.size = forest.size)
    (hroot : other.root = forest.root) (hkept : ∀ m, (forest.node m).Kept (other.node m)) :
    Outgrown forest other := by
  have hparent : ∀ m, other.parent m = forest.parent m := fun m => (hkept m).parent
  have hchildren : ∀ m, other.children m = forest.children m := fun m => (hkept m).children
  obtain ⟨rank, hrank⟩ := hw.ranked
  refine ⟨⟨⟨?_, ?_, ?_⟩, rank, fun hc => hrank (hchildren _ ▸ hc)⟩, hsize.ge, hroot,
    fun m _ => (hkept m).plain, fun m _ => (hkept m).line, fun m _ => (hkept m).casts, ?_, ?_, ?_⟩
  · intro p c hc
    rw [hparent]
    exact hw.linked.parent_of_mem (hchildren p ▸ hc)
  · intro p c hc
    rw [hchildren]
    exact hw.linked.mem_of_parent (hparent c ▸ hc)
  · intro p
    rw [hchildren]
    exact hw.linked.nodup p
  · intro m hm
    rwa [Owned, hparent]
  · intro m hle hlt
    omega
  · intro m _
    rw [hchildren]
    exact forall₂_stands_refl _

theorem refl (hw : forest.Woven) : Outgrown forest forest :=
  of_kept hw rfl rfl fun _ => Node.Kept.refl _

/-- A change of one node that keeps what the node is. -/
theorem update (hw : forest.Woven) {change : Node → Node}
    (hkept : (forest.node id).Kept (change (forest.node id))) :
    Outgrown forest (forest.update id change) := by
  refine of_kept hw (size_update ..) rfl fun (m : Nat) => ?_
  by_cases hm : m = id
  · subst hm
    by_cases hlt : m < forest.size
    · rw [node_update _ _ _ _ hlt, if_pos rfl]
      exact hkept
    · have hsize : (forest.update m change).size ≤ m := by
        rw [size_update]
        omega
      rw [node_of_size_le hsize, node_of_size_le (Nat.le_of_not_lt hlt)]
      exact Node.Kept.refl _
  · rw [node_update_of_ne _ _ hm]
    exact Node.Kept.refl _

theorem role_eq (h : Outgrown forest other) {m : Nat} (hm : m < forest.size) :
    other.role m = forest.role m := Kind.role_of_plain (h.plain m hm)

/-- A forest that has been parsed only gets what `Grown` allows. -/
theorem grown (h : Outgrown forest other) (hraw : forest.Raw) : Grown forest other :=
  ⟨h.woven.linked, h.woven.ranked, h.size_le, h.root_eq, fun m hm => by
    rw [← Kind.bare_plain, h.plain m hm, Kind.bare_plain]
    exact Kind.bare_of_fresh (hraw.fresh m).kind, h.casts, h.line, h.wrapper, h.children⟩

theorem wrappable (h : Outgrown forest other) (hid : forest.Wrappable id) : other.Wrappable id := by
  obtain ⟨p, hp⟩ := Option.isSome_iff_exists.mp hid.owned
  exact ⟨h.owned _ hid.owned, (h.role_eq (lt_size_of_parent hp)).trans hid.role⟩

/-- Where something else stands in the place of a node, the node is an expression. -/
theorem eq_or_expression (h : Outgrown forest other)
    (hfree : ∀ m, (forest.kind m).isConversion = false) {top id : NodeId}
    (hs : Stands other top id) : top = id ∨ other.role id = .expression := by
  induction hs with
  | refl => exact .inl rfl
  | @wrap wrapper inner id change hkind hchildren _ ih =>
    refine .inr (ih.elim (fun he => ?_) fun hrole => hrole)
    have hlt : wrapper < other.size := lt_size_of_mem_children (c := inner) (by simp [hchildren])
    by_cases hm : wrapper < forest.size
    · have hconversion := Kind.isConversion_of_plain (h.plain wrapper hm)
      rw [hfree, hkind] at hconversion
      cases hconversion
    · obtain ⟨_, inner', -, hchildren', hrole⟩ := h.wrapper wrapper (Nat.le_of_not_lt hm) hlt
      obtain rfl : inner' = inner := by simpa [hchildren'] using hchildren
      exact he ▸ hrole

theorem setType (hw : forest.Woven) (type : Ty) : Outgrown forest (forest.setType id type) :=
  .update hw ⟨rfl, rfl, rfl, rfl, rfl⟩

theorem bind (hw : forest.Woven) (symbol : SymbolId) : Outgrown forest (forest.bind id symbol) :=
  .update hw ⟨Kind.plain_bind symbol, rfl, rfl, rfl, rfl⟩

/-- A kind may be replaced by one that differs in what has been found out. -/
theorem setKind (hw : forest.Woven) {kind : Kind} (h : kind.plain = (forest.kind id).plain) :
    Outgrown forest (forest.setKind id kind) := .update hw ⟨h, rfl, rfl, rfl, rfl⟩

/-- What stands in a place goes on to stand there. -/
theorem stands (h : Outgrown forest other) {a b : NodeId} (hs : Stands forest a b) :
    Stands other a b := by
  induction hs with
  | refl => exact .refl _
  | @wrap wrapper inner id change hkind hchildren _ ih =>
    have hlt : wrapper < forest.size := lt_size_of_mem_children (c := inner) (by simp [hchildren])
    have hother := h.children wrapper hlt
    rw [hchildren] at hother
    obtain ⟨top, htop, hnil⟩ : ∃ top, Stands other top inner ∧ other.children wrapper = [top] := by
      cases hc : other.children wrapper with
      | nil => simp [hc] at hother
      | cons top others =>
        rw [hc, List.forall₂_cons] at hother
        exact ⟨top, hother.1, by simp [List.forall₂_nil_right_iff.mp hother.2]⟩
    have hbare := h.plain wrapper hlt
    rw [hkind] at hbare
    exact .wrap (Kind.eq_conversion_of_plain hbare) hnil (htop.trans ih)

theorem trans (h : Outgrown forest other) (h' : Outgrown other third) : Outgrown forest third where
  woven := h'.woven
  size_le := h.size_le.trans h'.size_le
  root_eq := h'.root_eq.trans h.root_eq
  plain m hm := (h'.plain m (Nat.lt_of_lt_of_le hm h.size_le)).trans (h.plain m hm)
  line m hm := (h'.line m (Nat.lt_of_lt_of_le hm h.size_le)).trans (h.line m hm)
  casts m hm := (h'.casts m (Nat.lt_of_lt_of_le hm h.size_le)).trans (h.casts m hm)
  owned m hm := h'.owned m (h.owned m hm)
  wrapper m hle hlt := by
    by_cases hm : m < other.size
    · obtain ⟨change, inner, hkind, hchildren, hrole⟩ := h.wrapper m hle hm
      have hall := h'.children m hm
      have hplain := h'.plain m hm
      rw [hkind] at hplain
      rw [hchildren] at hall
      have hlen : (third.children m).length = 1 := hall.length_eq
      obtain ⟨top, htop⟩ := List.length_eq_one_iff.mp hlen
      refine ⟨change, top, Kind.eq_conversion_of_plain hplain, htop, ?_⟩
      rw [htop, List.forall₂_cons] at hall
      have hinner : inner < other.size := h.woven.linked.lt_size (p := m) (by simp [hchildren])
      cases hall.1 with
      | refl => rw [h'.role_eq hinner, hrole]
      | wrap hkind => rw [role, hkind, Kind.role]
    · exact h'.wrapper m (Nat.le_of_not_lt hm) hlt
  children m hm := by
    have hold := (h.children m hm).imp fun _ _ => h'.stands
    have hnew := h'.children m (Nat.lt_of_lt_of_le hm h.size_le)
    exact forall₂_stands_trans hnew hold

/-- Splicing in a conversion is a step of growth, wherever the conversion goes. -/
theorem of_spliced (hw : forest.Woven) {p : Nat} {change : Conversion}
    (hs : Spliced forest other id p change) (hp : forest.parent id = some p)
    (hrole : forest.role id = .expression) : Outgrown forest other := by
  have hmem := hw.linked.mem_of_parent hp
  have hid : id < forest.size := hw.linked.lt_size hmem
  have hkindNew : other.kind forest.size = .conversion change := by rw [kind, hs.node_new]
  refine ⟨⟨hs.linked hw.linked hp, hs.ranked hw.linked hw.ranked hp⟩, ?_, hs.root_eq,
    fun m hm => congrArg _ (hs.kept m (Nat.ne_of_lt hm)).1,
    fun m hm => (hs.kept m (Nat.ne_of_lt hm)).2.1,
    fun m hm => (hs.kept m (Nat.ne_of_lt hm)).2.2.1, ?_, ?_, ?_⟩
  · rw [hs.size_eq]
    omega
  · intro m hm
    by_cases hmid : m = id
    · rw [Owned, hmid, hs.parent_inner]
      rfl
    · by_cases hmnew : m = forest.size
      · rw [Owned, hmnew, hs.parent_new]
        rfl
      · rwa [Owned, hs.parent_other hmid hmnew]
  · intro m hle hlt
    rw [hs.size_eq] at hlt
    obtain rfl : m = forest.size := by omega
    refine ⟨change, id, hkindNew, hs.children_new, ?_⟩
    rw [role, (hs.kept id (Nat.ne_of_lt hid)).1]
    exact hrole
  · intro m hm
    by_cases hmp : m = p
    · subst hmp
      rw [hs.children_outer, List.forall₂_map_left_iff]
      refine List.forall₂_same.mpr fun c _ => ?_
      by_cases hc : c = id
      · subst hc
        rw [swap_self]
        exact .wrap hkindNew hs.children_new (.refl c)
      · rw [swap_of_ne hc]
        exact .refl c
    · rw [hs.children_other hmp (Nat.ne_of_lt hm)]
      exact forall₂_stands_refl _

/-! ### Slots -/

/-- What is in a slot stands for what was there. -/
theorem exists_child (h : Outgrown forest other) {p slot : Nat} {top : NodeId} (hp : p < forest.size)
    (htop : other.child? p slot = some top) :
    ∃ c, forest.child? p slot = some c ∧ c ∈ forest.children p ∧ Stands other top c := by
  have hall := h.children p hp
  obtain ⟨hslot, rfl⟩ := List.getElem?_eq_some_iff.mp htop
  have hslot' : slot < (forest.children p).length := hall.length_eq ▸ hslot
  exact ⟨_, List.getElem?_eq_getElem hslot', List.getElem_mem hslot',
    List.Forall₂.get hall hslot hslot'⟩

/-- As many slots are in use as before. -/
theorem isSome_child? (h : Outgrown forest other) {p : Nat} (hp : p < forest.size) (slot : Nat) :
    (other.child? p slot).isSome = (forest.child? p slot).isSome := by
  by_cases hslot : slot < (forest.children p).length
  · simp [child?, (h.children p hp).length_eq, hslot]
  · simp [child?, (h.children p hp).length_eq, hslot]

section Fixed

variable (h : Outgrown forest other) (hw : forest.Woven)
  (hfree : ∀ m, (forest.kind m).isConversion = false)

include h hw hfree

/-- Only expressions can get something else in their place. -/
theorem eq_of_stands {p : Nat} {top c : NodeId} (hc : c ∈ forest.children p)
    (hrole : forest.role c ≠ .expression) (hs : Stands other top c) : top = c := by
  refine (h.eq_or_expression hfree hs).resolve_right fun hexpression => hrole ?_
  rw [← hexpression, h.role_eq (hw.linked.lt_size hc)]

theorem child?_eq {p slot : Nat} {c : NodeId} (hc : forest.child? p slot = some c)
    (hrole : forest.role c ≠ .expression) : other.child? p slot = some c := by
  have hp : p < forest.size := lt_size_of_mem_children (List.mem_of_getElem? hc)
  obtain ⟨top, htop⟩ := Option.isSome_iff_exists.mp
    ((h.isSome_child? hp slot).trans (by rw [hc]; rfl))
  obtain ⟨c', hc', hmem, hs⟩ := h.exists_child hp htop
  obtain rfl : c' = c := Option.some.inj (hc'.symm.trans hc)
  rw [htop, h.eq_of_stands hw hfree hmem hrole hs]

theorem children_eq {p : Nat} (hp : p < forest.size)
    (hroles : ∀ c ∈ forest.children p, forest.role c ≠ .expression) :
    other.children p = forest.children p := by
  refine List.ext_getElem? fun slot => ?_
  have hsome := h.isSome_child? hp slot
  cases hc : (forest.children p)[slot]? with
  | none =>
    rw [child?, child?, hc] at hsome
    simpa using hsome
  | some c => exact h.child?_eq hw hfree hc (hroles c (List.mem_of_getElem? hc))

end Fixed

section Raw

variable (h : Outgrown forest other) (hraw : forest.Raw)

include h hraw

/-- Before it is resolved a node has the kind that it has later, without what is found out. -/
theorem kind_eq {n : Nat} (hn : n < forest.size) : forest.kind n = (other.kind n).plain := by
  rw [h.plain n hn]
  exact (Kind.plain_of_fresh (hraw.fresh n).kind).symm

/-- What stands in a slot is what was parsed there, unless that is an expression. -/
theorem child?_parsed {p slot : Nat} {c : NodeId} (hp : p < forest.size)
    (hrole : ∀ c, forest.child? p slot = some c → forest.role c ≠ .expression)
    (hc : other.child? p slot = some c) : forest.child? p slot = some c := by
  obtain ⟨c', hc', hmem, hstands⟩ := h.exists_child hp hc
  have hfree := fun m => Kind.isConversion_of_fresh (hraw.fresh m).kind
  rwa [h.eq_of_stands ⟨hraw.linked, hraw.ranked⟩ hfree hmem (hrole c' hc') hstands]

/-- Nodes without expressions among their parts keep them. -/
theorem children_parsed {p : Nat} (hp : p < forest.size)
    (hroles : ∀ c ∈ forest.children p, forest.role c ≠ .expression) :
    other.children p = forest.children p :=
  h.children_eq ⟨hraw.linked, hraw.ranked⟩
    (fun m => Kind.isConversion_of_fresh (hraw.fresh m).kind) hp hroles

end Raw

/-- Written types stay as they are. -/
theorem typeWithin_eq (h : Outgrown forest other) (hraw : forest.Raw) {levels : Nat} :
    ∀ {id : Nat}, forest.role id = .type ∨ forest.role id = .array →
      other.typeWithin levels id = forest.typeWithin levels id := by
  induction levels with
  | zero => exact fun _ => rfl
  | succ levels ih =>
    intro id hrole
    obtain ⟨part, hkind⟩ : ∃ part, forest.kind id = .type part := by
      rw [role] at hrole
      cases hk : forest.kind id <;> simp_all [Kind.role]
    have hid : id < forest.size := by
      by_contra hle
      rw [kind, node_of_size_le (Nat.le_of_not_lt hle)] at hkind
      cases hkind
    have hplain := h.plain id hid
    rw [hkind] at hplain
    have hkind' : other.kind id = .type part := by
      cases hk : other.kind id <;> simp_all [Kind.plain]
    have hshape := hraw.shaped id
    have hparts : ∀ c ∈ forest.children id, forest.role c = .type := by
      intro c hc
      have hmem : forest.role c ∈ forest.roles id := List.mem_map_of_mem hc
      rw [hkind] at hshape
      cases hform : part.form <;> simp_all [Kind.Holds]
    have hfree := fun m => Kind.isConversion_of_fresh (hraw.fresh m).kind
    have hchild : other.child? id 0 = forest.child? id 0 := by
      rw [child?, child?, h.children_eq ⟨hraw.linked, hraw.ranked⟩ hfree hid fun c hc => by
        rw [hparts c hc]
        simp]
    have hpart : (forest.child? id 0).bind (other.typeWithin levels) =
        (forest.child? id 0).bind (forest.typeWithin levels) := by
      cases hc : forest.child? id 0 with
      | none => rfl
      | some c => exact ih (.inl (hparts c (List.mem_of_getElem? hc)))
    simp only [typeWithin, hkind, hkind', hchild]
    cases part.form <;> simp_all [← Option.bind_assoc]

theorem typeOf?_eq (h : Outgrown forest other) (hraw : forest.Raw) {id : Nat}
    (hid : id < forest.size) (hrole : forest.role id = .type ∨ forest.role id = .array) :
    other.typeOf? id = forest.typeOf? id := by
  obtain ⟨more, hmore⟩ := Nat.exists_eq_add_of_le h.size_le
  rw [typeOf?, typeOf?, h.typeWithin_eq hraw hrole, hmore, Nat.add_right_comm]
  exact typeWithin_add (fun hc => hraw.rising hc) more (Nat.lt_succ_of_lt hid)

end Outgrown

/-- Nothing but conversions has been added above a node, and `top` is the uppermost of them. -/
structure Wrapped (forest other : Forest) (top : NodeId) : Prop where
  grown : Outgrown forest other
  top : other.Wrappable top
  kind : ∀ m : Nat, m < forest.size → other.kind m = forest.kind m
  scope : ∀ m : Nat, m < forest.size → (other.node m).scope = (forest.node m).scope

theorem Wrapped.trans {top top' : NodeId} (h : Wrapped forest other top)
    (h' : Wrapped other third top') : Wrapped forest third top' :=
  ⟨h.grown.trans h'.grown, h'.top,
    fun m hm => (h'.kind m (Nat.lt_of_lt_of_le hm h.grown.size_le)).trans (h.kind m hm),
    fun m hm => (h'.scope m (Nat.lt_of_lt_of_le hm h.grown.size_le)).trans (h.scope m hm)⟩

theorem wrapped_of_convert (hw : forest.Woven) (hid : forest.Wrappable id) {target : Ty}
    {top : NodeId} (h : forest.convert id target = .ok (other, top)) : Wrapped forest other top := by
  obtain ⟨p, hp⟩ := Option.isSome_iff_exists.mp hid.owned
  cases hs : forest.type? id with
  | none => simp [convert, hs] at h
  | some source =>
    rcases convert_cases hw.linked hw.ranked target hp hs with
      ⟨-, he⟩ | ⟨-, he⟩ | ⟨coercion, spliced, -, -, he, hspliced⟩
    · rw [he] at h
      cases h
      exact ⟨.refl hw, hid, fun _ _ => rfl, fun _ _ => rfl⟩
    · rw [he] at h
      cases h
    · rw [he] at h
      cases h
      refine ⟨.of_spliced hw hspliced hp hid.role, ⟨?_, ?_⟩,
        fun m hm => (hspliced.kept m (Nat.ne_of_lt hm)).1,
        fun m hm => (hspliced.kept m (Nat.ne_of_lt hm)).2.2.2⟩
      · rw [Owned, hspliced.parent_new]
        rfl
      · rw [role, Forest.kind, hspliced.node_new]
        rfl

theorem wrapped_of_promote (hw : forest.Woven) (hid : forest.Wrappable id) {common : Ty}
    {top : NodeId} (h : forest.promote id common = .ok (other, top)) : Wrapped forest other top := by
  unfold promote at h
  split at h
  · cases hc : forest.convert id .int with
    | error fault => simp [hc] at h
    | ok result =>
      obtain ⟨widened, middle⟩ := result
      rw [hc] at h
      have hwidened := wrapped_of_convert hw hid hc
      exact hwidened.trans (wrapped_of_convert hwidened.grown.woven hwidened.top h)
  · exact wrapped_of_convert hw hid h

end Forest

end MiniC
