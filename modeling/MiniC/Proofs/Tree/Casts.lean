import MiniC.Proofs.Tree.Growth

/-!
# Chains of conversions

Conversions stand one above the other when a value is brought to several types in turn: the casts
written in front of an expression come first, and what is around it may ask for more.
`Ty.route?` says which conversions these are, and `Stacked` that they stand above a node in this
order. `Cast` is an expression whose casts have been carried out, and `Supplied` a slot in which such
an expression has been brought to the types that are wanted there.
-/

namespace MiniC

namespace Ty

/-- The conversions that bring a value to other types in turn. There is none to a type that the value
has already, up to constness. -/
def route? : Ty → List Ty → Option (List Conversion)
  | _, [] => some []
  | current, target :: others =>
    if current.same target then current.route? others
    else
      match current.conversion? target with
      | none => none
      | some coercion =>
        (target.route? others).map ({ source := current, target, coercion } :: ·)

/-- The type of a value once it has been converted. -/
def after : Ty → List Conversion → Ty
  | type, [] => type
  | _, change :: changes => change.target.after changes

/-- The types that an operand is brought to on the way to the common one. -/
def stops (source common : Ty) : List Ty :=
  if source.widensThroughInt common then [.int, common] else [common]

variable {source target : Ty} {targets targets' : List Ty} {path path' : List Conversion}

@[simp] theorem route?_nil : source.route? [] = some [] := rfl

@[simp] theorem after_nil : source.after [] = source := rfl

@[simp] theorem after_cons {change : Conversion} :
    source.after (change :: path) = change.target.after path := rfl

theorem route?_of_same (h : source.same target) :
    source.route? (target :: targets) = source.route? targets := by rw [route?, if_pos h]

theorem route?_of_conversion {coercion : Coercion} (h : source.same target = false)
    (hc : source.conversion? target = some coercion) :
    source.route? (target :: targets) = (target.route? targets).map (⟨source, target, coercion⟩ :: ·) := by
  simp [route?, h, hc]

/-- A value goes the first part of the way first. -/
theorem route?_append (h : source.route? targets = some path)
    (h' : (source.after path).route? targets' = some path') :
    source.route? (targets ++ targets') = some (path ++ path') := by
  induction targets generalizing source path with
  | nil =>
    obtain rfl : [] = path := Option.some.inj h
    exact h'
  | cons target targets ih =>
    by_cases hsame : source.same target
    · rw [route?_of_same hsame] at h
      rw [List.cons_append, route?_of_same hsame, ih h h']
    · rw [Bool.not_eq_true] at hsame
      cases hc : source.conversion? target with
      | none => simp [route?, hsame, hc] at h
      | some coercion =>
        rw [route?_of_conversion hsame hc, Option.map_eq_some_iff] at h
        obtain ⟨rest, hrest, rfl⟩ := h
        rw [List.cons_append, route?_of_conversion hsame hc, ih hrest h', Option.map_some]
        rfl

@[simp] theorem after_append : source.after (path ++ path') = (source.after path).after path' := by
  induction path generalizing source with
  | nil => rfl
  | cons change path ih => exact ih

/-- To one type there is a conversion, unless the value has it already. -/
theorem route?_singleton_cases (h : source.route? [target] = some path) :
    source.same target ∧ path = [] ∨ ∃ coercion, source.same target = false ∧
      source.conversion? target = some coercion ∧ path = [⟨source, target, coercion⟩] := by
  by_cases hsame : source.same target
  · rw [route?_of_same hsame, route?_nil, Option.some.injEq] at h
    exact .inl ⟨hsame, h.symm⟩
  · rw [Bool.not_eq_true] at hsame
    cases hc : source.conversion? target with
    | none => simp [route?, hsame, hc] at h
    | some coercion =>
      rw [route?_of_conversion hsame hc, route?_nil, Option.map_some, Option.some.injEq] at h
      exact .inr ⟨coercion, hsame, rfl, h.symm⟩

/-- In the end a value has the last of the types. -/
theorem after_same (h : source.route? (targets ++ [target]) = some path) :
    (source.after path).same target := by
  induction targets generalizing source path with
  | nil =>
    rcases route?_singleton_cases h with ⟨hsame, rfl⟩ | ⟨coercion, -, -, rfl⟩
    · exact hsame
    · exact same_refl target
  | cons first targets ih =>
    rw [List.cons_append] at h
    by_cases hsame : source.same first
    · rw [route?_of_same hsame] at h
      exact ih h
    · rw [Bool.not_eq_true] at hsame
      cases hc : source.conversion? first with
      | none => simp [route?, hsame, hc] at h
      | some coercion =>
        rw [route?_of_conversion hsame hc, Option.map_eq_some_iff] at h
        obtain ⟨rest, hrest, rfl⟩ := h
        rw [after_cons]
        exact ih hrest

/-- There is at most one conversion to each type. -/
theorem length_le_of_route? (h : source.route? targets = some path) :
    path.length ≤ targets.length := by
  induction targets generalizing source path with
  | nil =>
    obtain rfl : [] = path := Option.some.inj h
    exact Nat.le_refl _
  | cons target targets ih =>
    by_cases hsame : source.same target
    · rw [route?_of_same hsame] at h
      exact Nat.le_succ_of_le (ih h)
    · rw [Bool.not_eq_true] at hsame
      cases hc : source.conversion? target with
      | none => simp [route?, hsame, hc] at h
      | some coercion =>
        rw [route?_of_conversion hsame hc, Option.map_eq_some_iff] at h
        obtain ⟨rest, hrest, rfl⟩ := h
        exact Nat.succ_le_succ (ih hrest)

theorem length_stops_le (source common : Ty) : (source.stops common).length ≤ 2 := by
  unfold stops
  split
  · exact Nat.le_refl _
  · exact Nat.le_succ _

/-- The common type is the last stop. -/
theorem after_stops_same {common : Ty} (h : source.route? (source.stops common) = some path) :
    (source.after path).same common := by
  unfold stops at h
  split at h
  · exact after_same (show source.route? ([.int] ++ [common]) = some path from h)
  · exact after_same (show source.route? ([] ++ [common]) = some path from h)

end Ty

namespace Forest

/-- What rules ask of a node agrees. -/
structure Agrees (forest other : Forest) (id : NodeId) : Prop where
  kind_eq : other.kind id = forest.kind id
  children_eq : other.children id = forest.children id
  type_eq : other.type? id = forest.type? id
  function_eq : (other.node id).function = (forest.node id).function
  scope_eq : (other.node id).scope = (forest.node id).scope

theorem Agrees.of_node {forest other : Forest} {id : NodeId} (h : other.node id = forest.node id) :
    Agrees forest other id := by
  refine ⟨?_, ?_, ?_, ?_, ?_⟩ <;> simp only [kind, children, type?, h]

theorem Agrees.trans {forest other third : Forest} {id : NodeId} (h : Agrees forest other id)
    (h' : Agrees other third id) : Agrees forest third id :=
  ⟨h'.kind_eq.trans h.kind_eq, h'.children_eq.trans h.children_eq, h'.type_eq.trans h.type_eq,
    h'.function_eq.trans h.function_eq, h'.scope_eq.trans h.scope_eq⟩

/-- What rules ask of typed expressions agrees. -/
def Retains (forest other : Forest) : Prop :=
  ∀ id, forest.role id = .expression → forest.type? id ≠ none → Agrees forest other id

variable {parsed forest other third : Forest} {bottom middle top slot e : NodeId} {type : Ty}
  {path path' : List Conversion} {wanted : List Ty}

theorem Retains.refl : Retains forest forest := fun _ _ _ => .of_node rfl

theorem Retains.trans (h : Retains forest other) (h' : Retains other third) :
    Retains forest third := by
  intro id hrole htype
  have ha := h id hrole htype
  have hrole' : other.role id = .expression := by rw [role, ha.kind_eq, ← hrole, role]
  have htype' : other.type? id ≠ none := by
    rw [ha.type_eq]
    exact htype
  exact ha.trans (h' id hrole' htype')

/-- Conversions stand one above the other, from right above `bottom` up to `top`. -/
inductive Stacked (forest : Forest) : NodeId → List Conversion → NodeId → Prop
  | refl (id : NodeId) : Stacked forest id [] id
  | step {bottom middle top : NodeId} {change : Conversion} {changes : List Conversion}
      (hkind : forest.kind middle = .conversion change)
      (hchildren : forest.children middle = [bottom])
      (htype : forest.type? middle = some change.target)
      (h : Stacked forest middle changes top) : Stacked forest bottom (change :: changes) top

namespace Stacked

theorem trans (h : Stacked forest bottom path middle) (h' : Stacked forest middle path' top) :
    Stacked forest bottom (path ++ path') top := by
  induction h with
  | refl => exact h'
  | step hkind hchildren htype _ ih => exact .step hkind hchildren htype (ih h')

theorem single {change : Conversion} (hkind : forest.kind top = .conversion change)
    (hchildren : forest.children top = [bottom]) (htype : forest.type? top = some change.target) :
    Stacked forest bottom [change] top := .step hkind hchildren htype (.refl top)

theorem type_top (h : Stacked forest bottom path top) (hbottom : forest.type? bottom = some type) :
    forest.type? top = some (type.after path) := by
  induction h generalizing type with
  | refl => exact hbottom
  | step _ _ htype _ ih => exact ih htype

/-- A stack without conversions is a single node. -/
theorem eq_of_nil (h : Stacked forest bottom [] top) : bottom = top := by
  cases h with
  | refl => rfl

/-- Nothing but a conversion stands above another node. -/
theorem eq_of_plain (h : Stacked forest bottom path top)
    (hplain : (forest.kind top).isConversion = false) : top = bottom := by
  induction h with
  | refl => rfl
  | step hkind _ _ _ ih =>
    rw [ih hplain, hkind] at hplain
    cases hplain

/-- Above a node there is one stack of as many conversions. -/
theorem unique {top' : NodeId} (h : Stacked forest bottom path top) (hl : forest.Linked)
    (h' : Stacked forest bottom path top') : top' = top := by
  induction h with
  | refl => exact h'.eq_of_nil.symm
  | @step bottom middle _ _ _ _ hchildren _ _ ih =>
    cases h' with
    | @step _ middle' _ _ _ _ hchildren' _ h' =>
      have hparent := hl.parent_of_mem (show bottom ∈ forest.children middle by simp [hchildren])
      have hparent' := hl.parent_of_mem (show bottom ∈ forest.children middle' by simp [hchildren'])
      obtain rfl : middle' = middle := Option.some.inj (hparent'.symm.trans hparent)
      exact ih h'

theorem stands (h : Stacked forest bottom path top) : Stands forest top bottom := by
  have hup : ∀ {inner}, Stands forest bottom inner → Stands forest top inner := by
    induction h with
    | refl => exact fun hs => hs
    | step hkind hchildren _ _ ih => exact fun hs => ih (.wrap hkind hchildren hs)
  exact hup (.refl bottom)

theorem below_top (h : Stacked forest bottom path top) : forest.Below bottom top := by
  induction h with
  | refl => exact .refl
  | step _ hchildren _ _ ih => exact (Below.of_mem (by simp [hchildren])).trans ih

/-- Conversions are typed expressions. -/
theorem mono (h : Stacked forest bottom path top)
    (ha : ∀ m, forest.Below m top → forest.role m = .expression → forest.type? m ≠ none →
      Agrees forest other m) : Stacked other bottom path top := by
  induction h with
  | refl => exact .refl _
  | @step bottom middle _ change _ hkind hchildren htype h ih =>
    have hrole : forest.role middle = .expression := by
      rw [role, hkind]
      rfl
    have hmiddle := ha middle h.below_top hrole (by simp [htype])
    exact .step (hmiddle.kind_eq.trans hkind) (hmiddle.children_eq.trans hchildren)
      (hmiddle.type_eq.trans htype) (ih ha)

end Stacked

/-- The casts in front of the expression `e` have been carried out above it, the innermost first, and
`top` is what has come of it. -/
structure Cast (forest parsed : Forest) (e top : NodeId) (type : Ty) : Prop where
  role : forest.role e = .expression
  plain : (forest.kind e).isConversion = false
  carried : ∃ own path, forest.type? e = some own ∧ own.route? (parsed.node e).casts = some path ∧
    forest.Stacked e path top
  type : forest.type? top = some type

/-- In the slot stands what has come of an expression `e` by its casts, brought to the types that are
wanted there. -/
structure Supplied (forest parsed : Forest) (slot e top : NodeId) (type : Ty) (wanted : List Ty) :
    Prop where
  cast : forest.Cast parsed e top type
  brought : ∃ path, type.route? wanted = some path ∧ forest.Stacked top path slot

theorem Cast.mono (h : forest.Cast parsed e top type)
    (ha : ∀ m, forest.Below m top → forest.role m = .expression → forest.type? m ≠ none →
      Agrees forest other m) : other.Cast parsed e top type := by
  obtain ⟨own, path, hown, hpath, hstacked⟩ := h.carried
  have he := ha e hstacked.below_top h.role (by simp [hown])
  have htop := (hstacked.mono ha).type_top (he.type_eq.trans hown)
  refine ⟨?_, ?_, ⟨own, path, he.type_eq.trans hown, hpath, hstacked.mono ha⟩, ?_⟩
  · rw [Forest.role, he.kind_eq]
    exact h.role
  · rw [he.kind_eq]
    exact h.plain
  · rw [htop, ← hstacked.type_top hown, h.type]

theorem Cast.supplied (h : forest.Cast parsed e top type) : forest.Supplied parsed top e top type [] :=
  ⟨h, [], rfl, .refl top⟩

theorem Supplied.mono (h : forest.Supplied parsed slot e top type wanted)
    (ha : ∀ m, forest.Below m slot → forest.role m = .expression → forest.type? m ≠ none →
      Agrees forest other m) : other.Supplied parsed slot e top type wanted := by
  obtain ⟨path, hpath, hstacked⟩ := h.brought
  refine ⟨h.cast.mono fun m hm => ha m (hm.trans hstacked.below_top), path, hpath, ?_⟩
  exact hstacked.mono ha

/-- Something stands in the slot that has been brought to the types that are wanted there. -/
def Brought (forest parsed : Forest) (slot : NodeId) (wanted : List Ty) : Prop :=
  ∃ e top type, forest.Supplied parsed slot e top type wanted

theorem Brought.mono (h : forest.Brought parsed slot wanted)
    (ha : ∀ m, forest.Below m slot → forest.role m = .expression → forest.type? m ≠ none →
      Agrees forest other m) : other.Brought parsed slot wanted := by
  obtain ⟨e, top, type, hs⟩ := h
  exact ⟨e, top, type, hs.mono ha⟩

theorem Supplied.top_below (h : forest.Supplied parsed slot e top type wanted) :
    forest.Below top slot := by
  obtain ⟨path, -, hstacked⟩ := h.brought
  exact hstacked.below_top

/-- Where nothing is wanted, nothing is put in. -/
theorem Supplied.top_eq (h : forest.Supplied parsed slot e top type []) : top = slot := by
  obtain ⟨path, hpath, hstacked⟩ := h.brought
  obtain rfl : [] = path := Option.some.inj hpath
  exact hstacked.eq_of_nil

/-- The expression is found below its slot by going down the conversions. -/
theorem Supplied.stands (h : forest.Supplied parsed slot e top type wanted) : Stands forest slot e := by
  obtain ⟨path, -, hstacked⟩ := h.brought
  obtain ⟨own, casts, -, -, hcasts⟩ := h.cast.carried
  exact (hcasts.trans hstacked).stands

/-- An expression with casts is one that was parsed. -/
theorem Cast.lt_parsed (h : forest.Cast parsed e top type) (hg : Grown parsed forest) :
    e < parsed.size := by
  by_contra hle
  obtain ⟨own, _, hown, -⟩ := h.carried
  have hlt : e < forest.size := by
    by_contra hsize
    rw [type?, node_of_size_le (Nat.le_of_not_lt hsize)] at hown
    cases hown
  obtain ⟨change, inner, hkind, -⟩ := hg.wrapper e (Nat.le_of_not_lt hle) hlt
  have hplain := h.plain
  rw [hkind] at hplain
  cases hplain

/-- The casts are those that the forest itself lists. -/
theorem Supplied.self (h : forest.Supplied parsed slot e top type wanted)
    (hg : Grown parsed forest) : forest.Supplied forest slot e top type wanted := by
  obtain ⟨own, path, hown, hpath, hstacked⟩ := h.cast.carried
  rw [← hg.casts e (h.cast.lt_parsed hg)] at hpath
  exact ⟨⟨h.cast.role, h.cast.plain, ⟨own, path, hown, hpath, hstacked⟩, h.cast.type⟩, h.brought⟩

/-- There is one expression below a chain of conversions. -/
theorem Stands.unique {e' : NodeId} (h : Stands forest slot e) (h' : Stands forest slot e')
    (hplain : (forest.kind e).isConversion = false)
    (hplain' : (forest.kind e').isConversion = false) : e = e' := by
  induction h with
  | refl =>
    cases h' with
    | refl => rfl
    | wrap hkind => simp [hkind, Kind.isConversion] at hplain
  | @wrap wrapper inner id change hkind hchildren _ ih =>
    cases h' with
    | refl => simp [hkind, Kind.isConversion] at hplain'
    | @wrap _ inner' _ _ _ hchildren' h' =>
      obtain rfl : inner = inner' := by simpa [hchildren] using hchildren'
      exact ih h' hplain

/-- In a slot stands what has come of the expression that was parsed there. -/
theorem Grown.child?_of_supplied (hg : Grown parsed forest) (hraw : parsed.Raw) {p : NodeId} {i : Nat}
    (hp : p < parsed.size) (hslot : forest.child? p i = some slot)
    (hs : forest.Supplied parsed slot e top type wanted) : parsed.child? p i = some e := by
  have hall := hg.children p hp
  obtain ⟨hi, hget⟩ := List.getElem?_eq_some_iff.mp hslot
  have hi' : i < (parsed.children p).length := hall.length_eq ▸ hi
  have hstands : Stands forest slot (parsed.children p)[i] := hget ▸ hall.get hi hi'
  have hplain : (forest.kind (parsed.children p)[i]).isConversion = false := by
    have hlt := hraw.linked.lt_size (List.getElem_mem hi')
    cases hk : forest.kind (parsed.children p)[i] with
    | conversion change => exact absurd hk (hg.kind_ne_conversion hraw hlt change)
    | _ => rfl
  rw [child?, List.getElem?_eq_getElem hi', hs.stands.unique hstands hs.cast.plain hplain]

/-- Of an expression one thing comes by its casts. -/
theorem Cast.unique {top' : NodeId} {type' : Ty} (h : forest.Cast parsed e top type)
    (hl : forest.Linked) (h' : forest.Cast parsed e top' type') : top' = top := by
  obtain ⟨own, path, hown, hpath, hstacked⟩ := h.carried
  obtain ⟨own', path', hown', hpath', hstacked'⟩ := h'.carried
  obtain rfl : own' = own := Option.some.inj (hown'.symm.trans hown)
  obtain rfl : path' = path := Option.some.inj (hpath'.symm.trans hpath)
  exact hstacked.unique hl hstacked'

end Forest

end MiniC
