import MiniC.Proofs.Resolve.Program

/-!
# What laying out leaves alone

Laying out a program gives strings a place in the pool and variables a slot in their frame. `Pooled`
and `Moved` say that nothing else changes, so what resolution has found out stays true.
-/

namespace MiniC

/-- Kinds that differ in the place of a string only. -/
inductive Kind.SameButPool : Kind → Kind → Prop
  | refl (kind : Kind) : SameButPool kind kind
  | string (value : String) (pool pool' : Option Nat) :
      SameButPool (string value pool) (string value pool')

/-- Forests that differ in the places of strings only. -/
structure Forest.Pooled (forest other : Forest) : Prop where
  size_eq : other.size = forest.size
  root_eq : other.root = forest.root
  node : ∀ id, ∃ kind, (forest.kind id).SameButPool kind ∧
    other.node id = { forest.node id with kind }

/-- Tables that differ in the slots of variables only. -/
structure SymbolTable.Moved (table other : SymbolTable) : Prop where
  size_eq : other.size = table.size
  scopes_eq : other.scopes = table.scopes
  fileScope_eq : other.fileScope = table.fileScope
  symbol : ∀ id, ∃ offset, other.symbol id = { table.symbol id with offset }

open Forest

variable {parsed forest other third : Forest} {table table' table'' : SymbolTable} {id root : NodeId}
  {type : Ty} {drawn : Nat}

namespace Kind.SameButPool

variable {kind kind' kind'' : Kind}

theorem trans (h : SameButPool kind kind') (h' : SameButPool kind' kind'') :
    SameButPool kind kind'' := by
  cases h with
  | refl => exact h'
  | string value pool pool' =>
    cases h' with
    | refl => exact .string value pool pool'
    | string => exact .string ..

theorem bare_eq (h : SameButPool kind kind') : kind'.bare = kind.bare := by cases h <;> rfl

theorem isPlace_eq (h : SameButPool kind kind') : kind'.isPlace = kind.isPlace := by
  cases h <;> rfl

theorem isIdentifier_eq (h : SameButPool kind kind') : kind'.isIdentifier = kind.isIdentifier := by
  cases h <;> rfl

theorem symbol?_eq (h : SameButPool kind kind') : kind'.symbol? = kind.symbol? := by
  cases h <;> rfl

theorem ownLabels_eq (h : SameButPool kind kind') : kind'.ownLabels = kind.ownLabels := by
  cases h <;> rfl

theorem isConversion_eq (h : SameButPool kind kind') : kind'.isConversion = kind.isConversion := by
  cases h <;> rfl

theorem jumpTarget?_eq (h : SameButPool kind kind') (leaving : Bool) :
    Resolve.jumpTarget? kind' leaving = Resolve.jumpTarget? kind leaving := by cases h <;> rfl

theorem eq_or_string (h : SameButPool kind kind') : kind' = kind ∨
    ∃ value pool pool', kind = .string value pool ∧ kind' = .string value pool' := by
  cases h with
  | refl => exact .inl rfl
  | string value pool pool' => exact .inr ⟨value, pool, pool', rfl, rfl⟩

/-- A kind that is no string is the same. -/
theorem eq_of_ne (h : SameButPool kind kind') (hne : ∀ value pool, kind ≠ .string value pool) :
    kind' = kind := by
  rcases h.eq_or_string with heq | ⟨value, pool, -, heq, -⟩
  · exact heq
  · exact absurd heq (hne value pool)

end Kind.SameButPool

namespace Forest.Pooled

theorem refl : Pooled forest forest := ⟨rfl, rfl, fun id => ⟨forest.kind id, .refl _, rfl⟩⟩

theorem trans (h : Pooled forest other) (h' : Pooled other third) : Pooled forest third := by
  refine ⟨h'.size_eq.trans h.size_eq, h'.root_eq.trans h.root_eq, fun id => ?_⟩
  obtain ⟨kind, hkind, hnode⟩ := h.node id
  obtain ⟨kind', hkind', hnode'⟩ := h'.node id
  rw [Forest.kind, hnode] at hkind'
  exact ⟨kind', hkind.trans hkind', by rw [hnode', hnode]⟩

variable (h : Pooled forest other)

include h

theorem kind_same (id : NodeId) : (forest.kind id).SameButPool (other.kind id) := by
  obtain ⟨kind, hkind, hnode⟩ := h.node id
  rw [Forest.kind, Forest.kind, hnode]
  exact hkind

theorem children_eq : other.children = forest.children := by
  funext id
  obtain ⟨kind, -, hnode⟩ := h.node id
  rw [children, hnode]
  rfl

theorem parent_eq : other.parent = forest.parent := by
  funext id
  obtain ⟨kind, -, hnode⟩ := h.node id
  rw [parent, hnode]
  rfl

theorem type_eq : other.type? = forest.type? := by
  funext id
  obtain ⟨kind, -, hnode⟩ := h.node id
  rw [type?, hnode]
  rfl

theorem line_eq : other.line = forest.line := by
  funext id
  obtain ⟨kind, -, hnode⟩ := h.node id
  rw [line, hnode]
  rfl

theorem child?_eq : other.child? = forest.child? := by
  funext id slot
  rw [child?, h.children_eq, child?]

theorem function_eq (id : NodeId) : (other.node id).function = (forest.node id).function := by
  obtain ⟨kind, -, hnode⟩ := h.node id
  rw [hnode]

theorem scope_eq (id : NodeId) : (other.node id).scope = (forest.node id).scope := by
  obtain ⟨kind, -, hnode⟩ := h.node id
  rw [hnode]

theorem casts_eq (id : NodeId) : (other.node id).casts = (forest.node id).casts := by
  obtain ⟨kind, -, hnode⟩ := h.node id
  rw [hnode]

theorem role_eq : other.role = forest.role := by
  funext id
  exact Kind.role_eq_of_bare (h.kind_same id).bare_eq

theorem isFunction_eq (id : NodeId) : (other.kind id).isFunction = (forest.kind id).isFunction :=
  Kind.isFunction_of_bare (h.kind_same id).bare_eq

/-- A node that is no string has the kind that it had. -/
theorem kind_eq (hne : ∀ value pool, forest.kind id ≠ .string value pool) :
    other.kind id = forest.kind id := (h.kind_same id).eq_of_ne hne

/-- A node that is no expression has the kind that it had. -/
theorem kind_eq_of_role (hrole : forest.role id ≠ .expression) :
    other.kind id = forest.kind id := by
  refine h.kind_eq fun value pool hkind => hrole ?_
  rw [role, hkind]
  rfl

theorem below_iff {n : NodeId} : other.Below n id ↔ forest.Below n id := by
  constructor
  · intro hn
    induction hn with
    | refl => exact .refl
    | child hc _ ih => exact .child (h.children_eq ▸ hc) ih
  · intro hn
    induction hn with
    | refl => exact .refl
    | child hc _ ih => exact .child (by rwa [h.children_eq]) ih

theorem linked (hl : forest.Linked) : other.Linked := by
  refine ⟨?_, ?_, ?_⟩
  · rw [h.children_eq, h.parent_eq]
    exact hl.parent_of_mem
  · rw [h.children_eq, h.parent_eq]
    exact hl.mem_of_parent
  · rw [h.children_eq]
    exact hl.nodup

theorem ranked (hr : forest.Ranked) : other.Ranked := by
  obtain ⟨rank, hrank⟩ := hr
  refine ⟨rank, ?_⟩
  rw [h.children_eq]
  exact hrank

theorem stands {c c' : NodeId} (hs : Stands forest c c') : Stands other c c' := by
  induction hs with
  | refl => exact .refl _
  | @wrap wrapper inner id change hkind hchildren _ ih =>
    have hother : other.kind wrapper = .conversion change := by
      rw [h.kind_eq (by simp [hkind]), hkind]
    exact .wrap hother (by rwa [h.children_eq]) ih

theorem grown (hg : Grown parsed forest) : Grown parsed other where
  linked := h.linked hg.linked
  ranked := h.ranked hg.ranked
  size_le := h.size_eq ▸ hg.size_le
  root_eq := h.root_eq.trans hg.root_eq
  bare m hm := (h.kind_same m).bare_eq.trans (hg.bare m hm)
  casts m hm := (h.casts_eq m).trans (hg.casts m hm)
  line m hm := by rw [h.line_eq, hg.line m hm]
  wrapper m hle hlt := by
    obtain ⟨change, inner, hkind, hchildren, hrole⟩ := hg.wrapper m hle (h.size_eq ▸ hlt)
    refine ⟨change, inner, ?_, by rw [h.children_eq, hchildren], by rw [h.role_eq, hrole]⟩
    rw [h.kind_eq (by simp [hkind]), hkind]
  children m hm := by
    rw [h.children_eq]
    exact (hg.children m hm).imp fun _ _ => h.stands

theorem hasType_iff : other.HasType id type ↔ forest.HasType id type := by
  rw [HasType, h.type_eq, HasType]

theorem argumentsFit {params : List Ty} {arguments : List NodeId}
    (hfit : ArgumentsFit forest params arguments) : ArgumentsFit other params arguments := by
  induction arguments generalizing params with
  | nil => simp [ArgumentsFit]
  | cons argument others ih =>
    cases params with
    | nil =>
      rw [ArgumentsFit, h.type_eq]
      exact ⟨hfit.1, ih hfit.2⟩
    | cons param params => exact ⟨h.hasType_iff.mpr hfit.1, ih hfit.2⟩

/-- The rule for an expression does not look at the places of strings. -/
theorem expressionRule (hrule : ExpressionRule parsed table forest id type) :
    ExpressionRule parsed table other id type := by
  have hplace : ∀ c, (other.kind c).isPlace = (forest.kind c).isPlace :=
    fun c => (h.kind_same c).isPlace_eq
  have hidentifier : ∀ c, (other.kind c).isIdentifier = (forest.kind c).isIdentifier :=
    fun c => (h.kind_same c).isIdentifier_eq
  unfold ExpressionRule at hrule ⊢
  rcases (h.kind_same id).eq_or_string with heq | ⟨value, pool, pool', hold, hnew⟩
  · rw [heq, h.children_eq, h.type_eq, h.function_eq]
    cases hk : forest.kind id <;> rw [hk] at hrule
    case call =>
      obtain ⟨s, signature, hs, hreached, hsignature, htype, hfits, harguments⟩ := hrule
      exact ⟨s, signature, hs, hreached, hsignature, htype, hfits, h.argumentsFit harguments⟩
    case binary | unary => simpa only [hplace] using hrule
    case subscript => simpa only [hidentifier, h.hasType_iff] using hrule
    all_goals exact hrule
  · simp only [hold] at hrule
    simpa only [hnew] using hrule

theorem stacked {bottom top : NodeId} {path : List Conversion}
    (hs : forest.Stacked bottom path top) : other.Stacked bottom path top := by
  induction hs with
  | refl => exact .refl _
  | @step bottom middle _ change _ hkind hchildren htype _ ih =>
    refine .step ?_ (by rwa [h.children_eq]) (by rwa [h.type_eq]) ih
    rw [h.kind_eq (by simp [hkind]), hkind]

theorem supplied {slot e top : NodeId} {wanted : List Ty}
    (hs : forest.Supplied parsed slot e top type wanted) :
    other.Supplied parsed slot e top type wanted := by
  obtain ⟨path, hpath, hstacked⟩ := hs.brought
  obtain ⟨own, casts, hown, hcasts, hcarried⟩ := hs.cast.carried
  refine ⟨⟨?_, ?_, ⟨own, casts, ?_, hcasts, h.stacked hcarried⟩, ?_⟩, path, hpath, h.stacked hstacked⟩
  · rw [h.role_eq]
    exact hs.cast.role
  · rw [(h.kind_same e).isConversion_eq]
    exact hs.cast.plain
  · rw [h.type_eq, hown]
  · rw [h.type_eq, hs.cast.type]

theorem brought {slot : NodeId} {wanted : List Ty} (hs : forest.Brought parsed slot wanted) :
    other.Brought parsed slot wanted := by
  obtain ⟨e, top, type, hsupplied⟩ := hs
  exact ⟨e, top, type, h.supplied hsupplied⟩

/-- A literal under minus signs was one before. -/
theorem signed {signs : Nat} {value : Int} (hs : other.Signed id signs value) :
    forest.Signed id signs value := by
  induction hs with
  | @literal id value hkind =>
    rcases (h.kind_same id).eq_or_string with heq | ⟨_, _, _, -, hstring⟩
    · exact .literal (heq ▸ hkind)
    · cases hkind.symm.trans hstring
  | @minus id operand _ _ hkind hchild _ ih =>
    rcases (h.kind_same id).eq_or_string with heq | ⟨_, _, _, -, hstring⟩
    · exact .minus (heq ▸ hkind) (by rwa [← h.child?_eq]) ih
    · cases hkind.symm.trans hstring

/-- What stands in the slots of an expression does not depend on the places of strings. -/
theorem operandsRule (hrule : OperandsRule parsed table forest id) :
    OperandsRule parsed table other id := by
  rcases (h.kind_same id).eq_or_string with heq | ⟨value, pool, pool', -, hnew⟩
  · exact hrule.imp heq (by rw [h.children_eq]) (fun _ _ _ _ _ _ hs => h.supplied hs)
      (fun _ _ _ _ _ _ hs => h.signed hs) .refl
  · rw [OperandsRule, hnew]
    trivial

theorem judged (hjudged : Judged parsed table forest id type) : Judged parsed table other id type := by
  refine ⟨hjudged.shallow, ?_, ?_, h.expressionRule hjudged.rule, h.operandsRule hjudged.operands⟩
  · rw [h.children_eq, h.type_eq]
    exact hjudged.typed
  · intro c hc
    rw [h.children_eq] at hc
    rw [h.function_eq, h.function_eq]
    exact hjudged.function c hc

theorem typed (htyped : Typed parsed table forest) : Typed parsed table other := by
  intro id type hrole htype
  rw [h.role_eq] at hrole
  rw [h.type_eq] at htype
  exact h.judged (htyped id type hrole htype)

theorem initialRule {function : Option NodeId} {children : List NodeId}
    (hrule : InitialRule forest function type children) :
    InitialRule other function type children := by
  unfold InitialRule at hrule ⊢
  split
  · simpa only [h.role_eq, h.type_eq, h.children_eq, h.hasType_iff, h.function_eq] using hrule
  · trivial

theorem parametersRule {params : List Ty} {children : List NodeId}
    (hrule : ParametersRule forest params children) : ParametersRule other params children := by
  unfold ParametersRule at hrule ⊢
  split
  · rw [h.scope_eq, h.children_eq]
    refine ⟨hrule.1, hrule.2.imp ?_⟩
    rintro param type ⟨⟨name, s, hkind⟩, htype⟩
    exact ⟨⟨name, s, by rw [h.kind_eq (by simp [hkind]), hkind]⟩, h.hasType_iff.mpr htype⟩
  · trivial

theorem slotsRule (hslots : SlotsRule parsed forest id) (hid : forest.role id ≠ .expression) :
    SlotsRule parsed other id := by
  refine hslots.imp (h.kind_eq_of_role hid) (by rw [h.children_eq]) ?_ ?_ ?_ rfl
    fun hs => h.brought hs
  · intro m _
    rw [h.type_eq]
  · intro c _
    rw [h.role_eq]
  · intro c _ _
    rw [h.children_eq, h.type_eq]
    exact ⟨rfl, rfl⟩

/-- What is right about a statement does not depend on the places of strings. -/
theorem settled (hsettled : Settled parsed table forest id)
    (hid : forest.role id ≠ .expression) : Settled parsed table other id := by
  refine ⟨?_, ?_, ?_, ?_, h.slotsRule hsettled.slots hid⟩
  · rw [h.scope_eq]
    exact hsettled.noted
  · rw [h.function_eq]
    exact hsettled.function
  · simpa only [h.children_eq, h.role_eq, h.type_eq, h.function_eq] using hsettled.parts
  · have hrule := hsettled.rule
    unfold StatementRule at hrule ⊢
    rw [h.kind_eq_of_role hid]
    split at hrule
    · obtain ⟨s, type, hs, htype, hinitial⟩ := hrule
      refine ⟨s, type, hs, by rw [h.type_eq, htype], ?_⟩
      rw [h.function_eq, h.children_eq]
      exact h.initialRule hinitial
    · obtain ⟨s, signature, result, hs, hlt, hsignature, htype, hsame, hparams⟩ := hrule
      refine ⟨s, signature, result, hs, hlt, hsignature, by rw [h.type_eq, htype], hsame, ?_⟩
      rw [h.children_eq]
      exact h.parametersRule hparams
    · trivial
    · trivial
    · trivial
    · simpa only [h.child?_eq, h.hasType_iff] using hrule
    · simpa only [h.child?_eq, h.hasType_iff] using hrule
    · simpa only [h.child?_eq, h.hasType_iff, h.role_eq] using hrule
    · simpa only [h.child?_eq, h.children_eq, h.type_eq, h.hasType_iff] using hrule
    · simpa only [(h.kind_same _).jumpTarget?_eq] using hrule
    · simpa only [(h.kind_same _).jumpTarget?_eq] using hrule
    · exact hrule.elim

theorem labelled (hlabelled : Labelled forest drawn) : Labelled other drawn :=
  hlabelled.of_same (fun m => (h.kind_same m).ownLabels_eq) (Nat.le_refl _)

theorem sameDeclarations : SameDeclarations forest other := by
  refine ⟨fun m => .inl (by rw [h.role_eq]), fun m _ _ => (h.kind_same m).symbol?_eq,
    fun m _ _ => by rw [h.type_eq], fun m _ _ => by rw [h.children_eq]⟩

end Forest.Pooled

namespace SymbolTable.Moved

theorem refl : Moved table table :=
  ⟨rfl, rfl, rfl, fun id => ⟨(table.symbol id).offset, rfl⟩⟩

theorem trans (h : Moved table table') (h' : Moved table' table'') : Moved table table'' := by
  refine ⟨h'.size_eq.trans h.size_eq, h'.scopes_eq.trans h.scopes_eq,
    h'.fileScope_eq.trans h.fileScope_eq, fun id => ?_⟩
  obtain ⟨offset, hoffset⟩ := h.symbol id
  obtain ⟨offset', hoffset'⟩ := h'.symbol id
  exact ⟨offset', by rw [hoffset', hoffset]⟩

variable (h : Moved table table')

include h

theorem grew : table.Grew table' := by
  refine ⟨Nat.le_of_eq h.size_eq.symm, fun id _ => ?_⟩
  obtain ⟨offset, hoffset⟩ := h.symbol id
  rw [hoffset]
  exact .offset offset

theorem name_eq (s : SymbolId) : (table'.symbol s).name = (table.symbol s).name := by
  obtain ⟨offset, hoffset⟩ := h.symbol s
  rw [hoffset]

theorem type_eq (s : SymbolId) : (table'.symbol s).type = (table.symbol s).type := by
  obtain ⟨offset, hoffset⟩ := h.symbol s
  rw [hoffset]

theorem kind_eq (s : SymbolId) : (table'.symbol s).kind = (table.symbol s).kind := by
  obtain ⟨offset, hoffset⟩ := h.symbol s
  rw [hoffset]

theorem signature?_eq (s : SymbolId) :
    (table'.symbol s).signature? = (table.symbol s).signature? := by
  rw [Symbol.signature?, h.kind_eq, Symbol.signature?]

theorem lookupFile_eq (name : String) : table'.lookupFile name = table.lookupFile name := by
  rw [lookupFile, h.scopes_eq, h.fileScope_eq, lookupFile]

/-- What is declared does not depend on where variables are kept. -/
theorem declared (hdeclared : Declared parsed forest table drawn) :
    Declared parsed forest table' drawn := by
  refine ⟨?_, ?_, ?_, ?_, ?_, hdeclared.body_unique, ?_⟩
  · intro id hid d hkind
    rw [h.size_eq] at hid
    rw [h.kind_eq] at hkind
    obtain ⟨offset, hoffset⟩ := h.symbol id
    obtain ⟨hlt, hrole, hsymbol, htype, hframe, hvariable, hbody⟩ :=
      hdeclared.variableAt id hid d hkind
    rw [hoffset]
    exact ⟨hlt, hrole, hsymbol, htype, hframe, hvariable, hbody⟩
  · intro id hid signature hsignature
    rw [h.size_eq] at hid
    rw [h.signature?_eq] at hsignature
    obtain ⟨offset, hoffset⟩ := h.symbol id
    obtain ⟨hresult, hparams, horigin⟩ := hdeclared.function id hid signature hsignature
    rw [hoffset]
    exact ⟨hresult, hparams, horigin⟩
  · simpa only [h.size_eq, h.kind_eq] using hdeclared.bound_variable
  · simpa only [h.size_eq, h.signature?_eq] using hdeclared.bound_function
  · intro f id hrole hsymbol
    rw [h.grew.frame_eq (hdeclared.bound_function f id hrole hsymbol).1]
    exact hdeclared.bound_frame f id hrole hsymbol
  · simpa only [h.size_eq, h.signature?_eq] using hdeclared.label_unique

end SymbolTable.Moved

/-- Laying out keeps a resolved program resolved. -/
theorem Resolved.laid {resolution : Resolution} (h : Resolved parsed root resolution)
    (hparsed : parsed.Parsed root) (hforest : resolution.forest.Pooled forest)
    (hbelow : ∀ id, id < parsed.size → ¬parsed.Below id root →
      forest.node id = resolution.forest.node id)
    (htable : resolution.table.Moved table) :
    Resolved parsed root { resolution with forest, table } where
  inside := by
    refine ⟨?_, fun m hm hout => ?_⟩
    · rw [hforest.size_eq]
      exact h.inside.size_le
    · rw [hbelow m hm hout]
      exact h.inside.outside m hm hout
  grown := hforest.grown h.grown
  typed := (hforest.typed h.typed).grew htable.grew
  labelled := hforest.labelled h.labelled
  declared := htable.declared (h.declared.of_same hforest.sameDeclarations (Nat.le_refl _))
  settled m hm hrole := by
    have hlt := hm.lt_size hparsed.raw.linked hparsed.lt_size
    refine Settled.grew (hforest.settled (h.settled m hm hrole) ?_) htable.grew
    rw [h.grown.role_eq hlt]
    exact Role.ne_of_isStatement hrole
  called id name s hkind signature hsignature := by
    rw [htable.signature?_eq] at hsignature
    refine h.called id name s ?_ signature hsignature
    rcases (hforest.kind_same id).eq_or_string with heq | ⟨_, _, _, _, hstring⟩
    · exact heq ▸ hkind
    · simp [hkind] at hstring
  file name s hlookup := by
    rw [htable.lookupFile_eq] at hlookup
    obtain ⟨hlt, hname, hframe⟩ := h.file name s hlookup
    refine ⟨htable.size_eq ▸ hlt, (htable.name_eq s).trans hname, ?_⟩
    exact (htable.grew.frame_eq hlt).trans hframe

end MiniC
