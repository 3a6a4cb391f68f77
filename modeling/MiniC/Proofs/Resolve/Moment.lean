import MiniC.Proofs.Resolve.Passes
import MiniC.Proofs.Resolve.Rules
import MiniC.Proofs.Tree.Scopes

/-!
# Open scopes and the scopes of the tree

At every moment of resolution the open scopes are those around the place that has been reached, and
each lists the declarations in it that have been resolved so far. `Moment` says this, with the
declarations resolved so far given as `past`, and with what follows from it for names that have been
bound. Steps keep it: looking names up adds bound names, binding a declaration adds to the past.
-/

namespace MiniC

open Forest

variable {parsed forest other : Forest} {name : String} {s : SymbolId} {u d : NodeId}

/-- `s` is the symbol of a routine of the library, whose names are in the scope of the file. -/
def Forest.IsRoutine (forest : Forest) (scope : NodeId) (name : String) (s : SymbolId) : Prop :=
  forest.kind scope = .file ∧
    ∃ routine, Machine.Routine.catalog[s]? = some routine ∧ routine.name = name

/-- The symbol that a node is bound to. -/
def Forest.symbol? (forest : Forest) (id : NodeId) : Option SymbolId := (forest.kind id).symbol?

/-- The type is written in the first slot of the node. -/
def Forest.Writes (forest : Forest) (id : NodeId) (type : Ty) : Prop :=
  ∃ written, forest.child? id 0 = some written ∧ forest.typeOf? written = some type

/-- The function is written with the result type and the parameter types. -/
structure Forest.HasPrototype (forest : Forest) (f : NodeId) (result : Ty) (params : List Ty) :
    Prop where
  result : forest.Writes f result
  params : ∃ list, forest.child? f 1 = some list ∧
    List.Forall₂ forest.Writes (forest.children list) params

/-- The scope lists the names that are declared in the scope of the node and bound already, and in
that of the file the routines of the library. -/
def Lists (parsed forest : Forest) (node : NodeId) (scope : Scope) : Prop :=
  ∀ name s, scope.lookup name = some s ↔
    (∃ d, parsed.DeclaredIn node d name ∧ forest.symbol? d = some s) ∨ parsed.IsRoutine node name s

/-- The symbol is what the name stands for at the node: that of a declaration which the name means
there, or of a routine of the library if no declaration is in sight. -/
def StandsFor (parsed forest : Forest) (u : NodeId) (name : String) (s : SymbolId) : Prop :=
  ∃ inner scope outer, parsed.Enclosed u (inner ++ scope :: outer) ∧
    (∀ scope' ∈ inner, ∀ d, parsed.DeclaredIn scope' d name → ¬parsed.InSight d u) ∧
    ((∃ d, parsed.DeclaredIn scope d name ∧ parsed.InSight d u ∧ forest.symbol? d = some s) ∨
      (∀ d, parsed.DeclaredIn scope d name → ¬parsed.InSight d u) ∧ parsed.IsRoutine scope name s)

/-- Bound nodes stay bound, so what a name stands for stays. -/
theorem StandsFor.mono (h : StandsFor parsed forest u name s)
    (hbound : ∀ d name s, parsed.Declares d name → forest.symbol? d = some s →
      other.symbol? d = some s) : StandsFor parsed other u name s := by
  obtain ⟨inner, scope, outer, henclosed, hinner, ⟨d, hd, hsight, hsymbol⟩ | hroutine⟩ := h
  · exact ⟨inner, scope, outer, henclosed, hinner, .inl ⟨d, hd, hsight,
      hbound d name s hd.declares hsymbol⟩⟩
  · exact ⟨inner, scope, outer, henclosed, hinner, .inr hroutine⟩

/-- What an open scope finds is declared in the innermost scope of the tree that has the name. -/
theorem exists_scope_of_lookup {nodes : List NodeId} {scopes : List Scope}
    (h : List.Forall₂ (Lists parsed forest) nodes scopes)
    (hlookup : scopes.findSome? (·.lookup name) = some s) :
    ∃ inner scope outer, nodes = inner ++ scope :: outer ∧
      (∀ scope' ∈ inner, ∀ d, parsed.DeclaredIn scope' d name → forest.symbol? d = none) ∧
      ((∃ d, parsed.DeclaredIn scope d name ∧ forest.symbol? d = some s) ∨
        parsed.IsRoutine scope name s) := by
  induction h with
  | nil => cases hlookup
  | @cons node scope nodes scopes hlists _ ih =>
    rw [List.findSome?_cons] at hlookup
    cases hfound : scope.lookup name with
    | some found =>
      rw [hfound] at hlookup
      cases hlookup
      exact ⟨[], node, nodes, rfl, (by simp), (hlists name s).mp hfound⟩
    | none =>
      rw [hfound] at hlookup
      obtain ⟨inner, scope', outer, rfl, hinner, hscope⟩ := ih hlookup
      refine ⟨node :: inner, scope', outer, rfl, fun other hother d hd => ?_, hscope⟩
      rcases List.mem_cons.mp hother with rfl | hother
      · cases hsymbol : forest.symbol? d with
        | none => rfl
        | some s' =>
          rw [(hlists name s').mpr (.inl ⟨d, hd, hsymbol⟩)] at hfound
          cases hfound
      · exact hinner other hother d hd

theorem Forest.exists_declares_of_isFunction (h : (parsed.kind d).isFunction = true) :
    ∃ name, parsed.Declares d name := by
  cases hk : parsed.kind d with
  | function name => exact ⟨name, .function hk⟩
  | _ => simp [hk, Kind.isFunction] at h

/-- Functions that are new in the table are not in the library. -/
def SymbolTable.Plain (before after : SymbolTable) : Prop :=
  ∀ s signature, before.size ≤ s → (after.symbol s).signature? = some signature →
    signature.builtin = false

/-- Where nothing is new. -/
theorem SymbolTable.Plain.of_size_le {before after : SymbolTable} (h : after.size ≤ before.size) :
    before.Plain after := fun _ _ hle hs =>
  absurd (Nat.lt_of_lt_of_le (SymbolTable.lt_size_of_signature hs) h) (Nat.not_lt.mpr hle)

/-- Functions were in the library before if they are in it afterwards. -/
theorem SymbolTable.Grew.builtin_eq {before after : SymbolTable} (h : before.Grew after)
    (hs : s < before.size) {signature : Signature}
    (hsignature : (after.symbol s).signature? = some signature) :
    ∃ old, (before.symbol s).signature? = some old ∧ old.builtin = signature.builtin := by
  rcases (h.symbol s hs).kind with heq | ⟨old, hold, hnew⟩
  · refine ⟨signature, ?_, rfl⟩
    rw [← hsignature, Symbol.signature?, Symbol.signature?, heq]
  · rw [Symbol.signature?, hnew, Option.some.injEq] at hsignature
    exact ⟨old, by rw [Symbol.signature?, hold], by rw [← hsignature]⟩

/-- A name that is found in the innermost scope is listed there. -/
theorem SymbolTable.exists_of_lookupCurrent {table : SymbolTable}
    (h : table.lookupCurrent name = some s) :
    ∃ scope outer, table.scopes = scope :: outer ∧ scope.lookup name = some s := by
  unfold SymbolTable.lookupCurrent at h
  cases hscopes : table.scopes with
  | nil => simp [hscopes] at h
  | cons scope outer => exact ⟨scope, outer, rfl, by simpa [hscopes] using h⟩

namespace Resolve

variable {state next : Resolution} {scopes : List NodeId} {past past' : NodeId → Prop} {e : NodeId}

/-- Lists of types that differ in constness only. -/
theorem sameTypes_iff {types types' : List Ty} :
    sameTypes types types' = true ↔ types.map Ty.plain = types'.map Ty.plain := by
  induction types generalizing types' with
  | nil => cases types' <;> simp [sameTypes]
  | cons type types ih => cases types' <;> simp [sameTypes, ih, Ty.same]

/-- The symbol of a function is one with the types that the function is written with. -/
def Prototyped (parsed : Forest) (table : SymbolTable) (f : NodeId) (s : SymbolId) : Prop :=
  ∃ signature result params, (table.symbol s).signature? = some signature ∧
    parsed.HasPrototype f result params ∧ (table.symbol s).type.same result ∧
    sameTypes signature.params params

theorem Prototyped.grew {table table' : SymbolTable} {f : NodeId} (h : Prototyped parsed table f s)
    (hg : table.Grew table') : Prototyped parsed table' f s := by
  obtain ⟨signature, result, params, hsignature, hprototype, hresult, hparams⟩ := h
  have hlt := SymbolTable.lt_size_of_signature hsignature
  obtain ⟨defined, hsignature', -⟩ := hg.signature_eq hlt hsignature
  refine ⟨_, result, params, hsignature', hprototype, ?_, hparams⟩
  rwa [hg.type_eq hlt]

/-- The routines of the library come first in the table. -/
def Stocked (table : SymbolTable) : Prop :=
  ∀ s routine, Machine.Routine.catalog[s]? = some routine →
    ∃ signature, (table.symbol s).signature? = some signature ∧ signature.builtin = true ∧
      (table.symbol s).type = routine.result ∧ signature.params = routine.params

theorem Stocked.grew {table table' : SymbolTable} (h : Stocked table) (hg : table.Grew table') :
    Stocked table' := by
  intro s routine hroutine
  obtain ⟨signature, hsignature, hbuiltin, hresult, hparams⟩ := h s routine hroutine
  have hlt := SymbolTable.lt_size_of_signature hsignature
  obtain ⟨defined, hsignature', -⟩ := hg.signature_eq hlt hsignature
  exact ⟨_, hsignature', hbuiltin, (hg.type_eq hlt).trans hresult, hparams⟩

/-- Only the routines of the library are built in. -/
def Genuine (table : SymbolTable) : Prop :=
  ∀ s signature, (table.symbol s).signature? = some signature → signature.builtin = true →
    ∃ routine, Machine.Routine.catalog[s]? = some routine

theorem Genuine.grew {table table' : SymbolTable} (h : Genuine table) (hg : table.Grew table')
    (hplain : table.Plain table') : Genuine table' := by
  intro s signature hsignature hbuiltin
  by_cases hs : s < table.size
  · obtain ⟨old, hold, heq⟩ := hg.builtin_eq hs hsignature
    exact h s old hold (heq.trans hbuiltin)
  · rw [hplain s signature (Nat.le_of_not_lt hs) hsignature] at hbuiltin
    cases hbuiltin

/-- The innermost scope lists the name for the symbol, whether it did so before or not. -/
def Gains (name : String) (s : SymbolId) (before after : List Scope) : Prop :=
  ∃ scope scope' outer, before = scope :: outer ∧ after = scope' :: outer ∧
    ∀ name' s', scope'.lookup name' = some s' ↔
      scope.lookup name' = some s' ∨ name' = name ∧ s' = s

/-- The table has `s` for the name in the innermost scope. It is what the name stood for there already,
or else it is new. -/
structure Enters (name : String) (s : SymbolId) (before after : SymbolTable) : Prop where
  grew : before.Grew after
  gains : Gains name s before.scopes after.scopes
  lt_size : s < after.size
  known : before.lookupCurrent name = some s ∨ s = before.size

/-- Declarations have the same symbol only if they are of one name in one scope, or of a name of the
library in the scope of a file. -/
structure Apart (parsed forest : Forest) (size : Nat) : Prop where
  lt_size : ∀ d name s, parsed.Declares d name → forest.symbol? d = some s → s < size
  routine : ∀ scope d name s routine, parsed.DeclaredIn scope d name → forest.symbol? d = some s →
    Machine.Routine.catalog[s]? = some routine → parsed.kind scope = .file ∧ routine.name = name
  together : ∀ scope scope' d d' name name' s, parsed.DeclaredIn scope d name →
    parsed.DeclaredIn scope' d' name' → forest.symbol? d = some s → forest.symbol? d' = some s →
    name' = name ∧ (scope' = scope ∨ parsed.kind scope = .file ∧ parsed.kind scope' = .file)

/-- Nothing changes if declarations keep their symbols. -/
theorem Apart.congr {size : Nat} (h : Apart parsed forest size)
    (hsymbol : ∀ d name, parsed.Declares d name → other.symbol? d = forest.symbol? d) :
    Apart parsed other size where
  lt_size d name s hd hs := h.lt_size d name s hd ((hsymbol d name hd).symm.trans hs)
  routine scope d name s routine hd hs :=
    h.routine scope d name s routine hd ((hsymbol d name hd.declares).symm.trans hs)
  together scope scope' d d' name name' s hd hd' hs hs' :=
    h.together scope scope' d d' name name' s hd hd' ((hsymbol d name hd.declares).symm.trans hs)
      ((hsymbol d' name' hd'.declares).symm.trans hs')

/-- The open scopes are those of `scopes`, and the declarations resolved so far are the `past`. -/
structure Moment (parsed : Forest) (state : Resolution) (scopes : List NodeId)
    (past : NodeId → Prop) : Prop where
  grown : Outgrown parsed state.forest
  listed : List.Forall₂ (Lists parsed state.forest) scopes state.table.scopes
  bound : ∀ d name, parsed.Declares d name → ((state.forest.symbol? d).isSome ↔ past d)
  shared : ∀ scope d d' name s s', parsed.DeclaredIn scope d name →
    parsed.DeclaredIn scope d' name → state.forest.symbol? d = some s →
    state.forest.symbol? d' = some s' → s' = s
  builtin : ∀ scope d name s s', parsed.DeclaredIn scope d name →
    parsed.IsRoutine scope name s → state.forest.symbol? d = some s' → s' = s
  used : ∀ u name s, (parsed.kind u).use? = some name → state.forest.symbol? u = some s →
    StandsFor parsed state.forest u name s
  signed : ∀ f s, (parsed.kind f).isFunction → state.forest.symbol? f = some s →
    Prototyped parsed state.table f s
  stocked : Stocked state.table
  genuine : Genuine state.table
  apart : Apart parsed state.forest state.table.size

namespace Moment

/-- The past matters only as far as declarations go. -/
theorem congr (h : Moment parsed state scopes past)
    (hpast : ∀ d name, parsed.Declares d name → (past d ↔ past' d)) :
    Moment parsed state scopes past' :=
  { h with bound := fun d name hd => (h.bound d name hd).trans (hpast d name hd) }

/-- A step that leaves declarations and the table alone. Names and calls that it binds stand for what
they are bound to. -/
theorem follows (h : Moment parsed state scopes past) (hgrown : Outgrown state.forest next.forest)
    (htable : next.table = state.table)
    (hdeclared : ∀ d name, parsed.Declares d name → next.forest.symbol? d = state.forest.symbol? d)
    (hused : ∀ u name s, (parsed.kind u).use? = some name → next.forest.symbol? u = some s →
      StandsFor parsed state.forest u name s) : Moment parsed next scopes past := by
  refine ⟨h.grown.trans hgrown, ?_, ?_, ?_, ?_, ?_, ?_, ?_, htable ▸ h.genuine,
    htable ▸ h.apart.congr hdeclared⟩
  · rw [htable]
    refine h.listed.imp fun node scope hlists name s => (hlists name s).trans ?_
    refine or_congr_left (exists_congr fun d => and_congr_right fun hd => ?_)
    rw [hdeclared d name hd.declares]
  · intro d name hd
    rw [hdeclared d name hd]
    exact h.bound d name hd
  · intro scope d d' name s s' hd hd' hs hs'
    rw [hdeclared _ _ hd.declares] at hs
    rw [hdeclared _ _ hd'.declares] at hs'
    exact h.shared scope d d' name s s' hd hd' hs hs'
  · intro scope d name s s' hd hroutine hs'
    rw [hdeclared _ _ hd.declares] at hs'
    exact h.builtin scope d name s s' hd hroutine hs'
  · intro u name s hname hs
    exact (hused u name s hname hs).mono fun d name s hd hs => (hdeclared d name hd).trans hs
  · intro f s hf hs
    obtain ⟨name, hname⟩ := exists_declares_of_isFunction hf
    rw [hdeclared f name hname] at hs
    rw [htable]
    exact h.signed f s hf hs
  · rw [htable]
    exact h.stocked

/-- A step that binds nothing and leaves the table alone. -/
theorem quiet (h : Moment parsed state scopes past) (hgrown : Outgrown state.forest next.forest)
    (htable : next.table = state.table)
    (hsymbol : ∀ m : Nat, m < parsed.size → next.forest.symbol? m = state.forest.symbol? m) :
    Moment parsed next scopes past := by
  refine h.follows hgrown htable (fun d name hd => hsymbol d hd.lt_size) fun u name s hname hs => ?_
  have hu : (u : Nat) < parsed.size :=
    lt_size_of_kind_ne (by rintro he; simp [he, Kind.use?] at hname)
  rw [hsymbol u hu] at hs
  exact h.used u name s hname hs

/-- What a name is looked up as is what it stands for, where the past is what is in sight. -/
theorem standsFor (h : Moment parsed state scopes past) (henclosed : parsed.Enclosed u scopes)
    (hsight : ∀ d name, parsed.Declares d name → (parsed.InSight d u ↔ past d))
    (hlookup : state.table.lookup name = some s) : StandsFor parsed state.forest u name s := by
  obtain ⟨inner, scope, outer, rfl, hinner, hscope⟩ := exists_scope_of_lookup h.listed hlookup
  have hbound : ∀ d name, parsed.Declares d name →
      (parsed.InSight d u ↔ (state.forest.symbol? d).isSome) := fun d name hd =>
    (hsight d name hd).trans (h.bound d name hd).symm
  refine ⟨inner, scope, outer, henclosed, fun scope' hscope' d hd => ?_, ?_⟩
  · rw [hbound d name hd.declares, hinner scope' hscope' d hd]
    simp
  · rcases hscope with ⟨d, hd, hsymbol⟩ | hroutine
    · exact .inl ⟨d, hd, (hbound d name hd.declares).mpr (by rw [hsymbol]; rfl), hsymbol⟩
    · by_cases hseen : ∃ d, parsed.DeclaredIn scope d name ∧ parsed.InSight d u
      · -- A declaration of a routine of the library shares its symbol.
        obtain ⟨d, hd, hd'⟩ := hseen
        obtain ⟨s', hsymbol⟩ :=
          Option.isSome_iff_exists.mp ((hbound d name hd.declares).mp hd')
        obtain rfl := h.builtin scope d name s s' hd hroutine hsymbol
        exact .inl ⟨d, hd, hd', hsymbol⟩
      · exact .inr ⟨fun d hd hd' => hseen ⟨d, hd, hd'⟩, hroutine⟩

/-- Resolving an expression below which the scopes and the past are those of the moment. -/
theorem consults (h : Moment parsed state scopes past) (hstep : Consults parsed e state next)
    (hbelow : ∀ u, parsed.Below u e → parsed.Enclosed u scopes ∧
      ∀ d name, parsed.Declares d name → (parsed.InSight d u ↔ past d)) :
    Moment parsed next scopes past := by
  have hkind : ∀ u : Nat, u < parsed.size → (state.forest.kind u).use? = (parsed.kind u).use? :=
    fun u hu => Kind.use?_of_plain (h.grown.plain u hu)
  refine h.follows hstep.grown hstep.table_eq (fun d name hd => ?_) fun u name s hname hs => ?_
  · have hlt := hd.lt_size
    rcases hstep.kind d (Nat.lt_of_lt_of_le hlt h.grown.size_le) with heq | ⟨-, _, _, huse, -⟩
    · rw [symbol?, heq, symbol?]
    · rw [hkind d hlt] at huse
      cases hd <;> simp_all [Kind.use?]
  · have hu : (u : Nat) < parsed.size :=
      lt_size_of_kind_ne (by rintro he; simp [he, Kind.use?] at hname)
    rcases hstep.kind u (Nat.lt_of_lt_of_le hu h.grown.size_le) with
      heq | ⟨hue, name', s', huse, hlookup, hbind⟩
    · rw [symbol?, heq] at hs
      exact h.used u name s hname hs
    · rw [hkind u hu, hname, Option.some.injEq] at huse
      subst huse
      have hs' : s' = s := by
        rw [symbol?, hbind] at hs
        have hname' := (hkind u hu).trans hname
        cases hk : state.forest.kind u <;> simp_all [Kind.use?, Kind.bind, Kind.symbol?]
      obtain ⟨henclosed, hsight⟩ := hbelow u hue
      exact hs' ▸ h.standsFor henclosed hsight hlookup

/-- Entering a scope that nothing of the past is declared in. -/
theorem enter {n : NodeId} (h : Moment parsed state scopes past) (hkind : parsed.kind n ≠ .file)
    (hempty : ∀ d name, parsed.DeclaredIn n d name → ¬past d) :
    Moment parsed { state with table := state.table.enter } (n :: scopes) past := by
  refine { h with listed := .cons (fun name s => ?_) h.listed }
  refine ⟨(by simp), ?_⟩
  rintro (⟨d, hd, hs⟩ | ⟨hfile, -⟩)
  · exact absurd ((h.bound d name hd.declares).mp (by rw [hs]; rfl)) (hempty d name hd)
  · exact absurd hfile hkind

/-- Leaving a scope forgets what it lists. -/
theorem leave {n : NodeId} (h : Moment parsed state (n :: scopes) past) :
    Moment parsed { state with table := state.table.leave } scopes past := by
  obtain ⟨scopes', hscopes, hsymbols⟩ : ∃ others, state.table.leave.scopes = others ∧
      List.Forall₂ (Lists parsed state.forest) scopes others ∧
      state.table.leave.symbols = state.table.symbols := by
    have hlisted := h.listed
    unfold SymbolTable.leave
    split
    · next heq => cases heq ▸ hlisted
    · next heq =>
      rw [heq, List.forall₂_cons] at hlisted
      exact ⟨_, rfl, hlisted.2, rfl⟩
    · next heq =>
      rw [heq, List.forall₂_cons] at hlisted
      exact ⟨_, rfl, hlisted.2, rfl⟩
  have hg : state.table.Grew state.table.leave := .of_symbols hsymbols.2
  exact { h with
    listed := hscopes ▸ hsymbols.1
    signed := fun f s hf hs => (h.signed f s hf hs).grew hg
    stocked := h.stocked.grew hg
    genuine := h.genuine.grew hg (.of_size_le (Nat.le_of_eq (SymbolTable.size_leave state.table)))
    apart := SymbolTable.size_leave state.table ▸ h.apart }

end Moment

/-! ## Binding a declaration -/

/-- The step binds the declaration `d` of `name` to `s`, and nothing else. The innermost scope lists
the name for it then, perhaps because it did so before. -/
structure NewlyBound (parsed : Forest) (state next : Resolution) (d : NodeId) (name : String)
    (s : SymbolId) : Prop where
  grown : Outgrown state.forest next.forest
  symbol_eq : next.forest.symbol? d = some s
  others : ∀ m : Nat, m < parsed.size → m ≠ d → next.forest.symbol? m = state.forest.symbol? m
  entered : Enters name s state.table next.table
  plain : state.table.Plain next.table
  signed : (parsed.kind d).isFunction → Prototyped parsed next.table d s

section NewlyBound

variable {scope : NodeId} {outer : List NodeId} (hraw : parsed.Raw)
  (h : Moment parsed state (scope :: outer) past) (hb : NewlyBound parsed state next d name s)
  (hd : parsed.Declares d name) (henclosed : parsed.Enclosed d (scope :: outer)) (hpast : ¬past d)

include h hd hpast in
theorem NewlyBound.symbol_none : state.forest.symbol? d = none := by
  cases hs : state.forest.symbol? d with
  | none => rfl
  | some s' => exact absurd ((h.bound d name hd).mp (by rw [hs]; rfl)) hpast

include hraw hd henclosed in
/-- The scope that `d` is declared in is the innermost one. -/
theorem NewlyBound.declaredIn_iff {scope' : NodeId} {name' : String} :
    parsed.DeclaredIn scope' d name' ↔ scope' = scope ∧ name' = name := by
  constructor
  · rintro ⟨hdeclares, outer', henclosed'⟩
    exact ⟨(List.cons.inj (henclosed'.unique hraw.linked henclosed)).1, hdeclares.name_eq hd⟩
  · rintro ⟨rfl, rfl⟩
    exact ⟨hd, outer, henclosed⟩

include hb in
/-- Besides `d`, the same declarations in a scope have the symbol. -/
theorem NewlyBound.exists_iff {scope' : NodeId} {name' : String} {s' : SymbolId}
    (hnone : state.forest.symbol? d = none) :
    (∃ d', parsed.DeclaredIn scope' d' name' ∧ next.forest.symbol? d' = some s') ↔
      (∃ d', parsed.DeclaredIn scope' d' name' ∧ state.forest.symbol? d' = some s') ∨
        parsed.DeclaredIn scope' d name' ∧ s' = s := by
  constructor
  · rintro ⟨d', hd', hs'⟩
    by_cases hne : d' = d
    · subst hne
      rw [hb.symbol_eq, Option.some.injEq] at hs'
      exact .inr ⟨hd', hs'.symm⟩
    · rw [hb.others d' hd'.declares.lt_size hne] at hs'
      exact .inl ⟨d', hd', hs'⟩
  · rintro (⟨d', hd', hs'⟩ | ⟨hd', rfl⟩)
    · have hne : d' ≠ d := by
        rintro rfl
        rw [hnone] at hs'
        cases hs'
      exact ⟨d', hd', (hb.others d' hd'.declares.lt_size hne).trans hs'⟩
    · exact ⟨d, hd', hb.symbol_eq⟩

include hraw h hb hd henclosed hpast in
/-- The scopes list what they have to list. -/
theorem NewlyBound.listed :
    List.Forall₂ (Lists parsed next.forest) (scope :: outer) next.table.scopes := by
  have hnone := NewlyBound.symbol_none h hd hpast
  obtain ⟨head, head', rest, hscopes, hscopes', hlookup⟩ := hb.entered.gains
  have hlisted := h.listed
  rw [hscopes, List.forall₂_cons] at hlisted
  rw [hscopes', List.forall₂_cons]
  refine ⟨fun name' s' => ?_, List.forall₂_iff_get.mpr ⟨hlisted.2.length_eq, fun i hi hi' => ?_⟩⟩
  · rw [hlookup name' s', hlisted.1 name' s', hb.exists_iff hnone,
      declaredIn_iff hraw hd henclosed]
    simp only [true_and]
    exact or_right_comm
  · -- The outer scopes are other ones than that of `d`.
    have hne : outer.get ⟨i, hi⟩ ≠ scope := fun he =>
      (List.nodup_cons.mp (henclosed.nodup hraw.ranked)).1 (he ▸ List.get_mem _ _)
    intro name' s'
    rw [hlisted.2.get hi hi' name' s', hb.exists_iff hnone, declaredIn_iff hraw hd henclosed]
    simp only [hne, false_and, or_false]

include h hb in
/-- What the scope of `d` lists under its name already is the same symbol. -/
theorem NewlyBound.eq_of_listed {s' : SymbolId}
    (hs' : (∃ d', parsed.DeclaredIn scope d' name ∧ state.forest.symbol? d' = some s') ∨
      parsed.IsRoutine scope name s') : s' = s := by
  obtain ⟨head, head', rest, hscopes, -, hlookup⟩ := hb.entered.gains
  have hlisted := h.listed
  rw [hscopes, List.forall₂_cons] at hlisted
  have hold := (hlookup name s').mpr (.inl ((hlisted.1 name s').mpr hs'))
  rw [(hlookup name s).mpr (.inr ⟨rfl, rfl⟩), Option.some.injEq] at hold
  exact hold.symm

include hb in
/-- A declaration has the symbol from before, or it is `d`. -/
theorem NewlyBound.symbol_cases {d' : NodeId} {name' : String} {s' : SymbolId}
    (hd' : parsed.Declares d' name') (hs' : next.forest.symbol? d' = some s') :
    d' = d ∧ s' = s ∨ state.forest.symbol? d' = some s' := by
  by_cases hne : d' = d
  · subst hne
    rw [hb.symbol_eq, Option.some.injEq] at hs'
    exact .inl ⟨rfl, hs'.symm⟩
  · rw [hb.others d' hd'.lt_size hne] at hs'
    exact .inr hs'

include h hb in
/-- What has the symbol already is of the same name in the same scope, or of the library's name. -/
theorem NewlyBound.together {scope' d' : NodeId} {name' : String}
    (hd' : parsed.DeclaredIn scope' d' name') (hs' : state.forest.symbol? d' = some s) :
    name' = name ∧ (scope' = scope ∨ parsed.kind scope = .file ∧ parsed.kind scope' = .file) := by
  rcases hb.entered.known with hlookup | hfresh
  · obtain ⟨head, rest, hscopes, hlookup⟩ := SymbolTable.exists_of_lookupCurrent hlookup
    have hlisted := h.listed
    rw [hscopes, List.forall₂_cons] at hlisted
    rcases (hlisted.1 name s).mp hlookup with
      ⟨other, hother, hsymbol⟩ | ⟨hfile, routine, hroutine, hname⟩
    · exact h.apart.together scope scope' other d' name name' s hother hd' hsymbol hs'
    · obtain ⟨hfile', hname'⟩ := h.apart.routine scope' d' name' s routine hd' hs' hroutine
      exact ⟨hname'.symm.trans hname, .inr ⟨hfile, hfile'⟩⟩
  · have hlt := h.apart.lt_size d' name' s hd'.declares hs'
    exact absurd (hfresh ▸ hlt) (Nat.lt_irrefl _)

include h hb in
/-- If the symbol is one of the library, then `d` declares the name of that in the file. -/
theorem NewlyBound.routine {routine : Machine.Routine}
    (hroutine : Machine.Routine.catalog[s]? = some routine) :
    parsed.kind scope = .file ∧ routine.name = name := by
  rcases hb.entered.known with hlookup | hfresh
  · obtain ⟨head, rest, hscopes, hlookup⟩ := SymbolTable.exists_of_lookupCurrent hlookup
    have hlisted := h.listed
    rw [hscopes, List.forall₂_cons] at hlisted
    rcases (hlisted.1 name s).mp hlookup with
      ⟨other, hother, hsymbol⟩ | ⟨hfile, routine', hroutine', hname⟩
    · exact h.apart.routine scope other name s routine hother hsymbol hroutine
    · rw [hroutine', Option.some.injEq] at hroutine
      exact ⟨hfile, hroutine ▸ hname⟩
  · -- The symbols of the library are in the table already.
    obtain ⟨signature, hsignature, -⟩ := h.stocked s routine hroutine
    have hlt := SymbolTable.lt_size_of_signature hsignature
    exact absurd (hfresh ▸ hlt) (Nat.lt_irrefl _)

include hraw h hb hd henclosed in
theorem NewlyBound.apart : Apart parsed next.forest next.table.size where
  lt_size d' name' s' hd' hs' := by
    rcases hb.symbol_cases hd' hs' with ⟨-, rfl⟩ | hold
    · exact hb.entered.lt_size
    · exact Nat.lt_of_lt_of_le (h.apart.lt_size d' name' s' hd' hold) hb.entered.grew.size_le
  routine scope' d' name' s' routine hd' hs' hroutine := by
    rcases hb.symbol_cases hd'.declares hs' with ⟨rfl, rfl⟩ | hold
    · obtain ⟨rfl, rfl⟩ := (NewlyBound.declaredIn_iff hraw hd henclosed).mp hd'
      exact hb.routine h hroutine
    · exact h.apart.routine scope' d' name' s' routine hd' hold hroutine
  together scope₁ scope₂ d₁ d₂ name₁ name₂ s' hd₁ hd₂ hs₁ hs₂ := by
    have hown : ∀ {scope' name'}, parsed.DeclaredIn scope' d name' → scope' = scope ∧ name' = name :=
      (NewlyBound.declaredIn_iff hraw hd henclosed).mp
    rcases hb.symbol_cases hd₁.declares hs₁ with ⟨rfl, rfl⟩ | hold₁
    · obtain ⟨rfl, rfl⟩ := hown hd₁
      rcases hb.symbol_cases hd₂.declares hs₂ with ⟨rfl, -⟩ | hold₂
      · obtain ⟨rfl, rfl⟩ := hown hd₂
        exact ⟨rfl, .inl rfl⟩
      · exact hb.together h hd₂ hold₂
    · rcases hb.symbol_cases hd₂.declares hs₂ with ⟨rfl, rfl⟩ | hold₂
      · obtain ⟨rfl, rfl⟩ := hown hd₂
        obtain ⟨hname, hscope⟩ := hb.together h hd₁ hold₁
        exact ⟨hname.symm, hscope.imp Eq.symm And.symm⟩
      · exact h.apart.together scope₁ scope₂ d₁ d₂ name₁ name₂ s' hd₁ hd₂ hold₁ hold₂

include hraw h hb hd henclosed hpast in
/-- Binding a declaration makes it a part of the past. -/
theorem Moment.bind : Moment parsed next (scope :: outer) fun m => past m ∨ m = d := by
  have hnone := NewlyBound.symbol_none h hd hpast
  have hstays : ∀ d' name' s', parsed.Declares d' name' → state.forest.symbol? d' = some s' →
      next.forest.symbol? d' = some s' := by
    intro d' name' s' hd' hs'
    have hne : d' ≠ d := by
      rintro rfl
      rw [hnone] at hs'
      cases hs'
    exact (hb.others d' hd'.lt_size hne).trans hs'
  refine ⟨h.grown.trans hb.grown, hb.listed hraw h hd henclosed hpast, ?_, ?_, ?_, ?_, ?_,
    h.stocked.grew hb.entered.grew, h.genuine.grew hb.entered.grew hb.plain, hb.apart hraw h hd henclosed⟩
  · intro d' name' hd'
    by_cases hne : d' = d
    · subst hne
      simp [hb.symbol_eq]
    · rw [hb.others d' hd'.lt_size hne, h.bound d' name' hd']
      simp [hne]
  · intro scope' d₁ d₂ name' s₁ s₂ h₁ h₂ hs₁ hs₂
    have hmine : ∀ d' s', parsed.DeclaredIn scope' d name' → parsed.DeclaredIn scope' d' name' →
        state.forest.symbol? d' = some s' → s' = s := by
      intro d' s' hown hother hs'
      obtain ⟨rfl, rfl⟩ := (NewlyBound.declaredIn_iff hraw hd henclosed).mp hown
      exact hb.eq_of_listed h (.inl ⟨d', hother, hs'⟩)
    rcases hb.symbol_cases h₁.declares hs₁ with ⟨rfl, rfl⟩ | hs₁ <;>
      rcases hb.symbol_cases h₂.declares hs₂ with ⟨rfl, rfl⟩ | hs₂
    · rfl
    · exact hmine d₂ s₂ h₁ h₂ hs₂
    · exact (hmine d₁ s₁ h₂ h₁ hs₁).symm
    · exact h.shared scope' d₁ d₂ name' s₁ s₂ h₁ h₂ hs₁ hs₂
  · intro scope' d' name' s₁ s₂ hd' hroutine hs₂
    rcases hb.symbol_cases hd'.declares hs₂ with ⟨rfl, rfl⟩ | hs₂
    · obtain ⟨rfl, rfl⟩ := (NewlyBound.declaredIn_iff hraw hd henclosed).mp hd'
      exact (hb.eq_of_listed h (.inr hroutine)).symm
    · exact h.builtin scope' d' name' s₁ s₂ hd' hroutine hs₂
  · intro u name' s' hname hs'
    have hu : (u : Nat) < parsed.size :=
      lt_size_of_kind_ne (by rintro he; simp [he, Kind.use?] at hname)
    have hne : u ≠ d := by
      rintro rfl
      cases hd <;> simp_all [Kind.use?]
    rw [hb.others u hu hne] at hs'
    exact (h.used u name' s' hname hs').mono hstays
  · intro f s' hf hs'
    obtain ⟨name', hname⟩ := exists_declares_of_isFunction hf
    rcases hb.symbol_cases hname hs' with ⟨rfl, rfl⟩ | hs'
    · exact hb.signed hf
    · exact (h.signed f s' hf hs').grew hb.entered.grew

end NewlyBound

end Resolve

end MiniC
