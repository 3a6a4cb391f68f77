import MiniC.Proofs.Grammar.Statement
import MiniC.Proofs.Resolve.Binding
import MiniC.Proofs.Resolve.Sound

/-!
# Name resolution is lexical scoping

Scopes and visibility are read off the tree that was parsed (`Forest.Means`); what names have been
bound to is read off the resolved program. In every program that is resolved the two agree, no scope
has two declarations of a name that do not belong together, and statements leave the open scopes as
they were. Names without a declaration and second variables are refused.
-/

namespace MiniC

open Forest

variable {parsed : Forest} {root u d d' scope : NodeId} {name : String} {s : SymbolId}
  {resolution : Resolution} {session : Session}

/-- Two declarations of one function: prototypes of the same types, and at most one of them with a
body. -/
structure Forest.SameFunction (forest : Forest) (d d' : NodeId) : Prop where
  functions : (forest.kind d).isFunction ∧ (forest.kind d').isFunction
  types : ∃ result params result' params', forest.HasPrototype d result params ∧
    forest.HasPrototype d' result' params' ∧ result.same result' ∧
    Resolve.sameTypes params params'
  one_body : ¬((forest.child? d 2).isSome ∧ (forest.child? d' 2).isSome)

/-- The names of a program are bound to what they mean. -/
structure LexicallyScoped (parsed : Forest) (root : NodeId) (resolution : Resolution) : Prop where
  /-- A name in an expression is that of a variable. -/
  identifier : ∀ u name symbol, parsed.Below u root → parsed.kind u = .identifier name symbol →
    ∃ d s, parsed.Means u name d ∧ (parsed.kind d).isVariable ∧
      resolution.forest.kind u = .identifier name (some s) ∧
      resolution.forest.symbol? d = some s ∧ (resolution.table.symbol s).kind = .variableAt d
  /-- The name of a call is that of a function, perhaps of one in the library. -/
  call : ∀ u name symbol, parsed.Below u root → parsed.kind u = .call name symbol →
    ∃ s, resolution.forest.kind u = .call name (some s) ∧
      (resolution.table.symbol s).isFunction ∧
      ((∃ d, parsed.Means u name d ∧ (parsed.kind d).isFunction ∧
          resolution.forest.symbol? d = some s) ∨
        ¬parsed.Sees u name ∧ parsed.IsRoutine root name s)
  /-- Only functions are declared twice in a scope. -/
  single : ∀ scope d d' name, parsed.Below scope root → parsed.DeclaredIn scope d name →
    parsed.DeclaredIn scope d' name → d ≠ d' → parsed.SameFunction d d'
  /-- A routine of the library may be declared as what it is, but not defined. -/
  routine : ∀ d name (s : SymbolId) (routine : Machine.Routine), parsed.DeclaredIn root d name →
    Machine.Routine.catalog[s]? = some routine → routine.name = name →
    (parsed.kind d).isFunction ∧ parsed.child? d 2 = none ∧
      ∃ result params, parsed.HasPrototype d result params ∧ routine.result.same result ∧
        Resolve.sameTypes routine.params params

/-- Some name has no declaration that it could stand for. -/
def Forest.Lost (forest : Forest) (root : NodeId) : Prop :=
  ∃ u name symbol, forest.Below u root ∧ ¬forest.Sees u name ∧
    (forest.kind u = .identifier name symbol ∨
      forest.kind u = .call name symbol ∧ ∀ s, ¬forest.IsRoutine root name s)

/-- Some scope has a variable and another declaration of its name. -/
def Forest.Clashing (forest : Forest) (root : NodeId) : Prop :=
  ∃ scope d d' name, forest.Below scope root ∧ forest.DeclaredIn scope d name ∧
    forest.DeclaredIn scope d' name ∧ d ≠ d' ∧ (forest.kind d).isVariable

namespace Forest

/-- The file is the outermost scope. -/
theorem Parsed.eq_root_of_file (h : parsed.Parsed root) (hu : parsed.Below u root)
    (hscope : parsed.Below u scope) (hfile : parsed.kind scope = .file) : scope = root := by
  have hrole : parsed.role scope = .file := by rw [role, hfile]; rfl
  rcases hu.comparable h.raw.linked hscope with hbelow | hbelow
  · by_contra hne
    obtain ⟨p, hparent, -⟩ := hbelow.exists_parent h.raw.linked (Ne.symm hne)
    rw [h.parent_root] at hparent
    cases hparent
  · by_contra hne
    obtain ⟨p, hparent, -⟩ := hbelow.exists_parent h.raw.linked hne
    exact h.raw.role_ne_file (h.raw.linked.mem_of_parent hparent) hrole

/-- The scopes around a scope are those further out. -/
theorem Enclosed.outer {forest : Forest} {n scope : NodeId} {inner outer : List NodeId}
    (h : forest.Enclosed n (inner ++ scope :: outer)) : forest.Enclosed scope outer := by
  generalize hscopes : inner ++ scope :: outer = scopes at h
  induction h generalizing inner with
  | top => simp at hscopes
  | inside _ _ h ih =>
    cases inner with
    | nil =>
      obtain ⟨rfl, rfl⟩ := List.cons.inj hscopes
      exact h
    | cons _ inner => exact ih (List.cons.inj hscopes).2
  | through _ _ _ ih => exact ih hscopes

end Forest

namespace Resolved

variable (hparsed : parsed.Parsed root) (h : Resolved parsed root resolution)
  (hm : Resolve.Moment parsed resolution [] fun d => parsed.Below d root)

include hparsed h hm

omit hparsed in
/-- What a declaration is bound to. -/
theorem symbol_of_declares (hd : parsed.Declares d name)
    (hs : resolution.forest.symbol? d = some s) :
    (parsed.kind d).isVariable ∧ (resolution.table.symbol s).kind = .variableAt d ∨
      (parsed.kind d).isFunction ∧ ∃ signature,
        (resolution.table.symbol s).signature? = some signature ∧
        ((parsed.child? d 2).isSome → signature.builtin = false) := by
  have hlt := hd.lt_size
  have hrole := hm.grown.role_eq hlt
  cases hd with
  | declaration hk =>
    have hdeclaration : resolution.forest.role d = .declaration := by rw [hrole, role, hk]; rfl
    exact .inl ⟨by rw [hk]; rfl, (h.declared.bound_variable d s (.inl hdeclaration) hs).2⟩
  | parameter hk =>
    have hparameter : resolution.forest.role d = .parameter := by rw [hrole, role, hk]; rfl
    exact .inl ⟨by rw [hk]; rfl, (h.declared.bound_variable d s (.inr hparameter) hs).2⟩
  | function hk =>
    have hfunction : resolution.forest.role d = .function := by rw [hrole, role, hk]; rfl
    obtain ⟨-, signature, hsignature, hbody⟩ := h.declared.bound_function d s hfunction hs
    refine .inr ⟨by rw [hk]; rfl, signature, hsignature, fun hsome => (hbody ?_).1⟩
    rw [← hm.grown.isSome_child? hlt _] at hsome
    exact (List.getElem?_eq_some_iff.mp (Option.isSome_iff_exists.mp hsome).choose_spec).1

omit hparsed h in
/-- Every declaration of the program is bound. -/
theorem exists_symbol (hd : parsed.Declares d name) (hbelow : parsed.Below d root) :
    ∃ s, resolution.forest.symbol? d = some s :=
  Option.isSome_iff_exists.mp ((hm.bound d name hd).mpr hbelow)

/-- What is resolved where a name is used. -/
theorem expressionRule (hu : parsed.Below u root) (hrole : parsed.role u = .expression) :
    ∃ type, ExpressionRule resolution.forest resolution.table resolution.forest u type := by
  have hlt := hu.lt_size hparsed.raw.linked hparsed.lt_size
  obtain ⟨type, -, hjudged⟩ := (h.sound hparsed).expression u (h.below_of_parsed hu)
    ((hm.grown.role_eq hlt).trans hrole)
  exact ⟨type, hjudged.rule⟩

theorem identifier_means {symbol : Option SymbolId} (hu : parsed.Below u root)
    (hkind : parsed.kind u = .identifier name symbol) :
    ∃ d s, parsed.Means u name d ∧ (parsed.kind d).isVariable ∧
      resolution.forest.kind u = .identifier name (some s) ∧
      resolution.forest.symbol? d = some s ∧ (resolution.table.symbol s).kind = .variableAt d := by
  have hlt := hu.lt_size hparsed.raw.linked hparsed.lt_size
  obtain ⟨type, hrule⟩ := h.expressionRule hparsed hm hu (by rw [role, hkind]; rfl)
  obtain ⟨found, hfound⟩ : ∃ found, resolution.forest.kind u = .identifier name found := by
    have hplain := hm.grown.plain u hlt
    rw [hkind] at hplain
    cases hk : resolution.forest.kind u <;> simp_all [Kind.plain]
  rw [ExpressionRule, hfound] at hrule
  obtain ⟨s, d, rfl, -, hvariable, -⟩ := hrule
  have hused := hm.used u name s (by rw [hkind]; rfl) (by rw [symbol?, hfound]; rfl)
  obtain ⟨inner, scope, outer, henclosed, hinner, ⟨d', hd', hsight, hsymbol⟩ | ⟨-, -, hroutine⟩⟩ := hused
  · refine ⟨d', s, ⟨inner, scope, outer, henclosed, hd', hsight, hinner⟩, ?_⟩
    rcases h.symbol_of_declares hm hd'.declares hsymbol with
      ⟨hisVariable, hkind'⟩ | ⟨-, signature, hsignature, -⟩
    · exact ⟨hisVariable, hfound, hsymbol, hkind'⟩
    · rw [Symbol.signature?_of_variableAt hvariable] at hsignature
      cases hsignature
  · obtain ⟨routine, hroutine, -⟩ := hroutine
    obtain ⟨signature, hsignature, -⟩ := hm.stocked s routine hroutine
    rw [Symbol.signature?_of_variableAt hvariable] at hsignature
    cases hsignature

theorem call_means {symbol : Option SymbolId} (hu : parsed.Below u root)
    (hkind : parsed.kind u = .call name symbol) :
    ∃ s, resolution.forest.kind u = .call name (some s) ∧
      (resolution.table.symbol s).isFunction ∧
      ((∃ d, parsed.Means u name d ∧ (parsed.kind d).isFunction ∧
          resolution.forest.symbol? d = some s) ∨
        ¬parsed.Sees u name ∧ parsed.IsRoutine root name s) := by
  have hlt := hu.lt_size hparsed.raw.linked hparsed.lt_size
  obtain ⟨type, hrule⟩ := h.expressionRule hparsed hm hu (by rw [role, hkind]; rfl)
  obtain ⟨found, hfound⟩ : ∃ found, resolution.forest.kind u = .call name found := by
    have hplain := hm.grown.plain u hlt
    rw [hkind] at hplain
    cases hk : resolution.forest.kind u <;> simp_all [Kind.plain]
  rw [ExpressionRule, hfound] at hrule
  obtain ⟨s, signature, rfl, -, hsignature, -⟩ := hrule
  refine ⟨s, hfound, by rw [Symbol.isFunction, hsignature]; rfl, ?_⟩
  have hused := hm.used u name s (by rw [hkind]; rfl) (by rw [symbol?, hfound]; rfl)
  obtain ⟨inner, scope, outer, henclosed, hinner, ⟨d', hd', hsight, hsymbol⟩ | ⟨hscope, hroutine⟩⟩ :=
    hused
  · refine .inl ⟨d', ⟨inner, scope, outer, henclosed, hd', hsight, hinner⟩, ?_, hsymbol⟩
    rcases h.symbol_of_declares hm hd'.declares hsymbol with ⟨-, hvariable⟩ | ⟨hfunction, -⟩
    · rw [Symbol.signature?_of_variableAt hvariable] at hsignature
      cases hsignature
    · exact hfunction
  · -- Behind the scope of the file there is no other one.
    obtain rfl := hparsed.eq_root_of_file hu
      (henclosed.below_of_mem scope (by simp)).1 hroutine.1
    obtain rfl : outer = [] := henclosed.outer.unique hparsed.raw.linked (.top hparsed.parent_root)
    refine .inr ⟨?_, hroutine⟩
    rintro ⟨scopes, henclosed', scope', hscope', d, hd, hsight⟩
    obtain rfl := henclosed'.unique hparsed.raw.linked henclosed
    rcases List.mem_append.mp hscope' with hmem | hmem
    · exact hinner scope' hmem d hd hsight
    · obtain rfl := List.mem_singleton.mp hmem
      exact hscope d hd hsight

theorem sameFunction (hscope : parsed.Below scope root) (hd : parsed.DeclaredIn scope d name)
    (hd' : parsed.DeclaredIn scope d' name) (hne : d ≠ d') : parsed.SameFunction d d' := by
  have hr := hparsed.raw.ranked
  obtain ⟨s, hs⟩ := exists_symbol hm hd.declares ((hd.below hr).1.trans hscope)
  obtain ⟨s', hs'⟩ := exists_symbol hm hd'.declares ((hd'.below hr).1.trans hscope)
  obtain rfl := hm.shared scope d d' name s s' hd hd' hs hs'
  rcases h.symbol_of_declares hm hd.declares hs with ⟨-, hvariable⟩ | ⟨hf, signature, hsignature, -⟩ <;>
    rcases h.symbol_of_declares hm hd'.declares hs' with
      ⟨-, hvariable'⟩ | ⟨hf', signature', hsignature', -⟩
  · rw [hvariable, SymbolKind.variableAt.injEq] at hvariable'
    exact absurd hvariable' hne
  · rw [Symbol.signature?_of_variableAt hvariable] at hsignature'
    cases hsignature'
  · rw [Symbol.signature?_of_variableAt hvariable'] at hsignature
    cases hsignature
  · obtain ⟨own, result, params, hown, hprototype, hresult, hparams⟩ := hm.signed d _ hf hs
    obtain ⟨own', result', params', hown', hprototype', hresult', hparams'⟩ := hm.signed d' _ hf' hs'
    obtain rfl : own' = own := Option.some.inj (hown'.symm.trans hown)
    rw [Resolve.sameTypes_iff] at hparams hparams'
    refine ⟨⟨hf, hf'⟩, ⟨result, params, result', params', hprototype, hprototype', ?_, ?_⟩, ?_⟩
    · exact Ty.same_trans (Ty.same_comm .. ▸ hresult) hresult'
    · exact Resolve.sameTypes_iff.mpr (hparams.symm.trans hparams')
    · rintro ⟨hbody, hbody'⟩
      have hbodies : ∀ {f}, (parsed.kind f).isFunction → (parsed.child? f 2).isSome →
          resolution.forest.role f = .function ∧ 2 < (resolution.forest.children f).length := by
        intro f hf hsome
        have hlt : f < parsed.size := lt_size_of_kind_ne (by rintro he; simp [he, Kind.isFunction] at hf)
        rw [← hm.grown.isSome_child? hlt _] at hsome
        refine ⟨?_, (List.getElem?_eq_some_iff.mp (Option.isSome_iff_exists.mp hsome).choose_spec).1⟩
        rw [hm.grown.role_eq hlt, role]
        cases hk : parsed.kind f <;> simp_all [Kind.isFunction, Kind.role]
      exact hne (h.declared.body_unique d d' _ (hbodies hf hbody).1 (hbodies hf' hbody').1 hs hs'
        (hbodies hf hbody).2 (hbodies hf' hbody').2)

theorem sameRoutine {routine : Machine.Routine} (hd : parsed.DeclaredIn root d name)
    (hroutine : Machine.Routine.catalog[s]? = some routine) (hname : routine.name = name) :
    (parsed.kind d).isFunction ∧ parsed.child? d 2 = none ∧
      ∃ result params, parsed.HasPrototype d result params ∧ routine.result.same result ∧
        Resolve.sameTypes routine.params params := by
  obtain ⟨s', hs'⟩ := exists_symbol hm hd.declares (hd.below hparsed.raw.ranked).1
  obtain rfl := hm.builtin root d name s s' hd ⟨hparsed.kind_root, routine, hroutine, hname⟩ hs'
  obtain ⟨own, hown, hbuiltin, hresult, hparams⟩ := hm.stocked s' routine hroutine
  rcases h.symbol_of_declares hm hd.declares hs' with ⟨-, hvariable⟩ | ⟨hf, signature, hsignature, hbody⟩
  · rw [Symbol.signature?_of_variableAt hvariable] at hown
    cases hown
  · obtain rfl : signature = own := Option.some.inj (hsignature.symm.trans hown)
    obtain ⟨own', result, params, hown', hprototype, hsame, hsameParams⟩ := hm.signed d _ hf hs'
    obtain rfl : own' = signature := Option.some.inj (hown'.symm.trans hown)
    refine ⟨hf, ?_, result, params, hprototype, hresult ▸ hsame, hparams ▸ hsameParams⟩
    by_contra hsome
    have := hbody (Option.isSome_iff_ne_none.mpr hsome)
    rw [hbuiltin] at this
    cases this

theorem lexicallyScoped : LexicallyScoped parsed root resolution where
  identifier _ _ _ hu hkind := h.identifier_means hparsed hm hu hkind
  call _ _ _ hu hkind := h.call_means hparsed hm hu hkind
  single _ _ _ _ hscope hd hd' hne := h.sameFunction hparsed hm hscope hd hd' hne
  routine _ _ _ _ hd hroutine hname := h.sameRoutine hparsed hm hd hroutine hname

end Resolved

/-- A program that is resolved has no lost names and no clashing variables. -/
theorem LexicallyScoped.accepted (h : LexicallyScoped parsed root resolution) : ¬parsed.Lost root ∧ ¬parsed.Clashing root := by
  constructor
  · rintro ⟨u, name, symbol, hu, hsees, hkind | ⟨hkind, hroutine⟩⟩
    · obtain ⟨d, s, hmeans, -⟩ := h.identifier u name symbol hu hkind
      exact hsees hmeans.sees
    · obtain ⟨s, -, -, ⟨d, hmeans, -⟩ | ⟨-, hs⟩⟩ := h.call u name symbol hu hkind
      · exact hsees hmeans.sees
      · exact hroutine s hs
  · rintro ⟨scope, d, d', name, hscope, hd, hd', hne, hvariable⟩
    have hfunction := (h.single scope d d' name hscope hd hd' hne).functions.1
    cases hkind : parsed.kind d <;> simp_all [Kind.isVariable, Kind.isFunction]

/-- In a resolved program every name is bound to what it means, and no scope has two declarations of a
name but those of one function. A program with a name that is not declared, or with a variable that
is declared again in its scope, is refused. Whatever statement is resolved at any state of the
program, the same scopes are open afterwards, and only the innermost has got new names. -/
theorem resolution_is_lexical {source : String} (session : Session)
    (hread : Grammar.read source = .ok parsed) :
    ∃ root, parsed.root = some root ∧
      (∀ resolution, Resolve.program parsed session = .ok resolution →
        LexicallyScoped parsed root resolution) ∧
      (parsed.Lost root ∨ parsed.Clashing root →
        ∃ fault, Resolve.program parsed session = .error fault ∧ fault.Ordinary) ∧
      ∀ levels id state next, Outgrown parsed state.forest →
        Resolve.statementWithin levels id state = .ok () next →
        Widened state.table.scopes next.table.scopes := by
  rcases Grammar.read_cases source with ⟨parsed', root, hread', hparsed⟩ | ⟨fault, hread', -⟩
  · obtain rfl : parsed' = parsed := Except.ok.inj (hread'.symm.trans hread)
    have haccepted : ∀ resolution, Resolve.program parsed' session = .ok resolution →
        LexicallyScoped parsed' root resolution := by
      intro resolution hresolve
      rcases Resolve.program_cases hparsed session with
        ⟨resolution', hresolve', h, -⟩ | ⟨fault, hresolve', -⟩
      · obtain rfl : resolution' = resolution := Except.ok.inj (hresolve'.symm.trans hresolve)
        exact h.lexicallyScoped hparsed (Resolve.moment_of_program hparsed hresolve)
      · cases hresolve'.symm.trans hresolve
    refine ⟨root, hparsed.root_eq, haccepted, fun hwrong => ?_, fun levels id state next hgrown hrun => ?_⟩
    · rcases Resolve.program_cases hparsed session with
        ⟨resolution, hresolve, -⟩ | ⟨fault, hresolve, hfault⟩
      · obtain ⟨hlost, hclashing⟩ := (haccepted resolution hresolve).accepted
        exact absurd hwrong (not_or.mpr ⟨hlost, hclashing⟩)
      · exact ⟨fault, hresolve, hfault⟩
    · exact (Resolve.passing_statementWithin.done ⟨.refl hgrown.woven, .refl _⟩ hrun).1.scopes
  · cases hread'.symm.trans hread

/-- A program with names that are hidden by parameters, in blocks and by the clauses of a loop, and with
a function that is declared before it gets its body. -/
def hidingNames : String :=
  "int x = 1; int f(int x); void main() \x7b int y = x; \x7b int x = y; for (int y = x; y < 3; y++) " ++
  "x = f(y); \x7d x = y; \x7d int f(int x) \x7b return x; \x7d"

theorem resolution_is_lexical_hidingNames :
    ∃ parsed resolution root, Grammar.read hidingNames = .ok parsed ∧
      Resolve.program parsed {} = .ok resolution ∧ parsed.root = some root ∧
      LexicallyScoped parsed root resolution := by
  have hrun : ((Grammar.read hidingNames).bind (Resolve.program · {})).isOk := by decide +kernel
  cases hread : Grammar.read hidingNames with
  | error fault => simp [hread, Except.bind, Except.isOk, Except.toBool] at hrun
  | ok parsed =>
    cases hresolve : Resolve.program parsed {} with
    | error fault => simp [hread, hresolve, Except.bind, Except.isOk, Except.toBool] at hrun
    | ok resolution =>
      obtain ⟨root, hroot, h, -⟩ := resolution_is_lexical {} hread
      exact ⟨parsed, resolution, root, rfl, hresolve, hroot, h resolution hresolve⟩

end MiniC
