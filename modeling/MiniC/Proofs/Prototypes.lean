import MiniC.Proofs.LexicalScope

/-!
# Prototypes and definitions

A function may be declared any number of times in its scope and gets its body at most once there, which
may be after calls of it. In every program that is resolved the declarations of a function are those of
one symbol (`Merged`), and every call is of a function that has its body in the end and is given as many
arguments as that takes (`Answered`). Programs in which some call never gets an answer are refused, as
are those in which two declarations of a function disagree.
-/

namespace MiniC

open Forest

variable {parsed : Forest} {root scope u d d' f : NodeId} {name : String} {s : SymbolId}
  {resolution : Resolution} {session : Session}

theorem Kind.isFunction_of_role_function {kind : Kind} (h : kind.role = .function) :
    kind.isFunction := by
  cases kind with
  | type part => cases hform : part.form <;> simp [Kind.role, hform] at h
  | function => rfl
  | _ => simp [Kind.role] at h

namespace Forest

/-- The function is declared together with its body. -/
def HasBody (forest : Forest) (f : NodeId) : Prop := (forest.child? f 2).isSome

/-- A function of the name is declared in the scope. -/
structure FunctionIn (forest : Forest) (scope f : NodeId) (name : String) : Prop where
  declared : forest.DeclaredIn scope f name
  isFunction : (forest.kind f).isFunction

/-- Some call is of a function that gets no body in its scope. -/
def Unanswered (forest : Forest) (root : NodeId) : Prop :=
  ∃ u name symbol scope d, forest.Below u root ∧ forest.kind u = .call name symbol ∧
    forest.Means u name d ∧ forest.FunctionIn scope d name ∧
    (∀ f, forest.FunctionIn scope f name → ¬forest.HasBody f) ∧ ∀ s, ¬forest.IsRoutine scope name s

/-- Two declarations of a function in one scope have a body each, or not the same types. -/
def Discordant (forest : Forest) (root : NodeId) : Prop :=
  ∃ scope d d' name, forest.Below scope root ∧ forest.FunctionIn scope d name ∧
    forest.FunctionIn scope d' name ∧
    (d ≠ d' ∧ forest.HasBody d ∧ forest.HasBody d' ∨
      ∃ result params result' params', forest.HasPrototype d result params ∧
        forest.HasPrototype d' result' params' ∧
        ¬(result.same result' ∧ Resolve.sameTypes params params'))

end Forest

/-- The functions of one name in one scope are one function: they are bound to one symbol, whose
signature has one label, and have the types of that. One of them may have a body, unless the function is
in the library already, and the function counts as defined just then. -/
structure Merged (parsed : Forest) (resolution : Resolution) (scope : NodeId) (name : String)
    (s : SymbolId) (signature : Signature) : Prop where
  signature_eq : (resolution.table.symbol s).signature? = some signature
  bound : ∀ f, parsed.FunctionIn scope f name → resolution.forest.kind f = .function name (some s)
  types : ∀ f, parsed.FunctionIn scope f name → ∃ result params, parsed.HasPrototype f result params ∧
    (resolution.table.symbol s).type.same result ∧ Resolve.sameTypes signature.params params
  one_body : ∀ f f', parsed.FunctionIn scope f name → parsed.FunctionIn scope f' name →
    parsed.HasBody f → parsed.HasBody f' → f = f'
  builtin : signature.builtin = true → parsed.IsRoutine scope name s ∧
    ∀ f, parsed.FunctionIn scope f name → ¬parsed.HasBody f
  defined : signature.defined = true ↔
    signature.builtin = true ∨ ∃ f, parsed.FunctionIn scope f name ∧ parsed.HasBody f

/-- The call is bound to a function that is defined and is given as many arguments as that has
parameters, or more if it takes more. -/
structure Answered (parsed : Forest) (resolution : Resolution) (u : NodeId) (name : String)
    (s : SymbolId) (signature : Signature) : Prop where
  bound : resolution.forest.kind u = .call name (some s)
  signature_eq : (resolution.table.symbol s).signature? = some signature
  defined : signature.defined = true
  count : if signature.variadic then signature.params.length ≤ (parsed.children u).length
    else (parsed.children u).length = signature.params.length

/-- Declarations of functions are merged, and calls are answered. -/
structure PrototypesMerged (parsed : Forest) (root : NodeId) (resolution : Resolution) : Prop where
  functions : ∀ scope name f, parsed.Below scope root → parsed.FunctionIn scope f name →
    ∃ s signature, Merged parsed resolution scope name s signature
  calls : ∀ u name symbol, parsed.Below u root → parsed.kind u = .call name symbol →
    ∃ s signature, Answered parsed resolution u name s signature

/-! ## Places of declarations -/

namespace Forest

/-- Everything in the file but the file itself is in some scope. -/
theorem Parsed.exists_enclosed (h : parsed.Parsed root) (hu : parsed.Below u root) :
    ∃ scopes, parsed.Enclosed u scopes ∧ (u ≠ root → ∃ scope outer, scopes = scope :: outer) := by
  refine Below.descend (P := fun u => ∃ scopes, parsed.Enclosed u scopes ∧
    (u ≠ root → ∃ scope outer, scopes = scope :: outer)) hu ?_ ?_
  · exact ⟨[], .top h.parent_root, fun hne => absurd rfl hne⟩
  · rintro p c - hc ⟨scopes, henclosed, hscopes⟩
    rcases henclosed.child hc with ⟨-, hinside⟩ | ⟨hopens, hthrough⟩
    · exact ⟨p :: scopes, hinside, fun _ => ⟨p, scopes, rfl⟩⟩
    · -- The file opens a scope, so this is not what is in it.
      have hne : p ≠ root := by
        rintro rfl
        exact hopens (by simp [Opens, h.kind_root])
      exact ⟨scopes, hthrough, fun _ => hscopes hne⟩

/-- A function is declared in some scope. -/
theorem Parsed.exists_functionIn (h : parsed.Parsed root) (hf : parsed.Below f root)
    (hfunction : (parsed.kind f).isFunction) : ∃ scope name, parsed.FunctionIn scope f name := by
  have hne : f ≠ root := by
    rintro rfl
    simp [h.kind_root, Kind.isFunction] at hfunction
  obtain ⟨scopes, henclosed, hscopes⟩ := h.exists_enclosed hf
  obtain ⟨scope, outer, rfl⟩ := hscopes hne
  obtain ⟨name, hdeclares⟩ := exists_declares_of_isFunction hfunction
  exact ⟨scope, name, ⟨hdeclares, outer, henclosed⟩, hfunction⟩

/-- A function is written with one result type and one list of parameter types. -/
theorem HasPrototype.unique {result result' : Ty} {params params' : List Ty}
    (h : parsed.HasPrototype f result params) (h' : parsed.HasPrototype f result' params') :
    result' = result ∧ params' = params := by
  have hwrites : ∀ {m type type'}, parsed.Writes m type → parsed.Writes m type' → type' = type := by
    rintro m type type' ⟨written, hwritten, htype⟩ ⟨written', hwritten', htype'⟩
    obtain rfl : written' = written := Option.some.inj (hwritten'.symm.trans hwritten)
    exact Option.some.inj (htype'.symm.trans htype)
  obtain ⟨list, hlist, hparams⟩ := h.params
  obtain ⟨list', hlist', hparams'⟩ := h'.params
  obtain rfl : list' = list := Option.some.inj (hlist'.symm.trans hlist)
  refine ⟨hwrites h.result h'.result, ?_⟩
  have hunique : Relator.RightUnique parsed.Writes := fun _ _ _ hleft hright => hwrites hright hleft
  exact hunique.forall₂ hparams' hparams

/-- A declaration is in one scope. -/
theorem DeclaredIn.scope_eq {scope' : NodeId} {name' : String} (hl : parsed.Linked)
    (h : parsed.DeclaredIn scope d name) (h' : parsed.DeclaredIn scope' d name') :
    scope = scope' := by
  obtain ⟨outer, henclosed⟩ := h.enclosed
  obtain ⟨outer', henclosed'⟩ := h'.enclosed
  exact (List.cons.inj (henclosed.unique hl henclosed')).1

/-- What a name means at a node is declared in one scope. -/
theorem Means.declaredIn (hl : parsed.Linked) (h : parsed.Means u name d)
    (h' : parsed.Means u name d') (hd : parsed.DeclaredIn scope d name) :
    parsed.DeclaredIn scope d' name := by
  obtain ⟨inner, own, outer, henclosed, hown, hsight, hinner⟩ := h
  obtain ⟨inner', own', outer', henclosed', hown', hsight', hinner'⟩ := h'
  obtain rfl := hown.scope_eq hl hd
  rcases List.append_eq_append_iff.mp (henclosed.unique hl henclosed') with
    ⟨between, rfl, hrest⟩ | ⟨between, rfl, hrest⟩
  · cases between with
    | nil => exact (List.cons.inj hrest).1 ▸ hown'
    | cons first between =>
      have hmem : own ∈ inner ++ first :: between := by simp [(List.cons.inj hrest).1]
      exact absurd hsight (hinner' own hmem d hown)
  · cases between with
    | nil => exact (List.cons.inj hrest).1 ▸ hown'
    | cons first between =>
      have hmem : own' ∈ inner' ++ first :: between := by simp [(List.cons.inj hrest).1]
      exact absurd hsight' (hinner own' hmem d' hown')

theorem Parsed.whole (h : parsed.Parsed root) : parsed.Whole root where
  linked := h.raw.linked
  ranked := h.raw.ranked
  shaped := h.raw.shaped
  root_eq := h.root_eq
  kind_root := h.kind_root
  parent_root := h.parent_root

/-- What a name means in the file is declared in a scope of the file. -/
theorem Parsed.below_of_means (h : parsed.Parsed root) (hu : parsed.Below u root)
    (hmeans : parsed.Means u name d) (hd : parsed.DeclaredIn scope d name) :
    parsed.Below scope root := by
  obtain ⟨inner, own, outer, henclosed, hown, -⟩ := hmeans
  obtain rfl := hown.scope_eq h.raw.linked hd
  exact h.whole.below_root hu (henclosed.below_of_mem own (by simp)).1

end Forest

/-! ## Functions of a resolved program -/

namespace Resolved

variable (hparsed : parsed.Parsed root) (h : Resolved parsed root resolution)
  (hm : Resolve.Moment parsed resolution [] fun d => parsed.Below d root)

include hparsed h hm

omit hparsed h in
/-- A function keeps its body. -/
theorem hasBody_iff (hf : f < parsed.size) :
    parsed.HasBody f ↔ 2 < (resolution.forest.children f).length := by
  rw [HasBody, ← hm.grown.isSome_child? hf, child?]
  simp

omit hparsed h in
/-- What is bound to the symbol is of kind function. -/
theorem kind_of_functionIn (hf : parsed.FunctionIn scope f name)
    (hs : resolution.forest.symbol? f = some s) :
    resolution.forest.kind f = .function name (some s) := by
  have hlt := hf.declared.declares.lt_size
  have hplain := hm.grown.plain f hlt
  have hfunction := hf.isFunction
  cases hf.declared.declares with
  | function hk =>
    rw [hk] at hplain
    rw [symbol?] at hs
    cases hk' : resolution.forest.kind f <;> simp_all [Kind.plain, Kind.symbol?]
  | declaration hk | parameter hk => simp [hk, Kind.isFunction] at hfunction

omit h in
/-- The functions of a name in a scope have a symbol in common. -/
theorem symbol_of_functionIn (hscope : parsed.Below scope root) (hd : parsed.FunctionIn scope d name)
    (hs : resolution.forest.symbol? d = some s) (hf : parsed.FunctionIn scope f name) :
    resolution.forest.symbol? f = some s := by
  have hbelow := (hf.declared.below hparsed.raw.ranked).1.trans hscope
  obtain ⟨s', hs'⟩ := exists_symbol hm hf.declared.declares hbelow
  obtain rfl := hm.shared scope d f name s s' hd.declared hf.declared hs hs'
  exact hs'

/-- A function that is defined by a body has that in its own scope. -/
theorem exists_body {signature : Signature} (hscope : parsed.Below scope root)
    (hd : parsed.FunctionIn scope d name)
    (hs : resolution.forest.symbol? d = some s)
    (hsignature : (resolution.table.symbol s).signature? = some signature)
    (hdefined : signature.defined = true) (hbuiltin : signature.builtin = false) :
    ∃ f, parsed.FunctionIn scope f name ∧ parsed.HasBody f := by
  have hrule := h.declared.function s (SymbolTable.lt_size_of_signature hsignature) signature hsignature
  rcases hrule.origin with ⟨hbuiltin', -⟩ | ⟨-, -, -, hbody⟩
  · rw [hbuiltin] at hbuiltin'
    cases hbuiltin'
  · obtain ⟨f, hrole, hsymbol, hlength⟩ := hbody hdefined
    have hlt : f < parsed.size := by
      refine h.lt_parsed ?_ (by simp [hrole])
      by_contra hle
      rw [kind, node_of_size_le (Nat.le_of_not_lt hle)] at hsymbol
      cases hsymbol
    have hfunction : (parsed.kind f).isFunction := by
      rw [hm.grown.role_eq hlt] at hrole
      exact Kind.isFunction_of_role_function hrole
    obtain ⟨name', hdeclares⟩ := exists_declares_of_isFunction hfunction
    have hbelow : parsed.Below f root :=
      (hm.bound f name' hdeclares).mp (by rw [symbol?, hsymbol]; rfl)
    obtain ⟨scope', name'', hf⟩ := hparsed.exists_functionIn hbelow hfunction
    obtain ⟨rfl, hscope'⟩ := hm.apart.together scope scope' d f name name'' s hd.declared hf.declared
      hs hsymbol
    have heq : scope' = scope := by
      rcases hscope' with rfl | ⟨hfile, hfile'⟩
      · rfl
      · -- There is one file, which is the root.
        have hbelow' := (hf.declared.below hparsed.raw.ranked).1
        rw [hparsed.eq_root_of_file hscope .refl hfile,
          hparsed.eq_root_of_file hbelow hbelow' hfile']
    exact ⟨f, heq ▸ hf, (hasBody_iff hm hlt).mpr hlength⟩

omit hparsed h in
/-- A function that is built in is the routine that its scope has under its name. -/
theorem isRoutine_of_builtin {signature : Signature} (hd : parsed.FunctionIn scope d name)
    (hs : resolution.forest.symbol? d = some s)
    (hsignature : (resolution.table.symbol s).signature? = some signature)
    (hbuiltin : signature.builtin = true) : parsed.IsRoutine scope name s := by
  obtain ⟨routine, hroutine⟩ := hm.genuine s signature hsignature hbuiltin
  obtain ⟨hfile, hname⟩ := hm.apart.routine scope d name s routine hd.declared hs hroutine
  exact ⟨hfile, routine, hroutine, hname⟩

/-- The functions of a name in a scope are merged. -/
theorem merged (hscope : parsed.Below scope root) (hd : parsed.FunctionIn scope d name) :
    ∃ s signature, Merged parsed resolution scope name s signature := by
  have hbelow : ∀ {f}, parsed.FunctionIn scope f name → parsed.Below f root := fun hf =>
    (hf.declared.below hparsed.raw.ranked).1.trans hscope
  obtain ⟨s, hs⟩ := exists_symbol hm hd.declared.declares (hbelow hd)
  have hsymbol := fun {f} => symbol_of_functionIn (f := f) hparsed hm hscope hd hs
  -- What each of the functions knows about the signature.
  have hknown : ∀ f, parsed.FunctionIn scope f name → ∃ signature,
      (resolution.table.symbol s).signature? = some signature ∧
        (parsed.HasBody f → signature.builtin = false ∧ signature.defined = true) := by
    intro f hf
    have hlt := hf.declared.declares.lt_size
    have hrole : resolution.forest.role f = .function := by
      rw [role, kind_of_functionIn hm hf (hsymbol hf)]
      rfl
    obtain ⟨-, signature, hsignature, hbody⟩ := h.declared.bound_function f s hrole (hsymbol hf)
    exact ⟨signature, hsignature, fun hhas => hbody ((hasBody_iff hm hlt).mp hhas)⟩
  obtain ⟨signature, hsignature, -⟩ := hknown d hd
  have hbodies : ∀ f, parsed.FunctionIn scope f name → parsed.HasBody f →
      signature.builtin = false ∧ signature.defined = true := by
    intro f hf hbody
    obtain ⟨signature', hsignature', hbody'⟩ := hknown f hf
    obtain rfl : signature' = signature := Option.some.inj (hsignature'.symm.trans hsignature)
    exact hbody' hbody
  refine ⟨s, signature, hsignature, fun f hf => kind_of_functionIn hm hf (hsymbol hf), ?_, ?_, ?_, ?_⟩
  · intro f hf
    obtain ⟨own, result, params, hown, hprototype, hresult, hparams⟩ :=
      hm.signed f s hf.isFunction (hsymbol hf)
    obtain rfl : own = signature := Option.some.inj (hown.symm.trans hsignature)
    exact ⟨result, params, hprototype, hresult, hparams⟩
  · intro f f' hf hf' hbody hbody'
    by_contra hne
    exact (h.sameFunction hparsed hm hscope hf.declared hf'.declared hne).one_body ⟨hbody, hbody'⟩
  · intro hbuiltin
    refine ⟨isRoutine_of_builtin hm hd hs hsignature hbuiltin, fun f hf hbody => ?_⟩
    rw [(hbodies f hf hbody).1] at hbuiltin
    cases hbuiltin
  · constructor
    · intro hdefined
      cases hbuiltin : signature.builtin with
      | true => exact .inl rfl
      | false => exact .inr (h.exists_body hparsed hm hscope hd hs hsignature hdefined hbuiltin)
    · rintro (hbuiltin | ⟨f, hf, hbody⟩)
      · have hrule := h.declared.function s (SymbolTable.lt_size_of_signature hsignature) signature
          hsignature
        rcases hrule.origin with ⟨-, -, hdefined, -⟩ | ⟨hbuiltin', -⟩
        · exact hdefined
        · rw [hbuiltin] at hbuiltin'
          cases hbuiltin'
      · exact (hbodies f hf hbody).2

/-- A call is answered. -/
theorem answered {symbol : Option SymbolId} (hu : parsed.Below u root)
    (hkind : parsed.kind u = .call name symbol) :
    ∃ s signature, Answered parsed resolution u name s signature := by
  have hlt := hu.lt_size hparsed.raw.linked hparsed.lt_size
  obtain ⟨s, hfound, -⟩ := h.call_means hparsed hm hu hkind
  obtain ⟨type, hrule⟩ := h.expressionRule hparsed hm hu (by rw [role, hkind]; rfl)
  rw [ExpressionRule, hfound] at hrule
  obtain ⟨_, signature, heq, -, hsignature, -, hfits, -⟩ := hrule
  obtain rfl := Option.some.inj heq
  refine ⟨s, signature, hfound, hsignature, h.called u name s hfound signature hsignature, ?_⟩
  rw [(hm.grown.children u hlt).length_eq] at hfits
  unfold Resolve.fits at hfits
  split
  · next hvariadic => simpa [hvariadic] using hfits
  · next hvariadic => simpa [hvariadic] using hfits

theorem prototypesMerged : PrototypesMerged parsed root resolution where
  functions _ _ _ hscope hf := h.merged hparsed hm hscope hf
  calls _ _ _ hu hkind := h.answered hparsed hm hu hkind

/-- The function that a call means has a body in its scope, or is in the library. -/
theorem not_unanswered : ¬parsed.Unanswered root := by
  rintro ⟨u, name, symbol, scope, d, hu, hkind, hmeans, hd, hbodies, hroutine⟩
  obtain ⟨s, hfound, -, ⟨d', hmeans', hfunction, hs⟩ | ⟨hsees, -⟩⟩ := h.call_means hparsed hm hu hkind
  · have hd' : parsed.FunctionIn scope d' name :=
      ⟨hmeans.declaredIn hparsed.raw.linked hmeans' hd.declared, hfunction⟩
    have hscope := hparsed.below_of_means hu hmeans' hd'.declared
    obtain ⟨s', signature, hbound, hsignature, hdefined, -⟩ := h.answered hparsed hm hu hkind
    obtain rfl : s' = s := by
      rw [hfound, Kind.call.injEq, Option.some.injEq] at hbound
      exact hbound.2.symm
    cases hbuiltin : signature.builtin with
    | true => exact hroutine s' (isRoutine_of_builtin hm hd' hs hsignature hbuiltin)
    | false =>
      obtain ⟨f, hf, hbody⟩ := h.exists_body hparsed hm hscope hd' hs hsignature hdefined hbuiltin
      exact hbodies f hf hbody
  · exact hsees hmeans.sees

/-- Declarations of a function agree. -/
theorem not_discordant : ¬parsed.Discordant root := by
  rintro ⟨scope, d, d', name, hscope, hd, hd', hwrong⟩
  obtain ⟨s, signature, hmerged⟩ := h.merged hparsed hm hscope hd
  rcases hwrong with
    ⟨hne, hbody, hbody'⟩ | ⟨result, params, result', params', hown, hown', hdiffer⟩
  · exact hne (hmerged.one_body d d' hd hd' hbody hbody')
  · apply hdiffer
    obtain ⟨_, _, hprototype, hresult, hparams⟩ := hmerged.types d hd
    obtain ⟨_, _, hprototype', hresult', hparams'⟩ := hmerged.types d' hd'
    obtain ⟨rfl, rfl⟩ := hprototype.unique hown
    obtain ⟨rfl, rfl⟩ := hprototype'.unique hown'
    rw [Resolve.sameTypes_iff] at hparams hparams'
    exact ⟨Ty.same_trans (Ty.same_comm .. ▸ hresult) hresult',
      Resolve.sameTypes_iff.mpr (hparams.symm.trans hparams')⟩

end Resolved

/-- In a resolved program all declarations of a function in a scope have one symbol, which has their
types and is defined if the function is in the library or if one of them, and no more than one, has a
body; every call is of a defined function and has as many arguments as that takes. A program with a call
of a function that gets no body in its scope is refused, wherever the call is, and so is one with two
bodies or with different types for a function. -/
theorem prototypes_and_definitions_merge {source : String} (session : Session)
    (hread : Grammar.read source = .ok parsed) :
    ∃ root, parsed.root = some root ∧
      (∀ resolution, Resolve.program parsed session = .ok resolution →
        PrototypesMerged parsed root resolution) ∧
      (parsed.Unanswered root ∨ parsed.Discordant root →
        ∃ fault, Resolve.program parsed session = .error fault ∧ fault.Ordinary) := by
  rcases Grammar.read_cases source with ⟨parsed', root, hread', hparsed⟩ | ⟨fault, hread', -⟩
  · obtain rfl : parsed' = parsed := Except.ok.inj (hread'.symm.trans hread)
    refine ⟨root, hparsed.root_eq, ?_⟩
    rcases Resolve.program_cases hparsed session with
      ⟨resolution, hresolve, h, -⟩ | ⟨fault, hresolve, hfault⟩
    · have hm := Resolve.moment_of_program hparsed hresolve
      constructor
      · intro resolution' hresolve'
        obtain rfl : resolution = resolution' := Except.ok.inj (hresolve.symm.trans hresolve')
        exact h.prototypesMerged hparsed hm
      · rintro (hunanswered | hdiscordant)
        · exact absurd hunanswered (h.not_unanswered hparsed hm)
        · exact absurd hdiscordant (h.not_discordant hparsed hm)
    · constructor
      · intro resolution' hresolve'
        cases hresolve.symm.trans hresolve'
      · intro _
        exact ⟨fault, hresolve, hfault⟩
  · cases hread'.symm.trans hread

/-- A program in which a function is called before it gets its body, by itself and by a function inside
of another, and in which a function of its name is declared further in. -/
def callingAhead : String :=
  "int f(int n); int mod(int a, int b); " ++
  "void main() \x7b int g() \x7b return f(1); \x7d mod(g(), 2); \x7d " ++
  "int f(const int n) \x7b int f(int n, int m) \x7b return n; \x7d " ++
  "if (n) return f(n, 1); return 0; \x7d int h(int n) \x7b return h(f(n)); \x7d"

theorem prototypes_and_definitions_merge_callingAhead :
    ∃ parsed resolution root, Grammar.read callingAhead = .ok parsed ∧
      Resolve.program parsed {} = .ok resolution ∧ parsed.root = some root ∧
      PrototypesMerged parsed root resolution := by
  have hrun : ((Grammar.read callingAhead).bind (Resolve.program · {})).isOk := by decide +kernel
  cases hread : Grammar.read callingAhead with
  | error fault => simp [hread, Except.bind, Except.isOk, Except.toBool] at hrun
  | ok parsed =>
    cases hresolve : Resolve.program parsed {} with
    | error fault => simp [hread, hresolve, Except.bind, Except.isOk, Except.toBool] at hrun
    | ok resolution =>
      obtain ⟨root, hroot, h, -⟩ := prototypes_and_definitions_merge {} hread
      exact ⟨parsed, resolution, root, rfl, hresolve, hroot, h resolution hresolve⟩

end MiniC
