import MiniC.Proofs.Ensures
import MiniC.Proofs.Resolve.Rules

/-!
# Consistent resolutions

What is true of a resolution at every moment, however far it has got: typed expressions are judged,
symbols and the nodes that they are bound to agree, labels are drawn once, and functions that are
called without having a body are pending. Each kind of change to a resolution keeps it consistent.
-/

namespace MiniC

open Forest

variable {parsed forest other : Forest} {table : SymbolTable} {n p id : NodeId}

/-- The labels that a node has for itself. -/
def Kind.ownLabels : Kind → List Machine.Label
  | ifElse (some labels) => [labels.otherwise, labels.finish]
  | whileLoop (some labels) => [labels.start, labels.finish]
  | forLoop (some labels) => [labels.start, labels.next, labels.finish]
  | _ => []

/-- Every typed expression is judged. -/
def Typed (parsed : Forest) (table : SymbolTable) (forest : Forest) : Prop :=
  ∀ id type, forest.role id = .expression → forest.type? id = some type →
    Judged parsed table forest id type

/-- The labels of nodes are jump targets that have been drawn, each for one place. -/
structure Labelled (forest : Forest) (drawn : Nat) : Prop where
  drawn : ∀ id, ∀ label ∈ (forest.kind id).ownLabels, ∃ number < drawn, label = .jump number
  nodup : ∀ id, (forest.kind id).ownLabels.Nodup
  apart : ∀ id id' label, label ∈ (forest.kind id).ownLabels →
    label ∈ (forest.kind id').ownLabels → id = id'

/-- A parameter belongs to a function with a body. -/
def Forest.OfBody (parsed : Forest) (d : NodeId) : Prop :=
  parsed.role d = .parameter →
    ∃ f, parsed.owningFunction d = some f ∧ 2 < (parsed.children f).length

/-- The symbol of a variable and the node that declares it. -/
structure VariableRule (parsed forest : Forest) (id : SymbolId) (symbol : Symbol) (d : NodeId) :
    Prop where
  lt_size : d < parsed.size
  role : forest.role d = .declaration ∨ forest.role d = .parameter ∧ symbol.type.Flat
  symbol_eq : (forest.kind d).symbol? = some id
  type_eq : forest.type? d = some symbol.type
  frame : symbol.frame = parsed.owningFunction d
  type : symbol.type.OfVariable
  body : parsed.OfBody d

/-- The symbol of a function: a routine of the library, or a function of the program whose label has
been drawn and which has a body if it is said to have one. -/
structure FunctionRule (forest : Forest) (drawn : Nat) (id : SymbolId) (symbol : Symbol)
    (signature : Signature) : Prop where
  result : symbol.type.Flat
  params : ∀ param ∈ signature.params, param.Flat ∧ param.isVoid = false
  origin :
    signature.builtin = true ∧ symbol.frame = none ∧ signature.defined = true ∧
        (∃ routine ∈ Machine.Routine.catalog, symbol.name = routine.name ∧
          signature.label = .named routine.name ∧ symbol.type = routine.result ∧
          signature.params = routine.params ∧ signature.variadic = routine.variadic) ∨
      signature.builtin = false ∧ signature.variadic = false ∧
        (∃ number < drawn, signature.label = .function symbol.name number) ∧
        (signature.defined = true → ∃ f, forest.role f = .function ∧
          (forest.kind f).symbol? = some id ∧ 2 < (forest.children f).length)

/-- Symbols and the nodes that are bound to them agree. -/
structure Declared (parsed forest : Forest) (table : SymbolTable) (drawn : Nat) : Prop where
  variableAt : ∀ id, id < table.size → ∀ d, (table.symbol id).kind = .variableAt d →
    VariableRule parsed forest id (table.symbol id) d
  function : ∀ id, id < table.size → ∀ signature, (table.symbol id).signature? = some signature →
    FunctionRule forest drawn id (table.symbol id) signature
  bound_variable : ∀ d id, forest.role d = .declaration ∨ forest.role d = .parameter →
    (forest.kind d).symbol? = some id → id < table.size ∧ (table.symbol id).kind = .variableAt d
  bound_function : ∀ f id, forest.role f = .function → (forest.kind f).symbol? = some id →
    id < table.size ∧ ∃ signature, (table.symbol id).signature? = some signature ∧
      (2 < (forest.children f).length → signature.builtin = false ∧ signature.defined = true)
  bound_frame : ∀ f id, forest.role f = .function → (forest.kind f).symbol? = some id →
    (table.symbol id).frame = parsed.owningFunction f
  body_unique : ∀ f f' id, forest.role f = .function → forest.role f' = .function →
    (forest.kind f).symbol? = some id → (forest.kind f').symbol? = some id →
    2 < (forest.children f).length → 2 < (forest.children f').length → f = f'
  label_unique : ∀ id id' signature signature' name name' number, id < table.size →
    id' < table.size → (table.symbol id).signature? = some signature →
    (table.symbol id').signature? = some signature' →
    signature.label = .function name number → signature'.label = .function name' number → id = id'

/-- A called function has a body, or is pending. -/
def Called (forest : Forest) (table : SymbolTable) (pending : List (SymbolId × Nat)) : Prop :=
  ∀ id name symbol, forest.kind id = .call name (some symbol) →
    (table.symbol symbol).signature?.any (·.defined) ∨ ∃ line, (symbol, line) ∈ pending

/-- What is true of a resolution at every moment. -/
structure Consistent (parsed : Forest) (state : Resolution) : Prop where
  grown : Grown parsed state.forest
  typed : Typed parsed state.table state.forest
  labelled : Labelled state.forest state.session.drawn
  declared : Declared parsed state.forest state.table state.session.drawn
  called : Called state.forest state.table state.pending

/-! ## Changes that keep a resolution consistent -/

theorem Forest.Grown.role_of_mem (h : Grown parsed forest) (hraw : parsed.Raw) {c : Nat}
    (hrole : forest.role id = .expression) (hc : c ∈ forest.children id) :
    forest.role c = .expression :=
  Kind.eq_expression_of_holds hrole (h.shaped hraw id) (List.mem_map_of_mem hc)

/-- What is below a typed expression is one. -/
theorem Typed.of_below (h : Typed parsed table forest) (hg : Grown parsed forest) (hraw : parsed.Raw)
    {m : NodeId} (hrole : forest.role id = .expression) (htype : forest.type? id ≠ none)
    (hm : forest.Below m id) : forest.role m = .expression ∧ forest.type? m ≠ none := by
  refine hm.descend (P := fun m => forest.role m = .expression ∧ forest.type? m ≠ none)
    ⟨hrole, htype⟩ fun p c _ hc ih => ?_
  obtain ⟨hparent, htyped⟩ := ih
  obtain ⟨type, hfound⟩ := Option.ne_none_iff_exists'.mp htyped
  exact ⟨hg.role_of_mem hraw hparent hc, (h p type hparent hfound).typed c hc⟩

/-- A note on what is no typed expression does not matter to those that are. -/
theorem Forest.Noted.retains (hn : Noted forest other n)
    (hnew : forest.role n = .expression → forest.type? n = none) : forest.Retains other := by
  intro m hrole htype
  refine .of_node (hn.node_eq m ?_)
  rintro rfl
  exact htype (hnew hrole)

theorem Typed.noted (h : Typed parsed table forest) (hg : Grown parsed forest) (hraw : parsed.Raw)
    (hn : Noted forest other n) (hnew : forest.role n = .expression → forest.type? n = none ∧
      ∀ type, other.type? n = some type → Judged parsed table other n type) :
    Typed parsed table other := by
  intro id type hrole htype
  rw [hn.role] at hrole
  by_cases hid : id = n
  · subst hid
    exact (hnew hrole).2 type htype
  · rw [hn.type_eq hid] at htype
    have hjudged := h id type hrole htype
    have ha := Agrees.of_node (hn.node_eq id hid)
    refine hjudged.mono ha.kind_eq ha.children_eq ha.function_eq (fun c hc m hm => ?_) .refl
    obtain ⟨hrole', htype'⟩ :=
      h.of_below hg hraw (hg.role_of_mem hraw hrole hc) (hjudged.typed c hc) hm
    exact hn.retains (fun he => (hnew he).1) m hrole' htype'

theorem Typed.spliced {change : Conversion} (h : Typed parsed table forest)
    (hg : Grown parsed forest) (hraw : parsed.Raw) (hs : Spliced forest other id p change)
    (hparent : forest.parent id = some p)
    (hp : forest.role p = .expression → forest.type? p = none)
    (htype : forest.type? id = some change.source) (htarget : change.target.Shallow)
    (hsame : change.source.same change.target = false)
    (hconversion : change.source.conversion? change.target = some change.coercion) :
    Typed parsed table other := by
  have hmem := hg.linked.mem_of_parent hparent
  have hidlt : id < forest.size := hg.linked.lt_size hmem
  have hagrees : ∀ m : Nat, m < forest.size → m ≠ p → Forest.Agrees forest other m := by
    intro m hm hmp
    by_cases hmid : m = id
    · subst hmid
      refine ⟨?_, ?_, ?_, ?_, ?_⟩ <;> simp only [kind, children, type?, hs.node_inner]
    · exact .of_node (hs.node_other m (Nat.ne_of_lt hm) hmid hmp)
  have hidp : id ≠ p := hg.ranked.ne_of_mem hmem
  intro m type hrole hfound
  by_cases hm : m = forest.size
  · subst hm
    have hid := hagrees id hidlt hidp
    rw [hs.type_new, Option.some.injEq] at hfound
    subst hfound
    have hkind : other.kind forest.size = .conversion change := by rw [kind, hs.node_new]
    refine ⟨htarget, ?_, ?_, ?_, by rw [OperandsRule, hkind]; trivial⟩
    · intro c hc
      rw [hs.children_new, List.mem_singleton] at hc
      rw [hc, hid.type_eq, htype]
      exact Option.some_ne_none _
    · intro c hc
      rw [hs.children_new, List.mem_singleton] at hc
      rw [hc, hid.function_eq, hs.node_new]
    · rw [ExpressionRule, hkind]
      exact ⟨id, hs.children_new, hid.type_eq.trans htype, rfl, hsame, hconversion⟩
  · have hlt : m < forest.size := by
      have hlt : m < other.size := lt_size_of_type (by rw [hfound]; exact Option.some_ne_none _)
      rw [hs.size_eq] at hlt
      exact Nat.lt_of_le_of_ne (Nat.le_of_lt_succ hlt) hm
    have hmp : m ≠ p := by
      rintro rfl
      have hkind : other.kind m = forest.kind m := by
        rw [kind, hs.node_outer]
        rfl
      rw [role, hkind] at hrole
      rw [type?, hs.node_outer] at hfound
      exact absurd hfound (by rw [show (forest.node m).type = none from hp hrole]; simp)
    have ha := hagrees m hlt hmp
    rw [role, ha.kind_eq] at hrole
    rw [ha.type_eq] at hfound
    have hjudged := h m type hrole hfound
    refine hjudged.mono ha.kind_eq ha.children_eq ha.function_eq (fun c hc m hm => ?_) .refl
    obtain ⟨hrole', htype'⟩ :=
      h.of_below hg hraw (hg.role_of_mem hraw hrole hc) (hjudged.typed c hc) hm
    refine hagrees m (lt_size_of_type htype') ?_
    rintro rfl
    exact htype' (hp hrole')

theorem Typed.grew {table' : SymbolTable} (h : Typed parsed table forest) (hg : table.Grew table') :
    Typed parsed table' forest := fun id type hrole htype =>
  (h id type hrole htype).mono rfl rfl rfl (fun _ _ _ _ => .of_node rfl) hg

/-- Functions stay defined. -/
theorem Called.grew {table' : SymbolTable} {pending : List (SymbolId × Nat)}
    (h : Called forest table pending) (hg : table.Grew table') : Called forest table' pending := by
  intro id name symbol hkind
  refine (h id name symbol hkind).imp_left fun hdefined => ?_
  obtain ⟨signature, hsignature, hdefined⟩ := (Option.any_eq_true ..).mp hdefined
  obtain ⟨defined, hsignature', hstill⟩ :=
    hg.signature_eq (SymbolTable.lt_size_of_signature hsignature) hsignature
  rw [hsignature']
  exact hstill hdefined

/-- Between two forests, kinds and roles of declared things and what is found out about them are the
same. -/
structure SameDeclarations (forest other : Forest) : Prop where
  role : ∀ m, other.role m = forest.role m ∨
    forest.role m = .absent ∧ other.role m = .expression
  symbol : ∀ m, forest.role m ≠ .expression → other.role m ≠ .expression →
    (other.kind m).symbol? = (forest.kind m).symbol?
  type : ∀ m, forest.role m ≠ .expression → (forest.kind m).symbol? ≠ none →
    other.type? m = forest.type? m
  length : ∀ m, forest.role m ≠ .expression → other.role m ≠ .expression →
    (other.children m).length = (forest.children m).length

/-- A role that neither an expression nor an unused node has is found where it was. -/
theorem SameDeclarations.role_iff (h : SameDeclarations forest other) {m : NodeId} (role : Role)
    (hexpression : role ≠ .expression) (habsent : role ≠ .absent) :
    other.role m = role ↔ forest.role m = role := by
  rcases h.role m with heq | ⟨hold, hnew⟩
  · rw [heq]
  · rw [hold, hnew]
    exact ⟨fun he => absurd he.symm hexpression, fun he => absurd he.symm habsent⟩

theorem Labelled.of_same {drawn drawn' : Nat} (h : Labelled forest drawn)
    (hlabels : ∀ m, (other.kind m).ownLabels = (forest.kind m).ownLabels) (hdrawn : drawn ≤ drawn') :
    Labelled other drawn' := by
  refine ⟨fun m label hlabel => ?_, fun m => ?_, fun m m' label hm hm' => ?_⟩
  · rw [hlabels] at hlabel
    obtain ⟨number, hlt, heq⟩ := h.drawn m label hlabel
    exact ⟨number, Nat.lt_of_lt_of_le hlt hdrawn, heq⟩
  · rw [hlabels]
    exact h.nodup m
  · rw [hlabels] at hm hm'
    exact h.apart m m' label hm hm'

/-- A node that is declared keeps its symbol and the number of its children. -/
theorem SameDeclarations.kept (h : SameDeclarations forest other) {m : NodeId} {role : Role}
    (hrole : forest.role m = role) (hexpression : role ≠ .expression) (habsent : role ≠ .absent) :
    (other.kind m).symbol? = (forest.kind m).symbol? ∧
      (other.children m).length = (forest.children m).length := by
  have hother := (h.role_iff role hexpression habsent).mpr hrole
  rw [← hrole] at hexpression
  rw [hrole, ← hother] at hexpression
  exact ⟨h.symbol m (hrole ▸ hother ▸ hexpression) hexpression,
    h.length m (hrole ▸ hother ▸ hexpression) hexpression⟩

theorem FunctionRule.of_same {drawn drawn' : Nat} {symbol : Symbol} {signature : Signature}
    {s : SymbolId} (h : FunctionRule forest drawn s symbol signature)
    (hs : SameDeclarations forest other) (hdrawn : drawn ≤ drawn') :
    FunctionRule other drawn' s symbol signature := by
  refine ⟨h.result, h.params, h.origin.imp_right ?_⟩
  rintro ⟨hbuiltin, hvariadic, ⟨number, hnumber, hlabel⟩, hbody⟩
  refine ⟨hbuiltin, hvariadic, ⟨number, Nat.lt_of_lt_of_le hnumber hdrawn, hlabel⟩, fun hdefined => ?_⟩
  obtain ⟨f, hrole, hsymbol, hlength⟩ := hbody hdefined
  obtain ⟨hsame, hcount⟩ := hs.kept hrole (by simp) (by simp)
  exact ⟨f, (hs.role_iff .function (by simp) (by simp)).mpr hrole, hsame.trans hsymbol, hcount ▸ hlength⟩

/-- Nothing about declarations changes if the declared nodes keep what has been found out. -/
theorem Declared.of_same {drawn drawn' : Nat} (h : Declared parsed forest table drawn)
    (hs : SameDeclarations forest other) (hdrawn : drawn ≤ drawn') :
    Declared parsed other table drawn' := by
  refine ⟨?_, ?_, ?_, ?_, ?_, ?_, h.label_unique⟩
  · intro id hid d hkind
    have hrule := h.variableAt id hid d hkind
    have hrole : (forest.role d = .declaration ∨ forest.role d = .parameter) ∧
        (other.kind d).symbol? = (forest.kind d).symbol? := by
      rcases hrule.role with hrole | ⟨hrole, -⟩
      · exact ⟨.inl hrole, (hs.kept hrole (by simp) (by simp)).1⟩
      · exact ⟨.inr hrole, (hs.kept hrole (by simp) (by simp)).1⟩
    refine ⟨hrule.lt_size, ?_, hrole.2.trans hrule.symbol_eq, ?_, hrule.frame, hrule.type, hrule.body⟩
    · exact hrule.role.imp (hs.role_iff .declaration (by simp) (by simp)).mpr
        (And.imp_left (hs.role_iff .parameter (by simp) (by simp)).mpr)
    · refine (hs.type d ?_ ?_).trans hrule.type_eq
      · rcases hrole.1 with hrole | hrole <;> simp [hrole]
      · rw [hrule.symbol_eq]
        exact Option.some_ne_none _
  · intro id hid signature hsignature
    exact (h.function id hid signature hsignature).of_same hs hdrawn
  · intro d id hrole hsymbol
    rw [hs.role_iff .declaration (by simp) (by simp), hs.role_iff .parameter (by simp) (by simp)] at hrole
    refine h.bound_variable d id hrole ?_
    rcases hrole with hrole | hrole
    · exact (hs.kept hrole (by simp) (by simp)).1 ▸ hsymbol
    · exact (hs.kept hrole (by simp) (by simp)).1 ▸ hsymbol
  · intro f id hrole hsymbol
    rw [hs.role_iff .function (by simp) (by simp)] at hrole
    obtain ⟨hsame, hcount⟩ := hs.kept hrole (by simp) (by simp)
    rw [hcount]
    exact h.bound_function f id hrole (hsame ▸ hsymbol)
  · intro f id hrole hsymbol
    rw [hs.role_iff .function (by simp) (by simp)] at hrole
    exact h.bound_frame f id hrole ((hs.kept hrole (by simp) (by simp)).1 ▸ hsymbol)
  · intro f f' id hrole hrole' hsymbol hsymbol' hlength hlength'
    rw [hs.role_iff .function (by simp) (by simp)] at hrole hrole'
    obtain ⟨hsame, hcount⟩ := hs.kept hrole (by simp) (by simp)
    obtain ⟨hsame', hcount'⟩ := hs.kept hrole' (by simp) (by simp)
    exact h.body_unique f f' id hrole hrole' (hsame ▸ hsymbol) (hsame' ▸ hsymbol')
      (hcount ▸ hlength) (hcount' ▸ hlength')

theorem SameDeclarations.of_noted (hn : Noted forest other n)
    (hsymbol : forest.role n ≠ .expression → (other.kind n).symbol? = (forest.kind n).symbol? ∧
      ((forest.kind n).symbol? ≠ none → other.type? n = forest.type? n)) :
    SameDeclarations forest other := by
  refine ⟨fun m => .inl (hn.role m), ?_, ?_, fun m _ _ => by rw [hn.children]⟩
  · intro m hrole _
    by_cases hm : m = n
    · exact hm ▸ (hsymbol (hm ▸ hrole)).1
    · rw [hn.kind_eq hm]
  · intro m hrole hbound
    by_cases hm : m = n
    · subst hm
      exact (hsymbol hrole).2 hbound
    · rw [hn.type_eq hm]

theorem SameDeclarations.of_spliced {change : Conversion} (hg : Grown parsed forest)
    (hs : Spliced forest other id p change) (hparent : forest.parent id = some p) :
    SameDeclarations forest other ∧
      ∀ m, (other.kind m).ownLabels = (forest.kind m).ownLabels ∧
        ∀ name s, other.kind m = .call name (some s) → forest.kind m = .call name (some s) := by
  have hmem := hg.linked.mem_of_parent hparent
  have hidp : id ≠ p := hg.ranked.ne_of_mem hmem
  have hnew : other.kind forest.size = .conversion change := by rw [kind, hs.node_new]
  have hold : forest.kind forest.size = .nothing := by
    rw [kind, node_of_size_le (Nat.le_refl _)]
    rfl
  have hrest : ∀ m, m ≠ forest.size → other.kind m = forest.kind m ∧
      other.type? m = forest.type? m ∧ (other.children m).length = (forest.children m).length := by
    intro m hm
    have hlength : (other.children m).length = (forest.children m).length := by
      by_cases hmp : m = p
      · rw [hmp, hs.children_outer, List.length_map]
      · rw [hs.children_other hmp hm]
    rw [kind, type?, hs.node_kept hm]
    exact ⟨rfl, rfl, hlength⟩
  refine ⟨⟨?_, ?_, ?_, ?_⟩, ?_⟩
  · intro m
    by_cases hm : m = forest.size
    · subst hm
      exact .inr ⟨by rw [Forest.role, hold]; rfl, by rw [Forest.role, hnew]; rfl⟩
    · exact .inl (by rw [Forest.role, (hrest m hm).1, Forest.role])
  · intro m _ hrole
    by_cases hm : m = forest.size
    · subst hm
      exact absurd (by rw [Forest.role, hnew]; rfl) hrole
    · rw [(hrest m hm).1]
  · intro m _ hbound
    by_cases hm : m = forest.size
    · subst hm
      exact absurd (by rw [hold]; rfl) hbound
    · exact (hrest m hm).2.1
  · intro m _ hrole
    by_cases hm : m = forest.size
    · subst hm
      exact absurd (by rw [Forest.role, hnew]; rfl) hrole
    · exact (hrest m hm).2.2
  · intro m
    by_cases hm : m = forest.size
    · subst hm
      rw [hnew, hold]
      exact ⟨rfl, (by simp)⟩
    · rw [(hrest m hm).1]
      exact ⟨rfl, fun _ _ h => h⟩

namespace Consistent

variable {state : Resolution}

/-- A note on one node keeps a resolution consistent if it keeps labels and declarations and a type
that it gives to an expression is right. -/
theorem noted (h : Consistent parsed state) (hraw : parsed.Raw) (hn : Noted state.forest other n)
    (hexpression : state.forest.role n = .expression → state.forest.type? n = none ∧
      ∀ type, other.type? n = some type → Judged parsed state.table other n type)
    (hsymbol : state.forest.role n ≠ .expression →
      (other.kind n).symbol? = (state.forest.kind n).symbol? ∧
      ((state.forest.kind n).symbol? ≠ none → other.type? n = state.forest.type? n))
    (hlabels : (other.kind n).ownLabels = (state.forest.kind n).ownLabels)
    (hcalled : ∀ name s, other.kind n = .call name (some s) →
      (state.table.symbol s).signature?.any (·.defined) ∨ ∃ line, (s, line) ∈ state.pending) :
    Consistent parsed { state with forest := other } where
  grown := h.grown.noted hn
  typed := h.typed.noted h.grown hraw hn hexpression
  labelled := by
    refine h.labelled.of_same (fun m => ?_) (Nat.le_refl _)
    by_cases hm : m = n
    · exact hm ▸ hlabels
    · rw [hn.kind_eq hm]
  declared := h.declared.of_same (.of_noted hn hsymbol) (Nat.le_refl _)
  called := by
    intro m name s hkind
    by_cases hm : m = n
    · exact hcalled name s (hm ▸ hkind)
    · rw [hn.kind_eq hm] at hkind
      exact h.called m name s hkind

/-- A conversion of a typed expression keeps a resolution consistent. -/
theorem spliced {change : Conversion} (h : Consistent parsed state) (hraw : parsed.Raw)
    (hs : Spliced state.forest other id p change) (hparent : state.forest.parent id = some p)
    (hlt : p < parsed.size) (hrole : state.forest.role id = .expression)
    (hp : state.forest.role p = .expression → state.forest.type? p = none)
    (htype : state.forest.type? id = some change.source) (htarget : change.target.Shallow)
    (hsame : change.source.same change.target = false)
    (hconversion : change.source.conversion? change.target = some change.coercion) :
    Consistent parsed { state with forest := other } where
  grown := h.grown.spliced hraw hs hparent hlt hrole
  typed := h.typed.spliced h.grown hraw hs hparent hp htype htarget hsame hconversion
  labelled := h.labelled.of_same
    (fun m => ((SameDeclarations.of_spliced h.grown hs hparent).2 m).1) (Nat.le_refl _)
  declared := h.declared.of_same (SameDeclarations.of_spliced h.grown hs hparent).1 (Nat.le_refl _)
  called m name s hkind :=
    h.called m name s (((SameDeclarations.of_spliced h.grown hs hparent).2 m).2 name s hkind)

/-- Noting on a node that has not been touched where it is keeps a resolution consistent. -/
theorem annotated (h : Consistent parsed state) (hraw : parsed.Raw) (hlt : n < parsed.size)
    (hready : Ready parsed state.forest n) :
    Consistent parsed (Resolve.annotated state n) ∧
      Noted state.forest (Resolve.annotated state n).forest n ∧
      (Resolve.annotated state n).forest.node n =
        { parsed.node n with
          scope := state.table.depth, function := parsed.owningFunction n } := by
  have hlt' : n < state.forest.size := Nat.lt_of_lt_of_le hlt h.grown.size_le
  have hnode : (Resolve.annotated state n).forest.node n =
      { parsed.node n with
        scope := state.table.depth, function := parsed.owningFunction n } := by
    rw [Resolve.annotated, node_update _ _ _ _ hlt', if_pos rfl, hready.node_eq,
      hready.owningFunction_eq hraw]
  have hn : Noted state.forest (Resolve.annotated state n).forest n :=
    .update hlt' (fun _ => rfl) (fun _ => rfl) (fun _ => rfl) (fun _ => rfl) (fun _ => rfl)
  have hkind : (Resolve.annotated state n).forest.kind n = state.forest.kind n := by
    rw [kind, hnode, hready.kind_eq, kind]
  have htype : (Resolve.annotated state n).forest.type? n = state.forest.type? n := by
    rw [type?, hnode, type?, hready.node_eq]
  have huntyped : state.forest.type? n = none := by
    rw [type?, hready.node_eq]
    exact (hraw.fresh n).type
  have hconsistent : Consistent parsed
      { state with forest := (Resolve.annotated state n).forest } := by
    refine h.noted hraw hn (fun _ => ⟨huntyped, fun type htyped => ?_⟩)
      (fun _ => ⟨by rw [hkind], fun _ => htype⟩) (by rw [hkind])
      fun name s hcall => h.called n name s (hkind ▸ hcall)
    rw [htype, huntyped] at htyped
    cases htyped
  exact ⟨hconsistent, hn, hnode⟩

/-- Drawing labels for a node that has none keeps a resolution consistent. -/
theorem labels {drawn : Nat} (h : Consistent parsed state) (hraw : parsed.Raw)
    (hn : Noted state.forest other n) (hrole : state.forest.role n ≠ .expression)
    (hsymbol : (other.kind n).symbol? = (state.forest.kind n).symbol?)
    (htype : other.type? n = state.forest.type? n) (hdrawn : state.session.drawn ≤ drawn)
    (hlabels : ∀ label ∈ (other.kind n).ownLabels, ∃ number, state.session.drawn ≤ number ∧
      number < drawn ∧ label = .jump number)
    (hnodup : (other.kind n).ownLabels.Nodup) :
    Consistent parsed
      { state with forest := other, session := { state.session with drawn } } where
  grown := h.grown.noted hn
  typed := h.typed.noted h.grown hraw hn fun hexpression => absurd hexpression hrole
  labelled := by
    have hold : ∀ m, m ≠ n → (other.kind m).ownLabels = (state.forest.kind m).ownLabels :=
      fun m hm => by rw [hn.kind_eq hm]
    -- The labels of `n` have numbers that no other node has.
    have hnew : ∀ m label, m ≠ n → label ∈ (other.kind m).ownLabels →
        label ∉ (other.kind n).ownLabels := by
      intro m label hm hlabel hlabel'
      rw [hold m hm] at hlabel
      obtain ⟨number, hlt, heq⟩ := h.labelled.drawn m label hlabel
      obtain ⟨number', hle, -, heq'⟩ := hlabels label hlabel'
      cases heq.symm.trans heq'
      omega
    refine ⟨fun m label hlabel => ?_, fun m => ?_, fun m m' label hm hm' => ?_⟩
    · by_cases hmn : m = n
      · obtain ⟨number, -, hlt, heq⟩ := hlabels label (hmn ▸ hlabel)
        exact ⟨number, hlt, heq⟩
      · rw [hold m hmn] at hlabel
        obtain ⟨number, hlt, heq⟩ := h.labelled.drawn m label hlabel
        exact ⟨number, Nat.lt_of_lt_of_le hlt hdrawn, heq⟩
    · by_cases hmn : m = n
      · exact hmn ▸ hnodup
      · rw [hold m hmn]
        exact h.labelled.nodup m
    · by_cases hmn : m = n <;> by_cases hmn' : m' = n
      · rw [hmn, hmn']
      · exact absurd (hmn ▸ hm) (hnew m' label hmn' hm')
      · exact absurd (hmn' ▸ hm') (hnew m label hmn hm)
      · rw [hold m hmn] at hm
        rw [hold m' hmn'] at hm'
        exact h.labelled.apart m m' label hm hm'
  declared := h.declared.of_same (.of_noted hn fun _ => ⟨hsymbol, fun _ => htype⟩) hdrawn
  called := by
    intro m name s hkind
    by_cases hm : m = n
    · refine absurd (hn.role n) fun he => hrole ?_
      rw [← he, role, ← hm, hkind]
      rfl
    · rw [hn.kind_eq hm] at hkind
      exact h.called m name s hkind

/-- What is consistent does not depend on the scopes. -/
theorem of_symbols {table' : SymbolTable} (h : Consistent parsed state)
    (hsymbols : table'.symbols = state.table.symbols) :
    Consistent parsed { state with table := table' } := by
  have hsize : table'.size = state.table.size := by rw [SymbolTable.size, hsymbols]; rfl
  have hsymbol : table'.symbol = state.table.symbol := by
    funext id
    rw [SymbolTable.symbol, hsymbols]
    rfl
  have hg : state.table.Grew table' := .of_symbols hsymbols
  refine ⟨h.grown, h.typed.grew hg, h.labelled, ?_, h.called.grew hg⟩
  obtain ⟨hvariable, hfunction, hbound, hbound', hframe, hbody, hlabel⟩ := h.declared
  simp only [← hsize, ← hsymbol] at hvariable hfunction hbound hbound' hframe hlabel
  exact ⟨hvariable, hfunction, hbound, hbound', hframe, hbody, hlabel⟩

/-- More calls may be pending. -/
theorem pending (h : Consistent parsed state) (extra : List (SymbolId × Nat)) :
    Consistent parsed { state with pending := state.pending ++ extra } where
  grown := h.grown
  typed := h.typed
  labelled := h.labelled
  declared := h.declared
  called id name symbol hkind := by
    refine (h.called id name symbol hkind).imp_right ?_
    rintro ⟨line, hmem⟩
    exact ⟨line, List.mem_append_left _ hmem⟩

end Consistent

end MiniC
