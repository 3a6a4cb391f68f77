import MiniC.Proofs.Alike.Tracks
import MiniC.Proofs.Resolve.Declare
import MiniC.Resolve.Program

/-!
# Symbol tables alike

Names alike are bound to the same symbols in tables alike: names stand for each other one to one, so a
name is found under its counterpart and under no other.
-/

namespace MiniC.Likeness

variable {L : Likeness} {table table' next next' : SymbolTable} {name name' : String}

theorem SameSymbol.default : L.SameSymbol default default :=
  ⟨rfl, .variableAt _, rfl, rfl, rfl, fun _ => rfl⟩

/-- What symbols alike that are functions have as signatures. -/
theorem SameSymbol.signature? {symbol symbol' : Symbol} (h : L.SameSymbol symbol symbol') :
    Option.Rel L.SameSignature symbol.signature? symbol'.signature? := by
  have hkind := h.kind
  unfold Symbol.signature?
  generalize symbol.kind = k, symbol'.kind = k' at hkind ⊢
  cases hkind with
  | variableAt => exact .none
  | function h => exact .some h

theorem SameSymbol.isFunction {symbol symbol' : Symbol} (h : L.SameSymbol symbol symbol') :
    symbol'.isFunction = symbol.isFunction := by
  have hsignature := h.signature?
  unfold Symbol.isFunction
  generalize symbol.signature? = signature, symbol'.signature? = signature' at hsignature ⊢
  cases hsignature <;> rfl

theorem SameSymbol.setDefined {symbol symbol' : Symbol} (h : L.SameSymbol symbol symbol')
    (defined : Bool) : L.SameSymbol (symbol.setDefined defined) (symbol'.setDefined defined) := by
  obtain ⟨name, type, kind, line, frame, depth, offset⟩ := symbol
  obtain ⟨name', type', kind', line', frame', depth', offset'⟩ := symbol'
  obtain ⟨htype, hkind, hframe, hdepth, hoffset, hname⟩ := h
  dsimp only at htype hkind hframe hdepth hoffset
  cases hkind with
  | variableAt declaration => exact ⟨htype, .variableAt declaration, hframe, hdepth, hoffset, hname⟩
  | @function signature signature' hsignature =>
    refine ⟨htype, .function ?_, hframe, hdepth, hoffset, ?_⟩
    · exact ⟨hsignature.params, hsignature.label, hsignature.builtin, hsignature.variadic, rfl⟩
    · rintro ⟨_, hsome, hbuiltin⟩
      obtain rfl := Option.some.inj hsome
      exact hname ⟨signature, rfl, hbuiltin⟩

theorem symbol_of_size_le {id : SymbolId} (h : table.size ≤ id) : table.symbol id = default := by
  simp [SymbolTable.symbol, Array.getElem?_eq_none h]

theorem symbol_update (table : SymbolTable) (id other : SymbolId) (change : Symbol → Symbol) :
    (table.update id change).symbol other =
      if other = id ∧ id < table.size then change (table.symbol id) else table.symbol other := by
  unfold SymbolTable.symbol SymbolTable.update SymbolTable.size
  simp only [Array.getElem?_modify]
  by_cases hid : id < table.symbols.size
  · by_cases hother : other = id
    · subst hother
      simp [hid]
    · simp [hother, Ne.symm hother]
  · by_cases hother : other = id
    · subst hother
      simp [hid]
    · simp [hother, Ne.symm hother]

/-- Scopes stay alike while symbols are added and none changes its line. -/
theorem SameScope.mono {scope scope' : Scope} (h : L.SameScope table table' scope scope')
    (hsize : table.size ≤ next.size)
    (hline : ∀ id < table.size, (next.symbol id).line = (table.symbol id).line)
    (hline' : ∀ id < table.size, (next'.symbol id).line = (table'.symbol id).line) :
    L.SameScope next next' scope scope' := by
  refine List.Forall₂.imp (fun entry entry' hentry => ?_) h
  refine ⟨hentry.name, hentry.id, Nat.lt_of_lt_of_le hentry.bound hsize, ?_⟩
  rw [hline _ hentry.bound, hline' _ hentry.bound]
  exact hentry.line

/-- Names alike are found alike in a scope. -/
theorem SameScope.lookup {scope scope' : Scope} (h : L.SameScope table table' scope scope')
    (hname : L.name name name') : scope'.lookup name' = scope.lookup name := by
  induction h with
  | nil => rfl
  | @cons entry entry' _ _ hentry _ ih =>
    obtain ⟨key, id⟩ := entry
    obtain ⟨key', id'⟩ := entry'
    have hiff := L.name_iff hname hentry.name
    obtain rfl : id' = id := hentry.id
    by_cases hkey : name = key
    · rw [List.lookup_cons, List.lookup_cons, beq_iff_eq.mpr hkey, beq_iff_eq.mpr (hiff.mp hkey)]
    · have hkey' : ¬name' = key' := fun heq => hkey (hiff.mpr heq)
      rw [List.lookup_cons, List.lookup_cons, beq_eq_false_iff_ne.mpr hkey, beq_eq_false_iff_ne.mpr hkey']
      exact ih

/-- What is found under a name that is not one of the library has lines alike. -/
theorem SameScope.line_of_lookup {scope scope' : Scope} {id : SymbolId}
    (h : L.SameScope table table' scope scope') (hfound : scope.lookup name = some id)
    (hname : name ∉ Machine.Routine.catalog.map (·.name)) :
    L.line (table.symbol id).line (table'.symbol id).line := by
  induction h with
  | nil => cases hfound
  | @cons entry entry' _ _ hentry _ ih =>
    obtain ⟨key, found⟩ := entry
    rw [List.lookup_cons] at hfound
    split at hfound
    · rename_i hkey
      obtain rfl := Option.some.inj hfound
      obtain rfl := beq_iff_eq.mp hkey
      exact hentry.line.resolve_right hname
    · exact ih hfound

namespace SameTable

variable (h : L.SameTable table table')
include h

theorem depth : table'.depth = table.depth := h.scopes.length_eq.symm

theorem lookup (hname : L.name name name') : table'.lookup name' = table.lookup name := by
  have hscopes := h.scopes
  unfold SymbolTable.lookup
  generalize table.scopes = scopes, table'.scopes = scopes' at hscopes ⊢
  induction hscopes with
  | nil => rfl
  | cons hscope _ ih => rw [List.findSome?_cons, List.findSome?_cons, hscope.lookup hname, ih]

theorem lookupCurrent (hname : L.name name name') :
    table'.lookupCurrent name' = table.lookupCurrent name := by
  have hscopes := h.scopes
  unfold SymbolTable.lookupCurrent
  generalize table.scopes = scopes, table'.scopes = scopes' at hscopes ⊢
  cases hscopes with
  | nil => rfl
  | cons hscope => exact hscope.lookup hname

/-- The scopes of the file. -/
theorem file : Option.Rel (L.SameScope table table') (table.scopes.getLast?.or table.fileScope)
    (table'.scopes.getLast?.or table'.fileScope) := by
  have hscopes := h.scopes
  have hfile := h.fileScope
  generalize table.scopes = scopes, table'.scopes = scopes' at hscopes ⊢
  induction hscopes with
  | nil => exact hfile
  | @cons scope scope' _ _ hscope hrest ih =>
    cases hrest with
    | nil => exact .some hscope
    | cons => simpa [List.getLast?_cons_cons] using ih

theorem lookupFile (hname : L.name name name') : table'.lookupFile name' = table.lookupFile name := by
  have hfile := h.file
  unfold SymbolTable.lookupFile
  generalize table.scopes.getLast?.or table.fileScope = scope,
    table'.scopes.getLast?.or table'.fileScope = scope' at hfile ⊢
  cases hfile with
  | none => rfl
  | some hscope => exact hscope.lookup hname

theorem line_of_lookupFile {id : SymbolId} (hfound : table.lookupFile name = some id)
    (hname : name ∉ Machine.Routine.catalog.map (·.name)) :
    L.line (table.symbol id).line (table'.symbol id).line := by
  have hfile := h.file
  unfold SymbolTable.lookupFile at hfound
  generalize table.scopes.getLast?.or table.fileScope = scope,
    table'.scopes.getLast?.or table'.fileScope = scope' at hfile hfound
  cases hfile with
  | none => cases hfound
  | some hscope => exact hscope.line_of_lookup hfound hname

omit h in
/-- Tables stay alike while symbols are added and none changes its line. -/
theorem grow (hsize : table.size ≤ next.size) (hsize' : next'.size = next.size)
    (hsymbol : ∀ id, L.SameSymbol (next.symbol id) (next'.symbol id))
    (hline : ∀ id < table.size, (next.symbol id).line = (table.symbol id).line)
    (hline' : ∀ id < table.size, (next'.symbol id).line = (table'.symbol id).line)
    (hscopes : List.Forall₂ (L.SameScope table table') next.scopes next'.scopes)
    (hfile : Option.Rel (L.SameScope table table') next.fileScope next'.fileScope) :
    L.SameTable next next' where
  size := hsize'
  symbol := hsymbol
  scopes := List.Forall₂.imp (fun _ _ hscope => hscope.mono hsize hline hline') hscopes
  fileScope := by
    generalize next.fileScope = scope, next'.fileScope = scope' at hfile ⊢
    cases hfile with
    | none => exact .none
    | some hscope => exact .some (hscope.mono hsize hline hline')

theorem update (id : SymbolId) {change : Symbol → Symbol}
    (hchange : ∀ symbol symbol', L.SameSymbol symbol symbol' → L.SameSymbol (change symbol) (change symbol'))
    (hline : ∀ symbol, (change symbol).line = symbol.line) :
    L.SameTable (table.update id change) (table'.update id change) := by
  have hsize : ∀ table : SymbolTable, (table.update id change).size = table.size :=
    fun table => by simp [SymbolTable.size, SymbolTable.update]
  have hlines : ∀ (table : SymbolTable) other,
      ((table.update id change).symbol other).line = (table.symbol other).line := by
    intro table other
    rw [symbol_update]
    split
    · rename_i hid
      rw [hline, hid.1]
    · rfl
  refine grow (hsize table).ge (by rw [hsize, hsize, h.size]) (fun other => ?_)
    (fun other _ => hlines table other) (fun other _ => hlines table' other) h.scopes h.fileScope
  rw [symbol_update, symbol_update, h.size]
  split
  · exact hchange _ _ (h.symbol id)
  · exact h.symbol other

theorem enter : L.SameTable table.enter table'.enter :=
  grow (by exact Nat.le_refl _) h.size h.symbol (fun _ _ => by rfl) (fun _ _ => by rfl) (.cons .nil h.scopes)
    h.fileScope

theorem leave : L.SameTable table.leave table'.leave := by
  have hscopes : List.Forall₂ (L.SameScope table table') table.leave.scopes table'.leave.scopes ∧
      Option.Rel (L.SameScope table table') table.leave.fileScope table'.leave.fileScope := by
    have hscopes := h.scopes
    have hfile := h.fileScope
    unfold SymbolTable.leave
    generalize table.scopes = scopes, table'.scopes = scopes' at hscopes ⊢
    cases hscopes with
    | nil => exact ⟨h.scopes, hfile⟩
    | cons hscope hrest =>
      cases hrest with
      | nil => exact ⟨.nil, .some hscope⟩
      | cons hnext hrest => exact ⟨.cons hnext hrest, hfile⟩
  have hsymbol : ∀ (table : SymbolTable) id, table.leave.symbol id = table.symbol id := by
    intro table id
    unfold SymbolTable.leave
    split <;> rfl
  refine grow (by simp) (by simpa using h.size) (fun id => ?_)
    (fun id _ => by rw [hsymbol]) (fun id _ => by rw [hsymbol]) hscopes.1 hscopes.2
  rw [hsymbol, hsymbol]
  exact h.symbol id

/-- A table with one symbol more. -/
theorem push {symbol symbol' : Symbol} {scope scope' : Scope} {scopes scopes' : List Scope}
    (hsymbol : L.SameSymbol symbol symbol') (hname : L.name symbol.name symbol'.name)
    (hline : L.line symbol.line symbol'.line ∨ symbol.name ∈ Machine.Routine.catalog.map (·.name))
    (hpushed : table.Pushed next symbol) (hpushed' : table'.Pushed next' symbol')
    (hscopes : table.scopes = scope :: scopes) (hscopes' : table'.scopes = scope' :: scopes')
    (hnext : next.scopes = ((symbol.name, table.size) :: scope) :: scopes)
    (hnext' : next'.scopes = ((symbol'.name, table'.size) :: scope') :: scopes')
    (hfile : next.fileScope = table.fileScope) (hfile' : next'.fileScope = table'.fileScope) :
    L.SameTable next next' := by
  have hsize : table.size ≤ next.size := by rw [hpushed.size_eq]; exact Nat.le_succ _
  have hold : ∀ id < table.size, (next.symbol id).line = (table.symbol id).line :=
    fun id hid => by rw [hpushed.symbol_old hid]
  have hold' : ∀ id < table.size, (next'.symbol id).line = (table'.symbol id).line :=
    fun id hid => by rw [hpushed'.symbol_old (h.size ▸ hid)]
  have hnew : next.symbol table.size = symbol := hpushed.symbol_new
  have hnew' : next'.symbol table.size = symbol' := h.size ▸ hpushed'.symbol_new
  have hbelow : List.Forall₂ (L.SameScope next next') (scope :: scopes) (scope' :: scopes') := by
    rw [← hscopes, ← hscopes']
    exact List.Forall₂.imp (fun _ _ hscope => hscope.mono hsize hold hold') h.scopes
  refine ⟨by rw [hpushed.size_eq, hpushed'.size_eq, h.size], fun id => ?_, ?_, ?_⟩
  · rcases lt_trichotomy id table.size with hid | rfl | hid
    · rw [hpushed.symbol_old hid, hpushed'.symbol_old (h.size ▸ hid)]
      exact h.symbol id
    · rwa [hnew, hnew']
    · rw [symbol_of_size_le (by rw [hpushed.size_eq]; exact hid),
        symbol_of_size_le (by rw [hpushed'.size_eq, h.size]; exact hid)]
      exact .default
  · rw [hnext, hnext']
    cases hbelow with
    | cons hscope hscopes =>
      refine .cons (.cons ⟨hname, h.size, ?_, ?_⟩ hscope) hscopes
      · rw [hpushed.size_eq]
        exact Nat.lt_succ_self _
      · dsimp only
        rwa [hnew, hnew']
  · rw [hfile, hfile']
    have hrel := h.fileScope
    generalize table.fileScope = scope, table'.fileScope = scope' at hrel ⊢
    cases hrel with
    | none => exact .none
    | some hscope => exact .some (hscope.mono hsize hold hold')

/-- Declaring symbols alike. -/
theorem declare {symbol symbol' : Symbol} (hsymbol : L.SameSymbol symbol symbol')
    (hname : L.name symbol.name symbol'.name) (hline : L.line symbol.line symbol'.line) :
    L.Agree (fun answer answer' => L.SameTable answer.1 answer'.1 ∧ answer'.2 = answer.2)
      (table.declare symbol) (table'.declare symbol') := by
  have hscopes := h.scopes
  unfold SymbolTable.declare
  cases hopen : table.scopes with
  | nil =>
    rw [hopen] at hscopes
    cases hopen' : table'.scopes with
    | nil => exact .malformed
    | cons => simp [hopen'] at hscopes
  | cons scope scopes =>
    rw [hopen] at hscopes
    cases hopen' : table'.scopes with
    | nil => simp [hopen'] at hscopes
    | cons scope' scopes' =>
      rw [hopen', List.forall₂_cons] at hscopes
      dsimp only
      rw [hscopes.1.lookup hname]
      cases scope.lookup symbol.name with
      | some earlier => exact .of_line ⟨rfl, rfl⟩ hline
      | none =>
        have hdeep : L.SameSymbol { symbol with depth := table.depth } { symbol' with depth := table'.depth } :=
          { hsymbol with depth := h.depth }
        exact .ok ⟨h.push hdeep hname (.inl hline) ⟨rfl⟩ ⟨rfl⟩ hopen hopen' rfl rfl rfl rfl, h.size⟩

end SameTable

end MiniC.Likeness
