import MiniC.Scope

/-!
# One declaration

A table that accepts a symbol stores it behind the others and gives its name to the innermost scope.
-/

namespace MiniC.SymbolTable

variable {table table' : SymbolTable} {symbol : Symbol} {id : SymbolId}

/-- A table with one more symbol. -/
structure Pushed (table table' : SymbolTable) (symbol : Symbol) : Prop where
  symbols_eq : table'.symbols = table.symbols.push symbol

namespace Pushed

theorem size_eq (h : table.Pushed table' symbol) : table'.size = table.size + 1 := by
  rw [size, h.symbols_eq, Array.size_push, size]

theorem symbol_new (h : table.Pushed table' symbol) : table'.symbol table.size = symbol := by
  rw [SymbolTable.symbol, h.symbols_eq, size, Array.getElem?_push_size]
  rfl

theorem symbol_old (h : table.Pushed table' symbol) (hid : id < table.size) :
    table'.symbol id = table.symbol id := by
  have hne : id ≠ table.symbols.size := Nat.ne_of_lt hid
  rw [SymbolTable.symbol, h.symbols_eq, Array.getElem?_push, if_neg hne]
  rfl

theorem lt_or_eq (h : table.Pushed table' symbol) (hid : id < table'.size) :
    id < table.size ∨ id = table.size := by
  rw [h.size_eq] at hid
  exact Nat.lt_or_eq_of_le (Nat.le_of_lt_succ hid)

end Pushed

/-- What has been done when `symbol` was accepted as `id`. -/
structure Accepted (table table' : SymbolTable) (symbol : Symbol) (id : SymbolId) : Prop where
  id_eq : id = table.size
  pushed : table.Pushed table' { symbol with depth := table.depth }
  scopes_eq : ∃ scope outer, table.scopes = scope :: outer ∧ scope.lookup symbol.name = none ∧
    table'.scopes = ((symbol.name, table.size) :: scope) :: outer
  fileScope_eq : table'.fileScope = table.fileScope

theorem accepted_of_declare (h : table.declare symbol = .ok (table', id)) :
    table.Accepted table' symbol id := by
  unfold declare at h
  split at h
  · cases h
  · next scope outer hscopes =>
    split at h
    · cases h
    · next hnew =>
      cases h
      exact ⟨rfl, ⟨rfl⟩, ⟨scope, outer, hscopes, hnew, rfl⟩, rfl⟩

theorem Accepted.depth_eq (h : table.Accepted table' symbol id) : table'.depth = table.depth := by
  obtain ⟨scope, outer, hscopes, -, hscopes'⟩ := h.scopes_eq
  simp [depth, hscopes, hscopes']

/-- A name that is new in the innermost scope can be declared. -/
theorem isOk_declare_iff : (∃ answer, table.declare symbol = .ok answer) ↔
    ∃ scope outer, table.scopes = scope :: outer ∧ scope.lookup symbol.name = none := by
  constructor
  · rintro ⟨⟨table', id⟩, h⟩
    obtain ⟨scope, outer, hscopes, hnew, -⟩ := (accepted_of_declare h).scopes_eq
    exact ⟨scope, outer, hscopes, hnew⟩
  · rintro ⟨scope, outer, hscopes, hnew⟩
    rw [declare, hscopes]
    dsimp only
    rw [hnew]
    exact ⟨_, rfl⟩

end MiniC.SymbolTable
