import Mathlib.Data.Finmap
import MiniC.Proofs.Ensures
import MiniC.Proofs.SymbolTable

/-!
# A symbol table is a stack of finite maps

A table keeps each scope as a list of names and the symbols of all scopes in one array. `MapStack` is
what this stands for: one finite map from names to ids for every open scope, the map of the file once it
has been closed, and the number of ids given away. Scopes may be opened and closed and symbols declared
in any order, also with no scope open; table and maps answer alike.
-/

namespace MiniC

/-! ## Finite maps -/

/-- What names stand for. -/
abbrev NameMap := Finmap fun _ : String => SymbolId

/-- What can be asked of a symbol table. -/
inductive SymbolTable.Operation
  | enter
  | leave
  | declare (symbol : Symbol)

/-- Finite maps instead of scopes. -/
structure MapStack where
  /-- The maps of the scopes that are open, the innermost first. -/
  opened : List NameMap := []
  /-- The map that was the last one when it was closed. -/
  closed : Option NameMap := none
  /-- How many ids have been given away. -/
  count : Nat := 0

namespace MapStack

variable {maps : MapStack} {map : NameMap} {outer : List NameMap} {symbol : Symbol}

/-- The maps behind one operation. -/
def perform (maps : MapStack) : SymbolTable.Operation → MapStack
  | .enter => { maps with opened := ∅ :: maps.opened }
  | .leave =>
    match maps.opened with
    | [] => maps
    | [map] => { maps with opened := [], closed := some map }
    | _ :: outer => { maps with opened := outer }
  | .declare symbol =>
    match maps.opened with
    | [] => maps
    | map :: outer =>
      if symbol.name ∈ map then maps
      else { maps with opened := map.insert symbol.name maps.count :: outer, count := maps.count + 1 }

/-- The maps behind some operations, of which none has been performed before. -/
def after (ops : List SymbolTable.Operation) : MapStack := ops.foldl perform {}

/-- A name in the innermost map that has it. -/
def lookup (maps : MapStack) (name : String) : Option SymbolId :=
  maps.opened.findSome? fun map => map.lookup name

/-- A name in the innermost map. -/
def lookupCurrent (maps : MapStack) (name : String) : Option SymbolId :=
  maps.opened.head?.bind fun map => map.lookup name

/-- A name in the outermost map or, if none is open, in the one that was the last. -/
def lookupFile (maps : MapStack) (name : String) : Option SymbolId :=
  (maps.opened.getLast?.or maps.closed).bind fun map => map.lookup name

end MapStack

namespace Scope

/-- The map of a scope. -/
def toMap (scope : Scope) : NameMap := scope.foldr (fun (name, id) map => map.insert name id) ∅

@[simp] theorem lookup_toMap (scope : Scope) (name : String) :
    Finmap.lookup name (toMap scope) = List.lookup name scope := by
  induction scope with
  | nil => rfl
  | cons entry scope ih =>
    obtain ⟨name', id⟩ := entry
    rw [toMap, List.foldr_cons, ← toMap, List.lookup_cons]
    by_cases hname : name = name'
    · subst hname
      simp
    · rw [Finmap.lookup_insert_of_ne _ hname, ih, beq_false_of_ne hname]

theorem notMem_toMap_iff {scope : Scope} {name : String} :
    name ∉ toMap scope ↔ List.lookup name scope = none := by
  rw [← lookup_toMap, Finmap.lookup_eq_none]

end Scope

namespace SymbolTable

variable {table table' : SymbolTable} {symbol : Symbol} {id : SymbolId} {name : String}
  {ops : List Operation}

/-! ## The operations -/

/-- Declares a symbol in place. The name is added before the symbol is stored, but behind the checks. -/
def declareHere (symbol : Symbol) : EStateM Fault SymbolTable SymbolId := do
  let table ← get
  let scope :: _ := table.scopes
    | throw (.malformed ("declaration of '" ++ symbol.name ++ "' outside any scope") symbol.line)
  if let some earlier := scope.lookup symbol.name then
    throw ⟨.symbolAlreadyDeclared symbol.name (table.symbol earlier).line, symbol.line⟩
  modify fun table => { table with scopes := table.scopes.modifyHead ((symbol.name, table.size) :: ·) }
  modify fun table => { table with symbols := table.symbols.push { symbol with depth := table.depth } }
  return table.size

/-- Declaring in place is declaring, and a refusal comes before any change. -/
theorem declareHere_eq (table : SymbolTable) (symbol : Symbol) :
    declareHere symbol table =
      match table.declare symbol with
      | .ok (table', id) => .ok id table'
      | .error fault => .error fault table := by
  obtain ⟨symbols, scopes, fileScope⟩ := table
  cases scopes with
  | nil => rfl
  | cons scope outer =>
    rw [declareHere, get_bind_apply, declare]
    dsimp only
    cases scope.lookup symbol.name <;> rfl

namespace Operation

/-- The operation as a step that changes a table. A declaration gives an id. -/
def run : Operation → EStateM Fault SymbolTable (Option SymbolId)
  | enter => do
    modify SymbolTable.enter
    return none
  | leave => do
    modify SymbolTable.leave
    return none
  | declare symbol => some <$> declareHere symbol

end Operation

/-- A table behind one operation. -/
def perform (table : SymbolTable) (op : Operation) : SymbolTable := behind op.run table

/-- The table behind some operations, of which none has been performed before. -/
def after (ops : List Operation) : SymbolTable := behindAll (ops.map Operation.run) {}

@[simp] theorem perform_enter (table : SymbolTable) : table.perform .enter = table.enter := rfl

@[simp] theorem perform_leave (table : SymbolTable) : table.perform .leave = table.leave := rfl

/-- A declaration is accepted or changes nothing. -/
theorem perform_declare (table : SymbolTable) (symbol : Symbol) :
    (∃ id, table.Accepted (table.perform (.declare symbol)) symbol id) ∨
      (∀ answer, table.declare symbol ≠ .ok answer) ∧ table.perform (.declare symbol) = table := by
  have hperform : table.perform (.declare symbol) =
      match table.declare symbol with
      | .ok (table', _) => table'
      | .error _ => table := by
    simp only [perform, Operation.run, behind, Functor.map, EStateM.map, declareHere_eq]
    cases table.declare symbol <;> rfl
  rw [hperform]
  cases hdeclare : table.declare symbol with
  | ok answer => exact .inl ⟨answer.2, accepted_of_declare hdeclare⟩
  | error fault => exact .inr ⟨nofun, rfl⟩

theorem after_append (ops more : List Operation) :
    after (ops ++ more) = more.foldl perform (after ops) := by
  rw [after, List.map_append, behindAll_append, ← after]
  exact List.foldl_map

theorem after_append_singleton (ops : List Operation) (op : Operation) :
    after (ops ++ [op]) = (after ops).perform op := after_append ops [op]

/-! ## What a table stands for -/

/-- The maps that a table stands for. -/
def maps (table : SymbolTable) : MapStack where
  opened := table.scopes.map Scope.toMap
  closed := table.fileScope.map Scope.toMap
  count := table.size

@[simp] theorem lookup_maps (table : SymbolTable) (name : String) :
    table.maps.lookup name = table.lookup name := by
  simp [maps, MapStack.lookup, lookup, List.findSome?_map, Function.comp_def]

@[simp] theorem lookupCurrent_maps (table : SymbolTable) (name : String) :
    table.maps.lookupCurrent name = table.lookupCurrent name := by
  simp [maps, MapStack.lookupCurrent, lookupCurrent, Option.bind_map]

@[simp] theorem lookupFile_maps (table : SymbolTable) (name : String) :
    table.maps.lookupFile name = table.lookupFile name := by
  rw [MapStack.lookupFile, maps, List.getLast?_map, ← Option.map_or, Option.bind_map, lookupFile]
  exact congrArg _ (funext fun scope => Scope.lookup_toMap scope name)

/-- One operation does to the table what it does to the maps. -/
theorem maps_perform (table : SymbolTable) (op : Operation) :
    (table.perform op).maps = table.maps.perform op := by
  cases op with
  | enter => rfl
  | leave =>
    obtain ⟨symbols, scopes, fileScope⟩ := table
    match scopes with
    | [] | [_] | _ :: _ :: _ => rfl
  | declare symbol =>
    obtain ⟨id, h⟩ | ⟨hrefused, h⟩ := table.perform_declare symbol
    · obtain ⟨scope, outer, hscopes, hnew, hscopes'⟩ := h.scopes_eq
      simp only [maps, MapStack.perform, hscopes, hscopes', h.fileScope_eq, h.pushed.size_eq,
        List.map_cons, if_neg (Scope.notMem_toMap_iff.mpr hnew)]
      rfl
    · rw [h]
      simp only [maps, MapStack.perform]
      cases hscopes : table.scopes with
      | nil => rfl
      | cons scope outer =>
        have hmem : symbol.name ∈ Scope.toMap scope := by
          by_contra hnew
          obtain ⟨answer, hanswer⟩ :=
            isOk_declare_iff.mpr ⟨scope, outer, hscopes, Scope.notMem_toMap_iff.mp hnew⟩
          exact hrefused answer hanswer
        simp only [List.map_cons, if_pos hmem]

theorem maps_after (ops : List Operation) : (after ops).maps = MapStack.after ops := by
  induction ops using List.reverseRecOn with
  | nil => rfl
  | append_singleton ops op ih =>
    rw [after_append_singleton, maps_perform, ih, MapStack.after, MapStack.after, List.foldl_append]
    rfl

/-! ## What ids stand for -/

/-- The names of a scope stand for symbols of these names that were declared at the depth. -/
def Names (table : SymbolTable) (depth : Nat) (scope : Scope) : Prop :=
  ∀ name id, scope.lookup name = some id →
    id < table.size ∧ (table.symbol id).name = name ∧ (table.symbol id).depth = depth

/-- Symbols are added to a table, and those that were there stay as they are. -/
structure Extends (table table' : SymbolTable) : Prop where
  size_le : table.size ≤ table'.size
  symbol_eq : ∀ id < table.size, table'.symbol id = table.symbol id

/-- Every scope, open or the one of the file, has names of symbols. -/
structure Indexed (table : SymbolTable) : Prop where
  opened : ∀ scope outer, scope :: outer <:+ table.scopes → table.Names (outer.length + 1) scope
  file : ∀ scope, table.fileScope = some scope → table.Names 1 scope

theorem Extends.refl (table : SymbolTable) : table.Extends table := ⟨Nat.le_refl _, fun _ _ => rfl⟩

theorem Extends.trans {table'' : SymbolTable} (h : table.Extends table') (h' : table'.Extends table'') :
    table.Extends table'' :=
  ⟨h.size_le.trans h'.size_le, fun id hid =>
    (h'.symbol_eq id (Nat.lt_of_lt_of_le hid h.size_le)).trans (h.symbol_eq id hid)⟩

theorem Pushed.extends (h : table.Pushed table' symbol) : table.Extends table' :=
  ⟨by rw [h.size_eq]; exact Nat.le_succ _, fun _ hid => h.symbol_old hid⟩

theorem extends_perform (table : SymbolTable) (op : Operation) : table.Extends (table.perform op) := by
  cases op with
  | enter => exact ⟨Nat.le_refl _, fun _ _ => rfl⟩
  | leave =>
    rw [perform_leave]
    unfold leave
    split <;> exact ⟨Nat.le_refl _, fun _ _ => rfl⟩
  | declare symbol =>
    obtain ⟨id, h⟩ | ⟨-, h⟩ := table.perform_declare symbol
    · exact h.pushed.extends
    · rw [h]
      exact .refl table

theorem extends_after_append (ops more : List Operation) : (after ops).Extends (after (ops ++ more)) := by
  induction more using List.reverseRecOn with
  | nil => rw [List.append_nil]; exact .refl _
  | append_singleton more op ih =>
    rw [← List.append_assoc, after_append_singleton]
    exact ih.trans (extends_perform _ op)

theorem Names.extends {depth : Nat} {scope : Scope} (h : table.Names depth scope)
    (hext : table.Extends table') : table'.Names depth scope := by
  intro name id hlookup
  obtain ⟨hlt, hname, hdepth⟩ := h name id hlookup
  rw [hext.symbol_eq id hlt]
  exact ⟨Nat.lt_of_lt_of_le hlt hext.size_le, hname, hdepth⟩

/-- The name of a symbol that has been accepted. -/
theorem Names.accepted {scope : Scope} (h : table.Names table.depth scope)
    (haccepted : table.Accepted table' symbol id) :
    table'.Names table.depth ((symbol.name, table.size) :: scope) := by
  intro name id hlookup
  rw [List.lookup_cons] at hlookup
  split at hlookup
  · next hname =>
    cases hlookup
    rw [haccepted.pushed.symbol_new, haccepted.pushed.size_eq]
    exact ⟨Nat.lt_succ_self _, (beq_iff_eq.mp hname).symm, rfl⟩
  · exact h.extends haccepted.pushed.extends name id hlookup

namespace Indexed

theorem head {scope : Scope} {outer : List Scope} (h : table.Indexed)
    (hscopes : table.scopes = scope :: outer) : table.Names table.depth scope := by
  rw [depth, hscopes]
  exact h.opened scope outer (by rw [hscopes])

theorem enter (h : table.Indexed) : table.enter.Indexed where
  opened scope outer hsuffix := by
    obtain heq | hsuffix := List.suffix_cons_iff.mp hsuffix
    · cases heq
      exact nofun
    · exact h.opened scope outer hsuffix
  file := h.file

theorem leave (h : table.Indexed) : table.leave.Indexed := by
  unfold SymbolTable.leave
  split
  · exact h
  · next last hscopes =>
    refine ⟨fun scope outer hsuffix => by simp at hsuffix, fun scope hfile => ?_⟩
    cases hfile
    exact h.opened _ [] (by rw [hscopes])
  · next first scopes _ hscopes =>
    exact ⟨fun scope outer hsuffix => h.opened scope outer
      (hscopes ▸ hsuffix.trans (List.suffix_cons first scopes)), h.file⟩

theorem accepted (h : table.Indexed) (haccepted : table.Accepted table' symbol id) : table'.Indexed := by
  have hext := haccepted.pushed.extends
  obtain ⟨innermost, outer, hscopes, -, hscopes'⟩ := haccepted.scopes_eq
  refine ⟨fun scope others hsuffix => ?_, fun scope hfile => ?_⟩
  · rw [hscopes'] at hsuffix
    obtain heq | hsuffix := List.suffix_cons_iff.mp hsuffix
    · cases heq
      have hnames := (h.head hscopes).accepted haccepted
      rwa [depth, hscopes] at hnames
    · have hin : scope :: others <:+ table.scopes :=
        hscopes ▸ hsuffix.trans (List.suffix_cons innermost outer)
      exact (h.opened scope others hin).extends hext
  · rw [haccepted.fileScope_eq] at hfile
    exact (h.file scope hfile).extends hext

theorem perform (h : table.Indexed) (op : Operation) : (table.perform op).Indexed := by
  cases op with
  | enter => exact h.enter
  | leave => exact h.leave
  | declare symbol =>
    obtain ⟨id, haccepted⟩ | ⟨-, heq⟩ := table.perform_declare symbol
    · exact h.accepted haccepted
    · rwa [heq]

end Indexed

theorem indexed_after (ops : List Operation) : (after ops).Indexed := by
  induction ops using List.reverseRecOn with
  | nil => exact ⟨fun scope outer hsuffix => by simp [after] at hsuffix, nofun⟩
  | append_singleton ops op ih =>
    rw [after_append_singleton]
    exact ih.perform op

/-! ## Scopes that are closed again -/

/-- What can be done inside of a scope: declarations, and scopes that are closed again. -/
inductive Operation.Inside : List Operation → Prop
  | nil : Inside []
  | declare {ops : List Operation} (symbol : Symbol) (h : Inside ops) : Inside (.declare symbol :: ops)
  | scope {inner ops : List Operation} (hinner : Inside inner) (h : Inside ops) :
      Inside (.enter :: inner ++ .leave :: ops)

/-- What is done inside of a scope changes that scope alone. -/
theorem foldl_perform_inside (h : Operation.Inside ops) {scope : Scope} {outer : List Scope}
    (hscopes : table.scopes = scope :: outer) :
    (∃ scope', (ops.foldl perform table).scopes = scope' :: outer) ∧
      (ops.foldl perform table).fileScope = table.fileScope := by
  induction h generalizing table scope outer with
  | nil => exact ⟨⟨scope, hscopes⟩, rfl⟩
  | declare symbol _ ih =>
    rw [List.foldl_cons]
    obtain ⟨id, haccepted⟩ | ⟨-, heq⟩ := table.perform_declare symbol
    · obtain ⟨_, _, hscopes', -, hscopes''⟩ := haccepted.scopes_eq
      cases hscopes.symm.trans hscopes'
      exact haccepted.fileScope_eq ▸ ih hscopes''
    · rw [heq]
      exact ih hscopes
  | @scope inner ops _ _ ihinner ih =>
    rw [List.foldl_append, List.foldl_cons, List.foldl_cons, perform_enter, perform_leave]
    have henter : table.enter.scopes = [] :: scope :: outer := congrArg ([] :: ·) hscopes
    obtain ⟨⟨scope', hscopes'⟩, hfile⟩ := ihinner henter
    have hleave : (inner.foldl perform table.enter).leave =
        { inner.foldl perform table.enter with scopes := scope :: outer } := by rw [leave, hscopes']
    rw [hleave]
    exact hfile ▸ ih rfl

/-- A scope with what is done inside of it. -/
def Operation.closed (inside : List Operation) : List Operation := .enter :: inside ++ [.leave]

/-- A scope that is closed again leaves the others alone, and the closed one of the file unless no other
is open. -/
theorem foldl_perform_closed (table : SymbolTable) {inside : List Operation}
    (h : Operation.Inside inside) :
    ((Operation.closed inside).foldl perform table).scopes = table.scopes ∧
      (table.scopes ≠ [] →
        ((Operation.closed inside).foldl perform table).fileScope = table.fileScope) := by
  obtain ⟨⟨scope', hscopes'⟩, hfile⟩ :=
    foldl_perform_inside h (rfl : table.enter.scopes = [] :: table.scopes)
  rw [Operation.closed, List.foldl_append, List.foldl_cons, List.foldl_cons, List.foldl_nil,
    perform_enter, perform_leave, leave, hscopes']
  cases table.scopes with
  | nil => exact ⟨rfl, fun h => absurd rfl h⟩
  | cons scope outer => exact ⟨rfl, fun _ => hfile⟩

/-! ## The result -/

/-- **A symbol table is a stack of finite maps.** Behind any operations, in any order and number, a name
stands for what the maps say: the innermost one that has it, the innermost one alone, or the outermost
one, for which the last one that was closed stands in when none is open. The ids are those of symbols of
that name, declared at the depth of the map.

A symbol is accepted if and only if a map is open and lacks its name. It gets the next id and the number
of open maps as its depth, and nothing but the innermost map changes. A table that is changed in place
is not touched by a refusal. No symbol goes away or changes. A scope that is opened and closed again,
whatever is done inside of it, leaves the scopes around it as they were. -/
theorem refines_map_stack (ops : List Operation) :
    (∀ name, (after ops).lookup name = (MapStack.after ops).lookup name ∧
      (after ops).lookupCurrent name = (MapStack.after ops).lookupCurrent name ∧
      (after ops).lookupFile name = (MapStack.after ops).lookupFile name) ∧
    (after ops).Indexed ∧
    (∀ symbol, (∃ answer, (after ops).declare symbol = .ok answer) ↔
      ∃ map outer, (MapStack.after ops).opened = map :: outer ∧ symbol.name ∉ map) ∧
    (∀ symbol table id, (after ops).declare symbol = .ok (table, id) →
      id = (after ops).size ∧ table.size = id + 1 ∧
        table.symbol id = { symbol with depth := (MapStack.after ops).opened.length } ∧
        ∃ map outer, (MapStack.after ops).opened = map :: outer ∧
          table.maps =
            { MapStack.after ops with opened := map.insert symbol.name id :: outer, count := id + 1 }) ∧
    (∀ symbol, declareHere symbol (after ops) =
      match (after ops).declare symbol with
      | .ok (table, id) => .ok id table
      | .error fault => .error fault (after ops)) ∧
    (∀ more, (after ops).Extends (after (ops ++ more))) ∧
    ∀ inside, Operation.Inside inside →
      (after (ops ++ Operation.closed inside)).scopes = (after ops).scopes ∧
        ∀ name, (after (ops ++ Operation.closed inside)).lookup name = (after ops).lookup name ∧
          (after (ops ++ Operation.closed inside)).lookupCurrent name = (after ops).lookupCurrent name ∧
          ((after ops).depth ≠ 0 →
            (after (ops ++ Operation.closed inside)).lookupFile name = (after ops).lookupFile name) := by
  have hopened : (MapStack.after ops).opened = (after ops).scopes.map Scope.toMap := by
    rw [← maps_after]
    rfl
  refine ⟨fun name => ?_, indexed_after ops, fun symbol => ?_, fun symbol table id hok => ?_,
    declareHere_eq (after ops), extends_after_append ops, fun inside hinside => ?_⟩
  · rw [← maps_after, lookup_maps, lookupCurrent_maps, lookupFile_maps]
    exact ⟨rfl, rfl, rfl⟩
  · rw [isOk_declare_iff, hopened]
    constructor
    · rintro ⟨scope, outer, hscopes, hnew⟩
      exact ⟨_, _, by rw [hscopes, List.map_cons], Scope.notMem_toMap_iff.mpr hnew⟩
    · rintro ⟨map, outer, hmaps, hnew⟩
      obtain ⟨scope, scopes, hscopes, rfl, -⟩ := List.map_eq_cons_iff.mp hmaps
      exact ⟨scope, scopes, hscopes, Scope.notMem_toMap_iff.mp hnew⟩
  · have haccepted := accepted_of_declare hok
    obtain ⟨scope, outer, hscopes, -, hscopes'⟩ := haccepted.scopes_eq
    obtain rfl := haccepted.id_eq
    refine ⟨rfl, haccepted.pushed.size_eq, ?_, Scope.toMap scope, outer.map Scope.toMap, ?_, ?_⟩
    · rw [haccepted.pushed.symbol_new, hopened, List.length_map]
      rfl
    · rw [hopened, hscopes, List.map_cons]
    · rw [← maps_after, maps, hscopes', haccepted.fileScope_eq, haccepted.pushed.size_eq]
      rfl
  · rw [after_append]
    obtain ⟨hscopes, hfile⟩ := foldl_perform_closed (after ops) hinside
    refine ⟨hscopes, fun name => ⟨?_, ?_, fun hdepth => ?_⟩⟩
    · rw [lookup, hscopes, lookup]
    · rw [lookupCurrent, hscopes, lookupCurrent]
    · rw [lookupFile, hscopes, hfile fun hnil => hdepth (by rw [depth, hnil]; rfl), lookupFile]

/-- A name that is hidden is seen again when the scope is closed, and in the file behind the last scope.
-/
example :
    let x : Symbol := { name := "x", type := .int, kind := .variableAt 0, line := 1 }
    let ops := [.enter, .declare x, .enter, .declare x, .leave, .leave, .leave]
    ((after (ops.take 4)).lookup "x", (after (ops.take 5)).lookup "x", (after ops).lookup "x",
      (after ops).lookupFile "x") = (some 1, some 0, none, some 0) := by decide

end SymbolTable

end MiniC
