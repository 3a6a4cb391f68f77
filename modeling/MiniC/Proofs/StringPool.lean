import MiniC.Proofs.FrameLayout
import MiniC.Proofs.Grammar.Texts
import MiniC.Proofs.Machine.Character
import MiniC.Proofs.Tree.Literals

/-!
# The string pool

The strings of a program follow each other behind the global variables, in the order in which they
stand in the source, each with a closing character. The code of a program fills the pool before anything else runs,
and a string stands for the address of its first character.
-/

namespace MiniC

open Forest Machine

/-! ## Filling the pool -/

namespace Emit

variable {layout : Layout} {root id : NodeId}

/-- The characters that are stored for strings, each string with a closing one. -/
def poolText (forest : Forest) (ids : List NodeId) : List Char :=
  ids.flatMap fun id => (forest.text id).toList ++ ['\x00']

theorem storeChars_append (slot : Nat) (cs ds : List Char) :
    storeChars slot (cs ++ ds) = storeChars slot cs ++ storeChars (slot + cs.length) ds := by
  induction cs generalizing slot with
  | nil => rfl
  | cons c cs ih => simp [storeChars, ih, Nat.add_assoc, Nat.add_comm 1]

theorem stores_storeChars (slot : Nat) (cs : List Char) :
    Stores slot cs ((storeChars slot cs).map Instr.line) := by
  induction cs generalizing slot with
  | nil => exact .nil
  | cons c cs ih => exact .cons (spells_charOperand c) (charOf?_charOperand c) (ih (slot + 1))

/-- A string with a place is stored from there on. -/
theorem storeString_eq {ids : List NodeId} {next stop : Nat}
    (h : Tiled layout.pool? layout.chars next
      (ids.filter fun id => (layout.forest.kind id).isString) stop) :
    (ids.flatMap fun id => match layout.forest.kind id with
      | .string value (some slot) => storeChars slot (value.toList ++ ['\x00'])
      | _ => []) =
    storeChars next
      (poolText layout.forest (ids.filter fun id => (layout.forest.kind id).isString)) := by
  induction ids generalizing next with
  | nil => rfl
  | cons id ids ih =>
    rw [List.flatMap_cons]
    cases hstring : (layout.forest.kind id).isString with
    | false =>
      rw [List.filter_cons, if_neg (by simp [hstring])] at h ⊢
      rw [ih h]
      cases hkind : layout.forest.kind id <;> simp_all [Kind.isString]
    | true =>
      rw [List.filter_cons, if_pos hstring] at h ⊢
      obtain ⟨hslot, hrest⟩ := h
      obtain ⟨value, pool, hkind⟩ := Kind.isString_iff.mp hstring
      obtain rfl : pool = some next := by
        rwa [Layout.pool?, hkind, Kind.pool?] at hslot
      have hlength : (value.toList ++ ['\x00']).length = layout.chars id := by
        simp only [List.length_append, String.length_toList, List.length_singleton, Layout.chars,
          hkind, Kind.chars]
      have hpool : ∀ others, poolText layout.forest (id :: others) =
          (value.toList ++ ['\x00']) ++ poolText layout.forest others := by
        simp [poolText, text, hkind, Kind.text?]
      rw [ih hrest, hpool, storeChars_append, hlength, hkind]

/-- Storing the strings of a program is storing their characters one behind the other. -/
theorem strings_eq {next stop : Nat}
    (h : Tiled layout.pool? layout.chars next (layout.forest.literals root) stop) :
    strings layout root = storeChars next (poolText layout.forest (layout.forest.literals root)) :=
  storeString_eq h

/-- The code of a program fills the pool first, and then the global variables. -/
theorem code_of_program {main : Label} {output after : Output} {code : Code}
    (h : program layout root main output = .ok code after) :
    ∃ initial next rest, globals layout root output = .ok initial next ∧
      code = [.ssp (layout.sizeOf none)] ++ strings layout root ++ initial ++ rest := by
  simp only [program, Bind.bind, EStateM.bind] at h
  cases hinitial : globals layout root output with
  | error fault output => simp [hinitial] at h
  | ok initial next =>
    simp only [hinitial] at h
    cases hfunctions : inOrder (function layout) (layout.forest.definitions root) next with
    | error fault output => simp [hfunctions] at h
    | ok functions last =>
      simp only [hfunctions, library] at h
      refine ⟨initial, next, [.mst 0, .cup 0 main, .hlt] ++ functions ++
        (routines last.session (Routine.closure last.used)).1, rfl, ?_⟩
      obtain ⟨rfl, -⟩ := EStateM.Result.ok.inj h
      simp only [List.append_assoc]

/-- A string with a place stands for its address. -/
theorem expression_string {value : String} {slot : Nat} {output : Output}
    (hkind : layout.forest.kind id = .string value (some slot)) :
    expression layout id output = .ok [.lda (layout.depthToFile id) slot] output := by
  simp only [expression, expressionWithin, byKind, hkind]
  rfl

/-- The code of a string, wherever it stands, loads its address over the static links that lead to the
frame of the file. -/
theorem Coded.exists_lda {part : Part} {code : Code} (h : Coded layout root part code) {value : String}
    {slot : Nat} (hkind : layout.forest.kind id = .string value (some slot))
    (hpart : part = .value id ∨ part = .effect id ∨ part = .place id) :
    ∃ depth, layout.forest.outward depth (layout.forest.owningFunction id) = some none ∧
      .lda depth slot ∈ code := by
  -- No other form of expression is a string.
  have hother : ∀ {e : NodeId} {goal : Prop}, e = id → (layout.forest.kind e).isString = false →
      goal := by
    rintro e goal rfl he
    rw [hkind] at he
    cases he
  have hname : ∀ {e d place type}, Names layout root e d place type →
      (layout.forest.kind e).isString = false := by
    intro e d place type hnames
    have hidentifier := hnames.isIdentifier
    cases hk : layout.forest.kind e <;> simp_all [Kind.isIdentifier, Kind.isString]
  induction h with
  | string his hdepth =>
    obtain rfl : _ = id := by simpa using hpart
    rw [his.kind_eq] at hkind
    obtain ⟨-, ⟨⟩⟩ := Kind.string.inj hkind
    exact ⟨_, hdepth, List.mem_singleton_self _⟩
  | drop _ _ _ _ ih =>
    obtain rfl : _ = id := by simpa using hpart
    obtain ⟨depth, hdepth, hmem⟩ := ih (.inl rfl)
    exact ⟨depth, hdepth, List.mem_append_left _ hmem⟩
  | run _ _ _ _ ih =>
    obtain rfl : _ = id := by simpa using hpart
    exact ih (.inl rfl)
  | scalar hnames | array hnames | named hnames => exact hother (by simpa using hpart) (hname hnames)
  | call hcalls =>
    obtain ⟨name, hk⟩ := hcalls.kind_eq
    exact hother (by simpa using hpart) (by rw [hk]; rfl)
  | assignVariable keep his | assignAddress keep his | stepVariable keep his | stepAddress keep his =>
    exact hother (by cases keep <;> simpa [Part.of] using hpart) (by rw [his.kind_eq]; rfl)
  | nil | cons => simp at hpart
  | int his | char his | remainder his | logic his | compare his | arith his | negate his | not his
  | deref his | addressOf his | subscript his | conversion his | element his | pointee his =>
    exact hother (by simpa using hpart) (by rw [his.kind_eq]; rfl)

/-- Code that contains the code of a string loads its address. -/
theorem Holds.exists_lda {code : Code} (h : Holds layout root code id) {value : String} {slot : Nat}
    (hkind : layout.forest.kind id = .string value (some slot)) :
    ∃ depth, layout.forest.outward depth (layout.forest.owningFunction id) = some none ∧
      .lda depth slot ∈ code := by
  cases h with
  | part h =>
    obtain ⟨found, hsub, hcoded | hcoded⟩ := h
    · obtain ⟨depth, hdepth, hmem⟩ := hcoded.exists_lda hkind (.inl rfl)
      exact ⟨depth, hdepth, hsub hmem⟩
    · obtain ⟨depth, hdepth, hmem⟩ := hcoded.exists_lda hkind (.inr (.inr rfl))
      exact ⟨depth, hdepth, hsub hmem⟩
  | effect _ _ hcoded hsub =>
    obtain ⟨depth, hdepth, hmem⟩ := hcoded.exists_lda hkind (.inr (.inl rfl))
    exact ⟨depth, hdepth, hsub hmem⟩
  | declaration hdecl =>
    rw [hkind] at hdecl
    cases hdecl

end Emit

/-! ## The pool of a program -/

namespace Compilation

variable {source : String} (c : Compilation source)

/-- The strings of the program, in the order in which they stand. -/
noncomputable def literals : List NodeId := c.parsed.literals c.root

/-- The strings that the layout places are the ones that were parsed, and keep their texts. -/
theorem literals_eq : c.layout.forest.literals c.root = c.literals ∧
    ∀ id ∈ c.literals, c.layout.forest.text id = c.parsed.text id := by
  have hgrown := c.isLaid.pooled.grown c.isResolved.grown
  have hraw := c.isParsed.raw
  refine ⟨hgrown.literals_eq c.isParsed, fun id hid => hgrown.text_eq ?_⟩
  obtain ⟨hbelow, -⟩ := (mem_literals hraw.ranked).mp hid
  exact hbelow.lt_size hraw.linked c.isParsed.lt_size

/-- How the strings of a program are pooled, if the global variables end in front of `first`. -/
structure Pools (first : Nat) (pool : Code) : Prop where
  /-- The strings stand in the tree in the order in which the source has them. -/
  inOrder : ∃ tokens, Token.scan source = .ok tokens ∧
    c.literals.map c.parsed.text = tokens.filterMap Token.text?
  /-- The global variables fill the frame of the file up to the pool. -/
  globals : Tiled c.layout.slot? c.layout.slots frameHeader
    (c.layout.forest.frameVariables c.root none) first
  /-- The first string starts there, and every other one behind the characters of the one in front of
  it and its closing character. -/
  placed : ∃ stop, Tiled c.layout.pool? (fun id => (c.parsed.text id).length + 1) first c.literals stop
  /-- The pool is filled with the characters of the strings, each string with a closing one. -/
  filled : Stores first (Emit.poolText c.parsed c.literals) (pool.map Instr.line)
  /-- A string is compiled to its address, and its frame loads it. -/
  used : ∀ id ∈ c.literals, ∃ slot, c.layout.pool? id = some slot ∧
    (∀ output, Emit.expression c.layout id output =
      .ok [.lda (c.layout.depthToFile id) slot] output) ∧
    c.layout.forest.outward (c.layout.depthToFile id) (c.layout.forest.owningFunction id) =
      some none ∧
    ∃ frame ∈ c.frames, frame.1 = c.layout.forest.owningFunction id ∧
      .lda (c.layout.depthToFile id) slot ∈ frame.2

/-- A string takes as many slots as it has characters, and one more. -/
theorem chars_eq {id : NodeId} (hid : id ∈ c.literals) :
    c.layout.chars id = (c.parsed.text id).length + 1 := by
  obtain ⟨hliterals, htext⟩ := c.literals_eq
  obtain ⟨-, hstring⟩ :=
    (mem_literals c.isLaid.sound.whole.ranked).mp (hliterals ▸ hid)
  obtain ⟨value, pool, hkind⟩ := Kind.isString_iff.mp hstring
  rw [← htext id hid, text, Layout.chars, hkind]
  rfl

/-- The frame of a string loads its address. -/
theorem exists_frame_lda {id slot : NodeId} (hid : id ∈ c.literals)
    (hslot : c.layout.pool? id = some slot) :
    c.layout.forest.outward (c.layout.depthToFile id) (c.layout.forest.owningFunction id) =
      some none ∧
    ∃ frame ∈ c.frames, frame.1 = c.layout.forest.owningFunction id ∧
      .lda (c.layout.depthToFile id) slot ∈ frame.2 := by
  have hwhole := c.isLaid.sound.whole
  obtain ⟨hbelow, hstring⟩ := (mem_literals hwhole.ranked).mp (c.literals_eq.1 ▸ hid)
  obtain ⟨value, pool, hkind⟩ := Kind.isString_iff.mp hstring
  obtain rfl : pool = some slot := by rwa [Layout.pool?, hkind, Kind.pool?] at hslot
  have hrole : c.layout.forest.role id = .expression := by rw [role, hkind]; rfl
  have houtward := c.isLaid.outward_depthToFile hbelow hrole
  refine ⟨houtward, ?_⟩
  -- The string stands in the code of a frame.
  obtain ⟨hframe, -⟩ := hwhole.exists_frameCode hbelow (by rw [hrole]; exact not_false)
  have hmem : c.layout.forest.owningFunction id ∈ c.frames.map (·.1) := by
    rw [c.frames_eq.2]
    cases howner : c.layout.forest.owningFunction id with
    | none => exact List.mem_cons_self
    | some f => exact List.mem_cons_of_mem _ (List.mem_map_of_mem (hframe f howner))
  obtain ⟨frame, hframes, howner⟩ := List.mem_map.mp hmem
  have hsought : Emit.Sought c.layout.forest frame.1 id :=
    ⟨.inl ⟨hrole, by rw [hkind]; rfl⟩, howner.symm⟩
  obtain ⟨depth, hdepth, hlda⟩ :=
    (c.isLaid.holds_frame c.isRight hframes hsought hbelow).exists_lda hkind
  obtain rfl := outward_injective hwhole.linked hwhole.ranked hdepth houtward
  exact ⟨frame, hframes, howner, hlda⟩

/-- A string is compiled to its address, wherever the compilation is. -/
theorem expression_eq {id slot : NodeId} (hid : id ∈ c.literals)
    (hslot : c.layout.pool? id = some slot) (output : Output) :
    Emit.expression c.layout id output = .ok [.lda (c.layout.depthToFile id) slot] output := by
  obtain ⟨-, hstring⟩ := (mem_literals c.isLaid.sound.whole.ranked).mp (c.literals_eq.1 ▸ hid)
  obtain ⟨value, pool, hkind⟩ := Kind.isString_iff.mp hstring
  obtain rfl : pool = some slot := by rwa [Layout.pool?, hkind, Kind.pool?] at hslot
  exact Emit.expression_string hkind

/-- The strings of the program are pooled, and the pool is the code that stores them. -/
theorem exists_pools : ∃ first, c.Pools first (Emit.strings c.layout c.root) := by
  obtain ⟨hliterals, htext⟩ := c.literals_eq
  obtain ⟨first, stop, hframed⟩ := c.isLaid.framed none isFrame_none
  have hstrings : Tiled c.layout.pool? c.layout.chars first c.literals stop := by
    rw [← hliterals]
    exact hframed.strings
  refine ⟨first, ?_, hframed.slots, ⟨stop, ?_⟩, ?_, fun id hid => ?_⟩
  · obtain ⟨tokens, hscan, htexts⟩ := Grammar.texts_of_read c.read_eq c.root_eq
    exact ⟨tokens, hscan, (texts_contents c.isParsed.raw.ranked c.root).symm.trans htexts⟩
  · exact hstrings.congr fun id hid => ⟨rfl, (c.chars_eq hid).symm⟩
  · have hpool : Emit.poolText c.layout.forest (c.layout.forest.literals c.root) =
        Emit.poolText c.parsed c.literals := by
      rw [hliterals, Emit.poolText, Emit.poolText, List.flatMap_def, List.flatMap_def]
      exact congrArg List.flatten (List.map_congr_left fun id hid => by rw [htext id hid])
    rw [Emit.strings_eq hframed.strings, hpool]
    exact Emit.stores_storeChars first _
  · obtain ⟨slot, hslot, -⟩ := hstrings.bounds hid
    exact ⟨slot, hslot, c.expression_eq hid hslot, c.exists_frame_lda hid hslot⟩

/-- The code of the program fills the pool first, and then the global variables. -/
theorem exists_code : ∃ initial output rest,
    Emit.globals c.layout c.root { session := c.resolution.session } = .ok initial output ∧
    c.program.code =
      [.ssp (c.layout.sizeOf none)] ++ Emit.strings c.layout c.root ++ initial ++ rest := by
  have hroot : c.resolution.forest.root = some c.root := c.isResolved.grown.root_eq.trans c.root_eq
  have hcompile := c.compile_eq
  simp only [Emit.compile, hroot, Bind.bind, Except.bind] at hcompile
  cases hmain : Emit.mainLabel c.resolution.forest c.resolution.table c.root with
  | error fault => simp [hmain] at hcompile
  | ok main =>
    cases hlayout : Layout.ofProgram c.resolution.forest c.resolution.table c.root with
    | error fault => simp [hmain, hlayout] at hcompile
    | ok layout =>
      simp only [hmain, hlayout] at hcompile
      split at hcompile
      · next code output hprogram =>
        obtain hcompiled : _ = c.compiled := Except.ok.inj hcompile
        have hcode : code = c.program.code := by rw [program, ← hcompiled]
        obtain rfl : layout = c.layout := by rw [Compilation.layout, ← hcompiled]
        obtain ⟨initial, next, rest, hinitial, heq⟩ := Emit.code_of_program hprogram
        exact ⟨initial, next, rest, hinitial, hcode ▸ heq⟩
      · cases hcompile

end Compilation

end MiniC
