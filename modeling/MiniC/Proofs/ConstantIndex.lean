import MiniC.Proofs.Resolve.Sound
import MiniC.Proofs.RoundTrip
import MiniC.Proofs.Splicing

/-!
# Constant indices lie in their arrays

An index of an array is looked at once its casts have been carried out and before it is made an integer.
If it is an integer literal under minus signs, its exact value has to lie in the array, and nothing else is
refused for being out of range. A literal with a sign that has no result in 64 bits is no constant: it is
let pass, wherever it leads.
-/

namespace MiniC

open Forest

variable {parsed forest : Forest} {root n top : NodeId} {size signs : Nat} {value literal : Int}

/-! ## Literals under signs -/

namespace Forest

/-- Nothing is put in between signs and a literal, so they are signs and a literal as parsed. -/
theorem Outgrown.signed_parsed (h : Outgrown parsed forest) (hraw : parsed.Raw) {e : Nat}
    (hs : forest.Signed e signs literal) : e < parsed.size → parsed.Signed e signs literal := by
  induction hs with
  | literal hkind =>
    intro he
    exact .literal (by rw [h.kind_eq hraw he, hkind]; rfl)
  | minus hkind hchild hoperand ih =>
    intro he
    obtain ⟨c, hc, hmem, hstands⟩ := h.exists_child he hchild
    cases hstands with
    | refl =>
      refine .minus ?_ hc (ih (hraw.linked.lt_size hmem))
      rw [h.kind_eq hraw he, hkind]
      rfl
    | wrap hconversion =>
      have hplain := hoperand.not_conversion
      rw [hconversion] at hplain
      cases hplain

/-- Of the literals that can have been read only the least one has an opposite that does not fit. -/
theorem Indexes.overflows_iff (hi : forest.Indexes parsed n top size) (h : Outgrown parsed forest)
    (hraw : parsed.Raw) (hbounded : Tree.IsBounded (parsed.contents root)) (hn : parsed.Below n root)
    (hs : forest.Signed top signs literal) :
    Literal.Overflows signs literal ↔ 0 < signs ∧ literal = Literal.least := by
  obtain ⟨slot, e, type, -, -, he, hcast, -⟩ := hi.index
  obtain ⟨own, path, -, -, hstacked⟩ := hcast.carried
  obtain rfl := hstacked.eq_of_plain hs.not_conversion
  have hmem := List.mem_of_getElem? he
  have hparsed := h.signed_parsed hraw hs (hraw.linked.lt_size hmem)
  obtain ⟨hleast, hgreatest⟩ := hparsed.bounds hraw.ranked
    (isBounded_contents hraw.ranked ((Below.of_mem hmem).trans hn) hbounded)
  exact Literal.overflows_iff hleast hgreatest

end Forest

/-! ## Indices in programs -/

/-- A constant index of an array lies in it, once resolution has succeeded. -/
theorem Resolved.index_lt {resolution : Resolution} (h : Resolved parsed root resolution)
    (hparsed : parsed.Parsed root) (hn : parsed.Below n root)
    (hi : resolution.forest.Indexes parsed n top size)
    (hvalue : resolution.forest.Constant top value) : 0 ≤ value ∧ value < size := by
  have hraw := hparsed.raw
  obtain ⟨base, element, constant, hbase, harray⟩ := hi.base
  obtain ⟨slot, e, type, hslot, -, he, hcast, -⟩ := hi.index
  have hlt : n < parsed.size := lt_size_of_mem_children (List.mem_of_getElem? he)
  have hkind : resolution.forest.kind n = .subscript := by
    have hbare := h.grown.bare n hlt
    rw [hi.kind] at hbare
    cases hk : resolution.forest.kind n <;> simp_all [Kind.bare]
  have hrole : resolution.forest.role n = .expression := by rw [role, hkind]; rfl
  obtain ⟨type', htype⟩ :=
    Option.ne_none_iff_exists'.mp (h.placed hparsed (h.below_of_parsed hn) hrole).1
  have hoperands := (h.typed n type' hrole htype).operands
  simp only [OperandsRule, hkind] at hoperands
  obtain ⟨base', slot', first, second, top₀, top', b, i, element', size', hparts, helements, hfirst, -,
    hsecond, hrange⟩ := hoperands
  have hslots : resolution.forest.child? n 0 = some base' ∧
      resolution.forest.child? n 1 = some slot' := by simp [child?, hparts]
  obtain rfl : base' = base := Option.some.inj (hslots.1.symm.trans hbase)
  obtain rfl : slot' = slot := Option.some.inj (hslots.2.symm.trans hslot)
  -- The rule is about the same array and the same index.
  obtain rfl := hfirst.top_eq
  obtain rfl : b = .array element size constant :=
    Option.some.inj (hfirst.cast.type.symm.trans harray)
  obtain ⟨rfl, rfl⟩ : element = element' ∧ some size = size' := by
    simpa [Resolve.elements?] using helements
  obtain rfl : second = e :=
    Option.some.inj ((h.grown.child?_of_supplied hraw hlt hslots.2 hsecond).symm.trans he)
  obtain rfl := hsecond.cast.unique h.grown.linked hcast
  exact hrange size rfl value hvalue

/-- A program that is refused for an index has a subscript of an array with a constant index that does
not lie in the array, and that is where resolution has stopped. -/
theorem Resolve.exists_outside (hparsed : parsed.Parsed root) {session : Session} {line : Nat}
    (h : program parsed session = .error ⟨.indexOutOfRange value size, line⟩) :
    ∃ n top, parsed.Below n root ∧ parsed.line n = line ∧
      (leftOver parsed root session).type? n = none ∧
      (leftOver parsed root session).Indexes parsed n top size ∧
      (leftOver parsed root session).Constant top value ∧ ¬(0 ≤ value ∧ value < size) := by
  obtain ⟨stopped, hrun, hrefused⟩ := refused_of_program hparsed h
  obtain ⟨n, top, ⟨root', hroot', -, hbelow⟩, hline, hfound⟩ := hrefused.index value size rfl
  obtain rfl : root' = root := Option.some.inj (hroot'.symm.trans hparsed.root_eq)
  refine ⟨n, top, hbelow, hline, ?_⟩
  rw [leftOver, hrun]
  exact hfound

/-- In a resolved program, an index of an array that is an integer literal under minus signs has an exact
value that lies in the array, unless it is the least integer under a sign. A program is refused for an index
only at a subscript whose index is such a literal, with a value that does not lie in the array. -/
theorem constant_indices_lie_in_arrays {source : String} (session : Session)
    (hread : Grammar.read source = .ok parsed) :
    ∃ root, parsed.root = some root ∧
      (∀ resolution, Resolve.program parsed session = .ok resolution →
        ∀ n top size signs literal, parsed.Below n root →
          resolution.forest.Indexes parsed n top size →
          resolution.forest.Signed top signs literal → ¬(0 < signs ∧ literal = Literal.least) →
          0 ≤ Literal.signed signs literal ∧ Literal.signed signs literal < size) ∧
      ∀ value size line,
        Resolve.program parsed session = .error ⟨.indexOutOfRange value size, line⟩ →
        ∃ n top signs literal, parsed.Below n root ∧ parsed.line n = line ∧
          (Resolve.leftOver parsed root session).type? n = none ∧
          (Resolve.leftOver parsed root session).Indexes parsed n top size ∧
          (Resolve.leftOver parsed root session).Signed top signs literal ∧
          ¬(0 < signs ∧ literal = Literal.least) ∧ value = Literal.signed signs literal ∧
          ¬(0 ≤ value ∧ value < size) := by
  rcases Grammar.read_cases source with ⟨parsed', root, hread', hparsed⟩ | ⟨fault, hread', -⟩
  · obtain rfl : parsed' = parsed := Except.ok.inj (hread'.symm.trans hread)
    obtain ⟨root', declarations, hroot', hcontents, hfile⟩ := Grammar.isFile_of_read hread
    obtain rfl : root' = root := Option.some.inj (hroot'.symm.trans hparsed.root_eq)
    have hbounded : Tree.IsBounded (parsed'.contents root') := hcontents ▸ hfile.isBounded
    have hoverflows : ∀ {n top size signs literal}, parsed'.Below n root' →
        (Resolve.leftOver parsed' root' session).Indexes parsed' n top size →
        (Resolve.leftOver parsed' root' session).Signed top signs literal →
        (Literal.Overflows signs literal ↔ 0 < signs ∧ literal = Literal.least) :=
      fun hn hi hsigned => hi.overflows_iff
        (Resolve.outgrown_leftOver root' session ⟨hparsed.raw.linked, hparsed.raw.ranked⟩) hparsed.raw
        hbounded hn hsigned
    refine ⟨root', hroot', ?_, fun value size line hrefused => ?_⟩
    · intro resolution hresolve n top size signs literal hn hi hsigned hleast
      rcases Resolve.program_cases hparsed session with
        ⟨resolution', hresolve', h, -⟩ | ⟨fault, hresolve', -⟩
      · obtain rfl : resolution' = resolution := Except.ok.inj (hresolve'.symm.trans hresolve)
        refine h.index_lt hparsed hn hi ⟨signs, literal, hsigned, ?_, rfl⟩
        rw [Resolve.forest_of_program hroot' hresolve] at hi hsigned
        rwa [hoverflows hn hi hsigned]
      · cases hresolve'.symm.trans hresolve
    · obtain ⟨n, top, hn, hline, hstopped, hi, ⟨signs, literal, hsigned, hfits, hvalue⟩, hout⟩ :=
        Resolve.exists_outside hparsed hrefused
      rw [hoverflows hn hi hsigned] at hfits
      exact ⟨n, top, signs, literal, hn, hline, hstopped, hi, hsigned, hfits, hvalue, hout⟩
  · cases hread'.symm.trans hread

/-- A program with constant indices, some of them under signs or a cast, and with others. -/
def indexingInside : String :=
  "int a[3]; void main() \x7b int i; a[0] = a[-(-2)]; a[(int)1] = a[-(0)] + a[i] + a['c']; \x7d"

/-- A program with a constant index that does not lie in its array. -/
def indexingOutside : String := "void main() \x7b int a[2];\n a[1] = a[- -2]; \x7d"

theorem constant_indices_lie_in_arrays_inside :
    (∃ parsed resolution root, Grammar.read indexingInside = .ok parsed ∧
      parsed.root = some root ∧ Resolve.program parsed {} = .ok resolution ∧
      ∀ n top size signs literal, parsed.Below n root → resolution.forest.Indexes parsed n top size →
        resolution.forest.Signed top signs literal → ¬(0 < signs ∧ literal = Literal.least) →
        0 ≤ Literal.signed signs literal ∧ Literal.signed signs literal < size) ∧
    ∃ parsed root n top signs literal, Grammar.read indexingOutside = .ok parsed ∧
      Resolve.program parsed {} = .error ⟨.indexOutOfRange 2 2, 2⟩ ∧
      parsed.Below n root ∧ parsed.line n = 2 ∧
      (Resolve.leftOver parsed root {}).Indexes parsed n top 2 ∧
      (Resolve.leftOver parsed root {}).Signed top signs literal ∧
      2 = Literal.signed signs literal := by
  have hrun : ((Grammar.read indexingInside).bind (Resolve.program · {})).isOk := by decide +kernel
  have hrefused : (Grammar.read indexingOutside).toOption.map (fun parsed =>
      (Resolve.program parsed {}).map fun _ => ()) =
      some (.error ⟨.indexOutOfRange 2 2, 2⟩) := by decide +kernel
  constructor
  · cases hread : Grammar.read indexingInside with
    | error fault => simp [hread, Except.bind, Except.isOk, Except.toBool] at hrun
    | ok parsed =>
      cases hresolve : Resolve.program parsed {} with
      | error fault => simp [hread, hresolve, Except.bind, Except.isOk, Except.toBool] at hrun
      | ok resolution =>
        obtain ⟨root, hroot, h, -⟩ := constant_indices_lie_in_arrays {} hread
        exact ⟨parsed, resolution, root, rfl, hroot, hresolve, h resolution hresolve⟩
  · cases hread : Grammar.read indexingOutside with
    | error fault => simp [hread, Except.toOption] at hrefused
    | ok parsed =>
      obtain ⟨root, -, -, h⟩ := constant_indices_lie_in_arrays {} hread
      cases hresolve : Resolve.program parsed {} with
      | ok resolution => simp [hread, Except.toOption, hresolve, Except.map] at hrefused
      | error fault =>
        simp only [hread, Except.toOption, hresolve, Except.map, Option.map_some, Option.some.injEq,
          Except.error.injEq] at hrefused
        obtain ⟨n, top, signs, literal, hn, hline, -, hi, hsigned, -, hvalue, -⟩ :=
          h 2 2 2 (hrefused ▸ hresolve)
        exact ⟨parsed, root, n, top, signs, literal, rfl, hrefused ▸ hresolve, hn, hline, hi, hsigned,
          hvalue⟩

/-- A program with an index that is the least integer under two signs, the first of which has no result in
64 bits. -/
def indexingFarBelow : String :=
  "void main() \x7b int a[2]; a[- - -9223372036854775808] = 1; \x7d"

/-- Such an index is let pass, although it does not lie in the array. -/
theorem overflowing_index_passes :
    ∃ parsed resolution root n top, Grammar.read indexingFarBelow = .ok parsed ∧
      parsed.root = some root ∧ Resolve.program parsed {} = .ok resolution ∧
      parsed.Below n root ∧ resolution.forest.Indexes parsed n top 2 ∧
      resolution.forest.Signed top 2 Literal.least ∧
      ¬(0 ≤ Literal.signed 2 Literal.least ∧ Literal.signed 2 Literal.least < 2) := by
  have hrun : (Grammar.read indexingFarBelow).toOption.any (fun parsed =>
      (Resolve.program parsed {}).toOption.any fun resolution => parsed.root.any fun root =>
        (parsed.preorder root).any fun n => decide (parsed.kind n = .subscript) &&
          (resolution.forest.child? n 0).any (fun base =>
            decide (resolution.forest.type? base = some (.array .int 2 false))) &&
          (resolution.forest.child? n 1).any fun top =>
            decide (parsed.child? n 1 = some top) &&
              decide (resolution.forest.type? top = some .int) &&
              decide ((parsed.node top).casts = []) &&
              decide (resolution.forest.kind top = .unary .negate) &&
              (resolution.forest.child? top 0).any fun inner =>
                decide (resolution.forest.kind inner = .unary .negate) &&
                  (resolution.forest.child? inner 0).any fun literal =>
                    decide (resolution.forest.kind literal = .int Literal.least)) = true := by
    decide +kernel
  cases hread : Grammar.read indexingFarBelow with
  | error fault => simp [hread, Except.toOption] at hrun
  | ok parsed =>
    rcases Grammar.read_cases indexingFarBelow with
      ⟨parsed', root', hread', hparsed⟩ | ⟨fault, hread', -⟩
    · obtain rfl : parsed' = parsed := Except.ok.inj (hread'.symm.trans hread)
      cases hresolve : Resolve.program parsed' {} with
      | error fault => simp [hread, hresolve, Except.toOption] at hrun
      | ok resolution =>
        simp only [hread, hresolve, Except.toOption, hparsed.root_eq, Option.any_some, List.any_eq_true,
          Bool.and_eq_true, decide_eq_true_eq, Option.any_eq_true] at hrun
        obtain ⟨n, hn, ⟨hkind, base, hbase, harray⟩, top, htop, ⟨⟨⟨hchild, htype⟩, hcasts⟩, hminus⟩,
          inner, hinner, hminus', literal, hliteral, hleast⟩ := hrun
        have hsigned : resolution.forest.Signed top 2 Literal.least :=
          .minus hminus hinner (.minus hminus' hliteral (.literal hleast))
        have hcast : resolution.forest.Cast parsed' top top .int := by
          refine ⟨by rw [role, hminus]; rfl, by rw [hminus]; rfl,
            ⟨.int, [], htype, ?_, .refl top⟩, htype⟩
          rw [hcasts, Ty.route?_nil]
        exact ⟨parsed', resolution, root', n, top, rfl, hparsed.root_eq, hresolve,
          (mem_preorder hparsed.raw.ranked).mp hn,
          ⟨hkind, ⟨base, .int, false, hbase, harray⟩,
            ⟨top, top, .int, htop, .refl, hchild, hcast, rfl⟩⟩, hsigned, by decide⟩
    · cases hread'.symm.trans hread

end MiniC
