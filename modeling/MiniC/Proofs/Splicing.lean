import MiniC.Proofs.Grammar.Statement
import MiniC.Proofs.Resolve.Passes
import MiniC.Proofs.Tree.Contract
import MiniC.Proofs.Tree.Walk

/-!
# Resolution only annotates and splices

Resolution works on one forest and may be refused at any of its steps. Whatever it leaves behind is
the forest that was parsed, with annotations, and with conversions between some expressions and
their parents.
-/

namespace MiniC

open Forest

/-- The forest that the resolution of a parsed one leaves behind, whether it succeeds or not. -/
def Resolve.leftOver (parsed : Forest) (root : NodeId) (session : Session) : Forest :=
  match file root { forest := parsed, session } with
  | .ok _ resolution | .error _ resolution => resolution.forest

/-- The second forest is the first one, annotated and with conversions spliced in. -/
structure Forest.AnnotatedWithConversions (before after : Forest) (root : NodeId) : Prop where
  /-- Every child names its owner as its parent. -/
  isLinked : after.isLinked = true
  /-- A walk from the root meets every node below the root, and meets it once. -/
  count_preorder : ∀ n, after.Below n root → (after.preorder root).count n = 1
  /-- Without conversions the tree is the one that was there before. -/
  contract_tree : (after.tree root).contract = before.tree root
  /-- Every node that has been added is a conversion of one node. -/
  added : ∀ m : Nat, before.size ≤ m → m < after.size →
    ∃ change inner, after.kind m = .conversion change ∧ after.children m = [inner]
  root_eq : after.root = before.root
  /-- No two conversions share a child. -/
  unshared : ∀ w w' c, (after.kind w).isConversion → (after.kind w').isConversion →
    c ∈ after.children w → c ∈ after.children w' → w = w'

namespace Forest

variable {forest other : Forest} {root : NodeId}

theorem Outgrown.annotatedWithConversions (h : Outgrown forest other) (hraw : forest.Raw)
    (hroot : root < forest.size) : AnnotatedWithConversions forest other root where
  isLinked := h.woven.linked.isLinked
  count_preorder _ hn :=
    List.count_eq_one_of_mem (nodup_preorder h.woven.linked h.woven.ranked)
      ((mem_preorder h.woven.ranked).mpr hn)
  contract_tree :=
    h.contract_tree ⟨hraw.linked, hraw.ranked⟩
      (fun m => Kind.isConversion_of_fresh (hraw.fresh m).kind) hroot (.refl root)
  added m hle hlt := by
    obtain ⟨change, inner, hkind, hchildren, -⟩ := h.wrapper m hle hlt
    exact ⟨change, inner, hkind, hchildren⟩
  root_eq := h.root_eq
  unshared _ _ _ _ _ hc hc' :=
    Option.some.inj
      ((h.woven.linked.parent_of_mem hc).symm.trans (h.woven.linked.parent_of_mem hc'))

end Forest

/-- What the resolution of a program leaves behind has grown out of what was parsed. -/
theorem Resolve.outgrown_leftOver {parsed : Forest} (root : NodeId) (session : Session)
    (hw : parsed.Woven) : Outgrown parsed (leftOver parsed root session) := by
  have hstart : Passes { forest := parsed, session } { forest := parsed, session } :=
    ⟨.refl hw, .refl _⟩
  unfold leftOver
  cases hrun : file root { forest := parsed, session } with
  | ok value resolution => exact ((passing_file root _).done hstart hrun).1.grown
  | error fault resolution => exact (passing_file root _).stopped hstart hrun

/-- A resolution that succeeds answers the forest that it leaves behind. -/
theorem Resolve.forest_of_program {parsed : Forest} {root : NodeId} {session : Session}
    {resolution : Resolution} (hroot : parsed.root = some root)
    (h : program parsed session = .ok resolution) :
    resolution.forest = leftOver parsed root session := by
  simp only [program, hroot] at h
  unfold leftOver
  cases hrun : file root { forest := parsed, session } with
  | ok value behind =>
    rw [hrun] at h
    cases h
    rfl
  | error fault behind =>
    rw [hrun] at h
    cases h

/-- Whether the resolution of a program succeeds or is refused anywhere on the way, it leaves behind
what was parsed, annotated and with conversions spliced in. -/
theorem resolution_only_annotates_and_splices {source : String} {parsed : Forest}
    (session : Session) (hread : Grammar.read source = .ok parsed) :
    ∃ root, parsed.root = some root ∧
      parsed.AnnotatedWithConversions (Resolve.leftOver parsed root session) root ∧
      ∀ resolution, Resolve.program parsed session = .ok resolution →
        resolution.forest = Resolve.leftOver parsed root session := by
  rcases Grammar.read_cases source with ⟨parsed', root, hread', hparsed⟩ | ⟨fault, hread', -⟩
  · obtain rfl : parsed' = parsed := Except.ok.inj (hread'.symm.trans hread)
    have hsize : root < parsed'.size := by
      by_contra hle
      have hrole := hparsed.role_root
      rw [role, kind, node_of_size_le (Nat.le_of_not_lt hle)] at hrole
      cases hrole
    have hw : parsed'.Woven := ⟨hparsed.raw.linked, hparsed.raw.ranked⟩
    exact ⟨root, hparsed.root_eq,
      (Resolve.outgrown_leftOver root session hw).annotatedWithConversions hparsed.raw hsize,
      fun _ => Resolve.forest_of_program hparsed.root_eq⟩
  · cases hread'.symm.trans hread

/-- A program that is refused at its last name, behind an operand that has been converted. -/
def brokenOff : String := "void main() \x7b char c; c = 'a' + 1 * c; c = missing; \x7d"

theorem resolution_only_annotates_and_splices_broken_off :
    ∃ parsed root, Grammar.read brokenOff = .ok parsed ∧
      (Resolve.program parsed {}).isOk = false ∧
      parsed.size < (Resolve.leftOver parsed root {}).size ∧
      parsed.AnnotatedWithConversions (Resolve.leftOver parsed root {}) root := by
  have hrun : (Grammar.read brokenOff).toOption.any (fun parsed =>
      !(Resolve.program parsed {}).isOk && parsed.root.any fun root =>
        decide (parsed.size < (Resolve.leftOver parsed root {}).size)) = true := by decide +kernel
  cases hread : Grammar.read brokenOff with
  | error fault => simp [hread, Except.toOption] at hrun
  | ok parsed =>
    obtain ⟨root, hroot, h, -⟩ := resolution_only_annotates_and_splices {} hread
    simp only [hread, Except.toOption, hroot, Option.any_some, Bool.and_eq_true, Bool.not_eq_true',
      decide_eq_true_eq] at hrun
    exact ⟨parsed, root, rfl, hrun.1, hrun.2, h⟩

end MiniC
