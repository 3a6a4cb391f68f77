import MiniC.Proofs.Resolve.Sound
import MiniC.Proofs.Resolve.Stray
import MiniC.Proofs.Splicing

/-!
# Jumps bind to the nearest loop

In a resolved program every `break` leads behind the nearest loop around it, and every `continue` to the
next round of that loop; no other node has the label. A jump without such a loop is refused as soon as
resolution reaches it, and only such a jump is.
-/

namespace MiniC

open Forest

variable {parsed : Forest} {root j : NodeId} {resolution : Resolution}

namespace Kind

/-- The label behind a loop. -/
def endLabel? : Kind → Option Machine.Label
  | whileLoop (some labels) => some labels.finish
  | forLoop (some labels) => some labels.finish
  | _ => none

/-- The label of the next round of a loop: the start of a `while` loop, and what continues a `for`
loop. -/
def roundLabel? : Kind → Option Machine.Label
  | whileLoop (some labels) => some labels.start
  | forLoop (some labels) => some labels.next
  | _ => none

theorem jumpTarget?_true (kind : Kind) : Resolve.jumpTarget? kind true = kind.endLabel? := by
  cases kind with
  | whileLoop labels | forLoop labels => cases labels <;> rfl
  | _ => rfl

theorem jumpTarget?_false (kind : Kind) : Resolve.jumpTarget? kind false = kind.roundLabel? := by
  cases kind with
  | whileLoop labels | forLoop labels => cases labels <;> rfl
  | _ => rfl

theorem mem_ownLabels_of_jumpTarget? {kind : Kind} {leaving : Bool} {label : Machine.Label}
    (h : Resolve.jumpTarget? kind leaving = some label) : label ∈ kind.ownLabels := by
  cases kind with
  | whileLoop labels | forLoop labels =>
    cases labels <;> cases leaving <;> simp_all [Resolve.jumpTarget?, ownLabels]
  | _ => cases h

end Kind

/-- The label is the one that `label?` picks of the nearest loop around `j`, and no other node has
it. The loop is the nearest one before resolution and afterwards. -/
structure LabelOfNearest (parsed resolved : Forest) (label? : Kind → Option Machine.Label)
    (j loop : NodeId) (label : Machine.Label) : Prop where
  before : parsed.NearestLoop loop j
  after : resolved.NearestLoop loop j
  label_eq : label? (resolved.kind loop) = some label
  alone : ∀ m, m ≠ loop → label ∉ (resolved.kind m).ownLabels

/-- Every jump of the program is bound to the nearest loop around it. -/
structure BoundToNearest (parsed : Forest) (root : NodeId) (resolved : Forest) : Prop where
  breakOut : ∀ j target, parsed.Below j root → parsed.kind j = .breakOut target →
    ∃ loop label, resolved.kind j = .breakOut (some label) ∧
      LabelOfNearest parsed resolved Kind.endLabel? j loop label
  continueOn : ∀ j target, parsed.Below j root → parsed.kind j = .continueOn target →
    ∃ loop label, resolved.kind j = .continueOn (some label) ∧
      LabelOfNearest parsed resolved Kind.roundLabel? j loop label

namespace Resolved

variable (hparsed : parsed.Parsed root) (h : Resolved parsed root resolution)

include hparsed h

/-- The label that a jump takes from the loop around it. -/
theorem labelOfNearest {label? : Kind → Option Machine.Label} {leaving : Bool} {loop : NodeId}
    {label : Machine.Label} (hpick : ∀ kind, Resolve.jumpTarget? kind leaving = label? kind)
    (hj : (j : Nat) < parsed.size) (hrole : parsed.role j ≠ .expression)
    (hloop : parsed.enclosingLoop j = some loop)
    (htarget : Resolve.jumpTarget? (resolution.forest.kind loop) leaving = some label) :
    LabelOfNearest parsed resolution.forest label? j loop label where
  before := nearestLoop_of_enclosingLoop hparsed.raw.linked hparsed.raw.ranked hloop
  after := by
    refine nearestLoop_of_enclosingLoop h.grown.linked h.grown.ranked ?_
    rw [h.enclosingLoop_eq hparsed hj (by rwa [h.grown.role_eq hj]), hloop]
  label_eq := (hpick _).symm.trans htarget
  alone m hne hother :=
    hne (h.labelled.apart m loop label hother (Kind.mem_ownLabels_of_jumpTarget? htarget))

theorem boundToNearest : BoundToNearest parsed root resolution.forest := by
  have hsettled : ∀ j, parsed.Below j root → parsed.role j = .statement →
      (j : Nat) < parsed.size ∧ StatementRule parsed resolution.table resolution.forest j :=
    fun j hj hrole => ⟨hj.lt_size hparsed.raw.linked hparsed.lt_size,
      (h.settled j hj (by rw [hrole]; trivial)).rule⟩
  constructor
  · intro j target hj hkind
    have hrole : parsed.role j = .statement := by rw [role, hkind]; rfl
    obtain ⟨hlt, hrule⟩ := hsettled j hj hrole
    obtain ⟨found, hfound⟩ : ∃ found, resolution.forest.kind j = .breakOut found := by
      have hbare := h.grown.bare j hlt
      rw [hkind] at hbare
      cases hk : resolution.forest.kind j <;> simp_all [Kind.bare]
    rw [StatementRule, hfound] at hrule
    obtain ⟨loop, label, hloop, htarget, rfl⟩ := hrule
    exact ⟨loop, label, hfound,
      h.labelOfNearest hparsed Kind.jumpTarget?_true hlt (by simp [hrole]) hloop htarget⟩
  · intro j target hj hkind
    have hrole : parsed.role j = .statement := by rw [role, hkind]; rfl
    obtain ⟨hlt, hrule⟩ := hsettled j hj hrole
    obtain ⟨found, hfound⟩ : ∃ found, resolution.forest.kind j = .continueOn found := by
      have hbare := h.grown.bare j hlt
      rw [hkind] at hbare
      cases hk : resolution.forest.kind j <;> simp_all [Kind.bare]
    rw [StatementRule, hfound] at hrule
    obtain ⟨loop, label, hloop, htarget, rfl⟩ := hrule
    exact ⟨loop, label, hfound,
      h.labelOfNearest hparsed Kind.jumpTarget?_false hlt (by simp [hrole]) hloop htarget⟩

end Resolved

namespace Resolve

/-- Resolution comes to the node: it notes there how many scopes are open, and the file is one. -/
def Reaches (parsed : Forest) (root : NodeId) (session : Session) (j : NodeId) : Prop :=
  ((leftOver parsed root session).node j).scope ≠ 0

variable {session : Session} {word : String}

/-- A stray jump that is reached is what the program is refused for. -/
theorem program_of_reached (hparsed : parsed.Parsed root) (hj : parsed.Stray j word)
    (hreached : Reaches parsed root session j) :
    program parsed session = .error ⟨.jumpOutsideLoop word, parsed.line j⟩ := by
  have hfresh : ∀ j, (parsed.node j).scope = 0 := fun j => (hparsed.raw.fresh j).scope
  rw [program, hparsed.root_eq]
  rw [Reaches, leftOver] at hreached
  rcases file_cases hparsed session with ⟨last, hrun, hnone⟩ | ⟨fault, last, hrun, hhalts⟩
  · rw [hrun] at hreached
    exact absurd (hnone j word hj) hreached
  · rw [hrun] at hreached
    simp only [hrun]
    cases hhalts with
    | clear _ hscope => exact absurd ((hscope j word hj).trans (hfresh j)) hreached
    | @stray k word' hk hfault _ hothers =>
      by_cases hne : j = k
      · subst hne
        obtain rfl : word' = word := Option.some.inj (hk.jump.symm.trans hj.jump)
        rw [hfault]
      · exact absurd ((hothers j word hj hne).trans (hfresh j)) hreached

/-- A program that is refused for a jump has a stray one, and resolution has come to it. -/
theorem exists_reached (hparsed : parsed.Parsed root) {line : Nat}
    (h : program parsed session = .error ⟨.jumpOutsideLoop word, line⟩) :
    ∃ j, parsed.Stray j word ∧ parsed.line j = line ∧ Reaches parsed root session j := by
  rw [program, hparsed.root_eq] at h
  rcases file_cases hparsed session with ⟨last, hrun, -⟩ | ⟨fault, last, hrun, hhalts⟩
  · simp [hrun] at h
  · simp only [hrun, Except.error.injEq] at h
    subst h
    cases hhalts with
    | clear hcause _ => cases hcause
    | @stray k word' hk hfault hreached _ =>
      simp only [Fault.mk.injEq, Cause.jumpOutsideLoop.injEq] at hfault
      obtain ⟨rfl, hline⟩ := hfault
      exact ⟨k, hk, hline.symm, by rwa [Reaches, leftOver, hrun]⟩

end Resolve

/-- In a program that is resolved every `break` and every `continue` has a loop around it in its
function, and the label that it leads to is the one of the nearest such loop and of no other node. A
program in which resolution reaches a jump without such a loop is refused for it, on its line, and no
program is refused so for anything else. -/
theorem jumps_bind_to_nearest_loop {source : String} (session : Session)
    (hread : Grammar.read source = .ok parsed) :
    ∃ root, parsed.root = some root ∧
      (∀ resolution, Resolve.program parsed session = .ok resolution →
        BoundToNearest parsed root resolution.forest) ∧
      (∀ j word, parsed.Stray j word → Resolve.Reaches parsed root session j →
        Resolve.program parsed session = .error ⟨.jumpOutsideLoop word, parsed.line j⟩) ∧
      ∀ word line, Resolve.program parsed session = .error ⟨.jumpOutsideLoop word, line⟩ →
        ∃ j, parsed.Stray j word ∧ parsed.line j = line ∧ Resolve.Reaches parsed root session j := by
  rcases Grammar.read_cases source with ⟨parsed', root, hread', hparsed⟩ | ⟨fault, hread', -⟩
  · obtain rfl : parsed' = parsed := Except.ok.inj (hread'.symm.trans hread)
    refine ⟨root, hparsed.root_eq, fun resolution hresolve => ?_,
      fun _ _ => Resolve.program_of_reached hparsed, fun _ _ => Resolve.exists_reached hparsed⟩
    rcases Resolve.program_cases hparsed session with
      ⟨resolution', hresolve', h, -⟩ | ⟨fault, hresolve', -⟩
    · obtain rfl : resolution' = resolution := Except.ok.inj (hresolve'.symm.trans hresolve)
      exact h.boundToNearest hparsed
    · cases hresolve'.symm.trans hresolve
  · cases hread'.symm.trans hread

/-- Loops in one another, with jumps in both. -/
def nestedLoops : String :=
  "void main() \x7b int i; while (1) \x7b for (i = 0; i < 9; i++) \x7b if (i) break; continue; \x7d " ++
  "if (i) continue; break; \x7d \x7d"

/-- A loop around a function with a jump. -/
def loopAroundFunction : String :=
  "void main() \x7b\n while (1) \x7b int f() \x7b\n continue; \x7d \x7d \x7d"

theorem jumps_bind_to_nearest_loop_nested :
    (∃ parsed resolution root, Grammar.read nestedLoops = .ok parsed ∧
      Resolve.program parsed {} = .ok resolution ∧ BoundToNearest parsed root resolution.forest) ∧
    ∃ parsed root j, Grammar.read loopAroundFunction = .ok parsed ∧
      parsed.Stray j "continue" ∧ parsed.line j = 3 ∧ Resolve.Reaches parsed root {} j := by
  have hrun : ((Grammar.read nestedLoops).bind (Resolve.program · {})).isOk := by decide +kernel
  have hrefused : (Grammar.read loopAroundFunction).toOption.map (fun parsed =>
      (Resolve.program parsed {}).map fun _ => ()) =
      some (.error ⟨.jumpOutsideLoop "continue", 3⟩) := by decide +kernel
  constructor
  · cases hread : Grammar.read nestedLoops with
    | error fault => simp [hread, Except.bind, Except.isOk, Except.toBool] at hrun
    | ok parsed =>
      cases hresolve : Resolve.program parsed {} with
      | error fault => simp [hread, hresolve, Except.bind, Except.isOk, Except.toBool] at hrun
      | ok resolution =>
        obtain ⟨root, -, h, -⟩ := jumps_bind_to_nearest_loop {} hread
        exact ⟨parsed, resolution, root, rfl, hresolve, h resolution hresolve⟩
  · cases hread : Grammar.read loopAroundFunction with
    | error fault => simp [hread, Except.toOption] at hrefused
    | ok parsed =>
      obtain ⟨root, -, -, -, h⟩ := jumps_bind_to_nearest_loop {} hread
      cases hresolve : Resolve.program parsed {} with
      | ok resolution => simp [hread, Except.toOption, hresolve, Except.map] at hrefused
      | error fault =>
        simp only [hread, Except.toOption, hresolve, Except.map, Option.map_some, Option.some.injEq,
          Except.error.injEq] at hrefused
        obtain ⟨j, hj, hline, hreached⟩ := h "continue" 3 (hrefused ▸ hresolve)
        exact ⟨parsed, root, j, rfl, hj, hline, hreached⟩

end MiniC
