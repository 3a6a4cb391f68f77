import MiniC.Proofs.Flow.Simulation
import MiniC.Proofs.Labels

/-!
# Control flow is compiled faithfully

The whole code of a program is split into items: the code of every condition, discarded expression,
initial value and result in a function is one event, and all else is control. From the label of the
function on, the machine then lets the same events happen as the body means, and ends as the body does.
What the oracle answers does not matter, and neither does whether there is an end.
-/

namespace MiniC

open Machine Forest Emit

namespace Flow

variable {oracle : Oracle} {program rest start : List Item} {limit steps : Nat} {trace : Trace}
  {result : Trace × Ending} {run : Nat → Run} {instr : Instr}

/-- A statement outside of every loop that stands in front of the end of the function is done to the end
by the machine, or for as many steps as are asked for. -/
theorem Lands.machine_eq (h : Lands oracle program limit (fun _ => none) start trace
      (.leave false instr :: rest) result) :
    ∃ steps, machine oracle program steps start trace = result ∧
      (result.2 = .unfinished → limit ≤ steps) := by
  obtain ⟨steps, hlands⟩ := h
  obtain ⟨trace', ending⟩ := result
  cases ending with
  | next => exact ⟨1 + steps, hlands 1, (by simp)⟩
  | broke | continued =>
    obtain ⟨label, hnone, -⟩ := hlands
    cases hnone
  | returned =>
    obtain ⟨instr', rest', hgoes⟩ := hlands
    exact ⟨1 + steps, hgoes 1, (by simp)⟩
  | unfinished =>
    obtain ⟨hfew, rest', hgoes⟩ := hlands
    exact ⟨0 + steps, hgoes 0, fun _ => by omega⟩

/-- If every number of rounds is simulated, meaning and machine are alike. -/
theorem alike_of_simulates
    (h : ∀ limit, Simulates oracle program limit (fun _ => none) (run limit) start
      (.leave false instr :: rest)) :
    Alike (fun limit => run limit trace) fun steps => machine oracle program steps start trace := by
  refine ⟨fun limit => ?_, fun steps => ⟨steps, ?_⟩⟩
  · obtain ⟨steps, hsteps, -⟩ := (h limit trace).machine_eq
    exact ⟨steps, .inl hsteps.symm⟩
  · obtain ⟨enough, henough, hfew⟩ := (h steps trace).machine_eq
    show Follows (machine oracle program steps start trace) (run steps trace)
    rw [← henough]
    rcases Nat.le_total steps enough with hle | hle
    · exact follows_machine hle
    · -- A run that has ended before does not change with more steps.
      have hfollows : Follows (machine oracle program enough start trace)
          (machine oracle program steps start trace) := follows_machine hle
      rcases hfollows with heq | ⟨hunfinished, -⟩
      · exact .inl heq.symm
      · rw [henough] at hunfinished
        exact follows_machine (hfew hunfinished)

end Flow

namespace Emit

variable {layout : Layout} {root f : NodeId} {items after : List Item}

/-- Code whose instructions are all taken for control. -/
theorem codeOf_map_control (code : Code) : codeOf (code.map Item.control) = code := by
  induction code with
  | nil => rfl
  | cons instr code ih => simp [ih, Item.code]

/-- From the label of a function on, the machine does what the body of the function means. -/
theorem Sectioned.alike {program : List Item} (h : Sectioned layout root f items)
    (hwhole : layout.forest.Whole root) (hnodup : (codeOf program).labels.Nodup)
    (hsuffix : items ++ after <:+ program) (oracle : Flow.Oracle) :
    ∃ body s signature, layout.forest.child? f 2 = some body ∧
      (layout.forest.kind f).symbol? = some s ∧
      (layout.table.symbol s).signature? = some signature ∧
      Flow.Alike (fun limit => Flow.meaning layout.forest oracle limit body [])
        fun steps => Flow.machine oracle program steps (Flow.seek signature.label program) [] := by
  obtain ⟨hf, hsymbol, hsignature, hchildren, hbody⟩ := h
  next s signature result params body items =>
  obtain ⟨_, _, body', hchildren', -, -, hrole⟩ := hwhole.exists_body hf
  obtain rfl : body = body' := by simp_all
  have hkind := Kind.eq_block hrole
  have hmem : body ∈ layout.forest.children f := by simp [hchildren]
  have hloop := enclosingLoop_of_function hwhole ((mem_definitions hwhole.ranked).mp hf).2.1 hmem
  refine ⟨body, s, signature, by rw [child?, hchildren]; rfl, hsymbol, hsignature, ?_⟩
  generalize (if (layout.table.symbol s).type.isVoid then Instr.retp else Instr.retf) = last at hsuffix
  simp only [List.append_assoc, List.cons_append, List.nil_append] at hsuffix
  have hinner := (List.suffix_cons _ _).trans ((List.suffix_cons _ _).trans hsuffix)
  rw [Flow.seek_eq hnodup hsuffix]
  have hinside : (Piece.statements (layout.forest.children body)).Inside layout.forest none :=
    fun c hc => enclosingLoop_of_mem hwhole (by rw [hkind]; rfl) (by rw [hkind]; rfl) hloop hc
  have hshallow : Flow.Shallow layout.forest layout.forest.size
      (.statements (layout.forest.children body)) := fun c hc =>
    Nat.lt_of_lt_of_le (weight_lt hwhole.ranked hc) (weight_le _ _)
  have hsimulates : ∀ limit, Flow.Simulates oracle program limit (fun _ => none)
      (Flow.meaning layout.forest oracle limit body)
      (.control (.label signature.label) :: .control (.ssp (layout.sizeOf (some f))) ::
        (items ++ .leave false last :: after)) (.leave false last :: after) := by
    intro limit
    simp only [Flow.meaning, Flow.meaningWithin, hkind]
    exact (Flow.simulates_of_lowered hbody hwhole hnodup hinner hinside hshallow).before fun _ =>
      .trans (.label _) (.ssp _)
  exact Flow.alike_of_simulates hsimulates

/-- Every event in the items of a function is run by its own code. -/
theorem Sectioned.performs (h : Sectioned layout root f items) {event : Event} {code : Code}
    (hevent : .event event code ∈ items) : Performs layout root event code := by
  obtain ⟨-, -, -, -, hbody⟩ := h
  refine hbody.performs ?_
  simpa using hevent

end Emit

/-- A program with its code split into items. -/
structure Compilation.Split {source : String} (c : Compilation source) (program : List Item) :
    Prop where
  code_eq : codeOf program = c.program.code
  performs : ∀ event code, .event event code ∈ program → Performs c.layout c.root event code

/-- The items of one function in those of the whole program. -/
theorem Compilation.exists_split {source : String} (c : Compilation source) {f : NodeId}
    (hf : f ∈ c.layout.forest.definitions c.root) :
    ∃ items after program, Sectioned c.layout c.root f items ∧ items ++ after <:+ program ∧
      c.Split program := by
  obtain ⟨items, hframe, hsectioned⟩ := c.mem_frames hf
  obtain ⟨before, others, hframes⟩ := List.append_of_mem hframe
  refine ⟨items, ((others.flatMap (·.2)) ++ c.sections.library).map .control,
    (before.flatMap (·.2)).map .control ++ (items ++
      ((others.flatMap (·.2)) ++ c.sections.library).map .control), hsectioned,
    List.suffix_append _ _, ?_, ?_⟩
  · rw [c.frames_eq.1, hframes]
    simp [codeOf_map_control]
  · intro event code hevent
    refine hsectioned.performs ?_
    simpa using hevent

/-- The code of a program is split into events and control so that a run from the label of a function
with a body, whatever the conditions turn out to be, lets the events happen that the body means, in the
same order and without end if that has none, and ends by a return or at the end of the body just when the
body does. -/
def Compilation.Follows {source : String} (c : Compilation source) (f : NodeId) : Prop :=
  ∃ program body s signature, c.Split program ∧ c.layout.forest.child? f 2 = some body ∧
    (c.layout.forest.kind f).symbol? = some s ∧
    (c.layout.table.symbol s).signature? = some signature ∧
    ∀ oracle : Flow.Oracle,
      Flow.Alike (fun limit => Flow.meaning c.layout.forest oracle limit body [])
        fun steps => Flow.machine oracle program steps (Flow.seek signature.label program) []

/-- A program with a loop in a loop, and ways out of both. -/
def looping : String :=
  "void main() \x7b int i; for (;;) \x7b if (i) continue; while (i) break; return; \x7d \x7d"

end MiniC
