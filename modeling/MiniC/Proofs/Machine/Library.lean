import MiniC.Emit.Program
import Mathlib.Data.List.Nodup

/-!
# Labels of the routine library

The library routines of a program define each label once, and jump and call only where a label is
defined. `Code.labels` and `Code.targets` are the labels that code defines and those that it needs.
-/

namespace MiniC

namespace Machine

namespace Instr

/-- The label that an instruction jumps to. -/
def jump? : Instr → Option Label
  | ujp target | fjp target => some target
  | _ => none

/-- The label that an instruction calls. -/
def callee? : Instr → Option Label
  | cup _ target => some target
  | _ => none

/-- An instruction with a target jumps or calls. -/
theorem target?_cases {instr : Instr} {label : Label} (h : instr.target? = some label) :
    instr.jump? = some label ∨ instr.callee? = some label := by
  cases instr <;> simp_all [target?, jump?, callee?]

end Instr

namespace Code

/-- The labels that code defines. -/
def labels (code : Code) : List Label := code.filterMap Instr.defined?

/-- The labels that code jumps to or calls. -/
def targets (code : Code) : List Label := code.filterMap Instr.target?

@[simp] theorem labels_nil : labels [] = [] := rfl

@[simp] theorem labels_cons (instr : Instr) (code : Code) :
    labels (instr :: code) = instr.defined?.toList ++ labels code := by
  rw [labels, List.filterMap_cons]
  cases instr.defined? <;> rfl

@[simp] theorem labels_append (code code' : Code) :
    labels (code ++ code') = labels code ++ labels code' := List.filterMap_append

@[simp] theorem targets_append (code code' : Code) :
    targets (code ++ code') = targets code ++ targets code' := List.filterMap_append

/-- Relabelling code relabels what it defines. -/
theorem labels_relabel (rename : Label → Label) (code : Code) :
    labels (code.map (Instr.relabel rename)) = (labels code).map rename := by
  simp only [labels, List.filterMap_map, List.map_filterMap, Function.comp_def,
    Instr.defined?_relabel]

theorem targets_relabel (rename : Label → Label) (code : Code) :
    targets (code.map (Instr.relabel rename)) = (targets code).map rename := by
  simp only [targets, List.filterMap_map, List.map_filterMap, Function.comp_def,
    Instr.target?_relabel]

theorem mem_labels {code : Code} {name : Label} : name ∈ labels code ↔ .label name ∈ code := by
  simp only [labels, List.mem_filterMap]
  constructor
  · rintro ⟨instr, hinstr, hname⟩
    cases instr <;> simp_all [Instr.defined?]
  · exact fun h => ⟨_, h, rfl⟩

end Code

namespace Routine

variable {available routines : List Routine} {names : List String} {name : String}
  {routine : Routine} {session : Session}

/-! ## What is needed -/

/-- Only available routines are needed. -/
theorem closureIn_subset : closureIn available names ⊆ available := by
  fun_induction closureIn available names with
  | case1 => exact List.nil_subset _
  | case2 _ _ _ _ ih => exact ih
  | case3 available name names routine hfind ih =>
    exact List.cons_subset.mpr ⟨List.mem_of_find?_eq_some hfind,
      List.Subset.trans ih List.eraseP_subset⟩

/-- Taking a routine out takes its name out. -/
theorem names_eraseP (available : List Routine) (name : String) :
    (available.eraseP (·.name == name)).map (·.name) = (available.map (·.name)).erase name := by
  rw [List.erase_eq_eraseP', List.eraseP_map]
  rfl

/-- No routine is needed twice. -/
theorem nodup_closureIn (h : (available.map (·.name)).Nodup) :
    ((closureIn available names).map (·.name)).Nodup := by
  fun_induction closureIn available names with
  | case1 => exact List.nodup_nil
  | case2 _ _ _ _ ih => exact ih h
  | case3 available name names routine hfind ih =>
    have hname : routine.name = name := by simpa using List.find?_some hfind
    have hnames := names_eraseP available name
    refine List.nodup_cons.mpr ⟨fun hmem => ?_, ih (hnames ▸ h.erase _)⟩
    have hleft : routine.name ∈ (available.eraseP (·.name == name)).map (·.name) :=
      List.map_subset _ closureIn_subset hmem
    rw [hnames, hname] at hleft
    exact h.not_mem_erase hleft

/-- Whatever is asked for, or needed by what is needed, is needed if it is available. -/
theorem mem_closureIn
    (h : name ∈ names ∨ ∃ routine ∈ closureIn available names, name ∈ routine.needs)
    (havailable : name ∈ available.map (·.name)) :
    name ∈ (closureIn available names).map (·.name) := by
  fun_induction closureIn available names with
  | case1 => simp at h
  | case2 available first names hfind ih =>
    refine ih (h.imp_left fun hmem => ?_) havailable
    rcases List.mem_cons.mp hmem with rfl | hmem
    · obtain ⟨routine, hroutine, hname⟩ := List.mem_map.mp havailable
      simpa [hname] using List.find?_eq_none.mp hfind routine hroutine
    · exact hmem
  | case3 available first names routine hfind ih =>
    have hfirst : routine.name = first := by simpa using List.find?_some hfind
    by_cases heq : name = first
    · exact List.mem_cons.mpr (.inl (heq.trans hfirst.symm))
    refine List.mem_cons_of_mem _ (ih ?_ ?_)
    · rcases h with hmem | ⟨other, hother, hneeds⟩
      · exact .inl (List.mem_append_right _ ((List.mem_cons.mp hmem).resolve_left heq))
      · rcases List.mem_cons.mp hother with rfl | hother
        · exact .inl (List.mem_append_left _ hneeds)
        · exact .inr ⟨other, hother, hneeds⟩
    · rw [names_eraseP]
      exact (List.mem_erase_of_ne heq).mpr havailable

/-! ## What is in the catalog -/

/-- The jump targets of a routine are numbered from zero, each is defined once, and the routine jumps
to those only and calls only what it needs. -/
structure Regular (routine : Routine) : Prop where
  nodup : routine.code.labels.Nodup
  numbered : ∀ label ∈ routine.code.labels, ∃ number < targetCount routine.code,
    label = .jump number
  defined : ∀ label ∈ routine.code.targets, label ∈ routine.code.labels ∨
    ∃ name ∈ routine.needs, label = .named name

/-- Whether a routine is regular. -/
def isRegular (routine : Routine) : Bool :=
  routine.code.labels.Nodup &&
  (routine.code.labels.all fun label =>
    (List.range (targetCount routine.code)).any fun number => label = .jump number) &&
  routine.code.targets.all fun label =>
    label ∈ routine.code.labels || routine.needs.any fun name => label = .named name

theorem regular_of_isRegular (h : routine.isRegular) : routine.Regular := by
  simp only [isRegular, Bool.and_eq_true, decide_eq_true_eq, List.all_eq_true, List.any_eq_true,
    List.mem_range, Bool.or_eq_true] at h
  exact ⟨h.1.1, h.1.2, h.2⟩

theorem regular_of_mem (h : routine ∈ catalog) : routine.Regular := by
  have hall : catalog.all isRegular := by decide +kernel
  exact regular_of_isRegular (List.all_eq_true.mp hall routine h)

theorem nodup_catalog : (catalog.map (·.name)).Nodup := by decide +kernel

/-- A routine is found by its name. -/
theorem find?_name (h : routine ∈ catalog) : find? routine.name = some routine := by
  have hsome : (find? routine.name).isSome := List.find?_isSome.mpr ⟨routine, h, by simp⟩
  obtain ⟨other, hfind⟩ := Option.isSome_iff_exists.mp hsome
  have hname : other.name = routine.name := by simpa using List.find?_some hfind
  have hmem := List.mem_of_find?_eq_some hfind
  rw [hfind, List.inj_on_of_nodup_map nodup_catalog hmem h hname]

/-- What routines need is in the catalog. -/
theorem needs_subset (h : routine ∈ catalog) : routine.needs ⊆ catalog.map (·.name) := by
  have hall : catalog.all fun routine => routine.needs.all (· ∈ catalog.map (·.name)) := by
    decide +kernel
  intro name hname
  simpa using List.all_eq_true.mp (List.all_eq_true.mp hall routine h) name hname

/-- The routine of a name that is needed is needed. -/
theorem mem_closure (hname : name ∈ (closure names).map Routine.name)
    (hfind : find? name = some routine) : routine ∈ closure names := by
  obtain ⟨other, hother, rfl⟩ := List.mem_map.mp hname
  rw [find?_name (closureIn_subset hother)] at hfind
  rwa [← Option.some.inj hfind]

/-- A routine is needed where it is asked for. -/
theorem named_mem_closure (h : name ∈ names) (hfind : find? name = some routine) :
    name ∈ (closure names).map Routine.name := by
  apply mem_closureIn (.inl h)
  have hname : routine.name = name := by simpa using List.find?_some hfind
  exact hname ▸ List.mem_map_of_mem (List.mem_of_find?_eq_some hfind)

/-- What a routine needs is needed where the routine is. -/
theorem mem_closure_of_needs (hroutine : routine ∈ closure names) (hname : name ∈ routine.needs) :
    name ∈ (closure names).map Routine.name :=
  mem_closureIn (.inr ⟨routine, hroutine, hname⟩) (needs_subset (closureIn_subset hroutine) hname)

/-! ## What is supplied -/

theorem labels_instantiate (routine : Routine) (session : Session) :
    (routine.instantiate session).1.labels =
      .named routine.name :: routine.code.labels.map (shift session.drawn) :=
  congrArg (_ :: ·) (Code.labels_relabel _ _)

theorem targets_instantiate (routine : Routine) (session : Session) :
    (routine.instantiate session).1.targets = routine.code.targets.map (shift session.drawn) :=
  Code.targets_relabel _ _

theorem shift_injective (taken : Nat) : Function.Injective (shift taken) := by
  intro label label' heq
  cases label <;> cases label' <;> simp_all [shift]

end Routine

end Machine

namespace Emit

open Machine

/-- What the code of some library routines supplies: the routines with jump targets from a range. -/
structure Supplies (session session' : Session) (routines : List Routine) (code : Code) : Prop where
  le : session.drawn ≤ session'.drawn
  nodup : code.labels.Nodup
  numbered : ∀ label ∈ code.labels, (∃ routine ∈ routines, label = .named routine.name) ∨
    ∃ number, session.drawn ≤ number ∧ number < session'.drawn ∧ label = .jump number
  named : ∀ routine ∈ routines, .named routine.name ∈ code.labels
  defined : ∀ label ∈ code.targets, label ∈ code.labels ∨
    ∃ routine ∈ routines, ∃ name ∈ routine.needs, label = .named name

/-- A routine that is put into a program. -/
theorem supplies_instantiate {routine : Routine} (h : routine.Regular) (session : Session) :
    Supplies session (routine.instantiate session).2 [routine] (routine.instantiate session).1 := by
  have hlabels := routine.labels_instantiate session
  refine ⟨Nat.le_add_right _ _, ?_, ?_, ?_, ?_⟩
  · rw [hlabels]
    refine List.nodup_cons.mpr ⟨fun hmem => ?_, h.nodup.map (Routine.shift_injective _)⟩
    obtain ⟨label, hlabel, heq⟩ := List.mem_map.mp hmem
    obtain ⟨number, -, rfl⟩ := h.numbered label hlabel
    cases heq
  · intro label hlabel
    rw [hlabels] at hlabel
    rcases List.mem_cons.mp hlabel with rfl | hlabel
    · exact .inl ⟨routine, List.mem_singleton_self _, rfl⟩
    · obtain ⟨other, hother, rfl⟩ := List.mem_map.mp hlabel
      obtain ⟨number, hnumber, rfl⟩ := h.numbered other hother
      exact .inr ⟨session.drawn + number, Nat.le_add_right _ _, Nat.add_lt_add_left hnumber _, rfl⟩
  · intro other hother
    rw [hlabels, List.mem_singleton.mp hother]
    exact List.mem_cons_self
  · intro label hlabel
    rw [Routine.targets_instantiate] at hlabel
    obtain ⟨other, hother, rfl⟩ := List.mem_map.mp hlabel
    rw [hlabels]
    rcases h.defined other hother with hdefined | ⟨name, hname, rfl⟩
    · exact .inl (List.mem_cons_of_mem _ (List.mem_map_of_mem hdefined))
    · exact .inr ⟨routine, List.mem_singleton_self _, name, hname, rfl⟩

/-- Library routines that are put into a program one behind the other. -/
theorem supplies_routines {rs : List Routine} (hregular : ∀ routine ∈ rs, routine.Regular)
    (hnodup : (rs.map (·.name)).Nodup) : ∀ session,
    Supplies session (routines session rs).2 rs (routines session rs).1 := by
  induction rs with
  | nil => exact fun session =>
      ⟨Nat.le_refl _, List.nodup_nil, by simp [routines], by simp, by simp [routines, Code.targets]⟩
  | cons routine rs ih =>
    intro session
    obtain ⟨hroutine, hregular⟩ := List.forall_mem_cons.mp hregular
    obtain ⟨hname, hnodup⟩ := List.nodup_cons.mp hnodup
    have hfirst := supplies_instantiate hroutine session
    have hrest := ih hregular hnodup (routine.instantiate session).2
    simp only [routines]
    refine ⟨Nat.le_trans hfirst.le hrest.le, ?_, ?_, ?_, ?_⟩
    · rw [Code.labels_append]
      refine hfirst.nodup.append hrest.nodup fun label hlabel hlabel' => ?_
      rcases hfirst.numbered label hlabel with ⟨r, hr, rfl⟩ | ⟨number, -, hlt, rfl⟩ <;>
        rcases hrest.numbered _ hlabel' with ⟨r', hr', heq⟩ | ⟨number', hle, -, heq⟩
      · rw [List.mem_singleton.mp hr] at heq
        exact hname (List.mem_map.mpr ⟨r', hr', (Label.named.inj heq).symm⟩)
      · cases heq
      · cases heq
      · cases heq
        omega
    · intro label hlabel
      rw [Code.labels_append, List.mem_append] at hlabel
      rcases hlabel with hlabel | hlabel
      · rcases hfirst.numbered label hlabel with ⟨r, hr, rfl⟩ | ⟨number, hle, hlt, rfl⟩
        · exact .inl ⟨r, List.mem_cons.mpr (.inl (List.mem_singleton.mp hr)), rfl⟩
        · exact .inr ⟨number, hle, Nat.lt_of_lt_of_le hlt hrest.le, rfl⟩
      · rcases hrest.numbered label hlabel with ⟨r, hr, rfl⟩ | ⟨number, hle, hlt, rfl⟩
        · exact .inl ⟨r, List.mem_cons_of_mem _ hr, rfl⟩
        · exact .inr ⟨number, Nat.le_trans hfirst.le hle, hlt, rfl⟩
    · intro r hr
      rw [Code.labels_append, List.mem_append]
      rcases List.mem_cons.mp hr with rfl | hr
      · exact .inl (hfirst.named _ (List.mem_singleton_self _))
      · exact .inr (hrest.named r hr)
    · intro label hlabel
      rw [Code.targets_append, List.mem_append] at hlabel
      rw [Code.labels_append, List.mem_append]
      rcases hlabel with hlabel | hlabel
      · rcases hfirst.defined label hlabel with hdefined | ⟨r, hr, hneeds⟩
        · exact .inl (.inl hdefined)
        · exact .inr ⟨r, List.mem_cons.mpr (.inl (List.mem_singleton.mp hr)), hneeds⟩
      · rcases hrest.defined label hlabel with hdefined | ⟨r, hr, hneeds⟩
        · exact .inl (.inr hdefined)
        · exact .inr ⟨r, List.mem_cons_of_mem _ hr, hneeds⟩

theorem supplies_closure (names : List String) (session : Session) :
    Supplies session (routines session (Routine.closure names)).2 (Routine.closure names)
      (routines session (Routine.closure names)).1 :=
  supplies_routines (fun _ hmem => Routine.regular_of_mem (Routine.closureIn_subset hmem))
    (Routine.nodup_closureIn Routine.nodup_catalog) session

/-- The library of a program that calls `names` has them, and what they need. -/
theorem named_mem_library {names : List String} {name : String}
    (h : name ∈ names ∨ ∃ routine ∈ Routine.closure names, name ∈ routine.needs)
    (havailable : name ∈ Routine.catalog.map (·.name)) (session : Session) :
    .named name ∈ (routines session (Routine.closure names)).1.labels := by
  obtain ⟨routine, hroutine, rfl⟩ := List.mem_map.mp (Routine.mem_closureIn h havailable)
  exact (supplies_closure names session).named routine hroutine

/-- The library of a program that calls `names` defines what it jumps to and calls. -/
theorem library_defined {names : List String} {session : Session} {label : Label}
    (h : label ∈ (routines session (Routine.closure names)).1.targets) :
    label ∈ (routines session (Routine.closure names)).1.labels := by
  have hsupplies := supplies_closure names session
  rcases hsupplies.defined label h with hdefined | ⟨routine, hroutine, name, hname, rfl⟩
  · exact hdefined
  · have havailable := Routine.needs_subset (Routine.closureIn_subset hroutine) hname
    exact named_mem_library (.inr ⟨routine, hroutine, hname⟩) havailable session

end Emit

end MiniC
