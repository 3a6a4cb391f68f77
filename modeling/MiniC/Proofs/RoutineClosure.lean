import MiniC.Proofs.Labels

/-!
# The closure of library routines

What a program needs of the library, as a depth-first traversal: `Routine.Visits` walks through names
and, behind each routine that it meets for the first time, through what that one needs. The closure is
worked out with one list of names still to come instead, and comes to the same.
-/

namespace MiniC

open Emit Machine

namespace Machine.Routine

/-- The routines that a recursive depth-first traversal meets when it goes through names and some
routines have been seen: each one, what it needs, and then the others. Names that have been seen, or
are those of no routine, are skipped. -/
inductive Visits : List String → List String → List Routine → Prop
  | nil {seen : List String} : Visits seen [] []
  | skip {seen names : List String} {name : String} {routines : List Routine}
      (h : name ∈ seen ∨ find? name = none) (hrest : Visits seen names routines) :
      Visits seen (name :: names) routines
  | enter {seen names : List String} {name : String} {routine : Routine}
      {below routines : List Routine} (hname : name ∉ seen) (hfind : find? name = some routine)
      (hneeds : Visits (seen ++ [name]) routine.needs below)
      (hrest : Visits (seen ++ name :: below.map Routine.name) names routines) :
      Visits seen (name :: names) (routine :: (below ++ routines))

variable {names names' seen : List String} {name : String} {routine other : Routine}
  {routines routines' available : List Routine}

/-- The traversal has one outcome. -/
theorem Visits.unique (h : Visits seen names routines) (h' : Visits seen names routines') :
    routines = routines' := by
  induction h generalizing routines' with
  | nil =>
    cases h'
    rfl
  | skip hskip _ ih =>
    cases h' with
    | skip _ hrest => exact ih hrest
    | enter hname hfind => simp [hname, hfind] at hskip
  | enter hname hfind _ _ ihneeds ihrest =>
    cases h' with
    | skip hskip => simp [hname, hfind] at hskip
    | enter _ hfind' hneeds' hrest' =>
      obtain rfl := Option.some.inj (hfind.symm.trans hfind')
      obtain rfl := ihneeds hneeds'
      rw [ihrest hrest']

/-- A traversal of names goes through the first ones and then through the others. -/
theorem Visits.split (h : Visits seen (names ++ names') routines) :
    ∃ first others, routines = first ++ others ∧ Visits seen names first ∧
      Visits (seen ++ first.map Routine.name) names' others := by
  induction names generalizing seen routines with
  | nil => exact ⟨[], routines, rfl, .nil, by simpa using h⟩
  | cons name names ih =>
    cases h with
    | skip hskip hrest =>
      obtain ⟨first, others, rfl, hfirst, hothers⟩ := ih hrest
      exact ⟨first, others, rfl, .skip hskip hfirst, hothers⟩
    | @enter _ _ _ routine below _ hname hfind hneeds hrest =>
      obtain ⟨first, others, rfl, hfirst, hothers⟩ := ih hrest
      have hroutine : routine.name = name := by simpa using List.find?_some hfind
      refine ⟨routine :: (below ++ first), others, by simp, .enter hname hfind hneeds hfirst, ?_⟩
      simpa [hroutine] using hothers

/-! ## What is left -/

/-- The routines that have not been seen. -/
def unseen (seen : List String) : List Routine := catalog.filter (·.name ∉ seen)

theorem unseen_nil : unseen [] = catalog := by simp [unseen]

/-- A routine is left if it has not been seen. -/
theorem find?_unseen (seen : List String) (name : String) :
    (unseen seen).find? (·.name == name) = if name ∈ seen then none else find? name := by
  rw [unseen, List.find?_filter]
  split
  · next hseen =>
    rw [List.find?_eq_none]
    intro routine _ hfound
    have hfound : routine.name ∉ seen ∧ routine.name = name := by simpa using hfound
    exact hfound.1 (hfound.2 ▸ hseen)
  · next hseen =>
    rw [find?]
    congr 1
    funext routine
    by_cases hname : routine.name = name <;> simp [hname, hseen]

/-- To take a routine out is to keep those of other names. -/
theorem eraseP_name (h : (available.map (·.name)).Nodup) (name : String) :
    available.eraseP (·.name == name) = available.filter (·.name ≠ name) := by
  induction available with
  | nil => rfl
  | cons routine available ih =>
    obtain ⟨hnot, hnodup⟩ := List.nodup_cons.mp h
    by_cases hname : routine.name = name
    · subst hname
      rw [List.eraseP_cons_of_pos (by simp), List.filter_cons_of_neg (by simp), List.filter_eq_self.mpr]
      intro other hother
      have hne : other.name ≠ routine.name := fun heq => hnot (List.mem_map.mpr ⟨other, hother, heq⟩)
      simpa using hne
    · rw [List.eraseP_cons_of_neg (by simpa using hname), List.filter_cons_of_pos (by simpa using hname),
        ih hnodup]

/-- A routine that is taken out has been seen. -/
theorem eraseP_unseen (seen : List String) (name : String) :
    (unseen seen).eraseP (·.name == name) = unseen (seen ++ [name]) := by
  have hnodup : ((unseen seen).map (·.name)).Nodup :=
    nodup_catalog.sublist (List.filter_sublist.map _)
  rw [eraseP_name hnodup, unseen, unseen, List.filter_filter]
  congr 1
  funext routine
  simp [and_comm]

theorem visits_closureIn (seen names : List String) :
    Visits seen names (closureIn (unseen seen) names) := by
  generalize havailable : unseen seen = available
  fun_induction closureIn available names generalizing seen with
  | case1 => exact .nil
  | case2 available name names hfind ih =>
    subst havailable
    rw [find?_unseen] at hfind
    refine .skip ?_ (ih seen rfl)
    by_cases hseen : name ∈ seen
    · exact .inl hseen
    · rw [if_neg hseen] at hfind
      exact .inr hfind
  | case3 available name names routine hfind ih =>
    subst havailable
    obtain ⟨below, others, heq, hneeds, hrest⟩ := (ih (seen ++ [name]) (eraseP_unseen seen name).symm).split
    rw [find?_unseen, Option.ite_none_left_eq_some] at hfind
    rw [heq]
    exact .enter hfind.1 hfind.2 hneeds (by simpa using hrest)

/-- The closure of names is what the traversal of them meets. -/
theorem visits_closure (names : List String) : Visits [] names (closure names) := by
  rw [closure, ← unseen_nil]
  exact visits_closureIn [] names

/-! ## What is met -/

/-- A routine whose name is given, or that one of those needs, or that one of these needs, and so on. -/
inductive Reached (names : List String) : Routine → Prop
  | listed {name : String} {routine : Routine} (hname : name ∈ names)
      (hfind : find? name = some routine) : Reached names routine
  | needed {name : String} {routine other : Routine} (h : Reached names routine)
      (hname : name ∈ routine.needs) (hfind : find? name = some other) : Reached names other

theorem Reached.mono (hsubset : names ⊆ names') (h : Reached names routine) : Reached names' routine := by
  induction h with
  | listed hname hfind => exact .listed (hsubset hname) hfind
  | needed _ hname hfind ih => exact .needed ih hname hfind

/-- What is reached from what a routine needs is reached where the routine is. -/
theorem Reached.of_needs (h : Reached names routine) (hother : Reached routine.needs other) :
    Reached names other := by
  induction hother with
  | listed hname hfind => exact .needed h hname hfind
  | needed _ hname hfind ih => exact .needed ih hname hfind

/-- A traversal meets only what is reached. -/
theorem Visits.reached (h : Visits seen names routines) : ∀ other ∈ routines, Reached names other := by
  induction h with
  | nil => simp
  | skip _ _ ih =>
    intro other hother
    exact (ih other hother).mono (List.subset_cons_self _ _)
  | enter _ hfind _ _ ihneeds ihrest =>
    intro other hother
    rcases List.mem_cons.mp hother with rfl | hother
    · exact .listed List.mem_cons_self hfind
    · rcases List.mem_append.mp hother with hbelow | hrest
      · exact (Reached.listed List.mem_cons_self hfind).of_needs (ihneeds other hbelow)
      · exact (ihrest other hrest).mono (List.subset_cons_self _ _)

/-- The closure is what is reached. -/
theorem mem_closure_iff_reached : routine ∈ closure names ↔ Reached names routine := by
  constructor
  · intro h
    exact (visits_closure names).reached routine h
  · intro h
    induction h with
    | listed hname hfind => exact mem_closure (named_mem_closure hname hfind) hfind
    | needed _ hname hfind ih => exact mem_closure (mem_closure_of_needs ih hname) hfind

/-- What the closure needs is in it. -/
theorem exists_need (h : routine ∈ closure names) (hname : name ∈ routine.needs) :
    ∃ other ∈ closure names, find? name = some other := by
  obtain ⟨other, hother, rfl⟩ := List.mem_map.mp (mem_closure_of_needs h hname)
  exact ⟨other, hother, find?_name (closureIn_subset hother)⟩

/-- The closure has the same routines for the same names. -/
theorem mem_closure_congr (hnames : ∀ name, name ∈ names ↔ name ∈ names') :
    routine ∈ closure names ↔ routine ∈ closure names' := by
  rw [mem_closure_iff_reached, mem_closure_iff_reached]
  constructor
  · exact Reached.mono fun name => (hnames name).mp
  · exact Reached.mono fun name => (hnames name).mpr

end Machine.Routine

/-! ## What is spliced -/

/-- What the library of a program calls is defined in it once. -/
theorem Emit.count_library {names : List String} {session : Session} {count : Nat} {target : Label}
    (h : .cup count target ∈ (routines session (Routine.closure names)).1) :
    (routines session (Routine.closure names)).1.labels.count target = 1 := by
  have htarget : target ∈ (routines session (Routine.closure names)).1.targets :=
    List.mem_filterMap.mpr ⟨_, h, rfl⟩
  exact List.count_eq_one_of_mem (supplies_closure names session).nodup (library_defined htarget)

namespace Compilation

variable {source : String} (c : Compilation source)

/-- The function that a program starts with is no library routine. -/
theorem main_ne_named (name : String) : c.sections.main ≠ .named name := by
  obtain ⟨s, signature, hmain, heq⟩ := c.isRight.main
  obtain ⟨hs, hname, -⟩ := c.isLaid.sound.file "main" s hmain.lookup_eq
  rw [heq]
  rcases (c.isLaid.sound.declared.function s hs signature hmain.signature_eq).origin with
    ⟨-, -, -, routine, hroutine, hroutineName, -⟩ | ⟨-, -, ⟨number, -, hlabel⟩, -⟩
  · have hcatalog : "main" ∉ Routine.catalog.map (·.name) := by decide +kernel
    exact absurd (List.mem_map.mpr ⟨routine, hroutine, hroutineName.symm.trans hname⟩) hcatalog
  · rw [hlabel]
    exact Label.noConfusion

/-- The library routines that the frames of a program call are those that their code calls. -/
theorem mem_routines {count : Nat} {name : String}
    (h : .cup count (.named name) ∈ c.frames.flatMap (·.2)) :
    name ∈ (codeOf c.sections.initial ++ codeOf c.sections.functions.flatten).routines := by
  obtain ⟨frame, hframe, hinstr⟩ := List.mem_flatMap.mp h
  refine List.mem_filterMap.mpr ⟨.cup count (.named name), ?_, rfl⟩
  rcases c.isRight.cases_of_mem hframe with rfl | ⟨f, items, rfl, hsectioned⟩
  · rcases c.isRight.target_fileCode hinstr rfl with hmain | ⟨hinitial, -⟩
    · exact absurd hmain.symm (c.main_ne_named name)
    · exact List.mem_append_left _ hinitial
  · exact List.mem_append_right _ (c.subset_functions hframe hinstr)

/-- A program ends in the library routines that it calls and what they need, and defines once
whatever these call. -/
theorem exists_spliced : ∃ front names session,
    c.program.code = front ++ (routines session (Routine.closure names)).1 ∧
    (∀ count name, .cup count (.named name) ∈ front → name ∈ names) ∧
    (∀ name ∈ names, (Routine.find? name).isSome) ∧
    ∀ count target, .cup count target ∈ (routines session (Routine.closure names)).1 →
      c.program.code.labels.count target = 1 := by
  obtain ⟨names, session, -, hlibrary, hknown, hcalled⟩ := c.exists_library
  refine ⟨c.frames.flatMap (·.2), names, session, hlibrary ▸ c.frames_eq.1, ?_, hknown, ?_⟩
  · intro count name h
    exact hcalled (c.mem_routines h)
  · intro count target h
    apply List.count_eq_one_of_mem c.nodup_labels
    have htarget : target ∈ (routines session (Routine.closure names)).1.targets :=
      List.mem_filterMap.mpr ⟨_, h, rfl⟩
    rw [c.labels_eq, hlibrary]
    exact List.mem_append_right _ (library_defined htarget)

end Compilation

/-- The closure of names, with repetitions and unknown ones, is the outcome of the recursive
depth-first traversal, and the only one: it has every routine that is listed and every one that it
needs, no other one and none twice, and so depends on the set of names alone. The routines that are
put into a program for those that it calls define once whatever they call, among themselves and in the
program. -/
theorem closure_is_depth_first :
    (∀ names, Routine.Visits [] names (Routine.closure names) ∧
      (∀ rs, Routine.Visits [] names rs → rs = Routine.closure names) ∧
      (∀ name ∈ names, ∀ routine, Routine.find? name = some routine →
        routine ∈ Routine.closure names) ∧
      (∀ routine ∈ Routine.closure names, ∀ name ∈ routine.needs,
        ∃ other ∈ Routine.closure names, Routine.find? name = some other) ∧
      (∀ routine ∈ Routine.closure names, Routine.Reached names routine) ∧
      ((Routine.closure names).map (·.name)).Nodup ∧
      (∀ names', (∀ name, name ∈ names ↔ name ∈ names') →
        ∀ routine, routine ∈ Routine.closure names ↔ routine ∈ Routine.closure names') ∧
      ∀ session count target, .cup count target ∈ (routines session (Routine.closure names)).1 →
        (routines session (Routine.closure names)).1.labels.count target = 1) ∧
    ∀ source program, compile source = .ok program → ∃ front names session,
      program.code = front ++ (routines session (Routine.closure names)).1 ∧
      (∀ count name, .cup count (.named name) ∈ front → name ∈ names) ∧
      (∀ name ∈ names, (Routine.find? name).isSome) ∧
      ∀ count target, .cup count target ∈ (routines session (Routine.closure names)).1 →
        program.code.labels.count target = 1 := by
  constructor
  · intro names
    refine ⟨Routine.visits_closure names, ?_, ?_, ?_, ?_, ?_, ?_, ?_⟩
    · intro rs h
      exact h.unique (Routine.visits_closure names)
    · intro name hname routine hfind
      exact Routine.mem_closure (Routine.named_mem_closure hname hfind) hfind
    · intro routine hroutine name hname
      exact Routine.exists_need hroutine hname
    · intro routine hroutine
      exact Routine.mem_closure_iff_reached.mp hroutine
    · exact Routine.nodup_closureIn Routine.nodup_catalog
    · intro names' hnames routine
      exact Routine.mem_closure_congr hnames
    · intro session count target h
      exact count_library h
  · intro source program h
    obtain ⟨c, rfl⟩ := compile_eq_ok_iff.mp h
    exact c.exists_spliced

/-- A program that calls one routine, which needs another one. -/
def printing : String := "void main() \x7b printf(\"%d\", 1); \x7d"

theorem closure_is_depth_first_printf :
    (∃ printf print, Routine.find? "printf" = some printf ∧ Routine.find? "print" = some print ∧
      Routine.closure ["printf", "nothing", "print"] = [printf, print]) ∧
    ∃ program front names session, compile printing = .ok program ∧
      program.code = front ++ (routines session (Routine.closure names)).1 ∧
      ∀ count target, .cup count target ∈ (routines session (Routine.closure names)).1 →
        program.code.labels.count target = 1 := by
  obtain ⟨hclosure, hprogram⟩ := closure_is_depth_first
  constructor
  · refine ⟨_, _, rfl, rfl, ?_⟩
    have hneeds := @Routine.Visits.enter ["printf"] [] "print" _ _ _ (by decide) rfl .nil .nil
    have hothers : Routine.Visits ["printf", "print"] ["nothing", "print"] [] :=
      .skip (.inr rfl) (.skip (.inl (by decide)) .nil)
    have hvisits := @Routine.Visits.enter [] ["nothing", "print"] "printf" _ _ _ (by decide) rfl hneeds
      hothers
    exact ((hclosure _).2.1 _ hvisits).symm
  · have hok : (compile printing).isOk := by decide +kernel
    cases hcompile : compile printing with
    | error fault => simp [hcompile, Except.isOk, Except.toBool] at hok
    | ok program =>
      obtain ⟨front, names, session, hcode, -, -, honce⟩ := hprogram printing program hcompile
      exact ⟨program, front, names, session, rfl, hcode, honce⟩

end MiniC
