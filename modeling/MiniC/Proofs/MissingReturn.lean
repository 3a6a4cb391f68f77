import MiniC.Proofs.ControlFlow
import MiniC.Proofs.Flow.Graph
import MiniC.Proofs.Tags

/-!
# Missing returns

A program draws one warning for each function that has a body and a result, and whose body does not
surely return; the warnings stand in the order of the functions. The analysis agrees with the code: the
end of a function without a warning is not reached from its label, and that of one with a warning is
unless there is a loop in it without a condition.
-/

namespace MiniC

open Machine Forest Emit

/-- Whether a concern is a missing return. -/
def Concern.isMissingReturn : Concern → Bool
  | .missingReturn _ => true
  | .unmappedType _ => false

namespace Forest

variable {forest other : Forest} {id root : NodeId}

/-- A function that answers a value. -/
def HasResult (forest : Forest) (f : NodeId) : Prop :=
  (forest.type? f).any (!·.isVoid)

/-- A function that answers a value, with a body that does not surely return. -/
def Owes (forest : Forest) (f : NodeId) : Prop :=
  forest.HasResult f ∧ ∃ body, forest.child? f 2 = some body ∧ forest.surelyReturns body = false

/-- A warning that a function draws. -/
def WarnedBy (forest : Forest) (f : NodeId) (warning : Warning) : Prop :=
  ∃ name s, forest.kind f = .function name s ∧ warning = ⟨.missingReturn name, forest.line f⟩

theorem owesReturn?_eq_some_iff {name : String} :
    forest.owesReturn? id = some name ↔ (∃ s, forest.kind id = .function name s) ∧ forest.Owes id := by
  unfold owesReturn? Owes HasResult
  split
  · next found s body hkind hbody =>
    simp only [Option.ite_none_right_eq_some, Bool.and_eq_true, Bool.not_eq_true', Option.some.injEq, hkind, hbody, Kind.function.injEq]
    constructor
    · rintro ⟨⟨htype, hreturns⟩, rfl⟩
      exact ⟨⟨s, rfl, rfl⟩, htype, body, rfl, hreturns⟩
    · rintro ⟨⟨_, rfl, -⟩, htype, _, rfl, hreturns⟩
      exact ⟨⟨htype, hreturns⟩, rfl⟩
  · next hnone =>
    simp only [reduceCtorEq, false_iff]
    rintro ⟨⟨s, hkind⟩, -, body, hbody, -⟩
    exact hnone _ _ _ hkind hbody

/-- The warning that a node draws. -/
def warning? (forest : Forest) (id : NodeId) : Option Warning :=
  (forest.owesReturn? id).map fun name => ⟨.missingReturn name, forest.line id⟩

theorem warning?_eq_some_iff {warning : Warning} :
    forest.warning? id = some warning ↔ forest.WarnedBy id warning ∧ forest.Owes id := by
  simp only [warning?, Option.map_eq_some_iff, owesReturn?_eq_some_iff, WarnedBy]
  constructor
  · rintro ⟨name, ⟨⟨s, hkind⟩, howes⟩, rfl⟩
    exact ⟨⟨name, s, hkind, rfl⟩, howes⟩
  · rintro ⟨⟨name, s, hkind, rfl⟩, howes⟩
    exact ⟨name, ⟨⟨s, hkind⟩, howes⟩, rfl⟩

/-- A node that draws a warning is a function that owes a return. -/
theorem isSome_warning?_iff :
    (forest.warning? id).isSome ↔ (forest.kind id).isFunction ∧ forest.Owes id := by
  constructor
  · intro hsome
    obtain ⟨warning, hwarning⟩ := Option.isSome_iff_exists.mp hsome
    obtain ⟨⟨name, s, hkind, -⟩, hid⟩ := warning?_eq_some_iff.mp hwarning
    exact ⟨by rw [hkind]; rfl, hid⟩
  · rintro ⟨hfun, hid⟩
    obtain ⟨name, s, hkind⟩ : ∃ name s, forest.kind id = .function name s := by
      cases hk : forest.kind id <;> simp_all [Kind.isFunction]
    rw [warning?_eq_some_iff.mpr ⟨⟨name, s, hkind, rfl⟩, hid⟩]
    rfl

theorem forall₂_warnedBy (forest : Forest) (ids : List NodeId) :
    List.Forall₂ forest.WarnedBy (ids.filter fun id => (forest.warning? id).isSome)
      (ids.filterMap forest.warning?) := by
  induction ids with
  | nil => exact .nil
  | cons id ids ih =>
    cases hid : forest.warning? id with
    | none => simpa [List.filterMap_cons, hid] using ih
    | some warning =>
      have hwarned := (warning?_eq_some_iff.mp hid).1
      simpa [List.filterMap_cons, hid] using List.Forall₂.cons hwarned ih

/-- Missing returns are reported behind the warnings that there are already. -/
theorem warnings_warnReturns_eq (hroot : forest.root = some root) (session : Session) :
    (forest.warnReturns session).warnings =
      session.warnings ++ (forest.preorder root).filterMap forest.warning? := by
  simp only [warnReturns, hroot]
  induction forest.preorder root generalizing session with
  | nil => simp
  | cons id ids ih =>
    rw [List.foldl_cons, ih, List.filterMap_cons, warning?]
    cases forest.owesReturn? id with
    | none => rfl
    | some name => simp

namespace Pooled

variable (h : Pooled forest other)

include h

theorem returnsWithin_eq (levels : Nat) (id : NodeId) :
    other.returnsWithin levels id = forest.returnsWithin levels id := by
  induction levels generalizing id with
  | zero => rfl
  | succ levels ih =>
    simp only [returnsWithin, h.children_eq, h.child?_eq, funext ih]
    rcases (h.kind_same id).eq_or_string with heq | ⟨value, pool, pool', heq, heq'⟩
    · rw [heq]
    · rw [heq, heq']

theorem warning?_eq : other.warning? id = forest.warning? id := by
  simp only [warning?, owesReturn?, surelyReturns, h.type_eq, h.child?_eq, h.size_eq,
    h.returnsWithin_eq, h.line_eq]
  rcases (h.kind_same id).eq_or_string with heq | ⟨value, pool, pool', heq, heq'⟩
  · rw [heq]
    rfl
  · rw [heq, heq']

end Pooled

end Forest

namespace Compilation

variable {source : String} (c : Compilation source) {f : NodeId} {start finish : Code}

/-- The warnings of missing returns are those of the functions that owe a return. -/
theorem missingReturns_eq : c.program.warnings.filter (·.concern.isMissingReturn) =
    (c.layout.forest.preorder c.root).filterMap c.layout.forest.warning? := by
  have hpooled := c.isLaid.pooled
  obtain ⟨output, hextends, hlibrary⟩ := c.isRight.library
  obtain ⟨more, hmore, hunmapped⟩ := hextends.reported
  have hcompiled : c.program.warnings = c.resolution.session.warnings ++ more := by
    have hroutines := warnings_routines output.session (Routine.closure output.used)
    rw [hlibrary] at hroutines
    exact hroutines.trans hmore
  have hresolution : c.resolution.session.warnings =
      (c.layout.forest.preorder c.root).filterMap c.layout.forest.warning? := by
    have hanalyse := c.analyse_eq
    rcases Resolve.program_cases c.isParsed {} with
      ⟨resolution, hprogram, hresolved, hwarnings⟩ | ⟨_, hprogram, -⟩
    · rw [analyse, hprogram] at hanalyse
      rw [← Except.ok.inj hanalyse] at hpooled ⊢
      show (resolution.forest.warnReturns resolution.session).warnings = _
      rw [warnings_warnReturns_eq (hpooled.root_eq.symm.trans c.isLaid.sound.whole.root_eq), hwarnings,
        List.nil_append, ← hpooled.preorder_eq]
      exact List.filterMap_congr fun id _ => hpooled.warning?_eq.symm
    · rw [analyse, hprogram] at hanalyse
      cases hanalyse
  have hmissing : ∀ warning ∈ (c.layout.forest.preorder c.root).filterMap c.layout.forest.warning?,
      warning.concern.isMissingReturn = true := by
    intro warning hwarning
    obtain ⟨id, -, hid⟩ := List.mem_filterMap.mp hwarning
    obtain ⟨⟨name, s, -, rfl⟩, -⟩ := warning?_eq_some_iff.mp hid
    rfl
  have hothers : ∀ warning ∈ more, ¬warning.concern.isMissingReturn = true := by
    intro warning hwarning
    obtain ⟨text, htext⟩ := hunmapped warning hwarning
    simp [htext, Concern.isMissingReturn]
  rw [hcompiled, hresolution, List.filter_append, List.filter_eq_self.mpr hmissing,
    List.filter_eq_nil_iff.mpr hothers, List.append_nil]

/-- The functions of a program that draw its warnings of missing returns, in the order in which they
stand. -/
def WarnedFor (owing : List NodeId) : Prop :=
  owing.Sublist (c.layout.forest.definitions c.root) ∧
    (∀ f ∈ c.layout.forest.definitions c.root, f ∈ owing ↔ c.layout.forest.Owes f) ∧
    List.Forall₂ c.layout.forest.WarnedBy owing
      (c.program.warnings.filter (·.concern.isMissingReturn))

theorem exists_warnedFor : ∃ owing, c.WarnedFor owing := by
  refine ⟨(c.layout.forest.definitions c.root).filter fun id => (c.layout.forest.warning? id).isSome,
    List.filter_sublist, fun f hf => ?_, ?_⟩
  · have hfun := ((mem_definitions c.isLaid.sound.whole.ranked).mp hf).2.1
    simp only [List.mem_filter, hf, isSome_warning?_iff, hfun, true_and]
  · rw [c.missingReturns_eq, definitions, List.filter_filter]
    convert c.layout.forest.forall₂_warnedBy _ using 1
    refine List.filter_congr fun id _ => ?_
    by_cases hsome : (c.layout.forest.warning? id).isSome
    · obtain ⟨hfun, -, body, hbody, -⟩ := isSome_warning?_iff.mp hsome
      simp [hsome, hfun, hbody]
    · simp [hsome]

/-- The code of a function that answers a value goes from `start`, where its label stands, to `finish`,
which is the return behind its last statement. -/
structure Spans (f : NodeId) (start finish : Code) : Prop where
  items : ∃ items rest, Sectioned c.layout c.root f (items ++ [.leave false .retf]) ∧
    start = codeOf items ++ finish ∧ finish = .retf :: rest
  inside : start <:+ c.program.code

theorem exists_spans (hf : f ∈ c.layout.forest.definitions c.root)
    (hresult : c.layout.forest.HasResult f) : ∃ start finish, c.Spans f start finish := by
  obtain ⟨items, after, program, hsectioned, hsuffix, hsplit⟩ := c.exists_split hf
  have hsection := hsectioned
  obtain ⟨hmem, hsymbol, hsignature, hchildren, hbody⟩ := hsectioned
  next s signature _ _ _ items =>
  obtain ⟨hroot, hfun, -⟩ := (mem_definitions c.isLaid.sound.whole.ranked).mp hf
  obtain ⟨name, symbol, hk⟩ : ∃ name symbol, c.layout.forest.kind f = .function name symbol := by
    cases hk : c.layout.forest.kind f <;> simp_all [Kind.isFunction]
  have hrule := (c.isLaid.sound.statement f hroot (by rw [role, hk]; trivial)).rule
  unfold StatementRule at hrule
  simp only [hk] at hrule
  obtain ⟨s', _, result, rfl, -, -, htype, hsame, -⟩ := hrule
  obtain rfl : s' = s := by simpa [hk, Kind.symbol?] using hsymbol
  have hvoid : (c.layout.table.symbol s').type.isVoid = false := by
    rw [HasResult, htype] at hresult
    rw [Ty.isVoid_eq_of_same hsame]
    simpa using hresult
  rw [hvoid] at hsection hsuffix
  refine ⟨_, .retf :: codeOf after, ⟨_, _, hsection, rfl, rfl⟩, ?_⟩
  obtain ⟨before, hprogram⟩ := hsuffix
  refine ⟨codeOf before, ?_⟩
  rw [← hsplit.code_eq, ← hprogram]
  simp [Item.code]

/-- The statements of a function stand between its first two instructions and its end. -/
theorem Spans.exists_lowered {c : Compilation source} (h : c.Spans f start finish) :
    ∃ body label size items rest, c.layout.forest.child? f 2 = some body ∧
      (∀ n ∈ c.layout.forest.children body, c.layout.forest.enclosingLoop n = none ∧
        c.layout.forest.owningFunction n = some f) ∧
      (c.layout.forest.surelyReturns body =
        Flow.surely c.layout.forest c.layout.forest.size (.statements (c.layout.forest.children body))) ∧
      Flow.Shallow c.layout.forest c.layout.forest.size (.statements (c.layout.forest.children body)) ∧
      Lowered c.layout c.root (.statements (c.layout.forest.children body)) items ∧
      start = .label label :: .ssp size :: (codeOf items ++ finish) ∧ finish = .retf :: rest := by
  have hwhole := c.isLaid.sound.whole
  obtain ⟨items, rest, hsectioned, rfl, rfl⟩ := h.items
  generalize hall : items ++ [.leave false .retf] = all at hsectioned
  obtain ⟨hf, -, -, hchildren, hbody⟩ := hsectioned
  next s signature result params body lowered =>
  obtain ⟨rfl, -⟩ := List.append_inj' hall rfl
  obtain ⟨_, _, body', hchildren', -, -, hrole⟩ := hwhole.exists_body hf
  obtain rfl : body = body' := by simp_all
  have hkind := Kind.eq_block hrole
  have hmem : body ∈ c.layout.forest.children f := by simp [hchildren]
  have hfun := ((mem_definitions hwhole.ranked).mp hf).2.1
  have howner : c.layout.forest.owningFunction body = some f := by
    rw [owningFunction_of_mem_children hwhole.linked hwhole.ranked hmem, around, if_pos hfun]
  refine ⟨body, signature.label, c.layout.sizeOf (some f), lowered, rest, by rw [child?, hchildren]; rfl, fun n hn => ⟨?_, ?_⟩, ?_, ?_, hbody,
    by simp [Item.code], rfl⟩
  · exact enclosingLoop_of_mem hwhole (by rw [hkind]; rfl) (by rw [hkind]; rfl)
      (enclosingLoop_of_function hwhole hfun hmem) hn
  · exact owner_of_mem hwhole (by rw [hkind]; rfl) howner hn
  · exact returnsWithin_block hkind _
  · exact fun n hn => Nat.lt_of_lt_of_le (weight_lt hwhole.ranked hn) (weight_le _ _)

/-- The end of a function that surely returns is not reached. -/
theorem Spans.not_reaches {c : Compilation source} (h : c.Spans f start finish)
    (hresult : c.layout.forest.HasResult f) (howes : ¬c.layout.forest.Owes f) :
    ¬Reaches c.program.code start finish := by
  obtain ⟨body, label, size, items, rest, hbody, hchildren, hsurely, -, hlowered, hstart, hfinish⟩ :=
    h.exists_lowered
  have hreturns : c.layout.forest.surelyReturns body = true := by
    by_contra hnot
    exact howes ⟨hresult, body, hbody, Bool.eq_false_iff.mpr hnot⟩
  have hinside := h.inside
  rw [hstart] at hinside
  refine Misses.not_reaches fun steps => ?_
  rw [hstart]
  refine (Misses.pass (by simp; omega) rfl (Misses.pass (by simp) rfl ?_).of_succ).of_succ
  refine Flow.misses_of_lowered hlowered
    c.isLaid.sound.whole c.nodup_labels ((List.suffix_cons _ _).trans ((List.suffix_cons _ _).trans hinside))
    (fun n hn => (hchildren n hn).1) (Nat.le_refl _)
    (fun hnone : Flow.surely c.layout.forest c.layout.forest.size _ = false => ?_) ?_
  · rw [hsurely, hnone] at hreturns
    cases hreturns
  · rintro label rest ⟨around, leaving, hnone, -⟩
    cases hnone

/-- The end of a function that does not surely return is reached, if every loop has a condition. -/
theorem Spans.reaches {c : Compilation source} (h : c.Spans f start finish)
    (howes : c.layout.forest.Owes f)
    (hloops : ∀ n body, c.layout.forest.child? f 2 = some body → c.layout.forest.Below n body →
      c.layout.forest.owningFunction n = some f → c.layout.forest.HasCondition n) :
    Reaches c.program.code start finish := by
  obtain ⟨body, label, size, items, rest, hbody, hchildren, hsurely, hshallow, hlowered, hstart, -⟩ :=
    h.exists_lowered
  obtain ⟨-, body', hbody', hreturns⟩ := howes
  obtain rfl : body = body' := Option.some.inj (hbody.symm.trans hbody')
  have hinside := h.inside
  rw [hstart] at hinside ⊢
  refine .head (.next rfl) (.head (.next rfl) ?_)
  exact Flow.reaches_of_lowered hlowered c.isLaid.sound.whole
    ((List.suffix_cons _ _).trans ((List.suffix_cons _ _).trans hinside))
    (fun n hn => (hchildren n hn).1) hshallow (hsurely ▸ hreturns) (fun n hn => (hchildren n hn).2)
    fun n hn m hm howner => hloops m body hbody (.child hn hm) howner

end Compilation

/-- A program draws one warning for each function that owes a return, in the order of the functions. The
end of a function that answers a value is not reached from its label if the function draws no warning; if
it draws one, its end is reached unless there is a loop in it without a condition. -/
theorem missing_returns_exact {source : String} (c : Compilation source) :
    (∃ owing, c.WarnedFor owing) ∧
    ∀ f ∈ c.layout.forest.definitions c.root, c.layout.forest.HasResult f →
      ∃ start finish, c.Spans f start finish ∧
        (¬c.layout.forest.Owes f → ¬Reaches c.program.code start finish) ∧
        (c.layout.forest.Owes f →
          (∀ n body, c.layout.forest.child? f 2 = some body → c.layout.forest.Below n body →
            c.layout.forest.owningFunction n = some f → c.layout.forest.HasCondition n) →
          Reaches c.program.code start finish) := by
  refine ⟨c.exists_warnedFor, fun f hf hresult => ?_⟩
  obtain ⟨start, finish, hspans⟩ := c.exists_spans hf hresult
  exact ⟨start, finish, hspans, hspans.not_reaches hresult, hspans.reaches⟩

end MiniC
