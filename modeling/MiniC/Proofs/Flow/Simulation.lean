import MiniC.Proofs.Emit.Targets
import MiniC.Proofs.Flow.Meaning

/-!
# Code does what statements mean

`Simulates` says that a run of items takes the steps that a meaning asks for: it comes to the items
behind a statement where the statement is done, to the label of the loop around it where it leaves or
continues that, and to a way out where it returns. The ways of putting statements together keep this.
-/

namespace MiniC.Flow

open Machine Forest Emit

variable {oracle : Oracle} {program : List Item} {steps steps' limit : Nat}
  {start middle after rest rest' : List Item} {trace trace' trace'' : Trace}

/-! ## The machine -/

/-- What has happened stays. -/
theorem prefix_machine : trace <+: (machine oracle program steps rest trace).1 := by
  induction steps generalizing rest trace with
  | zero => exact List.prefix_rfl
  | succ steps ih =>
    cases rest with
    | nil => exact List.prefix_rfl
    | cons item rest =>
      cases item with
      | event event code => exact (List.prefix_append trace [event]).trans ih
      | control instr => cases instr <;> exact ih
      | leave => exact List.prefix_rfl

/-- More steps continue a run. -/
theorem follows_machine (h : steps ≤ steps') :
    Follows (machine oracle program steps rest trace) (machine oracle program steps' rest trace) := by
  induction steps generalizing rest trace steps' with
  | zero => exact .inr ⟨rfl, prefix_machine⟩
  | succ steps ih =>
    obtain ⟨steps', rfl⟩ : ∃ n, steps' = n + 1 := ⟨steps' - 1, by omega⟩
    have hle : steps ≤ steps' := Nat.le_of_succ_le_succ h
    cases rest with
    | nil => exact .inl rfl
    | cons item rest =>
      cases item with
      | event => exact ih hle
      | control instr => cases instr <;> exact ih hle
      | leave => exact .inl rfl

/-- A run comes from some items and a trace to others in a number of steps. -/
def Goes (oracle : Oracle) (program : List Item) (steps : Nat) (rest : List Item) (trace : Trace)
    (rest' : List Item) (trace' : Trace) : Prop :=
  ∀ more, machine oracle program (more + steps) rest trace = machine oracle program more rest' trace'

namespace Goes

theorem refl : Goes oracle program 0 rest trace rest trace := fun _ => rfl

theorem trans (h : Goes oracle program steps start trace middle trace')
    (h' : Goes oracle program steps' middle trace' after trace'') :
    Goes oracle program (steps' + steps) start trace after trace'' := fun more => by
  rw [← Nat.add_assoc, h, h']

theorem event (event : Event) (code : Code) :
    Goes oracle program 1 (.event event code :: rest) trace rest (trace ++ [event]) := fun _ => rfl

theorem label (name : Label) :
    Goes oracle program 1 (.control (.label name) :: rest) trace rest trace := fun _ => rfl

theorem ssp (size : Nat) :
    Goes oracle program 1 (.control (.ssp size) :: rest) trace rest trace := fun _ => rfl

theorem ujp {target : Label} (h : seek target program = rest') :
    Goes oracle program 1 (.control (.ujp target) :: rest) trace rest' trace := fun _ => by
  rw [← h]
  rfl

theorem fjp (target : Label) :
    Goes oracle program 1 (.control (.fjp target) :: rest) trace
      (if oracle trace then rest else seek target program) trace := fun _ => rfl

end Goes

/-- A label is found where it stands, if no label is there twice. -/
theorem seek_eq {name : Label} (hnodup : (codeOf program).labels.Nodup)
    (h : .control (.label name) :: rest <:+ program) :
    seek name program = .control (.label name) :: rest := by
  obtain ⟨before, rfl⟩ := h
  have hbefore : ∀ item ∈ before, (!isLabel name item) = true := by
    intro item hitem
    by_contra hlabel
    have hmem : name ∈ (codeOf before).labels := by
      obtain ⟨instr, rfl⟩ : ∃ instr, item = .control instr := by
        cases item <;> simp_all [isLabel]
      have heq : instr = .label name := by
        cases instr <;> simp_all [isLabel]
      exact Code.mem_labels.mpr (List.mem_flatMap.mpr ⟨_, hitem, by simp [heq, Item.code]⟩)
    rw [codeOf_append, Code.labels_append] at hnodup
    exact (List.nodup_append.mp hnodup).2.2 name hmem name (by simp) rfl
  rw [seek, List.dropWhile_append_of_pos hbefore, List.dropWhile_cons_of_neg (by simp [isLabel])]

/-! ## Simulation -/

/-- Where a run of the machine comes to when a statement has ended with `result`: `after` is what stands
behind the statement, and `exit?` has the labels for leaving and for continuing the loop around it. -/
def Lands (oracle : Oracle) (program : List Item) (limit : Nat) (exit? : Bool → Option Label)
    (start : List Item) (trace : Trace) (after : List Item) (result : Trace × Ending) : Prop :=
  ∃ steps, match result.2 with
    | .next => Goes oracle program steps start trace after result.1
    | .broke => ∃ label, exit? true = some label ∧
      Goes oracle program steps start trace (seek label program) result.1
    | .continued => ∃ label, exit? false = some label ∧
      Goes oracle program steps start trace (seek label program) result.1
    | .returned => ∃ instr rest,
      Goes oracle program steps start trace (.leave true instr :: rest) result.1
    | .unfinished => limit ≤ steps ∧ ∃ rest, Goes oracle program steps start trace rest result.1

/-- The items `start` of a program do what `run` says, and then go on with `after`. A run that does not
finish takes at least `limit` steps. -/
def Simulates (oracle : Oracle) (program : List Item) (limit : Nat) (exit? : Bool → Option Label)
    (run : Run) (start after : List Item) : Prop :=
  ∀ trace, Lands oracle program limit exit? start trace after (run trace)

variable {exit? exit'? : Bool → Option Label} {run run' next body : Run} {result : Trace × Ending}
  {test : Test} {limit' : Nat} {yes no : List Item}

/-- What has been done before counts. -/
theorem Lands.of_goes (h : Goes oracle program steps start trace middle trace')
    (hlands : Lands oracle program limit exit? middle trace' after result)
    (hle : limit' ≤ limit + steps) : Lands oracle program limit' exit? start trace after result := by
  obtain ⟨steps', hresult⟩ := hlands
  refine ⟨steps' + steps, ?_⟩
  cases hending : result.2 with
  | next =>
    rw [hending] at hresult
    exact h.trans hresult
  | broke | continued =>
    rw [hending] at hresult
    obtain ⟨label, hlabel, hgoes⟩ := hresult
    exact ⟨label, hlabel, h.trans hgoes⟩
  | returned =>
    rw [hending] at hresult
    obtain ⟨instr, rest, hgoes⟩ := hresult
    exact ⟨instr, rest, h.trans hgoes⟩
  | unfinished =>
    rw [hending] at hresult
    obtain ⟨hfew, rest, hgoes⟩ := hresult
    exact ⟨by omega, rest, h.trans hgoes⟩

/-- A condition goes on with one of two lists of items. -/
def Decides (oracle : Oracle) (program : List Item) (test : Test) (start yes no : List Item) : Prop :=
  ∀ trace, ∃ steps, Goes oracle program steps start trace
    (if (test trace).2 then yes else no) (test trace).1

theorem Decides.always : Decides oracle program .always yes yes no := fun _ => ⟨0, .refl⟩

theorem Decides.asks (condition : NodeId) (code : Code) (target : Label) :
    Decides oracle program (.asks oracle condition) (jumpItems condition code target ++ yes) yes
      (seek target program) :=
  fun _ => ⟨2, (Goes.event _ _).trans (Goes.fjp target)⟩

namespace Simulates

theorem skip : Simulates oracle program limit exit? .skip after after := fun _ => ⟨0, .refl⟩

theorem does (event : Event) (code : Code) :
    Simulates oracle program limit exit? (.does event) (.event event code :: after) after :=
  fun _ => ⟨1, .event event code⟩

theorem andThen (h : Simulates oracle program limit exit? run start middle)
    (h' : Simulates oracle program limit exit? run' middle after) :
    Simulates oracle program limit exit? (run.andThen run') start after := by
  intro trace
  have hfirst := h trace
  cases hrun : run trace with
  | mk trace' ending =>
    rw [hrun] at hfirst
    cases ending with
    | next =>
      obtain ⟨steps, hgoes⟩ := hfirst
      simp only [Run.andThen, hrun]
      exact (h' trace').of_goes hgoes (Nat.le_add_right _ _)
    | _ =>
      simp only [Run.andThen, hrun]
      exact hfirst

/-- Items in front of those of a statement. -/
theorem before (h : Simulates oracle program limit exit? run middle after)
    (hgoes : ∀ trace, Goes oracle program steps start trace middle trace) :
    Simulates oracle program limit exit? run start after :=
  fun trace => (h trace).of_goes (hgoes trace) (Nat.le_add_right _ _)

/-- Items behind those of a statement. -/
theorem behind (h : Simulates oracle program limit exit? run start middle)
    (hgoes : ∀ trace, Goes oracle program steps middle trace after trace) :
    Simulates oracle program limit exit? run start after := by
  intro trace
  have hlands := h trace
  cases hrun : run trace with
  | mk trace' ending =>
    rw [hrun] at hlands
    cases ending with
    | next =>
      obtain ⟨steps, hfirst⟩ := hlands
      exact ⟨_, hfirst.trans (hgoes trace')⟩
    | _ => exact hlands

theorem choose (htest : Decides oracle program test start yes no)
    (hyes : Simulates oracle program limit exit? run yes after)
    (hno : Simulates oracle program limit exit? run' no after) :
    Simulates oracle program limit exit? (.choose test run run') start after := by
  intro trace
  obtain ⟨steps, hgoes⟩ := htest trace
  cases hanswer : test trace with
  | mk trace' holds =>
    simp only [hanswer] at hgoes
    cases holds with
    | true =>
      simp only [Run.choose, hanswer]
      exact (hyes trace').of_goes hgoes (Nat.le_add_right _ _)
    | false =>
      simp only [Run.choose, hanswer]
      exact (hno trace').of_goes hgoes (Nat.le_add_right _ _)

/-- A statement that always goes on with the next one needs no labels. -/
theorem of_next (h : Simulates oracle program limit exit'? run start after)
    (hnext : ∀ trace, (run trace).2 = .next) :
    Simulates oracle program limit exit? run start after := by
  intro trace
  obtain ⟨steps, hlands⟩ := h trace
  rw [hnext] at hlands
  refine ⟨steps, ?_⟩
  rw [hnext]
  exact hlands

/-- Every run with a lower bound for its steps has each smaller one. -/
theorem mono (h : Simulates oracle program limit exit? run start after) (hle : limit' ≤ limit) :
    Simulates oracle program limit' exit? run start after := by
  intro trace
  exact (h trace).of_goes .refl hle

/-- The body of a loop, and what follows it. -/
theorem afterBody {again : Run} (h : Simulates oracle program limit exit'? body start middle)
    (hagain : Simulates oracle program limit exit? again middle after)
    (hcontinue : ∀ label, exit'? false = some label →
      Simulates oracle program limit exit? again (seek label program) after)
    (hbreak : ∀ label, exit'? true = some label → ∀ trace,
      Goes oracle program steps (seek label program) trace after trace) :
    Simulates oracle program limit exit? (.afterBody body again) start after := by
  intro trace
  have hbody := h trace
  cases hrun : body trace with
  | mk trace' ending =>
    rw [hrun] at hbody
    simp only [Run.afterBody, hrun]
    cases ending with
    | next =>
      obtain ⟨steps, hgoes⟩ := hbody
      exact (hagain trace').of_goes hgoes (Nat.le_add_right _ _)
    | continued =>
      obtain ⟨steps, label, hlabel, hgoes⟩ := hbody
      exact (hcontinue label hlabel trace').of_goes hgoes (Nat.le_add_right _ _)
    | broke =>
      obtain ⟨steps, label, hlabel, hgoes⟩ := hbody
      exact ⟨_, hgoes.trans (hbreak label hlabel trace')⟩
    | returned | unfinished => exact hbody

/-- A loop: `start` is the label that every round begins with. Each round takes a step at least, so a
loop that is not finished has taken as many steps as it has been granted rounds. -/
theorem rounds (hstart : ∀ trace, Goes oracle program 1 start trace middle trace)
    (htest : Decides oracle program test middle yes no)
    (hbody : Simulates oracle program limit exit'? body yes rest)
    (hnext : Simulates oracle program limit exit? next rest start)
    (hcontinue : ∀ label, exit'? false = some label →
      Simulates oracle program limit exit? next (seek label program) start)
    (hbreak : ∀ label, exit'? true = some label → ∀ trace,
      Goes oracle program steps (seek label program) trace after trace)
    (hno : ∀ trace, Goes oracle program steps no trace after trace) (hle : limit' ≤ limit) :
    Simulates oracle program limit' exit? (.rounds test body next limit') start after := by
  induction limit' with
  | zero => exact fun trace => ⟨0, Nat.le_refl _, _, .refl⟩
  | succ n ih =>
    have hrest := ih (Nat.le_of_succ_le hle)
    have hfew : n ≤ limit := Nat.le_of_succ_le hle
    have hround : Simulates oracle program n exit?
        (.choose test (.afterBody body (next.andThen (.rounds test body next n))) .skip) middle
        after :=
      choose htest (afterBody (hbody.mono hfew) ((hnext.mono hfew).andThen hrest)
        (fun label hlabel => ((hcontinue label hlabel).mono hfew).andThen hrest) hbreak)
        (skip.before hno)
    exact fun trace => (hround trace).of_goes (hstart trace) (Nat.le_refl _)

end Simulates

/-! ## Statements -/

/-- The labels for leaving and for continuing a loop. -/
def exits (forest : Forest) (loop : Option NodeId) (leaving : Bool) : Option Label :=
  loop.bind fun loop => Resolve.jumpTarget? (forest.kind loop) leaving

/-- What statements do. -/
def doing (forest : Forest) (oracle : Oracle) (limit levels : Nat) : Piece → Run
  | .statement id => meaningWithin forest oracle limit levels id
  | .statements ids => .inOrder (ids.map (meaningWithin forest oracle limit levels))

/-- Statements that nest less deep than some number of levels. -/
def Shallow (forest : Forest) (levels : Nat) : Piece → Prop
  | .statement id => forest.weight id < levels
  | .statements ids => ∀ id ∈ ids, forest.weight id < levels

/-- Declarations and expressions go on with what is behind them. -/
theorem ending_of_clause {forest : Forest} {id : NodeId} {levels : Nat}
    (h : (forest.role id).IsClause) (hlevels : forest.weight id < levels) (trace : Trace) :
    (meaningWithin forest oracle limit levels id trace).2 = .next := by
  obtain ⟨levels, rfl⟩ : ∃ n, levels = n + 1 := ⟨levels - 1, by omega⟩
  rw [role] at h
  cases hk : forest.kind id with
  | declaration =>
    simp only [meaningWithin, hk]
    split <;> rfl
  | exprStatement =>
    simp only [meaningWithin, hk]
    rcases forest.children id with - | ⟨e, - | -⟩ <;> rfl
  | function | nothing =>
    simp only [meaningWithin, hk]
    rfl
  | type part => cases hform : part.form <;> simp [hk, Kind.role, hform, Role.IsClause] at h
  | _ => simp [hk, Kind.role, Role.IsClause] at h

variable {layout : Layout} {root : NodeId} {piece : Piece} {items : List Item} {levels : Nat}
  {loop : Option NodeId}

/-- The items in front of the body of a loop with three clauses. -/
theorem decides_guard {condition : NodeId} {target : Label}
    (h : Guards layout root condition target items) :
    Decides oracle program (guard layout.forest oracle condition) (items ++ yes) yes
      (seek target program) := by
  cases h with
  | always hnothing =>
    rw [guard, if_pos hnothing]
    exact .always
  | tested hrole htest =>
    rw [guard, if_neg fun hnothing => by simp [role, hnothing, Kind.role] at hrole]
    exact .asks _ _ _

/-- The items of a statement do what the statement means. -/
theorem simulates_of_lowered (h : Lowered layout root piece items)
    (hwhole : layout.forest.Whole root) (hnodup : (codeOf program).labels.Nodup)
    (hsuffix : items ++ after <:+ program) (hinside : piece.Inside layout.forest loop)
    (hlevels : Shallow layout.forest levels piece) :
    Simulates oracle program limit (exits layout.forest loop)
      (doing layout.forest oracle limit levels piece) (items ++ after) after := by
  have hdeclaration : ∀ {d}, (layout.forest.kind d).isDeclaration →
      ∃ name symbol, layout.forest.kind d = .declaration name symbol := by
    intro d hkind
    cases hk : layout.forest.kind d <;> simp_all [Kind.isDeclaration]
  have hlevel : ∀ {id levels}, Shallow layout.forest levels (.statement id) →
      ∃ n, levels = n + 1 := fun {_ levels} h => ⟨levels - 1, by simp only [Shallow] at h; omega⟩
  have hparts : ∀ {id c n}, Shallow layout.forest (n + 1) (.statement id) →
      c ∈ layout.forest.children id → Shallow layout.forest n (.statement c) := by
    intro id c n hid hc
    have := weight_lt hwhole.ranked hc
    simp only [Shallow] at hid ⊢
    omega
  have hnot : ∀ {id loop}, (layout.forest.kind id).isFunction = false ∧
      (layout.forest.kind id).isLoop = false → layout.forest.enclosingLoop id = loop →
      ∀ c ∈ layout.forest.children id, layout.forest.enclosingLoop c = loop :=
    fun hkind hid c hc => enclosingLoop_of_mem hwhole hkind.1 hkind.2 hid hc
  induction h generalizing loop levels after with
  | @declared d _ hkind hnone =>
    obtain ⟨n, rfl⟩ := hlevel hlevels
    obtain ⟨name, symbol, hk⟩ := hdeclaration hkind
    simp only [doing, meaningWithin, hk, hnone]
    exact .skip
  | initialized hd hinitial =>
    obtain ⟨n, rfl⟩ := hlevel hlevels
    obtain ⟨name, symbol, hk⟩ := hdeclaration hd.isDeclaration
    simp only [doing, meaningWithin, hk, hinitial]
    exact .does _ _
  | listed hd hinitial =>
    obtain ⟨n, rfl⟩ := hlevel hlevels
    obtain ⟨name, symbol, hk⟩ := hdeclaration hd.isDeclaration
    simp only [doing, meaningWithin, hk, hinitial]
    exact .does _ _
  | @function f hkind =>
    obtain ⟨n, rfl⟩ := hlevel hlevels
    obtain ⟨name, symbol, hk⟩ : ∃ name symbol, layout.forest.kind f = .function name symbol := by
      cases hk : layout.forest.kind f <;> simp_all [Kind.isFunction]
    simp only [doing, meaningWithin, hk]
    exact .skip
  | nothing hk =>
    obtain ⟨n, rfl⟩ := hlevel hlevels
    simp only [doing, meaningWithin, hk]
    exact .skip
  | exprStatement hk hchildren =>
    obtain ⟨n, rfl⟩ := hlevel hlevels
    simp only [doing, meaningWithin, hk, hchildren]
    exact .does _ _
  | leave hk hchildren =>
    obtain ⟨n, rfl⟩ := hlevel hlevels
    simp only [doing, meaningWithin, hk, hchildren]
    exact fun trace => ⟨0, _, _, .refl⟩
  | giveBack hk hchildren =>
    obtain ⟨n, rfl⟩ := hlevel hlevels
    simp only [doing, meaningWithin, hk, hchildren]
    exact fun trace => ⟨1, _, _, .event _ _⟩
  | @jump id around leaving label hjump =>
    obtain ⟨n, rfl⟩ := hlevel hlevels
    obtain rfl : loop = some around := hinside.symm.trans hjump.loop_eq
    have hk := hjump.kind_eq
    cases leaving with
    | true =>
      simp only [doing, meaningWithin, hk]
      exact fun trace => ⟨1, label, hjump.target_eq, .ujp rfl⟩
    | false =>
      simp only [doing, meaningWithin, hk]
      exact fun trace => ⟨1, label, hjump.target_eq, .ujp rfl⟩
  | block hk _ ih =>
    obtain ⟨n, rfl⟩ := hlevel hlevels
    simp only [doing, meaningWithin, hk]
    exact ih hsuffix (hnot ⟨by rw [hk]; rfl, by rw [hk]; rfl⟩ hinside)
      fun c hc => hparts hlevels hc
  | @ifThen id test yes labels code items hk hchildren _ _ ih =>
    obtain ⟨n, rfl⟩ := hlevel hlevels
    have hloop := hnot ⟨by rw [hk]; rfl, by rw [hk]; rfl⟩ hinside yes (by simp [hchildren])
    simp only [doing, meaningWithin, hk, hchildren]
    simp only [List.append_assoc, List.singleton_append] at hsuffix ⊢
    have hitems := (List.suffix_append _ _).trans hsuffix
    have hfinish := seek_eq hnodup ((List.suffix_append _ _).trans hitems)
    refine .choose (Decides.asks test code labels.finish)
      ((ih hitems hloop (hparts hlevels (by simp [hchildren]))).behind fun _ => .label _) ?_
    rw [hfinish]
    exact Simulates.skip.before fun _ => .label _
  | @ifElse id test yes no labels code items others hk hchildren _ _ _ ihyes ihno =>
    obtain ⟨n, rfl⟩ := hlevel hlevels
    have hloop := hnot ⟨by rw [hk]; rfl, by rw [hk]; rfl⟩ hinside
    simp only [doing, meaningWithin, hk, hchildren]
    simp only [List.append_assoc, List.cons_append, List.nil_append] at hsuffix ⊢
    have hitems := (List.suffix_append _ _).trans hsuffix
    have hotherwise := (List.suffix_cons _ _).trans ((List.suffix_append _ _).trans hitems)
    have hothers := (List.suffix_cons _ _).trans hotherwise
    have hfinish := seek_eq hnodup ((List.suffix_append _ _).trans hothers)
    have hyes := ihyes hitems (hloop yes (by simp [hchildren])) (hparts hlevels (by simp [hchildren]))
    have hno := ihno hothers (hloop no (by simp [hchildren])) (hparts hlevels (by simp [hchildren]))
    refine .choose (Decides.asks test code labels.otherwise)
      (hyes.behind fun _ => (Goes.ujp hfinish).trans (Goes.label _)) ?_
    rw [seek_eq hnodup hotherwise]
    exact (hno.behind fun _ => .label _).before fun _ => .label _
  | @whileLoop id test body labels code items hk hchildren _ _ ih =>
    obtain ⟨n, rfl⟩ := hlevel hlevels
    have hloop : layout.forest.enclosingLoop body = some id :=
      enclosingLoop_of_loop hwhole (by rw [hk]; rfl) (by simp [hchildren])
    simp only [doing, meaningWithin, hk, hchildren]
    simp only [List.append_assoc, List.cons_append, List.nil_append] at hsuffix ⊢
    have hitems := (List.suffix_append _ _).trans ((List.suffix_cons _ _).trans hsuffix)
    have hback := (List.suffix_append _ _).trans hitems
    have hstart := seek_eq hnodup hsuffix
    have hfinish := seek_eq hnodup ((List.suffix_cons _ _).trans hback)
    have hbody := ih hitems hloop (hparts hlevels (by simp [hchildren]))
    have hleave : ∀ trace, Goes oracle program 1 (seek labels.finish program) trace after trace :=
      fun _ => hfinish ▸ .label _
    refine .rounds (fun _ => .label _) (Decides.asks test code labels.finish) hbody
      (Simulates.skip.before fun _ => .ujp hstart) (fun label hlabel => ?_) (fun label hlabel => ?_)
      hleave (Nat.le_refl _)
    · obtain rfl : labels.start = label := by simpa [exits, hk, Resolve.jumpTarget?] using hlabel
      exact hstart ▸ .skip
    · obtain rfl : labels.finish = label := by simpa [exits, hk, Resolve.jumpTarget?] using hlabel
      exact hleave
  | @forLoop id start test next body labels first guard items others hk hchildren hclauses hguard _ _
      _ ihstart ihbody ihnext =>
    obtain ⟨n, rfl⟩ := hlevel hlevels
    have hloop : ∀ c ∈ layout.forest.children id, layout.forest.enclosingLoop c = some id :=
      fun c hc => enclosingLoop_of_loop hwhole (by rw [hk]; rfl) hc
    have hlevel : ∀ c ∈ layout.forest.children id, Shallow layout.forest n (.statement c) :=
      fun c hc => hparts hlevels hc
    simp only [doing, meaningWithin, hk, hchildren]
    simp only [List.append_assoc, List.cons_append, List.nil_append] at hsuffix ⊢
    have htop := (List.suffix_append _ _).trans hsuffix
    have hitems := (List.suffix_append _ _).trans ((List.suffix_cons _ _).trans htop)
    have hcontinue := (List.suffix_append _ _).trans hitems
    have hothers := (List.suffix_cons _ _).trans hcontinue
    have hback := (List.suffix_append _ _).trans hothers
    have hseekTop := seek_eq hnodup htop
    have hseekNext := seek_eq hnodup hcontinue
    have hseekFinish := seek_eq hnodup ((List.suffix_cons _ _).trans hback)
    have hfirst : Simulates oracle program limit (exits layout.forest loop) _ _ _ :=
      (ihstart hsuffix (hloop start (by simp [hchildren]))
        (hlevel start (by simp [hchildren]))).of_next fun trace =>
          ending_of_clause hclauses.1 (hlevel start (by simp [hchildren])) trace
    have hbody := ihbody hitems (hloop body (by simp [hchildren])) (hlevel body (by simp [hchildren]))
    have hnext : Simulates oracle program limit (exits layout.forest loop) _ _ _ :=
      ((ihnext hothers (hloop next (by simp [hchildren]))
        (hlevel next (by simp [hchildren]))).of_next fun trace =>
          ending_of_clause hclauses.2 (hlevel next (by simp [hchildren])) trace).behind fun _ =>
            .ujp hseekTop
    have hagain := hnext.before fun _ => .label labels.next
    have hleave : ∀ trace, Goes oracle program 1 (seek labels.finish program) trace after trace :=
      fun _ => hseekFinish ▸ .label _
    refine hfirst.andThen (.rounds (fun _ => .label _) (decides_guard hguard) hbody hagain
      (fun label hlabel => ?_) (fun label hlabel => ?_) hleave (Nat.le_refl _))
    · obtain rfl : labels.next = label := by simpa [exits, hk, Resolve.jumpTarget?] using hlabel
      exact hseekNext ▸ hagain
    · obtain rfl : labels.finish = label := by simpa [exits, hk, Resolve.jumpTarget?] using hlabel
      exact hleave
  | nil => exact .skip
  | @cons id others items rest _ _ ihitems ihothers =>
    obtain ⟨hid, hothers⟩ := List.forall_mem_cons.mp (show ∀ c ∈ _ :: _, _ from hinside)
    obtain ⟨hlevel, hlevels⟩ := List.forall_mem_cons.mp (show ∀ c ∈ _ :: _, _ from hlevels)
    rw [List.append_assoc] at hsuffix ⊢
    exact (ihitems hsuffix hid hlevel).andThen
      (ihothers ((List.suffix_append _ _).trans hsuffix) hothers hlevels)

end MiniC.Flow
