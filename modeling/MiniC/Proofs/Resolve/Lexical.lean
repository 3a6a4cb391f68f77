import MiniC.Proofs.Resolve.Moment
import MiniC.Proofs.Resolve.Signature

/-!
# The moments of a resolution

Statements are resolved in the order of the text, and scopes are opened and closed as the tree says.
So the moment before a statement has as its past what is in sight of the statement, and the moment
behind it also what is declared below it: each form of statement takes the one to the other.
-/

namespace MiniC

open Forest

variable {parsed : Forest}

/-- What is in sight behind a node or declared below it. -/
def Forest.Behind (forest : Forest) (n d : NodeId) : Prop := forest.InSight d n ∨ forest.Below d n

namespace Resolve

open Ensures

variable {α : Type} {state next : Resolution} {scopes left right : List NodeId}
  {past : NodeId → Prop} {id n p c : NodeId} {name : String}

/-- What a step leads to holds where it is not refused. -/
theorem Leads.ensures {Done : Resolution → Resolution → Prop}
    {Stopped : Fault → Resolution → Resolution → Prop} {step : Resolve α}
    {post : α → Resolution → Prop} (h : Leads Done Stopped step state post)
    (hstart : Done state state) :
    Ensures step state Fault.Any fun value next => Done state next ∧ post value next := by
  have hstep := h.leads hstart
  unfold Ensures
  split at hstep
  · next heq => simpa [heq] using hstep
  · next heq => simp [heq, Fault.Any]

/-! ## Steps that only look -/

theorem ensures_child_of {slot : Nat} {post : NodeId → Resolution → Prop}
    (h : ∀ c, state.forest.child? id slot = some c → post c state) :
    Ensures (child id slot) state Fault.Any post := by
  cases hc : state.forest.child? id slot with
  | none => simp [child, hc, Fault.Any]
  | some c => exact (ensures_child hc).mpr (h c hc)

theorem ensures_writtenType_of {slot : Nat} {post : Ty → Resolution → Prop}
    (h : ∀ written type, state.forest.child? id slot = some written →
      state.forest.typeOf? written = some type → post type state) :
    Ensures (writtenType id slot) state Fault.Any post := by
  simp only [writtenType, bind_iff, ensures_forest]
  refine ensures_child_of fun written hwritten => ?_
  cases htype : state.forest.typeOf? written with
  | none => simp [Fault.Any]
  | some type => exact h written type hwritten htype

/-! ## Steps that bind nothing -/

namespace Moment

/-- Before resolution a node has the kind that it has now, without what has been found out. -/
theorem kind_eq (h : Moment parsed state scopes past) (hraw : parsed.Raw) {n : Nat}
    (hn : n < parsed.size) : parsed.kind n = (state.forest.kind n).plain := h.grown.kind_eq hraw hn

theorem update (h : Moment parsed state scopes past) {change : Node → Node}
    (hkept : (state.forest.node id).Kept (change (state.forest.node id)))
    (hsymbol : (change (state.forest.node id)).kind.symbol? = (state.forest.kind id).symbol?) :
    Moment parsed { state with forest := state.forest.update id change } scopes past := by
  refine h.quiet (.update h.grown.woven hkept) rfl fun m hm => ?_
  by_cases hid : m = id
  · subst hid
    have hlt : m < state.forest.size := Nat.lt_of_lt_of_le hm h.grown.size_le
    rw [symbol?, kind, node_update _ _ _ _ hlt, if_pos rfl, hsymbol, symbol?]
  · rw [symbol?, kind, node_update_of_ne _ _ hid, symbol?, kind]

theorem annotated (h : Moment parsed state scopes past) (id : NodeId) :
    Moment parsed (annotated state id) scopes past := h.update ⟨rfl, rfl, rfl, rfl, rfl⟩ rfl

theorem setType (h : Moment parsed state scopes past) (id : NodeId) (type : Ty) :
    Moment parsed { state with forest := state.forest.setType id type } scopes past :=
  h.update ⟨rfl, rfl, rfl, rfl, rfl⟩ rfl

theorem setKind (h : Moment parsed state scopes past) {kind : Kind}
    (hplain : kind.plain = (state.forest.kind id).plain)
    (hsymbol : kind.symbol? = (state.forest.kind id).symbol?) :
    Moment parsed { state with forest := state.forest.setKind id kind } scopes past :=
  h.update ⟨hplain, rfl, rfl, rfl, rfl⟩ hsymbol

/-- Labels that are drawn in between make no difference. -/
theorem session (h : Moment parsed state scopes past) (session : Session) :
    Moment parsed { state with session } scopes past := { h with }

theorem pending (h : Moment parsed state scopes past) (pending : List (SymbolId × Nat)) :
    Moment parsed { state with pending } scopes past := { h with }

/-! ## From child to child -/

section Children

variable (left) (hraw : parsed.Raw) (hsplit : parsed.children p = left ++ c :: right)

include hraw hsplit

theorem before (h : Moment parsed state scopes (parsed.Met p left)) :
    Moment parsed state scopes fun d => parsed.InSight d c :=
  h.congr fun _ _ _ => (inSight_child_iff hraw.linked hraw.ranked hsplit).symm

theorem behind (h : Moment parsed state scopes (parsed.Behind c)) :
    Moment parsed state scopes (parsed.Met p (left ++ [c])) :=
  h.congr fun _ _ _ => (met_behind_iff hraw.linked hraw.ranked hsplit).symm

omit hraw hsplit

/-- Nothing happens at a child below which nothing is declared. -/
theorem skip (hnone : ∀ d name, parsed.Below d c → ¬parsed.Declares d name) :
    Moment parsed state scopes (parsed.Met p (left ++ [c])) ↔
      Moment parsed state scopes (parsed.Met p left) := by
  have hiff : ∀ d name, parsed.Declares d name →
      (parsed.Met p (left ++ [c]) d ↔ parsed.Met p left d) := fun d name hd =>
    met_snoc_iff fun hbelow => hnone d name hbelow hd
  exact ⟨fun h => h.congr hiff, fun h => h.congr fun d name hd => (hiff d name hd).symm⟩

/-- At the first child of a node that is no function. -/
theorem first (hfunction : (parsed.kind n).isFunction = false) :
    Moment parsed state scopes (parsed.Met n []) ↔
      Moment parsed state scopes fun d => parsed.InSight d n := by
  have hiff : ∀ d, parsed.Met n [] d ↔ parsed.InSight d n := fun d => by simp [Met, hfunction]
  exact ⟨fun h => h.congr fun d _ _ => hiff d, fun h => h.congr fun d _ _ => (hiff d).symm⟩

/-- Behind the last child of a node, which is a function if it declares something. -/
theorem last (h : Moment parsed state scopes (parsed.Met n (parsed.children n)))
    (hn : ∀ name, parsed.Declares n name → (parsed.kind n).isFunction) :
    Moment parsed state scopes (parsed.Behind n) := by
  refine h.congr fun d name hd => ?_
  rw [Behind, ← met_children_iff]
  refine ⟨.inl, ?_⟩
  rintro (h | rfl)
  · exact h
  · exact .inr (.inr ⟨rfl, hn name hd⟩)

end Children

end Moment

/-! ## Expressions -/

section Mute

variable (left) (hraw : parsed.Raw) (hsplit : parsed.children p = left ++ c :: right)
  (hmute : (parsed.role c).IsMute) (henclosed : parsed.Enclosed c scopes)
  (h : Moment parsed state scopes (parsed.Met p left))

include hraw hmute in
theorem Moment.skip_mute : Moment parsed state scopes (parsed.Met p (left ++ [c])) ↔
    Moment parsed state scopes (parsed.Met p left) :=
  Moment.skip left fun _ _ hbelow => hraw.not_declares hmute hbelow

include hraw hsplit hmute henclosed h

/-- A step at an expression may look names up and bind them. -/
theorem Moment.consulting {step : Resolve α} {post : α → Resolution → Prop}
    (hstep : Consulting parsed c step state post) :
    Ensures step state Fault.Any fun _ next =>
      Moment parsed next scopes (parsed.Met p (left ++ [c])) := by
  refine (hstep.ensures (.refl ⟨hraw.linked, hraw.ranked⟩ h.grown)).imp ?_
  rintro _ next ⟨hconsults, -⟩
  refine (skip_mute left hraw hmute).mpr (h.consults hconsults fun u hu => ?_)
  obtain ⟨hu', hsight⟩ := hraw.mute_below hmute hu henclosed
  exact ⟨hu', fun d name hd =>
    (hsight d name hd).trans (inSight_child_iff hraw.linked hraw.ranked hsplit)⟩

omit hmute henclosed in
/-- What stands in a slot is visited for the child that was there. -/
theorem Moment.visited {top : NodeId} (htop : state.forest.child? p left.length = some top) :
    Visited parsed c state.forest top := by
  have hc : c ∈ parsed.children p := by simp [hsplit]
  obtain ⟨c', hc', -, hstands⟩ := h.grown.exists_child (lt_size_of_mem_children hc) htop
  obtain rfl : c = c' := by simpa [child?, hsplit] using hc'
  exact ⟨h.grown.woven.owned_of_mem (List.mem_of_getElem? htop), c, hraw.linked.lt_size hc, hstands,
    .refl⟩

/-- A step at what stands in the slot of an expression. -/
theorem Moment.part {step : NodeId → Resolve α} {post : α → Resolution → Prop}
    (hstep : ∀ top, Visited parsed c state.forest top → Consulting parsed c (step top) state post) :
    Ensures (child p left.length >>= step) state Fault.Any fun _ next =>
      Moment parsed next scopes (parsed.Met p (left ++ [c])) := by
  rw [bind_iff]
  exact ensures_child_of fun top htop =>
    h.consulting left hraw hsplit hmute henclosed (hstep top (h.visited left hraw hsplit htop))

end Mute

/-! ## Control statements -/

/-- A statement that comes next. It is no body of a function. -/
structure Upcoming (parsed : Forest) (state : Resolution) (n : NodeId) (scopes : List NodeId) :
    Prop where
  lt_size : n < parsed.size
  role : (parsed.role n).IsStatement
  no_body : ∀ f, parsed.parent n = some f → (parsed.kind f).isFunction = false
  enclosed : parsed.Enclosed n scopes
  moment : Moment parsed state scopes fun d => parsed.InSight d n

/-- The resolver takes the moment before a statement to the one behind it. -/
def Handles (parsed : Forest) (inner : NodeId → Resolve Unit) : Prop :=
  ∀ {n state scopes}, Upcoming parsed state n scopes →
    Ensures (inner n) state Fault.Any fun _ next => Moment parsed next scopes (parsed.Behind n)

section Control

variable {inner : NodeId → Resolve Unit} (left) (hraw : parsed.Raw) (hinner : Handles parsed inner)

include hraw hinner

/-- A statement below one that is no function. -/
theorem Handles.part (hsplit : parsed.children p = left ++ c :: right)
    (hp : (parsed.kind p).isFunction = false) (hrole : (parsed.role c).IsStatement)
    (henclosed : parsed.Enclosed c scopes) (h : Moment parsed state scopes (parsed.Met p left)) :
    Ensures (inner c) state Fault.Any fun _ next =>
      Moment parsed next scopes (parsed.Met p (left ++ [c])) := by
  have hc : c ∈ parsed.children p := by simp [hsplit]
  refine (hinner ⟨hraw.linked.lt_size hc, hrole, fun f hf => ?_, henclosed,
    h.before left hraw hsplit⟩).imp fun _ _ hbehind => hbehind.behind left hraw hsplit
  rw [hraw.linked.parent_of_mem hc, Option.some.injEq] at hf
  exact hf ▸ hp

/-- The same, with the statement found in its slot. -/
theorem Handles.inSlot (hsplit : parsed.children p = left ++ c :: right)
    (hp : (parsed.kind p).isFunction = false) (hrole : (parsed.role c).IsStatement)
    (henclosed : parsed.Enclosed c scopes) (h : Moment parsed state scopes (parsed.Met p left))
    {post : Resolution → Prop}
    (hpost : ∀ next, Moment parsed next scopes (parsed.Met p (left ++ [c])) → post next) :
    Ensures (child p left.length) state Fault.Any fun top state =>
      Ensures (inner top) state Fault.Any fun _ next => post next := by
  have hfree := fun m => Kind.isConversion_of_fresh (hraw.fresh m).kind
  have hc : parsed.child? p left.length = some c := by simp [child?, hsplit]
  rw [ensures_child (h.grown.child?_eq ⟨hraw.linked, hraw.ranked⟩ hfree hc
    (Role.ne_of_isStatement hrole))]
  exact (hinner.part left hraw hsplit hp hrole henclosed h).imp fun _ => hpost

/-- Statements one after the other. -/
theorem Handles.inTurn (hp : (parsed.kind p).isFunction = false)
    (hroles : ∀ c ∈ parsed.children p, (parsed.role c).IsStatement)
    (henclosed : ∀ c ∈ parsed.children p, parsed.Enclosed c scopes) {nodes : List NodeId} :
    ∀ {state left}, parsed.children p = left ++ nodes →
      Moment parsed state scopes (parsed.Met p left) →
      Ensures (each nodes inner) state Fault.Any fun _ next =>
        Moment parsed next scopes (parsed.Met p (parsed.children p)) := by
  induction nodes with
  | nil =>
    intro state left hsplit h
    rw [List.append_nil] at hsplit
    exact hsplit ▸ h
  | cons c nodes ih =>
    intro state left hsplit h
    have hc : c ∈ parsed.children p := by simp [hsplit]
    simp only [each, bind_iff]
    refine (hinner.part _ hraw hsplit hp (hroles c hc) (henclosed c hc) h).imp fun _ next hnext => ?_
    exact ih (by rw [hsplit, List.append_assoc]; rfl) hnext

omit hinner in
/-- A condition is an expression. -/
theorem Moment.condition {slot : Nat} (hsplit : parsed.children p = left ++ c :: right)
    (hmute : (parsed.role c).IsMute) (henclosed : parsed.Enclosed c scopes)
    (h : Moment parsed state scopes (parsed.Met p left)) (hslot : left.length = slot) :
    Ensures (Resolve.condition p slot) state Fault.Any fun _ next =>
      Moment parsed next scopes (parsed.Met p (left ++ [c])) :=
  hslot ▸ h.part left hraw hsplit hmute henclosed fun _ htop => consulting_coerced htop .int

variable (h : Upcoming parsed state n scopes)

include h

namespace Upcoming

omit hraw hinner in
theorem annotated : Upcoming parsed (annotated state n) n scopes :=
  { h with moment := h.moment.annotated n }

omit hinner in
/-- A statement that opens a scope is in sight of nothing in it. -/
theorem enter (hkind : parsed.kind n ≠ .file) :
    Moment parsed { state with table := state.table.enter } (n :: scopes)
      fun d => parsed.InSight d n :=
  h.moment.enter hkind fun _ _ hd hsight =>
    hsight.not_below hraw.linked hraw.ranked (hd.below hraw.ranked).1

omit hinner in
theorem kind_eq {kind : Kind} (hkind : state.forest.kind n = kind) : parsed.kind n = kind.plain :=
  hkind ▸ h.moment.kind_eq hraw h.lt_size

omit hraw hinner in
/-- A statement that gets its labels. -/
theorem labels (kind : Kind) (hplain : kind.plain = (state.forest.kind n).plain)
    (hnone : kind.symbol? = none) (hsymbol : (state.forest.kind n).symbol? = none)
    (session : Session) :
    Upcoming parsed { state with forest := state.forest.setKind n kind, session } n scopes :=
  { h with moment := (h.moment.setKind hplain (hnone.trans hsymbol.symm)).session session }

end Upcoming

theorem Handles.of_block (hkind : state.forest.kind n = .block) :
    Ensures (inScope (each (state.forest.children n) inner)) state Fault.Any fun _ next =>
      Moment parsed next scopes (parsed.Behind n) := by
  have hkind : parsed.kind n = .block := h.kind_eq hraw hkind
  have hfree := fun m => Kind.isConversion_of_fresh (hraw.fresh m).kind
  have hholds := hraw.shaped n
  rw [hkind] at hholds
  have hroles : ∀ c ∈ parsed.children n, (parsed.role c).IsStatement := fun c hc =>
    hholds _ (List.mem_map_of_mem hc)
  have hopens : ∀ c ∈ parsed.children n, parsed.Enclosed c (n :: scopes) := fun c hc =>
    .inside hc (by simpa only [Opens, hkind] using h.no_body) h.enclosed
  have hfunction : (parsed.kind n).isFunction = false := by rw [hkind]; rfl
  rw [ensures_inScope, h.moment.grown.children_eq ⟨hraw.linked, hraw.ranked⟩ hfree h.lt_size
    fun c hc => Role.ne_of_isStatement (hroles c hc)]
  refine (hinner.inTurn hraw hfunction hroles hopens rfl ((Moment.first hfunction).mpr
    (h.enter hraw (by simp [hkind])))).imp fun _ next hnext => ?_
  refine hnext.leave.last fun name hd => ?_
  simpa [hkind, role, Kind.role, Role.IsDeclaring] using hd.isDeclaring

omit hraw hinner h in
/-- Behind a statement that declares nothing itself. -/
theorem Moment.last_quiet (hquiet : ¬(parsed.role n).IsDeclaring)
    (hlast : Moment parsed next scopes (parsed.Met n (parsed.children n))) :
    Moment parsed next scopes (parsed.Behind n) :=
  hlast.last fun _ hd => absurd hd.isDeclaring hquiet

theorem Handles.of_ifElse {labels : Option IfLabels}
    (hkind : state.forest.kind n = .ifElse labels) :
    Ensures (ifElse inner n) state Fault.Any fun _ next =>
      Moment parsed next scopes (parsed.Behind n) := by
  have hkind' : parsed.kind n = .ifElse none := h.kind_eq hraw hkind
  have hholds := hraw.shaped n
  rw [hkind'] at hholds
  obtain ⟨test, yes, others, hchildren, htest, hyes, hothers⟩ := exists_branches hholds
  have hfunction : (parsed.kind n).isFunction = false := by rw [hkind']; rfl
  have hquiet : ¬(parsed.role n).IsDeclaring := by rw [role, hkind']; exact id
  have hthrough : ∀ c ∈ parsed.children n, parsed.Enclosed c scopes := fun c hc =>
    .through hc (by simp [Opens, hkind']) h.enclosed
  simp only [ifElse, bind_iff, ensures_jumpLabel, ensures_onForest, ensures_forest]
  refine (Moment.condition [] hraw hchildren (by rw [htest]; trivial)
    (hthrough test (by simp [hchildren])) ((Moment.first hfunction).mpr
      (h.labels _ (by rw [hkind]; rfl) rfl (by rw [hkind]; rfl) _).moment) rfl).imp fun _ _ hm => ?_
  refine hinner.inSlot [test] hraw hchildren hfunction hyes
    (hthrough yes (by simp [hchildren])) hm fun state₂ hm₂ => ?_
  rcases hothers with rfl | ⟨no, rfl, hno⟩
  · have hnone : state₂.forest.child? n 2 = none := by
      have hsome := hm₂.grown.isSome_child? h.lt_size 2
      simpa [child?, hchildren] using hsome
    simp only [hnone, pure_iff]
    exact .last_quiet hquiet (hchildren ▸ hm₂)
  · have hfree := fun m => Kind.isConversion_of_fresh (hraw.fresh m).kind
    have hsome : state₂.forest.child? n 2 = some no :=
      hm₂.grown.child?_eq ⟨hraw.linked, hraw.ranked⟩ hfree (by simp [child?, hchildren])
        (Role.ne_of_isStatement hno)
    simp only [hsome]
    refine (hinner.part [test, yes] hraw hchildren hfunction hno
      (hthrough no (by simp [hchildren])) hm₂).imp fun _ _ hm₃ => ?_
    exact .last_quiet hquiet (hchildren ▸ hm₃)

theorem Handles.of_whileLoop {labels : Option WhileLabels}
    (hkind : state.forest.kind n = .whileLoop labels) :
    Ensures (whileLoop inner n) state Fault.Any fun _ next =>
      Moment parsed next scopes (parsed.Behind n) := by
  have hkind' : parsed.kind n = .whileLoop none := h.kind_eq hraw hkind
  have hholds := hraw.shaped n
  rw [hkind'] at hholds
  obtain ⟨_, hbody, hroles⟩ := hholds
  obtain ⟨test, body, hchildren, htest, rfl⟩ := exists_pair hroles
  have hfunction : (parsed.kind n).isFunction = false := by rw [hkind']; rfl
  have hquiet : ¬(parsed.role n).IsDeclaring := by rw [role, hkind']; exact id
  have hmute : (parsed.role test).IsMute := by rw [htest]; trivial
  have hbodyMem : body ∈ parsed.children n := by simp [hchildren]
  -- The condition is outside of the scope of the body.
  have hne : body ≠ test := by
    rintro rfl
    rw [htest] at hbody
    exact hbody
  have houtside : ¬parsed.Opens n test := by simpa [Opens, hkind', child?, hchildren] using hne
  have hinside : parsed.Opens n body := by simp [Opens, hkind', child?, hchildren]
  simp only [whileLoop, bind_iff, ensures_jumpLabel, ensures_onForest, ensures_inScope]
  refine (Moment.condition [] hraw hchildren hmute
    (.through (by simp [hchildren]) houtside h.enclosed) ((Moment.first hfunction).mpr
      (h.labels _ (by rw [hkind]; rfl) rfl (by rw [hkind]; rfl) _).moment) rfl).imp
        fun _ state₁ hm₁ => ?_
  have hfree := fun m => Kind.isConversion_of_fresh (hraw.fresh m).kind
  have hchild : state₁.forest.child? n 1 = some body :=
    hm₁.grown.child?_eq ⟨hraw.linked, hraw.ranked⟩ hfree (by simp [child?, hchildren])
      (Role.ne_of_isStatement hbody)
  have hbefore := (Moment.first hfunction).mp ((Moment.skip_mute [] hraw hmute).mp hm₁)
  have henter := ({ h with moment := hbefore } : Upcoming parsed state₁ n scopes).enter hraw
    (by simp [hkind'])
  rw [ensures_child hchild]
  refine (hinner.part [test] hraw hchildren hfunction hbody
    (.inside hbodyMem hinside h.enclosed) ((Moment.skip_mute [] hraw hmute).mpr
      ((Moment.first hfunction).mpr henter))).imp fun _ _ hm₂ => ?_
  exact .last_quiet hquiet (hchildren ▸ hm₂.leave)

theorem Handles.of_forLoop {labels : Option ForLabels}
    (hkind : state.forest.kind n = .forLoop labels) :
    Ensures (forLoop inner n) state Fault.Any fun _ next =>
      Moment parsed next scopes (parsed.Behind n) := by
  have hkind' : parsed.kind n = .forLoop none := h.kind_eq hraw hkind
  have hholds := hraw.shaped n
  rw [hkind'] at hholds
  obtain ⟨_, testRole, _, _, hfirst, htest, hnext, hbody, hroles⟩ := hholds
  obtain ⟨first, test, next, body, hchildren, rfl, rfl, rfl, rfl⟩ := exists_four hroles
  have hfunction : (parsed.kind n).isFunction = false := by rw [hkind']; rfl
  have hquiet : ¬(parsed.role n).IsDeclaring := by rw [role, hkind']; exact id
  have hinside : ∀ c ∈ parsed.children n, parsed.Enclosed c (n :: scopes) := fun c hc =>
    .inside hc (by simp [Opens, hkind']) h.enclosed
  have hempty : ∀ d name, parsed.Below d test → ¬parsed.Declares d name := by
    rcases htest with htest | habsent
    · exact fun d name => hraw.not_declares (by rw [htest]; trivial)
    · intro d name hbelow hd
      have hnone : parsed.children test = [] := by
        have hshape := hraw.shaped test
        rw [kind_eq_nothing_iff.mp habsent] at hshape
        exact List.map_eq_nil_iff.mp hshape
      rcases hbelow.eq_or_child with rfl | ⟨c, hc, -⟩
      · have hdeclaring := hd.isDeclaring
        rw [habsent] at hdeclaring
        exact hdeclaring
      · rw [hnone] at hc
        cases hc
  have hlabels := h.labels (.forLoop (some ⟨.jump state.session.drawn,
    .jump (state.session.drawn + 1), .jump (state.session.drawn + 2)⟩)) (by rw [hkind]; rfl) rfl
    (by rw [hkind]; rfl) { state.session with drawn := state.session.drawn + 3 }
  have hrest : ∀ {state : Resolution},
      Moment parsed state (n :: scopes) (parsed.Met n [first, test]) →
      Ensures (do inner (← child n 2); inner (← child n 3)) state Fault.Any fun _ next =>
        Moment parsed { next with table := next.table.leave } scopes (parsed.Behind n) := by
    intro state hm
    simp only [bind_iff]
    refine hinner.inSlot [first, test] hraw hchildren hfunction hnext.isStatement
      (hinside next (by simp [hchildren])) hm fun _ hm₃ => ?_
    refine hinner.inSlot [first, test, next] hraw hchildren hfunction hbody
      (hinside body (by simp [hchildren])) hm₃ fun _ hm₄ => ?_
    exact .last_quiet hquiet (hchildren ▸ hm₄.leave)
  simp only [forLoop, bind_iff, ensures_jumpLabel, ensures_onForest, ensures_inScope,
    ensures_forest, ite_iff] at hrest ⊢
  refine hinner.inSlot [] hraw hchildren hfunction hfirst.isStatement
    (hinside first (by simp [hchildren])) ((Moment.first hfunction).mpr
      (hlabels.enter hraw (by simp [hkind']))) fun state₁ hm₁ => ?_
  refine ensures_child_of fun top htop => ⟨fun hnothing => ?_, fun hnothing => ?_⟩
  · refine hrest ((Moment.skip _ hempty).mpr (hm₁.annotated top))
  · refine (Moment.condition [first] hraw hchildren ?_ (hinside test (by simp [hchildren]))
      hm₁ rfl).imp fun _ _ hm₂ => hrest hm₂
    rcases htest with htest | habsent
    · rw [htest]
      trivial
    · have hfree := fun m => Kind.isConversion_of_fresh (hraw.fresh m).kind
      have hsame : state₁.forest.child? n 1 = some test :=
        hm₁.grown.child?_eq ⟨hraw.linked, hraw.ranked⟩ hfree (by simp [child?, hchildren])
          (by simp [habsent])
      obtain rfl := Option.some.inj (htop.symm.trans hsame)
      refine absurd (kind_eq_nothing_iff.mp ?_) hnothing
      rw [← habsent]
      exact hm₁.grown.role_eq (hraw.linked.lt_size (p := n) (by simp [hchildren]))

end Control

/-! ## Statements with expressions only -/

section Simple

variable (hraw : parsed.Raw) (h : Upcoming parsed state n scopes)

include hraw h in
/-- What stands in a slot of a statement is visited as a part of it. -/
theorem Upcoming.visited {slot : Nat} {top : NodeId} (htop : state.forest.child? n slot = some top) :
    Visited parsed n state.forest top := by
  obtain ⟨c, -, hc, hstands⟩ := h.moment.grown.exists_child h.lt_size htop
  exact ⟨h.moment.grown.woven.owned_of_mem (List.mem_of_getElem? htop), c, hraw.linked.lt_size hc,
    hstands, .of_mem hc⟩

include hraw in
/-- Behind a statement nothing else is in sight if nothing is declared by it. -/
theorem Moment.silent (hquiet : ¬(parsed.role n).IsDeclaring)
    (hmute : ∀ c ∈ parsed.children n, (parsed.role c).IsMute)
    (h : Moment parsed state scopes fun d => parsed.InSight d n) :
    Moment parsed state scopes (parsed.Behind n) := by
  refine h.congr fun d name hd => ⟨.inl, ?_⟩
  rintro (hsight | hbelow)
  · exact hsight
  · rcases hbelow.eq_or_child with rfl | ⟨c, hc, hbelow⟩
    · exact absurd hd.isDeclaring hquiet
    · exact absurd hd (hraw.not_declares (hmute c hc) hbelow)

include hraw h

/-- A statement of expressions may look names up and bind them. -/
theorem Upcoming.consulting (hmute : ∀ c ∈ parsed.children n, (parsed.role c).IsMute)
    (hclosed : ∀ c, ¬parsed.Opens n c) (hfunction : (parsed.kind n).isFunction = false)
    {step : Resolve α} (hstep : Consulting parsed n step state fun _ _ => True) :
    Ensures step state Fault.Any fun _ next =>
      Moment parsed next scopes fun d => parsed.InSight d n := by
  refine (hstep.ensures (.refl ⟨hraw.linked, hraw.ranked⟩ h.moment.grown)).imp ?_
  rintro _ next ⟨hconsults, -⟩
  exact h.moment.consults hconsults fun u hu =>
    hraw.below_of_mute_children hmute hclosed hfunction hu h.enclosed

theorem Upcoming.of_exprStatement (hkind : state.forest.kind n = .exprStatement) :
    Ensures (do let _ ← expression (← child n 0)) state Fault.Any fun _ next =>
      Moment parsed next scopes (parsed.Behind n) := by
  have hkind' : parsed.kind n = .exprStatement := h.kind_eq hraw hkind
  have hmute : ∀ c ∈ parsed.children n, (parsed.role c).IsMute := by
    have hholds := hraw.shaped n
    rw [hkind'] at hholds
    obtain ⟨e, hchildren, he⟩ := exists_single hholds
    simp [hchildren, he, Role.IsMute]
  have hquiet : ¬(parsed.role n).IsDeclaring := by rw [Forest.role, hkind']; exact id
  refine (h.consulting hraw hmute (by simp [Opens, hkind']) (by rw [hkind']; rfl) ?_).imp
    fun _ _ hm => hm.silent hraw hquiet hmute
  refine (leads_child 0).bind ?_
  rintro top _ - ⟨rfl, htop⟩
  exact (consulting_expression (h.visited hraw htop)).bind fun _ _ _ _ => Leads.pure trivial

theorem Upcoming.of_giveBack (hkind : state.forest.kind n = .giveBack) :
    Ensures (giveBack n) state Fault.Any fun _ next =>
      Moment parsed next scopes (parsed.Behind n) := by
  have hkind' : parsed.kind n = .giveBack := h.kind_eq hraw hkind
  have hmute : ∀ c ∈ parsed.children n, (parsed.role c).IsMute := by
    have hholds := hraw.shaped n
    rw [hkind'] at hholds
    rcases hholds with hroles | hroles
    · simp [show parsed.children n = [] from List.map_eq_nil_iff.mp hroles]
    · obtain ⟨value, hchildren, hvalue⟩ := exists_single hroles
      simp [hchildren, hvalue, Role.IsMute]
  have hquiet : ¬(parsed.role n).IsDeclaring := by rw [Forest.role, hkind']; exact id
  exact (h.consulting hraw hmute (by simp [Opens, hkind']) (by rw [hkind']; rfl)
    (consulting_giveBack fun _ => h.visited hraw)).imp fun _ _ hm => hm.silent hraw hquiet hmute

/-- A statement without parts leaves the moment as it is. -/
theorem Upcoming.of_leaf (hquiet : ¬(parsed.role n).IsDeclaring) (hnone : parsed.children n = []) :
    Moment parsed state scopes (parsed.Behind n) :=
  h.moment.silent hraw hquiet (by simp [hnone])

theorem Upcoming.of_jump {target : Option Machine.Label} (leaving : Bool)
    (hkind : state.forest.kind n = if leaving then .breakOut target else .continueOn target) :
    Ensures (jump n leaving) state Fault.Any fun _ next =>
      Moment parsed next scopes (parsed.Behind n) := by
  have hkind' := h.kind_eq hraw hkind
  have hholds := hraw.shaped n
  have hleaf : ¬(parsed.role n).IsDeclaring ∧ parsed.children n = [] := by
    rw [Forest.role, hkind']
    rw [hkind'] at hholds
    cases leaving <;> exact ⟨id, List.map_eq_nil_iff.mp hholds⟩
  simp only [jump, bind_iff, ensures_forest]
  cases state.forest.enclosingLoop n with
  | none => exact trivial
  | some loop =>
    rw [ensures_onForest]
    refine (h.of_leaf hraw hleaf.1 hleaf.2).setKind ?_ ?_ <;> rw [hkind] <;> cases leaving <;> rfl

theorem Upcoming.of_nothing (hkind : state.forest.kind n = .nothing) :
    Moment parsed state scopes (parsed.Behind n) := by
  have hkind' : parsed.kind n = .nothing := h.kind_eq hraw hkind
  have hholds := hraw.shaped n
  rw [hkind'] at hholds
  exact h.of_leaf hraw (by rw [Forest.role, hkind']; exact id) (List.map_eq_nil_iff.mp hholds)

end Simple

end Resolve

end MiniC
