import MiniC.Proofs.Resolve.Program

/-!
# Sound programs

`Sound` says what is right about a resolved program in terms of the program alone, without the tree
that it grew out of. Conversions stand above expressions only, so the functions and loops around a
statement are those that were parsed.
-/

namespace MiniC

open Forest

theorem Role.IsStatement.ne_initializers {role : Role} (h : role.IsStatement) :
    role ≠ .initializers := by
  rintro rfl
  exact h

namespace Kind

variable {kind : Kind} {roles : List Role}

/-- Expressions are parts of expressions, of initializers and of statements. -/
theorem cases_of_expression (h : kind.Holds roles) (hmem : Role.expression ∈ roles) :
    kind.role = .expression ∨ kind.role = .initializers ∨
      kind.role.IsStatement ∧ kind.isFunction = false := by
  cases kind with
  | type part => cases hform : part.form <;> simp_all [Holds]
  | function => rcases h with hroles | hroles <;> simp [hroles] at hmem
  | file | parameters => simpa using h _ hmem
  | parameter => simp_all [Holds]
  | _ => simp [role, Role.IsStatement, isFunction]

/-- Lists of initializers are parts of declarations, behind the written type. -/
theorem of_initializers (h : kind.Holds roles) (hmem : Role.initializers ∈ roles) :
    kind.isDeclaration ∧ ∃ written, written ≠ .initializers ∧ roles = [written, .initializers] := by
  cases kind with
  | declaration =>
    obtain ⟨written, hwritten, hroles⟩ := h
    refine ⟨rfl, written, ?_⟩
    rcases hwritten with rfl | rfl <;> rcases hroles with rfl | rfl | rfl <;> simp_all
  | type part => cases hform : part.form <;> simp_all [Holds]
  | function => rcases h with hroles | hroles <;> simp [hroles] at hmem
  | block => exact (h _ hmem).elim
  | file | parameters | call | initializers => simpa using h _ hmem
  | ifElse =>
    obtain ⟨yes, hyes, rfl | ⟨no, hno, rfl⟩⟩ := h
    · simp [hyes.ne_initializers.symm] at hmem
    · simp [hyes.ne_initializers.symm, hno.ne_initializers.symm] at hmem
  | whileLoop =>
    obtain ⟨body, hbody, rfl⟩ := h
    simp [hbody.ne_initializers.symm] at hmem
  | forLoop =>
    obtain ⟨start, test, next, body, hstart, htest, hnext, hbody, rfl⟩ := h
    rcases htest with rfl | rfl <;>
      simp [hstart.isStatement.ne_initializers.symm, hnext.isStatement.ne_initializers.symm,
        hbody.ne_initializers.symm] at hmem
  | giveBack => rcases h with hroles | hroles <;> simp [hroles] at hmem
  | _ => simp_all [Holds]

theorem isFunction_of_role (h : kind.role = .expression) : kind.isFunction = false := by
  cases kind with
  | function => cases h
  | _ => rfl

theorem isStatement_of_isDeclaration (h : kind.isDeclaration) : kind.role.IsStatement := by
  cases kind with
  | declaration => trivial
  | _ => cases h

theorem not_isFunction_of_isDeclaration (h : kind.isDeclaration) : kind.isFunction = false := by
  cases kind with
  | declaration => rfl
  | _ => cases h

end Kind

namespace Forest

variable {forest : Forest} {root n m : NodeId}

/-- A whole program: every node has the parts that its kind asks for, and the root is a file. -/
structure Whole (forest : Forest) (root : NodeId) : Prop where
  linked : forest.Linked
  ranked : forest.Ranked
  shaped : ∀ id, (forest.kind id).Holds (forest.roles id)
  root_eq : forest.root = some root
  kind_root : forest.kind root = .file
  parent_root : forest.parent root = none

namespace Whole

theorem lt_size (h : forest.Whole root) (hn : forest.Below n root) : n < forest.size := by
  refine hn.lt_size h.linked ?_
  by_contra hroot
  have hkind := h.kind_root
  rw [kind, node_of_size_le (Nat.le_of_not_lt hroot)] at hkind
  cases hkind

/-- All parts of an expression are expressions. -/
theorem role_of_mem (h : forest.Whole root) {p c : NodeId} (hp : forest.role p = .expression)
    (hc : c ∈ forest.children p) : forest.role c = .expression :=
  Kind.eq_expression_of_holds hp (h.shaped p) (List.mem_map_of_mem hc)

/-- Only statements and what holds them are around something that is no expression. -/
theorem role_of_below (h : forest.Whole root) {a : NodeId} (hn : forest.role n ≠ .expression)
    (ha : forest.Below n a) : forest.role a ≠ .expression := by
  induction ha with
  | refl => exact hn
  | child hc _ ih => exact fun hp => ih (h.role_of_mem hp hc)

/-- No statement is below a silent node. -/
theorem not_isStatement (h : forest.Whole root) (hn : (forest.role n).IsSilent)
    (hm : forest.Below m n) : ¬(forest.role m).IsStatement := by
  induction hm with
  | refl => exact Role.not_isStatement hn
  | @child p c hc _ ih =>
    exact ih (Kind.isSilent_of_holds hn (h.shaped p) _ (List.mem_map_of_mem hc))

/-- Nothing is around the root. -/
theorem eq_root (h : forest.Whole root) (hroot : forest.Below root n) : n = root := by
  by_contra hne
  obtain ⟨p, hp, -⟩ := hroot.exists_parent h.linked fun he => hne he.symm
  rw [h.parent_root] at hp
  cases hp

/-- What is around a node of the program is in the program. -/
theorem below_root (h : forest.Whole root) {a : NodeId} (hn : forest.Below n root)
    (ha : forest.Below n a) : forest.Below a root := by
  rcases ha.comparable h.linked hn with hbelow | hbelow
  · exact hbelow
  · exact h.eq_root hbelow ▸ .refl

theorem owningFunction_root (h : forest.Whole root) : forest.owningFunction root = none := by
  cases hf : forest.owningFunction root with
  | none => rfl
  | some f =>
    obtain ⟨hbelow, hfun⟩ := below_of_owningFunction h.linked hf
    rw [h.eq_root hbelow, h.kind_root] at hfun
    cases hfun

end Whole

end Forest

/-- What is right about a resolved program. -/
structure Sound (root : NodeId) (forest : Forest) (table : SymbolTable) (drawn : Nat) : Prop where
  whole : forest.Whole root
  expression : ∀ e, forest.Below e root → forest.role e = .expression →
    ∃ type, forest.type? e = some type ∧ Judged forest table forest e type
  statement : ∀ m, forest.Below m root → (forest.role m).IsStatement →
    Settled forest table forest m
  function : ∀ e, forest.Below e root → forest.role e = .expression →
    (forest.node e).function = forest.owningFunction e
  bound : ∀ m s, (forest.kind m).symbol? = some s → forest.role m ≠ .expression →
    forest.Below m root
  labelled : Labelled forest drawn
  declared : Declared forest forest table drawn
  called : ∀ id name s, forest.kind id = .call name (some s) →
    ∀ signature, (table.symbol s).signature? = some signature → signature.defined = true
  file : ∀ name s, table.lookupFile name = some s →
    s < table.size ∧ (table.symbol s).name = name ∧ (table.symbol s).frame = none

/-- The items of a list of initializers have the type of the elements. -/
theorem Settled.items {parsed forest : Forest} {table : SymbolTable} {d : NodeId} {written : Role}
    (h : Settled parsed table forest d) (hd : (forest.kind d).isDeclaration)
    (hroles : forest.roles d = [written, .initializers]) :
    ∃ typeNode list, forest.children d = [typeNode, list] ∧ forest.role typeNode = written ∧
      ∃ element size constant,
      forest.type? d = some (.array element size constant) ∧
        (forest.children list).length ≤ size ∧ ∀ item ∈ forest.children list,
          forest.HasType item element ∧ (forest.node item).function = (forest.node d).function := by
  obtain ⟨typeNode, list, hchildren, rfl, hlist⟩ := exists_pair hroles
  have hrule := h.rule
  unfold StatementRule at hrule
  cases hk : forest.kind d with
  | declaration name symbol =>
    simp only [hk] at hrule
    obtain ⟨s, type, rfl, htype, hinitial⟩ := hrule
    rw [hchildren, InitialRule, if_neg (by simp [hlist])] at hinitial
    obtain ⟨-, element, size, constant, rfl, hlength, hitems⟩ := hinitial
    exact ⟨typeNode, list, hchildren, rfl, element, size, constant, htype, hlength, hitems⟩
  | _ => simp [hk, Kind.isDeclaration] at hd

/-- An expression with a type whose code runs in the frame around it. -/
def Forest.Placed (forest : Forest) (e : NodeId) : Prop :=
  forest.type? e ≠ none ∧ (forest.node e).function = forest.owningFunction e

namespace Resolved

variable {parsed : Forest} {root : NodeId} {resolution : Resolution} {id m n : NodeId}

variable (hparsed : parsed.Parsed root) (h : Resolved parsed root resolution)

include hparsed h

theorem whole : resolution.forest.Whole root where
  linked := h.grown.linked
  ranked := h.grown.ranked
  shaped := h.grown.shaped hparsed.raw
  root_eq := h.grown.root_eq.trans hparsed.root_eq
  kind_root := by
    have hbare := h.grown.bare root hparsed.lt_size
    rw [hparsed.kind_root] at hbare
    cases hk : resolution.forest.kind root <;> simp_all [Kind.bare]
  parent_root := by
    by_contra hne
    obtain ⟨p, hp⟩ := Option.ne_none_iff_exists'.mp hne
    have hrole : resolution.forest.role root ≠ .expression := by
      rw [h.grown.role_eq hparsed.lt_size, hparsed.role_root]
      simp
    have hmem := (h.grown.mem_children_iff hparsed.raw hrole).mp (h.grown.linked.mem_of_parent hp)
    have hparent := hparsed.raw.linked.parent_of_mem hmem
    rw [hparsed.parent_root] at hparent
    cases hparent

omit hparsed in
/-- Only conversions have been added, so what is no expression was parsed. -/
theorem lt_parsed (hm : m < resolution.forest.size)
    (hrole : resolution.forest.role m ≠ .expression) : m < parsed.size := by
  by_contra hle
  exact hrole (h.grown.role_wrapper (Nat.le_of_not_lt hle) hm)

theorem sameAround (hm : m < parsed.size) (hrole : resolution.forest.role m ≠ .expression) :
    parsed.SameAround resolution.forest m :=
  h.grown.sameAround hparsed.raw hm (by rwa [← h.grown.role_eq hm])

theorem owningFunction_eq (hm : m < parsed.size)
    (hrole : resolution.forest.role m ≠ .expression) :
    resolution.forest.owningFunction m = parsed.owningFunction m :=
  (h.sameAround hparsed hm hrole).owningFunction_eq hparsed.raw.linked hparsed.raw.ranked

theorem enclosingLoop_eq (hm : m < parsed.size)
    (hrole : resolution.forest.role m ≠ .expression) :
    resolution.forest.enclosingLoop m = parsed.enclosingLoop m :=
  (h.sameAround hparsed hm hrole).enclosingLoop_eq hparsed.raw.linked hparsed.raw.ranked

/-- What is no expression is below the nodes that it was parsed below. -/
theorem below_parsed {top : NodeId} (hrole : resolution.forest.role m ≠ .expression)
    (hm : resolution.forest.Below m top) : parsed.Below m top := by
  induction hm with
  | refl => exact .refl
  | child hc hbelow ih =>
    have hne := (h.whole hparsed).role_of_below hrole hbelow
    exact .child ((h.grown.mem_children_iff hparsed.raw hne).mp hc) ih

/-- What was parsed is below the root only if it was parsed there. -/
theorem below_parsed_of_lt (hm : resolution.forest.Below m root) (hlt : m < parsed.size) :
    parsed.Below m root := by
  refine hm.descend (P := fun m => m < parsed.size → parsed.Below m root) (fun _ => .refl) ?_ hlt
  intro p c _ hc ih hlt
  by_contra hout
  -- Nothing outside has changed, so the parent is the one that was parsed.
  have hparent : parsed.parent c = some p := by
    rw [← (h.whole hparsed).linked.parent_of_mem hc, parent, parent, h.inside.outside c hlt hout]
  have hmem := hparsed.raw.linked.mem_of_parent hparent
  exact hout ((Below.of_mem hmem).trans (ih (lt_size_of_mem_children hmem)))

omit hparsed in
theorem below_of_parsed {top : NodeId} (hm : parsed.Below m top) :
    resolution.forest.Below m top := by
  have hstands : ∀ {c c'}, Stands resolution.forest c c' → resolution.forest.Below c' c := by
    intro c c' hs
    induction hs with
    | refl => exact .refl
    | wrap _ hchildren _ ih => exact .child (by simp [hchildren]) ih
  induction hm with
  | refl => exact .refl
  | @child p c hc _ ih =>
    obtain ⟨i, hi, hget⟩ := List.getElem_of_mem hc
    have hall := h.grown.children p (lt_size_of_mem_children hc)
    have hlen := hall.length_eq
    refine .child (List.getElem_mem (show i < (resolution.forest.children p).length by omega)) ?_
    exact ih.trans (hstands (hget ▸ hall.get _ hi))

/-- A statement is settled in the program itself. -/
theorem settled_self (hm : resolution.forest.Below m root)
    (hrole : (resolution.forest.role m).IsStatement) :
    Settled resolution.forest resolution.table resolution.forest m := by
  have hne := Role.ne_of_isStatement hrole
  have hlt := h.lt_parsed ((h.whole hparsed).lt_size hm) hne
  have howner := h.owningFunction_eq hparsed hlt hne
  have hloop := h.enclosingLoop_eq hparsed hlt hne
  obtain ⟨hnoted, hfunction, hparts, hrule, hslots⟩ := h.settled m (h.below_parsed hparsed hne hm)
    (h.grown.role_eq hlt ▸ hrole)
  refine ⟨hnoted, hfunction.trans howner.symm, hparts, ?_, ?_⟩
  swap
  · refine hslots.imp rfl rfl (fun _ => rfl) (fun _ _ => rfl) (fun _ _ _ => ⟨rfl, rfl⟩) howner ?_
    rintro slot wanted ⟨e, top, type, hs⟩
    exact ⟨e, top, type, hs.self h.grown⟩
  unfold StatementRule at hrule ⊢
  rwa [howner, hloop]

/-- Every expression of the program is typed and knows its frame. -/
theorem placed (hm : resolution.forest.Below m root)
    (hrole : resolution.forest.role m = .expression) : Placed resolution.forest m := by
  have hwhole := h.whole hparsed
  have howner : ∀ {p c}, c ∈ resolution.forest.children p →
      (resolution.forest.kind p).isFunction = false →
      resolution.forest.owningFunction c = resolution.forest.owningFunction p := by
    intro p c hc hp
    rw [owningFunction_of_parent hwhole.linked hwhole.ranked (hwhole.linked.parent_of_mem hc), hp]
    rfl
  -- Lists of initializers are passed on with what is right about their items.
  have hall : (resolution.forest.role m = .expression → Placed resolution.forest m) ∧
      (resolution.forest.role m = .initializers → ∀ c ∈ resolution.forest.children m,
        Placed resolution.forest c) := by
    have hroot : ∀ {role}, role ≠ Role.file → resolution.forest.role root ≠ role := by
      intro role hne he
      rw [Forest.role, hwhole.kind_root] at he
      exact hne he.symm
    refine hm.descend (P := fun m => (resolution.forest.role m = .expression →
        Placed resolution.forest m) ∧ (resolution.forest.role m = .initializers →
          ∀ c ∈ resolution.forest.children m, Placed resolution.forest c))
      ⟨fun he => absurd he (hroot (by simp)), fun he => absurd he (hroot (by simp))⟩ ?_
    intro p c hp hc ih
    refine ⟨fun hce => ?_, fun hci => ?_⟩
    · rcases Kind.cases_of_expression (hwhole.shaped p) (hce ▸ List.mem_map_of_mem hc) with
        hexpression | hlist | ⟨hstatement, hfun⟩
      · obtain ⟨htyped, hfunction⟩ := ih.1 hexpression
        obtain ⟨type, htype⟩ := Option.ne_none_iff_exists'.mp htyped
        have hjudged := h.typed p type hexpression htype
        refine ⟨hjudged.typed c hc, ?_⟩
        rw [hjudged.function c hc, hfunction, howner hc (Kind.isFunction_of_role hexpression)]
      · exact ih.2 hlist c hc
      · have hsettled := h.settled_self hparsed hp hstatement
        obtain ⟨htyped, hfunction⟩ := hsettled.parts c hc hce
        exact ⟨htyped, by rw [hfunction, hsettled.function, howner hc hfun]⟩
    · obtain ⟨hdeclaration, written, hwritten, hroles⟩ := Kind.of_initializers (hwhole.shaped p)
        (hci ▸ List.mem_map_of_mem hc)
      have hsettled := h.settled_self hparsed hp (Kind.isStatement_of_isDeclaration hdeclaration)
      obtain ⟨typeNode, list, hchildren, htypeNode, _, _, _, -, -, hitems⟩ :=
        hsettled.items hdeclaration hroles
      obtain rfl : c = list := by
        rw [hchildren, List.mem_pair] at hc
        refine hc.resolve_left ?_
        rintro rfl
        exact hwritten (htypeNode.symm.trans hci)
      intro item hitem
      obtain ⟨⟨found, hfound, -⟩, hfunction⟩ := hitems item hitem
      refine ⟨by simp [hfound], ?_⟩
      have hlist : (resolution.forest.kind c).isFunction = false := by
        rw [role] at hci
        cases hk : resolution.forest.kind c with
        | function => simp [hk, Kind.role] at hci
        | _ => rfl
      rw [hfunction, hsettled.function, howner hitem hlist,
        howner hc (Kind.not_isFunction_of_isDeclaration hdeclaration)]
  exact hall.1 hrole

/-- The functions around a function of the program are those that were parsed. -/
theorem chain {source target : Option NodeId} (hchain : parsed.Chain source target)
    (hsource : ∀ f, source = some f → f < parsed.size ∧ (parsed.kind f).isFunction) :
    resolution.forest.Chain source target := by
  induction hchain with
  | refl => exact .refl _
  | @outer f target _ ih =>
    obtain ⟨hf, hfun⟩ := hsource f rfl
    have hrole : resolution.forest.role f ≠ .expression := by
      rw [h.grown.role_eq hf]
      exact fun he => by simp [Kind.isFunction_of_role he] at hfun
    rw [← h.owningFunction_eq hparsed hf hrole] at ih
    refine .outer (ih fun g hg => ?_)
    rw [h.owningFunction_eq hparsed hf hrole] at hg
    exact ⟨(lt_of_owningFunction hparsed.raw.linked hparsed.raw.rising hg).2,
      (below_of_owningFunction hparsed.raw.linked hg).2⟩

/-- An expression is judged in the program itself. -/
theorem judged_self {type : Ty} (hm : resolution.forest.Below m root)
    (hrole : resolution.forest.role m = .expression)
    (htype : resolution.forest.type? m = some type) :
    Judged resolution.forest resolution.table resolution.forest m type := by
  obtain ⟨hshallow, htyped, hfunction, hrule, hoperands⟩ := h.typed m type hrole htype
  have hwhole := h.whole hparsed
  have hreached : ∀ s, Reached parsed resolution.table (resolution.forest.node m).function s →
      Reached resolution.forest resolution.table (resolution.forest.node m).function s := by
    intro s hs
    refine ⟨hs.lt_size, h.chain hparsed hs.chain fun f hf => ?_⟩
    rw [(h.placed hparsed hm hrole).2] at hf
    obtain ⟨hbelow, hfun⟩ := below_of_owningFunction hwhole.linked hf
    have hne : resolution.forest.role f ≠ .expression :=
      fun he => by simp [Kind.isFunction_of_role he] at hfun
    have hlt := h.lt_parsed (hwhole.lt_size (hwhole.below_root hm hbelow)) hne
    rw [← h.grown.bare f hlt, Kind.isFunction_bare]
    exact ⟨hlt, hfun⟩
  refine ⟨hshallow, htyped, hfunction, ?_, hoperands.imp rfl rfl (fun _ _ _ _ _ _ hs => hs.self h.grown)
    (fun _ _ _ _ _ _ hs => hs) .refl⟩
  unfold ExpressionRule at hrule ⊢
  cases hk : resolution.forest.kind m <;> rw [hk] at hrule
  case identifier =>
    obtain ⟨s, d, hs, hr, hrest⟩ := hrule
    exact ⟨s, d, hs, hreached s hr, hrest⟩
  case call =>
    obtain ⟨s, signature, hs, hr, hrest⟩ := hrule
    exact ⟨s, signature, hs, hreached s hr, hrest⟩
  all_goals exact hrule

/-- What is declared is declared in the program itself. -/
theorem declared_self : Declared resolution.forest resolution.forest resolution.table
    resolution.session.drawn := by
  refine { h.declared with
    variableAt := fun id hid d hd => ?_
    bound_frame := fun f id hf hsymbol => ?_ }
  · obtain ⟨hlt, hrole, hsymbol, htype, hframe, hvariable, hbody⟩ :=
      h.declared.variableAt id hid d hd
    have hne : resolution.forest.role d ≠ .expression := by
      rcases hrole with hrole | ⟨hrole, -⟩ <;> rw [hrole] <;> simp
    have howner := h.owningFunction_eq hparsed hlt hne
    refine ⟨Nat.lt_of_lt_of_le hlt h.grown.size_le, hrole, hsymbol, htype, hframe.trans howner.symm,
      hvariable, fun hparam => ?_⟩
    rw [h.grown.role_eq hlt] at hparam
    obtain ⟨f, hf, hlength⟩ := hbody hparam
    refine ⟨f, howner.trans hf, ?_⟩
    have hflt := (lt_of_owningFunction hparsed.raw.linked hparsed.raw.rising hf).2
    rwa [(h.grown.children f hflt).length_eq]
  · have hne : resolution.forest.role f ≠ .expression := by
      rw [hf]
      simp
    have hlt : f < resolution.forest.size := by
      by_contra hle
      rw [kind, node_of_size_le (Nat.le_of_not_lt hle)] at hsymbol
      cases hsymbol
    rw [h.owningFunction_eq hparsed (h.lt_parsed hlt hne) hne]
    exact h.declared.bound_frame f id hf hsymbol

/-- A bound node that is no expression is in the program. -/
theorem below_of_symbol {s : SymbolId} (hs : (resolution.forest.kind m).symbol? = some s)
    (hrole : resolution.forest.role m ≠ .expression) : resolution.forest.Below m root := by
  have hlt : m < resolution.forest.size := by
    by_contra hm
    rw [kind, node_of_size_le (Nat.le_of_not_lt hm)] at hs
    cases hs
  have hparsedlt := h.lt_parsed hlt hrole
  refine h.below_of_parsed ?_
  by_contra hout
  -- Nothing was noted outside the program.
  rw [kind, h.inside.outside m hparsedlt hout] at hs
  have hfresh := (hparsed.raw.fresh m).kind
  cases hk : (parsed.node m).kind <;> simp_all [Kind.Fresh, Kind.symbol?]

/-- A resolved program is sound. -/
theorem sound :
    Sound root resolution.forest resolution.table resolution.session.drawn where
  whole := h.whole hparsed
  expression e he hrole := by
    obtain ⟨type, htype⟩ := Option.ne_none_iff_exists'.mp (h.placed hparsed he hrole).1
    exact ⟨type, htype, h.judged_self hparsed he hrole htype⟩
  statement m hm hrole := h.settled_self hparsed hm hrole
  function e he hrole := (h.placed hparsed he hrole).2
  bound m s hs hrole := h.below_of_symbol hparsed hs hrole
  labelled := h.labelled
  declared := h.declared_self hparsed
  called := h.called
  file := h.file

end Resolved

end MiniC
