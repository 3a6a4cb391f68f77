import MiniC.Proofs.Layout.Place
import MiniC.Proofs.Resolve.Sound

/-!
# The variables of a frame

The frame of the file holds the variables declared outside of all functions; that of a function holds
its parameters and what is declared below its body and in no other function. `mem_variables` says that
the order in which the variables are laid out leaves none of them out.
-/

namespace MiniC

theorem Role.IsStatement.ne_parameters {role : Role} (h : role.IsStatement) :
    role ≠ .parameters := by
  rintro rfl
  exact h

theorem Role.IsStatement.ne_parameter {role : Role} (h : role.IsStatement) :
    role ≠ .parameter := by
  rintro rfl
  exact h

namespace Kind

/-- Whether the kind is a parameter. -/
def isParameter : Kind → Bool
  | parameter .. => true
  | _ => false

variable {kind : Kind} {roles : List Role}

theorem role_eq_declaration : kind.role = .declaration ↔ kind.isDeclaration := by
  cases kind with
  | type part => cases hform : part.form <;> simp [role, isDeclaration, hform]
  | _ => simp [role, isDeclaration]

theorem role_eq_parameter : kind.role = .parameter ↔ kind.isParameter := by
  cases kind with
  | type part => cases hform : part.form <;> simp [role, isParameter, hform]
  | _ => simp [role, isParameter]

theorem role_eq_function : kind.role = .function ↔ kind.isFunction := by
  cases kind with
  | type part => cases hform : part.form <;> simp [role, isFunction, hform]
  | _ => simp [role, isFunction]

/-- Parameters are parts of lists of parameters. -/
theorem of_parameter (h : kind.Holds roles) (hmem : Role.parameter ∈ roles) :
    kind.role = .parameters := by
  cases kind with
  | parameters => rfl
  | type part => cases hform : part.form <;> simp_all [Holds]
  | function => rcases h with hroles | hroles <;> simp [hroles] at hmem
  | declaration =>
    obtain ⟨written, rfl | rfl, rfl | rfl | rfl⟩ := h <;> simp at hmem
  | block => exact (h _ hmem).elim
  | file | call | initializers => simpa using h _ hmem
  | ifElse =>
    obtain ⟨yes, hyes, rfl | ⟨no, hno, rfl⟩⟩ := h
    · simp [hyes.ne_parameter.symm] at hmem
    · simp [hyes.ne_parameter.symm, hno.ne_parameter.symm] at hmem
  | whileLoop =>
    obtain ⟨body, hbody, rfl⟩ := h
    simp [hbody.ne_parameter.symm] at hmem
  | forLoop =>
    obtain ⟨start, test, next, body, hstart, htest, hnext, hbody, rfl⟩ := h
    rcases htest with rfl | rfl <;>
      simp [hstart.isStatement.ne_parameter.symm, hnext.isStatement.ne_parameter.symm,
        hbody.ne_parameter.symm] at hmem
  | giveBack => rcases h with hroles | hroles <;> simp [hroles] at hmem
  | _ => simp_all [Holds]

/-- Lists of parameters are parts of functions, behind the result type. -/
theorem of_parameters (h : kind.Holds roles) (hmem : Role.parameters ∈ roles) :
    kind.isFunction ∧ roles[1]? = some .parameters := by
  cases kind with
  | function => rcases h with hroles | hroles <;> simp [hroles, isFunction]
  | type part => cases hform : part.form <;> simp_all [Holds]
  | declaration =>
    obtain ⟨written, rfl | rfl, rfl | rfl | rfl⟩ := h <;> simp at hmem
  | block => exact (h _ hmem).elim
  | file | parameters | call | initializers => simpa using h _ hmem
  | ifElse =>
    obtain ⟨yes, hyes, rfl | ⟨no, hno, rfl⟩⟩ := h
    · simp [hyes.ne_parameters.symm] at hmem
    · simp [hyes.ne_parameters.symm, hno.ne_parameters.symm] at hmem
  | whileLoop =>
    obtain ⟨body, hbody, rfl⟩ := h
    simp [hbody.ne_parameters.symm] at hmem
  | forLoop =>
    obtain ⟨start, test, next, body, hstart, htest, hnext, hbody, rfl⟩ := h
    rcases htest with rfl | rfl <;>
      simp [hstart.isStatement.ne_parameters.symm, hnext.isStatement.ne_parameters.symm,
        hbody.ne_parameters.symm] at hmem
  | giveBack => rcases h with hroles | hroles <;> simp [hroles] at hmem
  | _ => simp_all [Holds]

/-- All parts of a declaration are silent. -/
theorem isSilent_of_isDeclaration (hkind : kind.isDeclaration) (h : kind.Holds roles) :
    ∀ role ∈ roles, role.IsSilent := by
  cases kind with
  | declaration =>
    obtain ⟨written, rfl | rfl, rfl | rfl | rfl⟩ := h <;> simp [Role.IsSilent]
  | _ => cases hkind

end Kind

namespace Forest

variable {forest : Forest} {root d f : NodeId} {function : Option NodeId}

/-- The variables of the frame of a function or of the file, in the order of their slots. -/
def frameVariables (forest : Forest) (root : NodeId) : Option NodeId → List NodeId
  | none => (forest.children root).filter fun id => (forest.kind id).isDeclaration
  | some f => (forest.child? f 1).elim [] forest.children ++ (forest.child? f 2).elim [] forest.locals

/-- The strings of the frame of a function or of the file, in the order of their slots. -/
def frameStrings (forest : Forest) (root : NodeId) : Option NodeId → List NodeId
  | none => (forest.preorder root).filter fun id => (forest.kind id).isString
  | some _ => []

theorem Pooled.frameVariables_none {other : Forest} (h : forest.Pooled other) :
    other.frameVariables root none = forest.frameVariables root none := by
  simp only [frameVariables, h.children_eq]
  refine List.filter_congr fun id _ => ?_
  rcases (h.kind_same id).eq_or_string with heq | ⟨_, _, _, heq, heq'⟩
  · rw [heq]
  · rw [heq, heq']
    rfl

/-- The file, or a function with a body. -/
def IsFrame (forest : Forest) (root : NodeId) (function : Option NodeId) : Prop :=
  ∀ f, function = some f → f ∈ forest.definitions root

theorem isFrame_some (hf : f ∈ forest.definitions root) : forest.IsFrame root (some f) :=
  fun _ hg => Option.some.inj hg ▸ hf

theorem isFrame_none : forest.IsFrame root none := nofun

namespace Whole

variable (h : forest.Whole root)

include h

theorem declaresOnce : forest.DeclaresOnce := by
  intro d d' hd hd' hbelow
  rcases hbelow.eq_or_child with heq | ⟨c, hc, hbelow⟩
  · exact heq
  · have hsilent := Kind.isSilent_of_isDeclaration hd (h.shaped d) _ (List.mem_map_of_mem hc)
    exact absurd (Kind.isStatement_of_isDeclaration hd') (h.not_isStatement hsilent hbelow)

/-- The parts of a function with a body. -/
theorem exists_body (hf : f ∈ forest.definitions root) :
    ∃ result params body, forest.children f = [result, params, body] ∧
      forest.role result = .type ∧ forest.role params = .parameters ∧ forest.role body = .block := by
  obtain ⟨-, hfun, hbody⟩ := (mem_definitions h.ranked).mp hf
  obtain ⟨name, symbol, hk⟩ : ∃ name symbol, forest.kind f = .function name symbol := by
    cases hk : forest.kind f <;> simp_all [Kind.isFunction]
  have hholds := h.shaped f
  rw [hk] at hholds
  rcases hholds with hroles | hroles
  · have := congrArg List.length hroles
    simp [roles, child?] at this hbody
    omega
  · exact exists_three hroles

theorem isParameter_of_mem {params : NodeId} (hparams : forest.role params = .parameters)
    (hd : d ∈ forest.children params) : (forest.kind d).isParameter := by
  have hholds := h.shaped params
  rw [Kind.eq_parameters hparams] at hholds
  exact Kind.role_eq_parameter.mp (hholds _ (List.mem_map_of_mem hd))

/-- A parameter below a node that is no part of a list of parameters stands in the list of the
function that owns it. -/
theorem exists_parameters {top : NodeId} (hd : (forest.kind d).isParameter)
    (htop : forest.role top ≠ .parameter ∧ forest.role top ≠ .parameters)
    (hbelow : forest.Below d top) :
    ∃ f params, (forest.kind f).isFunction ∧ forest.Below f top ∧
      forest.owningFunction d = some f ∧ forest.child? f 1 = some params ∧
      d ∈ forest.children params := by
  have hrole := Kind.role_eq_parameter.mpr hd
  obtain ⟨params, hparams, hbelow⟩ := hbelow.exists_parent h.linked fun heq => htop.1 (heq ▸ hrole)
  have hmem := h.linked.mem_of_parent hparams
  have hprole := Kind.of_parameter (h.shaped params) (hrole ▸ List.mem_map_of_mem hmem)
  obtain ⟨f, hf, hbelow⟩ := hbelow.exists_parent h.linked fun heq => htop.2 (heq ▸ hprole)
  have hfmem := h.linked.mem_of_parent hf
  obtain ⟨hfun, hslot⟩ := Kind.of_parameters (h.shaped f) (hprole ▸ List.mem_map_of_mem hfmem)
  have hpfun : (forest.kind params).isFunction = false := by
    cases hk : forest.kind params <;> simp_all [Kind.role, Kind.isFunction]
  refine ⟨f, params, hfun, hbelow, ?_, ?_, hmem⟩
  · rw [owningFunction_of_mem_children h.linked h.ranked hmem, around_of_not_function hpfun,
      owningFunction_of_mem_children h.linked h.ranked hfmem, around_of_function hfun]
  · -- A function has one list of parameters.
    obtain ⟨params', hchild, -, hrole'⟩ := exists_child hslot
    have hholds := h.shaped f
    obtain ⟨slot, hslot', hget⟩ := List.getElem_of_mem hfmem
    have hget? : (forest.roles f)[slot]? = some .parameters := by
      rw [roles, List.getElem?_map, List.getElem?_eq_getElem hslot', hget]
      exact congrArg some hprole
    obtain ⟨name, symbol, hk⟩ : ∃ name symbol, forest.kind f = .function name symbol := by
      cases hk : forest.kind f <;> simp_all [Kind.isFunction]
    rw [hk] at hholds
    have : slot = 1 := by
      rcases hholds with hroles | hroles <;> rw [hroles] at hget? <;>
        rcases slot with _ | _ | _ | slot <;> simp at hget? ⊢
    subst this
    rw [child?, List.getElem?_eq_getElem hslot', hget]

theorem mem_variables_none :
    d ∈ forest.frameVariables root none ↔
      ((forest.kind d).isDeclaration ∨ (forest.kind d).isParameter) ∧ forest.Below d root ∧
        forest.owningFunction d = none := by
  have hroot : (forest.kind root).isFunction = false := by
    rw [h.kind_root]
    rfl
  simp only [frameVariables, List.mem_filter]
  constructor
  · intro ⟨hc, hd⟩
    refine ⟨.inl hd, .of_mem hc, ?_⟩
    rw [owningFunction_of_mem_children h.linked h.ranked hc, around_of_not_function hroot,
      h.owningFunction_root]
  · intro ⟨hd, hbelow, howner⟩
    have hrole : forest.role root = .file := by
      rw [role, h.kind_root]
      rfl
    rcases hd with hd | hd
    · rcases hbelow.eq_or_child with rfl | ⟨c, hc, hbelow⟩
      · rw [h.kind_root] at hd
        cases hd
      · have hholds := h.shaped root
        rw [h.kind_root] at hholds
        rcases hholds _ (List.mem_map_of_mem hc) with hcrole | hcrole
        · have hcd := Kind.role_eq_declaration.mp hcrole
          exact h.declaresOnce hcd hd hbelow ▸ ⟨hc, hcd⟩
        · have hfun := Kind.role_eq_function.mp hcrole
          have hne : d ≠ c := by
            rintro rfl
            rw [Kind.not_isFunction_of_isDeclaration hd] at hfun
            cases hfun
          obtain ⟨g, hg, -⟩ := exists_owningFunction h.linked h.ranked hfun hbelow hne
          rw [hg] at howner
          cases howner
    · obtain ⟨f, params, -, -, hf, -⟩ := h.exists_parameters hd (by simp [hrole]) hbelow
      rw [hf] at howner
      cases howner

theorem mem_variables_some (hf : f ∈ forest.definitions root) :
    d ∈ forest.frameVariables root (some f) ↔
      ((forest.kind d).isDeclaration ∨ (forest.kind d).isParameter) ∧ forest.Below d root ∧
        forest.owningFunction d = some f := by
  obtain ⟨result, params, body, hchildren, hresult, hparams, hbody⟩ := h.exists_body hf
  obtain ⟨hfroot, hfun, -⟩ := (mem_definitions h.ranked).mp hf
  have hchild₁ : forest.child? f 1 = some params := by simp [child?, hchildren]
  have hchild₂ : forest.child? f 2 = some body := by simp [child?, hchildren]
  have hpmem : params ∈ forest.children f := List.mem_of_getElem? hchild₁
  have hbmem : body ∈ forest.children f := List.mem_of_getElem? hchild₂
  have haround : ∀ {c}, c ∈ forest.children f → (forest.kind c).isFunction = false →
      forest.around c = some f := by
    intro c hc hcfun
    rw [around_of_not_function hcfun, owningFunction_of_mem_children h.linked h.ranked hc,
      around_of_function hfun]
  have hparams' := haround hpmem <| by
    cases hk : forest.kind params <;> simp_all [role, Kind.role, Kind.isFunction]
  have hbody' := haround hbmem <| by
    cases hk : forest.kind body <;> simp_all [role, Kind.role, Kind.isFunction]
  simp only [frameVariables, hchild₁, hchild₂, Option.elim_some, List.mem_append,
    mem_locals h.linked h.ranked h.declaresOnce]
  constructor
  · rintro (hd | ⟨hd, hbelow, hne, howner⟩)
    · refine ⟨.inr (h.isParameter_of_mem hparams hd),
        (Below.of_mem hd).trans ((Below.of_mem hpmem).trans hfroot), ?_⟩
      rw [owningFunction_of_mem_children h.linked h.ranked hd, hparams']
    · exact ⟨.inl hd, hbelow.trans ((Below.of_mem hbmem).trans hfroot), howner.trans hbody'⟩
  · rintro ⟨hd | hd, hbelow, howner⟩
    · refine .inr ⟨hd, ?_, ?_, howner.trans hbody'.symm⟩
      · have hstatement := Kind.isStatement_of_isDeclaration hd
        rcases (below_of_owningFunction h.linked howner).1.eq_or_child with rfl | ⟨c, hc, hbelow⟩
        · rw [Kind.not_isFunction_of_isDeclaration hd] at hfun
          cases hfun
        · rw [hchildren] at hc
          simp only [List.mem_cons, List.not_mem_nil, or_false] at hc
          rcases hc with rfl | rfl | rfl
          · exact absurd hstatement (h.not_isStatement (by rw [hresult]; trivial) hbelow)
          · exact absurd hstatement (h.not_isStatement (by rw [hparams]; trivial) hbelow)
          · exact hbelow
      · rintro rfl
        rw [role, Kind.role_eq_declaration.mpr hd] at hbody
        cases hbody
    · obtain ⟨f', params', hfun', -, howner', hchild', hmem⟩ := h.exists_parameters hd
        (by simp [role, h.kind_root, Kind.role]) hbelow
      obtain rfl : f' = f := Option.some.inj (howner'.symm.trans howner)
      obtain rfl : params = params' := Option.some.inj (hchild₁.symm.trans hchild')
      exact .inl hmem

/-- The variables of a frame are the declarations and parameters that its function owns. -/
theorem mem_variables (hframe : forest.IsFrame root function) :
    d ∈ forest.frameVariables root function ↔
      ((forest.kind d).isDeclaration ∨ (forest.kind d).isParameter) ∧ forest.Below d root ∧
        forest.owningFunction d = function := by
  cases function with
  | none => exact h.mem_variables_none
  | some f => exact h.mem_variables_some (hframe f rfl)

theorem nodup_variables (hframe : forest.IsFrame root function) :
    (forest.frameVariables root function).Nodup := by
  cases function with
  | none => exact (h.linked.nodup root).filter _
  | some f =>
    obtain ⟨result, params, body, hchildren, -, hparams, -⟩ := h.exists_body (hframe f rfl)
    simp only [frameVariables, child?, hchildren, List.getElem?_cons_succ, List.getElem?_cons_zero,
      Option.elim_some]
    refine (h.linked.nodup params).append (nodup_locals h.linked h.ranked h.declaresOnce) ?_
    intro d hd hd'
    -- Parameters are no declarations.
    have hdecl := ((mem_locals h.linked h.ranked h.declaresOnce).mp hd').1
    have hparam := h.isParameter_of_mem hparams hd
    cases hk : forest.kind d <;> simp_all [Kind.isDeclaration, Kind.isParameter]

end Whole

end Forest

end MiniC
