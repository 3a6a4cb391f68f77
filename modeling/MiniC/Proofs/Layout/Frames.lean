import MiniC.Proofs.Layout.Variables

/-!
# Laying out a program

A resolved program can be laid out. In each frame the variables come one behind the other after the
header, then the strings if it is the frame of the file, and then the scratch slot if there is one
(`Framed`); nothing else is changed.
-/

namespace MiniC

open Forest Machine

/-- The code that runs in the frame of a function or of the file. -/
def Forest.frameCode (forest : Forest) (root : NodeId) : Option NodeId → Option NodeId
  | none => some root
  | some f => forest.child? f 2

/-- The frame that ends in front of a slot, or behind it if that is the scratch slot. -/
def Frame.ending (scratch : Bool) (stop : Nat) : Frame :=
  if scratch then ⟨stop + 1, some stop⟩ else ⟨stop, none⟩

namespace Layout

variable {layout layout' : Layout} {root d f : NodeId} {function : Option NodeId}
  {nodes ids : List NodeId} {next stop : Nat}

/-- How a frame is laid out: its variables follow each other up to `middle`, and its strings from
there to `stop`. -/
structure Framed (layout : Layout) (root : NodeId) (function : Option NodeId) (middle stop : Nat) :
    Prop where
  slots : Tiled layout.slot? layout.slots frameHeader (layout.forest.frameVariables root function)
    middle
  strings : Tiled layout.pool? layout.chars middle (layout.forest.frameStrings root function) stop
  frame : layout.frame? function =
    some (.ending ((layout.forest.frameCode root function).any layout.forest.needsScratch) stop)

/-- Every variable of a frame is bound to a symbol of its own. -/
def Declares (layout : Layout) (root : NodeId) : Prop :=
  ∀ function, layout.forest.IsFrame root function →
    ∀ d ∈ layout.forest.frameVariables root function, ∃ s,
      (layout.forest.kind d).symbol? = some s ∧ s < layout.table.size ∧
        (layout.table.symbol s).kind = .variableAt d

theorem Declares.bound (h : layout.Declares root) (hwhole : layout.forest.Whole root)
    (hframe : layout.forest.IsFrame root function) :
    layout.Bound (layout.forest.frameVariables root function) := by
  refine ⟨hwhole.nodup_variables hframe, fun d hd => ?_, fun d hd d' hd' heq => ?_⟩
  · obtain ⟨s, hs, hlt, -⟩ := h function hframe d hd
    exact ⟨s, hs, hlt⟩
  · obtain ⟨s, hs, -, hkind⟩ := h function hframe d hd
    obtain ⟨s', hs', -, hkind'⟩ := h function hframe d' hd'
    obtain rfl : s = s' := by
      rw [hs, hs'] at heq
      exact Option.some.inj heq
    rw [hkind] at hkind'
    exact SymbolKind.variableAt.inj hkind'

theorem Declares.moved {table : SymbolTable} (h : layout.Declares root)
    (htable : layout.table.Moved table) : ({ layout with table } : Layout).Declares root := by
  intro function hframe d hd
  obtain ⟨s, hs, hlt, hkind⟩ := h function hframe d hd
  exact ⟨s, hs, htable.size_eq ▸ hlt, (htable.kind_eq s).trans hkind⟩

/-- Variables of different frames are bound to different symbols. -/
theorem Declares.apart {function' : Option NodeId} {s : SymbolId} {d' : NodeId}
    (h : layout.Declares root) (hwhole : layout.forest.Whole root)
    (hframe : layout.forest.IsFrame root function) (hframe' : layout.forest.IsFrame root function')
    (hne : function ≠ function') (hd : d ∈ layout.forest.frameVariables root function)
    (hd' : d' ∈ layout.forest.frameVariables root function')
    (hs : (layout.forest.kind d).symbol? = some s) : (layout.forest.kind d').symbol? ≠ some s := by
  intro hs'
  obtain ⟨t, ht, -, hkind⟩ := h function hframe d hd
  obtain ⟨t', ht', -, hkind'⟩ := h function' hframe' d' hd'
  obtain rfl : t = s := Option.some.inj (ht.symm.trans hs)
  obtain rfl : t' = t := Option.some.inj (ht'.symm.trans hs')
  obtain rfl : d = d' := SymbolKind.variableAt.inj (hkind.symm.trans hkind')
  obtain ⟨-, -, howner⟩ := (hwhole.mem_variables hframe).mp hd
  obtain ⟨-, -, howner'⟩ := (hwhole.mem_variables hframe').mp hd'
  exact hne (howner.symm.trans howner')

/-- The slots of a frame are those of the symbols of its variables. -/
theorem slot_congr {layout' : Layout} (h : layout.Declares root)
    (hframe : layout.forest.IsFrame root function)
    (hsymbol : ∀ d, (layout'.forest.kind d).symbol? = (layout.forest.kind d).symbol?)
    (hsame : ∀ d ∈ layout.forest.frameVariables root function, ∀ s,
      (layout.forest.kind d).symbol? = some s → layout'.table.symbol s = layout.table.symbol s)
    (hd : d ∈ layout.forest.frameVariables root function) :
    layout'.slot? d = layout.slot? d ∧ layout'.slots d = layout.slots d := by
  obtain ⟨s, hs, -⟩ := h function hframe d hd
  simp [slot?, slots, hsymbol, hs, hsame d hd s hs]

theorem place_append (a b : List NodeId) :
    layout.place next (a ++ b) =
      (layout.place next a).bind fun placed => placed.1.place placed.2 b := by
  induction a generalizing layout next with
  | nil => rfl
  | cons d a ih =>
    simp only [List.cons_append, place, Bind.bind, Except.bind]
    cases layout.symbolOf d with
    | error fault => rfl
    | ok s => exact ih

/-- Placing variables changes the table only. -/
theorem place_ok (h : layout.place next nodes = .ok (layout', stop)) :
    layout'.forest = layout.forest ∧ layout'.frames = layout.frames := by
  induction nodes generalizing next layout with
  | nil =>
    obtain ⟨rfl, rfl⟩ : layout = layout' ∧ next = stop := by simpa [place] using h
    exact ⟨rfl, rfl⟩
  | cons d nodes ih =>
    simp only [place, Bind.bind, Except.bind] at h
    split at h
    · cases h
    · next s _ =>
      obtain ⟨hforest, hframes⟩ := ih h
      exact ⟨hforest, hframes⟩

/-- What placing the frame of a function does. -/
theorem placeFunction_eq (hdeclares : layout.Declares root) (hwhole : layout.forest.Whole root)
    (hf : f ∈ layout.forest.definitions root) :
    ∃ table frame, layout.placeFunction f =
        .ok { layout with table, frames := (some f, frame) :: layout.frames } ∧
      layout.table.Moved table ∧
      (∃ stop, ({ layout with table, frames := (some f, frame) :: layout.frames } : Layout).Framed
        root (some f) stop stop) ∧
      ∀ s, (∀ d ∈ layout.forest.frameVariables root (some f),
        (layout.forest.kind d).symbol? ≠ some s) → table.symbol s = layout.table.symbol s := by
  obtain ⟨result, params, body, hchildren, -, hparams, -⟩ := hwhole.exists_body hf
  have hframe := isFrame_some hf
  obtain ⟨table, stop, hplace, hmoved, htiled, hothers⟩ :=
    place_eq (hdeclares.bound hwhole hframe) frameHeader
  have hvariables : layout.forest.frameVariables root (some f) =
      layout.forest.children params ++ layout.forest.locals body := by
    simp [frameVariables, child?, hchildren]
  rw [hvariables, place_append] at hplace
  simp only [Except.bind] at hplace
  split at hplace
  · cases hplace
  next middle hmiddle =>
  obtain ⟨layout₁, next₁⟩ := middle
  obtain ⟨hforest, -⟩ := place_ok hmiddle
  simp only at hplace
  refine ⟨table, .ending (layout.forest.needsScratch body) stop, ?_, hmoved, ⟨stop, ?_, ?_, ?_⟩,
    hothers⟩
  · simp only [placeFunction, child, child?, hchildren, List.getElem?_cons_succ,
      List.getElem?_cons_zero, Bind.bind, Except.bind, hmiddle, hforest, hplace, close]
    rfl
  · refine htiled.congr fun d _ => ⟨rfl, ?_⟩
    simp only [slots, hmoved.type_eq]
  · rfl
  · simp [frame?, frameCode, child?, hchildren]

/-- What placing the frames of functions does. -/
theorem placeFunctions_eq {functions : List NodeId} (hdeclares : layout.Declares root)
    (hwhole : layout.forest.Whole root) (hnodup : functions.Nodup)
    (hdefined : ∀ f ∈ functions, f ∈ layout.forest.definitions root) :
    ∃ table frames, layout.placeFunctions functions = .ok { layout with table, frames } ∧
      layout.table.Moved table ∧
      (∀ f ∈ functions, ∃ stop,
        ({ layout with table, frames } : Layout).Framed root (some f) stop stop) ∧
      (∀ function, (∀ f ∈ functions, function ≠ some f) →
        frames.lookup function = layout.frames.lookup function) ∧
      ∀ s, (∀ f ∈ functions, ∀ d ∈ layout.forest.frameVariables root (some f),
        (layout.forest.kind d).symbol? ≠ some s) → table.symbol s = layout.table.symbol s := by
  induction functions generalizing layout with
  | nil => exact ⟨layout.table, layout.frames, rfl, .refl, (by simp), fun _ _ => rfl, fun _ _ => rfl⟩
  | cons f functions ih =>
    obtain ⟨hnot, hnodup⟩ := List.nodup_cons.mp hnodup
    obtain ⟨hf, hdefined⟩ := List.forall_mem_cons.mp hdefined
    obtain ⟨table₁, frame, hplace, hmoved, ⟨stop, hframed⟩, hothers⟩ :=
      placeFunction_eq hdeclares hwhole hf
    obtain ⟨table, frames, hrest, hmoved', hframeds, hlookup, hothers'⟩ :=
      @ih { layout with table := table₁, frames := (some f, frame) :: layout.frames }
        (hdeclares.moved hmoved) hwhole hnodup hdefined
    refine ⟨table, frames, ?_, hmoved.trans hmoved', ?_, ?_, ?_⟩
    · simp only [placeFunctions, hplace, Bind.bind, Except.bind]
      exact hrest
    · refine List.forall_mem_cons.mpr ⟨⟨stop, ?_, hframed.strings, ?_⟩, hframeds⟩
      · -- The variables of `f` are not among those that are placed later.
        refine hframed.slots.congr fun d hd => ?_
        refine slot_congr (hdeclares.moved hmoved) (isFrame_some hf) (fun _ => rfl) ?_ hd
        intro d hd s hs
        refine hothers' s fun g hg d' hd' => ?_
        exact hdeclares.apart hwhole (isFrame_some hf) (isFrame_some (hdefined g hg))
          (fun heq => hnot (Option.some.inj heq ▸ hg)) hd hd' hs
      · rw [frame?, hlookup (some f) fun g hg heq => hnot (Option.some.inj heq ▸ hg)]
        exact hframed.frame
    · intro function hne
      rw [List.forall_mem_cons] at hne
      rw [hlookup function hne.2, List.lookup_cons, beq_false_of_ne hne.1]
    · intro s hs
      rw [List.forall_mem_cons] at hs
      rw [hothers' s hs.2, hothers s hs.1]

end Layout

/-- In a sound program every variable is bound to a symbol of its own. -/
theorem Sound.declares {layout : Layout} {root : NodeId} {drawn : Nat}
    (h : Sound root layout.forest layout.table drawn) : layout.Declares root := by
  intro function hframe d hd
  obtain ⟨hkind, hbelow, howner⟩ := (h.whole.mem_variables hframe).mp hd
  have hbound : ∃ s, (layout.forest.kind d).symbol? = some s := by
    rcases hkind with hdecl | hparam
    · have hrule := (h.statement d hbelow (Kind.isStatement_of_isDeclaration hdecl)).rule
      unfold StatementRule at hrule
      cases hk : layout.forest.kind d with
      | declaration name symbol =>
        simp only [hk] at hrule
        obtain ⟨s, -, rfl, -⟩ := hrule
        exact ⟨s, rfl⟩
      | _ => simp [hk, Kind.isDeclaration] at hdecl
    · obtain ⟨f, params, hfun, hfroot, howner', hchild, hmem⟩ := h.whole.exists_parameters hparam
        (by simp [role, h.whole.kind_root, Kind.role]) hbelow
      obtain rfl : function = some f := howner.symm.trans howner'
      obtain ⟨result, params', body, hchildren, -⟩ := h.whole.exists_body (hframe f rfl)
      obtain rfl : params' = params := by simpa [child?, hchildren] using hchild
      have hstatement : (layout.forest.role f).IsStatement := by
        rw [role, Kind.role_eq_function.mpr hfun]
        trivial
      have hrule := (h.statement f hfroot hstatement).rule
      unfold StatementRule at hrule
      cases hk : layout.forest.kind f with
      | function name symbol =>
        simp only [hk, hchildren, ParametersRule] at hrule
        obtain ⟨-, signature, -, -, -, -, -, -, -, hparams⟩ := hrule
        obtain ⟨name, s, hs⟩ := ((List.forall₂_and_left _ _).mp hparams).1 d hmem
        exact ⟨s, by rw [hs]; rfl⟩
      | _ => simp [hk, Kind.isFunction] at hfun
  obtain ⟨s, hs⟩ := hbound
  have hrole : layout.forest.role d = .declaration ∨ layout.forest.role d = .parameter :=
    hkind.imp Kind.role_eq_declaration.mpr Kind.role_eq_parameter.mpr
  obtain ⟨hlt, hvariable⟩ := h.declared.bound_variable d s hrole hs
  exact ⟨s, hs, hlt, hvariable⟩

/-- A resolved program that has been laid out. -/
structure Laid (root : NodeId) (resolution : Resolution) (layout : Layout) : Prop where
  pooled : resolution.forest.Pooled layout.forest
  moved : resolution.table.Moved layout.table
  framed : ∀ function, layout.forest.IsFrame root function →
    ∃ middle stop, layout.Framed root function middle stop
  sound : Sound root layout.forest layout.table resolution.session.drawn

namespace Resolved

variable {parsed : Forest} {root : NodeId} {resolution : Resolution}

/-- Every resolved program can be laid out. -/
theorem exists_laid (hparsed : parsed.Parsed root) (h : Resolved parsed root resolution) :
    ∃ layout, Layout.ofProgram resolution.forest resolution.table root = .ok layout ∧
      Laid root resolution layout := by
  have hsound := h.sound hparsed
  have hwhole := hsound.whole
  -- The frame of the file.
  have hdeclares : ({ forest := resolution.forest, table := resolution.table } : Layout).Declares
      root := hsound.declares
  obtain ⟨table₁, middle, hplace, hmoved, hslots, -⟩ :=
    Layout.place_eq (hdeclares.bound hwhole isFrame_none) frameHeader
  have hpreorder : (resolution.forest.preorder root).Nodup :=
    nodup_preorder hwhole.linked hwhole.ranked
  obtain ⟨forest, stop, hstrings, hpooled, hpool, houtside⟩ := @Layout.placeStrings_eq
    { forest := resolution.forest, table := table₁ } _ hpreorder
    (fun id hid => hwhole.lt_size ((mem_preorder hwhole.ranked).mp hid)) middle
  have houtside' : ∀ id, id < parsed.size → ¬parsed.Below id root →
      forest.node id = resolution.forest.node id := fun id hid hout =>
    houtside id fun hmem =>
      hout (h.below_parsed_of_lt hparsed ((mem_preorder hwhole.ranked).mp hmem) hid)
  -- The frames of the functions.
  have hsound₁ : Sound root forest table₁ resolution.session.drawn :=
    (h.laid hparsed hpooled houtside' hmoved).sound hparsed
  have hdeclares₁ : (({ forest, table := table₁ } : Layout).close none root stop).Declares root :=
    hsound₁.declares
  have hdefinitions : (forest.definitions root).Nodup :=
    nodup_definitions hsound₁.whole.linked hsound₁.whole.ranked
  obtain ⟨table, frames, hfunctions, hmoved₂, hframed, hlookup, hothers⟩ :=
    Layout.placeFunctions_eq hdeclares₁ hsound₁.whole hdefinitions fun _ hf => hf
  have hmoved' := hmoved.trans hmoved₂
  refine ⟨{ forest, table, frames }, ?_, hpooled, hmoved', ?_,
    (h.laid hparsed hpooled houtside' hmoved').sound hparsed⟩
  · rw [frameVariables] at hplace
    simp only [Layout.ofProgram, Layout.placeFile, Bind.bind, Except.bind, hplace, hstrings, pure,
      Except.pure, ← hpooled.definitions_eq]
    exact hfunctions
  · intro function hframe
    cases function with
    | some f =>
      obtain ⟨stop, hf⟩ := hframed f (hframe f rfl)
      exact ⟨stop, stop, hf⟩
    | none =>
      refine ⟨middle, stop, ?_, ?_, ?_⟩
      · -- The variables of the file are not among those of the functions.
        rw [hpooled.frameVariables_none]
        refine hslots.congr fun d hd => ?_
        have hkept : ∀ d ∈ resolution.forest.frameVariables root none, ∀ s,
            (resolution.forest.kind d).symbol? = some s → table.symbol s = table₁.symbol s := by
          intro d hd s hs
          refine hothers s fun g hg d' hd' => ?_
          rw [← hpooled.frameVariables_none] at hd
          exact hdeclares₁.apart hsound₁.whole isFrame_none (isFrame_some hg) (by simp) hd hd'
            ((hpooled.kind_same d).symbol?_eq.trans hs)
        obtain ⟨hslot, hlength⟩ := @Layout.slot_congr _ _ _ _ { forest, table, frames }
          (hdeclares.moved hmoved) isFrame_none (fun d => (hpooled.kind_same d).symbol?_eq) hkept hd
        refine ⟨hslot, hlength.trans ?_⟩
        simp only [Layout.slots, hmoved.type_eq]
      · simp only [frameStrings, hpooled.preorder_eq]
        have hfilter : ((resolution.forest.preorder root).filter fun id =>
            (forest.kind id).isString) = (resolution.forest.preorder root).filter fun id =>
              (resolution.forest.kind id).isString :=
          List.filter_congr fun id _ => (hpooled.kind_same id).isString_eq
        rw [hfilter]
        exact hpool.congr fun id _ => ⟨rfl, (hpooled.kind_same id).chars_eq⟩
      · rw [Layout.frame?, hlookup none (by simp)]
        rfl

end Resolved

end MiniC
