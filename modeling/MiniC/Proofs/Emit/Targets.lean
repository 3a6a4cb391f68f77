import MiniC.Proofs.Emit.Contained
import MiniC.Proofs.Machine.Library

/-!
# Labels and jumps of statements

The labels in the code of a statement are those that resolution has drawn for the statements in it,
each once. Its code jumps to those labels only, or out of the statement to a label of the loop around
it; it calls library routines and functions of the program.
-/

namespace MiniC

open Machine Forest

namespace Emit

variable {layout : Layout} {root : NodeId} {function loop : Option NodeId} {code : Code} {drawn : Nat}
  {piece : Piece} {items : List Item}

/-- Code that runs from its first to its last instruction defines no labels. -/
theorem labels_plain (h : ∀ instr ∈ code, instr.isPlain) : code.labels = [] := by
  refine List.filterMap_eq_nil_iff.mpr fun instr hinstr => ?_
  have hplain := h instr hinstr
  cases instr <;> simp_all [Instr.isPlain, Instr.defined?]

@[simp] theorem labels_control_label (name : Label) :
    (Item.control (.label name)).code.labels = [name] := rfl

@[simp] theorem labels_control_ujp (name : Label) :
    (Item.control (.ujp name)).code.labels = [] := rfl

theorem labels_jumpItems {test : NodeId} (h : Tests layout root test code) (target : Label) :
    (codeOf (jumpItems test code target)).labels = [] := by
  have hplain := labels_plain h.value.plain
  simp only [jumpItems, codeOf_cons, codeOf_nil, Code.labels_append, Item.code, hplain]
  rfl

theorem labels_guards {test : NodeId} {target : Label} (h : Guards layout root test target items) :
    (codeOf items).labels = [] := by
  cases h with
  | always => rfl
  | tested _ htest => exact labels_jumpItems htest target

/-- The labels of the code of statements in a frame: each belongs to one of the statements. -/
structure Marks (forest : Forest) (function : Option NodeId) (piece : Piece) (labels : List Label) :
    Prop where
  nodup : labels.Nodup
  origin : ∀ label ∈ labels, ∃ n, piece.Above forest n ∧ forest.owningFunction n = function ∧
    label ∈ (forest.kind n).ownLabels

/-- Statements that stand one behind the other. -/
def Piece.Apart (forest : Forest) : Piece → Prop
  | statement _ => True
  | statements ids => ids.Nodup ∧ ∃ p, ids ⊆ forest.children p

namespace Marks

variable {forest : Forest} {id c c' : NodeId} {labels labels' : List Label}

/-- Statements without labels of their own. -/
theorem nil : Marks forest function piece [] := ⟨List.nodup_nil, (by simp)⟩

/-- The labels of a part are labels of the whole. -/
theorem lift (h : Marks forest function (.statement c) labels) (hc : c ∈ forest.children id) :
    ∀ label ∈ labels, ∃ n, forest.Below n id ∧ forest.owningFunction n = function ∧
      label ∈ (forest.kind n).ownLabels := by
  intro label hlabel
  obtain ⟨n, hn, howner, hown⟩ := h.origin label hlabel
  exact ⟨n, .child hc hn, howner, hown⟩

/-- A statement shares no label with its parts. -/
theorem not_own (h : Marks forest function (.statement c) labels) (hwhole : forest.Whole root)
    (hlabelled : Labelled forest drawn) (hc : c ∈ forest.children id) {label : Label}
    (hlabel : label ∈ (forest.kind id).ownLabels) : label ∉ labels := by
  intro hmem
  obtain ⟨n, hn, -, hown⟩ := h.origin label hmem
  obtain rfl := hlabelled.apart id n label hlabel hown
  exact Below.not_child hwhole.ranked hc hn

/-- Different parts of a statement share no label. -/
theorem disjoint (h : Marks forest function (.statement c) labels)
    (h' : Marks forest function (.statement c') labels') (hwhole : forest.Whole root)
    (hlabelled : Labelled forest drawn) (hc : c ∈ forest.children id)
    (hc' : c' ∈ forest.children id) (hne : c ≠ c') : labels.Disjoint labels' := by
  intro label hlabel hlabel'
  obtain ⟨n, hn, -, hown⟩ := h.origin label hlabel
  obtain ⟨n', hn', -, hown'⟩ := h'.origin label hlabel'
  obtain rfl := hlabelled.apart n n' label hown hown'
  exact Below.apart hwhole.linked hwhole.ranked hc hc' hne hn hn'

/-- The labels of several parts of a statement. -/
theorem flatten {cs : List NodeId} {parts : List (List Label)}
    (h : List.Forall₂ (fun c labels => Marks forest function (.statement c) labels) cs parts)
    (hwhole : forest.Whole root) (hlabelled : Labelled forest drawn) (hcs : cs ⊆ forest.children id)
    (hnodup : cs.Nodup) : parts.flatten.Nodup ∧ ∀ label ∈ parts.flatten, ∃ c ∈ cs, ∃ labels,
      Marks forest function (.statement c) labels ∧ label ∈ labels := by
  induction h with
  | nil => exact ⟨List.nodup_nil, (by simp)⟩
  | @cons c labels cs parts hc _ ih =>
    obtain ⟨hcid, hcs⟩ := List.cons_subset.mp hcs
    obtain ⟨hnot, hnodup⟩ := List.nodup_cons.mp hnodup
    obtain ⟨hrest, horigin⟩ := ih hcs hnodup
    refine ⟨hc.nodup.append hrest fun label hlabel hlabel' => ?_, fun label hlabel => ?_⟩
    · obtain ⟨c', hc', labels', hmarks, hmem⟩ := horigin label hlabel'
      refine hc.disjoint hmarks hwhole hlabelled hcid (hcs hc') ?_ hlabel hmem
      rintro rfl
      exact hnot hc'
    · rcases List.mem_append.mp hlabel with hlabel | hlabel
      · exact ⟨c, List.mem_cons_self, labels, hc, hlabel⟩
      · obtain ⟨c', hc', hrest⟩ := horigin label hlabel
        exact ⟨c', List.mem_cons_of_mem _ hc', hrest⟩

/-- The labels of a statement are some of its own and those of its parts. -/
theorem of_parts (own : List Label) {cs : List NodeId} {parts : List (List Label)}
    (hperm : labels.Perm (own ++ parts.flatten)) (hown : own.Sublist (forest.kind id).ownLabels)
    (hparts : List.Forall₂ (fun c labels => Marks forest function (.statement c) labels) cs parts)
    (hwhole : forest.Whole root) (hlabelled : Labelled forest drawn)
    (hcs : cs.Sublist (forest.children id)) (howner : forest.owningFunction id = function) :
    Marks forest function (.statement id) labels := by
  obtain ⟨hnodup, horigin⟩ :=
    flatten hparts hwhole hlabelled hcs.subset (hcs.nodup (hwhole.linked.nodup id))
  refine ⟨hperm.nodup_iff.mpr (((hlabelled.nodup id).sublist hown).append hnodup ?_), ?_⟩
  · intro label hlabel hlabel'
    obtain ⟨c, hc, labels', hmarks, hmem⟩ := horigin label hlabel'
    exact hmarks.not_own hwhole hlabelled (hcs.subset hc) (hown.subset hlabel) hmem
  · intro label hlabel
    rcases List.mem_append.mp (hperm.mem_iff.mp hlabel) with hlabel | hlabel
    · exact ⟨id, .refl, howner, hown.subset hlabel⟩
    · obtain ⟨c, hc, labels', hmarks, hmem⟩ := horigin label hlabel
      exact hmarks.lift (hcs.subset hc) label hmem

end Marks

/-- The labels of the code of a statement belong to the statements in it, each to one. -/
theorem Lowered.marks (h : Lowered layout root piece items) (hwhole : layout.forest.Whole root)
    (hlabelled : Labelled layout.forest drawn) (hpiece : piece.In layout.forest function)
    (hapart : piece.Apart layout.forest) :
    Marks layout.forest function piece (codeOf items).labels := by
  induction h with
  | declared | function | nothing | nil => exact .nil
  | initialized _ _ _ _ _ hvalue =>
    have hplain := labels_plain hvalue.plain
    simp only [codeOf_cons, codeOf_nil, Item.code, List.append_nil, Code.labels_append, hplain]
    exact .nil
  | listed _ _ _ _ _ hfilled =>
    simp only [codeOf_cons, codeOf_nil, Item.code, List.append_nil, labels_plain hfilled.plain]
    exact .nil
  | exprStatement _ _ _ hcode =>
    simp only [codeOf_cons, codeOf_nil, Item.code, List.append_nil, labels_plain hcode.plain]
    exact .nil
  | leave | jump => exact .nil
  | giveBack _ _ _ _ _ _ _ _ hvalue =>
    have hplain := labels_plain hvalue.plain
    simp only [codeOf_cons, codeOf_nil, Item.code, List.append_nil, Code.labels_append, hplain]
    exact .nil
  | @block id items hkind _ ih =>
    have hpart : ∀ c ∈ layout.forest.children id, layout.forest.owningFunction c = function :=
      fun c hc => owner_of_mem hwhole (by rw [hkind]; rfl) hpiece hc
    have hmarks := ih hpart ⟨hwhole.linked.nodup id, id, List.Subset.refl _⟩
    refine ⟨hmarks.nodup, fun label hlabel => ?_⟩
    obtain ⟨n, ⟨c, hc, hn⟩, howner, hown⟩ := hmarks.origin label hlabel
    exact ⟨n, .child hc hn, howner, hown⟩
  | @ifThen id test yes labels code items hkind hchildren htest _ ih =>
    have hpart : ∀ c ∈ layout.forest.children id, layout.forest.owningFunction c = function :=
      fun c hc => owner_of_mem hwhole (by rw [hkind]; rfl) hpiece hc
    have hyes := ih (hpart yes (by simp [hchildren])) trivial
    simp only [codeOf_append, codeOf_cons, codeOf_nil, List.append_nil, Code.labels_append,
      labels_jumpItems htest, labels_control_label, List.nil_append]
    refine .of_parts [labels.finish] ?_ ?_ (.cons hyes .nil) hwhole hlabelled ?_ hpiece
    · refine List.perm_iff_count.mpr fun label => ?_
      simp only [List.count_append, List.count_cons, List.count_nil, List.flatten_cons,
        List.flatten_nil]
      omega
    · simp [hkind, Kind.ownLabels]
    · simp [hchildren]
  | @ifElse id test yes no labels code items others hkind hchildren htest _ _ ihyes ihno =>
    have hpart : ∀ c ∈ layout.forest.children id, layout.forest.owningFunction c = function :=
      fun c hc => owner_of_mem hwhole (by rw [hkind]; rfl) hpiece hc
    have hyes := ihyes (hpart yes (by simp [hchildren])) trivial
    have hno := ihno (hpart no (by simp [hchildren])) trivial
    simp only [codeOf_append, codeOf_cons, codeOf_nil, List.append_nil, Code.labels_append,
      labels_jumpItems htest, labels_control_label, labels_control_ujp, List.nil_append]
    refine .of_parts [labels.otherwise, labels.finish] ?_ ?_ (.cons hyes (.cons hno .nil))
      hwhole hlabelled ?_ hpiece
    · refine List.perm_iff_count.mpr fun label => ?_
      simp only [List.count_append, List.count_cons, List.count_nil, List.flatten_cons,
        List.flatten_nil]
      omega
    · simp [hkind, Kind.ownLabels]
    · simp [hchildren]
  | @whileLoop id test body labels code items hkind hchildren htest _ ih =>
    have hpart : ∀ c ∈ layout.forest.children id, layout.forest.owningFunction c = function :=
      fun c hc => owner_of_mem hwhole (by rw [hkind]; rfl) hpiece hc
    have hbody := ih (hpart body (by simp [hchildren])) trivial
    simp only [codeOf_append, codeOf_cons, codeOf_nil, List.append_nil, Code.labels_append,
      labels_jumpItems htest, labels_control_label, labels_control_ujp, List.nil_append]
    refine .of_parts [labels.start, labels.finish] ?_ ?_ (.cons hbody .nil) hwhole
      hlabelled ?_ hpiece
    · refine List.perm_iff_count.mpr fun label => ?_
      simp only [List.count_append, List.count_cons, List.count_nil, List.flatten_cons,
        List.flatten_nil]
      omega
    · simp [hkind, Kind.ownLabels]
    · simp [hchildren]
  | @forLoop id start test next body labels first guard items others hkind hchildren _ hguard _ _ _
      ihstart ihbody ihnext =>
    have hpart : ∀ c ∈ layout.forest.children id, layout.forest.owningFunction c = function :=
      fun c hc => owner_of_mem hwhole (by rw [hkind]; rfl) hpiece hc
    have hstart := ihstart (hpart start (by simp [hchildren])) trivial
    have hnext := ihnext (hpart next (by simp [hchildren])) trivial
    have hbody := ihbody (hpart body (by simp [hchildren])) trivial
    simp only [codeOf_append, codeOf_cons, codeOf_nil, List.append_nil, Code.labels_append,
      labels_guards hguard, labels_control_label, labels_control_ujp, List.nil_append]
    refine .of_parts [labels.start, labels.next, labels.finish] ?_ ?_
      (.cons hstart (.cons hnext (.cons hbody .nil))) hwhole hlabelled ?_ hpiece
    · refine List.perm_iff_count.mpr fun label => ?_
      simp only [List.count_append, List.count_cons, List.count_nil, List.flatten_cons,
        List.flatten_nil]
      omega
    · simp [hkind, Kind.ownLabels]
    · simp [hchildren]
  | @cons id others items rest _ _ ihitems ihothers =>
    obtain ⟨hid, hothers⟩ := List.forall_mem_cons.mp (show ∀ c ∈ _ :: _, _ from hpiece)
    obtain ⟨hnodup, p, hsub⟩ := hapart
    obtain ⟨hnot, hnodup⟩ := List.nodup_cons.mp hnodup
    obtain ⟨hidp, hsub⟩ := List.cons_subset.mp hsub
    have hfirst := ihitems hid trivial
    have hrest := ihothers hothers ⟨hnodup, p, hsub⟩
    simp only [codeOf_append, Code.labels_append]
    refine ⟨hfirst.nodup.append hrest.nodup fun label hlabel hlabel' => ?_, fun label hlabel => ?_⟩
    · obtain ⟨n, hn, -, hown⟩ := hfirst.origin label hlabel
      obtain ⟨n', ⟨c, hc, hn'⟩, -, hown'⟩ := hrest.origin label hlabel'
      obtain rfl := hlabelled.apart n n' label hown hown'
      refine Below.apart hwhole.linked hwhole.ranked hidp (hsub hc) ?_ hn hn'
      rintro rfl
      exact hnot hc
    · rcases List.mem_append.mp hlabel with hlabel | hlabel
      · obtain ⟨n, hn, hrest⟩ := hfirst.origin label hlabel
        exact ⟨n, ⟨id, List.mem_cons_self, hn⟩, hrest⟩
      · obtain ⟨n, ⟨c, hc, hn⟩, hrest⟩ := hrest.origin label hlabel
        exact ⟨n, ⟨c, List.mem_cons_of_mem _ hc, hn⟩, hrest⟩

/-! ## Jumps -/

/-- A label outside of the statements that `loop` is around: that of the loop for those that leave it
or go on with it. -/
def JumpsOut (forest : Forest) (loop : Option NodeId) (label : Label) : Prop :=
  ∃ around leaving, loop = some around ∧
    Resolve.jumpTarget? (forest.kind around) leaving = some label

/-- Everything that code is made for is in a loop, or in none. -/
def Piece.Inside (forest : Forest) (loop : Option NodeId) : Piece → Prop
  | statement id => forest.enclosingLoop id = loop
  | statements ids => ∀ id ∈ ids, forest.enclosingLoop id = loop

/-- Code jumps to some labels only, or out of the loop around it. -/
def Jumps (forest : Forest) (loop : Option NodeId) (labels : List Label) (code : Code) : Prop :=
  ∀ instr ∈ code, ∀ label, instr.jump? = some label → label ∈ labels ∨ JumpsOut forest loop label

namespace Jumps

variable {forest : Forest} {labels labels' : List Label} {code' : Code} {instr : Instr}

theorem nil : Jumps forest loop labels [] := nofun

theorem append_iff : Jumps forest loop labels (code ++ code') ↔
    Jumps forest loop labels code ∧ Jumps forest loop labels code' := List.forall_mem_append

theorem single_iff : Jumps forest loop labels [instr] ↔
    ∀ label, instr.jump? = some label → label ∈ labels ∨ JumpsOut forest loop label :=
  List.forall_mem_singleton

/-- An instruction that is no jump. -/
theorem still (h : instr.jump? = none) : Jumps forest loop labels [instr] :=
  single_iff.mpr fun label hlabel => by simp [h] at hlabel

theorem mono (h : Jumps forest loop labels code) (hsub : labels ⊆ labels') :
    Jumps forest loop labels' code :=
  fun instr hinstr label hjump => (h instr hinstr label hjump).imp_left fun hmem => hsub hmem

/-- Jumps out of a loop whose labels are there are no jumps out of what is around it. -/
theorem leave {id : NodeId} {outer : Option NodeId} (h : Jumps forest (some id) labels code)
    (hsub : labels ⊆ labels')
    (hloop : ∀ leaving label, Resolve.jumpTarget? (forest.kind id) leaving = some label →
      label ∈ labels') : Jumps forest outer labels' code := by
  intro instr hinstr label hjump
  rcases h instr hinstr label hjump with hmem | ⟨around, leaving, heq, htarget⟩
  · exact .inl (hsub hmem)
  · obtain rfl := Option.some.inj heq
    exact .inl (hloop leaving label htarget)

theorem plain (h : ∀ instr ∈ code, instr.isPlain) : Jumps forest loop labels code := by
  intro instr hinstr label hjump
  have hplain := h instr hinstr
  cases instr <;> simp_all [Instr.isPlain, Instr.jump?]

end Jumps

/-- Code that jumps to what a label stands for. -/
theorem Tests.jumps {forest : Forest} {test : NodeId} (h : Tests layout root test code)
    {target : Label} {labels : List Label} (htarget : target ∈ labels) :
    Jumps forest loop labels (codeOf (jumpItems test code target)) := by
  simp only [jumpItems, codeOf_cons, codeOf_nil, Item.code, List.append_nil, Jumps.append_iff]
  refine ⟨⟨.plain h.value.plain, .still rfl⟩, Jumps.single_iff.mpr fun label hlabel => ?_⟩
  exact .inl (Option.some.inj hlabel ▸ htarget)

theorem Guards.jumps {forest : Forest} {test : NodeId} {target : Label}
    (h : Guards layout root test target items) {labels : List Label} (htarget : target ∈ labels) :
    Jumps forest loop labels (codeOf items) := by
  cases h with
  | always => exact .nil
  | tested _ htest => exact htest.jumps htarget

/-- The loop around the parts of a statement that is no loop. -/
theorem enclosingLoop_of_mem {id c : NodeId} (hwhole : layout.forest.Whole root)
    (hkind : (layout.forest.kind id).isFunction = false)
    (hloop : (layout.forest.kind id).isLoop = false) (hid : layout.forest.enclosingLoop id = loop)
    (hc : c ∈ layout.forest.children id) : layout.forest.enclosingLoop c = loop := by
  rw [enclosingLoop_of_parent hwhole.linked hwhole.ranked (hwhole.linked.parent_of_mem hc), hkind,
    hloop, ← hid]
  rfl

/-- The loop around the parts of a loop. -/
theorem enclosingLoop_of_loop {id c : NodeId} (hwhole : layout.forest.Whole root)
    (hloop : (layout.forest.kind id).isLoop) (hc : c ∈ layout.forest.children id) :
    layout.forest.enclosingLoop c = some id := by
  rw [enclosingLoop_of_parent hwhole.linked hwhole.ranked (hwhole.linked.parent_of_mem hc), hloop]
  rfl

/-- No loop is around the parts of a function. -/
theorem enclosingLoop_of_function {f c : NodeId} (hwhole : layout.forest.Whole root)
    (hf : (layout.forest.kind f).isFunction) (hc : c ∈ layout.forest.children f) :
    layout.forest.enclosingLoop c = none := by
  have hloop : (layout.forest.kind f).isLoop = false := by
    cases hk : layout.forest.kind f <;> simp_all [Kind.isFunction, Kind.isLoop]
  rw [enclosingLoop_of_parent hwhole.linked hwhole.ranked (hwhole.linked.parent_of_mem hc), hf, hloop]
  rfl

/-- The code of a statement jumps to its own labels, or out of the loop around it. -/
theorem Lowered.jumps (h : Lowered layout root piece items) (hwhole : layout.forest.Whole root)
    (hpiece : piece.Inside layout.forest loop) :
    Jumps layout.forest loop (codeOf items).labels (codeOf items) := by
  induction h generalizing loop with
  | declared | function | nothing | nil => exact .nil
  | initialized _ _ _ _ _ hvalue =>
    simp only [codeOf_cons, codeOf_nil, Item.code, List.append_nil, Jumps.append_iff]
    exact ⟨.plain hvalue.plain, .still rfl⟩
  | listed _ _ _ _ _ hfilled =>
    simp only [codeOf_cons, codeOf_nil, Item.code, List.append_nil]
    exact .plain hfilled.plain
  | exprStatement _ _ _ hcode =>
    simp only [codeOf_cons, codeOf_nil, Item.code, List.append_nil]
    exact .plain hcode.plain
  | leave => exact .still rfl
  | giveBack _ _ _ _ _ _ _ _ hvalue =>
    simp only [codeOf_cons, codeOf_nil, Item.code, List.append_nil, Jumps.append_iff]
    exact ⟨⟨.plain hvalue.plain, .still rfl⟩, .still rfl⟩
  | @jump id around leaving label hjump =>
    refine Jumps.single_iff.mpr fun target htarget => .inr ⟨around, leaving, ?_, ?_⟩
    · exact hpiece.symm.trans hjump.loop_eq
    · exact Option.some.inj htarget ▸ hjump.target_eq
  | block hkind _ ih =>
    exact ih fun c hc => enclosingLoop_of_mem hwhole (by rw [hkind]; rfl) (by rw [hkind]; rfl)
      hpiece hc
  | @ifThen id test yes labels code items hkind hchildren htest _ ih =>
    have hyes := ih (enclosingLoop_of_mem hwhole (by rw [hkind]; rfl) (by rw [hkind]; rfl) hpiece
      (by simp [hchildren]))
    simp only [codeOf_append, codeOf_cons, codeOf_nil, List.append_nil, Jumps.append_iff,
      Code.labels_append, labels_control_label]
    exact ⟨⟨htest.jumps (by simp), hyes.mono fun label hlabel => by simp [hlabel]⟩,
      .still rfl⟩
  | @ifElse id test yes no labels code items others hkind hchildren htest _ _ ihyes ihno =>
    have hpart : ∀ c ∈ layout.forest.children id, layout.forest.enclosingLoop c = loop := fun c hc =>
      enclosingLoop_of_mem hwhole (by rw [hkind]; rfl) (by rw [hkind]; rfl) hpiece hc
    have hyes := ihyes (hpart yes (by simp [hchildren]))
    have hno := ihno (hpart no (by simp [hchildren]))
    simp only [codeOf_append, codeOf_cons, codeOf_nil, List.append_nil, Jumps.append_iff,
      Code.labels_append, labels_control_label]
    refine ⟨⟨⟨⟨htest.jumps (by simp), hyes.mono fun label hlabel => by simp [hlabel]⟩, ?_,
      .still rfl⟩, hno.mono fun label hlabel => by simp [hlabel]⟩,
      .still rfl⟩
    refine Jumps.single_iff.mpr fun label hlabel => .inl ?_
    simp [← Option.some.inj hlabel]
  | @whileLoop id test body labels code items hkind hchildren htest _ ih =>
    have hbody := ih (enclosingLoop_of_loop hwhole (by rw [hkind]; rfl) (by simp [hchildren]))
    simp only [codeOf_append, codeOf_cons, codeOf_nil, List.append_nil, Jumps.append_iff,
      Code.labels_append, labels_control_label]
    refine ⟨⟨⟨.still rfl, htest.jumps (by simp)⟩, hbody.leave ?_ ?_⟩, ?_,
      .still rfl⟩
    · exact fun label hlabel => by simp [hlabel]
    · intro leaving label hlabel
      cases leaving <;> simp_all [Resolve.jumpTarget?]
    · refine Jumps.single_iff.mpr fun label hlabel => .inl ?_
      simp [← Option.some.inj hlabel]
  | @forLoop id start test next body labels first guard items others hkind hchildren _ hguard _ _ _
      ihstart ihbody ihnext =>
    have hpart : ∀ c ∈ layout.forest.children id, layout.forest.enclosingLoop c = some id :=
      fun c hc => enclosingLoop_of_loop hwhole (by rw [hkind]; rfl) hc
    have hstart := ihstart (hpart start (by simp [hchildren]))
    have hnext := ihnext (hpart next (by simp [hchildren]))
    have hbody := ihbody (hpart body (by simp [hchildren]))
    have hloop : ∀ (leaving : Bool) (label : Label),
        Resolve.jumpTarget? (layout.forest.kind id) leaving = some label →
        label = labels.next ∨ label = labels.finish := by
      intro leaving label hlabel
      cases leaving <;> simp_all [Resolve.jumpTarget?]
    simp only [codeOf_append, codeOf_cons, codeOf_nil, List.append_nil, Jumps.append_iff,
      Code.labels_append, labels_control_label]
    refine ⟨⟨⟨⟨⟨⟨hstart.leave ?_ ?_, .still rfl⟩, hguard.jumps (by simp)⟩,
      hbody.leave ?_ ?_⟩, .still rfl⟩, hnext.leave ?_ ?_⟩, ?_,
      .still rfl⟩
    · exact fun label hlabel => by simp [hlabel]
    · intro leaving label hlabel
      rcases hloop leaving label hlabel with rfl | rfl <;> simp
    · exact fun label hlabel => by simp [hlabel]
    · intro leaving label hlabel
      rcases hloop leaving label hlabel with rfl | rfl <;> simp
    · exact fun label hlabel => by simp [hlabel]
    · intro leaving label hlabel
      rcases hloop leaving label hlabel with rfl | rfl <;> simp
    · refine Jumps.single_iff.mpr fun label hlabel => .inl ?_
      simp [← Option.some.inj hlabel]
  | cons _ _ ihitems ihothers =>
    obtain ⟨hid, hothers⟩ := List.forall_mem_cons.mp (show ∀ c ∈ _ :: _, _ from hpiece)
    simp only [codeOf_append, Code.labels_append, Jumps.append_iff]
    exact ⟨(ihitems hid).mono (List.subset_append_left _ _),
      (ihothers hothers).mono (List.subset_append_right _ _)⟩

/-! ## Calls -/

/-- The code of something that a program does. -/
inductive Performs (layout : Layout) (root : NodeId) : Event → Code → Prop
  | condition {test : NodeId} {code : Code} (htest : Tests layout root test code) :
      Performs layout root (.condition test) (code ++ [.conv .int .bool])
  | discarded {e : NodeId} {code : Code} (hcode : Coded layout root (.effect e) code) :
      Performs layout root (.discarded e) code
  | initializer {d initial slot : NodeId} {type given : Ty} {code : Code}
      (hd : Initializes layout root d slot type) (harray : type.isArray = false)
      (hgiven : layout.forest.type? initial = some given) (hsame : given.same type)
      (hvalue : Coded layout root (.value initial) code) :
      Performs layout root (.initializer d) (code ++ [.str type.cell 0 slot])
  | initializers {d slot : NodeId} {list : List NodeId} {element : Ty} {size : Nat}
      {constant : Bool} {code : Code}
      (hd : Initializes layout root d slot (.array element size constant))
      (hlist : ∀ item ∈ list, layout.forest.HasType item element) (hlength : list.length ≤ size)
      (hfilled : Filled layout root element.cell element.slots slot list code) :
      Performs layout root (.initializer d) code
  | result {value : NodeId} {type : Ty} {code : Code} (htype : layout.forest.type? value = some type)
      (hvoid : type.isVoid = false) (hvalue : Coded layout root (.value value) code) :
      Performs layout root (.result value) (code ++ [.str type.cell 0 0])

/-- The events in the code of a statement. -/
theorem Lowered.performs {event : Event} (h : Lowered layout root piece items)
    (hevent : .event event code ∈ items) : Performs layout root event code := by
  have htest : ∀ {test code' target}, Tests layout root test code' →
      .event event code ∈ jumpItems test code' target → Performs layout root event code := by
    intro test code' target htest hmem
    simp only [jumpItems, List.mem_cons, Item.event.injEq, reduceCtorEq, List.not_mem_nil,
      or_false] at hmem
    obtain ⟨rfl, rfl⟩ := hmem
    exact .condition htest
  induction h with
  | declared | function | nothing | nil => cases hevent
  | initialized hd _ harray hgiven hsame hvalue =>
    obtain ⟨rfl, rfl⟩ := Item.event.inj (List.mem_singleton.mp hevent)
    exact .initializer hd harray hgiven hsame hvalue
  | listed hd _ _ hlength hitems hfilled =>
    obtain ⟨rfl, rfl⟩ := Item.event.inj (List.mem_singleton.mp hevent)
    exact .initializers hd hitems hlength hfilled
  | exprStatement _ _ _ hcode =>
    obtain ⟨rfl, rfl⟩ := Item.event.inj (List.mem_singleton.mp hevent)
    exact .discarded hcode
  | leave | jump => cases List.mem_singleton.mp hevent
  | giveBack _ _ _ _ _ htype _ hvoid hvalue =>
    simp only [List.mem_cons, Item.event.injEq, reduceCtorEq, List.not_mem_nil, or_false] at hevent
    obtain ⟨rfl, rfl⟩ := hevent
    exact .result htype hvoid hvalue
  | block _ _ ih => exact ih hevent
  | ifThen _ _ htests _ ih =>
    simp only [List.mem_append, List.mem_cons, reduceCtorEq, List.not_mem_nil, or_false] at hevent
    exact hevent.elim (htest htests) ih
  | ifElse _ _ htests _ _ ihyes ihno =>
    simp only [List.mem_append, List.mem_cons, reduceCtorEq, List.not_mem_nil, or_false] at hevent
    rcases hevent with (hevent | hevent) | hevent
    · exact htest htests hevent
    · exact ihyes hevent
    · exact ihno hevent
  | whileLoop _ _ htests _ ih =>
    simp only [List.mem_append, List.mem_cons, reduceCtorEq, List.not_mem_nil, or_false,
      false_or] at hevent
    exact hevent.elim (htest htests) ih
  | forLoop _ _ _ hguard _ _ _ ihstart ihbody ihnext =>
    simp only [List.mem_append, List.mem_cons, reduceCtorEq, List.not_mem_nil, or_false] at hevent
    rcases hevent with ((hevent | hevent) | hevent) | hevent
    · exact ihstart hevent
    · cases hguard with
      | always => cases hevent
      | tested _ htests => exact htest htests hevent
    · exact ihbody hevent
    · exact ihnext hevent
  | cons _ _ ihitems ihothers => exact (List.mem_append.mp hevent).elim ihitems ihothers

/-- The label of a routine of the library, or of a function that is called in the program. -/
def IsCallee (layout : Layout) (root : NodeId) (label : Label) : Prop :=
  (∃ name, label = .named name) ∨
    ∃ id s signature depth, Calls layout root id s signature depth ∧ signature.label = label

/-- Code calls routines of the library, and functions of the program that are called in it. -/
def CallsOnly (layout : Layout) (root : NodeId) (code : Code) : Prop :=
  ∀ instr ∈ code, ∀ label, instr.callee? = some label → IsCallee layout root label

namespace CallsOnly

variable {code' : Code} {instr : Instr}

@[simp] theorem nil : CallsOnly layout root [] := nofun

@[simp] theorem append_iff : CallsOnly layout root (code ++ code') ↔
    CallsOnly layout root code ∧ CallsOnly layout root code' := List.forall_mem_append

@[simp] theorem cons_iff : CallsOnly layout root (instr :: code) ↔
    (∀ label, instr.callee? = some label → IsCallee layout root label) ∧
      CallsOnly layout root code := List.forall_mem_cons

end CallsOnly

/-- What the code of an expression calls. -/
theorem Coded.callsOnly {part : Part} (h : Coded layout root part code) :
    CallsOnly layout root code := by
  induction h with
  | @call id s signature depth code hcalls _ ih =>
    have hcallee : IsCallee layout root signature.label := .inr ⟨id, s, signature, depth, hcalls, rfl⟩
    cases signature.variadic <;> simp [Instr.callee?, ih, hcallee]
  | assignVariable keep | assignAddress keep => cases keep <;> simp_all [Instr.callee?]
  | @stepVariable _ _ _ _ _ position direction keep | @stepAddress _ _ _ position direction _ _ keep =>
    cases keep <;> cases position <;> cases direction <;> simp_all [Instr.callee?, stepInstr]
  | @conversion _ _ change => cases change.coercion <;> simp_all [Instr.callee?]
  | remainder => simp_all [Instr.callee?, IsCallee]
  | _ => simp_all [Instr.callee?]

theorem Filled.callsOnly {tag : Tag} {size slot : Nat} {list : List NodeId}
    (h : Filled layout root tag size slot list code) : CallsOnly layout root code := by
  induction h with
  | nil => exact .nil
  | cons hvalue _ ih => simp [hvalue.callsOnly, ih, Instr.callee?]

theorem Performs.callsOnly {event : Event} (h : Performs layout root event code) :
    CallsOnly layout root code := by
  cases h with
  | condition htest => simp [htest.value.callsOnly, Instr.callee?]
  | discarded hcode => exact hcode.callsOnly
  | initializer _ _ _ _ hvalue => simp [hvalue.callsOnly, Instr.callee?]
  | initializers _ _ _ hfilled => exact hfilled.callsOnly
  | result _ _ hvalue => simp [hvalue.callsOnly, Instr.callee?]

/-- What the code of a statement calls. -/
theorem Lowered.callsOnly (h : Lowered layout root piece items) :
    CallsOnly layout root (codeOf items) := by
  intro instr hinstr label hlabel
  obtain ⟨item, hitem, hinstr⟩ := List.mem_flatMap.mp hinstr
  have hproper := h.proper item hitem
  cases item with
  | event event code => exact (h.performs hitem).callsOnly instr hinstr label hlabel
  | control control =>
    obtain rfl := List.mem_singleton.mp hinstr
    obtain ⟨name, rfl | rfl | rfl⟩ := hproper <;> cases hlabel
  | leave returned leave =>
    obtain rfl := List.mem_singleton.mp hinstr
    rcases hproper with rfl | rfl <;> cases hlabel

end Emit

end MiniC
