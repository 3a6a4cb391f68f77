import MiniC.Proofs.FrameLayout
import MiniC.Proofs.Value.Reference

/-!
# Frames in memory

While the code of an expression runs, the frames of the functions around it and of the file are in
memory, and maybe others: `Running` says where. The cells of variables and strings (`Layout.data`) are
apart from the scratch slot of the running frame (`Layout.hidden`) and from its result slot.
-/

namespace MiniC

open Machine Forest Emit

/-- A frame in memory: the function that it is for, or the file, and where it begins. -/
abbrev Activation := Option NodeId × Int

namespace Layout

variable (layout : Layout) (root : NodeId) (live : Set Activation)

/-- The cells of the variables and strings of frames. -/
def data : Set Int :=
  {cell | ∃ frame ∈ live, ∃ resident slot, layout.Resides root frame.1 resident ∧ resident ≠ .scratch ∧
    Covers (layout.first? frame.1) layout.extent resident slot ∧ cell = frame.2 + slot}

/-- The scratch slot of a frame, if it has one. -/
def hidden (frame : Activation) : Set Int :=
  {cell | ∃ slot, layout.scratch? frame.1 = some slot ∧ cell = frame.2 + slot}

/-- Code of a function or of the file runs in a frame. The frames in memory are apart; static links
lead to those of the functions around, and variables and strings are in their slots there. -/
structure Running (function : Option NodeId) (setting : Setting) (whereabouts : Whereabouts) : Prop where
  isFrame : ∀ frame ∈ live, layout.forest.IsFrame root frame.1
  apart : ∀ frame ∈ live, ∀ other ∈ live, frame ≠ other →
    ∀ slot < layout.sizeOf frame.1, ∀ slot' < layout.sizeOf other.1,
      frame.2 + (slot : Int) ≠ other.2 + (slot' : Int)
  linked : ∀ depth target, layout.forest.outward depth function = some target →
    ∃ base, setting.frame? depth = some base ∧ (target, base) ∈ live ∧
      (∀ s slot, (layout.table.symbol s).frame = target →
        (layout.table.symbol s).offset = some slot → whereabouts.symbol s = base + slot) ∧
      ∀ id slot, target = none → layout.pool? id = some slot → whereabouts.string id = base + slot

end Layout

open Layout

section

variable {root id d : NodeId} {layout : Layout} {live : Set Activation} {function : Option NodeId}
  {setting : Setting} {whereabouts : Whereabouts} {resolution : Resolution} {place : Place} {type : Ty}

/-- The frame whose code runs. -/
theorem Layout.Running.mem_live (h : layout.Running root live function setting whereabouts) :
    (function, setting.base) ∈ live := by
  obtain ⟨base, hbase, hmem, -⟩ := h.linked 0 function rfl
  obtain rfl : setting.base = base := Option.some.inj hbase
  exact hmem

/-- Two frames that have a cell in common are one. -/
theorem Layout.Running.eq_of_common (h : layout.Running root live function setting whereabouts)
    {frame other : Activation} (hframe : frame ∈ live) (hother : other ∈ live) {slot slot' : Nat}
    (hslot : slot < layout.sizeOf frame.1) (hslot' : slot' < layout.sizeOf other.1)
    (heq : frame.2 + (slot : Int) = other.2 + (slot' : Int)) : frame = other ∧ slot = slot' := by
  by_cases hsame : frame = other
  · subst hsame
    exact ⟨rfl, by omega⟩
  · exact absurd heq (h.apart frame hframe other hother hsame slot hslot slot' hslot')

namespace Laid

variable (h : Laid root resolution layout)

include h

/-- What resides in a frame is behind its header and in front of its end. -/
theorem bounds_of_resides (hframe : layout.forest.IsFrame root function) {resident : Resident} {slot : Nat}
    (hresides : layout.Resides root function resident)
    (hcovers : Covers (layout.first? function) layout.extent resident slot) :
    frameHeader ≤ slot ∧ slot < layout.sizeOf function :=
  (h.tiled_residents hframe).covers_iff.mpr
    ⟨resident, (h.mem_residents hframe resident).mpr hresides, hcovers⟩

/-- No variable and no string is kept in the scratch slot. -/
theorem disjoint_hidden (hrunning : layout.Running root live function setting whereabouts) :
    Disjoint (layout.data root live) (layout.hidden (function, setting.base)) := by
  rw [Set.disjoint_left]
  rintro cell ⟨frame, hframe, resident, slot, hresides, hne, hcovers, rfl⟩ ⟨slot', hscratch, heq⟩
  have hisFrame := hrunning.isFrame frame hframe
  have hisFrame' := hrunning.isFrame _ hrunning.mem_live
  have hresides' : layout.Resides root function .scratch := .scratch (by simp [hscratch])
  have hcovers' : Covers (layout.first? function) layout.extent .scratch slot' :=
    ⟨slot', hscratch, Nat.le_refl _, Nat.lt_succ_self _⟩
  obtain ⟨rfl, rfl⟩ := hrunning.eq_of_common hframe hrunning.mem_live
    (h.bounds_of_resides hisFrame hresides hcovers).2
    (h.bounds_of_resides hisFrame' hresides' hcovers').2 heq
  exact hne ((h.tiled_residents hisFrame).eq_of_covers (h.nodup_residents hisFrame)
    ((h.mem_residents hisFrame _).mpr hresides) ((h.mem_residents hisFrame _).mpr hresides')
    hcovers hcovers')

/-- A name stands for a symbol that is kept in the slot of its variable. -/
theorem whereabouts_of_names (hrunning : layout.Running root live function setting whereabouts)
    (hnames : Names layout root id d place type) (howner : layout.forest.owningFunction id = function) :
    ∃ s base, (layout.forest.kind id).symbol? = some s ∧ setting.frame? place.depth = some base ∧
      whereabouts.symbol s = base + place.slot ∧
      ((type.isArray = false) → base + place.slot ∈ layout.data root live) := by
  obtain ⟨s, hs, hlt, hvariable⟩ := h.sound.declares _ hnames.frame d hnames.mem
  have hd := h.sound.declared.variableAt s hlt d hvariable
  have hslot := hnames.slot
  rw [Layout.slot?, hs, Option.bind_some] at hslot
  obtain ⟨base, hbase, hlive, hsymbol, -⟩ := hrunning.linked _ _ (howner ▸ hnames.depth)
  refine ⟨s, base, hnames.symbol_eq.trans hs, hbase, hsymbol s _ hd.frame hslot, fun harray => ?_⟩
  have hpositive : 0 < layout.slots d := by
    rw [hnames.slots]
    cases type <;> simp_all [Ty.slots, Ty.isArray, Ty.kind]
  obtain ⟨resident, hresides, hne, hcovers⟩ :=
    h.covers_declared hnames.frame hnames.mem hnames.slot hpositive
  exact ⟨_, hlive, resident, _, hresides, hne, hcovers, by simp⟩

end Laid

end

end MiniC
