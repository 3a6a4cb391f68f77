import Mathlib.Tactic.Common
import MiniC.Ty.Conversion

/-!
# Common types

An operand rises to a type if it is brought to it: characters rise to integers and pointers, integers
to pointers, and arrays rise as the pointers that they become. Up to constness the common type of two
operands is the least type that both rise to. The laws of common types follow from this alone
(`rises_common?`), since a type is known by what it rises to.
-/

namespace MiniC.Ty

variable {a b c d : Ty}

/-! ## Types of one cell -/

theorem isScalar_withConst (type : Ty) (constant : Bool) :
    (type.withConst constant).isScalar = type.isScalar := by
  cases type with
  | base name => cases name <;> rfl
  | pointer | array => rfl

theorem isScalar_of_same (h : a.same b) : a.isScalar = b.isScalar := by
  simp only [isScalar, isIntegral, isPointer, kind_eq_of_same h]

/-- The types of one cell are those that have a place in the order. -/
theorem isScalar_iff_rank? : c.isScalar ↔ ∃ rank, c.rank? = some rank := by
  unfold isScalar isIntegral isPointer rank?
  cases c.kind <;> simp

theorem isScalar_of_rank? {rank : Nat} (h : c.rank? = some rank) : c.isScalar :=
  isScalar_iff_rank?.mpr ⟨rank, h⟩

/-- Only arrays become something else. -/
theorem decay_of_isScalar (h : c.isScalar) : c.decay = c := by
  cases c with
  | base | pointer => rfl
  | array => cases h

theorem decay_same (h : a.same b) : a.decay.same b.decay := by
  cases a <;> cases b <;> simp_all [same, plain, decay]

/-! ## The order of common types -/

theorem rank?_eq_of_same (h : a.same b) : a.rank? = b.rank? := by
  rw [rank?, rank?, kind_eq_of_same h]

@[simp] theorem rank?_withConst (type : Ty) (constant : Bool) :
    (type.withConst constant).rank? = type.rank? := rank?_eq_of_same (withConst_same type constant)

theorem rank?_le_two {rank : Nat} (h : c.rank? = some rank) : rank ≤ 2 := by
  unfold rank? at h
  split at h <;> simp_all <;> omega

theorem isPointer_iff_rank? {rank : Nat} (h : c.rank? = some rank) : c.isPointer ↔ rank = 2 := by
  unfold rank? at h
  unfold isPointer
  split at h <;> simp_all <;> omega

/-- Below pointers there is one type of each rank. -/
theorem same_of_rank? {rank : Nat} (ha : a.rank? = some rank) (hb : b.rank? = some rank)
    (hrank : rank < 2) : a.same b := by
  cases a with
  | pointer =>
    have htwo : 2 = rank := Option.some.inj ha
    omega
  | array => cases ha
  | base name =>
    cases b with
    | pointer =>
      have htwo : 2 = rank := Option.some.inj hb
      omega
    | array => cases hb
    | base name' => cases name <;> cases name' <;> simp_all [rank?, kind, same, plain] <;> omega

theorem promotesTo_of_same (h : a.same c) : a.promotesTo c := by
  simp [promotesTo, conversion?, h]

/-- What is lower in the order can be brought higher. -/
theorem promotesTo_of_rank_lt {low high : Nat} (ha : a.rank? = some low) (hc : c.rank? = some high)
    (h : low < high) : a.promotesTo c := by
  have hsame : a.same c = false := by
    by_contra hsame
    have := rank?_eq_of_same (Bool.not_eq_false _ ▸ hsame)
    rw [ha, hc, Option.some.injEq] at this
    omega
  unfold rank? at ha hc
  unfold promotesTo conversion? widensThroughInt
  cases hak : a.kind <;> cases hck : c.kind <;> simp [hak, hck, hsame] at ha hc ⊢ <;> omega

/-- Between characters and pointers there is the integer. -/
theorem conversion?_of_widensThroughInt (h : a.widensThroughInt c) :
    (∃ coercion, a.conversion? .int = some coercion) ∧
      ∀ middle : Ty, middle.same .int → ∃ coercion, middle.conversion? c = some coercion := by
  obtain ⟨ha, hc⟩ : a.kind = .char ∧ c.kind = .pointer := by simpa [widensThroughInt] using h
  have exists_conversion : ∀ source target : Ty, source.kind = .char ∧ target.kind = .int ∨
      source.kind = .int ∧ target.kind = .pointer →
      ∃ coercion, source.conversion? target = some coercion := by
    intro source target hkinds
    unfold conversion?
    split
    · exact ⟨_, rfl⟩
    · rcases hkinds with ⟨hs, ht⟩ | ⟨hs, ht⟩ <;> simp [hs, ht]
  exact ⟨exists_conversion a .int (.inl ⟨ha, rfl⟩),
    fun middle hint => exists_conversion middle c (.inr ⟨kind_eq_of_same hint, hc⟩)⟩

/-! ## Rising -/

/-- An operand of the type becomes one of the second type: one that is higher in the order, or the
same once arrays have become pointers. -/
def Rises (a c : Ty) : Prop :=
  ∃ low high, a.decay.rank? = some low ∧ c.rank? = some high ∧ (low < high ∨ a.decay.same c)

theorem rises_iff {low high : Nat} (ha : a.decay.rank? = some low) (hc : c.rank? = some high) :
    a.Rises c ↔ low < high ∨ a.decay.same c := by
  simp [Rises, ha, hc]

theorem Rises.refl (h : c.isScalar) : c.Rises c := by
  obtain ⟨rank, hrank⟩ := isScalar_iff_rank?.mp h
  rw [rises_iff ((decay_of_isScalar h).symm ▸ hrank) hrank, decay_of_isScalar h]
  exact .inr (same_refl c)

theorem Rises.antisymm (ha : a.isScalar) (hb : b.isScalar) (h : a.Rises b) (h' : b.Rises a) :
    a.same b := by
  obtain ⟨low, hlow⟩ := isScalar_iff_rank?.mp ha
  obtain ⟨high, hhigh⟩ := isScalar_iff_rank?.mp hb
  rw [rises_iff ((decay_of_isScalar ha).symm ▸ hlow) hhigh, decay_of_isScalar ha] at h
  rw [rises_iff ((decay_of_isScalar hb).symm ▸ hhigh) hlow, decay_of_isScalar hb, same_comm] at h'
  rcases h with hlt | hsame
  · exact h'.resolve_left (by omega)
  · exact hsame

/-- Constness of an operand does not count, and arrays rise as pointers do. -/
theorem rises_congr (h : a.decay.same b.decay) : a.Rises d ↔ b.Rises d := by
  have hsame : a.decay.same d = b.decay.same d := by
    have hplain : a.decay.plain = b.decay.plain := by simpa [same] using h
    rw [same, same, hplain]
  rw [Rises, Rises, rank?_eq_of_same h, hsame]

@[simp] theorem rises_withConst (constant : Bool) : (c.withConst constant).Rises d ↔ c.Rises d :=
  rises_congr (decay_same (withConst_same c constant))

@[simp] theorem rises_decay : a.decay.Rises d ↔ a.Rises d :=
  rises_congr (by cases a <;> exact same_refl _)

/-- Operands can be brought to what they rise to, arrays included: their value is a pointer. -/
theorem promotesTo_of_rises (h : a.Rises c) : a.promotesTo c := by
  obtain ⟨low, high, hlow, hhigh, hrises⟩ := h
  by_cases ha : a.isScalar
  · rw [decay_of_isScalar ha] at hlow hrises
    rcases hrises with hlt | hsame
    · exact promotesTo_of_rank_lt hlow hhigh hlt
    · exact promotesTo_of_same hsame
  · cases a with
    | base name => cases name <;> simp_all [isScalar, isIntegral, isPointer, decay, rank?, kind]
    | pointer => cases ha rfl
    | array element size constant =>
      have hkind : c.kind = .pointer := by
        rcases hrises with hlt | hsame
        · have := rank?_le_two hhigh
          obtain rfl : 2 = low := Option.some.inj hlow
          omega
        · exact (kind_eq_of_same hsame).symm
      have hconversion : ((array element size constant).conversion? c).isSome := by
        rw [conversion?, hkind]
        split <;> rfl
      simp [promotesTo, hconversion]

/-! ## The common type as a least upper bound -/

theorem higher?_cases (h : a.higher? b = some c) : c.isScalar ∧ (c = a ∨ c = b) := by
  unfold higher? at h
  split at h
  · next l r hl hr =>
    split_ifs at h <;> obtain rfl := Option.some.inj h
    · exact ⟨isScalar_of_rank? hl, .inl rfl⟩
    · exact ⟨isScalar_of_rank? hr, .inr rfl⟩
    · exact ⟨isScalar_of_rank? hl, .inl rfl⟩
  · cases h

theorem promotesTo_of_higher? (h : a.higher? b = some c) : a.promotesTo c ∧ b.promotesTo c := by
  unfold higher? at h
  split at h
  · next l r hl hr =>
    split_ifs at h with hlt hlt' hsame <;> obtain rfl := Option.some.inj h
    · exact ⟨promotesTo_of_same (same_refl _), promotesTo_of_rank_lt hr hl hlt⟩
    · exact ⟨promotesTo_of_rank_lt hl hr hlt', promotesTo_of_same (same_refl _)⟩
    · exact ⟨promotesTo_of_same (same_refl _), promotesTo_of_same (by rwa [same_comm])⟩
  · cases h

/-- Both operands can always be brought to the higher type, so that it is always the common one. -/
theorem common?_eq_higher? :
    a.common? b = (a.decay.higher? b.decay).map (·.withConst false) := by
  unfold common?
  split
  · next higher h =>
    obtain ⟨hl, hr⟩ := promotesTo_of_higher? h
    simp [h, hl, hr]
  · next h => simp [h]

/-- Operands meet at a type of one cell that is the value of one of them. -/
theorem common?_cases (h : a.common? b = some c) :
    c.isScalar ∧ (c = a.decay.withConst false ∨ c = b.decay.withConst false) := by
  rw [common?_eq_higher?] at h
  obtain ⟨higher, hhigher, rfl⟩ := Option.map_eq_some_iff.mp h
  obtain ⟨hscalar, rfl | rfl⟩ := higher?_cases hhigher
  · exact ⟨(isScalar_withConst ..).trans hscalar, .inl rfl⟩
  · exact ⟨(isScalar_withConst ..).trans hscalar, .inr rfl⟩

theorem isVoid_iff_rank? : c.isVoid ↔ c.decay.rank? = none := by
  cases c with
  | base name => cases name <;> simp [isVoid, kind, decay, rank?]
  | pointer | array => simp [isVoid, kind, decay, rank?]

/-- Two types of which neither is higher are different pointers. -/
theorem higher?_eq_none_iff {l r : Nat} (hl : a.rank? = some l) (hr : b.rank? = some r) :
    a.higher? b = none ↔ a.isPointer ∧ b.isPointer ∧ ¬a.same b := by
  have hbelow : l = r → ¬a.same b → 2 ≤ l := fun h hsame =>
    Nat.le_of_not_lt fun hlt => hsame (same_of_rank? hl (h ▸ hr) hlt)
  have hle := rank?_le_two hl
  rw [isPointer_iff_rank? hl, isPointer_iff_rank? hr]
  simp only [higher?, hl, hr]
  split_ifs with hlt hlt' hsame
  · simp only [false_iff]
    omega
  · simp only [false_iff]
    omega
  · simp [hsame]
  · have := hbelow (by omega) hsame
    exact iff_of_true rfl ⟨by omega, by omega, hsame⟩

/-- Two operands have no common type only if one is void, or they are different pointers. -/
theorem common?_eq_none_iff : a.common? b = none ↔ a.isVoid ∨ b.isVoid ∨
    a.decay.isPointer ∧ b.decay.isPointer ∧ ¬a.decay.same b.decay := by
  rw [isVoid_iff_rank?, isVoid_iff_rank?, common?_eq_higher?, Option.map_eq_none_iff]
  cases hl : a.decay.rank? with
  | none => simp [higher?, hl]
  | some l =>
    cases hr : b.decay.rank? with
    | none => simp [higher?, hr]
    | some r => simpa using higher?_eq_none_iff hl hr

theorem rises_iff_of_isScalar {low high : Nat} (h : a.isScalar) (ha : a.rank? = some low)
    (hc : c.rank? = some high) : a.Rises c ↔ low < high ∨ a.same c := by
  rw [rises_iff ((decay_of_isScalar h).symm ▸ ha) hc, decay_of_isScalar h]

/-- What the higher type rises to is what both types rise to. -/
theorem rises_higher? (ha : a.isScalar) (hb : b.isScalar) :
    (∃ c ∈ a.higher? b, c.Rises d) ↔ a.Rises d ∧ b.Rises d := by
  cases hd : d.rank? with
  | none => simp [Rises, hd]
  | some k =>
    obtain ⟨l, hl⟩ := isScalar_iff_rank?.mp ha
    obtain ⟨r, hr⟩ := isScalar_iff_rank?.mp hb
    have hk := rank?_le_two hd
    have hak : a.same d → l = k := fun h => by simpa [hl, hd] using rank?_eq_of_same h
    have hbk : b.same d → r = k := fun h => by simpa [hr, hd] using rank?_eq_of_same h
    have hrises := rises_iff_of_isScalar ha hl hd
    have hrises' := rises_iff_of_isScalar hb hr hd
    cases hc : a.higher? b with
    | none =>
      -- Both are pointers, and no type is the same as both.
      obtain ⟨hpa, hpb, hsame⟩ := (higher?_eq_none_iff hl hr).mp hc
      have hl2 := (isPointer_iff_rank? hl).mp hpa
      have hr2 := (isPointer_iff_rank? hr).mp hpb
      simp only [Option.not_mem_none, false_and, exists_false, false_iff]
      rintro ⟨h, h'⟩
      refine hsame (same_trans ((hrises.mp h).resolve_left (by omega)) ?_)
      rw [same_comm]
      exact (hrises'.mp h').resolve_left (by omega)
    | some c =>
      simp only [Option.mem_some_iff, exists_eq_left']
      simp only [higher?, hl, hr] at hc
      split_ifs at hc with hlt hlt' hsame <;> obtain rfl := Option.some.inj hc
      · rw [hrises, hrises']
        refine ⟨fun h => ⟨h, .inl ?_⟩, And.left⟩
        rcases h with h | h
        · omega
        · exact hak h ▸ hlt
      · rw [hrises, hrises']
        refine ⟨fun h => ⟨.inl ?_, h⟩, And.right⟩
        rcases h with h | h
        · omega
        · exact hbk h ▸ hlt'
      · have := rises_congr (d := d) (decay_same hsame)
        simp [this]

/-- What the common type rises to is what both operands rise to. -/
theorem rises_common? : (∃ c ∈ a.common? b, c.Rises d) ↔ a.Rises d ∧ b.Rises d := by
  rw [common?_eq_higher?]
  cases hl : a.decay.rank? with
  | none => simp [higher?, Rises, hl]
  | some l =>
    cases hr : b.decay.rank? with
    | none => simp [higher?, Rises, hr]
    | some r =>
      rw [← rises_decay (a := a), ← rises_decay (a := b),
        ← rises_higher? (isScalar_of_rank? hl) (isScalar_of_rank? hr)]
      simp only [Option.mem_def, Option.map_eq_some_iff, exists_exists_and_eq_and,
        rises_withConst]

/-- Types of one cell that rise to the same types are the same. -/
theorem map_plain_eq_of_rises {o o' : Option Ty} (ho : ∀ c ∈ o, c.isScalar)
    (ho' : ∀ c ∈ o', c.isScalar) (h : ∀ d, (∃ c ∈ o, c.Rises d) ↔ ∃ c ∈ o', c.Rises d) :
    o.map plain = o'.map plain := by
  cases o with
  | none =>
    cases o' with
    | none => rfl
    | some c' => simpa using (h c').mpr ⟨c', rfl, Rises.refl (ho' c' rfl)⟩
  | some c =>
    cases o' with
    | none => simpa using (h c).mp ⟨c, rfl, Rises.refl (ho c rfl)⟩
    | some c' =>
      have hrises : ∀ d, c.Rises d ↔ c'.Rises d := by simpa using h
      have hsame := Rises.antisymm (ho c rfl) (ho' c' rfl)
        ((hrises c').mpr (Rises.refl (ho' c' rfl))) ((hrises c).mp (Rises.refl (ho c rfl)))
      simpa [same] using hsame

end MiniC.Ty
