import MiniC.Proofs.Ensures
import MiniC.Proofs.Tree.Ladder

/-!
# Coercions are local and atomic

In place, a coercion is a sequence of changes: a node is added, a slot or the root gets the new node,
the link of the expression to its parent is cleared and set again. A promotion may do all this twice. No
refusal comes in between, so the forest is as it was behind each of them; and behind a coercion that is
not refused nothing has changed but the place of the expression, whatever is around it.
-/

namespace MiniC.Forest

variable {forest : Forest} {id : NodeId} {source target : Ty} {changes : List Conversion}

/-! ## In place -/

/-- Converts an expression in place, one change after the other. -/
def convertHere (expr : NodeId) (target : Ty) : EStateM Fault Forest NodeId := do
  let forest ← get
  match forest.type? expr with
  | none => throw (.malformed "converting an untyped expression" (forest.line expr))
  | some source =>
    if source.same target then
      return expr
    match source.conversion? target with
    | none => throw ⟨.noConversion source.text target.text, forest.line expr⟩
    | some coercion =>
      let wrapper ← modifyGet fun forest =>
        (forest.wrap expr (.conversion { source, target, coercion })).swap
      modify fun forest => forest.setType wrapper target
      return wrapper

/-- Promotes an operand in place. The second conversion is made in the forest that the first one leaves.
-/
def promoteHere (expr : NodeId) (common : Ty) : EStateM Fault Forest NodeId := do
  if ((← get).type? expr).any (·.widensThroughInt common) then
    let widened ← convertHere expr .int
    convertHere widened common
  else
    convertHere expr common

/-- What is left in the place of a forest: the answer or, behind a refusal, the forest itself. -/
def leftBy (forest : Forest) : Except Fault (Forest × NodeId) → EStateM.Result Fault Forest NodeId
  | .ok (other, top) => .ok top other
  | .error fault => .error fault forest

theorem convertHere_eq (forest : Forest) (id : NodeId) (target : Ty) :
    convertHere id target forest = forest.leftBy (forest.convert id target) := by
  rw [convertHere, get_bind_apply, convert]
  cases forest.type? id with
  | none => rfl
  | some source =>
    by_cases hsame : source.same target
    · simp only [if_pos hsame]
      rfl
    · simp only [if_neg hsame]
      cases source.conversion? target <;> rfl

/-- In the place of a forest, the second conversion of a promotion is never the one that is refused. -/
theorem promoteHere_eq (ha : forest.Anchored) (id : NodeId) (common : Ty) :
    promoteHere id common forest = forest.leftBy (forest.promote id common) := by
  have hstart : promoteHere id common forest =
      (if (forest.type? id).any (·.widensThroughInt common) then do
        let widened ← convertHere id .int
        convertHere widened common
      else convertHere id common) forest := rfl
  rw [hstart, promote]
  split_ifs with hwidens
  · obtain ⟨source, hs, hsource⟩ := (Option.any_eq_true _ _).mp hwidens
    obtain ⟨lower, upper, hlower, hupper, -⟩ := Ty.exists_route?_stops hsource
    obtain ⟨mid, hconvert, htopped, hmid, htype⟩ := topped_of_convert ha hs hlower
    obtain ⟨other, hconvert', -⟩ := htopped.convert ha hmid (lt_size_of_type (by simp [hs])) htype hupper
    have hfirst : convertHere id .int forest = .ok (forest.rung id lower.length) mid := by
      rw [convertHere_eq, hconvert]
      rfl
    simp only [Bind.bind, EStateM.bind, hfirst, convertHere_eq, hconvert, hconvert']
    rfl
  · exact convertHere_eq forest id common

/-! ## Both coercions -/

/-- The ways to bring an expression to a type. -/
inductive Way
  | convert
  | promote

namespace Way

/-- The coercion itself. -/
def coerce : Way → Forest → NodeId → Ty → Except Fault (Forest × NodeId)
  | convert => Forest.convert
  | promote => Forest.promote

/-- The coercion in place. -/
def coerceHere : Way → NodeId → Ty → EStateM Fault Forest NodeId
  | convert => convertHere
  | promote => promoteHere

/-- Whether an expression of a type can be brought to another one. -/
def reaches : Way → Ty → Ty → Bool
  | convert, source, target => (source.conversion? target).isSome
  | promote, source, target => source.promotesTo target

/-- The types that an expression is brought to, one after the other. -/
def stops : Way → Ty → Ty → List Ty
  | convert, _, target => [target]
  | promote, source, target => source.stops target

variable {way : Way}

theorem isSome_route?_stops :
    (source.route? (way.stops source target)).isSome = way.reaches source target := by
  cases way with
  | convert => exact Ty.isSome_route?_singleton
  | promote =>
    rw [stops, reaches, Ty.promotesTo]
    cases hwidens : source.widensThroughInt target with
    | false =>
      rw [Ty.stops, hwidens, Bool.or_false, if_neg Bool.false_ne_true, Ty.isSome_route?_singleton]
    | true =>
      obtain ⟨lower, upper, -, -, hboth⟩ := Ty.exists_route?_stops hwidens
      rw [hboth, Bool.or_true, Option.isSome_some]

theorem after_stops (hsame : source.same target = false)
    (hroute : source.route? (way.stops source target) = some changes) :
    changes ≠ [] ∧ source.after changes = target := by
  cases way with
  | convert => exact Ty.after_eq_of_route?_singleton hsame hroute
  | promote => exact Ty.after_eq_of_route?_stops hsame hroute

theorem topped_of_coerce (ha : forest.Anchored) (hs : forest.type? id = some source)
    (hroute : source.route? (way.stops source target) = some changes) :
    ∃ other, way.coerce forest id target = .ok (other, forest.rung id changes.length) ∧
      Topped forest other id changes ∧ other.Anchored ∧
      other.type? (forest.rung id changes.length) = some (source.after changes) := by
  cases way with
  | convert => exact topped_of_convert ha hs hroute
  | promote => exact topped_of_promote ha hs hroute

theorem coerceHere_eq (ha : forest.Anchored) (way : Way) (id : NodeId) (target : Ty) :
    way.coerceHere id target forest = forest.leftBy (way.coerce forest id target) := by
  cases way with
  | convert => exact convertHere_eq forest id target
  | promote => exact promoteHere_eq ha id target

/-- An expression that has the type, up to constness, is left alone. -/
theorem coerce_of_same (hs : forest.type? id = some source) (hsame : source.same target) (way : Way) :
    way.coerce forest id target = .ok (forest, id) := by
  cases way with
  | convert => exact convert_of_same hs hsame
  | promote =>
    have hwidens : source.widensThroughInt target = false := by
      rw [Ty.widensThroughInt, Ty.kind_eq_of_same hsame]
      cases target.kind <;> rfl
    simp [coerce, Forest.promote, hs, hwidens, convert_of_same hs hsame]

end Way

/-- What can be converted has a type, from which there is a conversion. -/
theorem exists_conversion_of_convert {answer : Forest × NodeId}
    (h : forest.convert id target = .ok answer) :
    ∃ source, forest.type? id = some source ∧ (source.conversion? target).isSome := by
  unfold convert at h
  split at h
  · cases h
  · next source hs =>
    refine ⟨source, hs, ?_⟩
    split_ifs at h with hsame
    · simp [Ty.conversion?, hsame]
    · split at h
      · cases h
      · next hc => rw [hc, Option.isSome_some]

/-- A coercion is refused unless the expression has a type that reaches the other one. -/
theorem Way.isOk_coerce_iff (ha : forest.Anchored) (way : Way) :
    (∃ answer, way.coerce forest id target = .ok answer) ↔
      ∃ source, forest.type? id = some source ∧ way.reaches source target := by
  constructor
  · rintro ⟨answer, hok⟩
    cases way with
    | convert => exact exists_conversion_of_convert hok
    | promote =>
      simp only [coerce, Forest.promote] at hok
      split_ifs at hok with hwidens
      · obtain ⟨source, hs, hsource⟩ := (Option.any_eq_true _ _).mp hwidens
        exact ⟨source, hs, by simp [reaches, Ty.promotesTo, hsource]⟩
      · obtain ⟨source, hs, hc⟩ := exists_conversion_of_convert hok
        exact ⟨source, hs, by simp [reaches, Ty.promotesTo, hc]⟩
  · rintro ⟨source, hs, hreaches⟩
    rw [← isSome_route?_stops] at hreaches
    obtain ⟨changes, hroute⟩ := Option.isSome_iff_exists.mp hreaches
    obtain ⟨other, hok, -⟩ := topped_of_coerce ha hs hroute
    exact ⟨_, hok⟩

/-! ## The result -/

/-- **Coercions are local and atomic.** In a linked forest with nothing around its root, for any
expression and any type, a coercion in place leaves what the coercion answers and, when it is refused,
the forest as it was. It is refused if and only if the expression has no type that reaches the other
one. An expression that has the type, up to constness, is left alone.

Otherwise a ladder of conversions gets the place of the expression, which is a slot of its parent or the
root. The uppermost one is answered and has the type, and no coercion to that type changes anything any
more. They all have the line, the scope and the function of the expression. Other nodes are what they
were, but for the slot of the parent and the link of the expression to it, and the links still agree. -/
theorem coercion_local_and_atomic (ha : forest.Anchored) (way : Way) (id : NodeId) (target : Ty) :
    way.coerceHere id target forest = forest.leftBy (way.coerce forest id target) ∧
    ((∃ answer, way.coerce forest id target = .ok answer) ↔
      ∃ source, forest.type? id = some source ∧ way.reaches source target) ∧
    ∀ source, forest.type? id = some source →
      (source.same target → way.coerce forest id target = .ok (forest, id)) ∧
      (source.same target = false → ∀ (other : Forest) (top : NodeId),
        way.coerce forest id target = .ok (other, top) →
        ∃ changes, changes ≠ [] ∧ source.route? (way.stops source target) = some changes ∧
          Topped forest other id changes ∧ top = forest.rung id changes.length ∧
          other.type? top = some target ∧ other.Anchored ∧
          (∀ m < forest.size, m ≠ id → forest.parent id ≠ some m → other.node m = forest.node m) ∧
          ∀ again : Way, again.coerce other top target = .ok (other, top)) := by
  refine ⟨way.coerceHere_eq ha id target, way.isOk_coerce_iff ha, fun source hs =>
    ⟨fun hsame => way.coerce_of_same hs hsame, fun hsame other top hok => ?_⟩⟩
  obtain ⟨source', hs', hreaches⟩ := (way.isOk_coerce_iff ha).mp ⟨_, hok⟩
  obtain rfl : source = source' := Option.some.inj (hs.symm.trans hs')
  rw [← Way.isSome_route?_stops] at hreaches
  obtain ⟨changes, hroute⟩ := Option.isSome_iff_exists.mp hreaches
  obtain ⟨other', hok', htopped, hanchored, htype⟩ := Way.topped_of_coerce ha hs hroute
  obtain ⟨rfl, rfl⟩ : other' = other ∧ forest.rung id changes.length = top := by
    simpa using hok'.symm.trans hok
  obtain ⟨hne, hafter⟩ := Way.after_stops hsame hroute
  rw [hafter] at htype
  exact ⟨changes, hne, hroute, htopped, rfl, htype, hanchored,
    fun m hm hid hp => htopped.node_eq ha.linked hm hid hp,
    fun again => again.coerce_of_same htype (Ty.same_refl target)⟩

/-- A character in the slot of a negation, which is the root. -/
def characterBelow : Forest where
  nodes := #[{ kind := .char 'a', line := 1, parent := some 1, type := some .char },
    { kind := .unary .not, line := 1, children := [0] }]
  root := some 1

theorem coercion_local_and_atomic_character :
    characterBelow.Anchored ∧ ∃ other top changes,
      Way.promote.coerce characterBelow 0 (.pointer .int false) = .ok (other, top) ∧
        Topped characterBelow other 0 changes ∧ other.children 1 = [top] ∧
        other.type? top = some (.pointer .int false) := by
  have ha : characterBelow.Anchored := by
    refine ⟨⟨fun {p c} hc => ?_, fun {p c} hp => ?_, fun p => ?_⟩, by simp [characterBelow, size],
      by simp [characterBelow, parent, node]⟩
    · rcases p with _ | _ | p
      · cases hc
      · obtain rfl := List.mem_singleton.mp hc
        rfl
      · cases hc
    · rcases c with _ | _ | c
      · cases hp
        exact List.mem_singleton.mpr rfl
      · cases hp
      · cases hp
    · rcases p with _ | _ | p
      · exact List.nodup_nil
      · exact List.nodup_singleton 0
      · exact List.nodup_nil
  obtain ⟨-, hok, hcoerce⟩ := coercion_local_and_atomic ha .promote 0 (.pointer .int false)
  obtain ⟨⟨other, top⟩, hanswer⟩ := hok.mpr ⟨.char, rfl, rfl⟩
  obtain ⟨changes, -, -, htopped, rfl, htype, -⟩ := (hcoerce .char rfl).2 rfl other top hanswer
  refine ⟨ha, other, _, changes, hanswer, htopped, ?_, htype⟩
  rw [children, htopped.node_old 1 (by decide)]
  exact congrArg (fun id => [id]) (swap_self ..)

end MiniC.Forest
