import MiniC.Proofs.Phrase.Read

/-!
# Reading types, numbers and operators

The words of a type and of a number are read as what they were printed for, and the token of an operator
stands for the operator with its power.
-/

namespace MiniC

open Word

/-! ## Numbers -/

namespace Literal

theorem numeral_toString (value : Nat) : numeral (toString value) = value := by
  have hdigits : numeral (toString value) = Nat.ofDigitChars 10 (toString value).toList 0 := rfl
  rw [hdigits, Nat.toString_eq_repr, Nat.toList_repr, Nat.ofDigitChars_ten_toDigits]

theorem value?_toString {value : Int} (hneg : ¬value < 0) (hle : value ≤ greatest) :
    value? false (toString value.toNat) = some value := by
  have hvalue : (value.toNat : Int) = value := Int.toNat_of_nonneg (Int.not_lt.mp hneg)
  have hleast : least ≤ value := Int.le_trans (by decide) (Int.not_lt.mp hneg)
  simp only [value?, numeral_toString, hvalue, hleast, hle, and_self, if_true, Bool.false_eq_true, if_false]

theorem value?_negative {value : Int} (hneg : value < 0) (hleast : least ≤ value) :
    value? true (toString (-value).toNat) = some value := by
  have hvalue : -((-value).toNat : Int) = value := by omega
  have hle : value ≤ greatest := Int.le_trans (Int.le_of_lt hneg) (by decide)
  simp only [value?, numeral_toString, if_true, hvalue, hleast, hle, and_self]

theorem size?_toString {size : Nat} (h : size < 18446744073709551616) :
    size? (toString size) = some size := by
  rw [size?, numeral_toString, if_pos h]

end Literal

/-! ## Operators -/

namespace Grammar

theorem continuation?_token (op : BinaryOp) : continuation? op.token =
    some (op.power, if op = .assign then .assign else .binary op) := by
  cases op with
  | assign | remainder => rfl
  | arith op => cases op <;> rfl
  | compare op => cases op <;> rfl
  | logic op => cases op <;> rfl

theorem continuation?_step (direction : Direction) :
    continuation? direction.token = some (.postfixed, .step direction) := by cases direction <;> rfl

/-- How strongly a token holds on to the operand in front of it. -/
def strength (kind : TokenKind) : Nat := (continuation? kind).elim 0 fun found => found.1.level

theorem level_le (power : Power) : power.level ≤ Power.primary.level := by cases power <;> decide

/-- The kinds of tokens that an expression starts with. -/
def startsOperand : TokenKind → Bool
  | .number | .string | .charLiteral | .identifier | .openParen => true
  | kind => (leading? kind).isSome

theorem startsOperand_token {op : UnaryOp} (h : op.power = .unary) : startsOperand op.token := by
  cases op with
  | step position direction =>
    cases position with
    | before => cases direction <;> rfl
    | after => cases h
  | _ => rfl

end Grammar

/-! ## Types -/

namespace Ty

/-- The base type that a type starts with, and whether it is constant. -/
def stem : Ty → BaseTy × Bool
  | base name constant => (name, constant)
  | pointer target _ => target.stem
  | array element _ _ => element.stem

/-- What stands behind the base type. -/
def suffixes : Ty → List Word
  | base .. => []
  | pointer target constant => target.suffixes ++ TokenKind.star.word :: ofConst constant
  | array element _ _ => element.suffixes

theorem words_eq (type : Ty) : type.words = type.stem.1.words type.stem.2 ++ type.suffixes := by
  induction type with
  | base name constant => exact (List.append_nil _).symm
  | pointer target constant ih =>
    show target.words ++ _ = _ ++ (target.suffixes ++ _)
    rw [ih, List.append_assoc]
    rfl
  | array element size constant ih => exact ih

/-- The base type that a type starts with. -/
abbrev root (type : Ty) : Ty := .base type.stem.1 type.stem.2

end Ty

namespace Grammar

open Parse

variable {origin start : Parser} {next : Word} {words : List Word} {trees : List Tree} {rounds : Nat}
  {type : Ty} {post : Unit → Parser → Prop}

/-- All of the suffixes are read, each of them in a round of its own. -/
theorem ends_typeSuffixes (htype : type.Flat)
    (h : origin.Ahead (type.suffixes ++ words) (type.root.written false :: trees) start)
    (hrounds : (type.suffixes ++ words).length < rounds)
    (hnext : ∀ parser rounds, origin.Ahead words (type.written false :: trees) parser →
      words.length < rounds → Ends (typeSuffixes .default rounds) parser post) :
    Ends (typeSuffixes .default rounds) start post := by
  induction type generalizing words start rounds with
  | base => exact hnext _ _ h hrounds
  | array => exact htype.elim
  | pointer target constant ih =>
    rw [Ty.suffixes, List.append_assoc] at h hrounds
    refine ih htype h hrounds fun parser rounds h hrounds => ?_
    obtain ⟨rounds, rfl⟩ := Nat.exists_eq_succ_of_ne_zero (Nat.ne_zero_of_lt hrounds)
    refine .pos (by decide) (.kind h ((Ends.advance h).bind fun _ parser h => ?_))
    have htarget : target.Flat := htype
    refine (Ends.build (Build.composes_pointerType htarget) h.2).bind fun _ parser h => ?_
    cases constant with
    | false => exact hnext _ _ h (Nat.lt_of_succ_lt_succ hrounds)
    | true =>
      have hrounds : words.length + 1 < rounds := Nat.lt_of_succ_lt_succ hrounds
      obtain ⟨rounds, rfl⟩ := Nat.exists_eq_succ_of_ne_zero (Nat.ne_zero_of_lt hrounds)
      refine .pos (by decide) (.kind h ((Ends.advance h).bind fun _ parser h => ?_))
      have hflat : (Ty.pointer target false).Flat := htype
      exact (Ends.build (Build.composes_const hflat) h.2).bind fun _ parser h =>
        hnext _ _ h (Nat.lt_of_succ_lt_succ hrounds)

/-- A type is over in front of any other token. -/
theorem ends_typeSuffix (htype : type.Flat) (hstar : next.kind ≠ .star) (hconst : next.kind ≠ .const)
    (h : origin.Ahead (type.suffixes ++ next :: words) (type.root.written false :: trees) start) :
    Ends (typeSuffix .default) start fun _ parser =>
      origin.Ahead (next :: words) (type.written false :: trees) parser := by
  refine .patience h (ends_typeSuffixes htype h (Nat.lt_succ_self _) fun parser rounds h hrounds => ?_)
  obtain ⟨rounds, rfl⟩ := Nat.exists_eq_succ_of_ne_zero (Nat.ne_zero_of_lt hrounds)
  refine .pos (by decide) (.kind h ?_)
  split
  · exact absurd ‹_› hstar
  · exact absurd ‹_› hconst
  · exact .pure h

theorem ends_baseType (name : BaseTy) (h : origin.Ahead (name.token.word :: words) trees start) :
    Ends baseType start fun found parser => found = name ∧ origin.Ahead words trees parser := by
  refine .kind h ?_
  cases name with
  | _ => exact (Ends.advance h).bind fun _ _ h => .pure ⟨rfl, h.2⟩

theorem ends_plainType (name : BaseTy) (h : origin.Ahead (name.token.word :: words) trees start) :
    Ends plainType start fun _ parser =>
      origin.Ahead words ((Ty.base name false).written false :: trees) parser := by
  refine .line fun _ => (ends_baseType name h).bind fun _ parser h => ?_
  rw [h.1]
  exact .build (Build.composes_base name) h.2

/-- A type is read from the words that are printed for it. -/
theorem ends_typeName (htype : type.Flat) (hstar : next.kind ≠ .star) (hconst : next.kind ≠ .const)
    (h : origin.Ahead (type.words ++ next :: words) trees start) :
    Ends (typeName .default) start fun _ parser =>
      origin.Ahead (next :: words) (type.written false :: trees) parser := by
  rw [Ty.words_eq, List.append_assoc] at h
  have hsuffix : ∀ parser, origin.Ahead (type.suffixes ++ next :: words)
      (type.root.written false :: trees) parser → Ends (typeSuffix .default) parser fun _ parser =>
        origin.Ahead (next :: words) (type.written false :: trees) parser := fun _ h =>
    ends_typeSuffix htype hstar hconst h
  cases hstem : type.stem with
  | mk name constant =>
    simp only [Ty.root, hstem] at h hsuffix
    cases constant with
    | false =>
      refine .kind h ?_
      cases name with
      | _ => exact (ends_plainType _ h).bind fun _ parser h => hsuffix parser h
    | true =>
      refine .kind h ((Ends.advance h).bind fun _ parser h => ?_)
      refine (ends_plainType name h.2).bind fun _ parser h => ?_
      have hflat : (Ty.base name false).Flat := trivial
      exact (Ends.build (Build.composes_const hflat) h).bind fun _ parser h => hsuffix parser h

end Grammar

end MiniC
