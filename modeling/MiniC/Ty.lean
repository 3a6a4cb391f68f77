import MiniC.Machine.Operand

/-!
# Types

A type is a base type, a pointer or an array, each of which may be constant. Two types are the same
(`Ty.same`) if they differ in constness only, at any depth; `Ty.plain` drops all of it.
-/

namespace MiniC

/-- The types without parts. -/
inductive BaseTy
  | void | char | int
  deriving DecidableEq, Repr, Inhabited

/-- The name of a base type. -/
def BaseTy.text : BaseTy → String
  | void => "void"
  | char => "char"
  | int => "int"

/-- The types of the language. -/
inductive Ty
  | base (name : BaseTy) (constant : Bool)
  | pointer (target : Ty) (constant : Bool)
  | array (element : Ty) (size : Nat) (constant : Bool)
  deriving DecidableEq, Repr, Inhabited

/-- A coarse classification of types. -/
inductive TyClass
  | void | char | int | pointer | array
  deriving DecidableEq, Repr, Inhabited

/-- The name of a class. -/
def TyClass.name : TyClass → String
  | void => "Void"
  | char => "Char"
  | int => "Int"
  | pointer => "Pointer"
  | array => "Array"

namespace Ty

/-- The type `void`. -/
abbrev void : Ty := base .void false
/-- The type `char`. -/
abbrev char : Ty := base .char false
/-- The type `int`. -/
abbrev int : Ty := base .int false
/-- A pointer that may change. -/
abbrev pointerTo (target : Ty) : Ty := pointer target false

/-- Whether the type itself is constant. -/
def isConst : Ty → Bool
  | base _ constant | pointer _ constant | array _ _ constant => constant

/-- The type with its own constness replaced. -/
def withConst (type : Ty) (constant : Bool) : Ty :=
  match type with
  | base name _ => base name constant
  | pointer target _ => pointer target constant
  | array element size _ => array element size constant

/-- The type with nothing constant in it. -/
def plain : Ty → Ty
  | base name _ => base name false
  | pointer target _ => pointer target.plain false
  | array element size _ => array element.plain size false

/-- Two types that differ in constness only. -/
def same (a b : Ty) : Bool := a.plain == b.plain

/-- The class of a type. -/
def kind : Ty → TyClass
  | base .void _ => .void
  | base .char _ => .char
  | base .int _ => .int
  | pointer .. => .pointer
  | array .. => .array

/-- The type without values. -/
def isVoid (type : Ty) : Bool := type.kind == .void

/-- Integers and characters. -/
def isIntegral (type : Ty) : Bool := type.kind == .int || type.kind == .char

/-- Pointers. -/
def isPointer (type : Ty) : Bool := type.kind == .pointer

/-- Arrays. -/
def isArray (type : Ty) : Bool := type.kind == .array

/-- Types of one cell: integers, characters and pointers. -/
def isScalar (type : Ty) : Bool := type.isIntegral || type.isPointer

/-- What a pointer points at. -/
def pointee? : Ty → Option Ty
  | pointer target _ => some target
  | _ => none

/-- The type of the elements of an array. -/
def element? : Ty → Option Ty
  | array element _ _ => some element
  | _ => none

/-- The number of elements of an array. -/
def arraySize? : Ty → Option Nat
  | array _ size _ => some size
  | _ => none

/-- The type of a value: that of an array is a pointer to its first element. -/
def decay : Ty → Ty
  | array element _ _ => pointerTo element
  | type => type

/-- How many cells a variable of the type takes. -/
def slots : Ty → Nat
  | array element size _ => element.slots * size
  | _ => 1

/-- The tag of a cell of the type. -/
def tag? : Ty → Option Machine.Tag
  | base .int _ => some .int
  | base .char _ => some .char
  | pointer .. => some .address
  | base .void _ | array .. => none

/-- The text of a type. -/
def text (type : Ty) : String :=
  (if type.isConst then "const " else "") ++
    match type with
    | base name _ => name.text
    | pointer target _ => target.text ++ "*"
    | array element size _ => element.text ++ "[" ++ toString size ++ "]"

@[simp] theorem same_refl (a : Ty) : a.same a := by simp [same]

theorem same_comm (a b : Ty) : a.same b = b.same a := by
  apply Bool.eq_iff_iff.2
  simp only [same, beq_iff_eq]
  exact eq_comm

theorem same_trans {a b c : Ty} (hab : a.same b) (hbc : b.same c) : a.same c := by
  simp only [same, beq_iff_eq] at *
  exact hab.trans hbc

@[simp] theorem plain_withConst (type : Ty) (constant : Bool) :
    (type.withConst constant).plain = type.plain := by cases type <;> rfl

/-- Constness does not count in comparisons. -/
@[simp] theorem withConst_same (type : Ty) (constant : Bool) :
    (type.withConst constant).same type := by simp [same]

theorem kind_plain (type : Ty) : type.plain.kind = type.kind := by
  cases type with
  | base name _ => cases name <;> rfl
  | pointer | array => rfl

/-- Types that are the same have one class. -/
theorem kind_eq_of_same {a b : Ty} (h : a.same b) : a.kind = b.kind := by
  rw [← kind_plain a, ← kind_plain b, show a.plain = b.plain by simpa [same] using h]

/-- Constness takes no room. -/
theorem slots_plain (type : Ty) : type.plain.slots = type.slots := by
  induction type with
  | base | pointer => rfl
  | array element size constant ih => simp [plain, slots, ih]

end Ty

end MiniC
