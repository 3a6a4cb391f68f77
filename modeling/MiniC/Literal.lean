/-!
# Literals

Decimal numerals and the ranges that they have to lie in: an integer in 64 bits with a sign, the
size of an array in 64 bits without one. The least integer has no opposite.
-/

namespace MiniC.Literal

/-- The value of a decimal numeral. -/
def numeral (digits : String) : Nat :=
  digits.toList.foldl (fun value digit => 10 * value + (digit.toNat - '0'.toNat)) 0

/-- The least integer. -/
def least : Int := -9223372036854775808

/-- The greatest integer. -/
def greatest : Int := 9223372036854775807

/-- The value of an integer literal, if it is in range. -/
def value? (negative : Bool) (digits : String) : Option Int :=
  let value : Int := if negative then -(numeral digits) else numeral digits
  if least ≤ value ∧ value ≤ greatest then some value else none

/-- The size of an array, if it is in range. -/
def size? (digits : String) : Option Nat :=
  if numeral digits < 18446744073709551616 then some (numeral digits) else none

/-- The opposite of an integer, if it is in range. -/
def opposite? (value : Int) : Option Int :=
  if value = least then none else some (-value)

end MiniC.Literal
