import MiniC.Machine.Instr

/-!
# Number routines

Code of the library routines for digits and integers.
Parameters start at slot 5, and a result goes into slot 0. A routine numbers its jump targets from
zero, in the order in which they are first mentioned.
-/

namespace MiniC.Machine.Routine

/-- Whether the character in slot 5 is a decimal digit. -/
def isdigitCode : Code := [
  .ssp 6, .lod .char 0 5, .ldc (.char '0'), .compare .greaterEqual .char, .lod .char 0 5,
  .ldc (.char '9'), .compare .lessEqual .char, .logic .and, .fjp (.jump 0), .ldc (.int 1),
  .str .int 0 0, .retf,
  .label (.jump 0), .ldc (.int 0), .str .int 0 0, .retf]

/-- The value of the decimal digit in slot 5. -/
def chartointCode : Code := [
  .ssp 6, .lod .char 0 5, .conv .char .int, .ldc (.int 48), .arith .sub .int, .str .int 0 0, .retf]

/-- The base in slot 5 to the exponent in slot 6, which is not negative. -/
def powCode : Code := [
  .ssp 9, .ldc (.int 1), .str .int 0 7, .ldc (.int 0), .str .int 0 8,
  .label (.jump 0), .lod .int 0 8, .lod .int 0 6, .compare .less .int, .fjp (.jump 1),
  .lod .int 0 7, .lod .int 0 5, .arith .mul .int, .str .int 0 7, .lod .int 0 8, .inc .int 1,
  .str .int 0 8, .ujp (.jump 0),
  .label (.jump 1), .lod .int 0 7, .str .int 0 0, .retf]

/-- The number whose digits start where the pointer at the address in slot 5 points. The pointer is
left after the digits. -/
def parseintCode : Code := [
  .ssp 10, .ldc (.int 0), .str .int 0 6, .ldc (.int 0), .str .int 0 7, .lod .address 0 5,
  .ind .address, .str .address 0 8,
  .label (.jump 0), .mst 1, .lod .address 0 5, .ind .address, .ind .char,
  .cup 1 (.named "isdigit"), .conv .int .bool, .fjp (.jump 1), .lod .int 0 7, .inc .int 1,
  .str .int 0 7, .lod .address 0 5, .lod .address 0 5, .ind .address, .inc .address 1,
  .sto .address, .ujp (.jump 0),
  .label (.jump 1), .lod .address 0 5, .lod .address 0 8, .sto .address, .lod .int 0 7,
  .str .int 0 9,
  .label (.jump 2), .lod .int 0 9, .ldc (.int 0), .compare .greater .int, .fjp (.jump 3),
  .lod .int 0 6, .mst 1, .lod .address 0 5, .ind .address, .ind .char,
  .cup 1 (.named "chartoint"), .mst 1, .ldc (.int 10), .lod .int 0 9, .dec .int 1,
  .cup 2 (.named "pow"), .arith .mul .int, .arith .add .int, .str .int 0 6, .lod .address 0 5,
  .lod .address 0 5, .ind .address, .inc .address 1, .sto .address, .lod .int 0 9, .dec .int 1,
  .str .int 0 9, .ujp (.jump 2),
  .label (.jump 3), .lod .int 0 6, .str .int 0 0, .retf]

/-- The remainder of slot 5 by slot 6, as what the quotient leaves: `a - (a / b) * b`. -/
def modCode : Code := [
  .ssp 7, .lod .int 0 5, .lod .int 0 5, .lod .int 0 6, .arith .div .int, .lod .int 0 6,
  .arith .mul .int, .arith .sub .int, .str .int 0 0, .retf]

/-- Writes slot 5 in decimal to the buffer at slot 6: the last digit first, then all reversed. -/
def itoaCode : Code := [
  .ssp 9, .lod .address 0 6, .str .address 0 7, .ldc (.int 0), .str .int 0 8, .lod .int 0 5,
  .ldc (.int 0), .compare .less .int, .fjp (.jump 0), .ldc (.int 1), .str .int 0 8, .lod .int 0 5,
  .neg .int, .str .int 0 5,
  .label (.jump 0), .lod .address 0 7, .lod .int 0 5, .lod .int 0 5, .ldc (.int 10),
  .arith .div .int, .ldc (.int 10), .arith .mul .int, .arith .sub .int, .ldc (.int 48),
  .arith .add .int, .conv .int .char, .sto .char, .lod .address 0 7, .inc .address 1,
  .str .address 0 7, .lod .int 0 5, .ldc (.int 10), .arith .div .int, .str .int 0 5,
  .lod .int 0 5, .ldc (.int 0), .compare .greater .int, .fjp (.jump 1), .ujp (.jump 0),
  .label (.jump 1), .lod .int 0 8, .conv .int .bool, .fjp (.jump 2), .lod .address 0 7,
  .ldc (.char '-'), .sto .char, .lod .address 0 7, .inc .address 1, .str .address 0 7,
  .label (.jump 2), .lod .address 0 7, .ldc (.char '\x00'), .sto .char, .mst 1, .lod .address 0 6,
  .cup 1 (.named "strrev"), .retp]

/-- The number written at the address in slot 5: decimal digits after an optional minus sign. -/
def atoiCode : Code := [
  .ssp 8, .ldc (.int 0), .str .int 0 6, .ldc (.int 1), .str .int 0 7, .lod .address 0 5,
  .ind .char, .ldc (.char '-'), .compare .equal .char, .fjp (.jump 0), .ldc (.int (-1)),
  .str .int 0 7, .lod .address 0 5, .inc .address 1, .str .address 0 5,
  .label (.jump 0), .mst 1, .lod .address 0 5, .ind .char, .cup 1 (.named "isdigit"),
  .conv .int .bool, .fjp (.jump 1), .lod .int 0 6, .ldc (.int 10), .arith .mul .int,
  .lod .address 0 5, .ind .char, .conv .char .int, .ldc (.int 48), .arith .sub .int,
  .arith .add .int, .str .int 0 6, .lod .address 0 5, .inc .address 1, .str .address 0 5,
  .ujp (.jump 0),
  .label (.jump 1), .lod .int 0 6, .lod .int 0 7, .arith .mul .int, .str .int 0 0, .retf]

end MiniC.Machine.Routine
