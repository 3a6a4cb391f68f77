import MiniC.Machine.Instr

/-!
# Text routines

Code of the library routines that read and write, and of those for strings. A string ends in the
character with code zero. Parameters start at slot 5, and a result goes into slot 0. A routine numbers
its jump targets from zero, in the order in which they are first mentioned.
-/

namespace MiniC.Machine.Routine

/-! ## Reading and writing -/

/-- Writes the string at the address in slot 5. -/
def printCode : Code := [
  .ssp 6,
  .label (.jump 0), .lod .address 0 5, .ind .char, .ldc (.char '\x00'), .compare .notEqual .char,
  .fjp (.jump 1), .lod .address 0 5, .ind .char, .write .char, .lod .address 0 5, .inc .address 1,
  .str .address 0 5, .ujp (.jump 0),
  .label (.jump 1), .retp]

/-- Writes the format in slot 6, in which `%d`, `%c` and `%s` stand for the next argument; any other
character after `%` is written as it is. Slot 5 comes with the number of arguments and then moves
over them; slot 0 holds whether the last character was a `%`. -/
def printfCode : Code := [
  .lda 0 7, .str .address 0 5, .ldc (.bool false), .str .bool 0 0,
  .label (.jump 0), .lod .address 0 6, .ind .char, .ldc (.char '\x00'), .compare .notEqual .char,
  .fjp (.jump 1), .lod .bool 0 0, .fjp (.jump 2), .ldc (.bool false), .str .bool 0 0,
  .lod .address 0 6, .ind .char, .ldc (.char 'd'), .compare .equal .char, .fjp (.jump 3),
  .lod .address 0 5, .ind .int, .write .int, .ujp (.jump 4),
  .label (.jump 3), .lod .address 0 6, .ind .char, .ldc (.char 'c'), .compare .equal .char,
  .fjp (.jump 5), .lod .address 0 5, .ind .char, .write .char, .ujp (.jump 4),
  .label (.jump 5), .lod .address 0 6, .ind .char, .ldc (.char 's'), .compare .equal .char,
  .fjp (.jump 6), .mst 1, .lod .address 0 5, .ind .address, .cup 1 (.named "print"),
  .ujp (.jump 4),
  .label (.jump 6), .lod .address 0 6, .ind .char, .write .char, .ujp (.jump 7),
  .label (.jump 4), .lod .address 0 5, .inc .address 1, .str .address 0 5, .ujp (.jump 7),
  .label (.jump 2), .lod .address 0 6, .ind .char, .ldc (.char '%'), .compare .equal .char,
  .fjp (.jump 8), .ldc (.bool true), .str .bool 0 0, .ujp (.jump 7),
  .label (.jump 8), .lod .address 0 6, .ind .char, .write .char,
  .label (.jump 7), .lod .address 0 6, .inc .address 1, .str .address 0 6, .ujp (.jump 0),
  .label (.jump 1), .retp]

/-- Reads as many characters as slot 6 says into the buffer at slot 5, and closes it. -/
def readstrCode : Code := [
  .ssp 7,
  .label (.jump 0), .lod .int 0 6, .conv .int .bool, .fjp (.jump 1), .lod .address 0 5,
  .read .char, .sto .char, .lod .address 0 5, .inc .address 1, .str .address 0 5, .lod .int 0 6,
  .dec .int 1, .str .int 0 6, .ujp (.jump 0),
  .label (.jump 1), .lod .address 0 5, .ldc (.char '\x00'), .sto .char, .retp]

/-- Reads what the format in slot 6 asks for: `%d`, `%c`, and `%` with a length for a string. Slots
5 and 0 serve as in `printf`. -/
def scanfCode : Code := [
  .lda 0 7, .str .address 0 5, .ldc (.bool false), .str .bool 0 0,
  .label (.jump 0), .lod .address 0 6, .ind .char, .ldc (.char '\x00'), .compare .notEqual .char,
  .fjp (.jump 1), .lod .bool 0 0, .fjp (.jump 2), .ldc (.bool false), .str .bool 0 0,
  .lod .address 0 6, .ind .char, .ldc (.char 'd'), .compare .equal .char, .fjp (.jump 3),
  .lod .address 0 5, .ind .address, .read .int, .sto .int, .ujp (.jump 4),
  .label (.jump 3), .lod .address 0 6, .ind .char, .ldc (.char 'c'), .compare .equal .char,
  .fjp (.jump 5), .lod .address 0 5, .ind .address, .read .char, .sto .char, .ujp (.jump 4),
  .label (.jump 5), .mst 1, .lod .address 0 6, .ind .char, .cup 1 (.named "isdigit"),
  .conv .int .bool, .fjp (.jump 6), .mst 1, .lod .address 0 5, .ind .address, .mst 1, .lda 0 6,
  .cup 1 (.named "parseint"), .cup 2 (.named "readstr"),
  .label (.jump 4), .lod .address 0 5, .inc .address 1, .str .address 0 5, .ujp (.jump 6),
  .label (.jump 2), .lod .address 0 6, .ind .char, .ldc (.char '%'), .compare .equal .char,
  .fjp (.jump 6), .ldc (.bool true), .str .bool 0 0,
  .label (.jump 6), .lod .address 0 6, .inc .address 1, .str .address 0 6, .ujp (.jump 0),
  .label (.jump 1), .retp]

/-! ## Strings -/

/-- The number of characters in the string at slot 5. -/
def strlenCode : Code := [
  .ssp 7, .ldc (.int 0), .str .int 0 6,
  .label (.jump 0), .lod .address 0 5, .ind .char, .ldc (.char '\x00'), .compare .notEqual .char,
  .fjp (.jump 1), .lod .address 0 5, .inc .address 1, .str .address 0 5, .lod .int 0 6,
  .inc .int 1, .str .int 0 6, .ujp (.jump 0),
  .label (.jump 1), .lod .int 0 6, .str .int 0 0, .retf]

/-- 1 if the strings at slots 5 and 6 are equal, otherwise 0. -/
def strcmpCode : Code := [
  .ssp 7,
  .label (.jump 0), .lod .address 0 5, .ind .char, .lod .address 0 6, .ind .char,
  .compare .equal .char, .fjp (.jump 1), .lod .address 0 5, .ind .char, .ldc (.char '\x00'),
  .compare .equal .char, .fjp (.jump 2), .ldc (.int 1), .str .int 0 0, .retf,
  .label (.jump 2), .lod .address 0 5, .inc .address 1, .str .address 0 5, .lod .address 0 6,
  .inc .address 1, .str .address 0 6, .ujp (.jump 0),
  .label (.jump 1), .ldc (.int 0), .str .int 0 0, .retf]

/-- Reverses the string at slot 5 in place. -/
def strrevCode : Code := [
  .ssp 8, .lod .address 0 5, .str .address 0 6,
  .label (.jump 0), .lod .address 0 6, .ind .char, .ldc (.char '\x00'), .compare .notEqual .char,
  .fjp (.jump 1), .lod .address 0 6, .inc .address 1, .str .address 0 6, .ujp (.jump 0),
  .label (.jump 1), .lod .address 0 6, .dec .address 1, .str .address 0 6,
  .label (.jump 2), .lod .address 0 5, .lod .address 0 6, .compare .less .address, .fjp (.jump 3),
  .lod .address 0 5, .ind .char, .str .char 0 7, .lod .address 0 5, .lod .address 0 6, .ind .char,
  .sto .char, .lod .address 0 6, .lod .char 0 7, .sto .char, .lod .address 0 5, .inc .address 1,
  .str .address 0 5, .lod .address 0 6, .dec .address 1, .str .address 0 6, .ujp (.jump 2),
  .label (.jump 3), .retp]

end MiniC.Machine.Routine
