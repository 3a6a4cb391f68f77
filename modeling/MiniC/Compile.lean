import MiniC.Emit.Program
import MiniC.Grammar.File
import MiniC.Resolve.Program
import MiniC.Returns

/-!
# Compiling a source text

The whole way from a source to its code: read it, resolve it, look for missing returns, lay out the
frames and make the code. The first fault ends it; warnings come with the code.
-/

namespace MiniC

/-- Resolves a program in a session and warns about missing returns. -/
def analyse (forest : Forest) (session : Session) : Except Fault Resolution := do
  let resolution ← Resolve.program forest session
  return { resolution with session := resolution.forest.warnReturns resolution.session }

/-- The code of a source text and the warnings that it draws. -/
structure Program where
  code : Machine.Code
  warnings : List Warning

/-- The text of a program, one instruction a line. -/
def Program.render (program : Program) : String := Machine.Code.render program.code

/-- Compiles a source text. -/
def compile (source : String) : Except Fault Program := do
  let forest ← Grammar.read source
  let resolution ← analyse forest {}
  let compiled ← Emit.compile resolution.forest resolution.table resolution.session
  return { code := compiled.code, warnings := compiled.session.warnings }

end MiniC
