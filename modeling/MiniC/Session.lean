import MiniC.Diagnostic
import MiniC.Machine.Operand

/-!
# Sessions

What the steps of one compilation share: how many label numbers have been drawn, and the warnings
in the order in which they were found. A number is drawn at most once in a session.
-/

namespace MiniC

/-- The label numbers and warnings of one compilation. -/
structure Session where
  drawn : Nat := 0
  warnings : List Warning := []
  deriving Repr, Inhabited

namespace Session

/-- Draws a jump target. -/
def jumpLabel (session : Session) : Machine.Label × Session :=
  (.jump session.drawn, { session with drawn := session.drawn + 1 })

/-- Draws the label of a function of the program. -/
def functionLabel (session : Session) (name : String) : Machine.Label × Session :=
  (.function name session.drawn, { session with drawn := session.drawn + 1 })

/-- Adds a warning after the others. -/
def warn (session : Session) (concern : Concern) (line : Nat) : Session :=
  { session with warnings := session.warnings ++ [⟨concern, line⟩] }

@[simp] theorem drawn_jumpLabel (session : Session) :
    session.jumpLabel.2.drawn = session.drawn + 1 := rfl

@[simp] theorem drawn_functionLabel (session : Session) (name : String) :
    (session.functionLabel name).2.drawn = session.drawn + 1 := rfl

@[simp] theorem drawn_warn (session : Session) (concern : Concern) (line : Nat) :
    (session.warn concern line).drawn = session.drawn := rfl

@[simp] theorem warnings_warn (session : Session) (concern : Concern) (line : Nat) :
    (session.warn concern line).warnings = session.warnings ++ [⟨concern, line⟩] := rfl

end Session

end MiniC
