import MiniC.Text.Quoted

/-!
# Diagnostics

A `Fault` ends a compilation: a cause and the line that it is about. A `Warning` is collected and
ends nothing. Each cause has one name, one message and at most one piece of advice.
-/

namespace MiniC

/-- Why a program is refused. Types and values stand in their textual form. -/
inductive Cause
  | unrecognisedToken (token : String)
  | unexpectedToken (token : String)
  | unexpectedTokenDetailed (token message : String)
  | numberParseError (token : String)
  | malformedTree (message : String)
  | symbolAlreadyDeclared (name : String) (previousLine : Nat)
  | symbolNotDeclared (name : String)
  | notAFunction (name : String)
  | notAVariable (name : String)
  | argumentCountMismatch (function : String) (expected received : Nat) (variadic : Bool)
  | signatureMismatch (name : String)
  | functionNotDefined (name : String)
  | noConversion (source target : String)
  | noCommonType (operator left right : String)
  | invalidOperand (operator operand : String)
  | assignToConstant (name : String)
  | assignToArray
  | notAssignable
  | dereferenceNonPointer (type : String)
  | notAnArray (name : String)
  | indexNotInteger (type : String)
  | indexOutOfRange (index : Int) (size : Nat)
  | scalarArrayInitializer (name : String)
  | listInitializerForScalar (name : String)
  | invalidArraySize (name : String)
  | initializerTooLong (name : String) (size : Nat)
  | voidVariable (name : String)
  | returnOutsideFunction
  | returnValueInVoidFunction (function : String)
  | missingReturnValue (function : String)
  | jumpOutsideLoop (statement : String)
  | missingMain
  | invalidMain (reason : String)
  deriving DecidableEq, Repr, Inhabited

namespace Cause

/-- The name of a cause, as a report shows it. -/
def name : Cause → String
  | unrecognisedToken .. => "UnrecognisedToken"
  | unexpectedToken .. => "UnexpectedToken"
  | unexpectedTokenDetailed .. => "UnexpectedTokenDetailed"
  | numberParseError .. => "NumberParseError"
  | malformedTree .. => "MalformedTree"
  | symbolAlreadyDeclared .. => "SymbolAlreadyDeclared"
  | symbolNotDeclared .. => "SymbolNotDeclared"
  | notAFunction .. => "NotAFunction"
  | notAVariable .. => "NotAVariable"
  | argumentCountMismatch .. => "ArgumentCountMismatch"
  | signatureMismatch .. => "SignatureMismatch"
  | functionNotDefined .. => "FunctionNotDefined"
  | noConversion .. => "NoConversion"
  | noCommonType .. => "NoCommonType"
  | invalidOperand .. => "InvalidOperand"
  | assignToConstant .. => "AssignToConstant"
  | assignToArray => "AssignToArray"
  | notAssignable => "NotAssignable"
  | dereferenceNonPointer .. => "DereferenceNonPointer"
  | notAnArray .. => "NotAnArray"
  | indexNotInteger .. => "IndexNotInteger"
  | indexOutOfRange .. => "IndexOutOfRange"
  | scalarArrayInitializer .. => "ScalarArrayInitializer"
  | listInitializerForScalar .. => "ListInitializerForScalar"
  | invalidArraySize .. => "InvalidArraySize"
  | initializerTooLong .. => "InitializerTooLong"
  | voidVariable .. => "VoidVariable"
  | returnOutsideFunction => "ReturnOutsideFunction"
  | returnValueInVoidFunction .. => "ReturnValueInVoidFunction"
  | missingReturnValue .. => "MissingReturnValue"
  | jumpOutsideLoop .. => "JumpOutsideLoop"
  | missingMain => "MissingMain"
  | invalidMain .. => "InvalidMain"

/-- What a cause says, without its line. -/
def message : Cause → String
  | unrecognisedToken token => "unrecognised token: " ++ Text.quoteString token
  | unexpectedToken token => "unexpected token: " ++ Text.quoteString token
  | unexpectedTokenDetailed token message =>
    "unexpected token (" ++ message ++ "): " ++ Text.quoteString token
  | numberParseError token => "error parsing number: " ++ Text.quoteString token
  | malformedTree message => "malformed tree: " ++ message
  | symbolAlreadyDeclared name previousLine =>
    s!"Symbol '{name}' previously declared (on line {previousLine})"
  | symbolNotDeclared name => s!"Use of '{name}' before declaration"
  | notAFunction name => s!"'{name}' is not a function"
  | notAVariable name => s!"Function '{name}' used as a value"
  | argumentCountMismatch function expected received _ =>
    s!"Wrong number of arguments for '{function}': expected {expected}, received {received}"
  | signatureMismatch name => s!"Conflicting signatures for function '{name}'"
  | functionNotDefined name => s!"Function '{name}' is declared but never defined"
  | noConversion source target => s!"No conversion from '{source}' to '{target}'"
  | noCommonType operator left right =>
    s!"Operator '{operator}' has no common type for '{left}' and '{right}'"
  | invalidOperand operator operand =>
    s!"Invalid operand of type '{operand}' for operator '{operator}'"
  | assignToConstant name => s!"Assignment to const-qualified '{name}'"
  | assignToArray => "Assignment to an array"
  | notAssignable => "Left side of the assignment is not assignable"
  | dereferenceNonPointer type => s!"Dereferencing non-pointer type '{type}'"
  | notAnArray name => s!"Subscripted value '{name}' is not an array"
  | indexNotInteger type => s!"Array index has non-integer type '{type}'"
  | indexOutOfRange index size => s!"Array index {index} out of range for array of size {size}"
  | scalarArrayInitializer name => s!"Array '{name}' needs an initializer list"
  | listInitializerForScalar name => s!"Scalar '{name}' cannot take an initializer list"
  | invalidArraySize name => s!"Array '{name}' needs a positive size"
  | initializerTooLong name size => s!"Too many initializers for array '{name}' of size {size}"
  | voidVariable name => s!"Variable '{name}' declared void"
  | returnOutsideFunction => "Return statement outside of a function"
  | returnValueInVoidFunction function => s!"Returning a value from void function '{function}'"
  | missingReturnValue function => s!"Non-void function '{function}' should return a value"
  | jumpOutsideLoop statement => s!"'{statement}' statement not within a loop"
  | missingMain => "No 'main' function found"
  | invalidMain reason => s!"Invalid 'main' function: {reason}"

/-- Advice that goes with a cause. -/
def tip? : Cause → Option String
  | unexpectedToken token => some s!"Unexpected token: `{token}`, did you miss a semicolon?"
  | unexpectedTokenDetailed token message => some s!"Unexpected token: `{token}`, {message}"
  | numberParseError token => some s!"Invalid number: `{token}`, is it above the integer limit?"
  | symbolAlreadyDeclared name _ => some s!"Rename one of the declarations of `{name}`"
  | symbolNotDeclared name => some s!"Declare `{name}` before using it"
  | notAFunction name => some s!"`{name}` is a variable and cannot be called"
  | notAVariable name => some s!"`{name}` is a function, call it with `{name}(...)`"
  | argumentCountMismatch _ expected received variadic =>
    let bound := if variadic then "at least " else ""
    some s!"Expected {bound}{expected} arguments, received {received}"
  | signatureMismatch name =>
    some s!"Make the declaration and the definition of `{name}` agree"
  | functionNotDefined name => some s!"Provide a body for `{name}`"
  | noConversion source target => some s!"Values of type `{source}` cannot become `{target}`"
  | noCommonType _ left right => some s!"Cast `{left}` or `{right}` explicitly"
  | assignToConstant name => some s!"`{name}` is declared const"
  | indexOutOfRange _ size => some s!"Valid indices are 0 to {size - 1}"
  | missingMain | invalidMain _ => some "Declare the entry point as `void main()`"
  | _ => none

end Cause

/-- A cause and the line that it is about. -/
structure Fault where
  cause : Cause
  line : Nat
  deriving DecidableEq, Repr, Inhabited

/-- The fault of a tree whose parts do not fit together. -/
def Fault.malformed (message : String) (line : Nat) : Fault := ⟨.malformedTree message, line⟩

/-- The message of a fault, after its line. -/
def Fault.message (fault : Fault) : String :=
  toString fault.line ++ ": " ++ fault.cause.message

/-- What a warning is about. -/
inductive Concern
  /-- A function that answers a value can reach the end of its body. -/
  | missingReturn (function : String)
  /-- A value of a type without an operand tag is treated as an integer. -/
  | unmappedType (type : String)
  deriving DecidableEq, Repr, Inhabited

/-- What a concern says, without its line. -/
def Concern.message : Concern → String
  | .missingReturn function =>
    s!"Control may reach end of non-void function '{function}' without return"
  | .unmappedType type => s!"Type '{type}' has no instruction operand tag"

/-- A concern and the line that it is about. -/
structure Warning where
  concern : Concern
  line : Nat
  deriving DecidableEq, Repr, Inhabited

/-- The message of a warning, after its line. -/
def Warning.message (warning : Warning) : String :=
  toString warning.line ++ ": " ++ warning.concern.message

end MiniC
