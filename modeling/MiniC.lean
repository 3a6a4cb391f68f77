import MiniC.CommandLine
import MiniC.Compile
import MiniC.Diagnostic
import MiniC.Diagnostic.Report
import MiniC.Emit.Expression
import MiniC.Emit.Layout
import MiniC.Emit.Program
import MiniC.Emit.Statement
import MiniC.Grammar.Expression
import MiniC.Grammar.File
import MiniC.Grammar.Parser
import MiniC.Grammar.Power
import MiniC.Grammar.Statement
import MiniC.Grammar.TypeName
import MiniC.Literal
import MiniC.Machine.Instr
import MiniC.Machine.Line
import MiniC.Machine.Operand
import MiniC.Machine.Routine
import MiniC.Machine.Routine.Number
import MiniC.Machine.Routine.Text
import MiniC.Main
import MiniC.Operator
import MiniC.Proofs.Alike.Build
import MiniC.Proofs.Alike.Compile
import MiniC.Proofs.Alike.Emit
import MiniC.Proofs.Alike.Forest
import MiniC.Proofs.Alike.Grammar
import MiniC.Proofs.Alike.Layout
import MiniC.Proofs.Alike.Program
import MiniC.Proofs.Alike.Relation
import MiniC.Proofs.Alike.Resolve
import MiniC.Proofs.Alike.Statement
import MiniC.Proofs.Alike.Table
import MiniC.Proofs.Alike.Tracks
import MiniC.Proofs.Build.Adopt
import MiniC.Proofs.Build.Frame
import MiniC.Proofs.Build.Grown
import MiniC.Proofs.Build.Orderly
import MiniC.Proofs.Build.Steps
import MiniC.Proofs.Build.Texts
import MiniC.Proofs.Build.Trees
import MiniC.Proofs.BuiltForest
import MiniC.Proofs.CommonType
import MiniC.Proofs.Compile
import MiniC.Proofs.ConstantIndex
import MiniC.Proofs.ControlFlow
import MiniC.Proofs.DecimalRoutines
import MiniC.Proofs.Diagnostics
import MiniC.Proofs.Emit.Access
import MiniC.Proofs.Emit.Coded
import MiniC.Proofs.Emit.Contained
import MiniC.Proofs.Emit.Expression
import MiniC.Proofs.Emit.Heights
import MiniC.Proofs.Emit.Lowered
import MiniC.Proofs.Emit.Program
import MiniC.Proofs.Emit.Statement
import MiniC.Proofs.Emit.Steps
import MiniC.Proofs.Emit.Tags
import MiniC.Proofs.Emit.Targets
import MiniC.Proofs.Emit.VoidCalls
import MiniC.Proofs.Ensures
import MiniC.Proofs.FaithfulExpressions
import MiniC.Proofs.Flow.Graph
import MiniC.Proofs.Flow.Meaning
import MiniC.Proofs.Flow.Simulation
import MiniC.Proofs.FrameLayout
import MiniC.Proofs.Grammar.Expression
import MiniC.Proofs.Grammar.Loop
import MiniC.Proofs.Grammar.Operands
import MiniC.Proofs.Grammar.Progress
import MiniC.Proofs.Grammar.Statement
import MiniC.Proofs.Grammar.Texts
import MiniC.Proofs.Labels
import MiniC.Proofs.Layout.Depth
import MiniC.Proofs.Layout.Frames
import MiniC.Proofs.Layout.Place
import MiniC.Proofs.Layout.Pool
import MiniC.Proofs.Layout.Tiling
import MiniC.Proofs.Layout.Variables
import MiniC.Proofs.Lexemes
import MiniC.Proofs.LexicalScope
import MiniC.Proofs.LocalCoercion
import MiniC.Proofs.LongestMatch
import MiniC.Proofs.Machine.Character
import MiniC.Proofs.Machine.Heights
import MiniC.Proofs.Machine.Library
import MiniC.Proofs.Machine.Line
import MiniC.Proofs.Machine.Tags
import MiniC.Proofs.ManualCasts
import MiniC.Proofs.MissingReturn
import MiniC.Proofs.NearestLoop
import MiniC.Proofs.OpenComment
import MiniC.Proofs.OperandStack
import MiniC.Proofs.ParserProgress
import MiniC.Proofs.Phrase.Declaration
import MiniC.Proofs.Phrase.Expression
import MiniC.Proofs.Phrase.Operand
import MiniC.Proofs.Phrase.Print
import MiniC.Proofs.Phrase.Read
import MiniC.Proofs.Phrase.Statement
import MiniC.Proofs.Precedence
import MiniC.Proofs.ProgramText
import MiniC.Proofs.Prototypes
import MiniC.Proofs.Renaming
import MiniC.Proofs.Resolve.Advance
import MiniC.Proofs.Resolve.Binding
import MiniC.Proofs.Resolve.Consistent
import MiniC.Proofs.Resolve.Consults
import MiniC.Proofs.Resolve.Control
import MiniC.Proofs.Resolve.Convert
import MiniC.Proofs.Resolve.Declare
import MiniC.Proofs.Resolve.Expression
import MiniC.Proofs.Resolve.Function
import MiniC.Proofs.Resolve.Leads
import MiniC.Proofs.Resolve.Lexical
import MiniC.Proofs.Resolve.Moment
import MiniC.Proofs.Resolve.Names
import MiniC.Proofs.Resolve.Operators
import MiniC.Proofs.Resolve.Passes
import MiniC.Proofs.Resolve.Program
import MiniC.Proofs.Resolve.Progress
import MiniC.Proofs.Resolve.Refused
import MiniC.Proofs.Resolve.Rules
import MiniC.Proofs.Resolve.Signature
import MiniC.Proofs.Resolve.Sound
import MiniC.Proofs.Resolve.Stray
import MiniC.Proofs.Resolve.Variable
import MiniC.Proofs.RoundTrip
import MiniC.Proofs.RoutineClosure
import MiniC.Proofs.Run.Call
import MiniC.Proofs.Run.Decimal
import MiniC.Proofs.Run.Digits
import MiniC.Proofs.Run.Machine
import MiniC.Proofs.Run.Scene
import MiniC.Proofs.Run.Strings
import MiniC.Proofs.Run.Text
import MiniC.Proofs.ScopeStack
import MiniC.Proofs.Spelling
import MiniC.Proofs.Splicing
import MiniC.Proofs.StackBalance
import MiniC.Proofs.StaticDepth
import MiniC.Proofs.StoppingToken
import MiniC.Proofs.StringPool
import MiniC.Proofs.StringRoutines
import MiniC.Proofs.SymbolTable
import MiniC.Proofs.Tags
import MiniC.Proofs.Text.Lines
import MiniC.Proofs.Token.First
import MiniC.Proofs.Token.Lexeme
import MiniC.Proofs.Token.Literal
import MiniC.Proofs.Token.Scan
import MiniC.Proofs.Tree.Casts
import MiniC.Proofs.Tree.Constant
import MiniC.Proofs.Tree.Contract
import MiniC.Proofs.Tree.Growth
import MiniC.Proofs.Tree.Ladder
import MiniC.Proofs.Tree.Links
import MiniC.Proofs.Tree.Literals
import MiniC.Proofs.Tree.Loops
import MiniC.Proofs.Tree.Outgrown
import MiniC.Proofs.Tree.Promotion
import MiniC.Proofs.Tree.Rose
import MiniC.Proofs.Tree.Scopes
import MiniC.Proofs.Tree.Shape
import MiniC.Proofs.Tree.Splice
import MiniC.Proofs.Tree.Walk
import MiniC.Proofs.Tree.Written
import MiniC.Proofs.Ty.Common
import MiniC.Proofs.Value.Faithful
import MiniC.Proofs.Value.Frames
import MiniC.Proofs.Value.Machine
import MiniC.Proofs.Value.Reference
import MiniC.Proofs.Value.Simulation
import MiniC.Proofs.WellTyped
import MiniC.Resolve.Expression
import MiniC.Resolve.Program
import MiniC.Resolve.Resolution
import MiniC.Resolve.Statement
import MiniC.Returns
import MiniC.Scope
import MiniC.Session
import MiniC.Text.Blank
import MiniC.Text.Lines
import MiniC.Text.Quoted
import MiniC.Token
import MiniC.Token.Cursor
import MiniC.Token.Escape
import MiniC.Token.Handler
import MiniC.Token.Pattern
import MiniC.Token.Scan
import MiniC.Tree.Build
import MiniC.Tree.Coerce
import MiniC.Tree.Forest
import MiniC.Tree.Listing
import MiniC.Tree.Node
import MiniC.Tree.Structure
import MiniC.Ty
import MiniC.Ty.Conversion
