import MiniC.Proofs.Emit.Lowered

/-!
# What control flow means

Conditions, expressions and initial values are opaque here: evaluating one is an event, and an oracle
answers each condition. `meaning` is what a statement does by its structure, with every loop granted
some number of rounds. `machine` is what the items of code do, for some number of steps. Two families
of runs are alike if each goes as far as the other.
-/

namespace MiniC.Flow

open Machine Emit

/-- What has happened, in order. -/
abbrev Trace := List Event

/-- Answers the condition that a trace ends with. -/
abbrev Oracle := Trace → Bool

/-- How a run ends. -/
inductive Ending
  /-- Control goes on behind the statement, or has come to the end of the function. -/
  | next
  /-- The loop around is left. -/
  | broke
  /-- The loop around goes on with its next round. -/
  | continued
  | returned
  /-- Not at all in the rounds or steps that were granted. -/
  | unfinished
  deriving DecidableEq

/-- What statements do: what has happened behind them, and how they end. -/
abbrev Run := Trace → Trace × Ending

/-- What a condition does, and its answer. -/
abbrev Test := Trace → Trace × Bool

namespace Run

/-- Does nothing but end. -/
def ends (ending : Ending) : Run := fun trace => (trace, ending)

/-- Does nothing. -/
abbrev skip : Run := ends .next

/-- Lets an event happen. -/
def does (event : Event) : Run := fun trace => (trace ++ [event], .next)

/-- One behind the other, unless the first one ends otherwise. -/
def andThen (first second : Run) : Run := fun trace =>
  match first trace with
  | (trace, .next) => second trace
  | other => other

/-- All in order. -/
def inOrder : List Run → Run
  | [] => skip
  | run :: runs => run.andThen (inOrder runs)

/-- One of two. -/
def choose (test : Test) (yes no : Run) : Run := fun trace =>
  match test trace with
  | (trace, true) => yes trace
  | (trace, false) => no trace

/-- What follows the body of a loop. -/
def afterBody (body again : Run) : Run := fun trace =>
  match body trace with
  | (trace, .next) | (trace, .continued) => again trace
  | (trace, .broke) => (trace, .next)
  | other => other

/-- A loop, for some rounds at most. -/
def rounds (test : Test) (body next : Run) : Nat → Run
  | 0 => ends .unfinished
  | limit + 1 => choose test (afterBody body (next.andThen (rounds test body next limit))) skip

end Run

/-- Asks the oracle. -/
def Test.asks (oracle : Oracle) (test : NodeId) : Test := fun trace =>
  (trace ++ [.condition test], oracle (trace ++ [.condition test]))

/-- A condition that is not there always holds. -/
def Test.always : Test := fun trace => (trace, true)

section Meaning

variable (forest : Forest) (oracle : Oracle) (limit : Nat)

/-- The condition of a loop with three clauses. -/
def guard (test : NodeId) : Test :=
  if forest.kind test = .nothing then .always else .asks oracle test

/-- What a statement that nests at most `levels` deep does, with `limit` rounds for every loop. -/
def meaningWithin : Nat → NodeId → Run
  | 0, _ => .ends .unfinished
  | levels + 1, id =>
    let inner := meaningWithin levels
    match forest.kind id with
    | .declaration .. =>
      if (forest.child? id 1).isSome then .does (.initializer id) else .skip
    | .block => .inOrder ((forest.children id).map inner)
    | .exprStatement =>
      match forest.children id with
      | [e] => .does (.discarded e)
      | _ => .skip
    | .ifElse _ =>
      match forest.children id with
      | [test, yes] => .choose (.asks oracle test) (inner yes) .skip
      | [test, yes, no] => .choose (.asks oracle test) (inner yes) (inner no)
      | _ => .skip
    | .whileLoop _ =>
      match forest.children id with
      | [test, body] => .rounds (.asks oracle test) (inner body) .skip limit
      | _ => .skip
    | .forLoop _ =>
      match forest.children id with
      | [start, test, next, body] =>
        (inner start).andThen (.rounds (guard forest oracle test) (inner body) (inner next) limit)
      | _ => .skip
    | .giveBack =>
      match forest.children id with
      | [value] => Run.andThen (.does (.result value)) (.ends .returned)
      | _ => .ends .returned
    | .breakOut _ => .ends .broke
    | .continueOn _ => .ends .continued
    | _ => .skip

/-- What a statement does, with `limit` rounds for every loop. -/
def meaning (id : NodeId) : Run := meaningWithin forest oracle limit (forest.size + 1) id

end Meaning

/-- Whether an item is the label `name`. -/
def isLabel (name : Label) : Item → Bool
  | .control (.label other) => other = name
  | _ => false

/-- The items of a program from a label on. -/
def seek (name : Label) (program : List Item) : List Item := program.dropWhile (!isLabel name ·)

/-- What the items `rest` of a program do after a trace, for some steps at most. A conditional jump
asks the oracle for the answer of the condition in front of it. -/
def machine (oracle : Oracle) (program : List Item) : Nat → List Item → Trace → Trace × Ending
  | steps + 1, item :: rest, trace =>
    match item with
    | .event event _ => machine oracle program steps rest (trace ++ [event])
    | .control (.ujp target) => machine oracle program steps (seek target program) trace
    | .control (.fjp target) =>
      machine oracle program steps (if oracle trace then rest else seek target program) trace
    | .control _ => machine oracle program steps rest trace
    | .leave returned _ => (trace, if returned then .returned else .next)
  | _, _, trace => (trace, .unfinished)

/-! ## Runs that are alike -/

/-- What the one run has done, the other one has done as well, and it ends as the one does unless that
is not finished. -/
def Follows (result other : Trace × Ending) : Prop :=
  result = other ∨ result.2 = .unfinished ∧ result.1 <+: other.1

/-- Each of two families of runs comes as far as the other. So both let the same events happen, even if
there is no end to them, and both end in the same way or not at all. -/
structure Alike (runs others : Nat → Trace × Ending) : Prop where
  left : ∀ limit, ∃ limit', Follows (runs limit) (others limit')
  right : ∀ limit', ∃ limit, Follows (others limit') (runs limit)

end MiniC.Flow
