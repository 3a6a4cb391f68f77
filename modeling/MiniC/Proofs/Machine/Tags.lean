import MiniC.Proofs.Machine.Library

/-!
# Running code on tags

The machine on tags keeps the tag of every cell on the stack and nothing else. An instruction that
does not find the tags it names has no next stack. `Arrives` says where a run of some code can come to,
with every jump to a label in this code and both ways out of a conditional jump.
-/

namespace MiniC.Machine

/-- The tag of a constant. -/
def Constant.tag : Constant → Tag
  | int _ => .int
  | char _ => .char
  | bool _ => .bool

/-- The tags that a call asks for, and what it leaves. -/
structure Callee where
  params : List Tag
  /-- More arguments may follow. Their number is the first one. -/
  variadic : Bool
  result : List Tag
  deriving DecidableEq

/-- Whether arguments, the first one in front, have the tags of the parameters. -/
def Callee.accepts (callee : Callee) (arguments : List Tag) : Bool :=
  if callee.variadic then
    arguments.head? = some .int && callee.params.isPrefixOf arguments.tail
  else arguments = callee.params

/-- Takes a cell with a tag from the top of the stack. -/
def pop (tag : Tag) : List Tag → Option (List Tag)
  | [] => none
  | top :: stack => if top = tag then some stack else none

@[simp] theorem pop_cons (tag : Tag) (stack : List Tag) : pop tag (tag :: stack) = some stack :=
  if_pos rfl

variable (callee? : Label → Option Callee)

/-- Takes the arguments of a call from the stack, and leaves its result. -/
def popArguments (count : Nat) (target : Label) (stack : List Tag) : Option (List Tag) :=
  (callee? target).bind fun callee =>
    if count ≤ stack.length ∧ callee.accepts (stack.take count).reverse then
      some (callee.result ++ stack.drop count)
    else none

/-- A call that finds the arguments it accepts. -/
theorem popArguments_eq {callee? : Label → Option Callee} {target : Label} {callee : Callee}
    {arguments stack : List Tag} (h : callee? target = some callee)
    (haccepts : callee.accepts arguments) :
    popArguments callee? arguments.length target (arguments.reverse ++ stack) =
      some (callee.result ++ stack) := by
  have htake : (arguments.reverse ++ stack).take arguments.length = arguments.reverse :=
    List.take_left' List.length_reverse
  have hdrop : (arguments.reverse ++ stack).drop arguments.length = stack :=
    List.drop_left' List.length_reverse
  simp [popArguments, h, htake, hdrop, haccepts]

/-- The stack behind an instruction, the top in front, if the instruction finds the tags that it
names. -/
def Instr.retag (instr : Instr) (stack : List Tag) : Option (List Tag) :=
  match instr with
  | ldc value => some (value.tag :: stack)
  | lod tag _ _ => some (tag :: stack)
  | str tag _ _ => pop tag stack
  | lda .. => some (.address :: stack)
  | ind tag => (pop .address stack).map (tag :: ·)
  | sto tag => (pop tag stack).bind (pop .address)
  | ixa _ => ((pop .int stack).bind (pop .address)).map (.address :: ·)
  | inc tag _ | dec tag _ | neg tag => (pop tag stack).map (tag :: ·)
  | arith _ tag => ((pop tag stack).bind (pop tag)).map (tag :: ·)
  | compare _ tag => ((pop tag stack).bind (pop tag)).map (.bool :: ·)
  | logic _ => ((pop .bool stack).bind (pop .bool)).map (.bool :: ·)
  | not => (pop .bool stack).map (.bool :: ·)
  | conv source target => (pop source stack).map (target :: ·)
  | fjp _ => pop .bool stack
  | cup count target => popArguments callee? count target stack
  | read tag => some (tag :: stack)
  | write tag => pop tag stack
  | label _ | ujp _ | mst _ | ssp _ | retf | retp | hlt => some stack

/-- The stack behind code that runs from its first to its last instruction. -/
def Code.retag : Code → List Tag → Option (List Tag)
  | [], stack => some stack
  | instr :: code, stack => (instr.retag callee? stack).bind (retag code)

section Run

variable {callee? : Label → Option Callee} {code code' : Code} {instr : Instr}
  {stack stack' : List Tag}

@[simp] theorem Code.retag_nil : Code.retag callee? [] stack = some stack := rfl

@[simp] theorem Code.retag_cons : Code.retag callee? (instr :: code) stack =
    (instr.retag callee? stack).bind (Code.retag callee? code) := rfl

@[simp] theorem Code.retag_append : Code.retag callee? (code ++ code') stack =
    (Code.retag callee? code stack).bind (Code.retag callee? code') := by
  induction code generalizing stack with
  | nil => rfl
  | cons instr code ih =>
    simp only [List.cons_append, retag_cons, Option.bind_assoc]
    exact Option.bind_congr fun _ _ => ih

end Run

/-- The machine may go on with the next instruction. -/
def Instr.goesOn : Instr → Bool
  | ujp _ | retf | retp | hlt => false
  | _ => true

/-- Where a run of code that starts with an empty stack can come to: the code from there on, and the
stack. -/
inductive Arrives (code : Code) : Code → List Tag → Prop
  | start : Arrives code code []
  | next {instr : Instr} {rest : Code} {stack stack' : List Tag}
      (h : Arrives code (instr :: rest) stack) (hgoes : instr.goesOn)
      (hstep : instr.retag callee? stack = some stack') : Arrives code rest stack'
  | jump {instr : Instr} {rest before after : Code} {stack stack' : List Tag} {target : Label}
      (h : Arrives code (instr :: rest) stack) (hjump : instr.jump? = some target)
      (hstep : instr.retag callee? stack = some stack')
      (hcode : code = before ++ .label target :: after) :
      Arrives code (.label target :: after) stack'

end MiniC.Machine
