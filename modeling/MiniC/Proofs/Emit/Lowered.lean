import MiniC.Proofs.Emit.Expression

/-!
# What the code of a statement is

The code of a statement is a list of items: pieces of code that run as a whole, and the instructions
between them that direct control. `Lowered` says which items statements have, one rule for each form;
a rule for a jump says which loop it belongs to. `Sectioned` adds what stands around the code of a
function.
-/

namespace MiniC.Emit

open Machine Forest

/-- What a program does, as control flow sees it. -/
inductive Event
  /-- A condition is evaluated. -/
  | condition (test : NodeId)
  /-- An expression is evaluated whose value is not used. -/
  | discarded (expression : NodeId)
  /-- A variable gets its initial value. -/
  | initializer (declaration : NodeId)
  /-- The result of a function is evaluated. -/
  | result (value : NodeId)
  deriving DecidableEq

/-- A part of the code of a function. -/
inductive Item
  /-- Code that is run from its first to its last instruction. -/
  | event (event : Event) (code : Code)
  /-- A label or a jump. -/
  | control (instr : Instr)
  /-- The way out of a function, by a return or at the end of the body. -/
  | leave (returned : Bool) (instr : Instr)

/-- The code of an item. -/
def Item.code : Item → Code
  | event _ code => code
  | control instr | leave _ instr => [instr]

/-- The code of items one behind the other. -/
def codeOf (items : List Item) : Code := items.flatMap Item.code

@[simp] theorem codeOf_nil : codeOf [] = [] := rfl

@[simp] theorem codeOf_cons (item : Item) (items : List Item) :
    codeOf (item :: items) = item.code ++ codeOf items := List.flatMap_cons

@[simp] theorem codeOf_append (items items' : List Item) :
    codeOf (items ++ items') = codeOf items ++ codeOf items' := List.flatMap_append

/-- What code is made for, besides expressions. -/
inductive Piece
  | statement (id : NodeId)
  | statements (ids : List NodeId)

variable (layout : Layout) (root : NodeId)

/-- A variable that gets its initial value at its declaration. -/
structure Initializes (d : NodeId) (slot : Nat) (type : Ty) : Prop where
  below : layout.forest.Below d root
  isDeclaration : (layout.forest.kind d).isDeclaration
  type_eq : layout.forest.type? d = some type
  ofVariable : type.OfVariable
  frame : layout.forest.IsFrame root (layout.forest.owningFunction d)
  mem : d ∈ layout.forest.frameVariables root (layout.forest.owningFunction d)
  slot_eq : layout.slot? d = some slot
  slots_eq : layout.slots d = type.slots

/-- The code that stores values into elements of `size` slots each. -/
inductive Filled (tag : Tag) (size : Nat) : Nat → List NodeId → Code → Prop
  | nil (slot : Nat) : Filled tag size slot [] []
  | cons {slot : Nat} {item : NodeId} {others : List NodeId} {code rest : Code}
      (hvalue : Coded layout root (.value item) code)
      (hothers : Filled tag size (slot + size) others rest) :
      Filled tag size slot (item :: others) (code ++ [.str tag 0 slot] ++ rest)

/-- A jump out of a loop or to its next round. -/
structure JumpsTo (id : NodeId) (leaving : Bool) (label : Label) (loop : NodeId) : Prop where
  kind_eq : layout.forest.kind id =
    if leaving then .breakOut (some label) else .continueOn (some label)
  loop_eq : layout.forest.enclosingLoop id = some loop
  target_eq : Resolve.jumpTarget? (layout.forest.kind loop) leaving = some label

/-- A condition with its code. -/
structure Tests (test : NodeId) (code : Code) : Prop where
  below : layout.forest.Below test root
  type : layout.forest.HasType test .int
  value : Coded layout root (.value test) code

/-- Evaluates a condition and jumps if it is zero. -/
def jumpItems (test : NodeId) (code : Code) (target : Label) : List Item :=
  [.event (.condition test) (code ++ [.conv .int .bool]), .control (.fjp target)]

/-- The items in front of the body of a loop with three clauses. Without a condition there are
none. -/
inductive Guards (test : NodeId) (target : Label) : List Item → Prop
  | always (hnothing : layout.forest.kind test = .nothing) : Guards test target []
  | tested {code : Code} (hrole : layout.forest.role test = .expression)
      (htest : Tests layout root test code) : Guards test target (jumpItems test code target)

/-- The items of statements. -/
inductive Lowered : Piece → List Item → Prop
  | declared {d : NodeId} (hbelow : layout.forest.Below d root)
      (hkind : (layout.forest.kind d).isDeclaration) (hnone : layout.forest.child? d 1 = none) :
      Lowered (.statement d) []
  | initialized {d initial slot : NodeId} {type given : Ty} {code : Code}
      (hd : Initializes layout root d slot type)
      (hinitial : layout.forest.child? d 1 = some initial) (harray : type.isArray = false)
      (hgiven : layout.forest.type? initial = some given) (hsame : given.same type)
      (hvalue : Coded layout root (.value initial) code) :
      Lowered (.statement d) [.event (.initializer d) (code ++ [.str type.cell 0 slot])]
  | listed {d list slot : NodeId} {element : Ty} {size : Nat} {constant : Bool} {code : Code}
      (hd : Initializes layout root d slot (.array element size constant))
      (hinitial : layout.forest.child? d 1 = some list)
      (hlist : layout.forest.kind list = .initializers)
      (hlength : (layout.forest.children list).length ≤ size)
      (hitems : ∀ item ∈ layout.forest.children list, layout.forest.HasType item element)
      (hfilled : Filled layout root element.cell element.slots slot
        (layout.forest.children list) code) :
      Lowered (.statement d) [.event (.initializer d) code]
  | function {f : NodeId} (hkind : (layout.forest.kind f).isFunction) : Lowered (.statement f) []
  | block {id : NodeId} {items : List Item} (hkind : layout.forest.kind id = .block)
      (hitems : Lowered (.statements (layout.forest.children id)) items) :
      Lowered (.statement id) items
  | exprStatement {id e : NodeId} {code : Code} (hkind : layout.forest.kind id = .exprStatement)
      (hchildren : layout.forest.children id = [e]) (hbelow : layout.forest.Below e root)
      (hcode : Coded layout root (.effect e) code) :
      Lowered (.statement id) [.event (.discarded e) code]
  | ifThen {id test yes : NodeId} {labels : IfLabels} {code : Code} {items : List Item}
      (hkind : layout.forest.kind id = .ifElse (some labels))
      (hchildren : layout.forest.children id = [test, yes]) (htest : Tests layout root test code)
      (hyes : Lowered (.statement yes) items) :
      Lowered (.statement id)
        (jumpItems test code labels.finish ++ items ++ [.control (.label labels.finish)])
  | ifElse {id test yes no : NodeId} {labels : IfLabels} {code : Code} {items others : List Item}
      (hkind : layout.forest.kind id = .ifElse (some labels))
      (hchildren : layout.forest.children id = [test, yes, no])
      (htest : Tests layout root test code) (hyes : Lowered (.statement yes) items)
      (hno : Lowered (.statement no) others) :
      Lowered (.statement id)
        (jumpItems test code labels.otherwise ++ items ++
          [.control (.ujp labels.finish), .control (.label labels.otherwise)] ++ others ++
          [.control (.label labels.finish)])
  | whileLoop {id test body : NodeId} {labels : WhileLabels} {code : Code} {items : List Item}
      (hkind : layout.forest.kind id = .whileLoop (some labels))
      (hchildren : layout.forest.children id = [test, body])
      (htest : Tests layout root test code) (hbody : Lowered (.statement body) items) :
      Lowered (.statement id)
        ([.control (.label labels.start)] ++ jumpItems test code labels.finish ++ items ++
          [.control (.ujp labels.start), .control (.label labels.finish)])
  | forLoop {id start test next body : NodeId} {labels : ForLabels}
      {first guard items others : List Item}
      (hkind : layout.forest.kind id = .forLoop (some labels))
      (hchildren : layout.forest.children id = [start, test, next, body])
      (hclauses : (layout.forest.role start).IsClause ∧ (layout.forest.role next).IsClause)
      (hguard : Guards layout root test labels.finish guard)
      (hstart : Lowered (.statement start) first) (hbody : Lowered (.statement body) items)
      (hnext : Lowered (.statement next) others) :
      Lowered (.statement id)
        (first ++ [.control (.label labels.start)] ++ guard ++ items ++
          [.control (.label labels.next)] ++ others ++
          [.control (.ujp labels.start), .control (.label labels.finish)])
  | leave {id : NodeId} (hkind : layout.forest.kind id = .giveBack)
      (hchildren : layout.forest.children id = []) : Lowered (.statement id) [.leave true .retp]
  | giveBack {id value f : NodeId} {type result : Ty} {code : Code}
      (hkind : layout.forest.kind id = .giveBack)
      (hchildren : layout.forest.children id = [value]) (hbelow : layout.forest.Below value root)
      (howner : layout.forest.owningFunction id = some f)
      (hresult : layout.forest.type? f = some result)
      (htype : layout.forest.type? value = some type) (hsame : type.same result)
      (hvoid : type.isVoid = false) (hvalue : Coded layout root (.value value) code) :
      Lowered (.statement id)
        [.event (.result value) (code ++ [.str type.cell 0 0]), .leave true .retf]
  | jump {id loop : NodeId} {leaving : Bool} {label : Label}
      (hjump : JumpsTo layout id leaving label loop) :
      Lowered (.statement id) [.control (.ujp label)]
  | nothing {id : NodeId} (hkind : layout.forest.kind id = .nothing) : Lowered (.statement id) []
  | nil : Lowered (.statements []) []
  | cons {id : NodeId} {others : List NodeId} {items rest : List Item}
      (hitems : Lowered (.statement id) items) (hothers : Lowered (.statements others) rest) :
      Lowered (.statements (id :: others)) (items ++ rest)

/-- The items of a function with a body. -/
inductive Sectioned (f : NodeId) : List Item → Prop
  | intro {s : SymbolId} {signature : Signature} {result params body : NodeId} {items : List Item}
      (hf : f ∈ layout.forest.definitions root)
      (hsymbol : (layout.forest.kind f).symbol? = some s)
      (hsignature : (layout.table.symbol s).signature? = some signature)
      (hchildren : layout.forest.children f = [result, params, body])
      (hbody : Lowered layout root (.statements (layout.forest.children body)) items) :
      Sectioned f ([.control (.label signature.label), .control (.ssp (layout.sizeOf (some f)))] ++
        items ++ [.leave false (if (layout.table.symbol s).type.isVoid then .retp else .retf)])

end MiniC.Emit
