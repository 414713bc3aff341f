import FlowGraph.Handle

/-!
# Instructions

An instruction computes, branches or does nothing. It also remembers the block that lists it; an
instruction listed by no block is detached. A branch whose target has been destroyed keeps no
target.
-/

namespace FlowGraph

set_option autoImplicit false

inductive ArithOp where
  | add
  | sub
  | mul
  | div
deriving DecidableEq, Repr

namespace ArithOp

/-- All operators, in the order of their numbers. -/
def all : List ArithOp := [add, sub, mul, div]

def number : ArithOp → Nat
  | add => 0
  | sub => 1
  | mul => 2
  | div => 3

def symbol : ArithOp → Char
  | add => '+'
  | sub => '-'
  | mul => '*'
  | div => '/'

def text (op : ArithOp) : String := String.singleton op.symbol

def name : ArithOp → String
  | add => "Add"
  | sub => "Sub"
  | mul => "Mul"
  | div => "Div"

def ofChar? : Char → Option ArithOp
  | '+' => some add
  | '-' => some sub
  | '*' => some mul
  | '/' => some div
  | _ => none

/-- The operator written by exactly this text. -/
def ofString? (s : String) : Option ArithOp :=
  match s.toList with
  | [c] => ofChar? c
  | _ => none

@[simp] theorem ofChar?_symbol (op : ArithOp) : ofChar? op.symbol = some op := by
  cases op <;> rfl

end ArithOp

/-- What an instruction can be made to do. -/
inductive Operation where
  /-- Combine two registers into a third. -/
  | arith (op : ArithOp) (lhs rhs result : RegId)
  /-- Go to the target if the register holds, else on to the next instruction. -/
  | branch (cond : RegId) (target : Option BlockId)
  | nop
deriving DecidableEq, Repr

inductive Kind where
  | arith (op : ArithOp)
  | branch (target : Option BlockId)
  | nop
deriving DecidableEq, Repr

def Kind.text : Kind → String
  | arith op => "Arith(" ++ op.name ++ ")"
  | branch target => "CondBranch \x7b target: " ++ optionText BlockId.text target ++ " \x7d"
  | nop => "Nop"

/-- An operation as instructions keep it. Not every encoding is one of an operation. -/
structure Encoding where
  kind : Kind
  /-- The registers that are read. -/
  operands : List RegId := []
  /-- The register that is written. -/
  result? : Option RegId := none
deriving DecidableEq, Repr

namespace Encoding

@[match_pattern] abbrev arith (op : ArithOp) (lhs rhs result : RegId) : Encoding :=
  ⟨.arith op, [lhs, rhs], some result⟩

@[match_pattern] abbrev branch (cond : RegId) (target : Option BlockId) : Encoding :=
  ⟨.branch target, [cond], none⟩

@[match_pattern] abbrev nop : Encoding := ⟨.nop, [], none⟩

end Encoding

def Operation.encode : Operation → Encoding
  | arith op lhs rhs result => .arith op lhs rhs result
  | branch cond target => .branch cond target
  | nop => .nop

instance : Coe Operation Encoding := ⟨Operation.encode⟩

namespace Encoding

/-- The operation of this kind. The first register stands for every one that is missing. -/
def decode (e : Encoding) : Operation :=
  match e.kind with
  | .arith op => .arith op (e.operands.getD 0 ⟨0⟩) (e.operands.getD 1 ⟨0⟩) (e.result?.getD ⟨0⟩)
  | .branch target => .branch (e.operands.getD 0 ⟨0⟩) target
  | .nop => .nop

instance : CoeTail Encoding Operation := ⟨decode⟩

/-- The operands and the result are those of the kind. -/
def WellFormed (e : Encoding) : Prop := e.decode.encode = e

instance (e : Encoding) : Decidable e.WellFormed := inferInstanceAs (Decidable (_ = _))

@[simp] theorem decode_encode (o : Operation) : o.encode.decode = o := by
  cases o <;> rfl

theorem wellFormed_encode (o : Operation) : o.encode.WellFormed :=
  congrArg Operation.encode (decode_encode o)

def operator? (e : Encoding) : Option ArithOp :=
  match e.kind with
  | .arith op => some op
  | _ => none

def condition? (e : Encoding) : Option RegId :=
  match e.kind with
  | .branch _ => e.operands.head?
  | _ => none

def target? (e : Encoding) : Option BlockId :=
  match e.kind with
  | .branch target => target
  | _ => none

def isBranch (e : Encoding) : Bool :=
  match e.kind with
  | .branch _ => true
  | _ => false

/-- Only branches have an effect beyond their result. -/
def hasSideEffect (e : Encoding) : Bool :=
  match e.kind with
  | .branch _ => true
  | _ => false

/-- The flags as a number: one for a branch, two for a side effect. -/
def flags (e : Encoding) : Nat :=
  (if e.isBranch then 1 else 0) + (if e.hasSideEffect then 2 else 0)

def targets (e : Encoding) (block : BlockId) : Bool := e.target? == some block

/-- Send a branch elsewhere, whatever its target was. -/
def withTarget (e : Encoding) (next : Option BlockId) : Encoding :=
  match e.kind with
  | .branch _ => { e with kind := .branch next }
  | _ => e

/-- The text with every register and block by its number. -/
def text : Encoding → String
  | .arith op lhs rhs result =>
    result.text ++ " := " ++ lhs.text ++ " " ++ op.text ++ " " ++ rhs.text
  | ⟨.branch (some target), [cond], _⟩ => "if (" ++ cond.text ++ ") goto " ++ target.text
  | ⟨.branch none, [cond], _⟩ => "if (" ++ cond.text ++ ") goto ?"
  | ⟨.nop, _, _⟩ => "nop"
  | e => "<malformed " ++ e.kind.text ++ ">"

end Encoding

/-- An operation and the block that lists it. -/
structure Instruction where
  operation : Encoding
  block : Option BlockId := none
deriving DecidableEq, Repr

namespace Instruction

/-- The text with every field by its name. -/
def text (i : Instruction) : String :=
  "Instruction \x7b kind: " ++ i.operation.kind.text ++
    ", args: [" ++ ", ".intercalate (i.operation.operands.map RegId.text) ++
    "], result: " ++ optionText RegId.text i.operation.result? ++
    ", block: " ++ optionText BlockId.text i.block ++ " \x7d"

def target? (i : Instruction) : Option BlockId := i.operation.target?

def isBranch (i : Instruction) : Bool := i.operation.isBranch

/-- Send a branch to `old` on to `next`; every other instruction stays as it is. -/
def redirect (i : Instruction) (old : BlockId) (next : Option BlockId) : Instruction :=
  if i.operation.targets old then { i with operation := i.operation.withTarget next } else i

end Instruction

end FlowGraph
