import FlowGraph.Function.Basic
import FlowGraph.Text.Sink

/-!
# Writing functions

A function is written as its registers, its entry, its other blocks by age, and its exit if there is
anything in it. A block that falls through to the block written next, or to the exit at the very
end, needs no `goto`.
-/

namespace FlowGraph

open Text

set_option autoImplicit false

def BlockId.label (b : BlockId) : String :=
  if b = .entry then "entry" else if b = .exit then "exit" else b.text

namespace Function

/-- The name of a register; an unknown one goes by its number. -/
def registerText (f : Function) (r : RegId) : String := (f.registerName? r).getD r.text

/-- Write an instruction. Nothing is written of a branch without a target or of an instruction that
has not the operands and the result of its kind. -/
def writeInstruction (f : Function) (insn : Instruction) : Emit Unit :=
  match insn.operation with
  | .arith op lhs rhs result => do
    Sink.put (f.registerText result)
    Sink.put " := "
    Sink.put (f.registerText lhs)
    Sink.put (" " ++ op.text ++ " ")
    Sink.put (f.registerText rhs)
  | .branch cond (some target) => do
    Sink.put "if ("
    Sink.put (f.registerText cond)
    Sink.put (") goto " ++ target.label)
  | .branch _ none => throw (.branchWithoutTarget (insn.block.getD .entry))
  | .nop => Sink.put "nop"
  | _ => throw (.fault (.malformedInstruction insn))

/-- The first name in a list that also stands in front of it or is among `seen`. -/
def repeatedName? (seen : List String) : List String → Option String
  | [] => none
  | name :: names =>
    if name ∈ seen then some name else repeatedName? (name :: seen) names

def writtenBlocks (f : Function) : List Block :=
  (f.block? .entry).toList ++
  (f.order.filter fun b => b ≠ .entry && b ≠ .exit).filterMap f.block? ++
  (f.block? .exit).toList.filter Block.hasContent

def writeRegisters : List String → Emit Unit
  | [] => return ()
  | name :: names => do
    Sink.put ("  reg " ++ name ++ "\n")
    writeRegisters names

def writeInstructions (f : Function) : List Instruction → Emit Unit
  | [] => return ()
  | insn :: insns => do
    Sink.put "  "
    f.writeInstruction insn
    Sink.put "\n"
    f.writeInstructions insns

/-- Whether control gets from `block` to `target` without a `goto` if `next` is written next. -/
def isImplicit (block target : BlockId) (next : Option BlockId) : Bool :=
  match next with
  | some next => target = next
  | none => target = .exit && block ≠ .exit

def writeFallThrough (block : Block) (next : Option BlockId) : Emit Unit :=
  match block.fallThrough with
  | some target =>
    if isImplicit block.id target next then
      return ()
    else
      Sink.put ("  goto " ++ target.label ++ "\n")
  | none => return ()

def writeBlocks (f : Function) : List Block → Emit Unit
  | [] => return ()
  | block :: blocks => do
    Sink.put (block.id.label ++ ":\n")
    f.writeInstructions (f.instructionsOf block.id)
    writeFallThrough block (blocks.head?.map Block.id)
    f.writeBlocks blocks

/-- Write a function. Nothing is written if two registers share a name. -/
def write (f : Function) : Emit Unit :=
  match repeatedName? [] f.registers with
  | some name => throw (.sharedRegisterName name)
  | none => do
    Sink.put "\x7b\n"
    writeRegisters f.registers
    f.writeBlocks f.writtenBlocks
    Sink.put "\x7d\n"

def toText (f : Function) : Except Error String := f.write.toText

end Function

end FlowGraph
