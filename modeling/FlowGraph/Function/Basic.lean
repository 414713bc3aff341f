import FlowGraph.Arena
import FlowGraph.Block
import FlowGraph.Dominance.Tree
import FlowGraph.Fault

/-!
# Functions

A function is a graph of basic blocks with an entry and an exit, the instructions that the blocks
list, the registers that the instructions name, and two cached dominator trees. Everything is
named by handles. A look-up with `?` answers `none` for a dead handle; one without is a fault.
-/

namespace FlowGraph

set_option autoImplicit false

structure Function where
  blocks : Arena Block := {}
  /-- The live blocks, oldest first. -/
  order : List BlockId := []
  instructions : Arena Instruction := {}
  /-- The names of the registers; two registers may share a name. -/
  registers : List String := []
  /-- The register that was last made under a name. -/
  registerTable : Std.TreeMap String RegId := {}
  dominators : Dominance.Tree := {}
  postDominators : Dominance.Tree := {}

namespace Function

def block? (f : Function) (b : BlockId) : Option Block := f.blocks.get? b.index

def isLive (f : Function) (b : BlockId) : Bool := (f.block? b).isSome

def blockList (f : Function) : List Block := f.order.filterMap f.block?

def blockCount (f : Function) : Nat := f.order.length

def block (f : Function) (b : BlockId) : Except Fault Block :=
  match f.block? b with
  | some block => .ok block
  | none => .error (.deadBlock b)

def updateBlock (f : Function) (b : BlockId) (g : Block → Block) : Except Fault Function := do
  let block ← f.block b
  return { f with blocks := f.blocks.set b.index (g block) }

def nextBlock (f : Function) : BlockId := ⟨f.blocks.size⟩

def addBlock (f : Function) : Function :=
  { f with blocks := f.blocks.push { id := f.nextBlock }, order := f.order ++ [f.nextBlock] }

/-- A function that has only its entry and its exit. -/
def empty : Function := ({} : Function).addBlock.addBlock

def registerName? (f : Function) (r : RegId) : Option String := f.registers[r.index]?

def nextRegister (f : Function) : RegId := ⟨f.registers.length⟩

/-- Make a register and enter it into the table, in the place of an older one of its name. -/
def addRegister (f : Function) (name : String) : Function :=
  { f with
    registers := f.registers ++ [name]
    registerTable := f.registerTable.insert name f.nextRegister }

def findRegister? (f : Function) (name : String) : Option RegId := f.registerTable[name]?

def instruction? (f : Function) (i : InsnId) : Option Instruction := f.instructions.get? i.index

/-- The instructions of a block in order; a dead block has none. -/
def instructionsOf (f : Function) (b : BlockId) : List Instruction :=
  match f.block? b with
  | some block => block.instructions.filterMap f.instruction?
  | none => []

def instruction (f : Function) (i : InsnId) : Except Fault Instruction :=
  match f.instruction? i with
  | some insn => .ok insn
  | none => .error (.deletedInstruction i)

def setInstruction (f : Function) (i : InsnId) (insn : Instruction) : Function :=
  { f with instructions := f.instructions.set i.index insn }

def nextInstruction (f : Function) : InsnId := ⟨f.instructions.size⟩

/-- Make an instruction that no block lists. -/
def addInstruction (f : Function) (operation : Encoding) : Function :=
  { f with instructions := f.instructions.push { operation } }

def invalidateTrees (f : Function) : Function :=
  { f with
    dominators := f.dominators.invalidate
    postDominators := f.postDominators.invalidate }

end Function

end FlowGraph
