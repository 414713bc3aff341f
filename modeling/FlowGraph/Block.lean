import FlowGraph.Instruction

/-!
# Basic blocks

A block lists its instructions, and its edges in both directions. Edges are counted: a block that
two branches send to the same place lists this place twice.
-/

namespace FlowGraph

set_option autoImplicit false

structure Block where
  id : BlockId
  instructions : List InsnId := []
  successors : List BlockId := []
  predecessors : List BlockId := []
  /-- Where control goes after the last instruction. -/
  fallThrough : Option BlockId := none
deriving DecidableEq, Repr

namespace Block

def isEmpty (b : Block) : Bool := b.instructions.isEmpty

def hasContent (b : Block) : Bool := !b.isEmpty || b.fallThrough.isSome

def edgesTo (b : Block) (target : BlockId) : Nat := b.successors.count target

def edgesFrom (b : Block) (source : BlockId) : Nat := b.predecessors.count source

def addSuccessor (b : Block) (target : BlockId) : Block :=
  { b with successors := b.successors ++ [target] }

def addPredecessor (b : Block) (source : BlockId) : Block :=
  { b with predecessors := b.predecessors ++ [source] }

/-- Remove one edge to `target`, the oldest. -/
def eraseSuccessor (b : Block) (target : BlockId) : Block :=
  { b with successors := b.successors.erase target }

/-- Remove one edge from `source`, the oldest. -/
def erasePredecessor (b : Block) (source : BlockId) : Block :=
  { b with predecessors := b.predecessors.erase source }

def text (b : Block) : String :=
  let size := Nat.repr b.instructions.length
  let edges := String.intercalate ", " (b.successors.map BlockId.text)
  let line := b.id.text ++ ": " ++ size ++ " insns, succs [" ++ edges ++ "]"
  match b.fallThrough with
  | some next => line ++ ", falls through to " ++ next.text
  | none => line

end Block

end FlowGraph
