import FlowGraph.Function.Basic

/-!
# Consistency of edges

A check that the two ends of every edge agree on how often it exists and that every fall-through
is an edge.
-/

namespace FlowGraph.Function

set_option autoImplicit false

/-- Whether `target` lists `block` as often as `block` lists `target`. -/
def agreesOnSuccessor (f : Function) (block : Block) (target : BlockId) : Bool :=
  match f.block? target with
  | some other => block.edgesTo target == other.edgesFrom block.id
  | none => false

/-- Whether `source` lists `block` as often as `block` lists `source`. -/
def agreesOnPredecessor (f : Function) (block : Block) (source : BlockId) : Bool :=
  match f.block? source with
  | some other => block.edgesFrom source == other.edgesTo block.id
  | none => false

def blockIsConsistent (f : Function) (block : Block) : Bool :=
  block.successors.all (f.agreesOnSuccessor block) &&
  block.predecessors.all (f.agreesOnPredecessor block) &&
  match block.fallThrough with
  | some next => block.edgesTo next != 0
  | none => true

/-- The oldest block whose edges do not fit. -/
def firstInconsistent? (f : Function) : Option BlockId :=
  (f.blockList.find? fun block => !f.blockIsConsistent block).map Block.id

end FlowGraph.Function
