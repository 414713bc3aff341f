import FlowGraph.Instruction

/-!
# Faults

A fault is a call that breaks the rules of the graph: the graph is not usable afterwards.
-/

namespace FlowGraph

set_option autoImplicit false

inductive Fault where
  /-- A block that was never made or has been destroyed. -/
  | deadBlock (block : BlockId)
  /-- An instruction that was never made or has been deleted. -/
  | deletedInstruction (instruction : InsnId)
  /-- An edge that only one of its two ends lists. -/
  | asymmetricEdge (source target : BlockId)
  /-- A destroyed block that something still leads to. -/
  | remainingPredecessors
  /-- A destroyed block that still leads somewhere. -/
  | remainingSuccessors
  /-- An instruction that has not the operands and the result of its kind. -/
  | malformedInstruction (instruction : Instruction)
deriving DecidableEq, Repr

def Fault.message : Fault → String
  | deadBlock block => "use of destroyed or foreign block " ++ block.text
  | deletedInstruction instruction => "use of deleted instruction " ++ instruction.text
  | asymmetricEdge source target =>
    "Asymmetric edge " ++ source.text ++ " -> " ++ target.text ++ " in successor/predecessor lists"
  | remainingPredecessors => "Destroyed block has remaining predecessors"
  | remainingSuccessors => "Destroyed block has remaining successors"
  | malformedInstruction instruction => "malformed instruction " ++ instruction.text

end FlowGraph
