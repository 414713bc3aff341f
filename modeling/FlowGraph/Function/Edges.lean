import FlowGraph.Function.Basic

/-!
# Edges

Every edge is listed at both of its ends, as often as it exists. The fall-through of a block is one
of its edges. Any change of the edges makes the dominator trees invalid.
-/

namespace FlowGraph.Function

set_option autoImplicit false

/-- Add one edge. The target is looked up before the source. -/
def addEdge (f : Function) (source target : BlockId) : Except Fault Function := do
  let _ ← f.block target
  let f ← f.updateBlock source (·.addSuccessor target)
  let f ← f.updateBlock target (·.addPredecessor source)
  return f.invalidateTrees

/-- Remove one edge and say whether there was one. The target is looked up before the source. -/
def removeEdge (f : Function) (source target : BlockId) : Except Fault (Bool × Function) := do
  let listed ← f.block target
  let listing ← f.block source
  let f ← f.updateBlock source (·.eraseSuccessor target)
  let f ← f.updateBlock target (·.erasePredecessor source)
  let removed := listing.successors.contains target
  if removed = listed.predecessors.contains source then
    return (removed, f.invalidateTrees)
  else
    throw (.asymmetricEdge source target)

def dropEdge (f : Function) (source target : BlockId) : Except Fault Function := do
  let (_, f) ← f.removeEdge source target
  return f

/-- Let control fall from `b` to `target`, or nowhere. Nothing happens if it does so already. -/
def setFallThrough (f : Function) (b : BlockId) (target : Option BlockId) :
    Except Fault Function := do
  let block ← f.block b
  if block.fallThrough = target then
    return f
  else
    let f ← match block.fallThrough with
      | some old => f.dropEdge b old
      | none => pure f
    let f ← match target with
      | some next => f.addEdge b next
      | none => pure f
    f.updateBlock b fun block => { block with fallThrough := target }

end FlowGraph.Function
