import FlowGraph.Event
import FlowGraph.Function.Placement

/-!
# Destroying a block

The instructions of the block go with it. Whatever led to the block leads on to where it fell
through, or nowhere. Edges that belong to no fall-through and no branch are dropped.
-/

namespace FlowGraph.Function

set_option autoImplicit false

/-- Detached branches to `b` lose their target. -/
def forgetTarget (f : Function) (b : BlockId) : Function :=
  { f with
    instructions := f.instructions.map fun insn =>
      if insn.block.isNone then insn.redirect b none else insn }

/-- Delete the instructions and the fall-through of a block. The answer has the block that takes
over its predecessors. -/
def clearBlock (f : Function) (b : BlockId) : Except Fault (Option BlockId × Function) := do
  let block ← f.block b
  let f ← deleteAll block.instructions f
  let f := f.forgetTarget b
  let block ← f.block b
  let f ← f.setFallThrough b none
  return (if block.fallThrough = some b then none else block.fallThrough, f)

/-- Lead one predecessor of `b` elsewhere. If neither its fall-through nor a branch led here, drop
one edge instead. -/
def reroute (f : Function) (source b : BlockId) (next : Option BlockId) :
    Logged Fault Function := do
  let before ← f.block b
  let f ← f.redirect source b next
  let after ← f.block b
  if after.predecessors.length = before.predecessors.length then
    Logged.report (.droppedRawEdge source b)
    f.dropEdge source b
  else
    Logged.report (.rerouted source b next)
    return f

/-- Lead the first predecessor of `b` elsewhere, at most `rounds` times. -/
def rerouteAll (b : BlockId) (next : Option BlockId) :
    (rounds : Nat) → (f : Function) → Logged Fault Function
  | 0, f => return f
  | rounds + 1, f => do
    let block ← f.block b
    match block.predecessors with
    | [] => return f
    | source :: _ =>
      let f ← f.reroute source b next
      rerouteAll b next rounds f

/-- Forget a block that nothing leads to and that leads nowhere. -/
def forgetBlock (f : Function) (b : BlockId) : Except Fault Function := do
  let block ← f.block b
  if block.predecessors ≠ [] then
    throw .remainingPredecessors
  else if block.successors ≠ [] then
    throw .remainingSuccessors
  else
    return { f with
      blocks := f.blocks.erase b.index
      order := f.order.filter (· ≠ b)
      dominators := f.dominators.erase b
      postDominators := f.postDominators.erase b }

/-- Destroy a block. Every round leads away at least one of the edges to it, so there are at most
as many rounds as edges. -/
def destroy (f : Function) (b : BlockId) : Logged Fault Function := do
  let (next, f) ← f.clearBlock b
  let block ← f.block b
  Logged.report (.destroying b block.predecessors.length next)
  let f ← rerouteAll b next block.predecessors.length f
  f.forgetBlock b

end FlowGraph.Function
