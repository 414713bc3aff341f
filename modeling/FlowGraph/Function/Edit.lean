import FlowGraph.Function.Destroy

/-!
# Edits

The changes of a function as data, so that a whole history of a function is a list.
-/

namespace FlowGraph.Function

set_option autoImplicit false

inductive Edit where
  | addBlock
  | addRegister (name : String)
  | addInstruction (operation : Operation)
  /-- Make an instruction with the operation of another one. -/
  | copyInstruction (source : InsnId)
  | append (block : BlockId) (operation : Operation)
  | place (instruction : InsnId) (block : BlockId) (position : Position)
  | detach (instruction : InsnId)
  | delete (instruction : InsnId)
  | redirectBranch (instruction : InsnId) (old : BlockId) (next : Option BlockId)
  | setFallThrough (block : BlockId) (next : Option BlockId)
  | addEdge (source target : BlockId)
  | removeEdge (source target : BlockId)
  | redirect (block old : BlockId) (next : Option BlockId)
  | destroy (block : BlockId)
  | dominators (edit : Dominance.Edit)
  | postDominators (edit : Dominance.Edit)
deriving DecidableEq, Repr

inductive Reply where
  | done
  | flag (value : Bool)
  | block (id : BlockId)
  | instruction (id : InsnId)
  | register (id : RegId)
deriving DecidableEq, Repr

/-- Whether a tree edit takes something out; other tree edits have no answer. -/
def treeReply (t : Dominance.Tree) : Dominance.Edit → Reply
  | .erase block => .flag (t.contains block)
  | _ => .done

def apply (f : Function) : Edit → Logged Fault (Reply × Function)
  | .addBlock => return (.block f.nextBlock, f.addBlock)
  | .addRegister name => return (.register f.nextRegister, f.addRegister name)
  | .addInstruction operation =>
    return (.instruction f.nextInstruction, f.addInstruction operation)
  | .copyInstruction source =>
    match f.instruction? source with
    | some insn => return (.instruction f.nextInstruction, f.addInstruction insn.operation)
    | none => return (.done, f)
  | .append block operation => do
    return (.instruction f.nextInstruction, ← f.append block operation)
  | .place insn block position => do
    return (.done, ← f.place insn block position)
  | .detach insn => do
    return (.done, ← f.detach insn)
  | .delete insn => do
    return (.done, ← f.delete insn)
  | .redirectBranch insn old next => do
    let (changed, f) ← f.redirectBranch insn old next
    return (.flag changed, f)
  | .setFallThrough block next => do
    return (.done, ← f.setFallThrough block next)
  | .addEdge source target => do
    return (.done, ← f.addEdge source target)
  | .removeEdge source target => do
    let (removed, f) ← f.removeEdge source target
    return (.flag removed, f)
  | .redirect block old next => do
    return (.done, ← f.redirect block old next)
  | .destroy block => do
    return (.done, ← f.destroy block)
  | .dominators edit =>
    return (treeReply f.dominators edit, { f with dominators := f.dominators.apply edit })
  | .postDominators edit =>
    return (treeReply f.postDominators edit,
      { f with postDominators := f.postDominators.apply edit })

/-- Carry out edits one after the other, up to the first fault. -/
def run (f : Function) : List Edit → Logged Fault Function
  | [] => return f
  | edit :: edits => do
    let (_, f) ← f.apply edit
    f.run edits

end FlowGraph.Function
