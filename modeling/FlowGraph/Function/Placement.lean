import FlowGraph.Function.Edges

/-!
# Placement of instructions

An instruction is listed by at most one block, and a branch that is listed is an edge from its
block to its target. Placing an instruction takes it away from where it was.
-/

namespace FlowGraph.Function

set_option autoImplicit false

inductive Position where
  | first
  | last
  /-- The last place, but in front of a branch that stands there. -/
  | beforeBranch
deriving DecidableEq, Repr

/-- Take an instruction out of its block. One that no block lists stays as it is. -/
def detach (f : Function) (i : InsnId) : Except Fault Function := do
  let insn ← f.instruction i
  match insn.block with
  | none => return f
  | some b =>
    let f ← f.updateBlock b fun block => { block with instructions := block.instructions.erase i }
    let f := f.setInstruction i { insn with block := none }
    match insn.target? with
    | some target => f.dropEdge b target
    | none => return f

def delete (f : Function) (i : InsnId) : Except Fault Function := do
  let f ← f.detach i
  return { f with instructions := f.instructions.erase i.index }

def deleteAll : List InsnId → Function → Except Fault Function
  | [], f => return f
  | i :: is, f => do
    let f ← f.delete i
    deleteAll is f

def endsInBranch (f : Function) (is : List InsnId) : Except Fault Bool :=
  match is.getLast? with
  | some last => do
    let insn ← f.instruction last
    return insn.isBranch
  | none => return false

def insertAt (f : Function) (i : InsnId) (is : List InsnId) : Position → Except Fault (List InsnId)
  | .first => return i :: is
  | .last => return is ++ [i]
  | .beforeBranch => do
    if ← f.endsInBranch is then
      return is.dropLast ++ i :: is.getLast?.toList
    else
      return is ++ [i]

/-- Note that `b` lists an instruction, and add the edge of a branch. -/
def attach (f : Function) (i : InsnId) (b : BlockId) : Except Fault Function := do
  let insn ← f.instruction i
  let f := f.setInstruction i { insn with block := some b }
  match insn.target? with
  | some target => f.addEdge b target
  | none => return f

def place (f : Function) (i : InsnId) (b : BlockId) (position : Position) :
    Except Fault Function := do
  let f ← f.detach i
  let block ← f.block b
  let is ← f.insertAt i block.instructions position
  let f ← f.updateBlock b fun block => { block with instructions := is }
  f.attach i b

def append (f : Function) (b : BlockId) (operation : Operation) : Except Fault Function :=
  (f.addInstruction operation).place f.nextInstruction b .last

/-- Send a branch to `old` on to `next`, with its edge if a block lists it. Says whether the
instruction was a branch to `old`. -/
def redirectBranch (f : Function) (i : InsnId) (old : BlockId) (next : Option BlockId) :
    Except Fault (Bool × Function) := do
  let insn ← f.instruction i
  if insn.operation.targets old then
    let f := f.setInstruction i (insn.redirect old next)
    match insn.block with
    | none => return (true, f)
    | some b =>
      let f ← f.dropEdge b old
      let f ← match next with
        | some target => f.addEdge b target
        | none => pure f
      return (true, f)
  else
    return (false, f)

def branchesAmong (f : Function) : List InsnId → Except Fault (List InsnId)
  | [] => return []
  | i :: is => do
    let insn ← f.instruction i
    let rest ← f.branchesAmong is
    return if insn.isBranch then i :: rest else rest

/-- Send all of some branches that lead to `old` on to `next`. -/
def redirectBranches (old : BlockId) (next : Option BlockId) :
    List InsnId → Function → Except Fault Function
  | [], f => return f
  | i :: is, f => do
    let (_, f) ← f.redirectBranch i old next
    redirectBranches old next is f

/-- Send the fall-through and all branches of `b` that lead to `old` on to `next`. Edges that belong
to neither stay. -/
def redirect (f : Function) (b old : BlockId) (next : Option BlockId) :
    Except Fault Function := do
  let block ← f.block b
  let f ← if block.fallThrough = some old then f.setFallThrough b next else pure f
  let block ← f.block b
  let branches ← f.branchesAmong block.instructions
  redirectBranches old next branches f

end FlowGraph.Function
