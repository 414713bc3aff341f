import FlowGraph.Handle

/-!
# Dominator trees

A tree as its owner enters it: every block with its immediate dominator and, the other way round,
the list of blocks that it immediately dominates. Nothing here computes dominance, and nothing
stops the owner from entering a cycle, so the ancestor query counts its steps.
-/

namespace FlowGraph.Dominance

set_option autoImplicit false

structure Node where
  idom : Option BlockId := none
  children : List BlockId := []
deriving DecidableEq, Repr

/-- A cached tree and whether it still fits the graph. -/
structure Tree where
  valid : Bool := false
  nodes : Std.TreeMap BlockId Node := ∅

namespace Tree

def node? (t : Tree) (block : BlockId) : Option Node := t.nodes[block]?

def contains (t : Tree) (block : BlockId) : Bool := t.nodes.contains block

def size (t : Tree) : Nat := t.nodes.size

def isEmpty (t : Tree) : Bool := t.nodes.isEmpty

def toList (t : Tree) : List (BlockId × Node) := t.nodes.toList

def idom? (t : Tree) (block : BlockId) : Option BlockId := (t.node? block).bind Node.idom

def invalidate (t : Tree) : Tree := { t with valid := false }

def markValid (t : Tree) : Tree := { t with valid := true }

def clear (_ : Tree) : Tree := {}

/-- Strike `child` from the children of `parent`, if `parent` has a node. -/
def dropChild (t : Tree) (parent child : BlockId) : Tree :=
  let drop (n : Node) : Node := { n with children := n.children.filter (· ≠ child) }
  { t with nodes := t.nodes.modify parent drop }

/-- Give `block` the immediate dominator `idom`, with a new node if it has none. -/
def setIdom (t : Tree) (block : BlockId) (idom : Option BlockId) : Tree :=
  { t with nodes := t.nodes.insert block { (t.node? block).getD {} with idom } }

/-- Enter `child` last among the children of `parent`, with a new node if it has none. -/
def addChild (t : Tree) (parent child : BlockId) : Tree :=
  let n := (t.node? parent).getD {}
  { t with nodes := t.nodes.insert parent { n with children := n.children ++ [child] } }

/-- Leave a block without an immediate dominator, if it has a node. -/
def orphan (t : Tree) (block : BlockId) : Tree :=
  { t with nodes := t.nodes.modify block fun n => { n with idom := none } }

/-- Put `block` under `idom`, taking it away from where it was. -/
def insert (t : Tree) (block : BlockId) (idom : Option BlockId) : Tree :=
  let t := match t.idom? block with
    | some old => t.dropChild old block
    | none => t
  let t := t.setIdom block idom
  match idom with
  | some parent => t.addChild parent block
  | none => t

/-- Take `block` out; what it immediately dominated becomes a root. -/
def erase (t : Tree) (block : BlockId) : Tree :=
  match t.node? block with
  | none => t
  | some n =>
    let t := { t with nodes := t.nodes.erase block }
    let t := match n.idom with
      | some parent => t.dropChild parent block
      | none => t
    n.children.foldl orphan t

/-- Whether `a` is met on the way up from `b` in at most `steps` steps. -/
def climb (t : Tree) (a : BlockId) : (steps : Nat) → (b : BlockId) → Bool
  | 0, b => b == a
  | steps + 1, b => b == a ||
    match t.idom? b with
    | some parent => t.climb a steps parent
    | none => false

/-- Whether `a` is `b` or above it. A way up that repeats nothing has at most as many steps as there
are nodes. -/
def dominates (t : Tree) (a b : BlockId) : Bool := t.climb a t.size b

end Tree

inductive Edit where
  | insert (block : BlockId) (idom : Option BlockId)
  | erase (block : BlockId)
  | markValid
  | invalidate
  | clear
deriving DecidableEq, Repr

def Tree.apply (t : Tree) : Edit → Tree
  | .insert block idom => t.insert block idom
  | .erase block => t.erase block
  | .markValid => t.markValid
  | .invalidate => t.invalidate
  | .clear => t.clear

end FlowGraph.Dominance
