import FlowGraph.Handle

/-!
# Events

What the library reports while it works. A `Logged` computation keeps the events that were
reported before it failed.
-/

namespace FlowGraph

set_option autoImplicit false

inductive Event where
  /-- A block is about to lose its predecessors, which are sent to `next`. -/
  | destroying (block : BlockId) (predecessors : Nat) (next : Option BlockId)
  /-- The fall-through and the branches from `source` to `block` were sent to `next`. -/
  | rerouted (source block : BlockId) (next : Option BlockId)
  /-- An edge that belongs to no fall-through and no branch was removed. -/
  | droppedRawEdge (source block : BlockId)
  /-- A label was met for the first time. -/
  | newLabel (name : String) (block : BlockId)
  | readFunction (name : String) (blocks registers : Nat)
  | readProgram (functions : Nat)
deriving DecidableEq, Repr

namespace Event

def level : Event → String
  | destroying _ _ _ | readFunction _ _ _ | readProgram _ => "DEBUG"
  | rerouted _ _ _ | droppedRawEdge _ _ | newLabel _ _ => "TRACE"

def message : Event → String
  | destroying block predecessors next =>
    "destroying block " ++ block.text ++ " with " ++ Nat.repr predecessors ++
      " predecessors, redirecting to " ++ optionText BlockId.text next
  | rerouted source block next =>
    "rerouted " ++ source.text ++ " -> " ++ block.text ++ " to " ++ optionText BlockId.text next
  | droppedRawEdge source block => "dropping raw edge " ++ source.text ++ " -> " ++ block.text
  | newLabel name block => "label " ++ name ++ " -> new block " ++ block.text
  | readFunction name blocks registers =>
    "read function " ++ name ++ ": " ++ Nat.repr blocks ++ " blocks, " ++ Nat.repr registers ++
      " registers"
  | readProgram functions => "read program with " ++ Nat.repr functions ++ " functions"

def text (e : Event) : String := e.level ++ " " ++ e.message

end Event

/-- A computation that may fail, with the events up to its end. -/
structure Logged (ε α : Type) where
  outcome : Except ε α
  log : List Event := []

namespace Logged

variable {ε α β : Type}

protected def bind (x : Logged ε α) (f : α → Logged ε β) : Logged ε β :=
  match x.outcome with
  | .ok a => { outcome := (f a).outcome, log := x.log ++ (f a).log }
  | .error e => { outcome := .error e, log := x.log }

instance : Monad (Logged ε) where
  pure a := { outcome := .ok a }
  bind := Logged.bind

instance : MonadLift (Except ε) (Logged ε) := ⟨fun x => { outcome := x }⟩

def report (e : Event) : Logged ε Unit := { outcome := .ok (), log := [e] }

end Logged

end FlowGraph
