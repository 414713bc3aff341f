import FlowGraph.Error
import FlowGraph.Function.Basic

/-!
# Programs

Functions by name, in the order in which the names came up first.
-/

namespace FlowGraph

set_option autoImplicit false

/-- What happens to a function whose name is taken. -/
inductive DuplicatePolicy where
  /-- It is refused. -/
  | reject
  /-- It takes the place of the older one. -/
  | replace
deriving DecidableEq, Repr

structure Program where
  policy : DuplicatePolicy := .reject
  functions : List (String × Function) := []

namespace Program

def find? (p : Program) (name : String) : Option Function := p.functions.lookup name

def names (p : Program) : List String := p.functions.map Prod.fst

def size (p : Program) : Nat := p.functions.length

def isEmpty (p : Program) : Bool := p.functions.isEmpty

def replace (p : Program) (name : String) (f : Function) : Program :=
  { p with
    functions := p.functions.map fun entry => if entry.1 = name then (name, f) else entry }

def add (p : Program) (name : String) (f : Function) : Except Error Program :=
  if (p.find? name).isSome then
    match p.policy with
    | .reject => .error (.nameTaken name)
    | .replace => .ok (p.replace name f)
  else
    .ok { p with functions := p.functions ++ [(name, f)] }

end Program

end FlowGraph
