import FlowGraph.Function.Writing
import FlowGraph.Program.Basic

/-!
# Writing programs

Functions are written in order with an empty line between any two.
-/

namespace FlowGraph.Program

open Text

set_option autoImplicit false

def writeFunction (name : String) (f : Function) : Emit Unit := do
  Sink.put ("fun " ++ name ++ " ")
  f.write

def writeMore : List (String × Function) → Emit Unit
  | [] => return ()
  | (name, f) :: functions => do
    Sink.put "\n"
    writeFunction name f
    writeMore functions

def write (p : Program) : Emit Unit :=
  match p.functions with
  | [] => return ()
  | (name, f) :: functions => do
    writeFunction name f
    writeMore functions

def toText (p : Program) : Except Error String := p.write.toText

end FlowGraph.Program
