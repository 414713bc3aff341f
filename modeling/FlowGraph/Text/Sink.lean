import FlowGraph.Error

/-!
# Sinks

Where a text is written to. A sink may have room for a number of characters only: it takes every
character that fits and fails at the first one that does not.
-/

namespace FlowGraph.Text

set_option autoImplicit false

structure Sink where
  text : String := ""
  /-- How many more characters fit; `none` is no limit. -/
  room : Option Nat := none
deriving DecidableEq, Repr

abbrev Emit := EStateM Error Sink

namespace Sink

def put (s : String) : Emit Unit := fun sink =>
  match sink.room with
  | none => .ok () { sink with text := sink.text ++ s }
  | some room =>
    if s.length ≤ room then
      .ok () { text := sink.text ++ s, room := some (room - s.length) }
    else
      .error .sinkFull { text := sink.text ++ String.ofList (s.toList.take room), room := some 0 }

end Sink

namespace Emit

/-- Write into an empty sink with this much room: what was written, and how it ended. -/
def into (step : Emit Unit) (room : Option Nat) : String × Except Error Unit :=
  match step { room } with
  | .ok () sink => (sink.text, .ok ())
  | .error e sink => (sink.text, .error e)

def toText (step : Emit Unit) : Except Error String :=
  match step {} with
  | .ok () sink => .ok sink.text
  | .error e _ => .error e

end Emit

end FlowGraph.Text
