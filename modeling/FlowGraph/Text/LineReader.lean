import FlowGraph.Event
import FlowGraph.Text.Cursor

/-!
# Line-fed readers

A reader that takes a text line by line. Between two lines all it knows is its state, so what it
makes of the lines below depends on the lines above through this state only.
-/

namespace FlowGraph.Text

set_option autoImplicit false

variable {σ α : Type}

/-- What a reader makes of a line. -/
inductive Verdict (σ α : Type) where
  /-- The next line is needed. -/
  | more (state : σ)
  | done (value : α)
  | failed (error : Error)

/-- The result of reading one line. -/
structure Fed (σ α : Type) where
  verdict : Verdict σ α
  /-- How far the line was read. -/
  line : LineCursor
  log : List Event := []

structure LineReader (σ α : Type) where
  /-- Read on in a line. -/
  feed : σ → LineCursor → Fed σ α
  /-- Conclude at the end of the last line. -/
  finish : σ → LineCursor → Logged Error α

/-- The result of reading and how far the text was read. -/
structure Reading (α : Type) where
  result : Logged Error α
  cursor : Cursor

/-- The same reading after some more events. -/
def Reading.after (log : List Event) (r : Reading α) : Reading α :=
  { r with result := { r.result with log := log ++ r.result.log } }

/-- Read on in a line and then in the lines below, until the reader has done or failed. -/
def LineReader.run (r : LineReader σ α) (state : σ) (line : LineCursor)
    (below : List (List Char)) : Reading α :=
  let fed := r.feed state line
  match fed.verdict with
  | .done value => ⟨⟨.ok value, fed.log⟩, ⟨fed.line, below⟩⟩
  | .failed error => ⟨⟨.error error, fed.log⟩, ⟨fed.line, below⟩⟩
  | .more state =>
    match below with
    | [] =>
      let last := fed.line.skipRest
      Reading.after fed.log ⟨r.finish state last, ⟨last, []⟩⟩
    | next :: below =>
      Reading.after fed.log (r.run state (.start (fed.line.number + 1) next) below)

end FlowGraph.Text
