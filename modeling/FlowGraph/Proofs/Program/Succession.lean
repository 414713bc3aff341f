import FlowGraph.Proofs.Reading.Runs

/-!
# Functions in succession

A program is read function by function: within a program a function is read as it is alone, and then
the reader goes on below it.
-/

namespace FlowGraph.Program

open Text

set_option autoImplicit false

variable {p : Program} {name : String} {stage : Function.Stage} {line : LineCursor}
  {below : List (List Char)}

/-- Add the function that has been read and go on below it. -/
def goOn (p : Program) (name : String) (reading : Reading Function) : Reading Program :=
  match reading.result.outcome with
  | .error e => ⟨⟨.error e, reading.result.log⟩, reading.cursor⟩
  | .ok f =>
    let log := reading.result.log ++ [.readFunction name f.blockCount f.registers.length]
    match p.add name f with
    | .error e => ⟨⟨.error e, log⟩, reading.cursor⟩
    | .ok q =>
      .after log (lineReader.runBelow (.between q) reading.cursor.line reading.cursor.below)

theorem goOn_after (p : Program) (name : String) (log : List Event) (reading : Reading Function) :
    goOn p name (.after log reading) = .after log (goOn p name reading) := by
  obtain ⟨⟨outcome, log'⟩, c⟩ := reading
  cases outcome with
  | error e => rfl
  | ok f =>
    simp only [goOn, Reading.after]
    cases p.add name f with
    | error e => simp only [List.append_assoc]
    | ok q => simp only [List.append_assoc]

theorem run_within_of_below (hbelow : ∀ (stage : Function.Stage) (line : LineCursor),
      lineReader.runBelow (.within p name stage) line below =
        goOn p name (Function.lineReader.runBelow stage line below)) :
    lineReader.run (.within p name stage) line below =
      goOn p name (Function.lineReader.run stage line below) := by
  have hfeed : lineReader.feed (.within p name stage) line =
      Stage.ofFunction p name (stage.feed line) := rfl
  have hfeed' : Function.lineReader.feed stage line = stage.feed line := rfl
  rw [LineReader.run_eq, LineReader.run_eq, hfeed, hfeed', Stage.ofFunction]
  cases (stage.feed line).verdict with
  | failed e => rfl
  | more stage' =>
    dsimp only
    rw [hbelow, goOn_after]
  | done f =>
    dsimp only [goOn]
    cases p.add name f with
    | error e => rfl
    | ok q => rfl

theorem runBelow_within (stage : Function.Stage) (line : LineCursor) :
    lineReader.runBelow (.within p name stage) line below =
      goOn p name (Function.lineReader.runBelow stage line below) := by
  induction below generalizing stage line with
  | nil => rfl
  | cons l below ih => exact run_within_of_below ih

/-- Within a program a function is read as it is alone. -/
theorem run_within : lineReader.run (.within p name stage) line below =
    goOn p name (Function.lineReader.run stage line below) :=
  run_within_of_below runBelow_within

/-- The next function starts on the line, or the line is blank. -/
theorem run_between (p : Program) (c : Cursor) : lineReader.run (.between p) c.line c.below =
    if c.line.skipBlanks.rest.isEmpty then
      lineReader.runBelow (.between p) c.line.skipBlanks c.below
    else
      match Stage.readHeader p c.line.skipBlanks with
      | .ok name header => goOn p name (Function.read ⟨header, c.below⟩)
      | .error e header => ⟨⟨.error e, []⟩, ⟨header, c.below⟩⟩ := by
  have hfeed : lineReader.feed (.between p) c.line = Stage.feed (.between p) c.line := rfl
  rw [Stage.feed] at hfeed
  split
  · next hempty =>
    rw [if_pos hempty] at hfeed
    rw [LineReader.run_eq, hfeed]
    rfl
  · next hmore =>
    rw [if_neg hmore] at hfeed
    cases hheader : Stage.readHeader p c.line.skipBlanks with
    | ok name header =>
      rw [hheader] at hfeed
      exact (LineReader.run_congr (r := lineReader) hfeed).trans run_within
    | error e header =>
      rw [hheader] at hfeed
      rw [LineReader.run_eq, hfeed]

end FlowGraph.Program
