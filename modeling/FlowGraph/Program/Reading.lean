import FlowGraph.Function.Reading
import FlowGraph.Program.Basic

/-!
# Reading programs

The text of a program is a list of functions, each after the word `fun` and its name. Empty lines
and comments may stand between functions.
-/

namespace FlowGraph.Program

open Text

set_option autoImplicit false

/-- What a reader of programs waits for. -/
inductive Stage where
  /-- The next function, or the end. -/
  | between (program : Program)
  /-- The rest of the function `name`. -/
  | within (program : Program) (name : String) (stage : Function.Stage)

namespace Stage

/-- Go on after a line of the function `name`. -/
def ofFunction (p : Program) (name : String) (fed : Fed Function.Stage Function) :
    Fed Stage Program :=
  match fed.verdict with
  | .more stage => { fed with verdict := .more (.within p name stage) }
  | .failed e => { fed with verdict := .failed e }
  | .done f =>
    let log := fed.log ++ [.readFunction name f.blockCount f.registers.length]
    match p.add name f with
    | .ok p => { fed with verdict := .more (.between p), log }
    | .error e => { fed with verdict := .failed e, log }

/-- Read `fun NAME`. A name that is taken is a problem only if duplicates are rejected. -/
def readHeader (p : Program) : Scan String := do
  Scan.keyword "fun"
  let name ← Scan.identifier
  if p.policy = .reject ∧ (p.find? name).isSome then
    Scan.fail (.duplicateFunction name)
  else
    return name

def feed : Stage → LineCursor → Fed Stage Program
  | .between p, line =>
    let line := line.skipBlanks
    if line.rest.isEmpty then
      { verdict := .more (.between p), line }
    else
      match readHeader p line with
      | .ok name line => ofFunction p name (Function.Stage.header.feed line)
      | .error e line => { verdict := .failed e, line }
  | .within p name stage, line => ofFunction p name (stage.feed line)

def finish : Stage → LineCursor → Logged Error Program
  | .between p, _ => { outcome := .ok p, log := [.readProgram p.size] }
  | .within _ _ stage, line => { outcome := .error (line.error stage.missing) }

end Stage

def lineReader : LineReader Stage Program where
  feed := Stage.feed
  finish := Stage.finish

def read (policy : DuplicatePolicy) (c : Cursor) : Reading Program :=
  lineReader.run (.between { policy }) c.line c.below

def parse (policy : DuplicatePolicy) (text : String) : Logged Error Program :=
  (read policy (.ofText text.toList)).result

/-- Read the bytes of a file, if there is one. An empty file is an empty program. -/
def ofFile (policy : DuplicatePolicy) : Option (List UInt8) → Logged Error Program
  | none => { outcome := .error .fileNotFound }
  | some [] => { outcome := .ok { policy } }
  | some bytes =>
    match Utf8.decode bytes with
    | .ok text => (read policy (.ofText text)).result
    | .error flaw => { outcome := .error (.encoding flaw) }

/-- A reader over one text that refuses to go on after a failure until it is reset. A reset does not
go back in the text. -/
structure Reader where
  cursor : Cursor
  policy : DuplicatePolicy := .reject
  active : Bool := false

namespace Reader

def reset (r : Reader) : Reader := { r with active := false }

def read (r : Reader) : Reader × Logged Error Program :=
  if r.active then
    (r, { outcome := .error (.readerBusy .program) })
  else
    let reading := Program.read r.policy r.cursor
    match reading.result.outcome with
    | .ok _ => ({ r with cursor := reading.cursor }, reading.result)
    | .error _ => ({ r with cursor := reading.cursor, active := true }, reading.result)

end Reader

end FlowGraph.Program
