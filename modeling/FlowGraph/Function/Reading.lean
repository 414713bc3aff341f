import FlowGraph.Function.Placement
import FlowGraph.Function.Routine
import FlowGraph.Text.LineReader

/-!
# Reading functions

The text of a function is a list of statements between braces, one on a line. A line that ends in a
colon is a label, and statements go to the block of the label above them; in front of all labels
they go to the entry. A block falls through to the next label unless a `goto` sends it elsewhere.
Labels may be used before they stand, registers may not.
-/

namespace FlowGraph.Function

open Text

set_option autoImplicit false

/-- A name for a block, and whether its line has been read. -/
structure Label where
  name : String
  block : BlockId
  defined : Bool

/-- A function of which some lines have been read. -/
structure Draft where
  function : Function
  /-- The labels, in the order in which they were first met. -/
  labels : List Label
  /-- The block that takes the next statement; none after a `goto`. -/
  current : Option BlockId

namespace Draft

/-- The entry and the exit need no label line. -/
def start : Draft where
  function := .empty
  labels := [⟨"entry", .entry, true⟩, ⟨"exit", .exit, true⟩]
  current := some .entry

def findLabel? (d : Draft) (name : String) : Option BlockId :=
  (d.labels.find? (·.name = name)).map Label.block

/-- The first label that was met but never had its line. -/
def undefinedLabel? (d : Draft) : Option String :=
  (d.labels.find? (!·.defined)).map Label.name

def addLabel (d : Draft) (name : String) : Draft :=
  { d with
    function := d.function.addBlock
    labels := d.labels ++ [⟨name, d.function.nextBlock, false⟩] }

/-- Note that the label of `block` has had its line. -/
def define (d : Draft) (block : BlockId) : Draft :=
  let note (l : Label) : Label := if l.block = block then { l with defined := true } else l
  { d with labels := d.labels.map note }

def setCurrent (d : Draft) (block : Option BlockId) : Draft := { d with current := block }

end Draft

/-- A draft while a line is read into it. -/
structure DraftLine where
  line : LineCursor
  draft : Draft
  log : List Event := []

/-- A step of reading a line into a draft. -/
abbrev DraftM := EStateM Error DraftLine

namespace DraftM

variable {α : Type}

def scan (step : Scan α) : DraftM α := fun s =>
  match step s.line with
  | .ok a line => .ok a { s with line }
  | .error e line => .error e { s with line }

def fail (problem : Problem) : DraftM α := scan (Scan.fail problem)

def getDraft : DraftM Draft := do
  return (← get).draft

def modifyDraft (change : Draft → Draft) : DraftM Unit :=
  modify fun s => { s with draft := change s.draft }

def edit (change : Function → Except Fault Function) : DraftM Unit := fun s =>
  match change s.draft.function with
  | .ok f => .ok () { s with draft := { s.draft with function := f } }
  | .error e => .error (.fault e) s

/-- The block of a label, which is made when the label is first met. -/
def blockOf (name : String) : DraftM BlockId := fun s =>
  match s.draft.findLabel? name with
  | some block => .ok block s
  | none =>
    let block := s.draft.function.nextBlock
    .ok block { s with draft := s.draft.addLabel name, log := s.log ++ [.newLabel name block] }

def openLabel (name : String) : DraftM (Option BlockId) := do
  let block ← blockOf name
  if ((← getDraft).function.block? block).any Block.hasContent then
    return none
  else
    modifyDraft (·.define block)
    return some block

def addRegister (name : String) : DraftM RegId := do
  let r := (← getDraft).function.nextRegister
  edit fun f => .ok (f.addRegister name)
  return r

def obey : (r : Request) → DraftM r.Answer
  | .scan probe => scan probe.scan
  | .fail problem => fail problem
  | .blockOf name => blockOf name
  | .openLabel name => openLabel name
  | .findRegister name => do return (← getDraft).function.findRegister? name
  | .addRegister name => addRegister name
  | .current => do return (← getDraft).current
  | .setCurrent block => modifyDraft (·.setCurrent block)
  | .append block operation => edit (·.append block operation)
  | .setFallThrough block next => edit (·.setFallThrough block (some next))
  | .undefinedLabel => do return (← getDraft).undefinedLabel?
  | .function => do return (← getDraft).function

def bodyLine : DraftM (Option Function) := Routine.bodyLine.run obey

end DraftM

/-- What a reader of functions waits for. -/
inductive Stage where
  /-- The opening brace, on this line or else on the next. -/
  | header
  /-- The opening brace, on this line. -/
  | opening
  /-- A statement or the closing brace. -/
  | body (draft : Draft)

namespace Stage

/-- Read a line that holds the opening brace alone. -/
def feedOpening (line : LineCursor) : Fed Stage Function :=
  match (do Scan.symbol '{'; Scan.endOfLine : Scan Unit) line with
  | .ok () line => { verdict := .more (.body .start), line }
  | .error e line => { verdict := .failed e, line }

def feed : Stage → LineCursor → Fed Stage Function
  | .header, line =>
    if line.skipBlanks.rest.isEmpty then
      { verdict := .more .opening, line := line.skipBlanks }
    else
      feedOpening line
  | .opening, line => feedOpening line
  | .body draft, line =>
    match DraftM.bodyLine { line, draft } with
    | .ok (some f) s => { verdict := .done f, line := s.line, log := s.log }
    | .ok none s => { verdict := .more (.body s.draft), line := s.line, log := s.log }
    | .error e s => { verdict := .failed e, line := s.line, log := s.log }

def missing : Stage → Problem
  | .header | .opening => .expectedChar '{'
  | .body _ => .endOfInput

def finish (s : Stage) (line : LineCursor) : Logged Error Function :=
  { outcome := .error (line.error s.missing) }

end Stage

def lineReader : LineReader Stage Function where
  feed := Stage.feed
  finish := Stage.finish

def read (c : Cursor) : Reading Function := lineReader.run .header c.line c.below

def parse (text : String) : Logged Error Function := (read (.ofText text.toList)).result

/-- A reader that refuses to go on after a failure until it is reset. -/
structure Reader where
  active : Bool := false

namespace Reader

def reset (_ : Reader) : Reader := {}

def read (r : Reader) (c : Cursor) : Reader × Reading Function :=
  if r.active then
    (r, ⟨{ outcome := .error (.readerBusy .function) }, c⟩)
  else
    let reading := Function.read c
    match reading.result.outcome with
    | .ok _ => ({ active := false }, reading)
    | .error _ => ({ active := true }, reading)

end Reader

end FlowGraph.Function
