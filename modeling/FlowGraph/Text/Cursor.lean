import FlowGraph.Error
import FlowGraph.Text.Alphabetic
import FlowGraph.Text.Blank
import FlowGraph.Text.Lines
import FlowGraph.Text.Numeric

/-!
# Cursors

A `LineCursor` reads one line from left to right: a number sign hides the rest of the line, and
blanks separate. A `Cursor` adds the lines below. A reading step that fails keeps the cursor at the
place where it failed, and its error names this place.
-/

namespace FlowGraph.Text

set_option autoImplicit false

/-- A place in a line. -/
structure LineCursor where
  /-- The number of the line; the first is one. -/
  number : Nat := 1
  /-- How many characters of the line have been read. -/
  taken : Nat := 0
  /-- What is left to read of the line. -/
  rest : List Char := []
deriving DecidableEq, Repr

/-- A step of reading within a line. -/
abbrev Scan := EStateM Error LineCursor

/-- Where identifiers start. -/
def isIdStart (c : Char) : Bool := isAlphabetic c || c == '_'

/-- How identifiers go on. -/
def isIdRest (c : Char) : Bool := isAlphabetic c || isNumeric c || c == '_'

namespace LineCursor

/-- The part of a line in front of its comment. -/
def visible (line : List Char) : List Char := line.takeWhile (· ≠ '#')

def start (number : Nat) (line : List Char) : LineCursor := { number, rest := visible line }

/-- The column of the next character; the first is one. -/
def column (c : LineCursor) : Nat := c.taken + 1

def error (c : LineCursor) (problem : Problem) : Error := .parse c.number c.column problem

def advance (c : LineCursor) (n : Nat) : LineCursor :=
  { c with taken := c.taken + n, rest := c.rest.drop n }

def skipBlanks (c : LineCursor) : LineCursor := c.advance (c.rest.takeWhile isBlank).length

def skipRest (c : LineCursor) : LineCursor := c.advance c.rest.length

end LineCursor

namespace Scan

variable {α : Type}

def fail (problem : Problem) : Scan α := fun c => .error (c.error problem) c

def skipBlanks : Scan Unit := fun c => .ok () c.skipBlanks

/-- The next character that is not blank, which is not read. -/
def peek : Scan (Option Char) := fun c => .ok c.skipBlanks.rest.head? c.skipBlanks

/-- Whether only blanks are left. -/
def atEnd : Scan Bool := fun c => .ok c.skipBlanks.rest.isEmpty c.skipBlanks

/-- Read the next character that is not blank. -/
def nextChar : Scan Char := do
  match ← peek with
  | some d =>
    modify (·.advance 1)
    return d
  | none => fail .endOfLine

/-- Read the next character that is not blank if it is `d`. -/
def trySymbol (d : Char) : Scan Bool := do
  if (← peek) = some d then
    modify (·.advance 1)
    return true
  else
    return false

/-- If the last character of the line that is not blank is `d`, hide it and what follows. -/
def cutEnd (d : Char) : Scan Bool := fun c =>
  match c.rest.reverse.dropWhile isBlank with
  | [] => .ok false c
  | last :: front => if last = d then .ok true { c with rest := front.reverse } else .ok false c

def symbol (d : Char) : Scan Unit := do
  if ← trySymbol d then
    return ()
  else
    fail (.expectedChar d)

def endOfLine : Scan Unit := do
  if ← atEnd then
    return ()
  else
    fail .trailingText

/-- Read the longest identifier that starts at the next character that is not blank. -/
def identifier : Scan String := fun c =>
  let c := c.skipBlanks
  match c.rest with
  | d :: ds =>
    if isIdStart d then
      let tail := ds.takeWhile isIdRest
      .ok (String.ofList (d :: tail)) (c.advance (tail.length + 1))
    else
      .error (c.error .expectedIdentifier) c
  | [] => .error (c.error .expectedIdentifier) c

/-- Read exactly this identifier; if another one comes, or none, nothing but blanks is read. -/
def keyword (word : String) : Scan Unit := fun c =>
  let c := c.skipBlanks
  match identifier c with
  | .ok id next =>
    if id = word then .ok () next else .error (c.error (.expectedKeyword word)) c
  | .error _ _ => .error (c.error (.expectedKeyword word)) c

end Scan

/-- A step of reading within a line, by its name. -/
inductive Probe where
  | identifier
  | keyword (word : String)
  | symbol (d : Char)
  | trySymbol (d : Char)
  | nextChar
  | peek
  | atEnd
  | cutEnd (d : Char)
  | endOfLine

namespace Probe

abbrev Answer : Probe → Type
  | identifier => String
  | nextChar => Char
  | peek => Option Char
  | trySymbol _ | atEnd | cutEnd _ => Bool
  | keyword _ | symbol _ | endOfLine => Unit

def scan : (p : Probe) → Scan p.Answer
  | identifier => Scan.identifier
  | keyword word => Scan.keyword word
  | symbol d => Scan.symbol d
  | trySymbol d => Scan.trySymbol d
  | nextChar => Scan.nextChar
  | peek => Scan.peek
  | atEnd => Scan.atEnd
  | cutEnd d => Scan.cutEnd d
  | endOfLine => Scan.endOfLine

end Probe

/-- A place in a text. -/
structure Cursor where
  line : LineCursor := {}
  /-- The lines below the current one. -/
  below : List (List Char) := []
deriving DecidableEq, Repr

namespace Cursor

/-- The start of the first of these lines; a text without lines reads like an empty line. -/
def ofLines : List (List Char) → Cursor
  | [] => {}
  | line :: below => { line := .start 1 line, below }

def ofText (text : List Char) : Cursor := ofLines (lines text)

/-- Go to the next line. On the last line go to its end, and say so. -/
def nextLine (c : Cursor) : Bool × Cursor :=
  match c.below with
  | line :: below => (true, { line := .start (c.line.number + 1) line, below })
  | [] => (false, { c with line := c.line.skipRest })

/-- Take a reading step within the current line. -/
def scan {α : Type} (c : Cursor) (step : Scan α) : Except Error α × Cursor :=
  match step c.line with
  | .ok a line => (.ok a, { c with line })
  | .error e line => (.error e, { c with line })

end Cursor

end FlowGraph.Text
