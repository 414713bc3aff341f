import FlowGraph.Function.Basic
import FlowGraph.Text.Cursor

/-!
# Routines

How a line of a function is read, whatever keeps the names of the function. A routine asks: for the
next token, for a block or a register by its name, for a change of the function. Who answers decides
where the names are kept.
-/

namespace FlowGraph.Function

open Text

set_option autoImplicit false

variable {α β : Type}

/-- What a routine can ask for. -/
inductive Request where
  | scan (probe : Probe)
  | fail (problem : Problem)
  /-- The block of a label, which is made when the label is first met. -/
  | blockOf (name : String)
  /-- The block of a label that has its line here; none if the block has content already. -/
  | openLabel (name : String)
  | findRegister (name : String)
  | addRegister (name : String)
  /-- The block that takes the next statement. -/
  | current
  | setCurrent (block : Option BlockId)
  | append (block : BlockId) (operation : Operation)
  | setFallThrough (block next : BlockId)
  /-- The first label that was met but never had its line. -/
  | undefinedLabel
  | function

abbrev Request.Answer : Request → Type
  | scan probe => probe.Answer
  | fail _ => Empty
  | blockOf _ => BlockId
  | openLabel _ | current => Option BlockId
  | findRegister _ => Option RegId
  | addRegister _ => RegId
  | setCurrent _ | append _ _ | setFallThrough _ _ => Unit
  | undefinedLabel => Option String
  | function => Function

inductive Routine (α : Type) where
  | done (a : α)
  | ask (request : Request) (next : request.Answer → Routine α)

namespace Routine

protected def bind : Routine α → (α → Routine β) → Routine β
  | done a, g => g a
  | ask request next, g => ask request fun x => (next x).bind g

instance : Monad Routine where
  pure := done
  bind := Routine.bind

/-- Let every request be answered. -/
def run {m : Type → Type} [Monad m] (obey : (r : Request) → m r.Answer) : Routine α → m α
  | done a => pure a
  | ask request next => obey request >>= fun x => (next x).run obey

def request (r : Request) : Routine r.Answer := ask r done

def fail (problem : Problem) : Routine α := ask (.fail problem) Empty.elim

def identifier : Routine String := request (.scan .identifier)

def keyword (word : String) : Routine Unit := request (.scan (.keyword word))

def symbol (d : Char) : Routine Unit := request (.scan (.symbol d))

def trySymbol (d : Char) : Routine Bool := request (.scan (.trySymbol d))

def nextChar : Routine Char := request (.scan .nextChar)

def peek : Routine (Option Char) := request (.scan .peek)

def atEnd : Routine Bool := request (.scan .atEnd)

def cutEnd (d : Char) : Routine Bool := request (.scan (.cutEnd d))

def endOfLine : Routine Unit := request (.scan .endOfLine)

def blockOf (name : String) : Routine BlockId := request (.blockOf name)

def openLabel (name : String) : Routine (Option BlockId) := request (.openLabel name)

def findRegister (name : String) : Routine (Option RegId) := request (.findRegister name)

def addRegister (name : String) : Routine RegId := request (.addRegister name)

def current : Routine (Option BlockId) := request .current

def setCurrent (block : Option BlockId) : Routine Unit := request (.setCurrent block)

def append (block : BlockId) (operation : Operation) : Routine Unit :=
  request (.append block operation)

def setFallThrough (block next : BlockId) : Routine Unit := request (.setFallThrough block next)

def undefinedLabel : Routine (Option String) := request .undefinedLabel

def function : Routine Function := request .function

def label : Routine BlockId := do
  let name ← identifier
  blockOf name

/-- Read the name of a register that has been declared or assigned. -/
def register : Routine RegId := do
  let name ← identifier
  match ← findRegister name with
  | some r => return r
  | none => fail (.unknownRegister name)

/-- The register of an assignment, which is made by its first one. -/
def resultRegister (name : String) : Routine RegId := do
  match ← findRegister name with
  | some r => return r
  | none => addRegister name

def fallInto (next : BlockId) : Routine Unit := do
  match ← current with
  | some block => if block = next then pure () else setFallThrough block next
  | none => pure ()

/-- A line `NAME:`, of which the colon has been read. A label may stand again as long as its block
has neither an instruction nor a fall-through. -/
def labelLine : Routine Unit := do
  let name ← identifier
  endOfLine
  match ← openLabel name with
  | none => fail (.duplicateLabel name)
  | some block =>
    fallInto block
    setCurrent (some block)

/-- A line `reg NAME`, of which `reg` has been read. -/
def registerLine : Routine Unit := do
  let name ← identifier
  endOfLine
  if (← findRegister name).isSome then
    fail (.duplicateRegister name)
  else
    let _ ← addRegister name

/-- A line `NAME := LEFT OP RIGHT`, of which the colon has been read. -/
def assignmentLine (name : String) (block : BlockId) : Routine Unit := do
  symbol '='
  let lhs ← register
  let c ← nextChar
  match ArithOp.ofChar? c with
  | none => fail (.unknownOperator c)
  | some op =>
    let rhs ← register
    endOfLine
    let result ← resultRegister name
    append block (.arith op lhs rhs result)

/-- A line `goto LABEL`, of which `goto` has been read. -/
def gotoLine (block : BlockId) : Routine Unit := do
  let target ← label
  endOfLine
  setFallThrough block target
  setCurrent none

/-- A line `if (NAME) goto LABEL`, of which `if` has been read. -/
def branchLine (block : BlockId) : Routine Unit := do
  symbol '('
  let cond ← register
  symbol ')'
  keyword "goto"
  let target ← label
  endOfLine
  append block (.branch cond (some target))

def nopLine (block : BlockId) : Routine Unit := do
  endOfLine
  append block .nop

/-- A statement that belongs to a block, of which the first name has been read. -/
def instructionLine (name : String) : Routine Unit := do
  match ← current with
  | none => fail .expectedLabel
  | some block =>
    if ← trySymbol ':' then
      assignmentLine name block
    else if name = "goto" then
      gotoLine block
    else if name = "if" then
      branchLine block
    else if name = "nop" then
      nopLine block
    else
      fail .unknownInstruction

/-- The closing brace, which has been read. The last block falls through to the exit. -/
def closingLine : Routine Function := do
  endOfLine
  match ← undefinedLabel with
  | some name => fail (.undefinedLabel name)
  | none =>
    fallInto .exit
    function

/-- Any line between the braces, or the closing brace, which completes the function. -/
def bodyLine : Routine (Option Function) := do
  if ← trySymbol '}' then
    let f ← closingLine
    return some f
  else if ← atEnd then
    return none
  else if ← cutEnd ':' then
    labelLine
    return none
  else
    let name ← identifier
    if name = "reg" then
      if (← peek) = some ':' then
        instructionLine name
      else
        registerLine
    else
      instructionLine name
    return none

section run

variable {m n : Type → Type} [Monad m] [Monad n] {obey : (r : Request) → m r.Answer}
  {obey' : (r : Request) → n r.Answer}

theorem run_bind [LawfulMonad m] (x : Routine α) (g : α → Routine β) :
    (x >>= g).run obey = x.run obey >>= fun a => (g a).run obey := by
  induction x with
  | done a => exact (pure_bind a fun a => (g a).run obey).symm
  | ask request next ih =>
    change (obey request >>= fun x => (next x >>= g).run obey) =
      (obey request >>= fun x => (next x).run obey) >>= fun a => (g a).run obey
    rw [bind_assoc]
    exact congrArg _ (funext ih)

theorem run_request [LawfulMonad m] (r : Request) : (request r).run obey = obey r :=
  bind_pure (obey r)

/-- If two ways to answer agree on every request, they agree on every routine. -/
theorem run_related {R : (α : Type) → m α → n α → Prop}
    (hpure : ∀ {α : Type} (a : α), R α (pure a) (pure a))
    (hbind : ∀ {α β : Type} {x : m α} {y : n α} {g : α → m β} {k : α → n β}, R α x y →
      (∀ a, R β (g a) (k a)) → R β (x >>= g) (y >>= k))
    (hobey : ∀ r, R r.Answer (obey r) (obey' r)) (x : Routine α) :
    R α (x.run obey) (x.run obey') := by
  induction x with
  | done a => exact hpure a
  | ask request next ih => exact hbind (hobey request) ih

/-- What every answer has, every routine has. -/
theorem run_holds {P : (α : Type) → m α → Prop} (hpure : ∀ {α : Type} (a : α), P α (pure a))
    (hbind : ∀ {α β : Type} {x : m α} {g : α → m β}, P α x → (∀ a, P β (g a)) → P β (x >>= g))
    (hobey : ∀ r, P r.Answer (obey r)) (x : Routine α) : P α (x.run obey) := by
  induction x with
  | done a => exact hpure a
  | ask request next ih => exact hbind (hobey request) ih

end run

end Routine

end FlowGraph.Function
