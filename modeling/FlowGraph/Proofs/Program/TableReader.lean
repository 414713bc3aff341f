import FlowGraph.Proofs.Program.Succession
import FlowGraph.Proofs.Reading.TableReader

/-!
# A reader of programs with tables

A reader of programs that owns one reader of functions, with tables, and has it read all functions
of the program one after the other. When a function fails, the reader of functions is left as it is,
and only a reset makes both of them ready again.
-/

namespace FlowGraph

open Text

set_option autoImplicit false

theorem Text.Cursor.length_below_nextLine {c : Cursor} (h : c.nextLine.1 = true) :
    c.nextLine.2.below.length < c.below.length := by
  unfold Cursor.nextLine at h ⊢
  cases hbelow : c.below with
  | nil =>
    rw [hbelow] at h
    cases h
  | cons l ls => exact Nat.lt_succ_self _

namespace Program

/-- What a reader of programs works on. -/
structure Desk where
  cursor : Cursor
  functions : Function.TableReader
  log : List Event := []

abbrev DeskM := EStateM Error Desk

namespace DeskM

variable {α : Type}

def scan (step : Scan α) : DeskM α := fun s =>
  match step s.cursor.line with
  | .ok a line => .ok a { s with cursor := { s.cursor with line } }
  | .error e line => .error e { s with cursor := { s.cursor with line } }

def report (event : Event) : DeskM Unit := modify fun s => { s with log := s.log ++ [event] }

def readFunction : DeskM Function := fun s =>
  let read := s.functions.read s.cursor
  let s := { cursor := read.2.cursor, functions := read.1, log := s.log ++ read.2.result.log }
  match read.2.result.outcome with
  | .ok f => .ok f s
  | .error e => .error e s

def add (p : Program) (name : String) (f : Function) : DeskM Program := fun s =>
  match p.add name f with
  | .ok p => .ok p s
  | .error e => .error e s

def readNext (p : Program) : DeskM Program := do
  if ← scan .atEnd then
    return p
  else
    let name ← scan (Stage.readHeader p)
    let f ← readFunction
    report (.readFunction name f.blockCount f.registers.length)
    add p name f

variable {p q : Program} {s s' : Desk}

/-- How the step ends that adds a function, once it has been read. -/
def addRead (p : Program) (name : String) (log : List Event)
    (read : Function.TableReader × Reading Function) : EStateM.Result Error Desk Program :=
  let s := { cursor := read.2.cursor, functions := read.1, log := log ++ read.2.result.log }
  match read.2.result.outcome with
  | .error e => .error e s
  | .ok f =>
    let s := { s with log := s.log ++ [.readFunction name f.blockCount f.registers.length] }
    match p.add name f with
    | .error e => .error e s
    | .ok q => .ok q s

theorem readFunction_bind (p : Program) (name : String) (s : Desk) :
    (do
      let f ← readFunction
      report (.readFunction name f.blockCount f.registers.length)
      add p name f : DeskM Program) s = addRead p name s.log (s.functions.read s.cursor) := by
  cases hread : (s.functions.read s.cursor).2.result.outcome with
  | error e =>
    have hfunction : readFunction s = .error e
        ⟨(s.functions.read s.cursor).2.cursor, (s.functions.read s.cursor).1,
          s.log ++ (s.functions.read s.cursor).2.result.log⟩ := by
      simp only [readFunction, hread]
    rw [step_bind_of_error hfunction]
    simp only [addRead, hread]
  | ok f =>
    have hfunction : readFunction s = .ok f
        ⟨(s.functions.read s.cursor).2.cursor, (s.functions.read s.cursor).1,
          s.log ++ (s.functions.read s.cursor).2.result.log⟩ := by
      simp only [readFunction, hread]
    rw [step_bind_of_ok hfunction]
    simp only [addRead, hread]
    change add p name f _ = _
    rw [add]
    cases p.add name f with
    | error e => rfl
    | ok q => rfl

theorem readNext_eq (p : Program) (s : Desk) : readNext p s =
    if s.cursor.line.skipBlanks.rest.isEmpty then
      .ok p { s with cursor := ⟨s.cursor.line.skipBlanks, s.cursor.below⟩ }
    else
      match Stage.readHeader p s.cursor.line.skipBlanks with
      | .error e header => .error e { s with cursor := ⟨header, s.cursor.below⟩ }
      | .ok name header => addRead p name s.log (s.functions.read ⟨header, s.cursor.below⟩) := by
  have hend : scan .atEnd s = .ok s.cursor.line.skipBlanks.rest.isEmpty
      { s with cursor := ⟨s.cursor.line.skipBlanks, s.cursor.below⟩ } := rfl
  rw [readNext, step_bind_of_ok hend]
  cases s.cursor.line.skipBlanks.rest.isEmpty with
  | true => rfl
  | false =>
    rw [if_neg Bool.false_ne_true, if_neg Bool.false_ne_true]
    cases hheader : Stage.readHeader p s.cursor.line.skipBlanks with
    | error e header =>
      refine step_bind_of_error ?_
      rw [scan, hheader]
    | ok name header =>
      have hname : scan (Stage.readHeader p)
          { s with cursor := ⟨s.cursor.line.skipBlanks, s.cursor.below⟩ } =
            .ok name { s with cursor := ⟨header, s.cursor.below⟩ } := by
        rw [scan, hheader]
      rw [step_bind_of_ok hname]
      exact readFunction_bind p name _

theorem length_below_readNext (h : readNext p s = .ok q s') :
    s'.cursor.below.length ≤ s.cursor.below.length := by
  rw [readNext_eq] at h
  split at h
  · cases h
    exact Nat.le_refl _
  · split at h
    · cases h
    · next name header _ =>
      cases hactive : s.functions.active with
      | true =>
        rw [Function.TableReader.read_of_active hactive] at h
        cases h
      | false =>
        have hread := (Function.TableReader.read_of_idle hactive ⟨header, s.cursor.below⟩).1
        unfold addRead at h
        rw [hread] at h
        split at h
        · cases h
        · dsimp only at h
          split at h
          · cases h
          · cases h
            exact LineReader.length_below_run _ _ _ _

end DeskM

def Desk.readAll (p : Program) (s : Desk) : EStateM.Result Error Desk Program :=
  match h : DeskM.readNext p s with
  | .error e s' => .error e s'
  | .ok q s' =>
    if hmore : s'.cursor.nextLine.1 = true then
      have := Nat.lt_of_lt_of_le (Cursor.length_below_nextLine hmore)
        (DeskM.length_below_readNext h)
      readAll q { s' with cursor := s'.cursor.nextLine.2 }
    else
      .ok q { s' with cursor := s'.cursor.nextLine.2, log := s'.log ++ [.readProgram q.size] }
termination_by s.cursor.below.length

namespace Desk

variable {p : Program} {name : String} {s : Desk}

/-- What is made of the text from this line on, line by line. -/
def reading (p : Program) (s : Desk) : Reading Program :=
  .after s.log (lineReader.run (.between p) s.cursor.line s.cursor.below)

def LeadsTo (reading : Reading Program) : EStateM.Result Error Desk Program → Prop
  | .ok q s =>
    reading = .after s.log (lineReader.runBelow (.between q) s.cursor.line s.cursor.below) ∧
      s.functions.active = false
  | .error e s => reading = ⟨⟨.error e, s.log⟩, s.cursor⟩

def Ends (reading : Reading Program) : EStateM.Result Error Desk Program → Prop
  | .ok q s => reading = ⟨⟨.ok q, s.log⟩, s.cursor⟩ ∧ s.functions.active = false
  | .error e s => reading = ⟨⟨.error e, s.log⟩, s.cursor⟩

theorem leadsTo_addRead {r : Function.TableReader} (hidle : r.active = false) (c : Cursor)
    (log : List Event) :
    LeadsTo (.after log (goOn p name (Function.read c))) (DeskM.addRead p name log (r.read c)) := by
  obtain ⟨hread, hactive⟩ := Function.TableReader.read_of_idle hidle c
  rw [DeskM.addRead, hread, goOn]
  cases houtcome : (Function.read c).result.outcome with
  | error e => rfl
  | ok f =>
    rw [houtcome] at hactive
    dsimp only
    cases p.add name f with
    | error e =>
      change Reading.after log _ = _
      rw [Reading.after, ← List.append_assoc]
    | ok q =>
      refine ⟨?_, hactive⟩
      rw [LineReader.after_after, ← List.append_assoc]

theorem leadsTo_readNext (hidle : s.functions.active = false) :
    LeadsTo (s.reading p) (DeskM.readNext p s) := by
  rw [DeskM.readNext_eq, reading, run_between]
  split
  · exact ⟨rfl, hidle⟩
  · cases Stage.readHeader p s.cursor.line.skipBlanks with
    | error e header =>
      change Reading.after s.log _ = _
      rw [Reading.after, List.append_nil]
    | ok name header => exact leadsTo_addRead hidle _ s.log

theorem runBelow_between (q : Program) (c : Cursor) :
    lineReader.runBelow (.between q) c.line c.below =
      if c.nextLine.1 then lineReader.run (.between q) c.nextLine.2.line c.nextLine.2.below
      else ⟨⟨.ok q, [.readProgram q.size]⟩, c.nextLine.2⟩ := by
  unfold Cursor.nextLine
  cases c.below with
  | nil => rfl
  | cons l ls => rfl

theorem ends_readAll (hidle : s.functions.active = false) :
    Ends (s.reading p) (s.readAll p) := by
  fun_induction readAll p s with
  | case1 p s e s' h => exact (h ▸ leadsTo_readNext hidle : LeadsTo (s.reading p) (.error e s'))
  | case2 p s q s' h hmore hlt ih =>
    obtain ⟨hreading, hidle'⟩ : LeadsTo (s.reading p) (.ok q s') := h ▸ leadsTo_readNext hidle
    rw [hreading, runBelow_between, if_pos hmore]
    exact ih hidle'
  | case3 p s q s' h hmore =>
    obtain ⟨hreading, hidle'⟩ : LeadsTo (s.reading p) (.ok q s') := h ▸ leadsTo_readNext hidle
    rw [hreading, runBelow_between, if_neg hmore]
    exact ⟨rfl, hidle'⟩

end Desk

/-- A reader over one text with a reader of functions of its own. -/
structure TableReader where
  cursor : Cursor
  policy : DuplicatePolicy := .reject
  active : Bool := false
  functions : Function.TableReader := {}

namespace TableReader

def reset (r : TableReader) : TableReader :=
  { r with active := false, functions := r.functions.reset }

def desk (r : TableReader) : Desk := { cursor := r.cursor, functions := r.functions }

/-- Put everything away. The reader is ready for more only after a success. -/
def putAway (r : TableReader) :
    EStateM.Result Error Desk Program → TableReader × Logged Error Program
  | .ok p s =>
    ({ r with cursor := s.cursor, functions := s.functions, active := false }, ⟨.ok p, s.log⟩)
  | .error e s =>
    ({ r with cursor := s.cursor, functions := s.functions, active := true }, ⟨.error e, s.log⟩)

def read (r : TableReader) : TableReader × Logged Error Program :=
  if r.active then
    (r, { outcome := .error (.readerBusy .program) })
  else
    r.putAway (r.desk.readAll { policy := r.policy })

end TableReader

section matching

variable {q : Reader} {r : TableReader}

theorem Reader.read_of_active (h : q.active = true) :
    q.read = (q, { outcome := .error (.readerBusy .program) }) := if_pos h

theorem Reader.read_of_idle (h : q.active = false) : q.read =
    ({ q with
        cursor := (Program.read q.policy q.cursor).cursor
        active := !(Program.read q.policy q.cursor).result.outcome.isOk },
      (Program.read q.policy q.cursor).result) := by
  refine (if_neg (by rw [h]; exact Bool.false_ne_true)).trans ?_
  dsimp only
  split
  · next hok => rw [hok, h]; rfl
  · next herror => rw [herror]; rfl

/-- The readers are at the same place. If they are ready, the reader of functions is so, too. -/
structure TableReader.Matches (r : TableReader) (q : Reader) : Prop where
  cursor : r.cursor = q.cursor
  policy : r.policy = q.policy
  active : r.active = q.active
  idle : r.active = false → r.functions.active = false

theorem TableReader.Matches.reset (h : r.Matches q) : r.reset.Matches q.reset :=
  ⟨h.cursor, h.policy, rfl, fun _ => rfl⟩

theorem TableReader.Matches.read (h : r.Matches q) :
    r.read.2 = q.read.2 ∧ r.read.1.Matches q.read.1 := by
  cases hactive : q.active with
  | true =>
    have hread : r.read = (r, { outcome := .error (.readerBusy .program) }) :=
      if_pos (h.active.trans hactive)
    rw [hread, Reader.read_of_active hactive]
    exact ⟨rfl, h⟩
  | false =>
    have hidle : r.active = false := h.active.trans hactive
    have hread : r.read = r.putAway (r.desk.readAll { policy := r.policy }) :=
      if_neg (by rw [hidle]; exact Bool.false_ne_true)
    have hends := Desk.ends_readAll (p := { policy := r.policy }) (s := r.desk) (h.idle hidle)
    have hreading : r.desk.reading { policy := r.policy } = Program.read q.policy q.cursor := by
      rw [← h.cursor, ← h.policy]
      rfl
    rw [hreading] at hends
    rw [hread, Reader.read_of_idle hactive]
    cases hresult : r.desk.readAll { policy := r.policy } with
    | ok p s =>
      rw [hresult] at hends
      obtain ⟨hread', hfunctions⟩ := hends
      rw [hread']
      exact ⟨rfl, ⟨rfl, h.policy, rfl, fun _ => hfunctions⟩⟩
    | error e s =>
      rw [hresult] at hends
      have hread' : Program.read q.policy q.cursor = ⟨⟨.error e, s.log⟩, s.cursor⟩ := hends
      rw [hread']
      exact ⟨rfl, ⟨rfl, h.policy, rfl, nofun⟩⟩

end matching

end Program

end FlowGraph
