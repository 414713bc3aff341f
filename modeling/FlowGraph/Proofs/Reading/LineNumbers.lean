import FlowGraph.Program.Reading
import FlowGraph.Proofs.Outcome

/-!
# Line numbers

The readers take no notice of the number of a line. On another line they do the same, except that
an error names this line and the cursor stays on it.
-/

namespace FlowGraph

open Text

set_option autoImplicit false

def Error.onLine (n : Nat) : Error → Error
  | .parse _ column problem => .parse n column problem
  | e => e

def Text.LineCursor.onLine (n : Nat) (c : LineCursor) : LineCursor := { c with number := n }

def Function.DraftLine.onLine (n : Nat) (s : DraftLine) : DraftLine :=
  { s with line := s.line.onLine n }

section steps

variable {σ α β : Type} {onLine : Nat → σ → σ}

/-- A step that does the same on every line, where `onLine` puts a state on a line. -/
def NumberFree (onLine : Nat → σ → σ) (step : EStateM Error σ α) : Prop :=
  ∀ n s, step (onLine n s) =
    match step s with
    | .ok a t => .ok a (onLine n t)
    | .error e t => .error (e.onLine n) (onLine n t)

namespace NumberFree

theorem pure (a : α) : NumberFree onLine (Pure.pure a) := fun _ _ => rfl

theorem bind {x : EStateM Error σ α} {g : α → EStateM Error σ β} (hx : NumberFree onLine x)
    (hg : ∀ a, NumberFree onLine (g a)) : NumberFree onLine (x >>= g) := by
  intro n s
  have hstep := hx n s
  cases h : x s with
  | ok a t =>
    rw [h] at hstep
    rw [step_bind_of_ok hstep, step_bind_of_ok h, hg a n t]
  | error e t =>
    rw [h] at hstep
    rw [step_bind_of_error hstep, step_bind_of_error h]

theorem ite {p : Prop} [Decidable p] {x y : EStateM Error σ α} (hx : NumberFree onLine x)
    (hy : NumberFree onLine y) : NumberFree onLine (if p then x else y) := by
  split
  · exact hx
  · exact hy

end NumberFree

end steps

namespace Text.Scan

variable {α : Type}

/-- A step within a line that does the same on every line. -/
abbrev Free (step : Scan α) : Prop := NumberFree LineCursor.onLine step

theorem free_fail (problem : Problem) : Free (fail problem : Scan α) := fun _ _ => rfl

theorem free_peek : Free peek := fun _ _ => rfl

theorem free_atEnd : Free atEnd := fun _ _ => rfl

theorem free_advance (k : Nat) : Free (modify (·.advance k)) := fun _ _ => rfl

theorem free_nextChar : Free nextChar := by
  refine .bind free_peek fun next => ?_
  cases next with
  | none => exact free_fail _
  | some d => exact .bind (free_advance 1) fun _ => .pure d

theorem free_trySymbol (d : Char) : Free (trySymbol d) :=
  .bind free_peek fun _ => .ite (.bind (free_advance 1) fun _ => .pure true) (.pure false)

theorem free_symbol (d : Char) : Free (symbol d) :=
  .bind (free_trySymbol d) fun _ => .ite (.pure ()) (free_fail _)

theorem free_endOfLine : Free endOfLine :=
  .bind free_atEnd fun _ => .ite (.pure ()) (free_fail _)

theorem free_cutEnd (d : Char) : Free (cutEnd d) := by
  intro n c
  simp only [cutEnd, LineCursor.onLine]
  cases c.rest.reverse.dropWhile isBlank with
  | nil => rfl
  | cons last front => by_cases h : last = d <;> simp [h]

theorem free_identifier : Free identifier := by
  intro n c
  have hskip : (c.onLine n).skipBlanks = c.skipBlanks.onLine n := rfl
  have hrest : (c.skipBlanks.onLine n).rest = c.skipBlanks.rest := rfl
  simp only [identifier, hskip, hrest]
  cases c.skipBlanks.rest with
  | nil => rfl
  | cons d ds =>
    by_cases h : isIdStart d = true
    · simp only [h, if_true]
      rfl
    · simp only [h]
      rfl

theorem free_keyword (word : String) : Free (keyword word) := by
  intro n c
  have hskip : (c.onLine n).skipBlanks = c.skipBlanks.onLine n := rfl
  simp only [keyword, hskip, free_identifier n c.skipBlanks]
  cases identifier c.skipBlanks with
  | error e t => rfl
  | ok id t =>
    by_cases h : id = word
    · simp [h]
    · simp only [h, if_false]
      rfl

end Text.Scan

theorem Text.Probe.free (p : Probe) : Scan.Free p.scan := by
  cases p with
  | identifier => exact Scan.free_identifier
  | keyword word => exact Scan.free_keyword word
  | symbol d => exact Scan.free_symbol d
  | trySymbol d => exact Scan.free_trySymbol d
  | nextChar => exact Scan.free_nextChar
  | peek => exact Scan.free_peek
  | atEnd => exact Scan.free_atEnd
  | cutEnd d => exact Scan.free_cutEnd d
  | endOfLine => exact Scan.free_endOfLine

namespace Function.DraftM

variable {α : Type}

/-- A step of reading a line into a draft that does the same on every line. -/
abbrev Free (step : DraftM α) : Prop := NumberFree DraftLine.onLine step

theorem free_scan {step : Scan α} (h : Scan.Free step) : Free (scan step) := by
  intro n s
  have hline : (s.onLine n).line = s.line.onLine n := rfl
  simp only [scan, hline, h n s.line]
  cases step s.line <;> rfl

theorem free_fail (problem : Problem) : Free (fail problem : DraftM α) :=
  free_scan (Scan.free_fail problem)

theorem free_getDraft : Free getDraft := fun _ _ => rfl

theorem free_modifyDraft (change : Draft → Draft) : Free (modifyDraft change) := fun _ _ => rfl

theorem free_edit (change : Function → Except Fault Function) : Free (edit change) := by
  intro n s
  have hdraft : (s.onLine n).draft = s.draft := rfl
  simp only [edit, hdraft]
  cases change s.draft.function <;> rfl

theorem free_blockOf (name : String) : Free (blockOf name) := by
  intro n s
  have hdraft : (s.onLine n).draft = s.draft := rfl
  simp only [blockOf, hdraft]
  cases s.draft.findLabel? name <;> rfl

theorem free_openLabel (name : String) : Free (openLabel name) := by
  refine .bind (free_blockOf name) fun block => .bind free_getDraft fun d => ?_
  exact .ite (.pure none) (.bind (free_modifyDraft _) fun _ => .pure (some block))

theorem free_addRegister (name : String) : Free (addRegister name) :=
  .bind free_getDraft fun _ => .bind (free_edit _) fun _ => .pure _

theorem free_obey (r : Request) : Free (obey r) := by
  cases r with
  | scan probe => exact free_scan probe.free
  | fail problem => exact free_fail problem
  | blockOf name => exact free_blockOf name
  | openLabel name => exact free_openLabel name
  | findRegister name => exact .bind free_getDraft fun _ => .pure _
  | addRegister name => exact free_addRegister name
  | current => exact .bind free_getDraft fun _ => .pure _
  | setCurrent block => exact free_modifyDraft (·.setCurrent block)
  | append block operation => exact free_edit (·.append block operation)
  | setFallThrough block next => exact free_edit (·.setFallThrough block (some next))
  | undefinedLabel => exact .bind free_getDraft fun _ => .pure _
  | function => exact .bind free_getDraft fun _ => .pure _

theorem free_bodyLine : Free bodyLine := Routine.run_holds .pure .bind free_obey _

end Function.DraftM

section verdicts

variable {σ α : Type}

def Text.Verdict.onLine (n : Nat) : Verdict σ α → Verdict σ α
  | .failed e => .failed (e.onLine n)
  | v => v

def Text.Fed.onLine (n : Nat) (fed : Fed σ α) : Fed σ α :=
  { fed with verdict := fed.verdict.onLine n, line := fed.line.onLine n }

end verdicts

theorem Function.Stage.feedOpening_onLine (n : Nat) (line : LineCursor) :
    feedOpening (line.onLine n) = (feedOpening line).onLine n := by
  have hfree : Scan.Free (do Scan.symbol '\x7b'; Scan.endOfLine : Scan Unit) :=
    .bind (Scan.free_symbol _) fun _ => Scan.free_endOfLine
  unfold feedOpening
  rw [hfree n line]
  cases (do Scan.symbol '\x7b'; Scan.endOfLine : Scan Unit) line <;> rfl

theorem Function.Stage.feed_onLine (stage : Stage) (n : Nat) (line : LineCursor) :
    stage.feed (line.onLine n) = (stage.feed line).onLine n := by
  cases stage with
  | header =>
    change (if line.skipBlanks.rest.isEmpty = true then _ else feedOpening (line.onLine n)) =
      Fed.onLine n (if line.skipBlanks.rest.isEmpty = true then _ else feedOpening line)
    split
    · rfl
    · exact feedOpening_onLine n line
  | opening => exact feedOpening_onLine n line
  | body draft =>
    have hstep := DraftM.free_bodyLine n { line, draft }
    change DraftM.bodyLine { line := line.onLine n, draft } = _ at hstep
    simp only [feed, hstep]
    cases DraftM.bodyLine { line, draft } with
    | ok r s => cases r <;> rfl
    | error e s => rfl

theorem Function.Stage.number_feed (stage : Stage) (line : LineCursor) :
    (stage.feed line).line.number = line.number := by
  have hsame := stage.feed_onLine line.number line
  change stage.feed line = _ at hsame
  rw [hsame]
  rfl

namespace Program.Stage

theorem ofFunction_onLine (p : Program) (name : String) (n : Nat)
    (fed : Fed Function.Stage Function) :
    ofFunction p name (fed.onLine n) = (ofFunction p name fed).onLine n := by
  obtain ⟨verdict, line, log⟩ := fed
  cases verdict with
  | more stage => rfl
  | failed e => rfl
  | done f =>
    simp only [ofFunction, Fed.onLine, Verdict.onLine]
    cases hadd : p.add name f with
    | ok p' => rfl
    | error e =>
      unfold Program.add at hadd
      split at hadd
      · split at hadd <;> cases hadd
        rfl
      · cases hadd

theorem free_readHeader (p : Program) : Scan.Free (readHeader p) :=
  .bind (Scan.free_keyword _) fun _ => .bind Scan.free_identifier fun name =>
    .ite (Scan.free_fail _) (.pure name)

theorem feed_onLine (s : Stage) (n : Nat) (line : LineCursor) :
    s.feed (line.onLine n) = (s.feed line).onLine n := by
  cases s with
  | between p =>
    have hskip : (line.onLine n).skipBlanks = line.skipBlanks.onLine n := rfl
    have hrest : (line.skipBlanks.onLine n).rest = line.skipBlanks.rest := rfl
    simp only [feed, hskip, hrest, free_readHeader p n line.skipBlanks]
    split
    · rfl
    · cases readHeader p line.skipBlanks with
      | error e t => rfl
      | ok name t =>
        simp only [Function.Stage.feed_onLine]
        exact ofFunction_onLine p name n _
  | within p name stage =>
    simp only [feed, Function.Stage.feed_onLine]
    exact ofFunction_onLine p name n _

/-- A line is left on the number that it has. -/
theorem feed_number (s : Stage) (line : LineCursor) :
    s.feed line = (s.feed line).onLine line.number := feed_onLine s line.number line

end Program.Stage

end FlowGraph
