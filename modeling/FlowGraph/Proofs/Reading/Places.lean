import FlowGraph.Program.Reading
import FlowGraph.Proofs.Text.ByteOffsets

/-!
# Places in a text

Whatever is asked of a cursor, it stays in its text: it is on the line that its number tells, and
what is left to read of the line is a part of the line in front of the comment. So an error that is
made at a cursor names a place of the text, and so does every error of the readers.
-/

namespace FlowGraph

open Relation Text

set_option autoImplicit false

namespace Text

/-- The lines that a cursor goes through; a text without lines reads like an empty line. -/
def sheet (text : List Char) : List (List Char) :=
  match lines text with
  | [] => [[]]
  | line :: below => line :: below

/-- The place of a character, or the place right behind a line. -/
def IsPlace (text : List Char) (line column : Nat) : Prop :=
  1 ≤ line ∧ line ≤ max 1 (lines text).length ∧
    1 ≤ column ∧ column ≤ ((lines text).getD (line - 1) []).length + 1

theorem length_sheet (text : List Char) : (sheet text).length = max 1 (lines text).length := by
  unfold sheet
  cases lines text with
  | nil => rfl
  | cons line below =>
    rw [List.length_cons]
    omega

theorem getD_sheet (text : List Char) (i : Nat) :
    (sheet text).getD i [] = (lines text).getD i [] := by
  unfold sheet
  cases lines text with
  | nil => cases i <;> simp
  | cons line below => rfl

namespace LineCursor

variable {c c' : LineCursor} {line : List Char}

theorem within_start (number : Nat) (line : List Char) : (start number line).Within line :=
  ⟨[], [], (List.append_nil _).symm, rfl⟩

theorem Within.move (h : c.Within line) (hmove : c.Move c') : c'.Within line := by
  obtain ⟨before, after, hvisible, htaken⟩ := h
  cases hmove with
  | @advance n hn =>
    refine ⟨before ++ c.rest.take n, after, ?_, ?_⟩
    · change _ = before ++ c.rest.take n ++ c.rest.drop n ++ after
      rw [hvisible, List.append_assoc before (c.rest.take n), List.take_append_drop]
    · rw [List.length_append, List.length_take, Nat.min_eq_left hn, ← htaken]
      rfl
  | @cut front back hrest =>
    refine ⟨before, back ++ after, ?_, htaken⟩
    rw [hvisible, hrest]
    simp only [List.append_assoc]

theorem Within.moves (h : c.Within line) (hmoves : ReflTransGen Move c c') : c'.Within line := by
  induction hmoves with
  | refl => exact h
  | tail _ hmove ih => exact ih.move hmove

theorem number_of_moves (hmoves : ReflTransGen Move c c') : c'.number = c.number := by
  induction hmoves with
  | refl => rfl
  | tail _ hmove ih =>
    rw [← ih]
    cases hmove <;> rfl

theorem Within.column_le (h : c.Within line) : c.column ≤ line.length + 1 := by
  obtain ⟨before, after, hvisible, htaken⟩ := h
  have hle : (visible line).length ≤ line.length := (List.takeWhile_sublist _).length_le
  rw [hvisible, List.length_append, List.length_append] at hle
  rw [column, htaken]
  omega

end LineCursor

namespace Cursor

variable {c : Cursor} {text : List Char}

/-- The cursor is on one of the lines of the text. -/
def Stands (text : List Char) (c : Cursor) : Prop :=
  ∃ above line, sheet text = above ++ line :: c.below ∧ c.line.number = above.length + 1 ∧
    c.line.Within line

theorem Stands.isPlace (h : c.Stands text) : IsPlace text c.line.number c.line.column := by
  obtain ⟨above, line, hsheet, hnumber, hwithin⟩ := h
  have hline : (lines text).getD (c.line.number - 1) [] = line := by
    rw [← getD_sheet, hsheet, hnumber, Nat.add_sub_cancel]
    simp
  refine ⟨?_, ?_, ?_, ?_⟩
  · rw [hnumber]
    exact Nat.succ_pos _
  · rw [← length_sheet, hsheet, hnumber, List.length_append, List.length_cons]
    omega
  · exact Nat.succ_pos _
  · rw [hline]
    exact hwithin.column_le

theorem Stands.moves (h : c.Stands text) {line : LineCursor}
    (hmoves : ReflTransGen LineCursor.Move c.line line) : Stands text { c with line } := by
  obtain ⟨above, l, hsheet, hnumber, hwithin⟩ := h
  exact ⟨above, l, hsheet, (LineCursor.number_of_moves hmoves).trans hnumber, hwithin.moves hmoves⟩

theorem Stands.next {l : List Char} {below : List (List Char)} (h : c.Stands text)
    (hbelow : c.below = l :: below) : Stands text ⟨.start (c.line.number + 1) l, below⟩ := by
  obtain ⟨above, line, hsheet, hnumber, -⟩ := h
  refine ⟨above ++ [line], l, ?_, ?_, LineCursor.within_start _ l⟩
  · rw [hsheet, hbelow, List.append_assoc]
    rfl
  · rw [List.length_append, List.length_singleton]
    exact congrArg (· + 1) hnumber

end Cursor

end Text

/-- An error of the text names this place. -/
def Error.PointsAt (e : Error) (line : LineCursor) : Prop :=
  ∀ number column problem, e = .parse number column problem →
    number = line.number ∧ column = line.column

theorem pointsAt_error (line : LineCursor) (problem : Problem) :
    (line.error problem).PointsAt line := by
  intro number column problem' h
  cases h
  exact ⟨rfl, rfl⟩

namespace Text

variable {σ α : Type}

/-- Reading moves along the line, and an error names the place where it ends. -/
structure Fed.Stays (line : LineCursor) (fed : Fed σ α) : Prop where
  moves : ReflTransGen LineCursor.Move line fed.line
  points : ∀ e, fed.verdict = .failed e → e.PointsAt fed.line

theorem Fed.Stays.after {line line' : LineCursor} {fed : Fed σ α}
    (hmoves : ReflTransGen LineCursor.Move line line') (h : Fed.Stays line' fed) :
    Fed.Stays line fed := ⟨hmoves.trans h.moves, h.points⟩

theorem Fed.Stays.of_verdict {line : LineCursor} {fed : Fed σ α}
    (hmoves : ReflTransGen LineCursor.Move line fed.line) (h : ∀ e, fed.verdict ≠ .failed e) :
    Fed.Stays line fed := ⟨hmoves, fun e he => absurd he (h e)⟩

/-- A reader that stays on its lines, wherever it is, names places of the text. -/
theorem LineReader.isPlace_of_run {r : LineReader σ α} {text : List Char}
    (hfeed : ∀ s line, Fed.Stays line (r.feed s line))
    (hfinish : ∀ s line e, (r.finish s line).outcome = .error e → e.PointsAt line)
    {s : σ} {line : LineCursor} {below : List (List Char)}
    (hstands : Cursor.Stands text ⟨line, below⟩) {number column : Nat} {problem : Problem}
    (h : (r.run s line below).result.outcome = .error (.parse number column problem)) :
    IsPlace text number column := by
  have hplace : ∀ {e : Error} {line' : LineCursor} {below : List (List Char)},
      Cursor.Stands text ⟨line', below⟩ → e.PointsAt line' →
      e = .parse number column problem → IsPlace text number column := by
    intro e line' below hstands hpoints he
    obtain ⟨rfl, rfl⟩ := hpoints number column problem he
    exact hstands.isPlace
  induction below generalizing s line with
  | nil =>
    have hstay := hfeed s line
    have hstands' := hstands.moves hstay.moves
    cases hv : (r.feed s line).verdict with
    | done v =>
      rw [run_of_done hv] at h
      cases h
    | failed e =>
      rw [run_of_failed hv] at h
      exact hplace hstands' (hstay.points e hv) (Except.error.inj h)
    | more s' =>
      rw [run_last hv] at h
      have hlast : ReflTransGen LineCursor.Move (r.feed s line).line
          (r.feed s line).line.skipRest := .single (.advance (Nat.le_refl _))
      exact hplace (hstands'.moves hlast) (hfinish s' _ _ h) rfl
  | cons l ls ih =>
    have hstay := hfeed s line
    have hstands' := hstands.moves hstay.moves
    cases hv : (r.feed s line).verdict with
    | done v =>
      rw [run_of_done hv] at h
      cases h
    | failed e =>
      rw [run_of_failed hv] at h
      exact hplace hstands' (hstay.points e hv) (Except.error.inj h)
    | more s' =>
      rw [run_of_more hv] at h
      exact ih (hstands'.next rfl) h

end Text

namespace Function

theorem DraftLine.line_moves {s t : DraftLine} (h : ReflTransGen DraftLine.Move s t) :
    ReflTransGen LineCursor.Move s.line t.line := by
  induction h with
  | refl => exact .refl
  | tail _ hmove ih =>
    cases hmove with
    | line hline => exact ih.tail hline
    | addLabel _ _ | define _ | setCurrent _ | addRegister _ | rework _ => exact ih

theorem DraftLine.Stops.pointsAt {s : DraftLine} {e : Error} (h : s.Stops e) :
    e.PointsAt s.line := by
  obtain ⟨problem, rfl⟩ | ⟨fault, rfl⟩ := h
  · exact pointsAt_error s.line problem
  · exact nofun

theorem Stage.feedOpening_stays (line : LineCursor) : Fed.Stays line (feedOpening line) := by
  have hwalks : Scan.Walks (do Scan.symbol '\x7b'; Scan.endOfLine : Scan Unit) :=
    .bind (Scan.walks_symbol _) fun _ => Scan.walks_endOfLine
  unfold feedOpening
  split
  · next hstep => exact .of_verdict (hwalks.of_ok hstep) (by simp)
  · next hstep =>
    obtain ⟨hmoves, problem, rfl⟩ := hwalks.of_error hstep
    refine ⟨hmoves, ?_⟩
    intro e he
    cases he
    exact pointsAt_error _ problem

theorem Stage.feed_stays (stage : Stage) (line : LineCursor) :
    Fed.Stays line (stage.feed line) := by
  cases stage with
  | header =>
    rw [feed_header]
    split
    · exact .of_verdict (.single line.move_skipBlanks) (by simp)
    · exact feedOpening_stays line
  | opening => exact feedOpening_stays line
  | body d =>
    simp only [feed]
    split
    · next hline =>
      exact .of_verdict (DraftLine.line_moves (DraftM.walks_bodyLine.of_ok hline)) (by simp)
    · next hline =>
      exact .of_verdict (DraftLine.line_moves (DraftM.walks_bodyLine.of_ok hline)) (by simp)
    · next hline =>
      obtain ⟨hmoves, hstops⟩ := DraftM.walks_bodyLine.of_error hline
      refine ⟨DraftLine.line_moves hmoves, ?_⟩
      intro e he
      cases he
      exact hstops.pointsAt

theorem isPlace_of_read {text : List Char} {c : Cursor} (h : c.Stands text)
    {line column : Nat} {problem : Problem}
    (hread : (read c).result.outcome = .error (.parse line column problem)) :
    IsPlace text line column := by
  refine LineReader.isPlace_of_run (fun s line => s.feed_stays line) ?_ h hread
  intro s line e he
  cases he
  exact pointsAt_error line _

end Function

namespace Program

theorem Stage.ofFunction_stays (p : Program) (name : String) {line : LineCursor}
    {fed : Fed Function.Stage Function} (h : Fed.Stays line fed) :
    Fed.Stays line (ofFunction p name fed) := by
  unfold ofFunction
  split
  · exact .of_verdict h.moves (by simp)
  · next hfailed =>
    refine ⟨h.moves, ?_⟩
    intro e he
    cases he
    exact h.points _ hfailed
  · split
    · exact .of_verdict h.moves (by simp)
    · next hadd =>
      refine ⟨h.moves, ?_⟩
      intro e he number column problem hparse
      cases he
      subst hparse
      unfold add at hadd
      split at hadd
      · split at hadd <;> cases hadd
      · cases hadd

theorem Stage.feed_stays (stage : Stage) (line : LineCursor) :
    Fed.Stays line (stage.feed line) := by
  cases stage with
  | between p =>
    refine Fed.Stays.after (.single line.move_skipBlanks) ?_
    have hwalks : Scan.Walks (readHeader p) :=
      .bind (Scan.walks_keyword _) fun _ => .bind Scan.walks_identifier fun name =>
        .ite (Scan.walks_fail _) (.pure name)
    simp only [feed]
    split
    · exact .of_verdict .refl (by simp)
    · split
      · next hheader =>
        exact .after (hwalks.of_ok hheader) (ofFunction_stays p _ (Function.Stage.feed_stays _ _))
      · next hheader =>
        obtain ⟨hmoves, problem, rfl⟩ := hwalks.of_error hheader
        refine ⟨hmoves, ?_⟩
        intro e he
        cases he
        exact pointsAt_error _ problem
  | within p name stage => exact ofFunction_stays p name (stage.feed_stays line)

theorem isPlace_of_read {text : List Char} {c : Cursor} (h : c.Stands text)
    {policy : DuplicatePolicy} {line column : Nat} {problem : Problem}
    (hread : (read policy c).result.outcome = .error (.parse line column problem)) :
    IsPlace text line column := by
  refine LineReader.isPlace_of_run (fun s line => s.feed_stays line) ?_ h hread
  intro s line e he
  cases s with
  | between p => cases he
  | within p name stage =>
    cases he
    exact pointsAt_error line _

end Program

namespace Text

inductive Command where
  | nextLine
  | skipBlanks
  | atEnd
  | peek
  | nextChar
  | trySymbol (d : Char)
  | cutEnd (d : Char)
  | symbol (d : Char)
  | keyword (word : String)
  | endOfLine
  | identifier

inductive Reply where
  | done
  | flag (answer : Bool)
  | next (d : Option Char)
  | char (d : Char)
  | word (name : String)

section asking

variable {α : Type}

def Cursor.ask (c : Cursor) (step : Scan α) (reply : α → Reply) : Except Error Reply × Cursor :=
  ((c.scan step).1.map reply, (c.scan step).2)

def ByteCursor.ask (b : ByteCursor) (step : ByteScan α) (reply : α → Reply) :
    Option (Except Error Reply × ByteCursor) :=
  (step b).map fun (answer, b') => (answer.map reply, b')

end asking

namespace Cursor

def perform (c : Cursor) : Command → Except Error Reply × Cursor
  | .nextLine => (.ok (.flag c.nextLine.1), c.nextLine.2)
  | .skipBlanks => c.ask .skipBlanks fun _ => .done
  | .atEnd => c.ask .atEnd .flag
  | .peek => c.ask .peek .next
  | .nextChar => c.ask .nextChar .char
  | .trySymbol d => c.ask (.trySymbol d) .flag
  | .cutEnd d => c.ask (.cutEnd d) .flag
  | .symbol d => c.ask (.symbol d) fun _ => .done
  | .keyword word => c.ask (.keyword word) fun _ => .done
  | .endOfLine => c.ask .endOfLine fun _ => .done
  | .identifier => c.ask .identifier .word

def performAll (c : Cursor) : List Command → List (Except Error Reply) × Cursor
  | [] => ([], c)
  | command :: commands =>
    let rest := (c.perform command).2.performAll commands
    ((c.perform command).1 :: rest.1, rest.2)

end Cursor

namespace ByteCursor

def perform (b : ByteCursor) : Command → Option (Except Error Reply × ByteCursor)
  | .nextLine => some (.ok (.flag b.nextLine.1), b.nextLine.2)
  | .skipBlanks => b.ask .skipBlanks fun _ => .done
  | .atEnd => b.ask .atEnd .flag
  | .peek => b.ask .peek .next
  | .nextChar => b.ask .nextChar .char
  | .trySymbol d => b.ask (.trySymbol d) .flag
  | .cutEnd d => b.ask (.cutEnd d) .flag
  | .symbol d => b.ask (.symbol d) fun _ => .done
  | .keyword word => b.ask (.keyword word) fun _ => .done
  | .endOfLine => b.ask .endOfLine fun _ => .done
  | .identifier => b.ask .identifier .word

def performAll (b : ByteCursor) : List Command → Option (List (Except Error Reply) × ByteCursor)
  | [] => some ([], b)
  | command :: commands => do
    let (answer, b) ← b.perform command
    let (answers, b) ← b.performAll commands
    return (answer :: answers, b)

/-- The offsets lie in the line, at ends of characters, the first one first. -/
structure InBounds (b : ByteCursor) : Prop where
  pos_le_stop : b.pos ≤ b.stop
  stop_le_length : b.stop ≤ byteLength b.line
  pos_isBoundary : ∃ front back, b.line = front ++ back ∧ byteLength front = b.pos
  stop_isBoundary : ∃ front back, b.line = front ++ back ∧ byteLength front = b.stop

/-- Later in the text: further down, or on the same line with no more left of it at either end. -/
def Precedes (b b' : ByteCursor) : Prop :=
  b.number < b'.number ∨ b'.number = b.number ∧ b.pos ≤ b'.pos ∧ b'.stop ≤ b.stop

variable {b b' : ByteCursor} {c : Cursor} {text : List Char}

theorem Precedes.refl (b : ByteCursor) : b.Precedes b := .inr ⟨rfl, Nat.le_refl _, Nat.le_refl _⟩

theorem Precedes.trans {b₁ b₂ b₃ : ByteCursor} (h : b₁.Precedes b₂) (h' : b₂.Precedes b₃) :
    b₁.Precedes b₃ := by
  unfold Precedes at *
  omega

theorem Tracks.inBounds (h : b.Tracks c) : b.InBounds := by
  obtain ⟨before, after, hline, hpos, hstop⟩ := slice?_eq_some_iff.mp h.slice?_rest
  refine ⟨?_, ?_, ⟨before, c.line.rest ++ after, ?_, hpos⟩, before ++ c.line.rest, after, hline,
    hstop⟩
  · rw [← hpos, ← hstop, byteLength_append]
    omega
  · rw [hline, byteLength_append, hstop]
    omega
  · rw [hline, List.append_assoc]

theorem Tracks.within (h : b.Tracks c) : c.line.Within b.line := by
  obtain ⟨-, -, before, after, hvisible, htaken, -, -⟩ := h
  exact ⟨before, after, hvisible, htaken⟩

/-- The line of the cursor is the line of the text that its number tells. -/
def Stands (text : List Char) (b : ByteCursor) : Prop :=
  ∃ above, sheet text = above ++ b.line :: b.below ∧ b.number = above.length + 1

theorem stands_ofLines (text : List Char) : (ofLines (lines text)).Stands text := by
  refine ⟨[], ?_, ?_⟩
  · unfold sheet
    cases lines text <;> rfl
  · cases lines text <;> rfl

theorem Stands.line_eq (h : b.Stands text) : b.line = (lines text).getD (b.number - 1) [] := by
  obtain ⟨above, hsheet, hnumber⟩ := h
  rw [← getD_sheet, hsheet, hnumber, Nat.add_sub_cancel]
  simp

theorem Stands.cursor (h : b.Stands text) (htracks : b.Tracks c) : c.Stands text := by
  obtain ⟨above, hsheet, hnumber⟩ := h
  refine ⟨above, b.line, ?_, htracks.number.symm.trans hnumber, htracks.within⟩
  rw [← htracks.below]
  exact hsheet

theorem stands_nextLine (h : b.Stands text) : b.nextLine.2.Stands text := by
  obtain ⟨above, hsheet, hnumber⟩ := h
  unfold nextLine
  cases hbelow : b.below with
  | nil =>
    rw [hbelow] at hsheet
    exact ⟨above, hsheet, hnumber⟩
  | cons line below =>
    refine ⟨above ++ [b.line], ?_, ?_⟩
    · rw [hsheet, hbelow, List.append_assoc]
      rfl
    · rw [List.length_append, List.length_singleton]
      exact congrArg (· + 1) hnumber

theorem precedes_nextLine (h : b.InBounds) : b.Precedes b.nextLine.2 := by
  unfold nextLine
  cases b.below with
  | nil => exact .inr ⟨rfl, h.pos_le_stop, Nat.le_refl _⟩
  | cons line below => exact .inl (Nat.lt_succ_self _)

/-- One command: the answer is the same, and the offsets stay with the cursor. -/
theorem perform_eq (h : b.Tracks c) (hstands : b.Stands text) (command : Command) :
    ∃ b', b.perform command = some ((c.perform command).1, b') ∧
      b'.Tracks (c.perform command).2 ∧ b'.Stands text ∧ b.Precedes b' := by
  have hask : ∀ {α : Type} {byteStep : ByteScan α} {step : Scan α} (reply : α → Reply),
      ByteScan.Follows byteStep step →
      ∃ b', b.ask byteStep reply = some ((c.ask step reply).1, b') ∧
        b'.Tracks (c.ask step reply).2 ∧ b'.Stands text ∧ b.Precedes b' := by
    intro α byteStep step reply hfollows
    obtain ⟨n, hstep, htracks⟩ := hfollows b c h
    refine ⟨_, ?_, htracks, hstands, .inr ⟨rfl, Nat.le_add_right _ _, Nat.le_refl _⟩⟩
    rw [ask, hstep]
    rfl
  cases command with
  | nextLine =>
    obtain ⟨hanswer, htracks⟩ := h.nextLine
    refine ⟨_, ?_, htracks, stands_nextLine hstands, precedes_nextLine h.inBounds⟩
    rw [perform, hanswer]
    rfl
  | cutEnd d =>
    obtain ⟨stop, hstep, htracks, hle⟩ := ByteScan.cutEnd_eq d h
    refine ⟨_, ?_, htracks, hstands, .inr ⟨rfl, Nat.le_refl _, hle⟩⟩
    rw [perform, ask, hstep]
    rfl
  | skipBlanks => exact hask _ ByteScan.follows_skipBlanks
  | atEnd => exact hask _ ByteScan.follows_atEnd
  | peek => exact hask _ ByteScan.follows_peek
  | nextChar => exact hask _ ByteScan.follows_nextChar
  | trySymbol d => exact hask _ (ByteScan.follows_trySymbol d)
  | symbol d => exact hask _ (ByteScan.follows_symbol d)
  | keyword word => exact hask _ (ByteScan.follows_keyword word)
  | endOfLine => exact hask _ ByteScan.follows_endOfLine
  | identifier => exact hask _ ByteScan.follows_identifier

/-- All commands, one after the other. -/
theorem performAll_eq (h : b.Tracks c) (hstands : b.Stands text) (commands : List Command) :
    ∃ b', b.performAll commands = some ((c.performAll commands).1, b') ∧
      b'.Tracks (c.performAll commands).2 ∧ b'.Stands text ∧ b.Precedes b' := by
  induction commands generalizing b c with
  | nil => exact ⟨b, rfl, h, hstands, .refl b⟩
  | cons command commands ih =>
    obtain ⟨b₁, hstep, htracks, hstands₁, hprecedes⟩ := perform_eq h hstands command
    obtain ⟨b₂, hrest, htracks₂, hstands₂, hprecedes₂⟩ := ih htracks hstands₁
    refine ⟨b₂, ?_, htracks₂, hstands₂, hprecedes.trans hprecedes₂⟩
    rw [performAll, hstep]
    change (b₁.performAll commands).bind _ = _
    rw [hrest]
    rfl

end ByteCursor

/-- An answer that is an error names the place that the cursor has got to. -/
theorem Cursor.error_of_perform {c : Cursor} {command : Command} {e : Error}
    (h : (c.perform command).1 = .error e) :
    ∃ problem, e = (c.perform command).2.line.error problem := by
  have hask : ∀ {α : Type} {step : Scan α} (reply : α → Reply), Scan.Walks step →
      (c.ask step reply).1 = .error e → ∃ problem, e = (c.ask step reply).2.line.error problem := by
    intro α step reply hwalks h
    cases hstep : step c.line with
    | ok a line =>
      rw [ask, ByteScan.scan_of_ok hstep] at h
      cases h
    | error e' line =>
      rw [ask, ByteScan.scan_of_error hstep] at h ⊢
      cases h
      exact (hwalks.of_error hstep).2
  cases command with
  | nextLine => cases h
  | skipBlanks => cases h
  | atEnd => exact hask _ Scan.walks_atEnd h
  | peek => exact hask _ Scan.walks_peek h
  | nextChar => exact hask _ Scan.walks_nextChar h
  | trySymbol d => exact hask _ (Scan.walks_trySymbol d) h
  | cutEnd d => exact hask _ (Scan.walks_cutEnd d) h
  | symbol d => exact hask _ (Scan.walks_symbol d) h
  | keyword word => exact hask _ (Scan.walks_keyword word) h
  | endOfLine => exact hask _ Scan.walks_endOfLine h
  | identifier => exact hask _ Scan.walks_identifier h

/-- The byte offsets of a cursor stay between ends of characters, and every error names a place of
the text. -/
theorem cursor_stays_in_text (text : List Char) (commands more : List Command) :
    let c := ((Cursor.ofText text).performAll commands).2
    (∃ b b' : ByteCursor,
      (ByteCursor.ofLines (lines text)).performAll commands =
        some (((Cursor.ofText text).performAll commands).1, b) ∧
      b.performAll more = some ((c.performAll more).1, b') ∧
      b.InBounds ∧ slice? b.line b.pos b.stop = some c.line.rest ∧
      (∃ before after, b.line.takeWhile (· ≠ '#') = before ++ c.line.rest ++ after) ∧
      (b'.number = b.number → b.pos ≤ b'.pos ∧ b'.stop ≤ b.stop) ∧
      b.number = c.line.number ∧ b.line = (lines text).getD (b.number - 1) [] ∧
      ∀ problem, (ByteScan.fail problem : ByteScan Unit) b =
        some (.error (c.line.error problem), b)) ∧
    IsPlace text c.line.number c.line.column ∧
    (∀ command e, (c.perform command).1 = .error e →
      ∃ line column problem, e = .parse line column problem ∧ IsPlace text line column) ∧
    (∀ line column problem,
      (Function.read c).result.outcome = .error (.parse line column problem) →
        IsPlace text line column) ∧
    ∀ policy line column problem,
      (Program.read policy c).result.outcome = .error (.parse line column problem) →
        IsPlace text line column := by
  intro c
  have hstart : (ByteCursor.ofLines (lines text)).Tracks (Cursor.ofText text) :=
    ByteCursor.tracks_ofLines (lines text)
  obtain ⟨b, hrun, htracks, hstands, -⟩ :=
    ByteCursor.performAll_eq hstart (ByteCursor.stands_ofLines text) commands
  change b.Tracks c at htracks
  obtain ⟨b', hmore, -, -, hprecedes⟩ := ByteCursor.performAll_eq htracks hstands more
  have hstandsc : c.Stands text := hstands.cursor htracks
  refine ⟨⟨b, b', hrun, hmore, htracks.inBounds, htracks.slice?_rest, ?_, ?_, htracks.number,
    hstands.line_eq, ?_⟩, hstandsc.isPlace, ?_, ?_, ?_⟩
  · obtain ⟨before, after, hvisible, -⟩ := htracks.within
    exact ⟨before, after, hvisible⟩
  · intro hsame
    obtain hlater | ⟨-, hnarrows⟩ := hprecedes
    · omega
    · exact hnarrows
  · intro problem
    exact ByteScan.fail_eq problem htracks
  · intro command e he
    obtain ⟨problem, rfl⟩ := Cursor.error_of_perform he
    obtain ⟨b'', -, htracks', hstands', -⟩ := ByteCursor.perform_eq htracks hstands command
    exact ⟨_, _, problem, rfl, (hstands'.cursor htracks').isPlace⟩
  · intro line column problem hread
    exact Function.isPlace_of_read hstandsc hread
  · intro policy line column problem hread
    exact Program.isPlace_of_read hstandsc hread

/-- Letters of two bytes each, and all that goes wrong between them. -/
theorem cursor_stays_between_letters :
    let text := ['λ', 'é', ' ', '+', 'é', ' ', '#', 'é', '\n', 'b']
    let c := ((Cursor.ofText text).performAll [.nextChar, .nextChar, .peek]).2
    ((c.perform (.keyword "fun")).1 = .error (.parse 1 4 (.expectedKeyword "fun")) ∧
      IsPlace text 1 4) ∧
    ((Function.read c).result.outcome = .error (.parse 1 4 (.expectedChar '\x7b')) ∧
      IsPlace text 1 4) ∧
    ((Program.read .reject c).result.outcome = .error (.parse 1 4 (.expectedKeyword "fun")) ∧
      IsPlace text 1 4) ∧
    ∃ b b' : ByteCursor,
      (ByteCursor.ofLines (lines text)).performAll [.nextChar, .nextChar, .peek] =
        some ([.ok (.char 'λ'), .ok (.char 'é'), .ok (.next (some '+'))], b) ∧
      b.performAll [.cutEnd 'é', .symbol '+'] = some ([.ok (.flag true), .ok .done], b') ∧
      (b.pos, b.stop) = (5, 9) ∧ (b'.pos, b'.stop) = (6, 6) ∧
      b.pos ≤ b'.pos ∧ b'.stop ≤ b.stop := by
  intro text c
  obtain ⟨⟨b, b', hrun, hmore, -, -, -, hnarrows, -⟩, -, hcommand, hfunction, hprogram⟩ :=
    cursor_stays_in_text text [.nextChar, .nextChar, .peek] [.cutEnd 'é', .symbol '+']
  have hc : c = { line := ⟨1, 3, ['+', 'é', ' ']⟩, below := [['b']] } := by
    decide +kernel
  have hkeyword : (c.perform (.keyword "fun")).1 =
      .error (.parse 1 4 (.expectedKeyword "fun")) := by
    rw [hc]
    rfl
  have hread : (Function.read c).result.outcome = .error (.parse 1 4 (.expectedChar '\x7b')) := by
    rw [hc]
    exact eq_error_of_map (g := fun _ => ()) (by decide +kernel)
  have hread' : (Program.read .reject c).result.outcome =
      .error (.parse 1 4 (.expectedKeyword "fun")) := by
    rw [hc]
    exact eq_error_of_map (g := fun _ => ()) (by decide +kernel)
  have hb : b = ⟨['λ', 'é', ' ', '+', 'é', ' ', '#', 'é'], 1, 5, 9, [['b']]⟩ :=
    congrArg Prod.snd (Option.some.inj hrun.symm)
  have hb' : b' = ⟨['λ', 'é', ' ', '+', 'é', ' ', '#', 'é'], 1, 6, 6, [['b']]⟩ := by
    rw [hb] at hmore
    exact congrArg Prod.snd (Option.some.inj hmore.symm)
  subst hb hb'
  obtain ⟨hpos, hstop⟩ := hnarrows rfl
  obtain ⟨line, column, problem, hplace, hisPlace⟩ := hcommand _ _ hkeyword
  cases hplace
  exact ⟨⟨hkeyword, hisPlace⟩, ⟨hread, hfunction _ _ _ hread⟩, ⟨hread', hprogram _ _ _ _ hread'⟩,
    _, _, rfl, rfl, rfl, rfl, hpos, hstop⟩

end Text

end FlowGraph
