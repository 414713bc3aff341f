import FlowGraph.Proofs.Graph.Updates
import FlowGraph.Proofs.Reading.Runs

/-!
# Steps of reading

Reading a line into a draft is a sequence of a few kinds of moves, whether it succeeds or fails. An
error names the place where reading has stopped, unless it is a fault of the graph. What each move
keeps is kept by every line.
-/

namespace FlowGraph

open Relation Text

set_option autoImplicit false

section walks

variable {σ α β : Type} {move : σ → σ → Prop} {At : σ → Error → Prop}

/-- The step is a sequence of moves, and an error is one that belongs to the state where it ends. -/
def Walks (move : σ → σ → Prop) (At : σ → Error → Prop) (step : EStateM Error σ α) : Prop :=
  ∀ s, match step s with
    | .ok _ t => ReflTransGen move s t
    | .error e t => ReflTransGen move s t ∧ At t e

namespace Walks

theorem pure (a : α) : Walks move At (Pure.pure a) := fun _ => .refl

theorem bind {x : EStateM Error σ α} {g : α → EStateM Error σ β} (hx : Walks move At x)
    (hg : ∀ a, Walks move At (g a)) : Walks move At (x >>= g) := by
  intro s
  have hstep := hx s
  cases h : x s with
  | error e t =>
    rw [h] at hstep
    rw [step_bind_of_error h]
    exact hstep
  | ok a t =>
    rw [h] at hstep
    have hnext := hg a t
    rw [step_bind_of_ok h]
    cases h' : g a t with
    | ok b u =>
      rw [h'] at hnext
      exact hstep.trans hnext
    | error e u =>
      rw [h'] at hnext
      exact ⟨hstep.trans hnext.1, hnext.2⟩

theorem ite {p : Prop} [Decidable p] {x y : EStateM Error σ α} (hx : Walks move At x)
    (hy : Walks move At y) : Walks move At (if p then x else y) := by
  split
  · exact hx
  · exact hy

theorem of_ok {x : EStateM Error σ α} (h : Walks move At x) {s t : σ} {a : α}
    (hx : x s = .ok a t) : ReflTransGen move s t := by
  have hstep := h s
  rw [hx] at hstep
  exact hstep

theorem of_error {x : EStateM Error σ α} (h : Walks move At x) {s t : σ} {e : Error}
    (hx : x s = .error e t) : ReflTransGen move s t ∧ At t e := by
  have hstep := h s
  rw [hx] at hstep
  exact hstep

end Walks

end walks

namespace Text

/-- What reading can do to a line in one go. -/
inductive LineCursor.Move (c : LineCursor) : LineCursor → Prop
  | advance {n : Nat} (h : n ≤ c.rest.length) : Move c (c.advance n)
  /-- The end of the line is hidden. -/
  | cut {front back : List Char} (h : c.rest = front ++ back) : Move c { c with rest := front }

theorem LineCursor.move_skipBlanks (c : LineCursor) : c.Move c.skipBlanks :=
  .advance (List.takeWhile_sublist _).length_le

namespace Scan

variable {α : Type}

/-- A step within a line that consists of moves. An error names the place where it ends. -/
abbrev Walks (step : Scan α) : Prop :=
  FlowGraph.Walks LineCursor.Move (fun c e => ∃ problem, e = c.error problem) step

theorem walks_fail (problem : Problem) : Walks (fail problem : Scan α) :=
  fun _ => ⟨.refl, problem, rfl⟩

theorem walks_peek : Walks peek := fun c => .single c.move_skipBlanks

theorem walks_atEnd : Walks atEnd := fun c => .single c.move_skipBlanks

/-- A character that is there may be read. -/
theorem move_advance_one {c : LineCursor} {d : Char} (h : c.rest.head? = some d) :
    c.Move (c.advance 1) := by
  refine .advance ?_
  cases hrest : c.rest with
  | nil => simp [hrest] at h
  | cons x xs => exact Nat.succ_le_succ (Nat.zero_le _)

theorem walks_nextChar : Walks nextChar := by
  intro c
  have hpeek : peek c = .ok c.skipBlanks.rest.head? c.skipBlanks := rfl
  rw [nextChar, step_bind_of_ok hpeek]
  cases h : c.skipBlanks.rest.head? with
  | none => exact ⟨.single c.move_skipBlanks, .endOfLine, rfl⟩
  | some d => exact .tail (.single c.move_skipBlanks) (move_advance_one h)

theorem walks_trySymbol (d : Char) : Walks (trySymbol d) := by
  intro c
  have hpeek : peek c = .ok c.skipBlanks.rest.head? c.skipBlanks := rfl
  rw [trySymbol, step_bind_of_ok hpeek]
  by_cases h : c.skipBlanks.rest.head? = some d
  · rw [if_pos h]
    exact .tail (.single c.move_skipBlanks) (move_advance_one h)
  · rw [if_neg h]
    exact .single c.move_skipBlanks

theorem walks_symbol (d : Char) : Walks (symbol d) :=
  .bind (walks_trySymbol d) fun _ => .ite (.pure ()) (walks_fail _)

theorem walks_endOfLine : Walks endOfLine :=
  .bind walks_atEnd fun _ => .ite (.pure ()) (walks_fail _)

theorem walks_cutEnd (d : Char) : Walks (cutEnd d) := by
  intro c
  unfold cutEnd
  cases h : c.rest.reverse.dropWhile isBlank with
  | nil => exact .refl
  | cons last front =>
    have hrest : c.rest = front.reverse ++ last :: (c.rest.reverse.takeWhile isBlank).reverse := by
      have hwhole := List.takeWhile_append_dropWhile (p := isBlank) (l := c.rest.reverse)
      rw [h] at hwhole
      simpa using (congrArg List.reverse hwhole).symm
    dsimp only
    by_cases hd : last = d
    · rw [if_pos hd]
      exact .single (.cut hrest)
    · rw [if_neg hd]

theorem walks_identifier : Walks identifier := by
  intro c
  unfold identifier
  dsimp only
  cases hrest : c.skipBlanks.rest with
  | nil => exact ⟨.single c.move_skipBlanks, .expectedIdentifier, rfl⟩
  | cons d ds =>
    dsimp only
    by_cases hd : isIdStart d = true
    · rw [if_pos hd]
      refine .tail (.single c.move_skipBlanks) (.advance ?_)
      rw [hrest]
      exact Nat.succ_le_succ (List.takeWhile_sublist _).length_le
    · rw [if_neg hd]
      exact ⟨.single c.move_skipBlanks, .expectedIdentifier, rfl⟩

theorem walks_keyword (word : String) : Walks (keyword word) := by
  intro c
  unfold keyword
  dsimp only
  cases h : identifier c.skipBlanks with
  | error e t => exact ⟨.single c.move_skipBlanks, .expectedKeyword word, rfl⟩
  | ok id next =>
    dsimp only
    by_cases hid : id = word
    · rw [if_pos hid]
      exact .trans (.single c.move_skipBlanks) (walks_identifier.of_ok h)
    · rw [if_neg hid]
      exact ⟨.single c.move_skipBlanks, .expectedKeyword word, rfl⟩

end Scan

theorem Probe.walks (p : Probe) : Scan.Walks p.scan := by
  cases p with
  | identifier => exact Scan.walks_identifier
  | keyword word => exact Scan.walks_keyword word
  | symbol d => exact Scan.walks_symbol d
  | trySymbol d => exact Scan.walks_trySymbol d
  | nextChar => exact Scan.walks_nextChar
  | peek => exact Scan.walks_peek
  | atEnd => exact Scan.walks_atEnd
  | cutEnd d => exact Scan.walks_cutEnd d
  | endOfLine => exact Scan.walks_endOfLine

end Text

namespace Function

/-- What reading a line into a draft can do in one go. -/
inductive DraftLine.Move (s : DraftLine) : DraftLine → Prop
  | line {line : LineCursor} (h : s.line.Move line) : Move s { s with line }
  | addLabel {name : String} (h : s.draft.findLabel? name = none) (log : List Event) :
      Move s { s with draft := s.draft.addLabel name, log }
  | define (block : BlockId) : Move s { s with draft := s.draft.define block }
  | setCurrent (block : Option BlockId) : Move s { s with draft := s.draft.setCurrent block }
  | addRegister (name : String) :
      Move s { s with draft := { s.draft with function := s.draft.function.addRegister name } }
  | rework {f : Function} (h : Reworks s.draft.function f) :
      Move s { s with draft := { s.draft with function := f } }

/-- The error names the place of the line, or it is a fault. -/
def DraftLine.Stops (s : DraftLine) (e : Error) : Prop :=
  (∃ problem, e = s.line.error problem) ∨ ∃ fault, e = .fault fault

namespace DraftM

variable {α : Type}

/-- A step that consists of moves and stops with an error of its place or with a fault. -/
abbrev Walks (step : DraftM α) : Prop := FlowGraph.Walks DraftLine.Move DraftLine.Stops step

theorem walks_scan {step : Scan α} (h : Scan.Walks step) : Walks (scan step) := by
  have hlift : ∀ (s : DraftLine) {line : LineCursor}, ReflTransGen LineCursor.Move s.line line →
      ReflTransGen DraftLine.Move s { s with line } := by
    intro s line hmoves
    induction hmoves with
    | refl => exact .refl
    | @tail line' line _ hmove ih => exact ih.tail (.line (s := { s with line := line' }) hmove)
  intro s
  unfold scan
  cases hstep : step s.line with
  | ok a line => exact hlift s (h.of_ok hstep)
  | error e line => exact ⟨hlift s (h.of_error hstep).1, .inl (h.of_error hstep).2⟩

theorem walks_fail (problem : Problem) : Walks (fail problem : DraftM α) :=
  walks_scan (Scan.walks_fail problem)

theorem walks_getDraft : Walks getDraft := fun _ => .refl

theorem walks_define (block : BlockId) : Walks (modifyDraft (·.define block)) :=
  fun _ => .single (.define block)

theorem walks_setCurrent (block : Option BlockId) : Walks (modifyDraft (·.setCurrent block)) :=
  fun _ => .single (.setCurrent block)

theorem walks_addRegister (name : String) : Walks (edit fun f => .ok (f.addRegister name)) :=
  fun _ => .single (.addRegister name)

theorem walks_edit {change : Function → Except Fault Function}
    (h : ∀ f f', change f = .ok f' → Reworks f f') : Walks (edit change) := by
  intro s
  unfold edit
  cases hchange : change s.draft.function with
  | ok f => exact .single (.rework (h _ f hchange))
  | error e => exact ⟨.refl, .inr ⟨e, rfl⟩⟩

theorem walks_blockOf (name : String) : Walks (blockOf name) := by
  intro s
  unfold blockOf
  cases h : s.draft.findLabel? name with
  | some block => exact .refl
  | none => exact .single (.addLabel h _)

theorem walks_openLabel (name : String) : Walks (openLabel name) := by
  refine .bind (walks_blockOf name) fun block => .bind walks_getDraft fun d => ?_
  exact .ite (.pure none) (.bind (walks_define block) fun _ => .pure (some block))

theorem walks_obey (r : Request) : Walks (obey r) := by
  cases r with
  | scan probe => exact walks_scan probe.walks
  | fail problem => exact walks_fail problem
  | blockOf name => exact walks_blockOf name
  | openLabel name => exact walks_openLabel name
  | findRegister name => exact .bind walks_getDraft fun _ => .pure _
  | addRegister name =>
    exact .bind walks_getDraft fun _ => .bind (walks_addRegister name) fun _ => .pure _
  | current => exact .bind walks_getDraft fun _ => .pure _
  | setCurrent block => exact walks_setCurrent block
  | append block operation => exact walks_edit fun _ _ => Reworks.append
  | setFallThrough block next => exact walks_edit fun _ _ => Reworks.setFallThrough
  | undefinedLabel => exact .bind walks_getDraft fun _ => .pure _
  | function => exact .bind walks_getDraft fun _ => .pure _

theorem walks_bodyLine : Walks bodyLine := Routine.run_holds .pure .bind walks_obey _

end DraftM

end Function

/-- The error is a problem of a text, or a fault. -/
def Error.FromText (e : Error) : Prop :=
  (∃ line column problem, e = .parse line column problem) ∨ ∃ fault, e = .fault fault

theorem Function.fromText_of_failed {stage : Stage} {line : LineCursor} {e : Error}
    (h : (stage.feed line).verdict = .failed e) : e.FromText := by
  have hopening : ∀ {line : LineCursor}, (Stage.feedOpening line).verdict = .failed e →
      e.FromText := by
    intro line h
    have hwalks : Scan.Walks (do Scan.symbol '\x7b'; Scan.endOfLine : Scan Unit) :=
      .bind (Scan.walks_symbol _) fun _ => Scan.walks_endOfLine
    unfold Stage.feedOpening at h
    split at h
    · cases h
    · next hstep =>
      cases h
      obtain ⟨-, problem, rfl⟩ := hwalks.of_error hstep
      exact .inl ⟨_, _, problem, rfl⟩
  cases stage with
  | header =>
    rw [Stage.feed_header] at h
    split at h
    · cases h
    · exact hopening h
  | opening => exact hopening h
  | body d =>
    simp only [Stage.feed] at h
    split at h
    · cases h
    · cases h
    · next hline =>
      cases h
      obtain ⟨-, ⟨problem, rfl⟩ | hfault⟩ := DraftM.walks_bodyLine.of_error hline
      · exact .inl ⟨_, _, problem, rfl⟩
      · exact .inr hfault

theorem Function.fromText_of_read {c : Cursor} {e : Error}
    (h : (read c).result.outcome = .error e) : e.FromText := by
  refine LineReader.run_error_cases Error.FromText (fun _ _ _ => fromText_of_failed) ?_ h
  intro stage line e h
  cases h
  exact .inl ⟨_, _, _, rfl⟩

end FlowGraph
