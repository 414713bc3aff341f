import FlowGraph.Proofs.Reading.Tables

/-!
# A reader with tables

A reader of functions that owns its tables. They are cleared when it starts and when it succeeds,
and they stay as they are when it fails. It reads every text as the drafts do.
-/

namespace FlowGraph.Function

open Relation Text

set_option autoImplicit false

/-- The same line, with tables for the names of the draft and with what happened before. -/
def DraftLine.tabled (s : DraftLine) (before : List Event) (t : Tables) : TableLine where
  line := s.line
  tables := t
  function := s.draft.function
  current := s.draft.current
  log := before ++ s.log

theorem Tables.Hold.oldestUndefined?_eq {t : Tables} {d : Draft} (h : t.Hold d) :
    oldestUndefined? t.table = d.undefinedLabel? := h.tabled.oldestUndefined?_eq h.table_perm

theorem DraftM.mem_labels_of_blockOf {name : String} {s s' : DraftLine} {block : BlockId}
    (h : blockOf name s = .ok block s') : ∃ l ∈ s'.draft.labels, l.block = block := by
  unfold blockOf at h
  split at h
  · next hfind =>
    cases h
    obtain ⟨l, hl, rfl⟩ := Option.map_eq_some_iff.mp hfind
    exact ⟨l, List.mem_of_find?_eq_some hl, rfl⟩
  · cases h
    exact ⟨_, List.mem_append_right _ List.mem_cons_self, rfl⟩

namespace TableM

variable {α β : Type} {before : List Event} {t : Tables} {s : DraftLine}

/-- From here on the step with tables does what the other one does. After a failure the tables may
hold anything. -/
def AgreesAt (before : List Event) (t : Tables) (s : DraftLine) (tabled : TableM α)
    (step : DraftM α) : Prop :=
  match step s with
  | .ok a s' => ∃ t' : Tables, t'.Hold s'.draft ∧
      tabled (s.tabled before t) = .ok a (s'.tabled before t')
  | .error e s' => ∃ t' : Tables, tabled (s.tabled before t) = .error e (s'.tabled before t')

def Agrees (tabled : TableM α) (step : DraftM α) : Prop :=
  ∀ before (t : Tables) (s : DraftLine), t.Hold s.draft → AgreesAt before t s tabled step

theorem AgreesAt.of_ok {tabled : TableM α} {step : DraftM α} {a : α} {t' : Tables} {s' : DraftLine}
    (hstep : step s = .ok a s') (h : t'.Hold s'.draft)
    (htabled : tabled (s.tabled before t) = .ok a (s'.tabled before t')) :
    AgreesAt before t s tabled step := by
  rw [AgreesAt, hstep]
  exact ⟨t', h, htabled⟩

theorem AgreesAt.of_error {tabled : TableM α} {step : DraftM α} {e : Error} {s' : DraftLine}
    (hstep : step s = .error e s') (t' : Tables)
    (htabled : tabled (s.tabled before t) = .error e (s'.tabled before t')) :
    AgreesAt before t s tabled step := by
  rw [AgreesAt, hstep]
  exact ⟨t', htabled⟩

theorem AgreesAt.bind {x' : TableM α} {x : DraftM α} {g' : α → TableM β} {g : α → DraftM β}
    (hx : AgreesAt before t s x' x) (hg : ∀ a (t' : Tables) (s' : DraftLine), x s = .ok a s' →
      t'.Hold s'.draft → AgreesAt before t' s' (g' a) (g a)) :
    AgreesAt before t s (x' >>= g') (x >>= g) := by
  unfold AgreesAt at hx ⊢
  cases hstep : x s with
  | error e s' =>
    rw [hstep] at hx
    obtain ⟨t', hx⟩ := hx
    rw [step_bind_of_error hstep]
    exact ⟨t', step_bind_of_error hx⟩
  | ok a s' =>
    rw [hstep] at hx
    obtain ⟨t', hold, hx⟩ := hx
    rw [step_bind_of_ok hstep, step_bind_of_ok hx]
    exact hg a t' s' hstep hold

theorem Agrees.bind {x' : TableM α} {x : DraftM α} {g' : α → TableM β} {g : α → DraftM β}
    (hx : Agrees x' x) (hg : ∀ a, Agrees (g' a) (g a)) : Agrees (x' >>= g') (x >>= g) :=
  fun before t s h => (hx before t s h).bind fun a t' s' _ h' => hg a before t' s' h'

theorem Agrees.pure (a : α) : Agrees (Pure.pure a) (Pure.pure a) := fun _ t _ h => ⟨t, h, rfl⟩

theorem AgreesAt.ite {p : Prop} [Decidable p] {x' y' : TableM α} {x y : DraftM α}
    (hx : AgreesAt before t s x' x) (hy : AgreesAt before t s y' y) :
    AgreesAt before t s (if p then x' else y') (if p then x else y) := by
  split
  · exact hx
  · exact hy

theorem agrees_scan (step : Scan α) : Agrees (scan step) (DraftM.scan step) := by
  intro before t s h
  cases hstep : step s.line with
  | ok a line =>
    have hline : step (s.tabled before t).line = .ok a line := hstep
    have hdraft : DraftM.scan step s = .ok a { s with line } := by rw [DraftM.scan, hstep]
    refine .of_ok hdraft h ?_
    rw [scan, hline]
    rfl
  | error e line =>
    have hline : step (s.tabled before t).line = .error e line := hstep
    have hdraft : DraftM.scan step s = .error e { s with line } := by rw [DraftM.scan, hstep]
    refine .of_error hdraft t ?_
    rw [scan, hline]
    rfl

theorem agrees_fail (problem : Problem) : Agrees (fail problem : TableM α) (.fail problem) :=
  agrees_scan _

theorem agrees_edit {change : Function → Except Fault Function}
    (hchange : ∀ f f', change f = .ok f' → Reworks f f') :
    Agrees (edit change) (DraftM.edit change) := by
  intro before t s h
  cases hedit : change s.draft.function with
  | ok f =>
    have hedit' : change (s.tabled before t).function = .ok f := hedit
    have hdraft : DraftM.edit change s =
        .ok () { s with draft := { s.draft with function := f } } := by
      rw [DraftM.edit, hedit]
    refine .of_ok hdraft (h.rework (hchange _ f hedit)) ?_
    rw [edit, hedit']
    rfl
  | error e =>
    have hedit' : change (s.tabled before t).function = .error e := hedit
    have hdraft : DraftM.edit change s = .error (.fault e) s := by rw [DraftM.edit, hedit]
    refine .of_error hdraft t ?_
    rw [edit, hedit']

theorem agrees_blockOf (name : String) : Agrees (blockOf name) (DraftM.blockOf name) := by
  intro before t s h
  have hlabel : (s.tabled before t).tables.labels[name]? = s.draft.findLabel? name := h.labels name
  cases hfind : s.draft.findLabel? name with
  | some block =>
    have hdraft : DraftM.blockOf name s = .ok block s := by rw [DraftM.blockOf, hfind]
    refine .of_ok hdraft h ?_
    rw [blockOf, hlabel, hfind]
  | none =>
    have hdraft : DraftM.blockOf name s = .ok s.draft.function.nextBlock { s with
        draft := s.draft.addLabel name
        log := s.log ++ [.newLabel name s.draft.function.nextBlock] } := by
      rw [DraftM.blockOf, hfind]
    refine .of_ok hdraft (h.addLabel hfind) ?_
    rw [blockOf, hlabel, hfind]
    simp only [DraftLine.tabled, Draft.addLabel, List.append_assoc]

theorem agrees_openLabel (name : String) : Agrees (openLabel name) (DraftM.openLabel name) := by
  intro before t s h
  refine (agrees_blockOf name before t s h).bind fun block t' s' hblock h' => ?_
  refine AgreesAt.ite (Agrees.pure none before t' s' h') ?_
  exact ⟨_, h'.define (DraftM.mem_labels_of_blockOf hblock), rfl⟩

theorem agrees_obey (r : Request) : Agrees (obey r) (DraftM.obey r) := by
  cases r with
  | scan probe => exact agrees_scan probe.scan
  | fail problem => exact agrees_fail problem
  | blockOf name => exact agrees_blockOf name
  | openLabel name => exact agrees_openLabel name
  | findRegister name => exact fun before t s h => ⟨t, h, by rw [← h.registers]; rfl⟩
  | addRegister name => exact fun _ _ _ h => ⟨_, h.addRegister name, rfl⟩
  | current => exact fun _ t _ h => ⟨t, h, rfl⟩
  | setCurrent block => exact fun _ t _ h => ⟨t, h.setCurrent block, rfl⟩
  | append block operation => exact agrees_edit fun _ _ => Reworks.append
  | setFallThrough block next => exact agrees_edit fun _ _ => Reworks.setFallThrough
  | undefinedLabel => exact fun before t s h => ⟨t, h, by rw [← h.oldestUndefined?_eq]; rfl⟩
  | function => exact fun _ t _ h => ⟨t, h, rfl⟩

theorem agrees_bodyLine : Agrees bodyLine DraftM.bodyLine :=
  Routine.run_related .pure .bind agrees_obey _

end TableM

namespace TableLine

def nextLine (s : TableLine) (l : List Char) : TableLine :=
  { s with line := .start (s.line.number + 1) l }

def stop (s : TableLine) (outcome : Except Error Function) (below : List (List Char)) :
    Tables × Reading Function :=
  (s.tables, ⟨⟨outcome, s.log⟩, ⟨s.line, below⟩⟩)

def stopAtEnd (s : TableLine) (problem : Problem) : Tables × Reading Function :=
  stop { s with line := s.line.skipRest } (.error (s.line.skipRest.error problem)) []

def readBody (s : TableLine) : List (List Char) → Tables × Reading Function
  | [] => s.stopAtEnd .endOfInput
  | l :: below =>
    match TableM.bodyLine (s.nextLine l) with
    | .ok none s => s.readBody below
    | .ok (some f) s => s.stop (.ok f) below
    | .error e s => s.stop (.error e) below

def readOpening (s : TableLine) (below : List (List Char)) : Tables × Reading Function :=
  match TableM.scan (do Scan.symbol '\x7b'; Scan.endOfLine) s with
  | .ok () s => s.readBody below
  | .error e s => s.stop (.error e) below

def readBelow (s : TableLine) : List (List Char) → Tables × Reading Function
  | [] => s.stopAtEnd (.expectedChar '\x7b')
  | l :: below => (s.nextLine l).readOpening below

/-- Read a function of which the opening brace stands on this line or else on the next. -/
def read (s : TableLine) (below : List (List Char)) : Tables × Reading Function :=
  match TableM.scan .atEnd s with
  | .ok true s => s.readBelow below
  | .ok false s => s.readOpening below
  | .error e s => s.stop (.error e) below

variable {t : Tables} {s : DraftLine} {before : List Event} {below : List (List Char)}

theorem nextLine_tabled (before : List Event) (t : Tables) (s : DraftLine) (l : List Char) :
    (s.tabled before t).nextLine l =
      DraftLine.tabled { line := .start (s.line.number + 1) l, draft := s.draft }
        (before ++ s.log) t := by
  simp only [nextLine, DraftLine.tabled, List.append_nil]

theorem stopAtEnd_tabled (before : List Event) (t : Tables) (s : DraftLine) (stage : Stage) :
    ((s.tabled before t).stopAtEnd stage.missing).2 =
      .after (before ++ s.log) (lineReader.runBelow stage s.line []) := by
  change Reading.mk ⟨_, before ++ s.log⟩ _ = Reading.mk ⟨_, before ++ s.log ++ []⟩ _
  rw [List.append_nil]
  rfl

theorem readBody_eq (h : t.Hold s.draft) : ((s.tabled before t).readBody below).2 =
    .after (before ++ s.log) (lineReader.runBelow (.body s.draft) s.line below) := by
  induction below generalizing before t s with
  | nil => exact stopAtEnd_tabled before t s (.body s.draft)
  | cons l below ih =>
    have hagree := TableM.agrees_bodyLine (before ++ s.log) t
      { line := .start (s.line.number + 1) l, draft := s.draft } h
    have hfeed : lineReader.feed (.body s.draft) (.start (s.line.number + 1) l) =
        Stage.feed (.body s.draft) (.start (s.line.number + 1) l) := rfl
    rw [readBody, nextLine_tabled, LineReader.runBelow, LineReader.run_eq, hfeed, Stage.feed]
    unfold TableM.AgreesAt at hagree
    cases hline : DraftM.bodyLine { line := .start (s.line.number + 1) l, draft := s.draft } with
    | error e s' =>
      rw [hline] at hagree
      obtain ⟨t', htabled⟩ := hagree
      rw [htabled]
      rfl
    | ok result s' =>
      rw [hline] at hagree
      obtain ⟨t', h', htabled⟩ := hagree
      rw [htabled]
      cases result with
      | some f => rfl
      | none =>
        dsimp only
        rw [ih h', LineReader.after_after]

theorem feedOpening_skipBlanks (line : LineCursor) :
    Stage.feedOpening line.skipBlanks = Stage.feedOpening line := by
  have hpeek : Scan.peek line.skipBlanks = Scan.peek line := by
    rw [Scan.peek, Scan.peek, LineCursor.skipBlanks_skipBlanks]
  have hopening : (do Scan.symbol '\x7b'; Scan.endOfLine : Scan Unit) line.skipBlanks =
      (do Scan.symbol '\x7b'; Scan.endOfLine : Scan Unit) line :=
    step_bind_congr (step_bind_congr (step_bind_congr hpeek))
  rw [Stage.feedOpening, Stage.feedOpening, hopening]

theorem readOpening_eq (h : t.Hold .start) (before : List Event) (line : LineCursor) :
    (readOpening (DraftLine.tabled { line, draft := .start } before t) below).2 =
      .after before (lineReader.run .opening line below) := by
  have hfeed : lineReader.feed .opening line = Stage.feedOpening line := rfl
  have hagree := TableM.agrees_scan (do Scan.symbol '\x7b'; Scan.endOfLine) before t
    { line, draft := .start } h
  rw [readOpening, LineReader.run_eq, hfeed, Stage.feedOpening]
  unfold TableM.AgreesAt DraftM.scan at hagree
  dsimp only at hagree
  cases hline : (do Scan.symbol '\x7b'; Scan.endOfLine : Scan Unit) line with
  | ok _ line' =>
    rw [hline] at hagree
    obtain ⟨t', h', htabled⟩ := hagree
    rw [htabled]
    dsimp only
    rw [readBody_eq h']
    exact (LineReader.after_after before [] _).symm
  | error e line' =>
    rw [hline] at hagree
    obtain ⟨t', htabled⟩ := hagree
    rw [htabled]
    rfl

theorem readBelow_eq (h : t.Hold .start) (before : List Event) (line : LineCursor) :
    (readBelow (DraftLine.tabled { line, draft := .start } before t) below).2 =
      .after before (lineReader.runBelow .opening line below) := by
  cases below with
  | nil =>
    rw [readBelow]
    exact (stopAtEnd_tabled before t _ .opening).trans (by rw [List.append_nil])
  | cons l below =>
    rw [readBelow, nextLine_tabled, readOpening_eq h, List.append_nil]
    rfl

theorem read_eq (h : t.Hold .start) (c : Cursor) :
    (read (DraftLine.tabled { line := c.line, draft := .start } [] t) c.below).2 =
      Function.read c := by
  have hscan : TableM.scan .atEnd (DraftLine.tabled { line := c.line, draft := .start } [] t) =
      .ok c.line.skipBlanks.rest.isEmpty
        (DraftLine.tabled { line := c.line.skipBlanks, draft := .start } [] t) := rfl
  have hfeed : lineReader.feed .header c.line =
      if c.line.skipBlanks.rest.isEmpty then
        { verdict := .more .opening, line := c.line.skipBlanks }
      else Stage.feedOpening c.line := rfl
  rw [read, hscan, Function.read]
  cases hempty : c.line.skipBlanks.rest.isEmpty with
  | true =>
    rw [hempty, if_pos rfl] at hfeed
    rw [LineReader.run_eq, hfeed]
    exact readBelow_eq h [] _
  | false =>
    rw [hempty, if_neg Bool.false_ne_true, ← feedOpening_skipBlanks] at hfeed
    refine (readOpening_eq h [] _).trans ?_
    exact LineReader.run_congr (r := lineReader) hfeed.symm

end TableLine

theorem Reader.read_of_active {q : Reader} (h : q.active = true) (c : Cursor) :
    q.read c = (q, ⟨{ outcome := .error (.readerBusy .function) }, c⟩) := if_pos h

theorem Reader.read_of_idle {q : Reader} (h : q.active = false) (c : Cursor) :
    q.read c = ({ active := !(Function.read c).result.outcome.isOk }, Function.read c) := by
  refine (if_neg (by rw [h]; exact Bool.false_ne_true)).trans ?_
  dsimp only
  split
  · next hok => rw [hok]; rfl
  · next herror => rw [herror]; rfl

/-- A reader that keeps its tables from one text to the next. -/
structure TableReader where
  active : Bool := false
  tables : Tables := {}

namespace TableReader

def reset (r : TableReader) : TableReader := { active := false, tables := r.tables.clear }

/-- Put the tables away: empty after a success, as they are after a failure. -/
def putAway (result : Tables × Reading Function) : TableReader × Reading Function :=
  match result.2.result.outcome with
  | .ok _ => ({ active := false, tables := result.1.clear }, result.2)
  | .error _ => ({ active := true, tables := result.1 }, result.2)

def read (r : TableReader) (c : Cursor) : TableReader × Reading Function :=
  if r.active then
    (r, ⟨{ outcome := .error (.readerBusy .function) }, c⟩)
  else
    let start : TableLine :=
      { line := c.line, tables := r.tables.clear.seed, function := .empty, current := some .entry }
    putAway (start.read c.below)

theorem read_of_active {r : TableReader} (h : r.active = true) (c : Cursor) :
    r.read c = (r, ⟨{ outcome := .error (.readerBusy .function) }, c⟩) := if_pos h

theorem read_of_idle {r : TableReader} (h : r.active = false) (c : Cursor) :
    (r.read c).2 = Function.read c ∧
      (r.read c).1.active = !(Function.read c).result.outcome.isOk := by
  have hread : r.read c = putAway (TableLine.read (DraftLine.tabled
      { line := c.line, draft := .start } [] r.tables.clear.seed) c.below) :=
    if_neg (by rw [h]; exact Bool.false_ne_true)
  rw [hread, putAway, TableLine.read_eq (Tables.hold_start r.tables) c]
  cases (Function.read c).result.outcome with
  | ok f => exact ⟨rfl, rfl⟩
  | error e => exact ⟨rfl, rfl⟩

end TableReader

end FlowGraph.Function
