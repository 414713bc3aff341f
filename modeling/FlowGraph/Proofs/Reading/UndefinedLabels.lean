import FlowGraph.Proofs.Reading.Language
import FlowGraph.Proofs.Reading.LineNumbers
import FlowGraph.Proofs.Reading.Steps
import Mathlib.Data.List.MinMax
import Mathlib.Data.List.Nodup

/-!
# Undefined labels

Blocks are numbered in the order in which their labels come up in the text. So the oldest block
without a line of its own belongs to the label that is used first among those that never have one,
and it does not matter in which order a table of labels is gone through to find it.
-/

namespace FlowGraph.Function

open Relation Text

set_option autoImplicit false

variable {d : Draft} {s t : DraftLine} {sts : List Statement}

namespace Draft

/-- Each label is listed once, and the blocks are numbered in the order of the list. -/
structure Tabled (d : Draft) : Prop where
  names : (d.labels.map Label.name).Nodup
  blocks : d.labels.map (·.block.index) = List.range d.labels.length
  size : d.function.blocks.size = d.labels.length

theorem tabled_start : start.Tabled := ⟨by decide, rfl, rfl⟩

theorem Tabled.addLabel (h : d.Tabled) {name : String} (hname : d.findLabel? name = none) :
    (d.addLabel name).Tabled := by
  have hfresh : ∀ l ∈ d.labels, l.name ≠ name := by
    intro l hl
    have hnone := List.find?_eq_none.mp (Option.map_eq_none_iff.mp hname) l hl
    simpa using hnone
  refine ⟨?_, ?_, ?_⟩
  · rw [Draft.addLabel, List.map_append, List.nodup_append]
    refine ⟨h.names, by simp, ?_⟩
    intro a ha b hb
    obtain ⟨l, hl, rfl⟩ := List.mem_map.mp ha
    rw [List.mem_singleton.mp hb]
    exact hfresh l hl
  · simp [Draft.addLabel, h.blocks, nextBlock, h.size, List.range_succ]
  · simp [Draft.addLabel, Function.addBlock, h.size]

theorem Tabled.define (h : d.Tabled) (block : BlockId) : (d.define block).Tabled := by
  have hname : (d.define block).labels.map Label.name = d.labels.map Label.name := by
    rw [Draft.define, List.map_map]
    refine List.map_congr_left fun l _ => ?_
    simp only [Function.comp_apply]
    split <;> rfl
  have hblock : (d.define block).labels.map (·.block.index) = d.labels.map (·.block.index) := by
    rw [Draft.define, List.map_map]
    refine List.map_congr_left fun l _ => ?_
    simp only [Function.comp_apply]
    split <;> rfl
  have hlength : (d.define block).labels.length = d.labels.length := List.length_map _
  refine ⟨hname ▸ h.names, ?_, h.size.trans hlength.symm⟩
  rw [hblock, hlength]
  exact h.blocks

end Draft

theorem DraftLine.Move.tabled (hmove : s.Move t) (h : s.draft.Tabled) : t.draft.Tabled := by
  cases hmove with
  | line _ => exact h
  | addLabel hname log => exact h.addLabel hname
  | define block => exact h.define block
  | setCurrent block => exact ⟨h.names, h.blocks, h.size⟩
  | addRegister name => exact ⟨h.names, h.blocks, h.size⟩
  | rework hr => exact ⟨h.names, h.blocks, hr.size_blocks.trans h.size⟩

theorem tabled_of_moves (hmoves : ReflTransGen DraftLine.Move s t) (h : s.draft.Tabled) :
    t.draft.Tabled := by
  induction hmoves with
  | refl => exact h
  | tail _ hmove ih => exact hmove.tabled ih

namespace Draft

/-- The draft after a line has been read into it, or as much of the line as could be read. -/
def afterLine (d : Draft) (line : LineCursor) : Draft :=
  match DraftM.bodyLine { line, draft := d } with
  | .ok _ s => s.draft
  | .error _ s => s.draft

theorem Tabled.afterLine (h : d.Tabled) (line : LineCursor) : (d.afterLine line).Tabled := by
  unfold Draft.afterLine
  cases hline : DraftM.bodyLine { line, draft := d } with
  | ok r s => exact tabled_of_moves (DraftM.walks_bodyLine.of_ok hline) h
  | error e s => exact tabled_of_moves (DraftM.walks_bodyLine.of_error hline).1 h

theorem Tabled.foldl_afterLine (h : d.Tabled) (ls : List LineCursor) :
    (ls.foldl Draft.afterLine d).Tabled := by
  induction ls generalizing d with
  | nil => exact h
  | cons l ls ih => exact ih (h.afterLine l)

theorem Tabled.findLabel?_eq (h : d.Tabled) {l : Label} (hl : l ∈ d.labels) :
    d.findLabel? l.name = some l.block := by
  have hfind : d.labels.find? (·.name = l.name) = some l := by
    cases hm : d.labels.find? (·.name = l.name) with
    | none =>
      have hne := List.find?_eq_none.mp hm l hl
      simp at hne
    | some m =>
      have hname : m.name = l.name := by simpa using List.find?_some hm
      rw [List.inj_on_of_nodup_map h.names (List.mem_of_find?_eq_some hm) hl hname]
  rw [Draft.findLabel?, hfind]
  rfl

theorem Tabled.sorted (h : d.Tabled) :
    d.labels.Pairwise fun l m => l.block.index < m.block.index := by
  have hrange := List.pairwise_lt_range (n := d.labels.length)
  rw [← h.blocks] at hrange
  exact List.pairwise_map.mp hrange

theorem Tabled.nodup_blocks (h : d.Tabled) : (d.labels.map Label.block).Nodup := by
  refine List.pairwise_map.mpr (h.sorted.imp ?_)
  intro l m hlt heq
  rw [heq] at hlt
  exact Nat.lt_irrefl _ hlt

end Draft

/-- The name of the oldest block of the table that has had no line. -/
def oldestUndefined? (table : List Label) : Option String :=
  ((table.filter (!·.defined)).argmin (·.block.index)).map Label.name

/-- The oldest block is the one that the draft finds first. -/
theorem Draft.Tabled.oldestUndefined?_eq (h : d.Tabled) {table : List Label}
    (hperm : table.Perm d.labels) : oldestUndefined? table = d.undefinedLabel? := by
  rw [oldestUndefined?, Draft.undefinedLabel?]
  congr 1
  cases hfind : d.labels.find? (!·.defined) with
  | none =>
    rw [List.argmin_eq_none, List.filter_eq_nil_iff]
    intro l hl
    exact List.find?_eq_none.mp hfind l (hperm.mem_iff.mp hl)
  | some l =>
    obtain ⟨hl, pre, post, hsplit, hpre⟩ := List.find?_eq_some_iff_append.mp hfind
    have hmem : l ∈ table.filter (!·.defined) := by
      rw [List.mem_filter, hperm.mem_iff, hsplit]
      exact ⟨by simp, hl⟩
    obtain ⟨m, hm⟩ : ∃ m, (table.filter (!·.defined)).argmin (·.block.index) = some m := by
      apply Option.ne_none_iff_exists'.mp
      rw [Ne, List.argmin_eq_none]
      exact List.ne_nil_of_mem hmem
    obtain ⟨hmtable, hmundefined⟩ := List.mem_filter.mp (List.argmin_mem hm)
    have hle : m.block.index ≤ l.block.index :=
      List.le_of_mem_argmin (f := fun x : Label => x.block.index) hmem hm
    have hsorted := h.sorted
    have hmlabels := hperm.mem_iff.mp hmtable
    rw [hsplit] at hsorted hmlabels
    rw [hm]
    rcases List.mem_append.mp hmlabels with hmem' | hmem'
    · have hdefined := hpre m hmem'
      rw [hmundefined] at hdefined
      cases hdefined
    · rcases List.mem_cons.mp hmem' with rfl | hlater
      · rfl
      · have hlt := (List.pairwise_cons.mp (List.pairwise_append.mp hsorted).2.1).1 m hlater
        omega

/-- The label that is used first among those that never have a line of their own. The entry and the
exit need none. -/
def firstUndefined? (sts : List Statement) : Option String :=
  (sts.flatMap Statement.labels).find? fun n => n ≠ "entry" ∧ n ≠ "exit" ∧ .label n ∉ sts

theorem find?_enter (names : List String) (name : String) (p : String → Bool) :
    (enter names name).find? p = (names.find? p).or ([name].find? p) := by
  unfold enter
  split
  · next hmem =>
    cases hfind : names.find? p with
    | some n => rfl
    | none =>
      have hnot := List.find?_eq_none.mp hfind name hmem
      simp [hnot]
  · exact List.find?_append

/-- Entering names keeps the order in which they come up. -/
theorem find?_enterAll (names new : List String) (p : String → Bool) :
    (enterAll names new).find? p = (names.find? p).or (new.find? p) := by
  induction new generalizing names with
  | nil => simp [enterAll]
  | cons name new ih =>
    change (enterAll (enter names name) new).find? p = _
    rw [ih, find?_enter, Option.or_assoc, ← List.find?_append, List.singleton_append]

theorem undefinedLabel?_eq (h : sts.foldlM Draft.take .start = some d) :
    d.undefinedLabel? = firstUndefined? sts := by
  have hall := describes_start.takeAll Outline.valid_start sts
  rw [h] at hall
  obtain ⟨o, ho, hdescribes⟩ := hall.exists_outline
  have htells := tells_of_foldlM ho
  have hdefined : ∀ n, (!decide (n ∈ o.defined)) =
      decide (n ≠ "entry" ∧ n ≠ "exit" ∧ .label n ∉ sts) := by
    intro n
    rw [← decide_not, decide_eq_decide, htells.defined]
    simp
  rw [Draft.undefinedLabel?, hdescribes.labels, List.find?_map, Option.map_map, htells.labels]
  change (List.find? (fun n => !decide (n ∈ o.defined)) _).map id = _
  rw [Option.map_id_fun, id_eq, funext hdefined, find?_enterAll]
  rfl

theorem extent_advance {c : LineCursor} {n : Nat} (h : n ≤ c.rest.length) :
    (c.advance n).taken + (c.advance n).rest.length = c.taken + c.rest.length := by
  simp only [LineCursor.advance, List.length_drop]
  omega

theorem extent_skipBlanks (c : LineCursor) :
    c.skipBlanks.taken + c.skipBlanks.rest.length = c.taken + c.rest.length :=
  extent_advance (List.takeWhile_sublist _).length_le

/-- A cursor that reads a symbol and then only blanks gets to the end of the line. -/
theorem taken_skipBlanks_nextToken {c : LineCursor} {x : Char} (h : tokens c.rest = [.symbol x]) :
    c.nextToken.skipBlanks.taken = c.taken + c.rest.length := by
  have hhead : (tokens c.rest).head? = some (.symbol x) := by rw [h]; rfl
  have hrest : c.skipBlanks.rest ≠ [] := by
    intro hnil
    have htokens := LineCursor.tokens_skipBlanks c
    rw [hnil, tokens_nil, h] at htokens
    cases htokens
  have hnext : c.nextToken.taken + c.nextToken.rest.length = c.taken + c.rest.length := by
    rw [LineCursor.nextToken_of_symbol hhead,
      extent_advance (List.length_pos_iff.mpr hrest), extent_skipBlanks]
  have hend : c.nextToken.skipBlanks.rest = [] := by
    rw [LineCursor.rest_skipBlanks, List.dropWhile_eq_nil_iff, ← tokens_eq_nil_iff,
      LineCursor.tokens_nextToken, h]
    rfl
  have hskip := extent_skipBlanks c.nextToken
  rw [hend, List.length_nil, Nat.add_zero] at hskip
  exact hskip.trans hnext

theorem closingLine_of_undefined {line : LineCursor} {name : String} (h : tokens line.rest = [])
    (hname : d.undefinedLabel? = some name) :
    Routine.closingLine.run DraftM.obey { line, draft := d } =
      .error (line.skipBlanks.error (.undefinedLabel name))
        { line := line.skipBlanks, draft := d } := by
  have hend : Routine.endOfLine.run DraftM.obey { line, draft := d } =
      .ok () { line := line.skipBlanks, draft := d } := by
    rw [Routine.endOfLine, Routine.run_request, DraftM.obey, DraftM.scan, Probe.scan,
      Scan.endOfLine_eq, if_pos h]
  have hlabel : Routine.undefinedLabel.run DraftM.obey { line := line.skipBlanks, draft := d } =
      .ok (some name) { line := line.skipBlanks, draft := d } := hname ▸ rfl
  rw [Routine.closingLine, Routine.run_bind, step_bind_of_ok hend, Routine.run_bind,
    step_bind_of_ok hlabel]
  rfl

/-- The closing brace is refused at the end of its line. -/
theorem feed_closing {line : LineCursor} {name : String} (h : tokens line.rest = [.symbol '\x7d'])
    (hname : d.undefinedLabel? = some name) :
    ((Stage.body d).feed line).verdict =
      .failed (.parse line.number (line.taken + line.rest.length + 1) (.undefinedLabel name)) := by
  have hbrace : isIdStart '\x7d' = false := by decide
  have htry : (Routine.trySymbol '\x7d').run DraftM.obey { line, draft := d } =
      .ok true { line := line.nextToken, draft := d } := by
    rw [Routine.trySymbol, Routine.run_request, DraftM.obey, DraftM.scan, Probe.scan,
      Scan.trySymbol_eq hbrace, if_pos (by rw [h]; rfl)]
  have hrest : tokens line.nextToken.rest = [] := by
    rw [LineCursor.tokens_nextToken, h]
    rfl
  have hbody : DraftM.bodyLine { line, draft := d } =
      .error (line.nextToken.skipBlanks.error (.undefinedLabel name))
        { line := line.nextToken.skipBlanks, draft := d } := by
    rw [DraftM.bodyLine, Routine.bodyLine, Routine.run_bind, step_bind_of_ok htry, if_pos rfl,
      Routine.run_bind, step_bind_of_error (closingLine_of_undefined hrest hname)]
  have hnumber : line.nextToken.skipBlanks.number = line.number := by
    have hsame := Stage.number_feed (.body d) line
    simp only [Stage.feed, hbody] at hsame
    exact hsame
  simp only [Stage.feed, hbody, LineCursor.error, LineCursor.column, hnumber,
    taken_skipBlanks_nextToken h]

/-- The opening brace is what is left of the line, or it is alone on the next line and nothing is
left of this one. -/
inductive OpensAt (line : LineCursor) : List (List Char) → Prop
  | here : Spelled [.symbol '\x7b'] line.rest → OpensAt line []
  | below {l : List Char} : Spelled [] line.rest →
      Spelled [.symbol '\x7b'] (LineCursor.visible l) → OpensAt line [l]

theorem OpensAt.reads {line : LineCursor} {opening body : List (List Char)} {stage : Stage}
    (h : OpensAt line opening)
    (hbody : LineReader.Reads lineReader (.body .start) body stage) :
    ∃ first, (Stage.header.feed line).verdict = .more first ∧
      LineReader.Reads lineReader first (opening ++ body) stage := by
  cases h with
  | here hopen =>
    have hheader := Stage.feed_header_more_iff.mpr (.inr ⟨spelled_iff.mp hopen, rfl⟩)
    exact ⟨.body .start, hheader, hbody⟩
  | below hblank hopen =>
    have hheader := Stage.feed_header_more_iff.mpr (.inl ⟨spelled_iff.mp hblank, rfl⟩)
    refine ⟨.opening, hheader, .cons ?_ hbody⟩
    intro n
    exact Stage.feedOpening_more_iff.mpr ⟨spelled_iff.mp hopen, rfl⟩

/-- Lines that lead from one state to another only move the reader down. -/
theorem run_of_reads {stage stage' : Stage} {ls ms : List (List Char)} {l : List Char}
    (h : LineReader.Reads lineReader stage ls stage') (line : LineCursor) {before : Stage}
    (hline : (before.feed line).verdict = .more stage) :
    (lineReader.run before line (ls ++ l :: ms)).result.outcome =
      (lineReader.run stage' (.start (line.number + ls.length + 1) l) ms).result.outcome := by
  induction h generalizing before line with
  | nil =>
    rw [List.nil_append, LineReader.run_of_more hline]
    change (lineReader.run _ (.start ((before.feed line).line.number + 1) l) ms).result.outcome = _
    rw [Stage.number_feed]
    rfl
  | @cons stage stage₁ stage₂ x xs hx _ ih =>
    rw [List.cons_append, LineReader.run_of_more hline]
    change (lineReader.run _ (.start ((before.feed line).line.number + 1) x) _).result.outcome = _
    rw [Stage.number_feed, ih (.start (line.number + 1) x) (hx _)]
    have hcount : line.number + 1 + xs.length + 1 = line.number + (x :: xs).length + 1 := by
      rw [List.length_cons]
      omega
    rw [← hcount]
    rfl

theorem Draft.afterLine_of_more {d' : Draft} {line : LineCursor}
    (h : ((Stage.body d).feed line).verdict = .more (.body d')) : d.afterLine line = d' := by
  unfold Draft.afterLine
  simp only [Stage.feed] at h
  split at h
  · cases h
  · next hline =>
    rw [hline]
    cases h
    rfl
  · cases h

/-- Statements leave the same draft, wherever their lines stand. -/
theorem Spells.foldl_afterLine {ls : List (List Char)} (h : Spells ls sts) (n : Nat) {d' : Draft}
    (htake : sts.foldlM Draft.take d = some d') :
    (ls.map (.start n)).foldl Draft.afterLine d = d' := by
  induction h generalizing d with
  | nil =>
    cases htake
    rfl
  | blank hblank _ ih =>
    rw [List.map_cons, List.foldl_cons, Draft.afterLine_of_more
      (Stage.feed_body_more_iff.mpr (.inl ⟨spelled_iff.mp hblank, rfl⟩))]
    exact ih htake
  | statement hst _ ih =>
    obtain ⟨d₁, h₁, htake⟩ := Option.bind_eq_some_iff.mp htake
    rw [List.map_cons, List.foldl_cons, Draft.afterLine_of_more
      (Stage.feed_body_more_iff.mpr (.inr ⟨_, d₁, spelled_iff.mp hst, h₁, rfl⟩))]
    exact ih htake

/-- A label without a line is reported on the line of the closing brace, the one that is used first.
-/
theorem undefined_labels_reported :
    (∀ ls : List LineCursor, ((ls.foldl Draft.afterLine .start).labels.map Label.name).Nodup ∧
      ((ls.foldl Draft.afterLine .start).labels.map Label.block).Nodup) ∧
    ∀ (line : LineCursor) (opening body below : List (List Char)) (closing : List Char)
      (sts : List Statement) (name : String), OpensAt line opening → Spells body sts →
      Spelled [.symbol '\x7d'] (LineCursor.visible closing) →
      (∀ above st rest, sts = above ++ st :: rest → Fits above st) →
      firstUndefined? sts = some name →
      (Reader.read {} ⟨line, opening ++ body ++ closing :: below⟩).2.result.outcome =
        .error (.parse (line.number + (opening ++ body).length + 1)
          ((LineCursor.visible closing).length + 1) (.undefinedLabel name)) ∧
      (Problem.undefinedLabel name).message = "undefined label " ++ name ∧
      ∀ n (table : List Label),
        table.Perm ((body.map (.start n)).foldl Draft.afterLine .start).labels →
        oldestUndefined? table = some name := by
  constructor
  · intro ls
    have htabled := Draft.tabled_start.foldl_afterLine ls
    exact ⟨htabled.names, htabled.nodup_blocks⟩
  · intro line opening body below closing sts name hopens hbody hclosing hfits hname
    obtain ⟨d, htakes⟩ : ∃ d, sts.foldlM Draft.take .start = some d := by
      obtain ⟨o, ho⟩ := Option.isSome_iff_exists.mp ((foldlM_take_isSome_iff sts).mpr hfits)
      have hall := describes_start.takeAll Outline.valid_start sts
      rw [ho] at hall
      obtain ⟨d, hd, -⟩ := hall.exists_draft
      exact ⟨d, hd⟩
    rw [← undefinedLabel?_eq htakes] at hname
    refine ⟨?_, rfl, ?_⟩
    · obtain ⟨stage, hheader, hreads⟩ := hopens.reads (hbody.reads htakes)
      rw [Reader.read_idle]
      change (lineReader.run .header line _).result.outcome = _
      rw [run_of_reads hreads line hheader,
        LineReader.run_of_failed (feed_closing (spelled_iff.mp hclosing) hname)]
      simp [LineCursor.start]
    · intro n table hperm
      have htabled := Draft.tabled_start.foldl_afterLine (body.map (.start n))
      rw [htabled.oldestUndefined?_eq hperm, hbody.foldl_afterLine n htakes]
      exact hname

/-- The label that is used first comes last in the alphabet, and the text goes on below. -/
theorem undefined_label_used_first :
    (Reader.read {} ⟨.start 3 " \x7b".toList, ["", "reg x", "if (x) goto z", "b: # here", "goto a",
        "\x7d", "goto"].map String.toList⟩).2.result.outcome =
      .error (.parse 9 2 (.undefinedLabel "z")) := by
  have hfits := (foldlM_take_isSome_iff [.register "x", .perform (.branch "x" "z"), .label "b",
    .goto "a"]).mp (by decide +kernel)
  have hbody : Spells (["", "reg x", "if (x) goto z", "b: # here", "goto a"].map String.toList)
      [.register "x", .perform (.branch "x" "z"), .label "b", .goto "a"] := by
    refine .blank ?_ (.statement ?_ (.statement ?_ (.statement ?_ (.statement ?_ .nil))))
    all_goals exact spelled_iff.mpr (by decide +kernel)
  have hcolumn : (LineCursor.visible "\x7d".toList).length = 1 := by decide +kernel
  have hread := (undefined_labels_reported.2 (.start 3 " \x7b".toList) [] _ ["goto".toList]
    "\x7d".toList _ "z" (.here (spelled_iff.mpr (by decide +kernel))) hbody
    (spelled_iff.mpr (by decide +kernel)) hfits (by decide +kernel)).1
  rw [hcolumn] at hread
  exact hread

end FlowGraph.Function
