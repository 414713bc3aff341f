import FlowGraph.Proofs.Reading.Composition
import FlowGraph.Proofs.Reading.Runs
import FlowGraph.Proofs.Text.Rewriting

/-!
# Blank lines and comments

Blanks and comments at the end of a line leave its tokens as they are, and a line of nothing else
has no tokens. Between functions and in a body such a line changes nothing. The one place where it
does is between the name of a function and the line of its brace.
-/

namespace FlowGraph

open Text

set_option autoImplicit false

namespace Text

/-- A line with the name of a function but without its brace. -/
def IsBareHeader (line : List Char) : Prop :=
  ∃ name, Spelled [.word "fun", .word name] (LineCursor.visible line)

/-- A line with nothing but the brace of a function. -/
def IsOpening (line : List Char) : Prop :=
  Spelled [.symbol '\x7b'] (LineCursor.visible line)

/-- The place between a line and the lines below it is within a header. -/
def PartsHeader (above : Option (List Char)) (below : List (List Char)) : Prop :=
  (∃ l ∈ above, IsBareHeader l) ∧ ∃ l ∈ below.head?, IsOpening l

/-- The second lines are the first ones with further blanks, comments and blank lines, but not
within a header. -/
inductive Annotated : Option (List Char) → List (List Char) → List (List Char) → Prop
  | nil {above : Option (List Char)} : Annotated above [] []
  | insert {above : Option (List Char)} {ls ls' : List (List Char)} (l : List Char) :
      IsTrailer l → ¬PartsHeader above ls → Annotated above ls ls' → Annotated above ls (l :: ls')
  | line {above : Option (List Char)} {ls ls' : List (List Char)} (l cs cs' : List Char) :
      IsTrailer cs → IsTrailer cs' → Annotated (some (l ++ cs)) ls ls' →
      Annotated above ((l ++ cs) :: ls) ((l ++ cs') :: ls')

end Text

namespace Function.Stage

variable {stage stage' : Stage} {line line' : LineCursor} {f : Function}

theorem feed_more_congr (h : tokens line.rest = tokens line'.rest) :
    (stage.feed line).verdict = .more stage' ↔ (stage.feed line').verdict = .more stage' := by
  cases stage with
  | header => rw [feed_header_more_iff, feed_header_more_iff, h]
  | opening =>
    change (feedOpening line).verdict = _ ↔ (feedOpening line').verdict = _
    rw [feedOpening_more_iff, feedOpening_more_iff, h]
  | body d => rw [feed_body_more_iff, feed_body_more_iff, h]

theorem feed_done_congr (h : tokens line.rest = tokens line'.rest) :
    (stage.feed line).verdict = .done f ↔ (stage.feed line').verdict = .done f := by
  cases stage with
  | header => exact iff_of_false feed_header_ne_done feed_header_ne_done
  | opening => exact iff_of_false feedOpening_ne_done feedOpening_ne_done
  | body d => rw [feed_body_done_iff, feed_body_done_iff, h]

end Function.Stage

namespace Program

variable {policy : DuplicatePolicy} {p : Program} {s s' : Stage} {l : List Char}
  {ls ls' : List (List Char)} {above : Option (List Char)}

theorem Stage.feed_more_congr {line line' : LineCursor} (h : tokens line.rest = tokens line'.rest) :
    (s.feed line).verdict = .more s' ↔ (s.feed line').verdict = .more s' := by
  cases s with
  | between p => rw [feed_between_more_iff, feed_between_more_iff, h]
  | within p name stage =>
    simp only [feed_within_more_iff, Function.Stage.feed_more_congr h,
      Function.Stage.feed_done_congr h]

theorem Stage.feed_start {n : Nat} (h : (s.feed (.start n l)).verdict = .more s') (m : Nat) :
    (s.feed (.start m l)).verdict = .more s' := by
  have hsame : tokens (LineCursor.start n l).rest = tokens (LineCursor.start m l).rest := rfl
  exact (feed_more_congr hsame).mp h

theorem reads_of_run {n : Nat}
    (h : (lineReader.run s (.start n l) ls).result.outcome = .ok p) :
    LineReader.Reads lineReader s (l :: ls) (.between p) := by
  induction ls generalizing s l n with
  | nil =>
    obtain hdone | ⟨s', hmore, hrest⟩ := LineReader.run_ok_cases h
    · exact absurd hdone Stage.feed_ne_done
    · refine .cons (Stage.feed_start hmore) ?_
      obtain ⟨-, last, hfinish⟩ | ⟨_, _, _, hnil, -⟩ := hrest
      · cases s' with
        | between q =>
          cases hfinish
          exact .nil
        | within q name stage => cases hfinish
      · cases hnil
  | cons x xs ih =>
    obtain hdone | ⟨s', hmore, hrest⟩ := LineReader.run_ok_cases h
    · exact absurd hdone Stage.feed_ne_done
    · refine .cons (Stage.feed_start hmore) ?_
      obtain ⟨hnil, -⟩ | ⟨_, _, _, hcons, hrun⟩ := hrest
      · cases hnil
      · cases hcons
        exact ih hrun

theorem parse_ok_iff {text : String} : (parse policy text).outcome = .ok p ↔
    LineReader.Reads lineReader (.between { policy }) (lines text.toList) (.between p) := by
  cases hl : lines text.toList with
  | nil =>
    rw [outcome_parse_of_nil hl]
    constructor
    · intro h
      cases h
      exact .nil
    · intro h
      cases h
      rfl
  | cons l ls =>
    rw [outcome_parse_of_cons hl]
    exact ⟨reads_of_run, fun h => h.run_finish 1 fun _ => rfl⟩

theorem reads_cons_iff : LineReader.Reads lineReader s (l :: ls) s' ↔
    ∃ s₁, (∀ n, (s.feed (.start n l)).verdict = .more s₁) ∧
      LineReader.Reads lineReader s₁ ls s' := by
  constructor
  · intro h
    obtain _ | ⟨hl, hrest⟩ := h
    exact ⟨_, hl, hrest⟩
  · rintro ⟨s₁, hl, hrest⟩
    exact .cons hl hrest

/-- A reader waits for a brace only right below the name of a function. -/
def Stage.Follows (above : Option (List Char)) : Stage → Prop
  | .within _ _ .header => False
  | .within _ _ .opening => ∃ l ∈ above, IsBareHeader l
  | _ => True

theorem Stage.follows_of_feed {n : Nat} (hs : s.Follows above)
    (h : (s.feed (.start n l)).verdict = .more s') : s'.Follows (some l) := by
  cases s with
  | between p =>
    rcases feed_between_more_iff.mp h with ⟨-, rfl⟩ | ⟨name, ts, hts, -, ⟨rfl, rfl⟩ | ⟨-, rfl⟩⟩
    · trivial
    · exact ⟨l, rfl, name, spelled_iff.mpr hts⟩
    · trivial
  | within p name stage =>
    rcases feed_within_more_iff.mp h with ⟨stage', hstage, rfl⟩ | ⟨f, p', -, -, rfl⟩
    · cases stage with
      | header => exact hs.elim
      | opening =>
        obtain ⟨-, rfl⟩ := Function.Stage.feedOpening_more_iff.mp hstage
        trivial
      | body d =>
        rcases Function.Stage.feed_body_more_iff.mp hstage with ⟨-, rfl⟩ | ⟨-, -, -, -, rfl⟩
        · trivial
        · trivial
    · trivial

/-- Only a reader that waits for a brace minds an empty line. -/
theorem Stage.feed_of_tokens_nil {line : LineCursor} (hs : s.Follows above)
    (hne : ∀ q name, s ≠ .within q name .opening) (h : tokens line.rest = []) :
    (s.feed line).verdict = .more s := by
  cases s with
  | between p => exact feed_between_more_iff.mpr (.inl ⟨h, rfl⟩)
  | within p name stage =>
    cases stage with
    | header => exact hs.elim
    | opening => exact absurd rfl (hne p name)
    | body d =>
      refine feed_within_more_iff.mpr (.inl ⟨.body d, ?_, rfl⟩)
      exact Function.Stage.feed_body_more_iff.mpr (.inl ⟨h, rfl⟩)

/-- A reader that waits for a brace accepts only if the brace comes next. -/
theorem isOpening_of_reads {q : Program} {name : String}
    (h : LineReader.Reads lineReader (.within q name .opening) ls (.between p)) :
    ∃ l ∈ ls.head?, IsOpening l := by
  cases ls with
  | nil => cases h
  | cons l ls =>
    obtain ⟨s₁, hl, -⟩ := reads_cons_iff.mp h
    refine ⟨l, rfl, spelled_iff.mpr ?_⟩
    rcases Stage.feed_within_more_iff.mp (hl 1) with ⟨stage, hstage, -⟩ | ⟨f, p', hdone, -, -⟩
    · exact (Function.Stage.feedOpening_more_iff.mp hstage).1
    · exact absurd hdone Function.Stage.feedOpening_ne_done

theorem reads_insert_iff (hs : s.Follows above) (hl : IsTrailer l) (hplace : ¬PartsHeader above ls)
    (h : LineReader.Reads lineReader s ls (.between p) ↔
      LineReader.Reads lineReader s ls' (.between p)) :
    LineReader.Reads lineReader s ls (.between p) ↔
      LineReader.Reads lineReader s (l :: ls') (.between p) := by
  by_cases hopen : ∃ q name, s = .within q name .opening
  · obtain ⟨q, name, rfl⟩ := hopen
    refine iff_of_false (fun hreads => hplace ⟨hs, isOpening_of_reads hreads⟩) fun hreads => ?_
    obtain ⟨x, hx, hbrace⟩ := isOpening_of_reads hreads
    cases hx
    have htokens : shown l = [.symbol '\x7b'] := spelled_iff.mp hbrace
    rw [hl.shown] at htokens
    cases htokens
  · rw [h, reads_cons_iff]
    have hmore : ∀ n, (s.feed (.start n l)).verdict = .more s := fun n =>
      Stage.feed_of_tokens_nil hs (fun q name heq => hopen ⟨q, name, heq⟩) hl.shown
    constructor
    · exact fun hreads => ⟨s, hmore, hreads⟩
    · rintro ⟨s₁, hl₁, hreads⟩
      obtain rfl := Verdict.more.inj ((hmore 1).symm.trans (hl₁ 1))
      exact hreads

theorem reads_annotated_iff (h : Annotated above ls ls') (hs : s.Follows above) :
    LineReader.Reads lineReader s ls (.between p) ↔
      LineReader.Reads lineReader s ls' (.between p) := by
  induction h generalizing s with
  | nil => exact Iff.rfl
  | insert l hl hplace _ ih => exact reads_insert_iff hs hl hplace (ih hs)
  | line l cs cs' hcs hcs' _ ih =>
    have htokens : shown (l ++ cs) = shown (l ++ cs') := by
      rw [shown_append l hcs, shown_append l hcs']
    rw [reads_cons_iff, reads_cons_iff]
    refine exists_congr fun s₁ => ?_
    have hfeed : ∀ n, (s.feed (.start n (l ++ cs))).verdict = .more s₁ ↔
        (s.feed (.start n (l ++ cs'))).verdict = .more s₁ := fun n => Stage.feed_more_congr htokens
    constructor
    · rintro ⟨hl, hreads⟩
      exact ⟨fun n => (hfeed n).mp (hl n), (ih (Stage.follows_of_feed hs (hl 1))).mp hreads⟩
    · rintro ⟨hl, hreads⟩
      have hl := fun n => (hfeed n).mpr (hl n)
      exact ⟨hl, (ih (Stage.follows_of_feed hs (hl 1))).mpr hreads⟩

theorem Reader.outcome_read (policy : DuplicatePolicy) (text : String) :
    (read { cursor := .ofText text.toList, policy }).2.outcome = (parse policy text).outcome := by
  simp only [read, parse, Bool.false_eq_true, if_false]
  split
  · rfl
  · rfl

/-- Blank lines and comments carry no meaning. -/
theorem read_annotated {text text' : String}
    (h : Annotated none (lines text.toList) (lines text'.toList)) (policy : DuplicatePolicy)
    (p : Program) :
    (Reader.read { cursor := .ofText text.toList, policy }).2.outcome = .ok p ↔
      (Reader.read { cursor := .ofText text'.toList, policy }).2.outcome = .ok p := by
  rw [Reader.outcome_read, Reader.outcome_read, parse_ok_iff, parse_ok_iff]
  exact reads_annotated_iff h trivial

/-- Comments and empty lines stand wherever they may, also at the end of the line of a name. -/
theorem read_annotated_loop : ∃ text text' p,
    text = "fun f\n\x7b\nl:\n  goto l\n\x7d" ∧
    text' = " # head\r\nfun f # name\n\x7b  \n\n\t#body\nl:# here\n  goto l\n\x7d\t# end\n#" ∧
    Annotated none (lines text.toList) (lines text'.toList) ∧ p.names = ["f"] ∧
    (Reader.read { cursor := .ofText text.toList, policy := .reject }).2.outcome = .ok p ∧
    (Reader.read { cursor := .ofText text'.toList, policy := .reject }).2.outcome = .ok p := by
  have hview : (parse .reject "fun f\n\x7b\nl:\n  goto l\n\x7d").outcome.toOption.map names =
      some ["f"] := by
    decide +kernel
  obtain ⟨p, hp, hnames⟩ := Option.map_eq_some_iff.mp hview
  have hread := (Reader.outcome_read _ _).trans (eq_ok_of_toOption hp)
  have hnone : IsTrailer [] := isTrailer_append [] [] rfl (.inl rfl)
  have hfirst : ¬PartsHeader none (lines "fun f\n\x7b\nl:\n  goto l\n\x7d".toList) := by
    rintro ⟨⟨l, hl, -⟩, -⟩
    cases hl
  have hbody : ∀ above ls, ¬PartsHeader above ("l:".toList :: ls) := by
    rintro above ls ⟨-, l, hl, hopen⟩
    cases hl
    have htokens := spelled_iff.mp hopen
    have hvisible : LineCursor.visible "l:".toList = ['l', ':'] := by decide
    rw [hvisible, tokens_word (by decide)] at htokens
    cases htokens
  have hlast : ∀ above, ¬PartsHeader above [] := by
    rintro above ⟨-, l, hl, -⟩
    cases hl
  have h : Annotated none (lines "fun f\n\x7b\nl:\n  goto l\n\x7d".toList)
      (lines (" # head\r\nfun f # name\n\x7b  \n\n\t#body\nl:# here\n  goto l\n\x7d\t# end\n#" :
        String).toList) := by
    refine .insert " # head".toList
      (isTrailer_append [' '] "# head".toList (by decide) (.inr rfl)) hfirst ?_
    refine .line "fun f".toList [] " # name".toList hnone
      (isTrailer_append [' '] "# name".toList (by decide) (.inr rfl)) ?_
    refine .line "\x7b".toList [] "  ".toList hnone
      (isTrailer_append "  ".toList [] (by decide) (.inl rfl)) ?_
    refine .insert [] hnone (hbody _ _) ?_
    refine .insert "\t#body".toList (isTrailer_append ['\t'] "#body".toList (by decide) (.inr rfl))
      (hbody _ _) ?_
    refine .line "l:".toList [] "# here".toList hnone
      (isTrailer_append [] "# here".toList (by decide) (.inr rfl)) ?_
    refine .line "  goto l".toList [] [] hnone hnone ?_
    refine .line "\x7d".toList [] "\t# end".toList hnone
      (isTrailer_append ['\t'] "# end".toList (by decide) (.inr rfl)) ?_
    exact .insert "#".toList (isTrailer_append [] "#".toList (by decide) (.inr rfl)) (hlast _) .nil
  exact ⟨_, _, p, rfl, rfl, h, hnames, hread, (read_annotated h .reject p).mp hread⟩

end Program

end FlowGraph
