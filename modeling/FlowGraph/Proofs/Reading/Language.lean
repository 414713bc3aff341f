import FlowGraph.Proofs.Reading.Context
import FlowGraph.Proofs.Reading.Description
import FlowGraph.Proofs.Reading.Runs

/-!
# The language of functions

Which texts are functions: an opening brace, lines that are blank or spell one statement each, and
a closing brace, where every statement fits below the ones above it. The reader accepts these texts
and no others.
-/

namespace FlowGraph.Function

open Text

set_option autoImplicit false

/-- The opening brace is alone on the first line, or on the second one below a blank line. -/
inductive Opens : List (List Char) → Prop
  | first {l : List Char} : Spelled [.symbol '\x7b'] (LineCursor.visible l) → Opens [l]
  | second {blank l : List Char} : Spelled [] (LineCursor.visible blank) →
      Spelled [.symbol '\x7b'] (LineCursor.visible l) → Opens [blank, l]

/-- Each of the lines is blank or spells the next statement, up to its comment. -/
inductive Spells : List (List Char) → List Statement → Prop
  | nil : Spells [] []
  | blank {l : List Char} {ls : List (List Char)} {sts : List Statement} :
      Spelled [] (LineCursor.visible l) → Spells ls sts → Spells (l :: ls) sts
  | statement {l : List Char} {ls : List (List Char)} {st : Statement} {sts : List Statement} :
      Spelled st.tokens (LineCursor.visible l) → Spells ls sts → Spells (l :: ls) (st :: sts)

/-- These lines start with a function of these statements. What stands below its closing brace does
not count. -/
def Presents (ls : List (List Char)) (sts : List Statement) : Prop :=
  ∃ opening body closing below, ls = opening ++ body ++ closing :: below ∧ Opens opening ∧
    Spells body sts ∧ Spelled [.symbol '\x7d'] (LineCursor.visible closing)

variable {l : List Char} {ls : List (List Char)} {sts : List Statement} {d d' : Draft}
  {f : Function}

/-- Tells a statement from its tokens. What all statements of a form share is not looked at. -/
def Statement.ofTokens? : List Token → Option Statement
  | [.word name, .symbol _] => some (.label name)
  | [.word first, .word name] => some (if first = "reg" then .register name else .goto name)
  | [.word result, .symbol _, .symbol _, .word lhs, .symbol c, .word rhs] =>
    (ArithOp.ofChar? c).map fun op => .perform (.arith op lhs rhs result)
  | [.word _, .symbol _, .word cond, .symbol _, .word _, .word target] =>
    some (.perform (.branch cond target))
  | [.word _] => some (.perform .nop)
  | _ => none

theorem Statement.ofTokens?_tokens (st : Statement) : ofTokens? st.tokens = some st := by
  cases st with
  | label name => rfl
  | register name => rfl
  | goto target => rfl
  | perform op =>
    cases op with
    | arith op lhs rhs result => simp [tokens, NamedOp.tokens, ofTokens?]
    | branch cond target => rfl
    | nop => rfl

theorem Statement.tokens_inj {st st' : Statement} (h : st.tokens = st'.tokens) : st = st' := by
  apply Option.some.inj
  rw [← ofTokens?_tokens st, ← ofTokens?_tokens st', h]

theorem Opens.rest_unique {opening opening' rest rest' : List (List Char)} (h : Opens opening)
    (h' : Opens opening') (heq : opening ++ rest = opening' ++ rest') : rest = rest' := by
  cases h with
  | first hopen =>
    cases h' with
    | first hopen' => exact (List.cons.inj heq).2
    | second hblank' hopen' =>
      obtain ⟨rfl, -⟩ := List.cons.inj heq
      cases hopen.unique hblank'
  | second hblank hopen =>
    cases h' with
    | first hopen' =>
      obtain ⟨rfl, -⟩ := List.cons.inj heq
      cases hopen'.unique hblank
    | second hblank' hopen' => exact (List.cons.inj (List.cons.inj heq).2).2

/-- A line is not both a statement, or blank, and the closing brace. -/
theorem Spells.unique {body body' below below' : List (List Char)} {closing closing' : List Char}
    {sts' : List Statement} (h : Spells body sts) (h' : Spells body' sts')
    (hc : Spelled [.symbol '\x7d'] (LineCursor.visible closing))
    (hc' : Spelled [.symbol '\x7d'] (LineCursor.visible closing'))
    (heq : body ++ closing :: below = body' ++ closing' :: below') : sts = sts' := by
  have hbrace : ∀ st : Statement, st.tokens ≠ [.symbol '\x7d'] := by
    intro st hst
    obtain ⟨name, hname⟩ := st.exists_word
    rw [hst] at hname
    cases hname
  induction h generalizing body' sts' with
  | nil =>
    cases h' with
    | nil => rfl
    | blank hblank _ =>
      obtain ⟨rfl, -⟩ := List.cons.inj heq
      cases hc.unique hblank
    | statement hst _ =>
      obtain ⟨rfl, -⟩ := List.cons.inj heq
      exact absurd (hst.unique hc) (hbrace _)
  | blank hblank _ ih =>
    cases h' with
    | nil =>
      obtain ⟨rfl, -⟩ := List.cons.inj heq
      cases hc'.unique hblank
    | blank _ hrest => exact ih hrest (List.cons.inj heq).2
    | statement hst _ =>
      obtain ⟨rfl, -⟩ := List.cons.inj heq
      exact absurd (hst.unique hblank) (Statement.tokens_ne_nil _)
  | statement hst _ ih =>
    cases h' with
    | nil =>
      obtain ⟨rfl, -⟩ := List.cons.inj heq
      exact absurd (hst.unique hc') (hbrace _)
    | blank hblank _ =>
      obtain ⟨rfl, -⟩ := List.cons.inj heq
      exact absurd (hst.unique hblank) (Statement.tokens_ne_nil _)
    | statement hst' hrest =>
      obtain ⟨rfl, hbelow⟩ := List.cons.inj heq
      rw [Statement.tokens_inj (hst.unique hst'), ih hrest hbelow]

theorem Presents.unique {sts' : List Statement} (h : Presents ls sts) (h' : Presents ls sts') :
    sts = sts' := by
  obtain ⟨opening, body, closing, below, rfl, hopens, hbody, hclosing⟩ := h
  obtain ⟨opening', body', closing', below', heq, hopens', hbody', hclosing'⟩ := h'
  rw [List.append_assoc, List.append_assoc] at heq
  exact hbody.unique hbody' hclosing hclosing' (hopens.rest_unique hopens' heq)

theorem Opens.reads (h : Opens ls) : LineReader.Reads lineReader .header ls (.body .start) := by
  cases h with
  | first hopen =>
    refine .cons ?_ .nil
    intro n
    exact Stage.feed_header_more_iff.mpr (.inr ⟨spelled_iff.mp hopen, rfl⟩)
  | @second blank l hblank hopen =>
    have hfirst : ∀ n, (lineReader.feed .header (.start n blank)).verdict = .more .opening :=
      fun n => Stage.feed_header_more_iff.mpr (.inl ⟨spelled_iff.mp hblank, rfl⟩)
    refine .cons hfirst (.cons ?_ .nil)
    intro n
    exact Stage.feedOpening_more_iff.mpr ⟨spelled_iff.mp hopen, rfl⟩

theorem Spells.reads (h : Spells ls sts) (htake : sts.foldlM Draft.take d = some d') :
    LineReader.Reads lineReader (.body d) ls (.body d') := by
  induction h generalizing d with
  | nil =>
    cases htake
    exact .nil
  | blank hblank _ ih =>
    refine .cons ?_ (ih htake)
    intro n
    exact Stage.feed_body_more_iff.mpr (.inl ⟨spelled_iff.mp hblank, rfl⟩)
  | @statement l ls st sts hst _ ih =>
    obtain ⟨d₁, h₁, htake⟩ := Option.bind_eq_some_iff.mp htake
    refine .cons ?_ (ih htake)
    intro n
    exact Stage.feed_body_more_iff.mpr (.inr ⟨st, d₁, spelled_iff.mp hst, h₁, rfl⟩)

/-- The lines complete a draft to a function: statements that it takes, then the closing brace. -/
def Completes (d : Draft) (ls : List (List Char)) (sts : List Statement) (f : Function) : Prop :=
  ∃ body closing below, ls = body ++ closing :: below ∧ Spells body sts ∧
    Spelled [.symbol '\x7d'] (LineCursor.visible closing) ∧
    ∃ d' d'', sts.foldlM Draft.take d = some d' ∧ d'.close = some d'' ∧ d''.function = f

theorem completes_of_done {n : Nat} (h : ((Stage.body d).feed (.start n l)).verdict = .done f) :
    Completes d (l :: ls) [] f := by
  obtain ⟨hclosing, d', hclose, hf⟩ := Stage.feed_body_done_iff.mp h
  exact ⟨[], l, ls, rfl, .nil, spelled_iff.mpr hclosing, d, d', rfl, hclose, hf⟩

theorem Completes.blank (h : Completes d ls sts f) (hl : tokens (LineCursor.visible l) = []) :
    Completes d (l :: ls) sts f := by
  obtain ⟨body, closing, below, rfl, hbody, hclosing, hdraft⟩ := h
  exact ⟨l :: body, closing, below, rfl, .blank (spelled_iff.mpr hl) hbody, hclosing, hdraft⟩

theorem Completes.statement {st : Statement} (h : Completes d' ls sts f)
    (hl : tokens (LineCursor.visible l) = st.tokens) (ht : d.take st = some d') :
    Completes d (l :: ls) (st :: sts) f := by
  obtain ⟨body, closing, below, rfl, hbody, hclosing, d₁, d₂, htakes, hclose⟩ := h
  refine ⟨l :: body, closing, below, rfl, .statement (spelled_iff.mpr hl) hbody, hclosing, d₁, d₂,
    ?_, hclose⟩
  rw [List.foldlM_cons, ht]
  exact htakes

theorem exists_completes {n : Nat}
    (h : (lineReader.run (.body d) (.start n l) ls).result.outcome = .ok f) :
    ∃ sts, Completes d (l :: ls) sts f := by
  induction ls generalizing d n l with
  | nil =>
    rcases LineReader.run_ok_cases h with hv | ⟨stage, -, ⟨-, last, hlast⟩ | ⟨m, x, xs, hls, -⟩⟩
    · exact ⟨[], completes_of_done hv⟩
    · cases hlast
    · cases hls
  | cons x xs ih =>
    rcases LineReader.run_ok_cases h with hv | ⟨stage, hv, ⟨hls, -⟩ | ⟨m, y, ys, hls, hrun⟩⟩
    · exact ⟨[], completes_of_done hv⟩
    · cases hls
    · cases hls
      rcases Stage.feed_body_more_iff.mp hv with ⟨hblank, rfl⟩ | ⟨st, d₁, hst, htake, rfl⟩
      · obtain ⟨sts, hsts⟩ := ih hrun
        exact ⟨sts, hsts.blank hblank⟩
      · obtain ⟨sts, hsts⟩ := ih hrun
        exact ⟨st :: sts, hsts.statement hst htake⟩

theorem exists_opens (h : (read (.ofLines ls)).result.outcome = .ok f) :
    ∃ opening n l below, ls = opening ++ l :: below ∧ Opens opening ∧
      (lineReader.run (.body .start) (.start n l) below).result.outcome = .ok f := by
  cases ls with
  | nil =>
    obtain hv | ⟨stage, -, ⟨-, last, hlast⟩ | ⟨m, x, xs, hls, -⟩⟩ := LineReader.run_ok_cases h
    · exact absurd hv Stage.feed_header_ne_done
    · cases hlast
    · cases hls
  | cons l ls =>
    obtain hv | ⟨stage, hv, ⟨-, last, hlast⟩ | ⟨m, x, xs, rfl, hrun⟩⟩ := LineReader.run_ok_cases h
    · exact absurd hv Stage.feed_header_ne_done
    · cases hlast
    · rcases Stage.feed_header_more_iff.mp hv with ⟨hblank, rfl⟩ | ⟨hopen, rfl⟩
      · obtain hw | ⟨stage, hw, ⟨-, last, hlast⟩ | ⟨k, y, ys, rfl, hrun⟩⟩ :=
          LineReader.run_ok_cases hrun
        · exact absurd hw Stage.feedOpening_ne_done
        · cases hlast
        · obtain ⟨hopen, rfl⟩ := Stage.feedOpening_more_iff.mp hw
          exact ⟨[l, x], k, y, ys, rfl, .second (spelled_iff.mpr hblank) (spelled_iff.mpr hopen),
            hrun⟩
      · exact ⟨[l], m, x, xs, rfl, .first (spelled_iff.mpr hopen), hrun⟩

/-- The reader accepts a text exactly if the text presents statements that a draft takes. -/
theorem read_ok_iff : (read (.ofLines ls)).result.outcome = .ok f ↔
    ∃ sts d d', Presents ls sts ∧ sts.foldlM Draft.take .start = some d ∧ d.close = some d' ∧
      d'.function = f := by
  constructor
  · intro h
    obtain ⟨opening, n, l, below, rfl, hopens, hrun⟩ := exists_opens h
    obtain ⟨sts, body, closing, rest, hlines, hbody, hclosing, d, d', hd⟩ := exists_completes hrun
    refine ⟨sts, d, d', ⟨opening, body, closing, rest, ?_, hopens, hbody, hclosing⟩, hd⟩
    rw [hlines, List.append_assoc]
  · rintro ⟨sts, d, d', ⟨opening, body, closing, below, rfl, hopens, hbody, hclosing⟩, htakes,
      hclose, rfl⟩
    have hreads := hopens.reads.append (hbody.reads htakes)
    have hdone : ∀ n, (lineReader.feed (.body d) (.start n closing)).verdict = .done d'.function :=
      fun n => Stage.feed_body_done_iff.mpr ⟨spelled_iff.mp hclosing, d', hclose, rfl⟩
    cases hls : opening ++ body with
    | nil =>
      cases hopens <;> cases hls
    | cons x xs =>
      rw [List.cons_append]
      exact hreads.run_done hdone 1 (by rw [hls]; rfl)

theorem exists_draft_iff_proper (sts : List Statement) :
    (∃ d d', sts.foldlM Draft.take .start = some d ∧ d.close = some d') ↔ Proper sts := by
  rw [← exists_outline_iff_proper]
  have hall := describes_start.takeAll Outline.valid_start sts
  constructor
  · rintro ⟨d, d', hd, hclose⟩
    rw [hd] at hall
    obtain ⟨o, ho, hdescribes⟩ := hall.exists_outline
    have hclosed := hdescribes.close (Outline.valid_start.takeAll ho)
    rw [hclose] at hclosed
    obtain ⟨o', ho', -⟩ := hclosed.exists_outline
    exact ⟨o, o', ho, ho'⟩
  · rintro ⟨o, o', ho, hclose⟩
    rw [ho] at hall
    obtain ⟨d, hd, hdescribes⟩ := hall.exists_draft
    have hclosed := hdescribes.close (Outline.valid_start.takeAll ho)
    rw [hclose] at hclosed
    obtain ⟨d', hd', -⟩ := hclosed.exists_draft
    exact ⟨d, d', hd, hd'⟩

theorem Reader.read_idle (c : Cursor) : (Reader.read {} c).2 = Function.read c := by
  simp only [Reader.read, Bool.false_eq_true, if_false]
  split <;> rfl

/-- An idle reader accepts a text exactly if the text presents a proper list of statements. -/
theorem idle_reader_accepts_iff (text : String) :
    (∃ f, (Reader.read {} (.ofText text.toList)).2.result.outcome = .ok f) ↔
      ∃ sts, Presents (lines text.toList) sts ∧ Proper sts := by
  simp only [Reader.read_idle, Cursor.ofText, read_ok_iff, ← exists_draft_iff_proper]
  constructor
  · rintro ⟨f, sts, d, d', hsts, hd, hclose, -⟩
    exact ⟨sts, hsts, d, d', hd, hclose⟩
  · rintro ⟨sts, hsts, d, d', hd, hclose⟩
    exact ⟨d'.function, sts, d, d', hsts, hd, hclose, rfl⟩

end FlowGraph.Function
