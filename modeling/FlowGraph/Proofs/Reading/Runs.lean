import FlowGraph.Program.Reading
import FlowGraph.Proofs.Reading.Statements

/-!
# Runs of readers

What a reader makes of a line depends on the tokens of the line only. From this follows what it
makes of a list of lines, and what holds of every value that it accepts.
-/

namespace FlowGraph

open Text

set_option autoImplicit false

namespace Text.LineReader

variable {σ α : Type} {r : LineReader σ α} {s s' s'' : σ} {l : List Char}
  {ls ms : List (List Char)} {value : α}

/-- These lines lead from one state to another, wherever they stand. -/
inductive Reads (r : LineReader σ α) : σ → List (List Char) → σ → Prop
  | nil {s : σ} : Reads r s [] s
  | cons {s s' s'' : σ} {l : List Char} {ls : List (List Char)} :
      (∀ n, (r.feed s (.start n l)).verdict = .more s') → Reads r s' ls s'' →
      Reads r s (l :: ls) s''

theorem Reads.append (h : Reads r s ls s') (h' : Reads r s' ms s'') :
    Reads r s (ls ++ ms) s'' := by
  induction h with
  | nil => exact h'
  | cons hl _ ih => exact .cons hl (ih h')

theorem run_of_more {line : LineCursor} (h : (r.feed s line).verdict = .more s') :
    (r.run s line (l :: ls)).result.outcome =
      (r.run s' (.start ((r.feed s line).line.number + 1) l) ls).result.outcome := by
  rw [run, h]
  rfl

theorem run_last {line : LineCursor} (h : (r.feed s line).verdict = .more s') :
    (r.run s line []).result.outcome =
      (r.finish s' (r.feed s line).line.skipRest).outcome := by
  rw [run, h]
  rfl

theorem run_of_done {line : LineCursor} (h : (r.feed s line).verdict = .done value) :
    (r.run s line ls).result.outcome = .ok value := by
  cases ls <;> rw [run, h]

theorem run_of_failed {line : LineCursor} {e : Error} (h : (r.feed s line).verdict = .failed e) :
    (r.run s line ls).result.outcome = .error e := by
  cases ls <;> rw [run, h]

/-- A reader that is done after some lines does not look at the lines below. -/
theorem Reads.run_done (h : Reads r s ls s')
    (hdone : ∀ n, (r.feed s' (.start n l)).verdict = .done value) (n : Nat) {x : List Char}
    {xs : List (List Char)} (hx : x :: xs = ls ++ l :: ms) :
    (r.run s (.start n x) xs).result.outcome = .ok value := by
  induction h generalizing n x xs with
  | nil =>
    cases hx
    exact run_of_done (hdone n)
  | @cons s s' s'' y ys hl _ ih =>
    obtain ⟨rfl, hxs⟩ := List.cons.inj hx
    cases xs with
    | nil => simp at hxs
    | cons z zs =>
      rw [run_of_more (hl n)]
      exact ih hdone _ hxs

theorem Reads.run_finish (h : Reads r s (l :: ls) s') (n : Nat) {outcome : Except Error α}
    (hfinish : ∀ line, (r.finish s' line).outcome = outcome) :
    (r.run s (.start n l) ls).result.outcome = outcome := by
  induction ls generalizing s l n with
  | nil =>
    obtain _ | ⟨hl, hnil⟩ := h
    cases hnil
    rw [run_last (hl n)]
    exact hfinish _
  | cons x xs ih =>
    obtain _ | ⟨hl, hrest⟩ := h
    rw [run_of_more (hl n)]
    exact ih hrest _

/-- An accepting run is done with the line, or it accepts at the end of the text or in the lines
below. -/
theorem run_ok_cases {line : LineCursor} (h : (r.run s line ls).result.outcome = .ok value) :
    (r.feed s line).verdict = .done value ∨
    ∃ s', (r.feed s line).verdict = .more s' ∧
      ((ls = [] ∧ ∃ last, (r.finish s' last).outcome = .ok value) ∨
        ∃ n l below, ls = l :: below ∧
          (r.run s' (.start n l) below).result.outcome = .ok value) := by
  cases hv : (r.feed s line).verdict with
  | done v =>
    rw [run_of_done hv] at h
    cases h
    exact .inl rfl
  | failed e =>
    rw [run_of_failed hv] at h
    cases h
  | more s' =>
    refine .inr ⟨s', rfl, ?_⟩
    cases ls with
    | nil =>
      rw [run_last hv] at h
      exact .inl ⟨rfl, _, h⟩
    | cons l below =>
      rw [run_of_more hv] at h
      exact .inr ⟨_, l, below, rfl, h⟩

/-- What every line keeps holds when the reader accepts. -/
theorem run_invariant (I : σ → Prop) {P : α → Prop}
    (hmore : ∀ s line s', I s → (r.feed s line).verdict = .more s' → I s')
    (hdone : ∀ s line v, I s → (r.feed s line).verdict = .done v → P v)
    (hfinish : ∀ s line v, I s → (r.finish s line).outcome = .ok v → P v)
    {line : LineCursor} (hs : I s) (h : (r.run s line ls).result.outcome = .ok value) :
    P value := by
  induction ls generalizing s line with
  | nil =>
    rcases run_ok_cases h with hv | ⟨s', hv, ⟨-, last, h⟩ | ⟨n, l, below, hls, -⟩⟩
    · exact hdone s line value hs hv
    · exact hfinish s' last value (hmore s line s' hs hv) h
    · cases hls
  | cons l ls ih =>
    rcases run_ok_cases h with hv | ⟨s', hv, ⟨hls, -⟩ | ⟨n, l, below, hls, h⟩⟩
    · exact hdone s line value hs hv
    · cases hls
    · cases hls
      exact ih (hmore s line s' hs hv) h

def runBelow (r : LineReader σ α) (s : σ) (line : LineCursor) : List (List Char) → Reading α
  | [] => ⟨r.finish s line.skipRest, ⟨line.skipRest, []⟩⟩
  | l :: ls => r.run s (.start (line.number + 1) l) ls

theorem run_eq (r : LineReader σ α) (s : σ) (line : LineCursor) (ls : List (List Char)) :
    r.run s line ls =
      match (r.feed s line).verdict with
      | .done value => ⟨⟨.ok value, (r.feed s line).log⟩, ⟨(r.feed s line).line, ls⟩⟩
      | .failed e => ⟨⟨.error e, (r.feed s line).log⟩, ⟨(r.feed s line).line, ls⟩⟩
      | .more s' => .after (r.feed s line).log (r.runBelow s' (r.feed s line).line ls) := by
  rw [run]
  dsimp only
  cases (r.feed s line).verdict with
  | done value => rfl
  | failed e => rfl
  | more s' => cases ls <;> rfl

theorem after_after (log log' : List Event) (reading : Reading α) :
    Reading.after log (.after log' reading) = .after (log ++ log') reading := by
  simp only [Reading.after, List.append_assoc]

/-- All that a reader looks at is what it makes of the line. -/
theorem run_congr {line line' : LineCursor} (h : r.feed s line = r.feed s' line') :
    r.run s line ls = r.run s' line' ls := by
  conv =>
    lhs
    rw [run, h]
  conv =>
    rhs
    rw [run]

/-- A reader does not go back in a text. -/
theorem length_below_run (r : LineReader σ α) (s : σ) (line : LineCursor)
    (ls : List (List Char)) : (r.run s line ls).cursor.below.length ≤ ls.length := by
  induction ls generalizing s line with
  | nil =>
    rw [run]
    dsimp only
    split <;> exact Nat.le_refl _
  | cons l ls ih =>
    rw [run]
    dsimp only
    split
    · exact Nat.le_refl _
    · exact Nat.le_refl _
    · exact Nat.le_trans (ih _ _) (Nat.le_succ _)

/-- Every error comes from a line or from the end of the text. -/
theorem run_error_cases (E : Error → Prop)
    (hfeed : ∀ s line e, (r.feed s line).verdict = .failed e → E e)
    (hfinish : ∀ s line e, (r.finish s line).outcome = .error e → E e) {line : LineCursor}
    {e : Error} (h : (r.run s line ls).result.outcome = .error e) : E e := by
  induction ls generalizing s line with
  | nil =>
    cases hv : (r.feed s line).verdict with
    | done v =>
      rw [run_of_done hv] at h
      cases h
    | failed e' =>
      rw [run_of_failed hv] at h
      cases h
      exact hfeed s line e hv
    | more s' =>
      rw [run_last hv] at h
      exact hfinish s' _ e h
  | cons l ls ih =>
    cases hv : (r.feed s line).verdict with
    | done v =>
      rw [run_of_done hv] at h
      cases h
    | failed e' =>
      rw [run_of_failed hv] at h
      cases h
      exact hfeed s line e hv
    | more s' =>
      rw [run_of_more hv] at h
      exact ih h

end Text.LineReader

namespace Function.Stage

variable {d : Draft} {line : LineCursor} {stage : Stage} {f : Function}

theorem feedOpening_more_iff : (feedOpening line).verdict = .more stage ↔
    tokens line.rest = [.symbol '\x7b'] ∧ stage = .body .start := by
  have hopen : isIdStart '\x7b' = false := by decide
  unfold feedOpening
  by_cases hhead : (tokens line.rest).head? = some (.symbol '\x7b')
  · have hsymbol := Scan.symbol_eq hopen line
    rw [if_pos hhead] at hsymbol
    rw [step_bind_of_ok hsymbol, Scan.endOfLine_eq, LineCursor.tokens_nextToken]
    by_cases htail : (tokens line.rest).tail = []
    · have htokens := head?_tail_iff.mp ⟨hhead, htail⟩
      simp [htokens, eq_comm]
    · have htokens : tokens line.rest ≠ [.symbol '\x7b'] := fun h => htail (by rw [h]; rfl)
      simp [htail, htokens]
  · have hsymbol := Scan.symbol_eq hopen line
    rw [if_neg hhead] at hsymbol
    have htokens : tokens line.rest ≠ [.symbol '\x7b'] := fun h => hhead (by rw [h]; rfl)
    rw [step_bind_of_error hsymbol]
    simp [htokens]

theorem feedOpening_ne_done : (feedOpening line).verdict ≠ .done f := by
  unfold feedOpening
  split <;> simp

theorem isEmpty_skipBlanks_iff : line.skipBlanks.rest.isEmpty = true ↔ tokens line.rest = [] := by
  rw [LineCursor.rest_skipBlanks, List.isEmpty_iff, List.dropWhile_eq_nil_iff, tokens_eq_nil_iff]

theorem feed_header (line : LineCursor) : header.feed line =
    if tokens line.rest = [] then { verdict := .more .opening, line := line.skipBlanks }
    else feedOpening line := by
  change (if line.skipBlanks.rest.isEmpty = true then _ else _) = _
  simp only [isEmpty_skipBlanks_iff]

theorem feed_header_more_iff : (header.feed line).verdict = .more stage ↔
    (tokens line.rest = [] ∧ stage = .opening) ∨
      tokens line.rest = [.symbol '\x7b'] ∧ stage = .body .start := by
  rw [feed_header]
  by_cases h : tokens line.rest = []
  · simp [h, eq_comm]
  · simp [h, feedOpening_more_iff]

theorem feed_header_ne_done : (header.feed line).verdict ≠ .done f := by
  rw [feed_header]
  split
  · simp
  · exact feedOpening_ne_done

theorem feed_body_more_iff : ((body d).feed line).verdict = .more stage ↔
    (tokens line.rest = [] ∧ stage = .body d) ∨
      ∃ st d', tokens line.rest = st.tokens ∧ d.take st = some d' ∧ stage = .body d' := by
  have hyields : ((body d).feed line).verdict = .more stage ↔
      Yields Routine.bodyLine (fun r t => r = none ∧ stage = .body t.draft)
        { line, draft := d } := by
    simp only [feed]
    cases h : DraftM.bodyLine { line, draft := d } with
    | ok r s => cases r <;> simp [Yields.of_ok h, eq_comm]
    | error e s => simp [Yields.of_error h]
  rw [hyields, bodyLine_iff (P := fun r d' => r = none ∧ stage = .body d')]
  simp

theorem feed_body_done_iff : ((body d).feed line).verdict = .done f ↔
    tokens line.rest = [.symbol '\x7d'] ∧ ∃ d', d.close = some d' ∧ d'.function = f := by
  have hyields : ((body d).feed line).verdict = .done f ↔
      Yields Routine.bodyLine (fun r _ => r = some f) { line, draft := d } := by
    simp only [feed]
    cases h : DraftM.bodyLine { line, draft := d } with
    | ok r s => cases r <;> simp [Yields.of_ok h]
    | error e s => simp [Yields.of_error h]
  rw [hyields, bodyLine_iff (P := fun r _ => r = some f)]
  simp

end Function.Stage

namespace Program.Stage

variable {p : Program} {line : LineCursor} {state : Stage} {name : String}
  {stage : Function.Stage}

theorem readHeader_ok_iff {line' : LineCursor} : readHeader p line = .ok name line' ↔
    (tokens line.rest).head? = some (.word "fun") ∧
      (tokens line.nextToken.rest).head? = some (.word name) ∧
      ¬ (p.policy = .reject ∧ (p.find? name).isSome = true) ∧
      line.nextToken.nextToken = line' := by
  have hguard : ∀ name' l, (if p.policy = .reject ∧ (p.find? name').isSome = true then
        Scan.fail (.duplicateFunction name') else pure name' : Scan String) l = .ok name line' ↔
      ¬ (p.policy = .reject ∧ (p.find? name').isSome = true) ∧ name' = name ∧ l = line' := by
    intro name' l
    split
    · next h => simp [h, Scan.fail]
    · next h => simp [h, Pure.pure, EStateM.pure]
  rw [readHeader, step_bind_ok_iff]
  constructor
  · rintro ⟨⟨⟩, l, hfun, h⟩
    obtain ⟨name', l', hid, h⟩ := step_bind_ok_iff.mp h
    obtain ⟨hword, rfl⟩ := Scan.keyword_ok_iff.mp hfun
    obtain ⟨hname, rfl⟩ := Scan.identifier_ok_iff.mp hid
    obtain ⟨hfree, rfl, hline⟩ := (hguard name' _).mp h
    exact ⟨hword, hname, hfree, hline⟩
  · rintro ⟨hfun, hname, hfree, hline⟩
    refine ⟨(), line.nextToken, Scan.keyword_ok_iff.mpr ⟨hfun, rfl⟩, ?_⟩
    refine step_bind_ok_iff.mpr ⟨name, _, Scan.identifier_ok_iff.mpr ⟨hname, rfl⟩, ?_⟩
    exact (hguard name _).mpr ⟨hfree, rfl, hline⟩

theorem feed_within_more_iff : ((within p name stage).feed line).verdict = .more state ↔
    (∃ stage', (stage.feed line).verdict = .more stage' ∧ state = .within p name stage') ∨
      ∃ f p', (stage.feed line).verdict = .done f ∧ p.add name f = .ok p' ∧
        state = .between p' := by
  simp only [feed, ofFunction]
  cases (stage.feed line).verdict with
  | more stage' => simp [eq_comm]
  | failed e => simp
  | done f =>
    cases hadd : p.add name f with
    | ok p' => simp [hadd, eq_comm]
    | error e => simp [hadd]

theorem feed_between_more_iff : ((between p).feed line).verdict = .more state ↔
    (tokens line.rest = [] ∧ state = .between p) ∨
    ∃ name ts, tokens line.rest = .word "fun" :: .word name :: ts ∧
      ¬ (p.policy = .reject ∧ (p.find? name).isSome = true) ∧
      ((ts = [] ∧ state = .within p name .opening) ∨
        ts = [.symbol '\x7b'] ∧ state = .within p name (.body .start)) := by
  simp only [feed]
  by_cases hnil : tokens line.rest = []
  · rw [if_pos (Function.Stage.isEmpty_skipBlanks_iff.mpr hnil)]
    simp only [hnil, Verdict.more.injEq, true_and, reduceCtorEq, false_and, exists_false, or_false]
    exact eq_comm
  rw [if_neg fun h => hnil (Function.Stage.isEmpty_skipBlanks_iff.mp h)]
  simp only [hnil, false_and, false_or]
  cases hread : readHeader p line.skipBlanks with
  | ok name line' =>
    obtain ⟨hfun, hname, hfree, rfl⟩ := readHeader_ok_iff.mp hread
    simp only [LineCursor.tokens_nextToken, LineCursor.tokens_skipBlanks] at hfun hname
    obtain ⟨ts, htokens⟩ : ∃ ts, tokens line.rest = .word "fun" :: .word name :: ts :=
      ⟨_, Function.head?_tail_iff.mp ⟨hfun, Function.head?_tail_iff.mp ⟨hname, rfl⟩⟩⟩
    change ((within p name .header).feed line.skipBlanks.nextToken.nextToken).verdict = _ ↔ _
    simp only [feed_within_more_iff, Function.Stage.feed_header_more_iff,
      Function.Stage.feed_header_ne_done, htokens, LineCursor.tokens_nextToken,
      LineCursor.tokens_skipBlanks, List.tail_cons]
    constructor
    · rintro (⟨stage, ⟨hts, rfl⟩ | ⟨hts, rfl⟩, hstate⟩ | ⟨f, p', hfalse, -⟩)
      · exact ⟨name, ts, rfl, hfree, .inl ⟨hts, hstate⟩⟩
      · exact ⟨name, ts, rfl, hfree, .inr ⟨hts, hstate⟩⟩
      · exact hfalse.elim
    · rintro ⟨name', ts', heq, -, ⟨hts, hstate⟩ | ⟨hts, hstate⟩⟩
      · cases heq
        exact .inl ⟨_, .inl ⟨hts, rfl⟩, hstate⟩
      · cases heq
        exact .inl ⟨_, .inr ⟨hts, rfl⟩, hstate⟩
  | error e line' =>
    simp only [reduceCtorEq, false_iff]
    rintro ⟨name, ts, htokens, hfree, -⟩
    have hok : readHeader p line.skipBlanks =
        .ok name line.skipBlanks.nextToken.nextToken := by
      refine readHeader_ok_iff.mpr ⟨?_, ?_, hfree, rfl⟩
      · rw [LineCursor.tokens_skipBlanks, htokens]
        rfl
      · rw [LineCursor.tokens_nextToken, LineCursor.tokens_skipBlanks, htokens]
        rfl
    rw [hread] at hok
    cases hok

theorem feed_ne_done {p' : Program} : (state.feed line).verdict ≠ .done p' := by
  have hof : ∀ p name fed, (ofFunction p name fed).verdict ≠ .done p' := by
    intro p name fed
    unfold ofFunction
    split
    · simp
    · simp
    · split <;> simp
  cases state with
  | between p =>
    simp only [feed]
    split
    · simp
    · split
      · exact hof _ _ _
      · simp
  | within p name stage => exact hof p name _

end Program.Stage

end FlowGraph
