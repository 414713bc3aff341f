import FlowGraph.Proofs.Program.Merge
import FlowGraph.Proofs.Reading.LineNumbers

/-!
# Programs in two parts

A reader of programs keeps nothing of the lines above but the functions that it has read. So what
it makes of a text below another one is what it makes of this text alone, with the functions
entered into those from above and with errors further down.
-/

namespace FlowGraph

open Text

set_option autoImplicit false

def Error.lower (k : Nat) : Error → Error
  | .parse line column problem => .parse (line + k) column problem
  | e => e

theorem Error.lower_onLine (e : Error) (n k : Nat) :
    (e.onLine n).lower k = e.onLine (n + k) := by
  cases e <;> rfl

namespace Program

namespace Stage

variable {p q : Program} {s s' : Stage} {line : LineCursor} {name n : String}

def program : Stage → Program
  | between q => q
  | within q _ _ => q

def names : Stage → List String
  | between q => q.names
  | within q name _ => name :: q.names

/-- The state of a reader that had read `p` before. -/
def onto (p : Program) : Stage → Stage
  | between q => between (p.onto q)
  | within q name stage => within (p.onto q) name stage

def ontoFed (p : Program) (fed : Fed Stage Program) : Fed Stage Program :=
  { fed with
    verdict := match fed.verdict with
      | .more s => .more (s.onto p)
      | .done q => .done (p.onto q)
      | .failed e => .failed e }

theorem names_add {f : Function} {q' : Program} (ha : q.add name f = .ok q') :
    n ∈ q'.names ↔ n ∈ q.names ∨ n = name := by
  rw [add_eq] at ha
  split at ha
  · cases ha
  · cases ha
    exact mem_names_put

theorem policy_add {f : Function} {q' : Program} (ha : q.add name f = .ok q') :
    q'.policy = q.policy := by
  rw [add_eq] at ha
  split at ha
  · cases ha
  · cases ha
    exact policy_put

theorem names_of_more (h : (s.feed line).verdict = .more s') (hn : n ∈ s.names) :
    n ∈ s'.names := by
  cases s with
  | between q =>
    rcases feed_between_more_iff.mp h with ⟨-, rfl⟩ | ⟨name, ts, -, -, ⟨-, rfl⟩ | ⟨-, rfl⟩⟩
    · exact hn
    · exact List.mem_cons_of_mem name hn
    · exact List.mem_cons_of_mem name hn
  | within q name stage =>
    rcases feed_within_more_iff.mp h with ⟨stage', -, rfl⟩ | ⟨f, q', -, hadd, rfl⟩
    · exact hn
    · exact (names_add hadd).mpr (List.mem_cons.mp hn).symm

theorem policy_of_more (h : (s.feed line).verdict = .more s') :
    s'.program.policy = s.program.policy := by
  cases s with
  | between q =>
    rcases feed_between_more_iff.mp h with ⟨-, rfl⟩ | ⟨name, ts, -, -, ⟨-, rfl⟩ | ⟨-, rfl⟩⟩
    · rfl
    · rfl
    · rfl
  | within q name stage =>
    rcases feed_within_more_iff.mp h with ⟨stage', -, rfl⟩ | ⟨f, q', -, hadd, rfl⟩
    · rfl
    · exact policy_add hadd

theorem ofFunction_onto (hpolicy : q.policy = p.policy)
    (hfree : p.policy = .replace ∨ name ∉ p.names) (fed : Fed Function.Stage Function) :
    ofFunction (p.onto q) name fed = ontoFed p (ofFunction q name fed) := by
  obtain ⟨verdict, line, log⟩ := fed
  cases verdict with
  | more stage => rfl
  | failed e => rfl
  | done f =>
    simp only [ofFunction, add_onto hpolicy hfree]
    cases q.add name f <;> rfl

theorem readHeader_onto (hpolicy : q.policy = p.policy)
    (hfree : p.policy = .replace ∨
      ∃ name line', readHeader q line = .ok name line' ∧ name ∉ p.names) :
    readHeader (p.onto q) line = readHeader q line := by
  rcases hfree with hreplace | ⟨name, line', hread, hname⟩
  · simp only [readHeader, policy_onto, hpolicy, hreplace, reduceCtorEq, false_and]
  · rw [hread]
    obtain ⟨hfun, hid, hok, hline⟩ := readHeader_ok_iff.mp hread
    refine readHeader_ok_iff.mpr ⟨hfun, hid, ?_, hline⟩
    rw [find?_isSome_iff, hpolicy] at hok
    rw [find?_isSome_iff, policy_onto, mem_names_onto]
    simpa [hname] using hok

/-- Below `p`, a line is read as it is alone if no name that the reader meets matters to `p`. -/
theorem feed_onto (hpolicy : s.program.policy = p.policy)
    (hfree : p.policy = .replace ∨
      ∃ s', (s.feed line).verdict = .more s' ∧ ∀ n ∈ s'.names, n ∉ p.names) :
    (s.onto p).feed line = ontoFed p (s.feed line) := by
  cases s with
  | within q name stage =>
    refine ofFunction_onto hpolicy (hfree.imp_right ?_) _
    rintro ⟨s', hmore, hapart⟩
    exact hapart name (names_of_more hmore List.mem_cons_self)
  | between q =>
    change q.policy = p.policy at hpolicy
    simp only [onto, feed] at hfree ⊢
    by_cases hempty : line.skipBlanks.rest.isEmpty = true
    · simp only [if_pos hempty]
      rfl
    simp only [if_neg hempty] at hfree ⊢
    cases hread : readHeader q line.skipBlanks with
    | error e line' =>
      have hreplace : p.policy = .replace := by
        refine hfree.resolve_right ?_
        rw [hread]
        rintro ⟨s', hmore, -⟩
        cases hmore
      rw [readHeader_onto hpolicy (.inl hreplace), hread]
      rfl
    | ok name line' =>
      have hname : p.policy = .replace ∨ name ∉ p.names := by
        refine hfree.imp_right ?_
        rw [hread]
        rintro ⟨s', hmore, hapart⟩
        exact hapart name (names_of_more (s := within q name .header) hmore List.mem_cons_self)
      rw [readHeader_onto hpolicy (hname.imp_right fun h => ⟨name, line', hread, h⟩), hread]
      exact ofFunction_onto hpolicy hname _

theorem number_feed : (s.feed line).line.number = line.number := by
  rw [feed_number s line]
  rfl

/-- What `p` above and another number change about the verdict on a line. -/
theorem feed_below (k : Nat) (hpolicy : s.program.policy = p.policy)
    (hfree : p.policy = .replace ∨
      ∃ s', (s.feed line).verdict = .more s' ∧ ∀ n ∈ s'.names, n ∉ p.names) :
    ((s.onto p).feed (line.onLine (line.number + k))).line =
        (s.feed line).line.onLine (line.number + k) ∧
      ((s.onto p).feed (line.onLine (line.number + k))).verdict =
        match (s.feed line).verdict with
        | .more s' => .more (s'.onto p)
        | .done q => .done (p.onto q)
        | .failed e => .failed (e.lower k) := by
  have hnumber := congrArg Fed.verdict (feed_number s line)
  rw [feed_onLine, feed_onto hpolicy hfree]
  refine ⟨rfl, ?_⟩
  simp only [Fed.onLine, ontoFed] at hnumber ⊢
  cases hv : (s.feed line).verdict with
  | more s' => rfl
  | done q => rfl
  | failed e =>
    rw [hv] at hnumber
    have he : e = e.onLine line.number := Verdict.failed.inj hnumber
    change Verdict.failed (e.onLine (line.number + k)) = .failed (e.lower k)
    rw [← Error.lower_onLine, ← he]

theorem finish_below (k : Nat) (last : LineCursor) :
    ((s.onto p).finish (last.onLine (last.number + k))).outcome =
      ((s.finish last).outcome.mapError (·.lower k)).map p.onto := by
  cases s <;> rfl

end Stage

section runs

open Stage

variable {p q : Program} {s s' : Stage} {line : LineCursor} {below ls : List (List Char)}
  {l : List Char} {n : String}

theorem names_of_run (h : (lineReader.run s line below).result.outcome = .ok q)
    (hn : n ∈ s.names) : n ∈ q.names :=
  invariant_of_run (fun s => n ∈ s.names) (fun _ _ _ hs hmore => names_of_more hmore hs)
    (fun _ hq => hq) hn h

/-- Every name that is met in a line of an accepted text is the name of a function in the end. -/
theorem names_of_line (hmore : (s.feed line).verdict = .more s')
    (h : (lineReader.run s line below).result.outcome = .ok q) (hn : n ∈ s'.names) :
    n ∈ q.names := by
  cases below with
  | nil =>
    rw [LineReader.run_last hmore] at h
    cases s' with
    | between q' =>
      cases h
      exact hn
    | within q' name stage => cases h
  | cons l below =>
    rw [LineReader.run_of_more hmore] at h
    exact names_of_run h hn

theorem apart_of_run (hapart : ∀ n ∈ q.names, n ∉ p.names)
    (h : (lineReader.run s line below).result.outcome = .ok q) :
    ∃ s', (s.feed line).verdict = .more s' ∧ ∀ n ∈ s'.names, n ∉ p.names := by
  rcases LineReader.run_ok_cases h with hdone | ⟨s', hmore, -⟩
  · exact absurd hdone feed_ne_done
  · exact ⟨s', hmore, fun n hn => hapart n (names_of_line hmore h hn)⟩

theorem run_next (h : (s.feed line).verdict = .more s') :
    (lineReader.run s line (l :: ls)).result.outcome =
      (lineReader.run s' (.start (line.number + 1) l) ls).result.outcome := by
  have hnumber : (lineReader.feed s line).line.number = line.number := number_feed
  rw [LineReader.run_of_more h, hnumber]

/-- What a reader makes of a text `k` lines below, when it has read `p` before. -/
theorem run_onto (k : Nat) (hpolicy : s.program.policy = p.policy)
    (hfree : p.policy = .replace ∨ ∃ q, (lineReader.run s line ls).result.outcome = .ok q ∧
      ∀ n ∈ q.names, n ∉ p.names) :
    (lineReader.run (s.onto p) (line.onLine (line.number + k)) ls).result.outcome =
      ((lineReader.run s line ls).result.outcome.mapError (·.lower k)).map p.onto := by
  induction ls generalizing s line with
  | nil =>
    obtain ⟨hline, hverdict⟩ := feed_below k hpolicy (hfree.imp_right fun ⟨q, hok, hapart⟩ =>
      apart_of_run hapart hok)
    cases hv : (s.feed line).verdict with
    | done q => exact absurd hv feed_ne_done
    | failed e =>
      rw [hv] at hverdict
      rw [LineReader.run_of_failed hverdict, LineReader.run_of_failed hv]
      rfl
    | more s' =>
      rw [hv] at hverdict
      have hfinish := finish_below (s := s') (p := p) k (s.feed line).line.skipRest
      rw [show (s.feed line).line.skipRest.number = line.number from number_feed] at hfinish
      rw [LineReader.run_last hverdict, LineReader.run_last hv]
      change ((s'.onto p).finish (((s.onto p).feed _).line.skipRest)).outcome = _
      rw [hline]
      exact hfinish
  | cons l ls ih =>
    obtain ⟨-, hverdict⟩ := feed_below k hpolicy (hfree.imp_right fun ⟨q, hok, hapart⟩ =>
      apart_of_run hapart hok)
    cases hv : (s.feed line).verdict with
    | done q => exact absurd hv feed_ne_done
    | failed e =>
      rw [hv] at hverdict
      rw [LineReader.run_of_failed hverdict, LineReader.run_of_failed hv]
      rfl
    | more s' =>
      rw [hv] at hverdict
      rw [run_next hv] at hfree
      have hrest := ih (policy_of_more hv ▸ hpolicy) hfree
      rw [run_next hverdict, run_next hv, ← hrest]
      simp only [LineCursor.onLine, LineCursor.start, Nat.add_right_comm]

/-- After an accepted text, reading goes on with its program. -/
theorem run_append {k : Nat} (h : (lineReader.run s (.start k l) ls).result.outcome = .ok p)
    (m : List Char) (ms : List (List Char)) :
    (lineReader.run s (.start k l) (ls ++ m :: ms)).result.outcome =
      (lineReader.run (.between p) (.start (k + ls.length + 1) m) ms).result.outcome := by
  induction ls generalizing s k l with
  | nil =>
    rcases LineReader.run_ok_cases h with
      hdone | ⟨s', hmore, ⟨-, last, hfinish⟩ | ⟨n, x, xs, hx, -⟩⟩
    · exact absurd hdone feed_ne_done
    · cases s' with
      | within q name stage => cases hfinish
      | between q =>
        cases hfinish
        exact run_next hmore
    · cases hx
  | cons x ls ih =>
    rcases LineReader.run_ok_cases h with hdone | ⟨s', hmore, -⟩
    · exact absurd hdone feed_ne_done
    · rw [run_next hmore] at h
      rw [List.cons_append, run_next hmore, ih h, List.length_cons]
      simp only [LineCursor.start, Nat.add_right_comm, Nat.add_assoc]

end runs

variable {policy : DuplicatePolicy} {p₁ : Program} {t₁ t₂ : String}

theorem policy_of_parse (h : (parse policy t₁).outcome = .ok p₁) : p₁.policy = policy :=
  invariant_of_run (fun s => s.program.policy = policy)
    (fun _ _ _ hs hmore => (Stage.policy_of_more hmore).trans hs) (fun _ hq => hq)
    (s := .between { policy }) rfl h

theorem outcome_parse_of_cons {text : String} {l : List Char} {ls : List (List Char)}
    (h : lines text.toList = l :: ls) :
    (parse policy text).outcome =
      (lineReader.run (.between { policy }) (.start 1 l) ls).result.outcome := by
  rw [parse, read, Cursor.ofText, h]
  rfl

theorem outcome_parse_of_nil {text : String} (h : lines text.toList = []) :
    (parse policy text).outcome = .ok { policy } := by
  have hmore : (lineReader.feed (.between { policy }) {}).verdict = .more (.between { policy }) :=
    rfl
  rw [parse, read, Cursor.ofText, h]
  exact LineReader.run_last hmore

/-- What is read of a text below another one. -/
theorem parse_below (hend : t₁ = "" ∨ ∃ s, t₁ = s ++ "\n")
    (h₁ : (parse policy t₁).outcome = .ok p₁)
    (hfree : policy = .replace ∨ ∃ p₂, (parse policy t₂).outcome = .ok p₂ ∧
      ∀ n ∈ p₂.names, n ∉ p₁.names) :
    (parse policy (t₁ ++ t₂)).outcome =
      ((parse policy t₂).outcome.mapError (·.lower (lines t₁.toList).length)).map p₁.onto := by
  have hpolicy := policy_of_parse h₁
  have hlines : lines (t₁ ++ t₂).toList = lines t₁.toList ++ lines t₂.toList := by
    rcases hend with rfl | ⟨s, rfl⟩
    · rw [String.empty_append]
      rfl
    · simpa [String.toList_append] using lines_append_feed s.toList t₂.toList
  cases hl₂ : lines t₂.toList with
  | nil =>
    rw [hl₂, List.append_nil] at hlines
    have hsame : (parse policy (t₁ ++ t₂)).outcome = .ok p₁ := by
      rw [← h₁, parse, parse, Cursor.ofText, hlines, Cursor.ofText]
    rw [hsame, outcome_parse_of_nil hl₂]
    rfl
  | cons m ms =>
    rw [hl₂] at hlines
    rw [outcome_parse_of_cons hl₂, ← hpolicy] at hfree
    have honto := @run_onto p₁ (.between { policy }) (.start 1 m) ms (lines t₁.toList).length
      hpolicy.symm (hpolicy ▸ hfree)
    rw [outcome_parse_of_cons hl₂, ← honto]
    cases hl₁ : lines t₁.toList with
    | nil =>
      rw [outcome_parse_of_nil hl₁] at h₁
      cases h₁
      rw [hl₁, List.nil_append] at hlines
      exact outcome_parse_of_cons hlines
    | cons l ls =>
      rw [outcome_parse_of_cons hl₁] at h₁
      rw [hl₁, List.cons_append] at hlines
      rw [outcome_parse_of_cons hlines, run_append h₁ m ms]
      simp only [List.length_cons, LineCursor.onLine, LineCursor.start, Nat.add_assoc]
      rfl

/-- Two texts, one below the other, are read as the functions of the second added to the first
program. -/
theorem parse_append (hend : t₁ = "" ∨ ∃ s, t₁ = s ++ "\n")
    (h₁ : (parse policy t₁).outcome = .ok p₁) :
    (∀ p₂, (parse policy t₂).outcome = .ok p₂ →
      (policy = .reject → ∀ name ∈ p₂.names, name ∉ p₁.names) →
      ∃ p, p₂.functions.foldlM (fun p entry => p.add entry.1 entry.2) p₁ = .ok p ∧
        (parse policy (t₁ ++ t₂)).outcome = .ok p ∧
        ∀ name, p.find? name = (p₂.find? name).or (p₁.find? name)) ∧
    (policy = .replace → ∀ line column problem,
      (parse policy t₂).outcome = .error (.parse line column problem) →
      (parse policy (t₁ ++ t₂)).outcome =
        .error (.parse (line + (lines t₁.toList).length) column problem)) := by
  refine ⟨?_, ?_⟩
  · intro p₂ h₂ hapart
    have hnodup := (accepted_of_parse h₂).names_nodup
    have hfree : policy = .replace ∨ ∀ n ∈ p₂.names, n ∉ p₁.names := by
      cases policy with
      | reject => exact .inr (hapart rfl)
      | replace => exact .inl rfl
    refine ⟨p₁.onto p₂, ?_, ?_, ?_⟩
    · refine foldlM_add ?_
      rw [policy_of_parse h₁]
      exact hfree.imp_right fun hnames => ⟨hnodup, hnames⟩
    · rw [parse_below hend h₁ (hfree.imp_right fun hnames => ⟨p₂, h₂, hnames⟩), h₂]
      rfl
    · intro name
      exact find?_onto hnodup
  · intro hreplace line column problem h₂
    rw [parse_below hend h₁ (.inl hreplace), h₂]
    rfl

/-- A function is replaced by a text that follows, and the line of a problem is found among the
lines of both texts. -/
theorem parse_append_replaces : ∃ t₁ t₂ t₃ p₁ p₂ p,
    t₁ = "# one\r\nfun f \x7b\n  nop\n\x7d\n" ∧
    t₂ = "fun g\n\x7b\n\x7d\nfun f \x7b\nl:\n  goto l\n\x7d" ∧
    t₃ = "fun g \x7b\n  goto l\n\x7d" ∧
    (parse .replace t₁).outcome = .ok p₁ ∧ p₁.names = ["f"] ∧
    (parse .replace t₂).outcome = .ok p₂ ∧ p₂.names = ["g", "f"] ∧
    p₂.functions.foldlM (fun p entry => p.add entry.1 entry.2) p₁ = .ok p ∧
    (parse .replace (t₁ ++ t₂)).outcome = .ok p ∧ p.find? "f" = p₂.find? "f" ∧
    (parse .replace t₃).outcome = .error (.parse 3 2 (.undefinedLabel "l")) ∧
    (parse .replace (t₁ ++ t₃)).outcome = .error (.parse 7 2 (.undefinedLabel "l")) := by
  have hview₁ : (parse .replace "# one\r\nfun f \x7b\n  nop\n\x7d\n").outcome.toOption.map names =
      some ["f"] := by
    decide +kernel
  have hview₂ : (parse .replace
      "fun g\n\x7b\n\x7d\nfun f \x7b\nl:\n  goto l\n\x7d").outcome.toOption.map
        (fun p => (p.names, (p.find? "f").isSome)) = some (["g", "f"], true) := by
    decide +kernel
  have hview₃ : (parse .replace "fun g \x7b\n  goto l\n\x7d").outcome.map names =
      .error (.parse 3 2 (.undefinedLabel "l")) := by
    decide +kernel
  obtain ⟨p₁, hp₁, hnames₁⟩ := Option.map_eq_some_iff.mp hview₁
  obtain ⟨p₂, hp₂, hfacts⟩ := Option.map_eq_some_iff.mp hview₂
  obtain ⟨hnames₂, hfound⟩ := Prod.mk.inj hfacts
  have h₁ := eq_ok_of_toOption hp₁
  have h₂ := eq_ok_of_toOption hp₂
  have h₃ : (parse .replace "fun g \x7b\n  goto l\n\x7d").outcome =
      .error (.parse 3 2 (.undefinedLabel "l")) := by
    cases h : (parse .replace "fun g \x7b\n  goto l\n\x7d").outcome with
    | ok p =>
      rw [h] at hview₃
      cases hview₃
    | error e =>
      rw [h] at hview₃
      rw [Except.error.inj hview₃]
  have hend : "# one\r\nfun f \x7b\n  nop\n\x7d\n" = "" ∨
      ∃ s, "# one\r\nfun f \x7b\n  nop\n\x7d\n" = s ++ "\n" :=
    .inr ⟨"# one\r\nfun f \x7b\n  nop\n\x7d", by decide⟩
  obtain ⟨p, hadd, hparse, hfind⟩ := (parse_append hend h₁).1 p₂ h₂ (by simp)
  refine ⟨_, _, _, p₁, p₂, p, rfl, rfl, rfl, h₁, hnames₁, h₂, hnames₂, hadd, hparse, ?_, h₃,
    (parse_append hend h₁).2 rfl 3 2 _ h₃⟩
  obtain ⟨f, hf⟩ := Option.isSome_iff_exists.mp hfound
  rw [hfind, hf, Option.some_or]

end Program

end FlowGraph
