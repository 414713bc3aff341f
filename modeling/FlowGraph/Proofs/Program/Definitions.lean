import FlowGraph.Proofs.Program.Succession
import FlowGraph.Proofs.Reading.Composition
import FlowGraph.Proofs.Reading.Steps
import FlowGraph.Proofs.RoundTrip.Numbering

/-!
# Definitions

A text of a program is a list of definitions, each of which gives a name to a function. The policy
for duplicates decides what becomes of this list and not what is on it. If names are replaced, the
last definition of a name counts; if they are rejected, the second one is an error on its line.
-/

namespace FlowGraph

open Text

set_option autoImplicit false

namespace Text

def Cursor.below? (c : Cursor) : Option Cursor :=
  match c.below with
  | [] => none
  | l :: ls => some ⟨.start (c.line.number + 1) l, ls⟩

/-- A text can be gone through line by line, also if some lines are taken at once. -/
theorem Cursor.below_induction {motive : Option Cursor → Prop} (none : motive none)
    (some : ∀ c : Cursor, (∀ c' : Cursor, c'.below.length ≤ c.below.length → motive c'.below?) →
      motive (some c)) (next : Option Cursor) : motive next := by
  have hall : ∀ (n : Nat) (c : Cursor), c.below.length ≤ n → motive c.below? := by
    intro n
    induction n with
    | zero =>
      intro c hc
      rw [Cursor.below?, List.length_eq_zero_iff.mp (Nat.le_zero.mp hc)]
      exact none
    | succ n ih =>
      intro c hc
      unfold Cursor.below?
      cases hbelow : c.below with
      | nil => exact none
      | cons l ls =>
        rw [hbelow, List.length_cons] at hc
        refine some _ fun c' hc' => ih c' ?_
        exact Nat.le_trans hc' (Nat.le_of_succ_le_succ hc)
  cases next with
  | none => exact none
  | some c => exact some c fun c' hc' => hall c.below.length c' hc'

end Text

namespace Program

structure Definition where
  line : Nat
  /-- The column behind the name. -/
  column : Nat
  name : String
  function : Function

/-- Read `fun NAME`, whatever names are taken. -/
def heading : Scan String := do
  Scan.keyword "fun"
  Scan.identifier

/-- The text from a place on consists of these definitions, with blank lines between them. -/
inductive Defines : Option Cursor → List Definition → Prop
  | none : Defines none []
  | blank {c : Cursor} {defs : List Definition} :
      Spelled [] c.line.rest → Defines c.below? defs → Defines (some c) defs
  | function {c c' : Cursor} {header : LineCursor} {name : String} {f : Function}
      {defs : List Definition} : heading c.line = .ok name header →
      (Function.read ⟨header, c.below⟩).result.outcome = .ok f →
      (Function.read ⟨header, c.below⟩).cursor = c' → Defines c'.below? defs →
      Defines (some c) (⟨c.line.number, header.column, name, f⟩ :: defs)

/-- What is made of the rest of a text by a reader that has read `p`. -/
def readOn (p : Program) : Option Cursor → Except Error Program
  | none => .ok p
  | some c => (lineReader.run (.between p) c.line c.below).result.outcome

section lines

open Stage

variable {p : Program} {c : Cursor} {name : String} {line header : LineCursor} {e : Error}

theorem outcome_runBelow (p : Program) (c : Cursor) :
    (lineReader.runBelow (.between p) c.line c.below).result.outcome = readOn p c.below? := by
  unfold Cursor.below?
  cases c.below with
  | nil => rfl
  | cons l ls => rfl

theorem outcome_goOn (p : Program) (name : String) (reading : Reading Function) :
    (goOn p name reading).result.outcome = reading.result.outcome >>= fun f =>
      p.add name f >>= fun q => readOn q reading.cursor.below? := by
  rw [goOn]
  cases reading.result.outcome with
  | error e => rfl
  | ok f =>
    dsimp only
    rw [ok_bind]
    cases p.add name f with
    | error e => rfl
    | ok q => exact outcome_runBelow q reading.cursor

theorem readOn_blank (h : tokens c.line.rest = []) : readOn p (some c) = readOn p c.below? := by
  rw [readOn, run_between, if_pos (Function.Stage.isEmpty_skipBlanks_iff.mpr h)]
  exact outcome_runBelow p ⟨c.line.skipBlanks, c.below⟩

theorem tokens_ne_nil_of_heading (h : heading c.line = .ok name header) :
    tokens c.line.rest ≠ [] := by
  obtain ⟨⟨⟩, line, hfun, -⟩ := step_bind_ok_iff.mp h
  intro hnil
  have hhead := (Scan.keyword_ok_iff.mp hfun).1
  rw [hnil] at hhead
  cases hhead

theorem keyword_skipBlanks (word : String) (line : LineCursor) :
    Scan.keyword word line.skipBlanks = Scan.keyword word line := by
  unfold Scan.keyword
  rw [LineCursor.skipBlanks_skipBlanks]

/-- A header is a heading whose name may be used. -/
theorem readHeader_eq : readHeader p line.skipBlanks =
    match heading line with
    | .ok name header =>
      if p.policy = .reject ∧ name ∈ p.names then
        .error (header.error (.duplicateFunction name)) header
      else .ok name header
    | .error e header => .error e header := by
  unfold readHeader heading
  cases hword : Scan.keyword "fun" line with
  | error e l =>
    rw [step_bind_of_error ((keyword_skipBlanks _ _).trans hword), step_bind_of_error hword]
  | ok u l =>
    rw [step_bind_of_ok ((keyword_skipBlanks _ _).trans hword), step_bind_of_ok hword]
    cases hname : Scan.identifier l with
    | error e l' => rw [step_bind_of_error hname]
    | ok name l' =>
      rw [step_bind_of_ok hname]
      simp only [find?_isSome_iff]
      by_cases hused : p.policy = .reject ∧ name ∈ p.names
      · rw [if_pos hused, if_pos hused]
        rfl
      · rw [if_neg hused, if_neg hused]
        rfl

theorem readOn_some (h : tokens c.line.rest ≠ []) : readOn p (some c) =
    match readHeader p c.line.skipBlanks with
    | .ok name header => (goOn p name (Function.read ⟨header, c.below⟩)).result.outcome
    | .error e _ => .error e := by
  rw [readOn, run_between, if_neg fun hempty => h (Function.Stage.isEmpty_skipBlanks_iff.mp hempty)]
  cases readHeader p c.line.skipBlanks with
  | ok name header => rfl
  | error e header => rfl

theorem readOn_malformed (h : tokens c.line.rest ≠ []) (hh : heading c.line = .error e header) :
    readOn p (some c) = .error e := by
  rw [readOn_some h, readHeader_eq, hh]

theorem readOn_taken (hh : heading c.line = .ok name header)
    (hused : p.policy = .reject ∧ name ∈ p.names) :
    readOn p (some c) = .error (header.error (.duplicateFunction name)) := by
  rw [readOn_some (tokens_ne_nil_of_heading hh), readHeader_eq, hh]
  dsimp only
  rw [if_pos hused]

/-- The function of a name that may be used is entered. -/
theorem readOn_function (hh : heading c.line = .ok name header)
    (hfree : ¬ (p.policy = .reject ∧ name ∈ p.names)) :
    readOn p (some c) = (Function.read ⟨header, c.below⟩).result.outcome >>= fun f =>
      readOn (p.put name f) (Function.read ⟨header, c.below⟩).cursor.below? := by
  have hadd : ∀ f, p.add name f = .ok (p.put name f) := by
    intro f
    rw [add_eq, if_neg hfree]
  rw [readOn_some (tokens_ne_nil_of_heading hh), readHeader_eq, hh]
  dsimp only
  rw [if_neg hfree]
  simp only [outcome_goOn, hadd, ok_bind]

theorem number_heading (hh : heading c.line = .ok name header) : header.number = c.line.number := by
  have hfree : Scan.Free heading :=
    .bind (Scan.free_keyword _) fun _ => Scan.free_identifier
  have hsame := hfree c.line.number c.line
  rw [hh] at hsame
  change heading c.line = _ at hsame
  rw [hh] at hsame
  injection hsame with _ hline
  rw [hline]
  rfl

/-- Either the line is blank, or it starts with a heading, or nothing can be made of it. -/
theorem line_cases (c : Cursor) : tokens c.line.rest = [] ∨
    (∃ name header, heading c.line = .ok name header) ∨
    ∃ e, e.FromText ∧ ∀ p, readOn p (some c) = .error e := by
  by_cases hnil : tokens c.line.rest = []
  · exact .inl hnil
  · cases hh : heading c.line with
    | ok name header => exact .inr (.inl ⟨name, header, rfl⟩)
    | error e header =>
      have hwalks : Scan.Walks heading :=
        .bind (Scan.walks_keyword _) fun _ => Scan.walks_identifier
      obtain ⟨-, problem, rfl⟩ := hwalks.of_error hh
      exact .inr (.inr ⟨_, .inl ⟨_, _, problem, rfl⟩, fun p => readOn_malformed hnil hh⟩)

end lines

def Definition.entry (d : Definition) : String × Function := (d.name, d.function)

variable {p q : Program} {next : Option Cursor} {defs : List Definition}

theorem fromText_of_readOn (p : Program) (next : Option Cursor) {e : Error}
    (h : readOn p next = .error e) : e.FromText := by
  induction next using Cursor.below_induction generalizing p with
  | none => cases h
  | some c ih =>
    rcases line_cases c with hnil | ⟨name, header, hh⟩ | ⟨e', he', hall⟩
    · rw [readOn_blank hnil] at h
      exact ih c (Nat.le_refl _) p h
    · by_cases hused : p.policy = .reject ∧ name ∈ p.names
      · rw [readOn_taken hh hused] at h
        cases h
        exact .inl ⟨_, _, _, rfl⟩
      · rw [readOn_function hh hused] at h
        cases hread : (Function.read ⟨header, c.below⟩).result.outcome with
        | error e' =>
          rw [hread] at h
          cases h
          exact Function.fromText_of_read hread
        | ok f =>
          rw [hread, ok_bind] at h
          exact ih _ (LineReader.length_below_run _ _ _ _) _ h
    · rw [hall p] at h
      cases h
      exact he'

/-- What is accepted is a list of definitions. -/
theorem exists_defines (p : Program) (next : Option Cursor) (h : readOn p next = .ok q) :
    ∃ defs, Defines next defs := by
  induction next using Cursor.below_induction generalizing p with
  | none => exact ⟨[], .none⟩
  | some c ih =>
    rcases line_cases c with hnil | ⟨name, header, hh⟩ | ⟨e', -, hall⟩
    · rw [readOn_blank hnil] at h
      obtain ⟨defs, hdefs⟩ := ih c (Nat.le_refl _) p h
      exact ⟨defs, .blank (spelled_iff.mpr hnil) hdefs⟩
    · by_cases hused : p.policy = .reject ∧ name ∈ p.names
      · rw [readOn_taken hh hused] at h
        cases h
      · rw [readOn_function hh hused] at h
        obtain ⟨f, hread, h⟩ := bind_eq_ok_iff.mp h
        obtain ⟨defs, hdefs⟩ := ih _ (LineReader.length_below_run _ _ _ _) _ h
        exact ⟨_, .function hh hread rfl hdefs⟩
    · rw [hall p] at h
      cases h

/-- Definitions that may be used one after the other are entered in order. -/
theorem Defines.readOn_eq (h : Defines next defs) (p : Program)
    (hfree : p.policy = .replace ∨
      (defs.map Definition.name).Nodup ∧ ∀ n ∈ defs.map Definition.name, n ∉ p.names) :
    readOn p next = .ok (p.putAll (defs.map Definition.entry)) := by
  induction h generalizing p with
  | none => rfl
  | blank hblank _ ih =>
    rw [readOn_blank (spelled_iff.mp hblank)]
    exact ih p hfree
  | @function c c' header name f defs hh hread hcursor _ ih =>
    have hunused : ¬ (p.policy = .reject ∧ name ∈ p.names) := by
      rintro ⟨hreject, hmem⟩
      rcases hfree with hreplace | ⟨-, hapart⟩
      · rw [hreject] at hreplace
        cases hreplace
      · exact hapart name List.mem_cons_self hmem
    rw [readOn_function hh hunused, hread, ok_bind, hcursor]
    refine ih (p.put name f) ?_
    rw [policy_put]
    refine hfree.imp_right ?_
    rintro ⟨hnodup, hapart⟩
    rw [List.map_cons, List.nodup_cons] at hnodup
    refine ⟨hnodup.2, ?_⟩
    intro n hn hmem
    rcases mem_names_put.mp hmem with hmem | rfl
    · exact hapart n (List.mem_cons_of_mem _ hn) hmem
    · exact hnodup.1 hn

/-- The first definition whose name is taken is refused. -/
theorem Defines.readOn_taken {before after : List Definition} {d : Definition}
    (h : Defines next defs) (p : Program) (hsplit : defs = before ++ d :: after)
    (hreject : p.policy = .reject) (hnodup : (before.map Definition.name).Nodup)
    (hapart : ∀ n ∈ before.map Definition.name, n ∉ p.names)
    (htaken : d.name ∈ p.names ∨ d.name ∈ before.map Definition.name) :
    readOn p next = .error (.parse d.line d.column (.duplicateFunction d.name)) := by
  induction h generalizing p before with
  | none => simp at hsplit
  | blank hblank _ ih =>
    rw [readOn_blank (spelled_iff.mp hblank)]
    exact ih p hsplit hreject hnodup hapart htaken
  | @function c c' header name f defs hh hread hcursor _ ih =>
    cases before with
    | nil =>
      obtain ⟨rfl, -⟩ := List.cons.inj hsplit
      have hmem : name ∈ p.names := htaken.resolve_right List.not_mem_nil
      rw [Program.readOn_taken hh ⟨hreject, hmem⟩, LineCursor.error, number_heading hh]
    | cons first before =>
      obtain ⟨rfl, hrest⟩ := List.cons.inj hsplit
      rw [List.map_cons, List.nodup_cons] at hnodup
      have hunused : ¬ (p.policy = .reject ∧ name ∈ p.names) :=
        fun hused => hapart name List.mem_cons_self hused.2
      rw [readOn_function hh hunused, hread, ok_bind, hcursor]
      refine ih (p.put name f) hrest (policy_put.trans hreject) hnodup.2 ?_ ?_
      · intro n hn hmem
        rcases mem_names_put.mp hmem with hmem | rfl
        · exact hapart n (List.mem_cons_of_mem _ hn) hmem
        · exact hnodup.1 hn
      · rw [mem_names_put]
        rcases htaken with htaken | htaken
        · exact .inl (.inl htaken)
        · rcases List.mem_cons.mp htaken with heq | htaken
          · exact .inl (.inr heq)
          · exact .inr htaken

theorem names_put (p : Program) (name : String) (f : Function) :
    (p.put name f).names = if name ∈ p.names then p.names else p.names ++ [name] := by
  unfold put
  split
  · exact names_replace
  · simp [names]

theorem names_putAll {entries : List (String × Function)} (hp : p.functions = []) :
    (p.putAll entries).names = (entries.map Prod.fst).eraseDups := by
  induction entries using List.reverseRecOn with
  | nil => simp [putAll, names, hp]
  | append_singleton entries entry ih =>
    rw [putAll_concat, names_put, ih, List.map_append, List.map_singleton,
      Function.eraseDups_concat]
    simp only [List.mem_eraseDups]

/-- The last entry of a name counts. -/
theorem find?_putAll_last {entries : List (String × Function)} (hp : p.functions = [])
    (n : String) : (p.putAll entries).find? n = entries.reverse.lookup n := by
  induction entries using List.reverseRecOn with
  | nil => simp [putAll, find?, hp]
  | append_singleton entries entry ih =>
    rw [putAll_concat, find?_put, ih, List.reverse_append, List.reverse_singleton,
      List.singleton_append, List.lookup_cons]
    by_cases hn : n = entry.1
    · simp [hn]
    · simp [hn, beq_false_of_ne hn]

theorem functions_putAll {entries : List (String × Function)} (h : p.functions = q.functions) :
    (p.putAll entries).functions = (q.putAll entries).functions := by
  induction entries using List.reverseRecOn with
  | nil => exact h
  | append_singleton entries entry ih =>
    have hnames : (p.putAll entries).names = (q.putAll entries).names := by
      rw [names, names, ih]
    rw [putAll_concat, putAll_concat, put, put, hnames]
    split
    · simp [replace, ih]
    · simp [ih]

theorem lookup_entries (defs : List Definition) (n : String) :
    (defs.map Definition.entry).lookup n =
      (defs.find? (·.name = n)).map Definition.function := by
  induction defs with
  | nil => rfl
  | cons d defs ih =>
    rw [List.map_cons, Definition.entry, List.lookup_cons, List.find?_cons]
    by_cases hn : n = d.name
    · simp [hn]
    · simp [beq_false_of_ne hn, Ne.symm hn, ih]

theorem exists_first_duplicate (h : ¬ (defs.map Definition.name).Nodup) :
    ∃ before d after, defs = before ++ d :: after ∧ (before.map Definition.name).Nodup ∧
      d.name ∈ before.map Definition.name := by
  induction defs using List.reverseRecOn with
  | nil => exact absurd .nil h
  | append_singleton defs d ih =>
    by_cases hdefs : (defs.map Definition.name).Nodup
    · refine ⟨defs, d, [], rfl, hdefs, ?_⟩
      apply Classical.byContradiction
      intro hnot
      rw [List.map_append, List.nodup_append] at h
      refine h ⟨hdefs, by simp, ?_⟩
      intro a ha b hb
      rw [List.mem_singleton.mp hb]
      exact ne_of_mem_of_not_mem ha hnot
    · obtain ⟨before, x, after, rfl, hbefore⟩ := ih hdefs
      exact ⟨before, x, after ++ [d], by simp, hbefore⟩

theorem Reader.outcome_eq_readOn (c : Cursor) (policy : DuplicatePolicy) :
    (read { cursor := c, policy }).2.outcome = readOn { policy } (some c) := by
  simp only [read, Bool.false_eq_true, if_false]
  split
  · rfl
  · rfl

theorem Defines.outcome_replace {c : Cursor} (h : Defines (some c) defs) :
    (Reader.read { cursor := c, policy := .replace }).2.outcome =
      .ok (putAll { policy := .replace } (defs.map Definition.entry)) := by
  rw [Reader.outcome_eq_readOn]
  exact h.readOn_eq _ (.inl rfl)

theorem Defines.outcome_reject {c : Cursor} (h : Defines (some c) defs)
    (hnodup : (defs.map Definition.name).Nodup) :
    (Reader.read { cursor := c, policy := .reject }).2.outcome =
      .ok (putAll { policy := .reject } (defs.map Definition.entry)) := by
  rw [Reader.outcome_eq_readOn]
  exact h.readOn_eq _ (.inr ⟨hnodup, fun _ _ => List.not_mem_nil⟩)

theorem Defines.outcome_duplicate {c : Cursor} (h : Defines (some c) defs)
    (hdup : ¬ (defs.map Definition.name).Nodup) :
    ∃ before d after, defs = before ++ d :: after ∧ (before.map Definition.name).Nodup ∧
      d.name ∈ before.map Definition.name ∧
      (Reader.read { cursor := c, policy := .reject }).2.outcome =
        .error (.parse d.line d.column (.duplicateFunction d.name)) := by
  obtain ⟨before, d, after, hsplit, hnodup, hmem⟩ := exists_first_duplicate hdup
  refine ⟨before, d, after, hsplit, hnodup, hmem, ?_⟩
  rw [Reader.outcome_eq_readOn]
  exact h.readOn_taken _ hsplit rfl hnodup (fun _ _ => List.not_mem_nil) (.inr hmem)

theorem Defines.outcome_reject_iff {c : Cursor} (h : Defines (some c) defs) :
    (∃ q, (Reader.read { cursor := c, policy := .reject }).2.outcome = .ok q) ↔
      (defs.map Definition.name).Nodup := by
  constructor
  · rintro ⟨q, hq⟩
    apply Classical.byContradiction
    intro hdup
    obtain ⟨before, d, after, -, -, -, herror⟩ := h.outcome_duplicate hdup
    rw [herror] at hq
    cases hq
  · intro hnodup
    exact ⟨_, h.outcome_reject hnodup⟩

theorem exists_defines_of_outcome {c : Cursor} {policy : DuplicatePolicy}
    (h : (Reader.read { cursor := c, policy }).2.outcome = .ok p) :
    ∃ defs, Defines (some c) defs := by
  rw [Reader.outcome_eq_readOn] at h
  exact exists_defines _ _ h

/-- If no duplicates are found, it does not matter what would become of them. -/
theorem outcome_replace_of_reject {c : Cursor}
    (h : (Reader.read { cursor := c, policy := .reject }).2.outcome = .ok p) :
    ∃ q, (Reader.read { cursor := c, policy := .replace }).2.outcome = .ok q ∧
      q.functions = p.functions := by
  obtain ⟨defs, hdefs⟩ := exists_defines_of_outcome h
  have hnodup := hdefs.outcome_reject_iff.mp ⟨p, h⟩
  rw [hdefs.outcome_reject hnodup] at h
  cases h
  exact ⟨_, hdefs.outcome_replace, functions_putAll rfl⟩

theorem names_entries (defs : List Definition) :
    (putAll { policy := .replace } (defs.map Definition.entry)).names =
      (defs.map Definition.name).eraseDups := by
  have hentries : (defs.map Definition.entry).map Prod.fst = defs.map Definition.name := by
    rw [List.map_map]
    rfl
  rw [names_putAll rfl, hentries]

/-- What is accepted if duplicates are rejected is accepted if they are replaced, and the first
duplicate is refused on its line. -/
theorem duplicate_policies_agree (c : Cursor) :
    (∀ policy name, (Reader.read { cursor := c, policy }).2.outcome ≠ .error (.nameTaken name)) ∧
    (∀ p, (Reader.read { cursor := c, policy := .reject }).2.outcome = .ok p →
      ∃ q, (Reader.read { cursor := c, policy := .replace }).2.outcome = .ok q ∧
        q.functions = p.functions) ∧
    ∀ p, (Reader.read { cursor := c, policy := .replace }).2.outcome = .ok p →
      (∃ defs, Defines (some c) defs) ∧ ∀ defs, Defines (some c) defs →
        p.names.Nodup ∧ p.names = (defs.map Definition.name).eraseDups ∧
        (∀ name, p.find? name = (defs.reverse.find? (·.name = name)).map Definition.function) ∧
        ((∃ q, (Reader.read { cursor := c, policy := .reject }).2.outcome = .ok q) ↔
          (defs.map Definition.name).Nodup) ∧
        (¬ (defs.map Definition.name).Nodup → ∃ before d after, defs = before ++ d :: after ∧
          (before.map Definition.name).Nodup ∧ d.name ∈ before.map Definition.name ∧
          (Reader.read { cursor := c, policy := .reject }).2.outcome =
            .error (.parse d.line d.column (.duplicateFunction d.name)) ∧
          (Problem.duplicateFunction d.name).message =
            "duplicate function " ++ ("\"" ++ d.name ++ "\"")) := by
  refine ⟨?_, fun p h => outcome_replace_of_reject h, ?_⟩
  · intro policy name h
    rw [Reader.outcome_eq_readOn] at h
    obtain ⟨line, column, problem, he⟩ | ⟨fault, he⟩ := fromText_of_readOn _ _ h
    · cases he
    · cases he
  · intro p h
    refine ⟨exists_defines_of_outcome h, ?_⟩
    intro defs hdefs
    rw [hdefs.outcome_replace] at h
    cases h
    refine ⟨?_, names_entries defs, ?_, hdefs.outcome_reject_iff, ?_⟩
    · rw [names_entries]
      exact Function.nodup_eraseDups _
    · intro name
      rw [find?_putAll_last rfl, ← List.map_reverse, lookup_entries]
    · intro hdup
      obtain ⟨before, d, after, hsplit, hnodup, hmem, herror⟩ := hdefs.outcome_duplicate hdup
      exact ⟨before, d, after, hsplit, hnodup, hmem, herror, rfl⟩

/-- Two names are defined in turn, and the second definition of the first one is refused. -/
theorem interleaved_duplicates : ∃ (text : String) (p : Program) (d : Definition) (defs : _),
    text = "fun f \x7b\n\x7d\nfun g\n\x7b\nnop\n\x7d\n fun f \x7b\nnop\n\x7d\nfun g \x7b\n\x7d" ∧
    (Reader.read { cursor := .ofText text.toList, policy := .replace }).2.outcome = .ok p ∧
    (Reader.read { cursor := .ofText text.toList, policy := .reject }).2.outcome =
      .error (.parse 7 7 (.duplicateFunction "f")) ∧
    Defines (some (.ofText text.toList)) defs ∧ p.names = ["f", "g"] ∧ d ∈ defs ∧ d.name = "f" ∧
    d.line = 7 ∧ p.find? "f" = (defs.reverse.find? (·.name = "f")).map Definition.function := by
  obtain ⟨text, htext⟩ : ∃ text,
      text = "fun f \x7b\n\x7d\nfun g\n\x7b\nnop\n\x7d\n fun f \x7b\nnop\n\x7d\nfun g \x7b\n\x7d" :=
    ⟨_, rfl⟩
  have hreplaced : (Reader.read { cursor := .ofText text.toList, policy := .replace }
      ).2.outcome.toOption.map names = some ["f", "g"] := by
    subst htext
    decide +kernel
  have hrejected : (Reader.read { cursor := .ofText text.toList, policy := .reject }
      ).2.outcome.map names = .error (.parse 7 7 (.duplicateFunction "f")) := by
    subst htext
    decide +kernel
  obtain ⟨p, hp, hnames⟩ := Option.map_eq_some_iff.mp hreplaced
  have hok := eq_ok_of_toOption hp
  obtain ⟨⟨defs, hdefs⟩, hall⟩ := (duplicate_policies_agree _).2.2 p hok
  obtain ⟨-, -, hfind, hnodup, hdup⟩ := hall defs hdefs
  have hrepeats : ¬ (defs.map Definition.name).Nodup := by
    intro h
    obtain ⟨q, hq⟩ := hnodup.mpr h
    rw [hq] at hrejected
    cases hrejected
  obtain ⟨before, d, after, rfl, -, -, herror, -⟩ := hdup hrepeats
  rw [herror] at hrejected
  injection Except.error.inj hrejected with hline hcolumn hproblem
  injection hproblem with hname
  refine ⟨text, p, d, _, htext, hok, ?_, hdefs, hnames, by simp, hname, hline, hfind "f"⟩
  rw [herror, hline, hcolumn, hname]

end Program

end FlowGraph
