import FlowGraph.Program.Writing
import FlowGraph.Proofs.RoundTrip.Acceptance
import Mathlib.Data.List.Forall2

/-!
# Programs written and read back

The text of a program that a reader has accepted is accepted again, without duplicates, and gives
the same functions under the same names up to the numbers of their blocks.
-/

namespace FlowGraph.Program

set_option autoImplicit false

open Text

def functionLines (entry : String × Function) : List String :=
  ("fun " ++ entry.1 ++ " " ++ "\x7b") ::
    (entry.2.statements.map Function.Statement.text ++ ["\x7d"])

def moreLines (entries : List (String × Function)) : List String :=
  entries.flatMap fun entry => "" :: functionLines entry

def script : List (String × Function) → List String
  | [] => []
  | entry :: entries => functionLines entry ++ moreLines entries

variable {p q : Program} {name : String} {f : Function} {entries : List (String × Function)}

theorem emits_writeFunction (h : f.Writable) :
    Emits (writeFunction name f) (page (functionLines (name, f))) := by
  rw [functionLines, ← append_page_cons]
  exact (Emits.put _).bind (Function.emits_write h.names_nodup h.encoded h.targeted)

theorem emits_writeMore (h : ∀ entry ∈ entries, entry.2.Writable) :
    Emits (writeMore entries) (page (moreLines entries)) := by
  induction entries with
  | nil => exact .pure
  | cons entry entries ih =>
    have hentry : Emits (writeFunction entry.1 entry.2) (page (functionLines entry)) :=
      emits_writeFunction (h entry List.mem_cons_self)
    have hrest := ih fun e he => h e (List.mem_cons_of_mem entry he)
    rw [moreLines, List.flatMap_cons, List.cons_append, page, String.empty_append, page_append]
    exact (Emits.put "\n").bind (hentry.bind hrest)

theorem emits_write (h : ∀ entry ∈ p.functions, entry.2.Writable) :
    Emits p.write (page (script p.functions)) := by
  unfold write
  cases hp : p.functions with
  | nil => exact .pure
  | cons entry entries =>
    rw [hp] at h
    rw [script, page_append]
    exact (emits_writeFunction (h entry List.mem_cons_self)).bind
      (emits_writeMore fun e he => h e (List.mem_cons_of_mem entry he))

theorem reads_within {stage stage' : Function.Stage} {ls : List (List Char)}
    (h : LineReader.Reads Function.lineReader stage ls stage') :
    LineReader.Reads lineReader (.within p name stage) ls (.within p name stage') := by
  induction h with
  | nil => exact .nil
  | cons hl _ ih => exact .cons (fun n => Stage.feed_within_more_iff.mpr (.inl ⟨_, hl n, rfl⟩)) ih

theorem isPlain_header (hname : isIdentifier name.toList = true) :
    isPlain ("fun " ++ name ++ " " ++ "\x7b").toList = true := by
  simp only [String.toList_append, isPlain_append, Function.isPlain_of_isIdentifier hname]
  decide

theorem tokens_header (hname : isIdentifier name.toList = true) (n : Nat) :
    tokens (LineCursor.start n ("fun " ++ name ++ " " ++ "\x7b").toList).rest =
      [.word "fun", .word name, .symbol '\x7b'] := by
  have hblank : isBlank ' ' = true := by decide
  have hspace : isIdRest ' ' = false := by decide
  have hfun : isIdentifier "fun".toList = true := by decide
  rw [LineCursor.start, visible_of_isPlain (isPlain_header hname)]
  simp only [String.toList_append, List.append_assoc]
  change tokens ("fun".toList ++ ' ' :: (name.toList ++ [' ', '\x7b'])) = _
  rw [Function.tokens_identifier_cons hfun hspace, tokens_blank hblank,
    Function.tokens_identifier_cons hname hspace, tokens_blank hblank,
    tokens_symbol (by decide) (by decide), tokens_nil]

theorem isPlain_of_mem_functionLines (hname : isIdentifier name.toList = true) (h : f.Writable) :
    ∀ l ∈ functionLines (name, f), isPlain l.toList = true := by
  intro l hl
  rcases List.mem_cons.mp hl with rfl | hl
  · exact isPlain_header hname
  · exact h.isPlain_of_mem_script l (List.mem_cons_of_mem _ hl)

theorem reads_function (hname : isIdentifier name.toList = true) (hnew : name ∉ q.names)
    (h : f.Accepted) : ∃ g φ,
    LineReader.Reads lineReader (.between q) ((functionLines (name, f)).map String.toList)
      (.between { q with functions := q.functions ++ [(name, g)] }) ∧ f.Isomorphic g φ := by
  obtain ⟨d, g, hreads, hdone, hback, hacc⟩ := h.writable.exists_reads
  have hfree : ¬ (q.find? name).isSome = true := mt find?_isSome_iff.mp hnew
  have hheader : ∀ n, ((Stage.between q).feed
      (.start n ("fun " ++ name ++ " " ++ "\x7b").toList)).verdict =
        .more (.within q name (.body .start)) := by
    intro n
    refine Stage.feed_between_more_iff.mpr (.inr ⟨name, _, tokens_header hname n, ?_, ?_⟩)
    · exact fun htaken => hfree htaken.2
    · exact .inr ⟨rfl, rfl⟩
  have hadd : q.add name g = .ok { q with functions := q.functions ++ [(name, g)] } := if_neg hfree
  have hclose : ∀ n, ((Stage.within q name (.body d)).feed (.start n "\x7d".toList)).verdict =
      .more (.between { q with functions := q.functions ++ [(name, g)] }) :=
    fun n => Stage.feed_within_more_iff.mpr (.inr ⟨g, _, hdone n, hadd, rfl⟩)
  have hlines : (functionLines (name, f)).map String.toList =
      ("fun " ++ name ++ " " ++ "\x7b").toList ::
        ((f.statements.map fun st => st.text.toList) ++ ["\x7d".toList]) := by
    rw [functionLines, List.map_cons, List.map_append, List.map_map]
    rfl
  refine ⟨g, _, ?_, hback.isomorphic h.accounted hacc h.complete⟩
  rw [hlines]
  exact .cons hheader ((reads_within hreads).append (.cons hclose .nil))

theorem reads_more (hnames : ∀ entry ∈ entries, isIdentifier entry.1.toList = true)
    (hnodup : (q.names ++ entries.map Prod.fst).Nodup)
    (h : ∀ entry ∈ entries, entry.2.Accepted) : ∃ added,
    LineReader.Reads lineReader (.between q) ((moreLines entries).map String.toList)
      (.between { q with functions := q.functions ++ added }) ∧
    added.map Prod.fst = entries.map Prod.fst ∧
    List.Forall₂ (fun old new => ∃ φ, old.2.Isomorphic new.2 φ) entries added := by
  induction entries generalizing q with
  | nil =>
    refine ⟨[], ?_, rfl, .nil⟩
    rw [List.append_nil]
    exact .nil
  | cons entry entries ih =>
    have hentry : entry ∈ entry :: entries := List.mem_cons_self
    have hnew : entry.1 ∉ q.names := fun hmem =>
      (List.nodup_append.mp hnodup).2.2 entry.1 hmem entry.1 List.mem_cons_self rfl
    obtain ⟨g, φ, hreads, hiso⟩ := reads_function (hnames entry hentry) hnew (h entry hentry)
    have hrest : (({ q with functions := q.functions ++ [(entry.1, g)] } : Program).names ++
        entries.map Prod.fst).Nodup := by
      rw [names, List.map_append, List.append_assoc]
      exact hnodup
    obtain ⟨added, hmore, hfst, hall⟩ := ih (fun e he => hnames e (List.mem_cons_of_mem entry he))
      hrest fun e he => h e (List.mem_cons_of_mem entry he)
    have hblank : ∀ n, ((Stage.between q).feed (.start n "".toList)).verdict =
        .more (.between q) := fun n => Stage.feed_between_more_iff.mpr (.inl ⟨tokens_nil, rfl⟩)
    refine ⟨(entry.1, g) :: added, ?_, congrArg (entry.1 :: ·) hfst, .cons ⟨φ, hiso⟩ hall⟩
    rw [List.append_cons, moreLines, List.flatMap_cons, List.map_append, List.map_cons]
    exact .cons hblank (hreads.append hmore)

theorem parse_page {policy : DuplicatePolicy} {ls : List String}
    (hplain : ∀ l ∈ ls, isPlain l.toList = true)
    (h : LineReader.Reads lineReader (.between { policy }) (ls.map String.toList) (.between q)) :
    (parse policy (page ls)).outcome = .ok q := by
  have hfinish : ∀ line, (lineReader.finish (.between q) line).outcome = .ok q := fun _ => rfl
  rw [parse, read, Cursor.ofText, lines_page hplain]
  cases ls with
  | nil =>
    cases h
    have hmore : (lineReader.feed (.between { policy }) {}).verdict = .more (.between { policy }) :=
      Stage.feed_between_more_iff.mpr (.inl ⟨tokens_nil, rfl⟩)
    exact LineReader.run_last hmore
  | cons l ls => exact h.run_finish 1 hfinish

theorem isPlain_of_mem_script (hnames : ∀ entry ∈ entries, isIdentifier entry.1.toList = true)
    (h : ∀ entry ∈ entries, entry.2.Writable) : ∀ l ∈ script entries, isPlain l.toList = true := by
  have hlines : ∀ entry ∈ entries, ∀ l ∈ functionLines entry, isPlain l.toList = true :=
    fun entry hentry => isPlain_of_mem_functionLines (hnames entry hentry) (h entry hentry)
  cases entries with
  | nil => exact fun l hl => absurd hl List.not_mem_nil
  | cons entry entries =>
    intro l hl
    rcases List.mem_append.mp hl with hl | hl
    · exact hlines entry List.mem_cons_self l hl
    obtain ⟨e, he, hl⟩ := List.mem_flatMap.mp hl
    rcases List.mem_cons.mp hl with rfl | hl
    · decide
    · exact hlines e (List.mem_cons_of_mem entry he) l hl

theorem reads_script (hnames : ∀ entry ∈ entries, isIdentifier entry.1.toList = true)
    (hnodup : (entries.map Prod.fst).Nodup) (h : ∀ entry ∈ entries, entry.2.Accepted)
    (policy : DuplicatePolicy) : ∃ added,
    LineReader.Reads lineReader (.between { policy }) ((script entries).map String.toList)
      (.between { policy, functions := added }) ∧
    added.map Prod.fst = entries.map Prod.fst ∧
    List.Forall₂ (fun old new => ∃ φ, old.2.Isomorphic new.2 φ) entries added := by
  cases entries with
  | nil => exact ⟨[], .nil, rfl, .nil⟩
  | cons entry entries =>
    have hentry : entry ∈ entry :: entries := List.mem_cons_self
    have hnew : entry.1 ∉ ({ policy } : Program).names := List.not_mem_nil
    obtain ⟨g, φ, hreads, hiso⟩ := reads_function (hnames entry hentry) hnew (h entry hentry)
    obtain ⟨added, hmore, hfst, hall⟩ := reads_more
      (q := { policy, functions := [(entry.1, g)] })
      (fun e he => hnames e (List.mem_cons_of_mem entry he)) hnodup
      fun e he => h e (List.mem_cons_of_mem entry he)
    refine ⟨(entry.1, g) :: added, ?_, congrArg (entry.1 :: ·) hfst, .cons ⟨φ, hiso⟩ hall⟩
    rw [script, List.map_append]
    exact hreads.append hmore

/-- A program that was read can be written, and its text is read as an isomorphic program. -/
theorem accepted_program_reads_back {policy : DuplicatePolicy} {text : String}
    (h : (parse policy text).outcome = .ok p) :
    ∃ text' q, p.toText = .ok text' ∧ (parse .reject text').outcome = .ok q ∧ q.names = p.names ∧
      List.Forall₂ (fun old new => ∃ φ, old.2.Isomorphic new.2 φ) p.functions q.functions := by
  have haccepted := accepted_of_parse h
  have hnames : ∀ entry ∈ p.functions, isIdentifier entry.1.toList = true :=
    fun entry hentry => haccepted.names entry.1 (List.mem_map_of_mem hentry)
  have hwritable : ∀ entry ∈ p.functions, entry.2.Writable :=
    fun entry hentry => (haccepted.functions entry hentry).writable
  obtain ⟨added, hreads, hfst, hall⟩ :=
    reads_script hnames haccepted.names_nodup haccepted.functions .reject
  exact ⟨page (script p.functions), { policy := .reject, functions := added },
    (emits_write hwritable).toText, parse_page (isPlain_of_mem_script hnames hwritable) hreads,
    hfst, hall⟩

/-- A text with a comment, a replaced function, a register called `if` and labels that are used
before they stand. -/
theorem replaced_program_reads_back : ∃ p,
    (parse .replace ("fun f \x7b\n  nop\n\x7d\nfun g # two\n\x7b\n  reg if\nback:\n" ++
      "  if := if + if\n  if (if) goto back\n  goto far\nnear:\nfar:\n  goto near\n\x7d\n" ++
      "fun f \x7b\n\x7d\n")).outcome = .ok p ∧
    p.names = ["f", "g"] ∧ (p.functions.map fun entry => entry.2.blockCount) = [2, 5] ∧
    ∃ text q, p.toText = .ok text ∧ (parse .reject text).outcome = .ok q ∧ q.names = p.names ∧
      List.Forall₂ (fun old new => ∃ φ, old.2.Isomorphic new.2 φ) p.functions q.functions := by
  have hview : ((parse .replace ("fun f \x7b\n  nop\n\x7d\nfun g # two\n\x7b\n  reg if\nback:\n" ++
      "  if := if + if\n  if (if) goto back\n  goto far\nnear:\nfar:\n  goto near\n\x7d\n" ++
      "fun f \x7b\n\x7d\n")).outcome.toOption.map fun p =>
        (p.names, p.functions.map fun entry => entry.2.blockCount)) =
      some (["f", "g"], [2, 5]) := by
    decide +kernel
  obtain ⟨p, hp, hfacts⟩ := Option.map_eq_some_iff.mp hview
  obtain ⟨hnames, hcounts⟩ := Prod.mk.inj hfacts
  have hparse := eq_ok_of_toOption hp
  exact ⟨p, hparse, hnames, hcounts, accepted_program_reads_back hparse⟩

end FlowGraph.Program
