import FlowGraph.Proofs.Reading.Outline
import FlowGraph.Proofs.Writing.Sections

/-!
# Taking sections

An outline that takes a whole section ends up with the operations of the section under its label.
The block above falls into the section if it is still open, and the block of the section stays open
unless a `goto` closes it.
-/

namespace FlowGraph.Function

set_option autoImplicit false

namespace Section

/-- The labels that a section mentions, its own first. -/
def mentions (s : Section) : List String :=
  s.label :: (s.ops.flatMap NamedOp.targets ++ s.goto.toList)

def Uses (s : Section) (registers : List String) : Prop :=
  ∀ op ∈ s.ops, (∀ r ∈ op.operands, r ∈ registers) ∧ ∀ r ∈ op.results, r ∈ registers

end Section

theorem enterAll_of_subset {names new : List String} (h : ∀ n ∈ new, n ∈ names) :
    enterAll names new = names := by
  induction new with
  | nil => rfl
  | cons n new ih =>
    have hn : enter names n = names := if_pos (h n List.mem_cons_self)
    change enterAll (enter names n) new = names
    rw [hn]
    exact ih fun m hm => h m (List.mem_cons_of_mem n hm)

namespace Outline

def settle (o : Outline) (s : Section) : Outline where
  labels := enterAll o.labels s.mentions
  defined := s.label :: o.defined
  registers := o.registers
  bodies n := if n = s.label then s.ops else o.bodies n
  falls n :=
    if n = s.label then s.goto else if o.current = some n then some s.label else o.falls n
  current := if s.goto.isSome then none else some s.label

variable {o : Outline} {s : Section} {rest sections : List Section} {b n : String}

theorem take_performs {ops : List NamedOp} (hb : o.current = some b)
    (huses : ∀ op ∈ ops, (∀ r ∈ op.operands, r ∈ o.registers) ∧ ∀ r ∈ op.results, r ∈ o.registers) :
    (ops.map Statement.perform).foldlM take o = some { o with
      labels := enterAll o.labels (ops.flatMap NamedOp.targets)
      bodies := fun n => if n = b then o.bodies n ++ ops else o.bodies n } := by
  induction ops generalizing o with
  | nil => simp [enterAll]
  | cons op ops ih =>
    obtain ⟨hoperands, hresults⟩ := huses op List.mem_cons_self
    have hregisters : enterAll o.registers op.results = o.registers := enterAll_of_subset hresults
    have htake : o.take (.perform op) = some ((o.introduce (.perform op)).put b op) := by
      rw [take, hb, Option.bind_some, if_pos hoperands]
    have hcurrent : ((o.introduce (.perform op)).put b op).current = some b := hb
    have hrest : ∀ op' ∈ ops, (∀ r ∈ op'.operands, r ∈ enterAll o.registers op.results) ∧
        ∀ r ∈ op'.results, r ∈ enterAll o.registers op.results := by
      intro op' hop'
      rw [hregisters]
      exact huses op' (List.mem_cons_of_mem op hop')
    rw [List.map_cons, List.foldlM_cons, htake]
    change List.foldlM take _ _ = _
    rw [ih hcurrent hrest]
    refine congrArg some (Outline.ext ?_ rfl hregisters ?_ rfl rfl)
    · exact (enterAll_append _ _ _).symm
    · funext n
      by_cases hn : n = b
      · simp [hn, put, introduce]
      · simp [hn, put, introduce]

theorem take_section (hbody : o.bodies s.label = []) (hfall : o.falls s.label = none)
    (huses : s.Uses o.registers) : s.statements.foldlM take o = some (o.settle s) := by
  let o₁ := (((o.introduce (.label s.label)).define s.label).fallInto s.label).setCurrent
    (some s.label)
  have htake : o.take (.label s.label) = some o₁ := if_pos ⟨hbody, hfall⟩
  have hlabels : o₁.labels = enterAll o.labels [s.label] := labels_fallInto _ _
  have hdefined : o₁.defined = s.label :: o.defined := defined_fallInto _ _
  have hregisters : o₁.registers = o.registers := registers_fallInto _ _
  have hbodies : o₁.bodies = o.bodies := bodies_fallInto _ _
  have hfalls : ∀ n, o₁.falls n =
      if o.current = some n ∧ n ≠ s.label then some s.label else o.falls n := falls_fallInto _ _
  rw [Section.statements, List.foldlM_cons, htake]
  change List.foldlM take o₁ _ = _
  rw [List.foldlM_append, take_performs (b := s.label) rfl (by rw [hregisters]; exact huses)]
  cases hgoto : s.goto with
  | none =>
    refine congrArg some (Outline.ext ?_ hdefined hregisters ?_ ?_ ?_)
    · simp only [settle, Section.mentions, hgoto, hlabels, Option.toList_none, List.append_nil]
      exact (enterAll_append _ [s.label] _).symm
    · funext n
      by_cases hn : n = s.label
      · simp [settle, hbodies, hn, hbody]
      · simp [settle, hbodies, hn]
    · funext n
      by_cases hn : n = s.label
      · simp [settle, hfalls, hn, hfall, hgoto]
      · simp [settle, hfalls, hn]
    · simp [settle, hgoto, o₁, setCurrent]
  | some target =>
    refine congrArg some (Outline.ext ?_ hdefined ?_ ?_ ?_ ?_)
    · simp only [settle, Section.mentions, hgoto, hlabels, Option.toList_some]
      change enterAll (enterAll (enterAll o.labels [s.label]) _) [target] = _
      rw [← enterAll_append, ← enterAll_append]
      rfl
    · exact hregisters
    · funext n
      by_cases hn : n = s.label
      · simp [settle, hbodies, hn, hbody, setCurrent, link, introduce]
      · simp [settle, hbodies, hn, setCurrent, link, introduce]
    · funext n
      by_cases hn : n = s.label
      · simp [settle, hn, hgoto, setCurrent, link]
      · simp [settle, hfalls, hn, setCurrent, link, introduce]
    · simp [settle, hgoto, setCurrent]

theorem current_settle (h : (o.settle s).current = some n) : n = s.label ∧ s.goto = none := by
  cases hgoto : s.goto with
  | none => simpa [settle, hgoto, eq_comm] using h
  | some target => simp [settle, hgoto] at h

/-- The outline can take the sections one after another. -/
structure Ready (o : Outline) (sections : List Section) : Prop where
  nodup : (sections.map Section.label).Nodup
  bodies : ∀ s ∈ sections, o.bodies s.label = []
  falls : ∀ s ∈ sections, o.falls s.label = none
  uses : ∀ s ∈ sections, s.Uses o.registers
  current : ∀ n, o.current = some n → n ∉ (sections.map Section.label).tail
  unfallen : ∀ n, o.current = some n → o.falls n = none

theorem Ready.settle (h : Ready o (s :: rest)) : Ready (o.settle s) rest := by
  obtain ⟨hs, hrest⟩ := List.nodup_cons.mp h.nodup
  have hne : ∀ t ∈ rest, t.label ≠ s.label := by
    intro t ht heq
    exact hs (heq ▸ List.mem_map_of_mem ht)
  refine ⟨hrest, ?_, ?_, fun t ht => h.uses t (List.mem_cons_of_mem s ht), ?_, ?_⟩
  · intro t ht
    rw [Outline.settle]
    simp only [hne t ht, if_false]
    exact h.bodies t (List.mem_cons_of_mem s ht)
  · intro t ht
    have hopen : o.current ≠ some t.label :=
      fun hc => h.current t.label hc (List.mem_map_of_mem ht)
    simp only [Outline.settle, hne t ht, hopen, if_false]
    exact h.falls t (List.mem_cons_of_mem s ht)
  · intro n hn hmem
    rw [(current_settle hn).1] at hmem
    exact hs (List.mem_of_mem_tail hmem)
  · intro n hn
    obtain ⟨rfl, hgoto⟩ := current_settle hn
    simp [Outline.settle, hgoto]

theorem Ready.settleAll {pre : List Section} (h : Ready o (pre ++ rest)) :
    Ready (pre.foldl Outline.settle o) rest := by
  induction pre generalizing o with
  | nil => exact h
  | cons s pre ih => exact ih h.settle

theorem Ready.takeAll (h : Ready o sections) :
    (sections.flatMap Section.statements).foldlM take o =
      some (sections.foldl Outline.settle o) := by
  induction sections generalizing o with
  | nil => rfl
  | cons s rest ih =>
    have hs : s ∈ s :: rest := List.mem_cons_self
    rw [List.flatMap_cons, List.foldlM_append,
      take_section (h.bodies s hs) (h.falls s hs) (h.uses s hs)]
    exact ih h.settle

@[simp] theorem registers_settleAll :
    (sections.foldl settle o).registers = o.registers := by
  induction sections generalizing o with
  | nil => rfl
  | cons s rest ih => exact ih

theorem mem_labels_settleAll : n ∈ (sections.foldl settle o).labels ↔
    n ∈ o.labels ∨ ∃ s ∈ sections, n ∈ s.mentions := by
  induction sections generalizing o with
  | nil => simp
  | cons s rest ih =>
    rw [List.foldl_cons, ih, settle, mem_enterAll, or_assoc, List.exists_mem_cons_iff]

theorem mem_defined_settleAll : n ∈ (sections.foldl settle o).defined ↔
    n ∈ o.defined ∨ n ∈ sections.map Section.label := by
  induction sections generalizing o with
  | nil => simp
  | cons s rest ih =>
    rw [List.foldl_cons, ih, settle, List.mem_cons, List.map_cons, List.mem_cons]
    exact ⟨by rintro ((h | h) | h) <;> simp [h], by rintro (h | h | h) <;> simp [h]⟩

theorem bodies_settleAll_of_notMem (hn : n ∉ sections.map Section.label) :
    (sections.foldl settle o).bodies n = o.bodies n := by
  induction sections generalizing o with
  | nil => rfl
  | cons s rest ih =>
    obtain ⟨hs, hrest⟩ := not_or.mp (mt List.mem_cons.mpr hn)
    rw [List.foldl_cons, ih hrest]
    exact if_neg hs

/-- Where the last open block falls if these sections are still to come. -/
def landing (n : String) : List Section → Option String
  | [] => if n = "exit" then none else some "exit"
  | s :: _ => some s.label

theorem Ready.falls_of_notMem (h : Ready o sections) (hn : n ∉ sections.map Section.label) :
    ((sections.foldl Outline.settle o).fallInto "exit").falls n =
      if o.current = some n then landing n sections else o.falls n := by
  induction sections generalizing o with
  | nil =>
    rw [List.foldl_nil, falls_fallInto, landing]
    by_cases hc : o.current = some n
    · by_cases hexit : n = "exit"
      · simp [hexit, ← h.unfallen n hc]
      · simp [hc, hexit]
    · simp [hc]
  | cons s rest ih =>
    obtain ⟨hs, hrest⟩ := not_or.mp (mt List.mem_cons.mpr hn)
    have hclosed : (o.settle s).current ≠ some n := fun hc => hs (current_settle hc).1
    rw [List.foldl_cons, ih h.settle hrest, if_neg hclosed, landing]
    exact if_neg hs

/-- What stands under a label that has a section. -/
theorem Ready.section_mem {pre post : List Section} (h : Ready o (pre ++ s :: post)) :
    let o' := ((pre ++ s :: post).foldl Outline.settle o).fallInto "exit"
    o'.bodies s.label = s.ops ∧ o'.falls s.label = s.goto.or (landing s.label post) := by
  have hs := h.settleAll
  obtain ⟨hnot, -⟩ := List.nodup_cons.mp hs.nodup
  dsimp only
  rw [List.foldl_append, List.foldl_cons]
  constructor
  · rw [bodies_fallInto, bodies_settleAll_of_notMem hnot]
    exact if_pos rfl
  · rw [hs.settle.falls_of_notMem hnot]
    cases hgoto : s.goto with
    | none => simp [Outline.settle, hgoto]
    | some target => simp [Outline.settle, hgoto]

end Outline

end FlowGraph.Function
