import FlowGraph.Proofs.Reading.Outline
import Mathlib.Data.List.Induction

/-!
# Statements in context

What a statement may presume of the statements above it, said of the list alone. A statement
stands under the last label above it, and under the entry if there is none. A list of statements
makes an outline exactly if every statement fits below those above it.
-/

namespace FlowGraph.Function

set_option autoImplicit false

namespace Statement

def label? : Statement → Option String
  | label name => some name
  | _ => none

def operation? : Statement → Option NamedOp
  | perform op => some op
  | _ => none

/-- Whether control leaves the block of `n` here, if the statement stands under `n`. -/
def Leaves (n : String) : Statement → Prop
  | label name => name ≠ n
  | goto _ => True
  | _ => False

end Statement

/-- The label under which a statement stands below these ones; `h` stands above them all. -/
def home (h : String) : List Statement → String
  | [] => h
  | st :: sts => home (st.label?.getD h) sts

/-- Those of the statements that stand under `n`; `h` stands above them all. -/
def under (n h : String) : List Statement → List Statement
  | [] => []
  | st :: sts =>
    if h = n then st :: under n (st.label?.getD h) sts else under n (st.label?.getD h) sts

/-- No `goto` has come since the last label. -/
def IsOpen (above : List Statement) : Prop :=
  ∀ before target since, above = before ++ .goto target :: since → ∃ name, .label name ∈ since

section places

variable {n h : String} {above : List Statement} {st : Statement}

theorem home_concat : home h (above ++ [st]) = st.label?.getD (home h above) := by
  induction above generalizing h with
  | nil => rfl
  | cons x above ih => exact ih

theorem under_concat :
    under n h (above ++ [st]) = under n h above ++ if home h above = n then [st] else [] := by
  induction above generalizing h with
  | nil => rfl
  | cons x above ih =>
    simp only [List.cons_append, under, home, ih]
    split <;> rfl

theorem isOpen_nil : IsOpen [] := by
  intro before target since heq
  simp at heq

theorem isOpen_concat :
    IsOpen (above ++ [st]) ↔
      (∃ name, st = .label name) ∨ IsOpen above ∧ ∀ target, st ≠ .goto target := by
  constructor
  · intro hopen
    by_cases hlabel : ∃ name, st = .label name
    · exact .inl hlabel
    · refine .inr ⟨?_, ?_⟩
      · intro before target since heq
        obtain ⟨name, hmem⟩ := hopen before target (since ++ [st]) (by simp [heq])
        rcases List.mem_append.mp hmem with hmem | hmem
        · exact ⟨name, hmem⟩
        · exact absurd ⟨name, (List.mem_singleton.mp hmem).symm⟩ hlabel
      · rintro target rfl
        obtain ⟨name, hmem⟩ := hopen above target [] rfl
        cases hmem
  · intro h before target since heq
    rcases List.eq_nil_or_concat since with rfl | ⟨since, x, rfl⟩
    · obtain ⟨-, hst⟩ := List.append_inj' heq rfl
      rcases h with ⟨name, rfl⟩ | ⟨-, hne⟩
      · cases hst
      · exact absurd (List.cons.inj hst).1 (hne target)
    · obtain ⟨habove, hst⟩ : above = before ++ .goto target :: since ∧ [st] = [x] :=
        List.append_inj' (heq.trans (by simp)) rfl
      obtain rfl := (List.cons.inj hst).1
      rcases h with ⟨name, rfl⟩ | ⟨hopen, -⟩
      · exact ⟨name, by simp⟩
      · obtain ⟨name, hmem⟩ := hopen before target since habove
        exact ⟨name, by simp [hmem]⟩

/-- Where a `goto` has closed the block, it stands under the same label. -/
theorem exists_goto_of_not_isOpen (hclosed : ¬ IsOpen above) :
    ∃ target, .goto target ∈ under (home h above) h above := by
  induction above using List.reverseRecOn with
  | nil => exact absurd isOpen_nil hclosed
  | append_singleton above st ih =>
    rw [isOpen_concat, not_or, not_and'] at hclosed
    obtain ⟨hlabel, hclosed⟩ := hclosed
    have hhome : home h (above ++ [st]) = home h above := by
      rw [home_concat]
      cases st with
      | label name => exact absurd ⟨name, rfl⟩ hlabel
      | _ => rfl
    rw [hhome, under_concat, if_pos rfl]
    by_cases hgoto : ∃ target, st = .goto target
    · obtain ⟨target, rfl⟩ := hgoto
      exact ⟨target, by simp⟩
    · obtain ⟨target, hmem⟩ := ih (hclosed fun target heq => hgoto ⟨target, heq⟩)
      exact ⟨target, List.mem_append_left _ hmem⟩

end places

/-- Whether a statement may stand below others. -/
def Fits (above : List Statement) : Statement → Prop
  | .label name => ∀ st ∈ under name "entry" above, st = .label name ∨ ∃ r, st = .register r
  | .register name => name ∉ above.flatMap Statement.registers
  | .perform op => IsOpen above ∧ ∀ r ∈ op.operands, r ∈ above.flatMap Statement.registers
  | .goto _ => IsOpen above

/-- Every statement fits where it stands, and every label but the entry and the exit has its
line somewhere. -/
structure Proper (sts : List Statement) : Prop where
  fits : ∀ above st below, sts = above ++ st :: below → Fits above st
  defined : ∀ n ∈ sts.flatMap Statement.labels, n = "entry" ∨ n = "exit" ∨ .label n ∈ sts

/-- An outline tells what these statements say. -/
structure Tells (sts : List Statement) (o : Outline) : Prop where
  labels : o.labels = enterAll ["entry", "exit"] (sts.flatMap Statement.labels)
  defined : ∀ n, n ∈ o.defined ↔ n = "entry" ∨ n = "exit" ∨ .label n ∈ sts
  registers : o.registers = enterAll [] (sts.flatMap Statement.registers)
  bodies : ∀ n, o.bodies n = (under n "entry" sts).filterMap Statement.operation?
  falls : ∀ n, o.falls n = none ↔ ∀ st ∈ under n "entry" sts, ¬ st.Leaves n
  current_of_isOpen : IsOpen sts → o.current = some (home "entry" sts)
  current_of_closed : ¬ IsOpen sts → o.current = none

theorem tells_start : Tells [] .start where
  labels := rfl
  defined n := by simp [Outline.start]
  registers := rfl
  bodies _ := rfl
  falls n := by simp [Outline.start, under]
  current_of_isOpen _ := rfl
  current_of_closed hclosed := absurd isOpen_nil hclosed

namespace Tells

variable {sts : List Statement} {st : Statement} {o o' : Outline} {n b : String}

theorem mem_registers (h : Tells sts o) :
    n ∈ o.registers ↔ n ∈ sts.flatMap Statement.registers := by
  rw [h.registers, mem_enterAll]
  simp

theorem current_eq_some_iff (h : Tells sts o) :
    o.current = some b ↔ IsOpen sts ∧ b = home "entry" sts := by
  by_cases hopen : IsOpen sts
  · rw [h.current_of_isOpen hopen]
    simp [hopen, eq_comm]
  · rw [h.current_of_closed hopen]
    simp [hopen]

theorem isOpen_iff (h : Tells sts o) : IsOpen sts ↔ o.current.isSome = true := by
  rw [Option.isSome_iff_exists]
  simp [h.current_eq_some_iff]

theorem falls_home (h : Tells sts o) (hclosed : ¬ IsOpen sts) :
    o.falls (home "entry" sts) ≠ none := by
  intro hnone
  obtain ⟨target, hmem⟩ := exists_goto_of_not_isOpen (h := "entry") hclosed
  exact (h.falls _).mp hnone _ hmem trivial

/-- Nothing has come of a label exactly if it may be repeated. -/
theorem fits_label_iff (h : Tells sts o) (name : String) :
    Fits sts (.label name) ↔ o.bodies name = [] ∧ o.falls name = none := by
  rw [h.bodies, h.falls, List.filterMap_eq_nil_iff, ← forall₂_and]
  refine forall₂_congr fun st _ => ?_
  cases st with
  | label m => simp [Statement.operation?, Statement.Leaves]
  | register r => simp [Statement.operation?, Statement.Leaves]
  | perform op => simp [Statement.operation?]
  | goto target => simp [Statement.Leaves]

theorem take_isSome_iff (h : Tells sts o) : (o.take st).isSome = true ↔ Fits sts st := by
  cases st with
  | label name =>
    rw [h.fits_label_iff, Outline.take]
    split
    · next hempty => simp [hempty]
    · next hempty => simp [hempty]
  | register name =>
    rw [Outline.take, Fits, ← h.mem_registers]
    split
    · next hmem => simp [hmem]
    · next hmem => simp [hmem]
  | perform op =>
    simp only [Fits, h.isOpen_iff, ← h.mem_registers, Outline.take]
    cases o.current with
    | none => simp
    | some b =>
      rw [Option.bind_some]
      split
      · next hops => simpa using hops
      · next hops => simpa using hops
  | goto target =>
    rw [Fits, h.isOpen_iff, Outline.take, Option.isSome_map]

theorem labels_concat (h : Tells sts o) : enterAll o.labels st.labels =
    enterAll ["entry", "exit"] ((sts ++ [st]).flatMap Statement.labels) := by
  rw [List.flatMap_append, enterAll_append, ← h.labels, List.flatMap_singleton]

theorem registers_concat (h : Tells sts o) : enterAll o.registers st.registers =
    enterAll [] ((sts ++ [st]).flatMap Statement.registers) := by
  rw [List.flatMap_append, enterAll_append, ← h.registers, List.flatMap_singleton]

theorem defined_concat (h : Tells sts o) (hst : st.label? = none) (n : String) :
    n ∈ o.defined ↔ n = "entry" ∨ n = "exit" ∨ .label n ∈ sts ++ [st] := by
  have hne : .label n ≠ st := by
    rintro rfl
    cases hst
  rw [h.defined]
  simp [hne]

theorem bodies_concat (h : Tells sts o) (hst : st.operation? = none) (n : String) :
    o.bodies n = (under n "entry" (sts ++ [st])).filterMap Statement.operation? := by
  rw [under_concat, List.filterMap_append, ← h.bodies]
  split
  · simp [hst]
  · simp

theorem falls_concat (h : Tells sts o) (hst : ∀ n, ¬ st.Leaves n) (n : String) :
    o.falls n = none ↔ ∀ x ∈ under n "entry" (sts ++ [st]), ¬ x.Leaves n := by
  rw [h.falls, under_concat, List.forall_mem_append]
  split
  · simp [hst]
  · simp

/-- The block above falls into a label, unless it is the block of the label or has been closed. -/
theorem falls_label (h : Tells sts o) (name n : String) :
    (if o.current = some n ∧ n ≠ name then some name else o.falls n) = none ↔
      ∀ x ∈ under n "entry" (sts ++ [.label name]), ¬ x.Leaves n := by
  have hlast : (∀ x ∈ (if home "entry" sts = n then [.label name] else [] : List Statement),
      ¬ x.Leaves n) ↔ (home "entry" sts = n → name = n) := by
    split
    · next hhome => simp [hhome, Statement.Leaves]
    · next hhome => simp [hhome]
  rw [under_concat, List.forall_mem_append, ← h.falls, hlast]
  by_cases hfall : o.falls n = none
  · have hcurrent : o.current = some n ↔ home "entry" sts = n := by
      rw [h.current_eq_some_iff]
      refine ⟨fun hopen => hopen.2.symm, fun hhome => ⟨?_, hhome.symm⟩⟩
      apply Classical.byContradiction
      intro hclosed
      exact h.falls_home hclosed (hhome ▸ hfall)
    simp only [hcurrent, hfall]
    by_cases hname : name = n
    · simp [hname]
    · simp [hname, Ne.symm hname]
  · simp only [hfall, false_and, iff_false]
    split
    · exact Option.some_ne_none name
    · exact hfall

theorem take_label {name : String} (h : Tells sts o) (ht : o.take (.label name) = some o') :
    Tells (sts ++ [.label name]) o' := by
  have hopen : IsOpen (sts ++ [.label name]) := isOpen_concat.mpr (.inl ⟨name, rfl⟩)
  simp only [Outline.take] at ht
  split at ht
  · cases ht
    refine ⟨?_, ?_, ?_, ?_, ?_, ?_, fun hclosed => absurd hopen hclosed⟩
    · exact (Outline.labels_fallInto _ _).trans h.labels_concat
    · intro n
      have hdefined : n ∈ name :: o.defined ↔
          n = "entry" ∨ n = "exit" ∨ .label n ∈ sts ++ [.label name] := by
        rw [List.mem_cons, h.defined]
        simp only [List.mem_append, List.mem_singleton, Statement.label.injEq]
        tauto
      simpa [Outline.setCurrent, Outline.define, Outline.introduce] using hdefined
    · exact (Outline.registers_fallInto _ _).trans h.registers_concat
    · intro n
      refine Eq.trans ?_ (h.bodies_concat rfl n)
      simp [Outline.setCurrent, Outline.define, Outline.introduce]
    · intro n
      change (((o.introduce _).define name).fallInto name).falls n = none ↔ _
      rw [Outline.falls_fallInto]
      exact h.falls_label name n
    · intro _
      rw [home_concat]
      rfl
  · cases ht

theorem take_register {name : String} (h : Tells sts o) (ht : o.take (.register name) = some o') :
    Tells (sts ++ [.register name]) o' := by
  have hopen : IsOpen (sts ++ [.register name]) ↔ IsOpen sts := by simp [isOpen_concat]
  simp only [Outline.take] at ht
  split at ht
  · cases ht
  · cases ht
    refine ⟨h.labels_concat, h.defined_concat rfl, h.registers_concat, h.bodies_concat rfl,
      h.falls_concat fun _ => id, ?_, ?_⟩
    · rw [hopen, home_concat]
      exact h.current_of_isOpen
    · rw [hopen]
      exact h.current_of_closed

theorem take_perform {op : NamedOp} (h : Tells sts o) (ht : o.take (.perform op) = some o') :
    Tells (sts ++ [.perform op]) o' := by
  have hopen : IsOpen (sts ++ [.perform op]) ↔ IsOpen sts := by simp [isOpen_concat]
  obtain ⟨b, hb, ht⟩ := Option.bind_eq_some_iff.mp ht
  obtain ⟨-, hhome⟩ := h.current_eq_some_iff.mp hb
  split at ht
  · cases ht
    refine ⟨h.labels_concat, h.defined_concat rfl, h.registers_concat, ?_,
      h.falls_concat fun _ => id, ?_, ?_⟩
    · intro n
      change (if n = b then o.bodies n ++ [op] else o.bodies n) = _
      rw [under_concat, List.filterMap_append, ← h.bodies, hhome]
      by_cases hn : n = home "entry" sts
      · simp [hn, Statement.operation?]
      · simp [hn, Ne.symm hn]
    · rw [hopen, home_concat]
      exact h.current_of_isOpen
    · rw [hopen]
      exact h.current_of_closed
  · cases ht

theorem take_goto {target : String} (h : Tells sts o) (ht : o.take (.goto target) = some o') :
    Tells (sts ++ [.goto target]) o' := by
  have hclosed : ¬ IsOpen (sts ++ [.goto target]) := by simp [isOpen_concat]
  obtain ⟨b, hb, rfl⟩ := Option.map_eq_some_iff.mp ht
  obtain ⟨-, hhome⟩ := h.current_eq_some_iff.mp hb
  refine ⟨h.labels_concat, h.defined_concat rfl, h.registers_concat, h.bodies_concat rfl, ?_,
    fun hopen => absurd hopen hclosed, fun _ => rfl⟩
  intro n
  change (if n = b then some target else o.falls n) = none ↔ _
  rw [under_concat, List.forall_mem_append, ← h.falls, hhome]
  by_cases hn : n = home "entry" sts
  · simp [hn, Statement.Leaves]
  · simp [hn, Ne.symm hn]

theorem take (h : Tells sts o) (ht : o.take st = some o') : Tells (sts ++ [st]) o' := by
  cases st with
  | label name => exact h.take_label ht
  | register name => exact h.take_register ht
  | perform op => exact h.take_perform ht
  | goto target => exact h.take_goto ht

theorem close_isSome_iff (h : Tells sts o) : o.close.isSome = true ↔
    ∀ n ∈ sts.flatMap Statement.labels, n = "entry" ∨ n = "exit" ∨ .label n ∈ sts := by
  have hdefined : (∀ n ∈ o.labels, n ∈ o.defined) ↔
      ∀ n ∈ sts.flatMap Statement.labels, n = "entry" ∨ n = "exit" ∨ .label n ∈ sts := by
    simp only [h.labels, mem_enterAll, h.defined]
    constructor
    · intro hall n hn
      exact hall n (.inr hn)
    · intro hall n hn
      rcases hn with hn | hn
      · rcases List.mem_cons.mp hn with rfl | hn
        · exact .inl rfl
        · exact .inr (.inl (List.mem_singleton.mp hn))
      · exact hall n hn
  rw [← hdefined, Outline.close]
  split
  · next hall => simpa using hall
  · next hall => simpa using hall

end Tells

theorem foldlM_take_concat {sts : List Statement} {st : Statement} {o : Outline} :
    (sts ++ [st]).foldlM Outline.take o = (sts.foldlM Outline.take o).bind (·.take st) := by
  rw [List.foldlM_append]
  simp

theorem tells_of_foldlM {sts : List Statement} {o : Outline}
    (h : sts.foldlM Outline.take .start = some o) : Tells sts o := by
  induction sts using List.reverseRecOn generalizing o with
  | nil =>
    cases h
    exact tells_start
  | append_singleton sts st ih =>
    rw [foldlM_take_concat] at h
    obtain ⟨o₁, h₁, ht⟩ := Option.bind_eq_some_iff.mp h
    exact (ih h₁).take ht

theorem foldlM_take_isSome_iff (sts : List Statement) :
    (sts.foldlM Outline.take .start).isSome = true ↔
      ∀ above st below, sts = above ++ st :: below → Fits above st := by
  induction sts using List.reverseRecOn with
  | nil => simp
  | append_singleton sts st ih =>
    have hsplit : (∀ above x below, sts ++ [st] = above ++ x :: below → Fits above x) ↔
        (∀ above x below, sts = above ++ x :: below → Fits above x) ∧ Fits sts st := by
      constructor
      · intro hall
        refine ⟨?_, hall sts st [] rfl⟩
        intro above x below heq
        exact hall above x (below ++ [st]) (by simp [heq])
      · rintro ⟨hall, hlast⟩ above x below heq
        rcases List.eq_nil_or_concat below with rfl | ⟨below, y, rfl⟩
        · obtain ⟨rfl, hx⟩ := List.append_inj' heq rfl
          cases hx
          exact hlast
        · obtain ⟨hsts, -⟩ : sts = above ++ x :: below ∧ [st] = [y] :=
            List.append_inj' (heq.trans (by simp)) rfl
          exact hall above x below hsts
    rw [hsplit, ← ih, foldlM_take_concat]
    cases ho : sts.foldlM Outline.take .start with
    | none => simp
    | some o => simp [(tells_of_foldlM ho).take_isSome_iff]

/-- A list of statements makes a complete outline exactly if it is proper. -/
theorem exists_outline_iff_proper (sts : List Statement) :
    (∃ o o', sts.foldlM Outline.take .start = some o ∧ o.close = some o') ↔ Proper sts := by
  constructor
  · rintro ⟨o, o', ho, hclose⟩
    have htells := tells_of_foldlM ho
    refine ⟨(foldlM_take_isSome_iff sts).mp ?_, htells.close_isSome_iff.mp ?_⟩
    · rw [ho]
      rfl
    · rw [hclose]
      rfl
  · rintro ⟨hfits, hdefined⟩
    obtain ⟨o, ho⟩ := Option.isSome_iff_exists.mp ((foldlM_take_isSome_iff sts).mpr hfits)
    obtain ⟨o', hclose⟩ :=
      Option.isSome_iff_exists.mp ((tells_of_foldlM ho).close_isSome_iff.mpr hdefined)
    exact ⟨o, o', ho, hclose⟩

end FlowGraph.Function
