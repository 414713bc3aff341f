import FlowGraph.Proofs.Reading.Statements
import Mathlib.Data.List.Basic

/-!
# Outlines

An outline is what a list of statements says, by names alone: which labels and registers there are,
which operations stand under each label, and where control goes on from there. No statement is
refused for another reason than its names, and every outline stays well-formed.
-/

namespace FlowGraph

set_option autoImplicit false

def Encoding.registers (e : Encoding) : List RegId := e.operands ++ e.result?.toList

namespace Function

def enter (names : List String) (name : String) : List String :=
  if name ∈ names then names else names ++ [name]

def enterAll (names new : List String) : List String := new.foldl enter names

section enter

variable {names new : List String} {name n : String}

theorem mem_enter : n ∈ enter names name ↔ n ∈ names ∨ n = name := by
  unfold enter
  split
  · next h =>
    constructor
    · exact .inl
    · rintro (hn | rfl)
      · exact hn
      · exact h
  · simp

theorem nodup_enter (h : names.Nodup) : (enter names name).Nodup := by
  unfold enter
  split
  · exact h
  · next hnot =>
    refine List.nodup_append.mpr ⟨h, by simp, ?_⟩
    intro a ha b hb
    rw [List.mem_singleton.mp hb]
    exact ne_of_mem_of_not_mem ha hnot

theorem prefix_enter : names <+: enter names name := by
  unfold enter
  split
  · exact List.prefix_rfl
  · exact List.prefix_append _ _

theorem mem_enterAll : n ∈ enterAll names new ↔ n ∈ names ∨ n ∈ new := by
  induction new generalizing names with
  | nil => simp [enterAll]
  | cons name new ih =>
    change n ∈ enterAll (enter names name) new ↔ _
    rw [ih, mem_enter, List.mem_cons, or_assoc]

theorem nodup_enterAll (h : names.Nodup) : (enterAll names new).Nodup := by
  induction new generalizing names with
  | nil => exact h
  | cons name new ih => exact ih (nodup_enter h)

theorem prefix_enterAll : names <+: enterAll names new := by
  induction new generalizing names with
  | nil => exact List.prefix_rfl
  | cons name new ih => exact prefix_enter.trans ih

theorem enterAll_append (names new more : List String) :
    enterAll names (new ++ more) = enterAll (enterAll names new) more := List.foldl_append

theorem idxOf_extend {names' : List String} (h : names <+: names') (hn : n ∈ names) :
    names'.idxOf n = names.idxOf n := by
  obtain ⟨rest, rfl⟩ := h
  exact List.idxOf_append_of_mem hn

end enter

namespace NamedOp

def operands : NamedOp → List String
  | arith _ lhs rhs _ => [lhs, rhs]
  | branch cond _ => [cond]
  | nop => []

def results : NamedOp → List String
  | arith _ _ _ result => [result]
  | _ => []

def targets : NamedOp → List String
  | branch _ target => [target]
  | _ => []

end NamedOp

namespace Statement

def labels : Statement → List String
  | label name => [name]
  | register _ => []
  | perform op => op.targets
  | goto target => [target]

/-- The registers that a statement may bring up. -/
def registers : Statement → List String
  | register name => [name]
  | perform op => op.results
  | _ => []

end Statement

@[ext]
structure Outline where
  labels : List String
  /-- The labels that have had their line. -/
  defined : List String
  registers : List String
  bodies : String → List NamedOp
  falls : String → Option String
  /-- The label whose block takes the next statement; none after a `goto`. -/
  current : Option String

namespace Outline

def start : Outline where
  labels := ["entry", "exit"]
  defined := ["entry", "exit"]
  registers := []
  bodies _ := []
  falls _ := none
  current := some "entry"

def introduce (o : Outline) (st : Statement) : Outline :=
  { o with
    labels := enterAll o.labels st.labels
    registers := enterAll o.registers st.registers }

def link (o : Outline) (b target : String) : Outline :=
  { o with falls := fun n => if n = b then some target else o.falls n }

def fallInto (o : Outline) (name : String) : Outline :=
  match o.current with
  | some b => if b = name then o else o.link b name
  | none => o

def define (o : Outline) (name : String) : Outline := { o with defined := name :: o.defined }

def setCurrent (o : Outline) (name : Option String) : Outline := { o with current := name }

def put (o : Outline) (b : String) (op : NamedOp) : Outline :=
  { o with bodies := fun n => if n = b then o.bodies n ++ [op] else o.bodies n }

def take (o : Outline) : Statement → Option Outline
  | .label name =>
    if o.bodies name = [] ∧ o.falls name = none then
      some ((((o.introduce (.label name)).define name).fallInto name).setCurrent (some name))
    else none
  | .register name =>
    if name ∈ o.registers then none else some (o.introduce (.register name))
  | .perform op =>
    o.current.bind fun b =>
    if ∀ r ∈ op.operands, r ∈ o.registers then some ((o.introduce (.perform op)).put b op) else none
  | .goto target =>
    o.current.map fun b => ((o.introduce (.goto target)).link b target).setCurrent none

def close (o : Outline) : Option Outline :=
  if ∀ n ∈ o.labels, n ∈ o.defined then some (o.fallInto "exit") else none

section fallInto

variable (o : Outline) (name : String)

@[simp] theorem labels_fallInto : (o.fallInto name).labels = o.labels := by
  unfold fallInto
  split
  · split <;> rfl
  · rfl

@[simp] theorem defined_fallInto : (o.fallInto name).defined = o.defined := by
  unfold fallInto
  split
  · split <;> rfl
  · rfl

@[simp] theorem registers_fallInto : (o.fallInto name).registers = o.registers := by
  unfold fallInto
  split
  · split <;> rfl
  · rfl

@[simp] theorem bodies_fallInto : (o.fallInto name).bodies = o.bodies := by
  unfold fallInto
  split
  · split <;> rfl
  · rfl

theorem falls_fallInto (n : String) : (o.fallInto name).falls n =
    if o.current = some n ∧ n ≠ name then some name else o.falls n := by
  unfold fallInto
  cases hc : o.current with
  | none => simp
  | some b =>
    by_cases hb : b = name
    · rw [if_neg]
      · simp [hb]
      · rintro ⟨hn, hne⟩
        exact hne ((Option.some.inj hn).symm.trans hb)
    · by_cases hn : b = n
      · simp [hb, ← hn, link]
      · simp [hb, hn, link, Ne.symm hn]

end fallInto

theorem registers_take {o o' : Outline} {st : Statement} (h : o.take st = some o') :
    o'.registers = enterAll o.registers st.registers := by
  cases st with
  | label name =>
    simp only [take] at h
    split at h
    · cases h
      exact registers_fallInto _ _
    · cases h
  | register name =>
    simp only [take] at h
    split at h
    · cases h
    · cases h
      rfl
  | perform op =>
    obtain ⟨b, -, h⟩ := Option.bind_eq_some_iff.mp h
    split at h
    · cases h
      rfl
    · cases h
  | goto target =>
    obtain ⟨b, -, rfl⟩ := Option.map_eq_some_iff.mp h
    rfl

def Knows (o : Outline) (op : NamedOp) : Prop :=
  (∀ r ∈ op.operands, r ∈ o.registers) ∧ (∀ r ∈ op.results, r ∈ o.registers) ∧
    ∀ t ∈ op.targets, t ∈ o.labels

structure Valid (o : Outline) : Prop where
  ends : ∃ rest, o.labels = "entry" :: "exit" :: rest
  labels_nodup : o.labels.Nodup
  registers_nodup : o.registers.Nodup
  defined_mem : ∀ n ∈ o.defined, n ∈ o.labels
  current_mem : ∀ b, o.current = some b → b ∈ o.labels
  knows : ∀ b, ∀ op ∈ o.bodies b, o.Knows op
  falls_mem : ∀ b t, o.falls b = some t → t ∈ o.labels
  outside : ∀ b, b ∉ o.labels → o.bodies b = [] ∧ o.falls b = none

theorem valid_start : start.Valid where
  ends := ⟨[], rfl⟩
  labels_nodup := by decide
  registers_nodup := .nil
  defined_mem n hn := hn
  current_mem b hb := by
    cases hb
    decide
  knows b op hop := by cases hop
  falls_mem b t ht := by cases ht
  outside b _ := ⟨rfl, rfl⟩

namespace Valid

variable {o o' : Outline} {b target : String} {op : NamedOp}

theorem introduce (h : o.Valid) (st : Statement) : (o.introduce st).Valid where
  ends := by
    obtain ⟨rest, hrest⟩ := h.ends
    obtain ⟨more, hmore⟩ : o.labels <+: enterAll o.labels st.labels := prefix_enterAll
    exact ⟨rest ++ more, by rw [Outline.introduce, ← hmore, hrest]; rfl⟩
  labels_nodup := nodup_enterAll h.labels_nodup
  registers_nodup := nodup_enterAll h.registers_nodup
  defined_mem n hn := mem_enterAll.mpr (.inl (h.defined_mem n hn))
  current_mem b hb := mem_enterAll.mpr (.inl (h.current_mem b hb))
  knows b op hop := by
    obtain ⟨ho, hr, ht⟩ := h.knows b op hop
    exact ⟨fun r hmem => mem_enterAll.mpr (.inl (ho r hmem)),
      fun r hmem => mem_enterAll.mpr (.inl (hr r hmem)),
      fun t hmem => mem_enterAll.mpr (.inl (ht t hmem))⟩
  falls_mem b t ht := mem_enterAll.mpr (.inl (h.falls_mem b t ht))
  outside b hb := h.outside b fun hmem => hb (mem_enterAll.mpr (.inl hmem))

theorem link (h : o.Valid) (hb : b ∈ o.labels) (ht : target ∈ o.labels) :
    (o.link b target).Valid where
  ends := h.ends
  labels_nodup := h.labels_nodup
  registers_nodup := h.registers_nodup
  defined_mem := h.defined_mem
  current_mem := h.current_mem
  knows := h.knows
  falls_mem c t hc := by
    simp only [Outline.link] at hc
    split at hc
    · cases hc
      exact ht
    · exact h.falls_mem c t hc
  outside c hc := by
    have hcb : c ≠ b := fun heq => hc (heq ▸ hb)
    simpa [Outline.link, hcb] using h.outside c hc

theorem fallInto (h : o.Valid) (ht : target ∈ o.labels) : (o.fallInto target).Valid := by
  unfold Outline.fallInto
  split
  · next b hb =>
    split
    · exact h
    · exact h.link (h.current_mem b hb) ht
  · exact h

theorem put (h : o.Valid) (hb : b ∈ o.labels) (hop : o.Knows op) : (o.put b op).Valid where
  ends := h.ends
  labels_nodup := h.labels_nodup
  registers_nodup := h.registers_nodup
  defined_mem := h.defined_mem
  current_mem := h.current_mem
  knows c op' hmem := by
    simp only [Outline.put] at hmem
    split at hmem
    · rcases List.mem_append.mp hmem with hmem | hmem
      · exact h.knows c op' hmem
      · rw [List.mem_singleton.mp hmem]
        exact hop
    · exact h.knows c op' hmem
  falls_mem := h.falls_mem
  outside c hc := by
    have hcb : c ≠ b := fun heq => hc (heq ▸ hb)
    simpa [Outline.put, hcb] using h.outside c hc

theorem define (h : o.Valid) (hb : b ∈ o.labels) : (o.define b).Valid :=
  { h with
    defined_mem := by
      intro n hn
      rcases List.mem_cons.mp hn with rfl | hn
      · exact hb
      · exact h.defined_mem n hn }

theorem setCurrent (h : o.Valid) {current : Option String}
    (hc : ∀ b, current = some b → b ∈ o.labels) : (o.setCurrent current).Valid :=
  { h with current_mem := hc }

theorem take (h : o.Valid) {st : Statement} (ht : o.take st = some o') : o'.Valid := by
  have hi := h.introduce st
  have hlabels : ∀ n ∈ st.labels, n ∈ (o.introduce st).labels :=
    fun n hn => mem_enterAll.mpr (.inr hn)
  cases st with
  | label name =>
    have hname := hlabels name List.mem_cons_self
    simp only [Outline.take] at ht
    split at ht
    · cases ht
      refine ((hi.define hname).fallInto hname).setCurrent ?_
      rintro b ⟨⟩
      rw [labels_fallInto]
      exact hname
    · cases ht
  | register name =>
    simp only [Outline.take] at ht
    split at ht
    · cases ht
    · cases ht
      exact hi
  | perform op =>
    obtain ⟨b, hb, ht⟩ := Option.bind_eq_some_iff.mp ht
    split at ht
    · next hop =>
      cases ht
      refine hi.put (hi.current_mem b hb) ⟨?_, ?_, hlabels⟩
      · exact fun r hr => mem_enterAll.mpr (.inl (hop r hr))
      · exact fun r hr => mem_enterAll.mpr (.inr hr)
    · cases ht
  | goto target =>
    obtain ⟨b, hb, rfl⟩ := Option.map_eq_some_iff.mp ht
    refine (hi.link (hi.current_mem b hb) (hlabels target List.mem_cons_self)).setCurrent ?_
    rintro c ⟨⟩

theorem close (h : o.Valid) (hc : o.close = some o') : o'.Valid := by
  unfold Outline.close at hc
  split at hc
  · cases hc
    obtain ⟨rest, hrest⟩ := h.ends
    exact h.fallInto (by simp [hrest])
  · cases hc

theorem takeAll (h : o.Valid) {sts : List Statement} (ht : sts.foldlM Outline.take o = some o') :
    o'.Valid := by
  induction sts generalizing o with
  | nil =>
    cases ht
    exact h
  | cons st sts ih =>
    rw [List.foldlM_cons] at ht
    obtain ⟨o₁, h₁, ht⟩ := Option.bind_eq_some_iff.mp ht
    exact ih (h.take h₁) ht

end Valid

/-- Once its statements are over, every block but the exit has a place to go on to. -/
def Linked (o : Outline) : Prop :=
  ∀ n ∈ o.defined, n ≠ "exit" → o.current = some n ∨ (o.falls n).isSome

theorem linked_start : start.Linked := by
  intro n hn hne
  simp only [start, List.mem_cons, List.not_mem_nil, or_false] at hn ⊢
  rcases hn with rfl | rfl
  · exact .inl rfl
  · exact absurd rfl hne

namespace Linked

variable {o o' : Outline}

theorem take (h : o.Linked) {st : Statement} (ht : o.take st = some o') : o'.Linked := by
  cases st with
  | label name =>
    simp only [Outline.take] at ht
    split at ht
    · cases ht
      intro n hn hne
      by_cases hnn : n = name
      · exact .inl (congrArg some hnn.symm)
      · refine .inr ?_
        simp only [setCurrent, define, defined_fallInto] at hn
        change ((((o.introduce (.label name)).define name).fallInto name).falls n).isSome = true
        rw [falls_fallInto]
        split
        · rfl
        · next hnot =>
          rcases h n ((List.mem_cons.mp hn).resolve_left hnn) hne with hcur | hfall
          · exact absurd ⟨hcur, hnn⟩ hnot
          · exact hfall
    · cases ht
  | register name =>
    simp only [Outline.take] at ht
    split at ht
    · cases ht
    · cases ht
      exact h
  | perform op =>
    obtain ⟨b, hb, ht⟩ := Option.bind_eq_some_iff.mp ht
    split at ht
    · cases ht
      exact h
    · cases ht
  | goto target =>
    obtain ⟨b, hb, rfl⟩ := Option.map_eq_some_iff.mp ht
    intro n hn hne
    refine .inr ?_
    simp only [setCurrent, link]
    split
    · rfl
    · next hnb =>
      refine (h n hn hne).resolve_left fun hcur => hnb ?_
      exact Option.some.inj (hcur.symm.trans hb)

theorem close (h : o.Linked) (hc : o.close = some o') :
    ∀ n ∈ o'.labels, n ≠ "exit" → (o'.falls n).isSome := by
  unfold Outline.close at hc
  split at hc
  · next hdef =>
    cases hc
    intro n hn hne
    rw [labels_fallInto] at hn
    rw [falls_fallInto]
    split
    · rfl
    · next hnot => exact (h n (hdef n hn) hne).resolve_left fun hcur => hnot ⟨hcur, hne⟩
  · cases hc

end Linked

/-- The block that takes the next statement has no place to go on to yet. -/
def Pending (o : Outline) : Prop := ∀ b, o.current = some b → o.falls b = none

theorem pending_start : start.Pending := fun _ _ => rfl

theorem Pending.take {o o' : Outline} (h : o.Pending) {st : Statement} (ht : o.take st = some o') :
    o'.Pending := by
  cases st with
  | label name =>
    simp only [Outline.take] at ht
    split at ht
    · next hempty =>
      cases ht
      intro b hb
      cases hb
      change (((o.introduce (.label name)).define name).fallInto name).falls name = none
      rw [falls_fallInto, if_neg fun hne => hne.2 rfl]
      exact hempty.2
    · cases ht
  | register name =>
    simp only [Outline.take] at ht
    split at ht
    · cases ht
    · cases ht
      exact h
  | perform op =>
    obtain ⟨b, -, ht⟩ := Option.bind_eq_some_iff.mp ht
    split at ht
    · cases ht
      exact h
    · cases ht
  | goto target =>
    obtain ⟨b, -, rfl⟩ := Option.map_eq_some_iff.mp ht
    intro c hc
    cases hc

def blockOf (o : Outline) (name : String) : BlockId := ⟨o.labels.idxOf name⟩

def registerOf (o : Outline) (name : String) : RegId := ⟨o.registers.idxOf name⟩

def resolve (o : Outline) : NamedOp → Operation
  | .arith op lhs rhs result =>
    .arith op (o.registerOf lhs) (o.registerOf rhs) (o.registerOf result)
  | .branch cond target => .branch (o.registerOf cond) (some (o.blockOf target))
  | .nop => .nop

section handles

variable {o o' : Outline} {m n : String}

theorem blockOf_inj (hm : m ∈ o.labels) : o.blockOf m = o.blockOf n ↔ m = n := by
  rw [blockOf, blockOf, BlockId.mk.injEq]
  exact List.idxOf_inj hm

theorem blockOf_extend (h : o.labels <+: o'.labels) (hn : n ∈ o.labels) :
    o'.blockOf n = o.blockOf n := by
  rw [blockOf, blockOf, idxOf_extend h hn]

theorem registerOf_extend (h : o.registers <+: o'.registers) (hn : n ∈ o.registers) :
    o'.registerOf n = o.registerOf n := by
  rw [registerOf, registerOf, idxOf_extend h hn]

theorem resolve_extend (hl : o.labels <+: o'.labels) (hr : o.registers <+: o'.registers)
    {op : NamedOp} (hop : o.Knows op) : o'.resolve op = o.resolve op := by
  obtain ⟨hoperands, hresults, htargets⟩ := hop
  cases op with
  | arith op lhs rhs result =>
    simp only [resolve]
    rw [registerOf_extend hr (hoperands lhs (by simp [NamedOp.operands])),
      registerOf_extend hr (hoperands rhs (by simp [NamedOp.operands])),
      registerOf_extend hr (hresults result (by simp [NamedOp.results]))]
  | branch cond target =>
    simp only [resolve]
    rw [registerOf_extend hr (hoperands cond (by simp [NamedOp.operands])),
      blockOf_extend hl (htargets target (by simp [NamedOp.targets]))]
  | nop => rfl

theorem blockOf_entry (h : o.Valid) : o.blockOf "entry" = .entry := by
  obtain ⟨rest, hrest⟩ := h.ends
  simp [blockOf, hrest, BlockId.entry]

theorem blockOf_exit (h : o.Valid) : o.blockOf "exit" = .exit := by
  obtain ⟨rest, hrest⟩ := h.ends
  rw [blockOf, hrest]
  rfl

theorem Knows.index_lt {op : NamedOp} (h : o.Knows op) {r : RegId}
    (hr : r ∈ (o.resolve op).encode.registers) : r.index < o.registers.length := by
  obtain ⟨hoperands, hresults, -⟩ := h
  have hlt : ∀ n ∈ o.registers, (o.registerOf n).index < o.registers.length :=
    fun n hn => List.idxOf_lt_length_iff.mpr hn
  cases op with
  | arith op lhs rhs result =>
    simp only [resolve, Operation.encode, Encoding.registers, Option.toList_some, List.mem_append,
      List.mem_cons, List.not_mem_nil, or_false] at hr
    rcases hr with (rfl | rfl) | rfl
    · exact hlt lhs (hoperands lhs (by simp [NamedOp.operands]))
    · exact hlt rhs (hoperands rhs (by simp [NamedOp.operands]))
    · exact hlt result (hresults result (by simp [NamedOp.results]))
  | branch cond target =>
    simp only [resolve, Operation.encode, Encoding.registers, Option.toList_none, List.append_nil,
      List.mem_singleton] at hr
    rw [hr]
    exact hlt cond (hoperands cond (by simp [NamedOp.operands]))
  | nop => cases hr

end handles

end Outline

end Function

end FlowGraph
