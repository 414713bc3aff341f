import FlowGraph.Proofs.Reading.UndefinedLabels
import Mathlib.Data.List.Nodup
import Std.Data.HashMap
import Std.Data.HashSet

/-!
# Tables of names

A draft lists its labels in the order in which they come up, and it knows its registers from the
function. Here the names are kept in tables, which are in no order: how tables answer what is asked
while a line is read, and when tables hold the names of a draft.
-/

namespace FlowGraph.Function

open Relation Text

set_option autoImplicit false

instance : Hashable BlockId where
  hash b := hash b.index

/-- The names of a function, as far as it has been read. -/
structure Tables where
  labels : Std.HashMap String BlockId := {}
  /-- The blocks that have had their label line. -/
  defined : Std.HashSet BlockId := {}
  registers : Std.HashMap String RegId := {}

namespace Tables

def clear (_ : Tables) : Tables := {}

def addLabel (t : Tables) (name : String) (block : BlockId) : Tables :=
  { t with labels := t.labels.insert name block }

def define (t : Tables) (block : BlockId) : Tables := { t with defined := t.defined.insert block }

def addRegister (t : Tables) (name : String) (r : RegId) : Tables :=
  { t with registers := t.registers.insert name r }

def seed (t : Tables) : Tables :=
  (((t.addLabel "entry" .entry).addLabel "exit" .exit).define .entry).define .exit

/-- The table of labels, in whichever order. -/
def table (t : Tables) : List Label :=
  t.labels.toList.map fun (name, block) => ⟨name, block, t.defined.contains block⟩

end Tables

/-- A function while a line is read into it, with tables for its names. -/
structure TableLine where
  line : LineCursor
  tables : Tables
  function : Function
  current : Option BlockId
  log : List Event := []

abbrev TableM := EStateM Error TableLine

namespace TableM

variable {α : Type}

def scan (step : Scan α) : TableM α := fun s =>
  match step s.line with
  | .ok a line => .ok a { s with line }
  | .error e line => .error e { s with line }

def fail (problem : Problem) : TableM α := scan (Scan.fail problem)

def edit (change : Function → Except Fault Function) : TableM Unit := fun s =>
  match change s.function with
  | .ok f => .ok () { s with function := f }
  | .error e => .error (.fault e) s

def addRegister (name : String) : TableM RegId := fun s =>
  let r := s.function.nextRegister
  .ok r { s with
    function := s.function.addRegister name
    tables := s.tables.addRegister name r }

def blockOf (name : String) : TableM BlockId := fun s =>
  match s.tables.labels[name]? with
  | some block => .ok block s
  | none =>
    let block := s.function.nextBlock
    .ok block { s with
      function := s.function.addBlock
      tables := s.tables.addLabel name block
      log := s.log ++ [.newLabel name block] }

def openLabel (name : String) : TableM (Option BlockId) := do
  let block ← blockOf name
  if ((← get).function.block? block).any Block.hasContent then
    return none
  else
    modify fun s => { s with tables := s.tables.define block }
    return some block

def obey : (r : Request) → TableM r.Answer
  | .scan probe => scan probe.scan
  | .fail problem => fail problem
  | .blockOf name => blockOf name
  | .openLabel name => openLabel name
  | .findRegister name => do return (← get).tables.registers[name]?
  | .addRegister name => addRegister name
  | .current => do return (← get).current
  | .setCurrent block => modify fun s => { s with current := block }
  | .append block operation => edit (·.append block operation)
  | .setFallThrough block next => edit (·.setFallThrough block (some next))
  | .undefinedLabel => do return oldestUndefined? (← get).tables.table
  | .function => do return (← get).function

def bodyLine : TableM (Option Function) := Routine.bodyLine.run obey

end TableM

namespace Tables

variable {t : Tables} {d : Draft} {name : String}

/-- The tables hold all names of the draft. -/
structure Hold (t : Tables) (d : Draft) : Prop where
  tabled : d.Tabled
  labels : ∀ name, t.labels[name]? = d.findLabel? name
  defined : ∀ b, b ∈ t.defined ↔ ∃ l ∈ d.labels, l.block = b ∧ l.defined = true
  registers : ∀ name, t.registers[name]? = d.function.findRegister? name

theorem hold_start (t : Tables) : t.clear.seed.Hold .start := by
  refine ⟨Draft.tabled_start, ?_, ?_, fun name => Std.HashMap.getElem?_empty⟩
  · intro name
    have hseed : t.clear.seed.labels =
        (({} : Std.HashMap String BlockId).insert "entry" .entry).insert "exit" .exit := rfl
    rw [hseed, Std.HashMap.getElem?_insert, Std.HashMap.getElem?_insert]
    by_cases hentry : "entry" = name
    · subst hentry
      rfl
    · by_cases hexit : "exit" = name
      · subst hexit
        rfl
      · simp [Draft.findLabel?, Draft.start, hentry, hexit]
  · intro b
    have hseed : t.clear.seed.defined =
        (({} : Std.HashSet BlockId).insert .entry).insert .exit := rfl
    rw [hseed, Std.HashSet.mem_insert, Std.HashSet.mem_insert]
    simp [Draft.start, or_comm]

theorem Hold.addLabel (h : t.Hold d) (hname : d.findLabel? name = none) :
    (t.addLabel name d.function.nextBlock).Hold (d.addLabel name) := by
  refine ⟨h.tabled.addLabel hname, ?_, ?_, h.registers⟩
  · intro n
    have hlabels := h.labels n
    unfold Draft.findLabel? at hname hlabels ⊢
    rw [Tables.addLabel, Std.HashMap.getElem?_insert, hlabels, Draft.addLabel, List.find?_append]
    by_cases hn : name = n
    · subst hn
      rw [Option.map_eq_none_iff.mp hname]
      simp
    · simp [hn]
  · intro b
    simp only [Draft.addLabel, List.mem_append, List.mem_singleton]
    refine (h.defined b).trans ⟨?_, ?_⟩
    · rintro ⟨l, hl, hb⟩
      exact ⟨l, .inl hl, hb⟩
    · rintro ⟨l, hl | rfl, hb, hdefined⟩
      · exact ⟨l, hl, hb, hdefined⟩
      · cases hdefined

theorem Hold.define (h : t.Hold d) {block : BlockId} (hblock : ∃ l ∈ d.labels, l.block = block) :
    (t.define block).Hold (d.define block) := by
  refine ⟨h.tabled.define block, ?_, ?_, h.registers⟩
  · intro n
    refine (h.labels n).trans ?_
    rw [Draft.findLabel?, Draft.findLabel?, Draft.define, List.find?_map, Option.map_map]
    congr 1
    · funext l
      simp only [Function.comp_apply]
      split <;> rfl
    · congr 1
      funext l
      simp only [Function.comp_apply]
      split <;> rfl
  · intro b
    rw [Tables.define, Std.HashSet.mem_insert, beq_iff_eq, h.defined]
    constructor
    · rintro (rfl | ⟨l, hl, rfl, hdefined⟩)
      · obtain ⟨l, hl, rfl⟩ := hblock
        exact ⟨_, List.mem_map_of_mem hl, by simp, by simp⟩
      · refine ⟨_, List.mem_map_of_mem hl, ?_⟩
        split
        · exact ⟨rfl, rfl⟩
        · exact ⟨rfl, hdefined⟩
    · rintro ⟨m, hm, rfl, hdefined⟩
      obtain ⟨l, hl, rfl⟩ := List.mem_map.mp hm
      split at hdefined
      · next hl' => exact .inl (by rw [if_pos hl']; exact hl'.symm)
      · next hl' => exact .inr ⟨l, hl, by rw [if_neg hl'], hdefined⟩

theorem Hold.setCurrent (h : t.Hold d) (block : Option BlockId) : t.Hold (d.setCurrent block) :=
  ⟨⟨h.tabled.names, h.tabled.blocks, h.tabled.size⟩, h.labels, h.defined, h.registers⟩

theorem Hold.rework (h : t.Hold d) {f : Function} (hf : Reworks d.function f) :
    t.Hold { d with function := f } := by
  refine ⟨⟨h.tabled.names, h.tabled.blocks, hf.size_blocks.trans h.tabled.size⟩, h.labels,
    h.defined, ?_⟩
  intro n
  rw [h.registers, findRegister?, findRegister?, hf.registerTable_eq]

theorem Hold.addRegister (h : t.Hold d) (name : String) :
    (t.addRegister name d.function.nextRegister).Hold
      { d with function := d.function.addRegister name } := by
  refine ⟨⟨h.tabled.names, h.tabled.blocks, h.tabled.size⟩, h.labels, h.defined, ?_⟩
  intro n
  rw [Tables.addRegister, Std.HashMap.getElem?_insert, h.registers, findRegister?_addRegister]
  simp only [beq_iff_eq]

theorem Hold.contains_eq (h : t.Hold d) {l : Label} (hl : l ∈ d.labels) :
    t.defined.contains l.block = l.defined := by
  rw [Bool.eq_iff_iff, Std.HashSet.contains_iff_mem, h.defined]
  constructor
  · rintro ⟨m, hm, hblock, hdefined⟩
    rw [← List.inj_on_of_nodup_map h.tabled.nodup_blocks hm hl hblock]
    exact hdefined
  · intro hdefined
    exact ⟨l, hl, rfl, hdefined⟩

theorem Hold.mem_table_iff (h : t.Hold d) {l : Label} : l ∈ t.table ↔ l ∈ d.labels := by
  have hmem : l ∈ t.table ↔
      d.findLabel? l.name = some l.block ∧ t.defined.contains l.block = l.defined := by
    rw [table, List.mem_map, ← h.labels]
    constructor
    · rintro ⟨⟨name, block⟩, hentry, rfl⟩
      exact ⟨Std.HashMap.mem_toList_iff_getElem?_eq_some.mp hentry, rfl⟩
    · rintro ⟨hname, hdefined⟩
      refine ⟨(l.name, l.block), Std.HashMap.mem_toList_iff_getElem?_eq_some.mpr hname, ?_⟩
      dsimp only
      rw [hdefined]
  rw [hmem]
  constructor
  · rintro ⟨hname, hdefined⟩
    obtain ⟨m, hm, hblock⟩ := Option.map_eq_some_iff.mp hname
    have hmlabels := List.mem_of_find?_eq_some hm
    have hmname : m.name = l.name := by simpa using List.find?_some hm
    rw [← hblock, h.contains_eq hmlabels] at hdefined
    obtain ⟨name, block, defined⟩ := l
    obtain ⟨name', block', defined'⟩ := m
    cases hmname
    cases hblock
    cases hdefined
    exact hmlabels
  · intro hl
    exact ⟨h.tabled.findLabel?_eq hl, h.contains_eq hl⟩

theorem Hold.table_perm (h : t.Hold d) : t.table.Perm d.labels := by
  refine (List.perm_ext_iff_of_nodup ?_ (List.Nodup.of_map _ h.tabled.names)).mpr
    fun l => h.mem_table_iff
  refine List.pairwise_map.mpr (Std.HashMap.distinct_keys_toList.imp ?_)
  rintro a b hne heq
  rw [(Label.mk.inj heq).1, beq_self_eq_true] at hne
  cases hne

end Tables

end FlowGraph.Function
