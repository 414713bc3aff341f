import FlowGraph.Proofs.Graph.Encodings
import FlowGraph.Proofs.Graph.Growth
import FlowGraph.Proofs.Graph.Registers
import FlowGraph.Proofs.Reading.Outline

/-!
# Drafts and their outlines

A draft is the outline of the statements that made it with handles in the place of names: the
labels are numbered in order, and so are the registers. Both refuse the same statements.
-/

namespace FlowGraph.Function

set_option autoImplicit false

theorem find?_eq_name (names : List String) (n : String) :
    names.find? (fun m => decide (m = n)) = if n ∈ names then some n else none := by
  induction names with
  | nil => rfl
  | cons m names ih =>
    by_cases hm : m = n
    · simp [hm]
    · simp [hm, ih, Ne.symm hm]

structure Describes (o : Outline) (d : Draft) : Prop where
  labels : d.labels = o.labels.map fun n => ⟨n, o.blockOf n, decide (n ∈ o.defined)⟩
  current : d.current = o.current.map o.blockOf
  registers : d.function.registers = o.registers
  catalogued : d.function.Catalogued
  encoded : d.function.WellEncoded
  size : d.function.blocks.size = o.labels.length
  live : ∀ b, d.function.isLive b = true ↔ b.index < o.labels.length
  bodies : ∀ n ∈ o.labels, (d.function.instructionsOf (o.blockOf n)).map Instruction.operation =
    (o.bodies n).map fun op => (o.resolve op).encode
  falls : ∀ n ∈ o.labels, d.function.fallThroughOf (o.blockOf n) = (o.falls n).map o.blockOf
  accounted : Accounted d.function fun _ _ => 0

namespace Describes

variable {o : Outline} {d : Draft} {b n target : String} {op : NamedOp}

theorem findLabel? (h : Describes o d) (n : String) :
    d.findLabel? n = if n ∈ o.labels then some (o.blockOf n) else none := by
  rw [Draft.findLabel?, h.labels, List.find?_map]
  change (Option.map _ (o.labels.find? fun m => decide (m = n))).map _ = _
  rw [find?_eq_name]
  split <;> rfl

theorem findRegister? (h : Describes o d) (hv : o.Valid) (n : String) :
    d.function.findRegister? n = if n ∈ o.registers then some (o.registerOf n) else none := by
  have hfind := h.catalogued.findRegister?_eq (h.registers ▸ hv.registers_nodup) n
  rwa [h.registers] at hfind

theorem isLive_blockOf (h : Describes o d) (hn : n ∈ o.labels) :
    d.function.isLive (o.blockOf n) = true :=
  (h.live _).mpr (List.idxOf_lt_length_iff.mpr hn)

theorem exists_label (hd : Describes o d) (hv : o.Valid) {b : BlockId}
    (hb : d.function.isLive b = true) : ∃ n ∈ o.labels, o.blockOf n = b := by
  have hlt := (hd.live b).mp hb
  refine ⟨o.labels[b.index], List.getElem_mem hlt, ?_⟩
  rw [Outline.blockOf, hv.labels_nodup.idxOf_getElem]

theorem exists_resolve (hd : Describes o d) (hv : o.Valid) {b : BlockId}
    {insn : Instruction} (h : insn ∈ d.function.instructionsOf b) :
    ∃ op, o.Knows op ∧ insn.operation = (o.resolve op).encode := by
  obtain ⟨n, hn, rfl⟩ := hd.exists_label hv (isLive_of_mem_instructionsOf h)
  have hmem : insn.operation ∈ (o.bodies n).map fun op => (o.resolve op).encode :=
    hd.bodies n hn ▸ List.mem_map_of_mem h
  obtain ⟨op, hop, heq⟩ := List.mem_map.mp hmem
  exact ⟨op, hv.knows n op hop, heq.symm⟩

/-- The registers that an instruction reads or writes exist. -/
theorem index_lt_registers (h : Describes o d) (hv : o.Valid) {c : BlockId} {insn : Instruction}
    (hinsn : insn ∈ d.function.instructionsOf c) {r : RegId} (hr : r ∈ insn.operation.registers) :
    r.index < d.function.registers.length := by
  obtain ⟨op, hknows, hop⟩ := h.exists_resolve hv hinsn
  rw [hop] at hr
  rw [h.registers]
  exact hknows.index_lt hr

theorem exists_target (h : Describes o d) (hv : o.Valid) {c : BlockId} {insn : Instruction}
    (hinsn : insn ∈ d.function.instructionsOf c) (hbranch : insn.isBranch = true) :
    ∃ t, insn.target? = some t ∧ d.function.isLive t = true := by
  obtain ⟨op, ⟨-, -, htargets⟩, hop⟩ := h.exists_resolve hv hinsn
  rw [Instruction.isBranch, hop] at hbranch
  rw [Instruction.target?, hop]
  cases op with
  | arith op lhs rhs result => cases hbranch
  | branch cond target =>
    exact ⟨_, rfl, h.isLive_blockOf (htargets target List.mem_cons_self)⟩
  | nop => cases hbranch

theorem isSome_fallThroughOf (h : Describes o d) (hv : o.Valid)
    (hfalls : ∀ n ∈ o.labels, n ≠ "exit" → (o.falls n).isSome = true) {c : BlockId}
    (hc : d.function.isLive c = true) (hexit : c ≠ .exit) :
    (d.function.fallThroughOf c).isSome = true := by
  obtain ⟨n, hn, rfl⟩ := h.exists_label hv hc
  have hne : n ≠ "exit" := by
    rintro rfl
    exact hexit (Outline.blockOf_exit hv)
  rw [h.falls n hn, Option.isSome_map]
  exact hfalls n hn hne

theorem addLabel (h : Describes o d) (hv : o.Valid) (hn : n ∉ o.labels) :
    Describes { o with labels := o.labels ++ [n] } (d.addLabel n) := by
  let o' : Outline := { o with labels := o.labels ++ [n] }
  have hpre : o.labels <+: o'.labels := List.prefix_append _ _
  have hold : ∀ m ∈ o.labels, o'.blockOf m = o.blockOf m :=
    fun m hm => Outline.blockOf_extend hpre hm
  have hnew : o'.blockOf n = d.function.nextBlock := by
    rw [Outline.blockOf, nextBlock, h.size, List.idxOf_append_of_notMem hn]
    simp
  have hresolve : ∀ m, ((o.bodies m).map fun op => (o'.resolve op).encode) =
      (o.bodies m).map fun op => (o.resolve op).encode := by
    intro m
    refine List.map_congr_left fun op hop => congrArg Operation.encode ?_
    exact Outline.resolve_extend hpre List.prefix_rfl (hv.knows m op hop)
  have hdead := block?_eq_none (isLive_nextBlock d.function)
  change Describes o' (d.addLabel n)
  refine ⟨?_, ?_, h.registers, h.catalogued.congr rfl rfl, h.encoded.congr fun _ => rfl,
    ?_, ?_, ?_, ?_, h.accounted.addBlock⟩
  · have hundefined : n ∉ o.defined := fun hmem => hn (hv.defined_mem n hmem)
    change d.labels ++ [⟨n, d.function.nextBlock, false⟩] = (o.labels ++ [n]).map _
    rw [List.map_append, h.labels]
    congr 1
    · exact List.map_congr_left fun m hm => by rw [hold m hm]
    · simp [hnew, o', hundefined]
  · change d.current = o.current.map o'.blockOf
    rw [h.current]
    cases hc : o.current with
    | none => rfl
    | some b => rw [Option.map_some, Option.map_some, hold b (hv.current_mem b hc)]
  · change (d.function.blocks.push _).size = (o.labels ++ [n]).length
    simp [h.size]
  · intro b
    change d.function.addBlock.isLive b = true ↔ b.index < (o.labels ++ [n]).length
    rw [isLive_addBlock, Bool.or_eq_true, decide_eq_true_iff, h.live, ← BlockId.index_inj,
      nextBlock, h.size, List.length_append, List.length_singleton]
    dsimp only
    omega
  · intro m hm
    change (d.function.addBlock.instructionsOf (o'.blockOf m)).map _ = (o.bodies m).map _
    rw [instructionsOf_addBlock, hresolve]
    rcases List.mem_append.mp hm with hm | hm
    · rw [hold m hm, h.bodies m hm]
    · rw [List.mem_singleton.mp hm, hnew, (hv.outside n hn).1]
      simp [instructionsOf, hdead]
  · intro m hm
    change d.function.addBlock.fallThroughOf (o'.blockOf m) = (o.falls m).map o'.blockOf
    rw [fallThroughOf_addBlock]
    rcases List.mem_append.mp hm with hm | hm
    · rw [hold m hm, h.falls m hm]
      cases ht : o.falls m with
      | none => rfl
      | some t => rw [Option.map_some, Option.map_some, hold t (hv.falls_mem m t ht)]
    · rw [List.mem_singleton.mp hm, hnew, (hv.outside n hn).2]
      simp [fallThroughOf, hdead]

theorem meet (h : Describes o d) (hv : o.Valid) (n : String) :
    Describes { o with labels := enter o.labels n } (d.meet n).2 ∧
      (d.meet n).1 = ⟨(enter o.labels n).idxOf n⟩ := by
  unfold Draft.meet
  rw [h.findLabel?]
  by_cases hn : n ∈ o.labels
  · rw [if_pos hn, enter, if_pos hn]
    exact ⟨h, rfl⟩
  · rw [if_neg hn, enter, if_neg hn]
    refine ⟨h.addLabel hv hn, ?_⟩
    rw [List.idxOf_append_of_notMem hn, nextBlock, h.size]
    simp

theorem addRegister (h : Describes o d) (hv : o.Valid) (n : String) :
    Describes { o with registers := o.registers ++ [n] }
      { d with function := d.function.addRegister n } := by
  refine ⟨h.labels, h.current, ?_, h.catalogued.addRegister n, h.encoded.congr fun _ => rfl,
    h.size, h.live, ?_, h.falls, h.accounted.sameContents rfl rfl rfl⟩
  · change d.function.registers ++ [n] = _
    rw [h.registers]
  · intro m hm
    refine (h.bodies m hm).trans (List.map_congr_left fun op hop => congrArg Operation.encode ?_)
    exact (@Outline.resolve_extend o { o with registers := o.registers ++ [n] }
      List.prefix_rfl (List.prefix_append _ _) op (hv.knows m op hop)).symm

theorem assigned (h : Describes o d) (hv : o.Valid) (n : String) :
    Describes { o with registers := enter o.registers n } (d.assigned n).2 ∧
      (d.assigned n).1 = ⟨(enter o.registers n).idxOf n⟩ := by
  unfold Draft.assigned
  rw [h.findRegister? hv]
  by_cases hn : n ∈ o.registers
  · rw [if_pos hn, enter, if_pos hn]
    exact ⟨h, rfl⟩
  · rw [if_neg hn, enter, if_neg hn]
    refine ⟨h.addRegister hv n, ?_⟩
    rw [List.idxOf_append_of_notMem hn, nextRegister, h.registers]
    simp

theorem put (h : Describes o d) (hb : b ∈ o.labels) (hop : ∀ t ∈ op.targets, t ∈ o.labels) :
    ∃ d', d.edit (·.append (o.blockOf b) (o.resolve op)) = some d' ∧ Describes (o.put b op) d' := by
  have htarget : ∀ t, (o.resolve op).encode.target? = some t → d.function.isLive t = true := by
    intro t ht
    cases op with
    | arith op lhs rhs result => cases ht
    | nop => cases ht
    | branch cond target =>
      cases ht
      exact h.isLive_blockOf (hop target List.mem_cons_self)
  obtain ⟨f, hf⟩ := exists_append h.accounted.symmetric (h.isLive_blockOf hb) htarget
  obtain ⟨hacc, hsame, hfall, hinsns⟩ := h.accounted.append hf
  have hresolve : (o.put b op).resolve = o.resolve := by
    funext op'
    cases op' <;> rfl
  refine ⟨{ d with function := f }, by simp [Draft.edit, hf, Except.toOption], ?_⟩
  refine ⟨h.labels, h.current, hsame.registers.trans h.registers,
    h.catalogued.reworks (.append hf), h.encoded.reworks (.append hf), hsame.size.trans h.size,
    ?_, ?_, fun m hm => (hfall _).trans (h.falls m hm), hacc⟩
  · intro c
    rw [hsame.live]
    exact h.live c
  · intro m (hm : m ∈ o.labels)
    change (f.instructionsOf (o.blockOf m)).map _ = _
    rw [hinsns, hresolve, Outline.put]
    dsimp only
    by_cases hmb : m = b
    · rw [if_pos (congrArg o.blockOf hmb), if_pos hmb, List.map_append, List.map_append, hmb,
        h.bodies b hb]
      rfl
    · rw [if_neg (mt (Outline.blockOf_inj hm).mp hmb), if_neg hmb, h.bodies m hm]

theorem link (h : Describes o d) (hb : b ∈ o.labels) (ht : target ∈ o.labels) :
    ∃ d', d.edit (·.setFallThrough (o.blockOf b) (some (o.blockOf target))) = some d' ∧
      Describes (o.link b target) d' := by
  have htarget : ∀ t, some (o.blockOf target) = some t → d.function.isLive t = true := by
    rintro t ⟨⟩
    exact h.isLive_blockOf ht
  obtain ⟨f, hf⟩ := h.accounted.exists_setFallThrough (h.isLive_blockOf hb) htarget
  obtain ⟨hacc, hbec⟩ := h.accounted.setFallThrough hf
  have hinsn : f.instruction? = d.function.instruction? := funext hbec.instruction
  refine ⟨{ d with function := f }, by simp [Draft.edit, hf, Except.toOption], ?_⟩
  refine ⟨h.labels, h.current, hbec.registers.trans h.registers,
    h.catalogued.reworks (.setFallThrough hf), h.encoded.reworks (.setFallThrough hf),
    hbec.size.trans h.size, ?_, ?_, ?_, hacc⟩
  · intro c
    rw [hbec.live]
    exact h.live c
  · intro m hm
    change (f.instructionsOf (o.blockOf m)).map _ = _
    rw [instructionsOf_eq, hbec.listing, hinsn, ← instructionsOf_eq]
    exact h.bodies m hm
  · intro m (hm : m ∈ o.labels)
    change f.fallThroughOf (o.blockOf m) =
      (if m = b then some target else o.falls m).map o.blockOf
    rw [hbec.fallThrough]
    by_cases hmb : m = b
    · rw [if_pos (congrArg o.blockOf hmb), if_pos hmb]
      rfl
    · rw [if_neg (mt (Outline.blockOf_inj hm).mp hmb), if_neg hmb]
      exact h.falls m hm

theorem fallInto (h : Describes o d) (hcur : ∀ b, o.current = some b → b ∈ o.labels)
    (ht : target ∈ o.labels) :
    ∃ d', d.fallInto (o.blockOf target) = some d' ∧ Describes (o.fallInto target) d' := by
  unfold Draft.fallInto Outline.fallInto
  rw [h.current]
  cases hc : o.current with
  | none => exact ⟨d, rfl, h⟩
  | some b =>
    have hb := hcur b hc
    simp only [Option.map_some]
    by_cases hbt : b = target
    · rw [if_pos (congrArg o.blockOf hbt), if_pos hbt]
      exact ⟨d, rfl, h⟩
    · rw [if_neg (mt (Outline.blockOf_inj hb).mp hbt), if_neg hbt]
      exact h.link hb ht

theorem define (h : Describes o d) (n : String) :
    Describes (o.define n) (d.define (o.blockOf n)) := by
  refine ⟨?_, h.current, h.registers, h.catalogued, h.encoded, h.size, h.live, h.bodies, h.falls,
    h.accounted⟩
  change d.labels.map _ = _
  rw [h.labels, List.map_map]
  refine List.map_congr_left fun m hm => ?_
  have hblock : (o.define n).blockOf m = o.blockOf m := rfl
  have hdefined : (o.define n).defined = n :: o.defined := rfl
  rw [hblock, hdefined]
  by_cases hmn : m = n
  · simp [hmn]
  · have hne := mt (Outline.blockOf_inj hm).mp hmn
    simp [hmn, hne]

theorem setCurrent (h : Describes o d) (current : Option String) :
    Describes (o.setCurrent current) (d.setCurrent (current.map o.blockOf)) :=
  ⟨h.labels, rfl, h.registers, h.catalogued, h.encoded, h.size, h.live, h.bodies, h.falls,
    h.accounted⟩

theorem hasContent_iff (h : Describes o d) (hn : n ∈ o.labels) :
    (d.function.block? (o.blockOf n)).any Block.hasContent = true ↔
      ¬ (o.bodies n = [] ∧ o.falls n = none) := by
  have hbody : d.function.instructionsOf (o.blockOf n) = [] ↔ o.bodies n = [] := by
    rw [← List.map_eq_nil_iff, h.bodies n hn, List.map_eq_nil_iff]
  have hnext : d.function.fallThroughOf (o.blockOf n) = none ↔ o.falls n = none := by
    rw [h.falls n hn, Option.map_eq_none_iff]
  rw [h.accounted.owned.hasContent_iff, hbody, hnext]

/-- Both refuse, or both go on and still say the same. -/
def Agree : Option Outline → Option Draft → Prop
  | some o, some d => Describes o d
  | none, none => True
  | _, _ => False

theorem Agree.exists_outline {x : Option Outline} (h : Agree x (some d)) :
    ∃ o, x = some o ∧ Describes o d := by
  cases x with
  | none => exact h.elim
  | some o => exact ⟨o, rfl, h⟩

theorem Agree.exists_draft {y : Option Draft} (h : Agree (some o) y) :
    ∃ d, y = some d ∧ Describes o d := by
  cases y with
  | none => exact h.elim
  | some d => exact ⟨d, rfl, h⟩

theorem take_label (h : Describes o d) (hv : o.Valid) (name : String) :
    Agree (o.take (.label name)) (d.take (.label name)) := by
  let o₁ : Outline := o.introduce (.label name)
  obtain ⟨hmet, hb⟩ : Describes o₁ (d.meet name).2 ∧ (d.meet name).1 = o₁.blockOf name :=
    h.meet hv name
  have hmem : name ∈ o₁.labels := mem_enterAll.mpr (.inr List.mem_cons_self)
  have hcontent := hmet.hasContent_iff hmem
  simp only [Outline.take, Draft.take, hb]
  by_cases hempty : o.bodies name = [] ∧ o.falls name = none
  · rw [if_pos hempty, if_neg (fun hc => hcontent.mp hc hempty)]
    obtain ⟨d₂, hd₂, hinto⟩ :=
      (hmet.define name).fallInto (hv.introduce (.label name)).current_mem hmem
    have hcur := hinto.setCurrent (some name)
    have hblock : ((o₁.define name).fallInto name).blockOf name = o₁.blockOf name := by
      rw [Outline.blockOf, Outline.labels_fallInto]
      rfl
    rw [Option.map_some, hblock] at hcur
    have hfell : ((d.meet name).2.define (o₁.blockOf name)).fallInto (o₁.blockOf name) =
        some d₂ := hd₂
    rw [hfell]
    exact hcur
  · rw [if_neg hempty, if_pos (hcontent.mpr hempty)]
    exact trivial

theorem take_goto (h : Describes o d) (hv : o.Valid) (target : String) :
    Agree (o.take (.goto target)) (d.take (.goto target)) := by
  let o₁ : Outline := o.introduce (.goto target)
  obtain ⟨hmet, hb⟩ : Describes o₁ (d.meet target).2 ∧ (d.meet target).1 = o₁.blockOf target :=
    h.meet hv target
  have hmem : target ∈ o₁.labels := mem_enterAll.mpr (.inr List.mem_cons_self)
  simp only [Outline.take, Draft.take, hb, h.current]
  cases hc : o.current with
  | none => exact trivial
  | some b =>
    have hbmem : b ∈ o.labels := hv.current_mem b hc
    have hblock : o₁.blockOf b = o.blockOf b := Outline.blockOf_extend prefix_enterAll hbmem
    obtain ⟨d₂, hd₂, hlink⟩ := hmet.link (mem_enterAll.mpr (.inl hbmem)) hmem
    rw [hblock] at hd₂
    simp only [Option.map_some, Option.bind_some, hd₂]
    exact hlink.setCurrent none

theorem take_register (h : Describes o d) (hv : o.Valid) (name : String) :
    Agree (o.take (.register name)) (d.take (.register name)) := by
  simp only [Outline.take, Draft.take, h.findRegister? hv]
  by_cases hn : name ∈ o.registers
  · simp only [hn, if_true, Option.isSome_some]
    exact trivial
  · simp only [hn, if_false, Option.isSome_none, Bool.false_eq_true]
    have hreg : (o.introduce (.register name)) = { o with registers := o.registers ++ [name] } := by
      simp [Outline.introduce, Statement.labels, Statement.registers, enterAll, enter, hn]
    rw [hreg]
    exact h.addRegister hv name

theorem perform_known (h : Describes o d) (hv : o.Valid) (hb : b ∈ o.labels)
    (hops : ∀ r ∈ op.operands, r ∈ o.registers) :
    ∃ d', d.perform (o.blockOf b) op = some d' ∧
      Describes ((o.introduce (.perform op)).put b op) d' := by
  let o₁ : Outline := o.introduce (.perform op)
  have hb₁ : b ∈ o₁.labels := mem_enterAll.mpr (.inl hb)
  have hblock : o₁.blockOf b = o.blockOf b := Outline.blockOf_extend prefix_enterAll hb
  have hreg : ∀ r ∈ o.registers, o₁.registerOf r = o.registerOf r :=
    fun r hr => Outline.registerOf_extend prefix_enterAll hr
  have htargets : ∀ t ∈ op.targets, t ∈ o₁.labels := fun t ht => mem_enterAll.mpr (.inr ht)
  cases op with
  | arith op lhs rhs result =>
    have hl : lhs ∈ o.registers := hops lhs (by simp [NamedOp.operands])
    have hr : rhs ∈ o.registers := hops rhs (by simp [NamedOp.operands])
    obtain ⟨hdesc, hx⟩ : Describes o₁ (d.assigned result).2 ∧
        (d.assigned result).1 = o₁.registerOf result := h.assigned hv result
    obtain ⟨d₂, hd₂, hput⟩ := hdesc.put hb₁ htargets
    rw [hblock, Outline.resolve, hreg lhs hl, hreg rhs hr] at hd₂
    refine ⟨d₂, ?_, hput⟩
    simp only [Draft.perform, h.findRegister? hv, hl, hr, if_true, Option.bind_some, hx, hd₂]
  | branch cond target =>
    have hcond : cond ∈ o.registers := hops cond (by simp [NamedOp.operands])
    obtain ⟨hdesc, ht⟩ : Describes o₁ (d.meet target).2 ∧
        (d.meet target).1 = o₁.blockOf target := h.meet hv target
    obtain ⟨d₂, hd₂, hput⟩ := hdesc.put hb₁ htargets
    rw [hblock, Outline.resolve, hreg cond hcond] at hd₂
    refine ⟨d₂, ?_, hput⟩
    simp only [Draft.perform, h.findRegister? hv, hcond, if_true, Option.bind_some, ht, hd₂]
  | nop =>
    have hnone : ∀ t ∈ NamedOp.nop.targets, t ∈ o.labels := by simp [NamedOp.targets]
    obtain ⟨d₂, hd₂, hput⟩ := h.put hb hnone
    refine ⟨d₂, ?_, hput⟩
    rw [Outline.resolve] at hd₂
    rw [Draft.perform, hd₂]

theorem perform_unknown (h : Describes o d) (hv : o.Valid) (c : BlockId)
    (hops : ¬ ∀ r ∈ op.operands, r ∈ o.registers) : d.perform c op = none := by
  cases op with
  | arith op lhs rhs result =>
    simp only [NamedOp.operands, List.forall_mem_cons, List.not_mem_nil, false_implies,
      implies_true, and_true] at hops
    by_cases hl : lhs ∈ o.registers
    · have hr : rhs ∉ o.registers := fun hr => hops ⟨hl, hr⟩
      simp only [Draft.perform, h.findRegister? hv, hl, hr, if_true, if_false,
        Option.bind_some, Option.bind_none]
    · simp only [Draft.perform, h.findRegister? hv, hl, if_false, Option.bind_none]
  | branch cond target =>
    simp only [NamedOp.operands, List.forall_mem_cons, List.not_mem_nil, false_implies,
      implies_true, and_true] at hops
    simp only [Draft.perform, h.findRegister? hv, hops, if_false, Option.bind_none]
  | nop => exact absurd (by simp [NamedOp.operands]) hops

theorem take_perform (h : Describes o d) (hv : o.Valid) (op : NamedOp) :
    Agree (o.take (.perform op)) (d.take (.perform op)) := by
  simp only [Outline.take, Draft.take, h.current]
  cases hc : o.current with
  | none => exact trivial
  | some b =>
    simp only [Option.map_some, Option.bind_some]
    by_cases hops : ∀ r ∈ op.operands, r ∈ o.registers
    · obtain ⟨d', hd', hput⟩ := h.perform_known hv (hv.current_mem b hc) hops
      rw [if_pos hops, hd']
      exact hput
    · rw [if_neg hops, h.perform_unknown hv _ hops]
      exact trivial

theorem take (h : Describes o d) (hv : o.Valid) (st : Statement) :
    Agree (o.take st) (d.take st) := by
  cases st with
  | label name => exact h.take_label hv name
  | register name => exact h.take_register hv name
  | perform op => exact h.take_perform hv op
  | goto target => exact h.take_goto hv target

/-- A list of statements makes a draft as far as it makes an outline, and they say the same. -/
theorem takeAll (h : Describes o d) (hv : o.Valid) (sts : List Statement) :
    Agree (sts.foldlM Outline.take o) (sts.foldlM Draft.take d) := by
  induction sts generalizing o d with
  | nil => exact h
  | cons st sts ih =>
    rw [List.foldlM_cons, List.foldlM_cons]
    have hstep := h.take hv st
    cases ho : o.take st with
    | none =>
      cases hd : d.take st with
      | none => exact trivial
      | some d' =>
        rw [ho, hd] at hstep
        exact hstep.elim
    | some o' =>
      cases hd : d.take st with
      | none =>
        rw [ho, hd] at hstep
        exact hstep.elim
      | some d' =>
        rw [ho, hd] at hstep
        exact ih hstep (hv.take ho)

theorem close (h : Describes o d) (hv : o.Valid) : Agree o.close d.close := by
  have hundef : d.undefinedLabel? = none ↔ ∀ n ∈ o.labels, n ∈ o.defined := by
    rw [Draft.undefinedLabel?, Option.map_eq_none_iff, List.find?_eq_none, h.labels]
    simp
  unfold Outline.close Draft.close
  by_cases hdef : ∀ n ∈ o.labels, n ∈ o.defined
  · rw [if_pos hdef, hundef.mpr hdef]
    have hexit : "exit" ∈ o.labels := by
      obtain ⟨rest, hrest⟩ := hv.ends
      simp [hrest]
    obtain ⟨d', hd', hinto⟩ := h.fallInto hv.current_mem hexit
    rw [Outline.blockOf_exit hv] at hd'
    simp only [Option.isSome_none, Bool.false_eq_true, if_false, hd']
    exact hinto
  · rw [if_neg hdef, if_pos (Option.isSome_iff_ne_none.mpr (mt hundef.mp hdef))]
    exact trivial

end Describes

theorem describes_start : Describes .start .start := by
  have hblock : ∀ b, ({} : Function).block? b = none := fun b => by simp [block?, Arena.get?]
  have hinsns : ∀ b, empty.instructionsOf b = [] := by
    intro b
    rw [instructionsOf_eq, empty, listing_addBlock, listing_addBlock, listing, hblock]
    rfl
  have hfall : ∀ b, empty.fallThroughOf b = none := by
    intro b
    rw [empty, fallThroughOf_addBlock, fallThroughOf_addBlock, fallThroughOf, hblock]
    rfl
  refine ⟨rfl, rfl, rfl, catalogued_empty, wellEncoded_empty, rfl, ?_, ?_, ?_, accounted_empty⟩
  · intro b
    have hnext : ({} : Function).addBlock.nextBlock = ⟨1⟩ := rfl
    have hfirst : ({} : Function).nextBlock = ⟨0⟩ := rfl
    change empty.isLive b = true ↔ b.index < 2
    rw [empty, isLive_addBlock, isLive_addBlock, hnext, hfirst, isLive, hblock]
    simp only [← BlockId.index_inj, Option.isSome_none, Bool.or_false, Bool.or_eq_true,
      decide_eq_true_iff]
    omega
  · intro n _
    change (empty.instructionsOf _).map _ = _
    rw [hinsns]
    rfl
  · intro n _
    exact hfall _

end FlowGraph.Function
