import FlowGraph.Proofs.Reading.Language
import Mathlib.Data.List.Sort

/-!
# The shape of functions that are read

A function that is read has its blocks and registers in the order in which the text brings them
up, and no other edges than the text gives it: the successors of a block are the targets of its
branches and then its fall-through.
-/

namespace FlowGraph.Function

open Text

set_option autoImplicit false

variable {f f' : Function} {b c t : BlockId} {new : Option BlockId} {raw : RawEdges}
  {operation : Operation} {o : Outline} {d d' : Draft} {sts : List Statement}

/-- The successors of every block are the targets of its branches, then its fall-through. -/
def Orderly (f : Function) : Prop :=
  ∀ b, f.successorsOf b =
    (f.instructionsOf b).filterMap Instruction.target? ++ (f.fallThroughOf b).toList

theorem successorsOf_moveEdge (hb : f.isLive b = true) :
    (f.moveEdge b none new).successorsOf c =
      if c = b then f.successorsOf b ++ new.toList else f.successorsOf c := by
  cases new with
  | none =>
    by_cases hc : c = b
    · simp [moveEdge, hc]
    · simp [moveEdge, hc]
  | some t =>
    simp only [moveEdge, successorsOf_withEdge f b t hb]
    by_cases hc : c = b
    · simp [hc]
    · simp [hc]

theorem successorsOf_append (ha : f.append b operation = .ok f') :
    f'.successorsOf c =
      if c = b then f.successorsOf b ++ operation.encode.target?.toList else f.successorsOf c := by
  obtain ⟨f₁, insn, is, hdetach, hb, hi, -, -, rfl⟩ := place_ok ha
  have hnew : (f.addInstruction operation).instruction? f.nextInstruction = some { operation } := by
    rw [instruction?_addInstruction, if_pos rfl]
  obtain ⟨x, hx, hcases⟩ := detach_ok hdetach
  obtain rfl := Option.some.inj (hnew.symm.trans hx)
  obtain ⟨-, rfl⟩ | ⟨home, hhome, -⟩ := hcases
  · obtain rfl := Option.some.inj (hnew.symm.trans hi)
    rw [successorsOf_moveEdge ((isLive_relist b).trans hb), successorsOf_relist,
      successorsOf_relist]
    rfl
  · cases hhome

theorem successorsOf_setFallThrough (hfall : f.fallThroughOf b = none)
    (hs : f.setFallThrough b (some t) = .ok f') :
    f'.successorsOf c = if c = b then f.successorsOf b ++ [t] else f.successorsOf c := by
  obtain ⟨hb, ⟨heq, -⟩ | ⟨-, -, rfl⟩⟩ := setFallThrough_ok hs
  · rw [hfall] at heq
    cases heq
  · have hkeep := successorsOf_modifyBlock (f.moveEdge b none (some t)) b
      (fun x => { x with fallThrough := some t }) (fun _ => rfl) c
    rw [hfall, hkeep, successorsOf_moveEdge hb]
    rfl

namespace Orderly

theorem addBlock (h : f.Orderly) : f.addBlock.Orderly := by
  intro c
  rw [successorsOf_addBlock, instructionsOf_addBlock, fallThroughOf_addBlock]
  exact h c

theorem append (h : f.Orderly) (hacc : Accounted f raw) (hfall : f.fallThroughOf b = none)
    (ha : f.append b operation = .ok f') : f'.Orderly := by
  obtain ⟨-, -, hfalls, hinsns⟩ := hacc.append ha
  intro c
  rw [successorsOf_append ha, hfalls, hinsns]
  by_cases hc : c = b
  · rw [if_pos hc, if_pos hc, hc, h b, hfall]
    cases ht : operation.encode.target? with
    | none => simp [Instruction.target?, ht]
    | some t => simp [Instruction.target?, ht]
  · rw [if_neg hc, if_neg hc]
    exact h c

theorem setFallThrough (h : f.Orderly) (hacc : Accounted f raw) (hfall : f.fallThroughOf b = none)
    (hs : f.setFallThrough b (some t) = .ok f') : f'.Orderly := by
  obtain ⟨-, hbec⟩ := hacc.setFallThrough hs
  have hinsn : f'.instruction? = f.instruction? := funext hbec.instruction
  intro c
  rw [successorsOf_setFallThrough hfall hs, instructionsOf_eq, hbec.listing, hinsn,
    ← instructionsOf_eq, hbec.fallThrough]
  by_cases hc : c = b
  · rw [if_pos hc, if_pos hc, hc, h b, hfall]
    simp
  · rw [if_neg hc, if_neg hc]
    exact h c

theorem edit_append (h : d.function.Orderly) (hacc : Accounted d.function raw)
    (hfall : d.function.fallThroughOf b = none)
    (he : d.edit (·.append b operation) = some d') : d'.function.Orderly := by
  obtain ⟨f', hf', rfl⟩ := Option.map_eq_some_iff.mp he
  exact h.append hacc hfall (eq_ok_of_toOption hf')

theorem edit_setFallThrough (h : d.function.Orderly) (hacc : Accounted d.function raw)
    (hfall : d.function.fallThroughOf b = none)
    (he : d.edit (·.setFallThrough b (some t)) = some d') : d'.function.Orderly := by
  obtain ⟨f', hf', rfl⟩ := Option.map_eq_some_iff.mp he
  exact h.setFallThrough hacc hfall (eq_ok_of_toOption hf')

theorem fallInto (h : d.function.Orderly) (hacc : Accounted d.function raw)
    (hcurrent : ∀ b, d.current = some b → d.function.fallThroughOf b = none)
    (hf : d.fallInto t = some d') : d'.function.Orderly := by
  unfold Draft.fallInto at hf
  split at hf
  · next b hb =>
    split at hf
    · cases hf
      exact h
    · exact h.edit_setFallThrough hacc (hcurrent b hb) hf
  · cases hf
    exact h

theorem meet (h : d.function.Orderly) (n : String) : (d.meet n).2.function.Orderly := by
  unfold Draft.meet
  split
  · exact h
  · exact h.addBlock

theorem assigned (h : d.function.Orderly) (n : String) : (d.assigned n).2.function.Orderly := by
  unfold Draft.assigned
  split
  · exact h
  · exact h

end Orderly

theorem current_meet (d : Draft) (n : String) : (d.meet n).2.current = d.current := by
  unfold Draft.meet
  split <;> rfl

theorem fallThroughOf_meet (d : Draft) (n : String) :
    (d.meet n).2.function.fallThroughOf b = d.function.fallThroughOf b := by
  unfold Draft.meet
  split
  · rfl
  · exact fallThroughOf_addBlock _ _

theorem fallThroughOf_assigned (d : Draft) (n : String) :
    (d.assigned n).2.function.fallThroughOf b = d.function.fallThroughOf b := by
  unfold Draft.assigned
  split <;> rfl

theorem Describes.fallThroughOf_current (hd : Describes o d) (hv : o.Valid) (hp : o.Pending)
    (hb : d.current = some b) : d.function.fallThroughOf b = none := by
  rw [hd.current] at hb
  obtain ⟨n, hn, rfl⟩ := Option.map_eq_some_iff.mp hb
  rw [hd.falls n (hv.current_mem n hn), hp n hn]
  rfl

theorem Orderly.perform (h : d.function.Orderly) (hd : Describes o d) (hv : o.Valid)
    {op : NamedOp} (hfall : d.function.fallThroughOf b = none) (hd' : d.perform b op = some d') :
    d'.function.Orderly := by
  cases op with
  | arith op lhs rhs result =>
    obtain ⟨l, -, hd'⟩ := Option.bind_eq_some_iff.mp hd'
    obtain ⟨r, -, hd'⟩ := Option.bind_eq_some_iff.mp hd'
    exact (h.assigned result).edit_append (hd.assigned hv result).1.accounted
      ((fallThroughOf_assigned d result).trans hfall) hd'
  | branch cond target =>
    obtain ⟨c, -, hd'⟩ := Option.bind_eq_some_iff.mp hd'
    exact (h.meet target).edit_append (hd.meet hv target).1.accounted
      ((fallThroughOf_meet d target).trans hfall) hd'
  | nop => exact h.edit_append hd.accounted hfall hd'

theorem Orderly.take (h : d.function.Orderly) (hd : Describes o d) (hv : o.Valid) (hp : o.Pending)
    {st : Statement} (ht : d.take st = some d') : d'.function.Orderly := by
  have hcurrent : ∀ b, d.current = some b → d.function.fallThroughOf b = none :=
    fun b hb => hd.fallThroughOf_current hv hp hb
  cases st with
  | label name =>
    simp only [Draft.take] at ht
    split at ht
    · cases ht
    · obtain ⟨d₁, h₁, rfl⟩ := Option.map_eq_some_iff.mp ht
      change d₁.function.Orderly
      refine Orderly.fallInto (d := (d.meet name).2.define (d.meet name).1) (h.meet name)
        (hd.meet hv name).1.accounted ?_ h₁
      intro b hb
      exact (fallThroughOf_meet d name).trans (hcurrent b ((current_meet d name).symm.trans hb))
  | register name =>
    simp only [Draft.take] at ht
    split at ht
    · cases ht
    · cases ht
      exact h
  | perform op =>
    obtain ⟨b, hb, ht⟩ := Option.bind_eq_some_iff.mp ht
    exact h.perform hd hv (hcurrent b hb) ht
  | goto target =>
    obtain ⟨b, hb, ht⟩ := Option.bind_eq_some_iff.mp ht
    obtain ⟨d₁, h₁, rfl⟩ := Option.map_eq_some_iff.mp ht
    change d₁.function.Orderly
    exact (h.meet target).edit_setFallThrough (hd.meet hv target).1.accounted
      ((fallThroughOf_meet d target).trans (hcurrent b hb)) h₁

theorem orderly_start : Draft.start.function.Orderly := by
  have hnone : ∀ b, ({} : Function).block? b = none := fun b => by simp [block?, Arena.get?]
  have hempty : ({} : Function).Orderly := by
    intro b
    simp [successorsOf, instructionsOf, fallThroughOf, hnone]
  exact hempty.addBlock.addBlock

/-- Statements that make a draft make an outline that describes it, and its successors are in
order. -/
theorem exists_describes (h : sts.foldlM Draft.take .start = some d) :
    ∃ o, sts.foldlM Outline.take .start = some o ∧ Describes o d ∧ o.Linked ∧ o.Pending ∧
      d.function.Orderly := by
  induction sts using List.reverseRecOn generalizing d with
  | nil =>
    cases h
    exact ⟨.start, rfl, describes_start, Outline.linked_start, Outline.pending_start, orderly_start⟩
  | append_singleton sts st ih =>
    rw [List.foldlM_append] at h
    obtain ⟨d₁, h₁, h⟩ := Option.bind_eq_some_iff.mp h
    have htake : d₁.take st = some d := by simpa using h
    obtain ⟨o₁, ho₁, hd₁, hl₁, hp₁, hord₁⟩ := ih h₁
    have hv₁ := Outline.valid_start.takeAll ho₁
    obtain ⟨o, ho, hd⟩ := Describes.Agree.exists_outline (htake ▸ hd₁.take hv₁ st)
    refine ⟨o, ?_, hd, hl₁.take ho, hp₁.take ho, hord₁.take hd₁ hv₁ hp₁ htake⟩
    rw [foldlM_take_concat, ho₁]
    exact ho

theorem eraseDups_concat {α : Type} [DecidableEq α] (l : List α) (a : α) :
    (l ++ [a]).eraseDups = if a ∈ l then l.eraseDups else l.eraseDups ++ [a] := by
  rw [List.eraseDups_append]
  by_cases ha : a ∈ l
  · simp [ha, List.removeAll]
  · simp [ha, List.removeAll, List.eraseDups_cons]

theorem enter_eraseDups (names : List String) (name : String) :
    enter names.eraseDups name = (names ++ [name]).eraseDups := by
  rw [eraseDups_concat, enter]
  simp only [List.mem_eraseDups]

theorem enterAll_eraseDups (names new : List String) :
    enterAll names.eraseDups new = (names ++ new).eraseDups := by
  induction new generalizing names with
  | nil => simp [enterAll]
  | cons name new ih =>
    change enterAll (enter names.eraseDups name) new = _
    rw [enter_eraseDups, ih, List.append_assoc]
    rfl

/-- The labels in the order in which statements first mention them. -/
def labelsOf (sts : List Statement) : List String :=
  ("entry" :: "exit" :: sts.flatMap Statement.labels).eraseDups

/-- The registers in the order in which statements first declare or assign them. -/
def registersOf (sts : List Statement) : List String := (sts.flatMap Statement.registers).eraseDups

def operationsUnder (n : String) (sts : List Statement) : List NamedOp :=
  (under n "entry" sts).filterMap Statement.operation?

/-- An operation with the places of its names in two lists. -/
def NamedOp.number (labels registers : List String) : NamedOp → Operation
  | arith op lhs rhs result =>
    .arith op ⟨registers.idxOf lhs⟩ ⟨registers.idxOf rhs⟩ ⟨registers.idxOf result⟩
  | branch cond target => .branch ⟨registers.idxOf cond⟩ (some ⟨labels.idxOf target⟩)
  | nop => .nop

theorem Outline.resolve_eq (o : Outline) (op : NamedOp) :
    o.resolve op = op.number o.labels o.registers := by
  cases op <;> rfl

theorem Tells.labels_eq (h : Tells sts o) : o.labels = labelsOf sts := by
  rw [h.labels]
  exact enterAll_eraseDups ["entry", "exit"] _

theorem Tells.registers_eq (h : Tells sts o) : o.registers = registersOf sts := by
  rw [h.registers]
  exact enterAll_eraseDups [] _

/-- How a function stands to the statements that it was read from. -/
structure Shaped (sts : List Statement) (f : Function) : Prop where
  size : f.blocks.size = (labelsOf sts).length
  live : ∀ b, f.isLive b = true ↔ b.index < (labelsOf sts).length
  order : f.order = (List.range (labelsOf sts).length).map BlockId.mk
  registers : f.registers = registersOf sts
  registers_nodup : f.registers.Nodup
  find : ∀ r name, f.registerName? r = some name → f.findRegister? name = some r
  fallThrough : ∀ b block, f.block? b = some block → b ≠ .exit → block.fallThrough.isSome = true
  successors : ∀ b block, f.block? b = some block → block.successors =
    (f.instructionsOf b).filterMap Instruction.target? ++ block.fallThrough.toList
  predecessors : ∀ b block, f.block? b = some block →
    (∀ s ∈ block.predecessors, f.isLive s = true) ∧
    ∀ s other, f.block? s = some other → block.edgesFrom s = other.edgesTo b
  targets : ∀ b, ∀ insn ∈ f.instructionsOf b, insn.isBranch = true →
    ∃ t, insn.target? = some t ∧ f.isLive t = true
  operands : ∀ b, ∀ insn ∈ f.instructionsOf b, ∀ r ∈ insn.operation.registers,
    r.index < f.registers.length
  instructions : ∀ n ∈ labelsOf sts, ∃ block, f.block? ⟨(labelsOf sts).idxOf n⟩ = some block ∧
    block.instructions.map (fun i => (f.instruction? i).map Instruction.operation) =
      (operationsUnder n sts).map fun op => some (op.number (labelsOf sts) (registersOf sts)).encode

theorem Numbered.order_eq {n : Nat} (h : f.Numbered)
    (hlive : ∀ b, f.isLive b = true ↔ b.index < n) : f.order = (List.range n).map BlockId.mk := by
  have hindex : f.order.map BlockId.index = List.range n := by
    refine List.Pairwise.eq_of_mem_iff (r := (· < ·)) (List.pairwise_map.mpr h.sorted)
      List.pairwise_lt_range ?_
    intro k
    rw [List.mem_range, ← hlive ⟨k⟩, ← h.mem_order, List.mem_map]
    constructor
    · rintro ⟨b, hb, rfl⟩
      exact hb
    · intro hk
      exact ⟨⟨k⟩, hk, rfl⟩
  rw [← hindex, List.map_map]
  exact (List.map_id'' (fun _ => rfl) f.order).symm

theorem Owned.map_listing (h : f.Owned) (b : BlockId) :
    (f.listing b).map f.instruction? = (f.instructionsOf b).map some := by
  have hall : ∀ is : List InsnId, (∀ i ∈ is, ∃ insn, f.instruction? i = some insn) →
      is.map f.instruction? = (is.filterMap f.instruction?).map some := by
    intro is his
    induction is with
    | nil => rfl
    | cons i is ih =>
      obtain ⟨insn, hinsn⟩ := his i List.mem_cons_self
      rw [List.map_cons, List.filterMap_cons_some hinsn, List.map_cons, hinsn,
        ih fun j hj => his j (List.mem_cons_of_mem i hj)]
  rw [instructionsOf_eq]
  apply hall
  intro i hi
  obtain ⟨insn, hinsn, -⟩ := h.exists_of_mem hi
  exact ⟨insn, hinsn⟩

theorem Outline.eq_fallInto_of_close {o' : Outline} (h : o.close = some o') :
    o' = o.fallInto "exit" := by
  unfold Outline.close at h
  split at h
  · exact (Option.some.inj h).symm
  · cases h

theorem Orderly.close (h : d.function.Orderly) (hd : Describes o d) (hv : o.Valid)
    (hp : o.Pending) (hc : d.close = some d') : d'.function.Orderly := by
  unfold Draft.close at hc
  split at hc
  · cases hc
  · exact h.fallInto hd.accounted (fun b hb => hd.fallThroughOf_current hv hp hb) hc

theorem Describes.findRegister?_registerName? (hd : Describes o d) (hv : o.Valid) {r : RegId}
    {name : String} (hr : d.function.registerName? r = some name) :
    d.function.findRegister? name = some r := by
  obtain ⟨hlt, hname⟩ := List.getElem?_eq_some_iff.mp hr
  have hnodup : d.function.registers.Nodup := hd.registers ▸ hv.registers_nodup
  have hmem : name ∈ o.registers := hd.registers ▸ List.mem_of_getElem? hr
  rw [hd.findRegister? hv, if_pos hmem, Outline.registerOf, ← hd.registers, ← hname,
    hnodup.idxOf_getElem]

/-- The instructions that a block lists are the operations under its label, one by one. -/
theorem Describes.map_listing (hd : Describes o d) {n : String} (hn : n ∈ o.labels) :
    (d.function.listing (o.blockOf n)).map
        (fun i => (d.function.instruction? i).map Instruction.operation) =
      (o.bodies n).map fun op => some (op.number o.labels o.registers).encode := by
  calc (d.function.listing (o.blockOf n)).map
        (fun i => (d.function.instruction? i).map Instruction.operation)
      = ((d.function.listing (o.blockOf n)).map d.function.instruction?).map
          (Option.map Instruction.operation) := by
        rw [List.map_map]
        rfl
    _ = ((d.function.instructionsOf (o.blockOf n)).map Instruction.operation).map some := by
        rw [hd.accounted.owned.map_listing, List.map_map, List.map_map]
        rfl
    _ = (o.bodies n).map fun op => some (op.number o.labels o.registers).encode := by
        rw [hd.bodies n hn, List.map_map]
        exact List.map_congr_left fun op _ => congrArg (some ∘ Operation.encode) (o.resolve_eq op)

/-- What an outline says of its draft, in terms of the statements that the outline tells. -/
theorem Tells.shaped {o' : Outline} (h : Tells sts o) (hv : o.Valid) (hl : o.Linked)
    (hclose : o.close = some o') (hd : Describes o' d) (hord : d.function.Orderly) :
    Shaped sts d.function := by
  have hv' := hv.close hclose
  have hfalls := hl.close hclose
  obtain rfl := Outline.eq_fallInto_of_close hclose
  have hlabels : (o.fallInto "exit").labels = labelsOf sts :=
    (Outline.labels_fallInto o _).trans h.labels_eq
  have hregisters : (o.fallInto "exit").registers = registersOf sts :=
    (Outline.registers_fallInto o _).trans h.registers_eq
  have hbodies : ∀ n, (o.fallInto "exit").bodies n = operationsUnder n sts := by
    intro n
    rw [Outline.bodies_fallInto]
    exact h.bodies n
  have hlive : ∀ b, d.function.isLive b = true ↔ b.index < (labelsOf sts).length := by
    intro b
    rw [hd.live, hlabels]
  refine ⟨hlabels ▸ hd.size, hlive, hd.accounted.numbered.order_eq hlive,
    hd.registers.trans hregisters, hd.registers ▸ hv'.registers_nodup,
    fun r name hr => hd.findRegister?_registerName? hv' hr, ?_, ?_, ?_,
    fun b insn hinsn hbranch => hd.exists_target hv' hinsn hbranch,
    fun b insn hinsn r hr => hd.index_lt_registers hv' hinsn hr, ?_⟩
  · intro b block hb hexit
    rw [← (views_of_block? hb).2.2.1]
    exact hd.isSome_fallThroughOf hv' hfalls (isLive_of_block? hb) hexit
  · intro b block hb
    obtain ⟨hs, -, hf, -⟩ := views_of_block? hb
    rw [← hs, ← hf]
    exact hord b
  · intro b block hb
    have hsym := hd.accounted.symmetric
    obtain ⟨-, hp, -, -⟩ := views_of_block? hb
    refine ⟨fun s hs => hsym.isLive_predecessor (hp ▸ hs), ?_⟩
    intro s other hs
    have hcount := hsym s b
    rw [(views_of_block? hs).1, hp] at hcount
    exact hcount.symm
  · intro n hn
    rw [← hlabels] at hn
    obtain ⟨block, hblock⟩ := isLive_iff.mp (hd.isLive_blockOf hn)
    rw [← hlabels, ← hregisters, ← hbodies]
    refine ⟨block, hblock, ?_⟩
    rw [← (views_of_block? hblock).2.2.2]
    exact hd.map_listing hn

/-- A function that a text is read as is shaped like the statements that the text presents, which
are unique. -/
theorem read_function_shaped {text : String} {f : Function}
    (h : (Reader.read {} (.ofText text.toList)).2.result.outcome = .ok f) :
    ∃ sts, (∀ sts', Presents (lines text.toList) sts' ↔ sts' = sts) ∧ Shaped sts f := by
  rw [Reader.read_idle, Cursor.ofText, read_ok_iff] at h
  obtain ⟨sts, d, d', hpresents, htakes, hclose, rfl⟩ := h
  obtain ⟨o, ho, hd, hl, hp, hord⟩ := exists_describes htakes
  have hv := Outline.valid_start.takeAll ho
  obtain ⟨o', ho', hd'⟩ := Describes.Agree.exists_outline (hclose ▸ hd.close hv)
  refine ⟨sts, ?_, (tells_of_foldlM ho).shaped hv hl ho' hd' (hord.close hd hv hp hclose)⟩
  intro sts'
  constructor
  · intro hpresents'
    exact hpresents'.unique hpresents
  · rintro rfl
    exact hpresents

/-- Labels are mentioned before they stand, stand twice, and stand below a `goto`. A keyword names
a register. -/
theorem labelled_function_shaped :
    ∃ f, (Reader.read {} (.ofText ("# a loop\n \x7b # body\n  reg if\n  goto far\nback:\n" ++
        "  if := if + if\n  if (if) goto back\n  goto exit\nfar:\n\nfar:\n  nop\n" ++
        "  goto back\n\x7d\nmore").toList)).2.result.outcome = .ok f ∧
      f.order = [⟨0⟩, ⟨1⟩, ⟨2⟩, ⟨3⟩] ∧ f.successorsOf ⟨3⟩ = [⟨3⟩, ⟨1⟩] ∧
      ∃ sts, (∀ sts', Presents (lines ("# a loop\n \x7b # body\n  reg if\n  goto far\nback:\n" ++
        "  if := if + if\n  if (if) goto back\n  goto exit\nfar:\n\nfar:\n  nop\n" ++
        "  goto back\n\x7d\nmore").toList) sts' ↔ sts' = sts) ∧ Shaped sts f := by
  have hview : ((Reader.read {} (.ofText ("# a loop\n \x7b # body\n  reg if\n  goto far\nback:\n" ++
      "  if := if + if\n  if (if) goto back\n  goto exit\nfar:\n\nfar:\n  nop\n" ++
      "  goto back\n\x7d\nmore").toList)).2.result.outcome.toOption.map
        fun f => (f.order, f.successorsOf ⟨3⟩)) =
      some ([⟨0⟩, ⟨1⟩, ⟨2⟩, ⟨3⟩], [⟨3⟩, ⟨1⟩]) := by
    decide +kernel
  obtain ⟨f, hf, hfacts⟩ := Option.map_eq_some_iff.mp hview
  obtain ⟨horder, hsucc⟩ := Prod.mk.inj hfacts
  have hread := eq_ok_of_toOption hf
  exact ⟨f, hread, horder, hsucc, read_function_shaped hread⟩

end FlowGraph.Function
