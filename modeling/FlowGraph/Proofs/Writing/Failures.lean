import FlowGraph.Proofs.Graph.References
import FlowGraph.Proofs.Writing.Layout
import Mathlib.Data.List.Nodup

/-!
# When writing fails

A text cannot tell two registers of one name apart, and it has no words for a branch without a
target. Writing fails for these reasons only, and the error names the first culprit: the register
that repeats a name, or the block that lists the branch.
-/

namespace FlowGraph

set_option autoImplicit false

open Text

/-- Whatever was written before, the step fails with this error if the sink has no limit. -/
def Text.Refuses (step : Emit Unit) (e : Error) : Prop :=
  ∀ sink : Sink, sink.room = none → ∃ sink', step sink = .error e sink'

namespace Text.Refuses

variable {step : Emit Unit} {e : Error} {s : String}

theorem bind (h : Refuses step e) (rest : Unit → Emit Unit) : Refuses (step >>= rest) e := by
  intro sink hroom
  obtain ⟨sink', hstep⟩ := h sink hroom
  exact ⟨sink', step_bind_of_error hstep⟩

theorem after {rest : Unit → Emit Unit} (h : Emits step s) (hrest : Refuses (rest ()) e) :
    Refuses (step >>= rest) e := by
  intro sink hroom
  rw [step_bind_of_ok (h sink hroom)]
  exact hrest _ hroom

end Text.Refuses

namespace Function

variable {f : Function} {b c : BlockId} {r : RegId}

/-- The register has the name of an older one. -/
def RepeatsName (f : Function) (r : RegId) : Prop :=
  ∃ q name, q.index < r.index ∧ f.registerName? q = some name ∧ f.registerName? r = some name

/-- The register repeats a name and no older one does. -/
def FirstRepeat (f : Function) (r : RegId) : Prop :=
  f.RepeatsName r ∧ ∀ q, f.RepeatsName q → r.index ≤ q.index

theorem repeatsName_iff :
    f.RepeatsName r ↔ ∃ j, j < r.index ∧ r.index < f.registers.length ∧
      f.registers[j]? = f.registers[r.index]? := by
  constructor
  · rintro ⟨q, name, hlt, hq, hr⟩
    have hbound := (List.getElem?_eq_some_iff.mp hr).1
    exact ⟨q.index, hlt, hbound, hq.trans hr.symm⟩
  · rintro ⟨j, hlt, hbound, heq⟩
    have hr := List.getElem?_eq_getElem hbound
    exact ⟨⟨j⟩, f.registers[r.index], hlt, heq.trans hr, hr⟩

theorem nodup_iff_not_repeatsName : f.registers.Nodup ↔ ∀ r, ¬ f.RepeatsName r := by
  rw [List.nodup_iff_getElem?_ne_getElem?]
  constructor
  · intro hnodup r hr
    obtain ⟨j, hlt, hbound, heq⟩ := repeatsName_iff.mp hr
    exact hnodup j r.index hlt hbound heq
  · intro hnone i j hlt hbound heq
    exact hnone ⟨j⟩ (repeatsName_iff.mpr ⟨i, hlt, hbound, heq⟩)

theorem repeatedName?_eq_some {seen names : List String} {n : String}
    (h : repeatedName? seen names = some n) :
    ∃ pre post, names = pre ++ n :: post ∧ (n ∈ seen ∨ n ∈ pre) ∧ pre.Nodup ∧
      ∀ m ∈ pre, m ∉ seen := by
  induction names generalizing seen with
  | nil => cases h
  | cons name names ih =>
    rw [repeatedName?] at h
    split at h
    · next hseen =>
      cases h
      exact ⟨[], names, rfl, .inl hseen, .nil, by simp⟩
    · next hseen =>
      obtain ⟨pre, post, rfl, hn, hnodup, hfresh⟩ := ih h
      simp only [List.mem_cons, not_or] at hn hfresh
      refine ⟨name :: pre, post, rfl, ?_, ?_, ?_⟩
      · rcases hn with (rfl | hn) | hn
        · exact .inr List.mem_cons_self
        · exact .inl hn
        · exact .inr (List.mem_cons_of_mem name hn)
      · exact List.nodup_cons.mpr ⟨fun hmem => (hfresh name hmem).1 rfl, hnodup⟩
      · intro m hm
        rcases List.mem_cons.mp hm with rfl | hm
        · exact hseen
        · exact (hfresh m hm).2

theorem nodup_of_repeatedName?_eq_none {seen names : List String}
    (h : repeatedName? seen names = none) : names.Nodup ∧ ∀ n ∈ names, n ∉ seen := by
  induction names generalizing seen with
  | nil => exact ⟨.nil, nofun⟩
  | cons name names ih =>
    rw [repeatedName?] at h
    split at h
    · cases h
    · next hseen =>
      obtain ⟨hnodup, hfresh⟩ := ih h
      refine ⟨List.nodup_cons.mpr ⟨fun hmem => hfresh name hmem List.mem_cons_self, hnodup⟩, ?_⟩
      intro n hn
      rcases List.mem_cons.mp hn with rfl | hn
      · exact hseen
      · exact fun hmem => hfresh n hn (List.mem_cons_of_mem name hmem)

/-- The name that is found is the one of the oldest register that repeats a name. -/
theorem exists_first_repeat {n : String} (h : repeatedName? [] f.registers = some n) :
    ∃ r, f.FirstRepeat r ∧ f.registerName? r = some n := by
  obtain ⟨pre, post, hsplit, hn, hnodup, -⟩ := repeatedName?_eq_some h
  have hmem : n ∈ pre := hn.resolve_left List.not_mem_nil
  have hname : f.registerName? ⟨pre.length⟩ = some n := by
    simp [registerName?, hsplit]
  refine ⟨⟨pre.length⟩, ⟨?_, ?_⟩, hname⟩
  · obtain ⟨j, hj, hget⟩ := List.getElem_of_mem hmem
    refine ⟨⟨j⟩, n, hj, ?_, hname⟩
    rw [registerName?, hsplit, List.getElem?_append_left hj, List.getElem?_eq_getElem hj, hget]
  · intro q hq
    obtain ⟨j, hlt, -, heq⟩ := repeatsName_iff.mp hq
    apply Nat.le_of_not_lt
    intro hless
    have hless : q.index < pre.length := hless
    rw [hsplit, List.getElem?_append_left (Nat.lt_trans hlt hless),
      List.getElem?_append_left hless] at heq
    exact List.nodup_iff_getElem?_ne_getElem?.mp hnodup j q.index hlt hless heq

theorem FirstRepeat.unique {q : RegId} (hr : f.FirstRepeat r) (hq : f.FirstRepeat q) : r = q :=
  congrArg RegId.mk (Nat.le_antisymm (hr.2 q hq.1) (hq.2 r hr.1))

/-- The block lists a branch that has no target. -/
def HoldsOpenBranch (f : Function) (b : BlockId) : Prop :=
  ∃ block i cond, f.block? b = some block ∧ i ∈ block.instructions ∧
    f.instruction? i = some ⟨.branch cond none, some b⟩

theorem exists_operation_eq {insn : Instruction} (hformed : insn.operation.WellFormed)
    (hbranch : insn.isBranch = true) (htarget : insn.target? = none) :
    ∃ cond, insn.operation = .branch cond none := by
  obtain ⟨o, ho⟩ := hformed.exists_encode
  rw [Instruction.isBranch, ho] at hbranch
  rw [Instruction.target?, ho] at htarget
  rw [ho]
  cases o with
  | arith op lhs rhs result => cases hbranch
  | nop => cases hbranch
  | branch cond target =>
    cases htarget
    exact ⟨cond, rfl⟩

theorem Owned.block_of_mem_instructionsOf (h : f.Owned) {insn : Instruction}
    (hinsn : insn ∈ f.instructionsOf b) : insn.block = some b := by
  rw [instructionsOf_eq, List.mem_filterMap] at hinsn
  obtain ⟨i, hi, hfound⟩ := hinsn
  obtain ⟨insn', hfound', hhome⟩ := h.exists_of_mem hi
  rw [hfound] at hfound'
  cases hfound'
  exact hhome

theorem Owned.holdsOpenBranch_iff (h : f.Owned) (hformed : f.WellEncoded) :
    f.HoldsOpenBranch b ↔
    ∃ insn ∈ f.instructionsOf b, insn.isBranch = true ∧ insn.target? = none := by
  constructor
  · rintro ⟨block, i, cond, hb, hi, hinsn⟩
    refine ⟨⟨.branch cond none, some b⟩, ?_, rfl, rfl⟩
    rw [instructionsOf_eq, List.mem_filterMap]
    exact ⟨i, (views_of_block? hb).2.2.2 ▸ hi, hinsn⟩
  · rintro ⟨insn, hmem, hbranch, htarget⟩
    obtain ⟨block, hb⟩ := isLive_iff.mp (isLive_of_mem_instructionsOf hmem)
    obtain ⟨cond, hcond⟩ := exists_operation_eq (hformed.of_mem hmem) hbranch htarget
    have hhome := h.block_of_mem_instructionsOf hmem
    rw [instructionsOf_eq, List.mem_filterMap, (views_of_block? hb).2.2.2] at hmem
    obtain ⟨i, hi, hinsn⟩ := hmem
    refine ⟨block, i, cond, hb, hi, ?_⟩
    rw [hinsn, ← hcond, ← hhome]

theorem Owned.targeted (h : f.Owned) (hformed : f.WellEncoded) (hb : ¬ f.HoldsOpenBranch b) :
    ∀ insn ∈ f.instructionsOf b, insn.isBranch = true → insn.target? ≠ none := by
  intro insn hinsn hbranch htarget
  exact hb ((h.holdsOpenBranch_iff hformed).mpr ⟨insn, hinsn, hbranch, htarget⟩)

theorem refuses_writeInstruction {insn : Instruction} (hformed : insn.operation.WellFormed)
    (hhome : insn.block = some b) (hbranch : insn.isBranch = true) (htarget : insn.target? = none) :
    Refuses (f.writeInstruction insn) (.branchWithoutTarget b) := by
  obtain ⟨cond, hcond⟩ := exists_operation_eq hformed hbranch htarget
  intro sink _
  refine ⟨sink, ?_⟩
  rw [writeInstruction, hcond, hhome]
  rfl

theorem writeInstruction_of_malformed {insn : Instruction} (h : ¬ insn.operation.WellFormed) :
    f.writeInstruction insn = throw (.fault (.malformedInstruction insn)) := by
  unfold writeInstruction
  split
  · next hop => exact absurd (by rw [hop]; rfl) h
  · next hop => exact absurd (by rw [hop]; rfl) h
  · next hop => exact absurd (by rw [hop]; rfl) h
  · next hop => exact absurd (by rw [hop]; rfl) h
  · rfl

/-- Writing an instruction is a fault only if it is malformed. -/
theorem writeInstruction_fault_iff {insn : Instruction} {fault : Fault} :
    ((f.writeInstruction insn).into none).2 = .error (.fault fault) ↔
      ¬ insn.operation.WellFormed ∧ fault = .malformedInstruction insn := by
  by_cases hformed : insn.operation.WellFormed
  · have hnone : ((f.writeInstruction insn).into none).2 ≠ .error (.fault fault) := by
      by_cases hopen : insn.isBranch = true ∧ insn.target? = none
      · obtain ⟨cond, hcond⟩ := exists_operation_eq hformed hopen.1 hopen.2
        rw [writeInstruction, hcond]
        intro hfault
        cases hfault
      · have hwritten : Emits (f.writeInstruction insn) _ :=
          emits_writeInstruction hformed fun hbranch htarget => hopen ⟨hbranch, htarget⟩
        rw [Emit.into, hwritten { room := none } rfl]
        intro hfault
        cases hfault
    simp [hnone, hformed]
  · rw [writeInstruction_of_malformed hformed]
    constructor
    · intro hfault
      cases hfault
      exact ⟨hformed, rfl⟩
    · rintro ⟨-, rfl⟩
      rfl

theorem refuses_writeInstructions {insns : List Instruction}
    (hformed : ∀ insn ∈ insns, insn.operation.WellFormed)
    (hhome : ∀ insn ∈ insns, insn.block = some b)
    (hopen : ∃ insn ∈ insns, insn.isBranch = true ∧ insn.target? = none) :
    Refuses (f.writeInstructions insns) (.branchWithoutTarget b) := by
  induction insns with
  | nil => simp at hopen
  | cons insn insns ih =>
    by_cases hinsn : insn.isBranch = true ∧ insn.target? = none
    · have hfirst := refuses_writeInstruction (f := f) (hformed insn List.mem_cons_self)
        (hhome insn List.mem_cons_self) hinsn.1 hinsn.2
      exact .after (Emits.put _) (hfirst.bind _)
    · have hwritten : Emits (f.writeInstruction insn) _ :=
        emits_writeInstruction (hformed insn List.mem_cons_self)
          fun hbranch htarget => hinsn ⟨hbranch, htarget⟩
      have hrest : ∃ i ∈ insns, i.isBranch = true ∧ i.target? = none := by
        obtain ⟨i, hi, hfacts⟩ := hopen
        rcases List.mem_cons.mp hi with rfl | hi
        · exact absurd hfacts hinsn
        · exact ⟨i, hi, hfacts⟩
      have hlater := ih (fun i hi => hformed i (List.mem_cons_of_mem insn hi))
        (fun i hi => hhome i (List.mem_cons_of_mem insn hi)) hrest
      exact .after (Emits.put _) (.after hwritten (.after (Emits.put _) hlater))

/-- The blocks in front of the first one with an open branch are written. -/
theorem Owned.refuses_writeBlocks (h : f.Owned) (hformed : f.WellEncoded)
    {pre post : List Block} {block : Block} (hpre : ∀ x ∈ pre, ¬ f.HoldsOpenBranch x.id)
    (hopen : f.HoldsOpenBranch block.id) :
    Refuses (f.writeBlocks (pre ++ block :: post)) (.branchWithoutTarget block.id) := by
  induction pre with
  | nil =>
    refine .after (Emits.put _) (Refuses.bind ?_ _)
    exact refuses_writeInstructions (fun _ => hformed.of_mem)
      (fun insn hinsn => h.block_of_mem_instructionsOf hinsn)
      ((h.holdsOpenBranch_iff hformed).mp hopen)
  | cons x pre ih =>
    have hx := h.targeted hformed (hpre x List.mem_cons_self)
    have hrest := ih fun y hy => hpre y (List.mem_cons_of_mem x hy)
    refine .after (Emits.put _) (.after (emits_writeInstructions (fun _ => hformed.of_mem) hx) ?_)
    exact .after (emits_writeFallThrough x _) hrest

/-- Blocks are written by age, but the exit comes last. -/
def WrittenBefore (b c : BlockId) : Prop := b ≠ .exit ∧ (c = .exit ∨ b.index < c.index)

/-- The block lists a branch without a target and comes before all others that do. -/
def FirstOpen (f : Function) (b : BlockId) : Prop :=
  f.HoldsOpenBranch b ∧ ∀ c, f.HoldsOpenBranch c → c = b ∨ WrittenBefore b c

theorem WrittenBefore.asymm (h : WrittenBefore b c) : ¬ WrittenBefore c b := by
  rintro ⟨hc, hb | hlt⟩
  · exact h.1 hb
  · rcases h.2 with hexit | hless
    · exact hc hexit
    · omega

theorem FirstOpen.unique (hb : f.FirstOpen b) (hc : f.FirstOpen c) : b = c := by
  rcases hb.2 c hc.1 with heq | hbefore
  · exact heq.symm
  · rcases hc.2 b hb.1 with heq | hafter
    · exact heq
    · exact absurd hafter hbefore.asymm

theorem pairwise_layout (h : f.Numbered) : f.layout.Pairwise WrittenBefore := by
  rw [layout_eq h, List.pairwise_append, List.pairwise_append]
  have hmiddle : ∀ b ∈ f.order.filter (fun b => b ≠ .entry && b ≠ .exit),
      b ≠ .entry ∧ b ≠ .exit := by
    intro b hb
    simpa using (List.mem_filter.mp hb).2
  refine ⟨⟨by split <;> simp, ?_, ?_⟩, by split <;> simp, ?_⟩
  · refine List.Pairwise.imp_of_mem ?_ (h.sorted.filter _)
    intro a b ha hb hlt
    exact ⟨(hmiddle a ha).2, .inr hlt⟩
  · intro a ha b hb
    split at ha
    · rw [List.mem_singleton.mp ha]
      refine ⟨by decide, .inr ?_⟩
      exact Nat.pos_of_ne_zero fun hzero => (hmiddle b hb).1 (BlockId.index_inj.mp hzero)
    · cases ha
  · intro a ha b hb
    split at hb
    · refine ⟨?_, .inl (List.mem_singleton.mp hb)⟩
      rcases List.mem_append.mp ha with ha | ha
      · split at ha
        · rw [List.mem_singleton.mp ha]
          decide
        · cases ha
      · exact (hmiddle a ha).2
    · cases hb

theorem mem_layout_of_holdsOpenBranch (hn : f.Numbered) (ho : f.Owned) (hformed : f.WellEncoded)
    (h : f.HoldsOpenBranch b) : b ∈ f.layout := by
  obtain ⟨insn, hinsn, -⟩ := (ho.holdsOpenBranch_iff hformed).mp h
  refine (mem_layout_iff hn).mpr ⟨isLive_of_mem_instructionsOf hinsn, ?_⟩
  rintro rfl
  refine ho.hasContent_iff.mpr fun hempty => ?_
  rw [hempty.1] at hinsn
  exact List.not_mem_nil hinsn

theorem exists_first_open (hn : f.Numbered) (ho : f.Owned) (hformed : f.WellEncoded)
    (h : ∃ b, f.HoldsOpenBranch b) :
    ∃ pre block post, f.writtenBlocks = pre ++ block :: post ∧
      (∀ x ∈ pre, ¬ f.HoldsOpenBranch x.id) ∧ f.FirstOpen block.id := by
  classical
  obtain ⟨b, hb⟩ := h
  have hfound : (f.writtenBlocks.find? fun x => decide (f.HoldsOpenBranch x.id)).isSome = true := by
    obtain ⟨x, hx, rfl⟩ := List.mem_map.mp (mem_layout_of_holdsOpenBranch hn ho hformed hb)
    exact List.find?_isSome.mpr ⟨x, hx, decide_eq_true hb⟩
  obtain ⟨block, hblock⟩ := Option.isSome_iff_exists.mp hfound
  obtain ⟨hopen, pre, post, hsplit, hpre⟩ := List.find?_eq_some_iff_append.mp hblock
  have hpre : ∀ x ∈ pre, ¬ f.HoldsOpenBranch x.id := by simpa using hpre
  refine ⟨pre, block, post, hsplit, hpre, of_decide_eq_true hopen, ?_⟩
  intro c hc
  have hsorted := pairwise_layout hn
  have hmem := mem_layout_of_holdsOpenBranch hn ho hformed hc
  rw [layout, hsplit, List.map_append, List.map_cons] at hsorted hmem
  rcases List.mem_append.mp hmem with hmem | hmem
  · obtain ⟨x, hx, rfl⟩ := List.mem_map.mp hmem
    exact absurd hc (hpre x hx)
  · rcases List.mem_cons.mp hmem with heq | hmem
    · exact .inl heq
    · have hlater := (List.pairwise_cons.mp (List.pairwise_append.mp hsorted).2.1).1
      exact .inr (hlater c hmem)

def plan (f : Function) : List BlockId :=
  (if f.isLive .entry then [.entry] else []) ++
  f.order.filter (fun b => b ≠ .entry && b ≠ .exit) ++
  if f.writesExit then [.exit] else []

/-- Write the blocks of a plan. A planned block that is not there is a fault. -/
def writePlan (f : Function) : List BlockId → Emit Unit
  | [] => return ()
  | b :: bs =>
    match f.block? b with
    | none => throw (.fault (.deadBlock b))
    | some block => do
      Sink.put (b.label ++ ":\n")
      f.writeInstructions (f.instructionsOf b)
      writeFallThrough block bs.head?
      f.writePlan bs

/-- Write a function without trusting the order of its blocks. -/
def writeStrictly (f : Function) : Emit Unit :=
  match repeatedName? [] f.registers with
  | some name => throw (.sharedRegisterName name)
  | none => do
    Sink.put "\x7b\n"
    writeRegisters f.registers
    f.writePlan f.plan
    Sink.put "\x7d\n"

theorem writePlan_map_id {blocks : List Block}
    (h : ∀ block ∈ blocks, f.block? block.id = some block) :
    f.writePlan (blocks.map Block.id) = f.writeBlocks blocks := by
  induction blocks with
  | nil => rfl
  | cons block blocks ih =>
    have hrest := ih fun x hx => h x (List.mem_cons_of_mem block hx)
    rw [List.map_cons, writePlan, h block List.mem_cons_self]
    simp only [writeBlocks, hrest, List.head?_map]

/-- No planned block is missing, so the two ways of writing agree. -/
theorem writeStrictly_eq (h : f.Numbered) : f.writeStrictly = f.write := by
  have hplan : f.writePlan f.plan = f.writeBlocks f.writtenBlocks := by
    rw [plan, ← layout_eq h]
    exact writePlan_map_id fun block hblock => block?_of_mem_writtenBlocks h hblock
  rw [writeStrictly, hplan]
  rfl

theorem into_of_repeat {n : String} (h : repeatedName? [] f.registers = some n) :
    f.write.into none = ("", .error (.sharedRegisterName n)) := by
  rw [write, h]
  rfl

theorem into_of_open (hnames : f.registers.Nodup) (ho : f.Owned) (hformed : f.WellEncoded)
    {pre post : List Block} {block : Block} (hsplit : f.writtenBlocks = pre ++ block :: post)
    (hopen : f.HoldsOpenBranch block.id) (hpre : ∀ x ∈ pre, ¬ f.HoldsOpenBranch x.id) :
    ∃ text, f.write.into none = (text, .error (.branchWithoutTarget block.id)) := by
  have hrefuses : Refuses f.write (.branchWithoutTarget block.id) := by
    rw [write, repeatedName?_eq_none hnames fun n _ => List.not_mem_nil, hsplit]
    have hblocks : Refuses (f.writeBlocks (pre ++ block :: post)) _ :=
      ho.refuses_writeBlocks hformed hpre hopen
    exact .after (Emits.put _) (.after (emits_writeRegisters _) (hblocks.bind _))
  obtain ⟨sink, hwrite⟩ := hrefuses { room := none } rfl
  exact ⟨sink.text, by rw [Emit.into, hwrite]⟩

theorem into_of_expressible (hnames : f.registers.Nodup) (ho : f.Owned)
    (hformed : f.WellEncoded) (hopen : ∀ b, ¬ f.HoldsOpenBranch b) :
    f.write.into none = (page f.script, .ok ()) := by
  have htargeted : f.Targeted := fun b => ho.targeted hformed (hopen b)
  have hwrite := emits_write hnames hformed htargeted { room := none } rfl
  rw [Emit.into, hwrite]
  exact Prod.ext String.empty_append rfl

/-- Writing ends in one of three ways. -/
theorem into_cases (hn : f.Numbered) (ho : f.Owned) (hformed : f.WellEncoded) :
    (∃ r n, f.FirstRepeat r ∧ f.registerName? r = some n ∧
      f.write.into none = ("", .error (.sharedRegisterName n))) ∨
    (∀ r, ¬ f.RepeatsName r) ∧
      ((∃ b text, f.FirstOpen b ∧ f.write.into none = (text, .error (.branchWithoutTarget b))) ∨
        (∀ b, ¬ f.HoldsOpenBranch b) ∧ f.write.into none = (page f.script, .ok ())) := by
  cases hrepeat : repeatedName? [] f.registers with
  | some n =>
    obtain ⟨r, hfirst, hname⟩ := exists_first_repeat hrepeat
    exact .inl ⟨r, n, hfirst, hname, into_of_repeat hrepeat⟩
  | none =>
    have hnames := (nodup_of_repeatedName?_eq_none hrepeat).1
    refine .inr ⟨nodup_iff_not_repeatsName.mp hnames, ?_⟩
    by_cases hopen : ∃ b, f.HoldsOpenBranch b
    · obtain ⟨pre, block, post, hsplit, hpre, hfirst⟩ := exists_first_open hn ho hformed hopen
      obtain ⟨text, hinto⟩ := into_of_open hnames ho hformed hsplit hfirst.1 hpre
      exact .inl ⟨block.id, text, hfirst, hinto⟩
    · have hopen := not_exists.mp hopen
      exact .inr ⟨hopen, into_of_expressible hnames ho hformed hopen⟩

theorem result_shared_iff (hn : f.Numbered) (ho : f.Owned) (hformed : f.WellEncoded) (n : String) :
    (f.write.into none).2 = .error (.sharedRegisterName n) ↔
      ∃ r, f.FirstRepeat r ∧ f.registerName? r = some n := by
  rcases into_cases hn ho hformed with ⟨r, m, hfirst, hname, hinto⟩ | ⟨hnone, hends⟩
  · rw [hinto]
    constructor
    · intro heq
      cases heq
      exact ⟨r, hfirst, hname⟩
    · rintro ⟨q, hq, hname'⟩
      rw [hfirst.unique hq, hname'] at hname
      rw [Option.some.inj hname]
  · have hno : ¬ ∃ r, f.FirstRepeat r ∧ f.registerName? r = some n := by
      rintro ⟨r, hfirst, -⟩
      exact hnone r hfirst.1
    rcases hends with ⟨b, text, -, hinto⟩ | ⟨-, hinto⟩
    · simp [hinto, hno]
    · simp [hinto, hno]

theorem text_of_repeatsName (hn : f.Numbered) (ho : f.Owned) (hformed : f.WellEncoded)
    (h : f.RepeatsName r) :
    (f.write.into none).1 = "" ∧ ∃ n, (f.write.into none).2 = .error (.sharedRegisterName n) := by
  rcases into_cases hn ho hformed with ⟨q, n, -, -, hinto⟩ | ⟨hnone, -⟩
  · rw [hinto]
    exact ⟨rfl, n, rfl⟩
  · exact absurd h (hnone r)

theorem result_open_iff (hn : f.Numbered) (ho : f.Owned) (hformed : f.WellEncoded) (b : BlockId) :
    (f.write.into none).2 = .error (.branchWithoutTarget b) ↔
      (∀ r, ¬ f.RepeatsName r) ∧ f.FirstOpen b := by
  obtain ⟨r, n, hfirst, -, hinto⟩ | ⟨hnone, ⟨c, text, hc, hinto⟩ | ⟨hopen, hinto⟩⟩ :=
    into_cases hn ho hformed
  · rw [hinto]
    exact ⟨nofun, fun h => absurd hfirst.1 (h.1 r)⟩
  · rw [hinto]
    constructor
    · intro heq
      cases heq
      exact ⟨hnone, hc⟩
    · rintro ⟨-, hb⟩
      rw [hb.unique hc]
  · rw [hinto]
    exact ⟨nofun, fun h => absurd h.2.1 (hopen b)⟩

theorem result_of_holdsOpenBranch (hn : f.Numbered) (ho : f.Owned) (hformed : f.WellEncoded)
    (hnone : ∀ r, ¬ f.RepeatsName r) (hb : f.HoldsOpenBranch b) :
    ∃ c, (f.write.into none).2 = .error (.branchWithoutTarget c) := by
  rcases into_cases hn ho hformed with ⟨r, n, hfirst, -⟩ | ⟨-, ⟨c, text, -, hinto⟩ | ⟨hopen, -⟩⟩
  · exact absurd hfirst.1 (hnone r)
  · exact ⟨c, by rw [hinto]⟩
  · exact absurd hb (hopen b)

theorem result_ok_iff (hn : f.Numbered) (ho : f.Owned) (hformed : f.WellEncoded) :
    (f.write.into none).2 = .ok () ↔
      (∀ r, ¬ f.RepeatsName r) ∧ ∀ b, ¬ f.HoldsOpenBranch b := by
  obtain ⟨r, n, hfirst, -, hinto⟩ | ⟨hnone, ⟨c, text, hc, hinto⟩ | ⟨hopen, hinto⟩⟩ :=
    into_cases hn ho hformed
  · rw [hinto]
    exact ⟨nofun, fun h => absurd hfirst.1 (h.1 r)⟩
  · rw [hinto]
    exact ⟨nofun, fun h => absurd hc.1 (h.2 c)⟩
  · rw [hinto]
    exact ⟨fun _ => ⟨hnone, hopen⟩, fun _ => rfl⟩

theorem result_ne_fault (hn : f.Numbered) (ho : f.Owned) (hformed : f.WellEncoded) (fault : Fault) :
    (f.write.into none).2 ≠ .error (.fault fault) := by
  obtain ⟨r, n, -, -, hinto⟩ | ⟨-, ⟨c, text, -, hinto⟩ | ⟨-, hinto⟩⟩ := into_cases hn ho hformed
  · simp [hinto]
  · simp [hinto]
  · simp [hinto]

/-- Writing meets no malformed instruction and no missing block, and it fails on the first thing
that a text cannot say. -/
theorem writing_fails_exactly {edits : List Edit} (hr : (empty.run edits).outcome = .ok f) :
    (∀ i insn, f.instruction? i = some insn → (∃ o : Operation, insn.operation = o.encode) ∧
      ∀ fault, ((f.writeInstruction insn).into none).2 ≠ .error (.fault fault)) ∧
    f.writeStrictly = f.write ∧
    (∀ fault, (f.writeStrictly.into none).2 ≠ .error (.fault fault)) ∧
    (∀ n, (f.write.into none).2 = .error (.sharedRegisterName n) ↔
      ∃ r, f.FirstRepeat r ∧ f.registerName? r = some n) ∧
    ((∃ r, f.RepeatsName r) → (f.write.into none).1 = "" ∧
      ∃ n, (f.write.into none).2 = .error (.sharedRegisterName n)) ∧
    (∀ b, (f.write.into none).2 = .error (.branchWithoutTarget b) ↔
      (∀ r, ¬ f.RepeatsName r) ∧ f.FirstOpen b) ∧
    ((∀ r, ¬ f.RepeatsName r) → (∃ b, f.HoldsOpenBranch b) →
      ∃ b, (f.write.into none).2 = .error (.branchWithoutTarget b)) ∧
    ((f.write.into none).2 = .ok () ↔
      (∀ r, ¬ f.RepeatsName r) ∧ ∀ b, ¬ f.HoldsOpenBranch b) := by
  have hn := (balanced_run hr).numbered
  have ho := (balanced_run hr).owned
  have hformed := wellEncoded_run hr
  have hstrict := writeStrictly_eq hn
  refine ⟨?_, hstrict, ?_, result_shared_iff hn ho hformed, ?_, result_open_iff hn ho hformed, ?_,
    result_ok_iff hn ho hformed⟩
  · intro i insn hi
    refine ⟨(hformed i insn hi).exists_encode, fun fault hfault => ?_⟩
    exact (writeInstruction_fault_iff.mp hfault).1 (hformed i insn hi)
  · rw [hstrict]
    exact result_ne_fault hn ho hformed
  · rintro ⟨r, hrepeats⟩
    exact text_of_repeatsName hn ho hformed hrepeats
  · rintro hnone ⟨b, hb⟩
    exact result_of_holdsOpenBranch hn ho hformed hnone hb

/-- The exit comes last although it is older than the block that is named, and a destroyed block
does not count. -/
theorem writing_fails_before_exit :
    ∃ f, (empty.run [.addBlock, .addBlock, .append .exit (.branch ⟨0⟩ none),
        .append ⟨3⟩ (.branch ⟨0⟩ none), .append ⟨2⟩ (.branch ⟨0⟩ none), .destroy ⟨2⟩,
        .addRegister "x"]).outcome = .ok f ∧
      (f.write.into none).2 = .error (.branchWithoutTarget ⟨3⟩) ∧ f.FirstOpen ⟨3⟩ := by
  have hview : ((empty.run [.addBlock, .addBlock, .append .exit (.branch ⟨0⟩ none),
      .append ⟨3⟩ (.branch ⟨0⟩ none), .append ⟨2⟩ (.branch ⟨0⟩ none), .destroy ⟨2⟩,
      .addRegister "x"]).outcome.toOption.map
        fun f => match (f.write.into none).2 with
          | .error e => some e
          | .ok () => none) = some (some (.branchWithoutTarget ⟨3⟩)) := by
    decide +kernel
  obtain ⟨f, hf, hview⟩ := Option.map_eq_some_iff.mp hview
  have hok := eq_ok_of_toOption hf
  have hresult : (f.write.into none).2 = .error (.branchWithoutTarget ⟨3⟩) := by
    cases h : (f.write.into none).2 with
    | ok u =>
      rw [h] at hview
      cases hview
    | error e =>
      rw [h] at hview
      rw [Option.some.inj hview]
  obtain ⟨-, -, -, -, -, hopen, -⟩ := writing_fails_exactly hok
  exact ⟨f, hok, hresult, ((hopen ⟨3⟩).mp hresult).2⟩

end Function

end FlowGraph
