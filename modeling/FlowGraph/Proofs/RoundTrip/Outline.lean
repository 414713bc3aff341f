import FlowGraph.Proofs.RoundTrip.Settle
import FlowGraph.Proofs.Writing.Layout
import Mathlib.Data.List.Nodup

/-!
# The outline of a function

A function that can be written has an outline, which is the one of its statements. It says of every
live block what its instructions are, and where control goes on if no fall-through is set.
-/

namespace FlowGraph

set_option autoImplicit false

open Text

namespace Function

/-- What is asked of a function so that its text can be read back. -/
structure Writable (f : Function) : Prop where
  numbered : f.Numbered
  fallThrough : ∀ b t, f.fallThroughOf b = some t → f.isLive t = true
  targets : ∀ b, ∀ insn ∈ f.instructionsOf b, ∀ t, insn.target? = some t → f.isLive t = true
  encoded : f.WellEncoded
  targeted : f.Targeted
  names_nodup : f.registers.Nodup
  names : ∀ name ∈ f.registers, isIdentifier name.toList = true
  uses : ∀ b, ∀ insn ∈ f.instructionsOf b, ∀ r ∈ insn.operation.registers,
    r.index < f.registers.length

/-- The blocks that a text can name: the live ones, the entry and the exit. -/
def Named (f : Function) (b : BlockId) : Prop :=
  f.isLive b = true ∨ b = .entry ∨ b = .exit

def declared (f : Function) : Outline := { Outline.start with registers := f.registers }

def settled (f : Function) : Outline :=
  (f.sectionsOf f.writtenBlocks).foldl Outline.settle f.declared

def outline (f : Function) : Outline := f.settled.fallInto "exit"

variable {f : Function} {b : BlockId}

theorem map_label_sectionsOf (blocks : List Block) :
    (f.sectionsOf blocks).map Section.label = (blocks.map Block.id).map BlockId.label := by
  induction blocks with
  | nil => rfl
  | cons block blocks ih =>
    rw [sectionsOf, List.map_cons, ih]
    rfl

theorem label_mem_sections :
    b.label ∈ (f.sectionsOf f.writtenBlocks).map Section.label ↔ b ∈ f.layout := by
  rw [map_label_sectionsOf, List.mem_map]
  constructor
  · rintro ⟨c, hc, hlabel⟩
    exact BlockId.label_inj hlabel ▸ hc
  · intro hb
    exact ⟨b, hb, rfl⟩

theorem sectionsOf_append (pre : List Block) (block : Block) (post : List Block) :
    ∃ above, f.sectionsOf (pre ++ block :: post) =
      above ++ f.sectionOf block (post.head?.map Block.id) :: f.sectionsOf post := by
  induction pre with
  | nil => exact ⟨[], rfl⟩
  | cons x pre ih =>
    obtain ⟨above, habove⟩ := ih
    rw [List.cons_append, sectionsOf, habove]
    exact ⟨_ :: above, rfl⟩

theorem exists_of_mem_sectionsOf {blocks : List Block} {s : Section}
    (h : s ∈ f.sectionsOf blocks) : ∃ block ∈ blocks, ∃ next, s = f.sectionOf block next := by
  induction blocks with
  | nil => cases h
  | cons block blocks ih =>
    rcases List.mem_cons.mp h with rfl | h
    · exact ⟨block, List.mem_cons_self, _, rfl⟩
    · obtain ⟨block', hblock, next, hs⟩ := ih h
      exact ⟨block', List.mem_cons_of_mem block hblock, next, hs⟩

theorem bodies_outline_of_notMem (hb : b ∉ f.layout) :
    f.outline.bodies b.label = [] := by
  have hlabel : b.label ∉ (f.sectionsOf f.writtenBlocks).map Section.label :=
    mt label_mem_sections.mp hb
  rw [outline, Outline.bodies_fallInto, settled, Outline.bodies_settleAll_of_notMem hlabel]
  rfl

theorem landing_sectionsOf (post : List Block) :
    Outline.landing b.label (f.sectionsOf post) =
      if post = [] ∧ b = .exit then none
      else some ((post.map Block.id).head?.getD .exit).label := by
  cases post with
  | nil =>
    have hlabel : b.label = "exit" ↔ b = .exit := by
      constructor
      · intro heq
        exact BlockId.label_inj (heq.trans rfl)
      · rintro rfl
        rfl
    simp only [sectionsOf, Outline.landing, hlabel, true_and]
    rfl
  | cons block post => simp [sectionsOf, sectionOf, Outline.landing]

/-- Whether a `goto` is written or left out, a block goes on to its fall-through. -/
theorem goto_or_landing (block : Block) {post : List Block} (hlast : block.id = .exit → post = []) :
    ((gotoAfter block (post.head?.map Block.id)).map BlockId.label).or
        (Outline.landing block.id.label (f.sectionsOf post)) =
      match block.fallThrough with
      | some t => some t.label
      | none => if block.id = .exit then none
        else some ((post.map Block.id).head?.getD .exit).label := by
  rw [landing_sectionsOf, gotoAfter]
  cases block.fallThrough with
  | none =>
    by_cases hexit : block.id = .exit
    · simp [hexit, hlast hexit]
    · simp [hexit]
  | some t =>
    cases himplicit : isImplicit block.id t (post.head?.map Block.id) with
    | false => simp [Option.filter_some_pos, himplicit]
    | true =>
      rw [Option.filter_some_neg (by simp [himplicit])]
      cases post with
      | nil =>
        simp only [isImplicit, List.head?_nil, Option.map_none, Bool.and_eq_true,
          decide_eq_true_eq] at himplicit
        simp [himplicit]
      | cons next post =>
        simp only [isImplicit, List.head?_cons, Option.map_some, decide_eq_true_eq] at himplicit
        simp [himplicit]

theorem foldlM_take_registers {o : Outline} {names : List String}
    (h : (o.registers ++ names).Nodup) :
    (names.map Statement.register).foldlM Outline.take o =
      some { o with registers := o.registers ++ names } := by
  induction names generalizing o with
  | nil => simp
  | cons name names ih =>
    have hname : name ∉ o.registers := fun hmem =>
      (List.nodup_append.mp h).2.2 name hmem name List.mem_cons_self rfl
    have htake : o.take (.register name) =
        some { o with registers := o.registers ++ [name] } := by
      rw [Outline.take, if_neg hname]
      simp [Outline.introduce, Statement.labels, Statement.registers, enterAll, enter, hname]
    rw [List.map_cons, List.foldlM_cons, htake]
    change List.foldlM Outline.take _ _ = _
    rw [ih (by simpa using h)]
    simp

namespace Writable

theorem registerText_mem {insn : Instruction} {r : RegId} (h : f.Writable)
    (hinsn : insn ∈ f.instructionsOf b) (hr : r ∈ insn.operation.registers) :
    f.registerText r ∈ f.registers := by
  have hlt := h.uses b insn hinsn r hr
  rw [registerText, registerName?, List.getElem?_eq_getElem hlt]
  exact List.getElem_mem hlt

theorem uses_sectionOf (h : f.Writable) (block : Block) (next : Option BlockId) :
    (f.sectionOf block next).Uses f.registers := by
  intro op hop
  obtain ⟨insn, hinsn, rfl⟩ := List.mem_map.mp hop
  have hmem : ∀ r ∈ insn.operation.registers, f.registerText r ∈ f.registers :=
    fun r hr => h.registerText_mem hinsn hr
  obtain ⟨o, ho⟩ := (h.encoded.of_mem hinsn).exists_encode
  rw [ho] at hmem ⊢
  rw [Encoding.decode_encode]
  cases o with
  | arith op lhs rhs result =>
    have hlhs := hmem lhs (by simp [Encoding.registers, Operation.encode])
    have hrhs := hmem rhs (by simp [Encoding.registers, Operation.encode])
    have hresult := hmem result (by simp [Encoding.registers, Operation.encode])
    simp [spell, NamedOp.operands, NamedOp.results, hlhs, hrhs, hresult]
  | branch cond target =>
    have hcond := hmem cond (by simp [Encoding.registers, Operation.encode])
    simp [spell, NamedOp.operands, NamedOp.results, hcond]
  | nop => simp [spell, NamedOp.operands, NamedOp.results]

theorem ready (h : f.Writable) : f.declared.Ready (f.sectionsOf f.writtenBlocks) := by
  have hlabels : (f.sectionsOf f.writtenBlocks).map Section.label = f.layout.map BlockId.label :=
    map_label_sectionsOf f.writtenBlocks
  refine ⟨?_, fun _ _ => rfl, fun _ _ => rfl, ?_, ?_, fun _ _ => rfl⟩
  · rw [hlabels]
    exact (nodup_layout h.numbered).map fun _ _ heq => BlockId.label_inj heq
  · intro s hs
    obtain ⟨block, -, next, rfl⟩ := exists_of_mem_sectionsOf hs
    exact h.uses_sectionOf block next
  · rintro n ⟨⟩ hmem
    rw [hlabels, ← List.map_tail] at hmem
    obtain ⟨b, hb, hlabel⟩ := List.mem_map.mp hmem
    have hentry : b = .entry := BlockId.label_inj hlabel
    exact entry_notMem_tail h.numbered (hentry ▸ hb)

theorem foldlM_take_statements (h : f.Writable) :
    f.statements.foldlM Outline.take .start = some f.settled := by
  have hregisters := @foldlM_take_registers .start f.registers h.names_nodup
  rw [statements, List.foldlM_append, hregisters]
  exact h.ready.takeAll

theorem exists_of_mem_targets (h : f.Writable) {insn : Instruction}
    (hinsn : insn ∈ f.instructionsOf b) {n : String} (hn : n ∈ (f.spell insn.operation).targets) :
    ∃ t, f.isLive t = true ∧ t.label = n := by
  have htargeted := h.targeted b insn hinsn
  have htargets := h.targets b insn hinsn
  simp only [Instruction.isBranch, Instruction.target?] at htargeted htargets
  obtain ⟨o, ho⟩ := (h.encoded.of_mem hinsn).exists_encode
  rw [ho] at hn htargeted htargets
  rw [Encoding.decode_encode] at hn
  cases o with
  | arith op lhs rhs result => simp [spell, NamedOp.targets] at hn
  | nop => simp [spell, NamedOp.targets] at hn
  | branch cond target =>
    cases target with
    | none => exact absurd rfl (htargeted rfl)
    | some t =>
      simp only [spell, NamedOp.targets, Option.elim_some, List.mem_singleton] at hn
      exact ⟨t, htargets t rfl, hn.symm⟩

theorem exists_of_mem_mentions (h : f.Writable) {s : Section}
    (hs : s ∈ f.sectionsOf f.writtenBlocks) {n : String} (hn : n ∈ s.mentions) :
    ∃ b, f.isLive b = true ∧ b.label = n := by
  obtain ⟨block, hblock, next, rfl⟩ := exists_of_mem_sectionsOf hs
  have hfound := block?_of_mem_writtenBlocks h.numbered hblock
  rcases List.mem_cons.mp hn with rfl | hn
  · exact ⟨block.id, isLive_of_block? hfound, rfl⟩
  rcases List.mem_append.mp hn with hn | hn
  · obtain ⟨op, hop, hn⟩ := List.mem_flatMap.mp hn
    obtain ⟨insn, hinsn, rfl⟩ := List.mem_map.mp hop
    exact h.exists_of_mem_targets hinsn hn
  · obtain ⟨t, ht, rfl⟩ := Option.map_eq_some_iff.mp (Option.mem_toList.mp hn)
    have hfall : f.fallThroughOf block.id = some t := by
      rw [(views_of_block? hfound).2.2.1]
      exact (Option.filter_eq_some_iff.mp ht).1
    exact ⟨t, h.fallThrough block.id t hfall, rfl⟩

theorem label_mem_defined (h : f.Writable) (hb : f.Named b) : b.label ∈ f.settled.defined := by
  rw [settled, Outline.mem_defined_settleAll, label_mem_sections]
  by_cases hentry : b = .entry
  · subst hentry
    exact .inl (List.mem_cons_self : "entry" ∈ Outline.start.defined)
  by_cases hexit : b = .exit
  · subst hexit
    exact .inl (List.mem_cons_of_mem _ List.mem_cons_self : "exit" ∈ Outline.start.defined)
  · have hlive : f.isLive b = true := hb.resolve_right (not_or.mpr ⟨hentry, hexit⟩)
    exact .inr ((mem_layout_iff h.numbered).mpr ⟨hlive, fun heq => absurd heq hexit⟩)

theorem named_of_mem_labels (h : f.Writable) {n : String} (hn : n ∈ f.settled.labels) :
    ∃ b, f.Named b ∧ b.label = n := by
  rcases Outline.mem_labels_settleAll.mp hn with hn | ⟨s, hs, hn⟩
  · simp only [declared, Outline.start, List.mem_cons, List.not_mem_nil, or_false] at hn
    rcases hn with rfl | rfl
    · exact ⟨.entry, .inr (.inl rfl), rfl⟩
    · exact ⟨.exit, .inr (.inr rfl), rfl⟩
  · obtain ⟨b, hb, hlabel⟩ := h.exists_of_mem_mentions hs hn
    exact ⟨b, .inl hb, hlabel⟩

theorem close_settled (h : f.Writable) : f.settled.close = some f.outline := by
  refine if_pos ?_
  intro n hn
  obtain ⟨b, hb, rfl⟩ := h.named_of_mem_labels hn
  exact h.label_mem_defined hb

theorem mem_labels_outline (h : f.Writable) (hv : f.settled.Valid) {n : String} :
    n ∈ f.outline.labels ↔ ∃ b, f.Named b ∧ b.label = n := by
  rw [outline, Outline.labels_fallInto]
  constructor
  · exact h.named_of_mem_labels
  · rintro ⟨b, hb, rfl⟩
    exact hv.defined_mem b.label (h.label_mem_defined hb)

theorem exists_section (h : f.Writable) (hb : b ∈ f.layout) :
    ∃ pre block post, f.writtenBlocks = pre ++ block :: post ∧ block.id = b ∧
      f.block? b = some block := by
  obtain ⟨block, hblock, rfl⟩ := List.mem_map.mp hb
  obtain ⟨pre, post, hsplit⟩ := List.append_of_mem hblock
  exact ⟨pre, block, post, hsplit, rfl, block?_of_mem_writtenBlocks h.numbered hblock⟩

/-- An exit that is not written has neither instructions nor a fall-through. -/
theorem exit_of_notMem_layout (h : f.Writable) (hlive : f.isLive b = true) (hb : b ∉ f.layout) :
    b = .exit ∧ f.instructionsOf b = [] ∧ f.fallThroughOf b = none := by
  have hexit : b = .exit ∧ f.writesExit = false := by
    rw [mem_layout_iff h.numbered] at hb
    simpa [hlive] using hb
  obtain ⟨rfl, hwrites⟩ := hexit
  obtain ⟨block, hblock⟩ := isLive_iff.mp hlive
  simp only [writesExit, hblock, Option.any_some, Block.hasContent, Bool.or_eq_false_iff,
    Bool.not_eq_false', Block.isEmpty, List.isEmpty_iff] at hwrites
  refine ⟨rfl, ?_, ?_⟩
  · rw [instructionsOf_eq, (views_of_block? hblock).2.2.2, hwrites.1]
    rfl
  · rw [(views_of_block? hblock).2.2.1]
    simpa using hwrites.2

theorem bodies_outline (h : f.Writable) (hb : f.isLive b = true) :
    f.outline.bodies b.label = (f.instructionsOf b).map fun insn => f.spell insn.operation := by
  by_cases hmem : b ∈ f.layout
  · obtain ⟨pre, block, post, hsplit, rfl, hblock⟩ := h.exists_section hmem
    obtain ⟨above, habove⟩ := sectionsOf_append (f := f) pre block post
    have hready := h.ready
    rw [outline, settled]
    rw [hsplit, habove] at hready ⊢
    exact hready.section_mem.1
  · rw [bodies_outline_of_notMem hmem, (h.exit_of_notMem_layout hb hmem).2.1]
    rfl

theorem falls_outline_of_notMem (h : f.Writable) (hb : b ∉ f.layout) :
    f.outline.falls b.label =
      if b = .entry then some ((f.layout.head?).getD .exit).label else none := by
  have hlabel : b.label ∉ (f.sectionsOf f.writtenBlocks).map Section.label :=
    mt label_mem_sections.mp hb
  have hcurrent : f.declared.current = some b.label ↔ b = .entry := by
    constructor
    · intro hc
      have hlabel : BlockId.entry.label = b.label := Option.some.inj hc
      exact (BlockId.label_inj hlabel).symm
    · rintro rfl
      rfl
  rw [outline, settled, h.ready.falls_of_notMem hlabel]
  by_cases hentry : b = .entry
  · rw [if_pos (hcurrent.mpr hentry), if_pos hentry, hentry, layout]
    cases f.writtenBlocks <;> rfl
  · rw [if_neg (mt hcurrent.mp hentry), if_neg hentry]
    rfl

theorem falls_outline (h : f.Writable) (hb : f.isLive b = true) :
    f.outline.falls b.label =
      match f.fallThroughOf b with
      | some t => some t.label
      | none => if b = .exit then none else some (f.writtenAfter b).label := by
  by_cases hmem : b ∈ f.layout
  · obtain ⟨pre, block, post, hsplit, rfl, hblock⟩ := h.exists_section hmem
    obtain ⟨above, habove⟩ := sectionsOf_append (f := f) pre block post
    have hlayout : f.layout = pre.map Block.id ++ block.id :: post.map Block.id := by
      rw [layout, hsplit, List.map_append, List.map_cons]
    have hlast : block.id = .exit → post = [] := by
      intro hexit
      rw [hexit] at hlayout
      exact List.map_eq_nil_iff.mp (exit_last h.numbered hlayout)
    have hready := h.ready
    rw [hsplit, habove] at hready
    have hfalls := hready.section_mem.2
    rw [outline, settled, hsplit, habove]
    refine hfalls.trans ?_
    rw [(views_of_block? hblock).2.2.1, writtenAfter_eq h.numbered hlayout]
    exact goto_or_landing block hlast
  · obtain ⟨rfl, -, hfall⟩ := h.exit_of_notMem_layout hb hmem
    rw [h.falls_outline_of_notMem hmem, hfall]
    rfl

end Writable

end Function

end FlowGraph
