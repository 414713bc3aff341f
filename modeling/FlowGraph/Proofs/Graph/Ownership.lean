import FlowGraph.Proofs.Graph.Effect

/-!
# Ownership

An instruction that names a block is listed there exactly once and nowhere else; one that names no
block is listed nowhere. Blocks are stored under their own numbers, and the order lists the live
ones by age.
-/

namespace FlowGraph

set_option autoImplicit false

@[simp] theorem Instruction.block_redirect (insn : Instruction) (old : BlockId)
    (next : Option BlockId) : (insn.redirect old next).block = insn.block := by
  unfold redirect
  split <;> rfl

theorem Instruction.target?_redirect (insn : Instruction) (old : BlockId)
    (next : Option BlockId) : (insn.redirect old next).target? =
      if insn.target? = some old then next else insn.target? := by
  obtain ⟨⟨kind, operands, result⟩, block⟩ := insn
  cases kind with
  | arith op => rfl
  | nop => rfl
  | branch target =>
    by_cases h : target = some old
    · simp [redirect, Instruction.target?, Encoding.targets, Encoding.target?,
        Encoding.withTarget, h]
    · simp [redirect, Instruction.target?, Encoding.targets, Encoding.target?, h]

theorem Instruction.redirect_eq_ite (insn : Instruction) (old : BlockId)
    (next : Option BlockId) : insn.redirect old next = if insn.target? = some old then
      { insn with operation := insn.operation.withTarget next } else insn := by
  simp only [redirect, Encoding.targets, beq_iff_eq]
  rfl

theorem Instruction.redirect_of_ne {insn : Instruction} {old : BlockId}
    (h : insn.target? ≠ some old) (next : Option BlockId) : insn.redirect old next = insn :=
  if_neg fun ht => h (eq_of_beq ht)

theorem Instruction.redirect_of_not_isBranch {insn : Instruction} (h : insn.isBranch = false)
    (old : BlockId) (next : Option BlockId) : insn.redirect old next = insn := by
  obtain ⟨⟨kind, operands, result⟩, block⟩ := insn
  cases kind with
  | arith op => rfl
  | nop => rfl
  | branch target => cases h

theorem Instruction.redirect_redirect (insn : Instruction) (old : BlockId)
    (next : Option BlockId) :
    (insn.redirect old next).redirect old next = insn.redirect old next := by
  obtain ⟨⟨kind, operands, result⟩, block⟩ := insn
  cases kind with
  | arith op => rfl
  | nop => rfl
  | branch target =>
    by_cases h : target = some old
    · by_cases hn : next = some old
      · simp [redirect, Encoding.targets, Encoding.target?, Encoding.withTarget, h, hn]
      · simp [redirect, Encoding.targets, Encoding.target?, Encoding.withTarget, h, hn]
    · simp [redirect, Encoding.targets, Encoding.target?, h]

theorem Encoding.withTarget_target? (e : Encoding) : e.withTarget e.target? = e := by
  obtain ⟨kind, operands, result⟩ := e
  cases kind <;> rfl

theorem Instruction.exists_withTarget_redirect (insn : Instruction) (old : BlockId)
    (next : Option BlockId) :
    ∃ t, (insn.redirect old next).operation = insn.operation.withTarget t := by
  rw [redirect_eq_ite]
  split
  · exact ⟨next, rfl⟩
  · exact ⟨_, insn.operation.withTarget_target?.symm⟩

namespace Function

variable {f f' : Function} {a b c : BlockId} {i j : InsnId} {insn insn' : Instruction}

def homeOf (f : Function) (i : InsnId) : Option BlockId := (f.instruction? i).bind Instruction.block

/-- The lists of the blocks and the homes of the instructions say the same. -/
structure Owned (f : Function) : Prop where
  mem_iff : ∀ b i, i ∈ f.listing b ↔ f.homeOf i = some b
  nodup : ∀ b, (f.listing b).Nodup

namespace Owned

theorem congr (h : f.Owned) (hl : ∀ b, f'.listing b = f.listing b)
    (hh : ∀ i, f'.homeOf i = f.homeOf i) : f'.Owned where
  mem_iff b i := by rw [hl, hh, h.mem_iff]
  nodup b := by rw [hl]; exact h.nodup b

theorem sameBodies (h : f.Owned) (hs : SameBodies f f') : f'.Owned :=
  h.congr hs.listing fun i => by simp only [homeOf, hs.instruction?]

theorem mem_listing (h : f.Owned) (hi : f.instruction? i = some insn) (hb : insn.block = some b) :
    i ∈ f.listing b := (h.mem_iff b i).mpr (by simp [homeOf, hi, hb])

theorem notMem_listing (h : f.Owned) (hi : f.instruction? i = some insn)
    (hb : insn.block ≠ some b) : i ∉ f.listing b := by
  rw [h.mem_iff, homeOf, hi]
  exact hb

theorem exists_of_mem (h : f.Owned) (hi : i ∈ f.listing b) :
    ∃ insn, f.instruction? i = some insn ∧ insn.block = some b := by
  have hhome := (h.mem_iff b i).mp hi
  exact Option.bind_eq_some_iff.mp hhome

theorem isSome_of_mem (h : f.Owned) (hi : i ∈ f.listing b) :
    (f.instruction? i).isSome = true := by
  obtain ⟨insn, hinsn, -⟩ := h.exists_of_mem hi
  exact Option.isSome_iff_exists.mpr ⟨insn, hinsn⟩

theorem instructionsOf_eq_nil_iff (h : f.Owned) : f.instructionsOf b = [] ↔ f.listing b = [] := by
  rw [instructionsOf_eq]
  constructor
  · intro hnil
    cases hlist : f.listing b with
    | nil => rfl
    | cons i is =>
      have hi : i ∈ f.listing b := by simp [hlist]
      obtain ⟨insn, hinsn, -⟩ := h.exists_of_mem hi
      rw [hlist, List.filterMap_cons_some hinsn] at hnil
      cases hnil
  · intro hnil
    rw [hnil]
    rfl

theorem hasContent_iff (h : f.Owned) : (f.block? b).any Block.hasContent = true ↔
    ¬ (f.instructionsOf b = [] ∧ f.fallThroughOf b = none) := by
  rw [h.instructionsOf_eq_nil_iff, listing, fallThroughOf]
  cases f.block? b with
  | none => simp
  | some block =>
    simp [Block.hasContent, Block.isEmpty, Option.isSome_iff_ne_none, Classical.or_iff_not_imp_left]

theorem setInstruction (h : f.Owned) (hi : f.instruction? i = some insn)
    (hb : insn'.block = insn.block) : (f.setInstruction i insn').Owned := by
  refine h.congr (fun _ => rfl) ?_
  intro j
  simp only [homeOf, instruction?_setInstruction (hi ▸ rfl : (f.instruction? i).isSome)]
  split
  · next hj => simp [hj, hi, hb]
  · rfl

theorem relist (h : f.Owned) (hi : f.instruction? i = some insn) (hlive : f.isLive b = true)
    {g : List InsnId → List InsnId} (hold : ∀ c, c ≠ b → insn.block ≠ some c)
    (hnew : ∀ c, c ≠ b → insn'.block ≠ some c)
    (hself : i ∈ g (f.listing b) ↔ insn'.block = some b)
    (hrest : ∀ j, j ≠ i → (j ∈ g (f.listing b) ↔ j ∈ f.listing b))
    (hnodup : (g (f.listing b)).Nodup) : (f.relist b g i insn').Owned := by
  refine ⟨?_, ?_⟩
  · intro c j
    rw [listing_relist hlive, homeOf, instruction?_relist (hi ▸ rfl)]
    by_cases hc : c = b
    · subst hc
      by_cases hj : j = i
      · subst hj
        simpa using hself
      · rw [if_pos rfl, if_neg hj, hrest j hj, h.mem_iff, homeOf]
    · rw [if_neg hc, h.mem_iff, homeOf]
      by_cases hj : j = i
      · subst hj
        simp [hi, hold c hc, hnew c hc]
      · rw [if_neg hj]
  · intro c
    rw [listing_relist hlive]
    split
    · exact hnodup
    · exact h.nodup c

theorem relist_erase (h : f.Owned) (hi : f.instruction? i = some insn) (hb : insn.block = some b)
    (hb' : insn'.block = none) : (f.relist b (·.erase i) i insn').Owned := by
  have hlive : f.isLive b = true := isLive_of_mem_listing (h.mem_listing hi hb)
  have hgone : i ∉ (f.listing b).erase i := (h.nodup b).not_mem_erase
  refine h.relist hi hlive ?_ ?_ ?_ ?_ ((h.nodup b).erase i)
  · intro c hc
    simp [hb, Ne.symm hc]
  · simp [hb']
  · simp [hb', hgone]
  · intro j hj
    exact List.mem_erase_of_ne hj

theorem relist_insert (h : f.Owned) (hi : f.instruction? i = some insn) (hn : insn.block = none)
    (hb : f.isLive b = true) {is : List InsnId} (his : is.Perm (i :: f.listing b))
    (hb' : insn'.block = some b) : (f.relist b (fun _ => is) i insn').Owned := by
  have hnot : i ∉ f.listing b := h.notMem_listing hi (by simp [hn])
  refine h.relist hi hb ?_ ?_ ?_ ?_ ?_
  · simp [hn]
  · intro c hc
    simp [hb', Ne.symm hc]
  · simp [his.mem_iff, hb']
  · intro j hj
    simp [his.mem_iff, hj]
  · exact his.nodup_iff.mpr (List.nodup_cons.mpr ⟨hnot, h.nodup b⟩)

theorem addBlock (h : f.Owned) : f.addBlock.Owned :=
  h.congr (listing_addBlock f) fun _ => rfl

theorem withoutBlock (h : f.Owned) (hb : f.listing b = []) : (f.withoutBlock b).Owned := by
  refine h.congr ?_ fun _ => rfl
  intro c
  simp only [listing, block?_withoutBlock]
  split
  · next hc =>
    subst hc
    exact hb.symm
  · rfl

end Owned

theorem instruction?_addInstruction (f : Function) (operation : Encoding) (j : InsnId) :
    (f.addInstruction operation).instruction? j =
      if j = f.nextInstruction then some { operation } else f.instruction? j := by
  simp only [addInstruction, instruction?, Arena.get?_push, nextInstruction, ← InsnId.index_inj]

theorem instruction?_nextInstruction (f : Function) :
    f.instruction? f.nextInstruction = none := by
  cases h : f.instruction? f.nextInstruction with
  | none => rfl
  | some insn =>
    have hlt : f.instructions.size < f.instructions.size := Arena.lt_size_of_get? h
    omega

theorem Owned.nextInstruction_notMem (h : f.Owned) (b : BlockId) :
    f.nextInstruction ∉ f.listing b := by
  intro hmem
  obtain ⟨insn, hi, -⟩ := h.exists_of_mem hmem
  rw [instruction?_nextInstruction] at hi
  cases hi

theorem Owned.addInstruction (h : f.Owned) (operation : Encoding) :
    (f.addInstruction operation).Owned := by
  refine h.congr (fun _ => rfl) ?_
  intro j
  simp only [homeOf, instruction?_addInstruction]
  split
  · next hj => simp [hj, instruction?_nextInstruction]
  · rfl

def withoutInstruction (f : Function) (i : InsnId) : Function :=
  { f with instructions := f.instructions.erase i.index }

theorem instruction?_withoutInstruction (f : Function) (i j : InsnId) :
    (f.withoutInstruction i).instruction? j = if j = i then none else f.instruction? j := by
  simp only [withoutInstruction, instruction?, Arena.get?_erase, InsnId.index_inj, eq_comm]

theorem Owned.withoutInstruction (h : f.Owned) (hi : f.homeOf i = none) :
    (f.withoutInstruction i).Owned := by
  refine h.congr (fun _ => rfl) ?_
  intro j
  simp only [homeOf, instruction?_withoutInstruction]
  split
  · next hj =>
    subst hj
    exact hi.symm
  · rfl

theorem instruction?_forgetTarget (f : Function) (b : BlockId) (j : InsnId) :
    (f.forgetTarget b).instruction? j = (f.instruction? j).map fun insn =>
      if insn.block.isNone then insn.redirect b none else insn := by
  simp only [forgetTarget, instruction?, Arena.get?_map]

theorem Owned.forgetTarget (h : f.Owned) (b : BlockId) : (f.forgetTarget b).Owned := by
  refine h.congr (fun _ => rfl) ?_
  intro j
  simp only [homeOf, instruction?_forgetTarget]
  cases f.instruction? j with
  | none => rfl
  | some insn =>
    simp only [Option.map_some, Option.bind_some]
    split
    · exact Instruction.block_redirect ..
    · rfl

/-- Every block is stored under its own number, and the order lists the live blocks by age. -/
structure Numbered (f : Function) : Prop where
  ids : ∀ b block, f.block? b = some block → block.id = b
  mem_order : ∀ b, b ∈ f.order ↔ f.isLive b = true
  sorted : f.order.Pairwise fun a b => a.index < b.index

namespace Numbered

theorem sameBlocks (h : f.Numbered) (hs : SameBlocks f f') : f'.Numbered where
  ids b block hb := by
    have hid := hs.ids b
    rw [hb, Option.map_some] at hid
    obtain ⟨block', hb', hid'⟩ := Option.map_eq_some_iff.mp hid.symm
    exact hid'.symm.trans (h.ids b block' hb')
  mem_order b := by rw [hs.order, hs.live]; exact h.mem_order b
  sorted := hs.order ▸ h.sorted

theorem addBlock (h : f.Numbered) : f.addBlock.Numbered where
  ids b block hb := by
    rw [block?_addBlock] at hb
    split at hb
    · next hn =>
      cases hb
      exact hn.symm
    · exact h.ids b block hb
  mem_order b := by
    rw [isLive_addBlock]
    simp only [Function.addBlock, List.mem_append, List.mem_singleton, h.mem_order b,
      Bool.or_eq_true, decide_eq_true_eq, or_comm]
  sorted := by
    refine List.pairwise_append.mpr ⟨h.sorted, by simp, ?_⟩
    intro a ha b hb
    obtain rfl := List.mem_singleton.mp hb
    obtain ⟨block, hblock⟩ := isLive_iff.mp ((h.mem_order a).mp ha)
    exact Arena.lt_size_of_get? hblock

theorem withoutBlock (h : f.Numbered) (b : BlockId) : (f.withoutBlock b).Numbered where
  ids c block hc := by
    rw [block?_withoutBlock] at hc
    split at hc
    · cases hc
    · exact h.ids c block hc
  mem_order c := by
    rw [isLive_withoutBlock, ← h.mem_order c]
    simp [Function.withoutBlock, and_comm]
  sorted := h.sorted.filter _

theorem nodup_order (h : f.Numbered) : f.order.Nodup :=
  h.sorted.imp fun hab heq => by simp [heq] at hab

end Numbered

theorem numbered_empty : empty.Numbered := by
  have hblock : ∀ b, ({} : Function).block? b = none := by
    intro b
    simp [block?, Arena.get?]
  have h : ({} : Function).Numbered := by
    refine ⟨?_, ?_, .nil⟩
    · intro b block hb
      rw [hblock] at hb
      cases hb
    · intro b
      simp [isLive, hblock]
  exact h.addBlock.addBlock

end Function

end FlowGraph
