import FlowGraph.Function.Edit
import FlowGraph.Proofs.Outcome

/-!
# Views of a graph

What a function says about one block, with empty answers for dead blocks: the successors, the
predecessors, the fall-through and the listed instructions. Every change of a block is a total
update `modifyBlock`, and every change of the edges is `withEdge` or `withoutEdge`; this module says
what the updates do to the views and that the operations are these updates. Whatever drives an edge
of its own, a fall-through or a listed branch, moves it by `switchEdge`.
-/

namespace FlowGraph

set_option autoImplicit false

theorem BlockId.index_inj {a b : BlockId} : a.index = b.index ↔ a = b := by
  cases a
  cases b
  simp

theorem InsnId.index_inj {i j : InsnId} : i.index = j.index ↔ i = j := by
  cases i
  cases j
  simp

namespace Function

variable {f f' : Function} {a b c : BlockId}

def successorsOf (f : Function) (b : BlockId) : List BlockId :=
  ((f.block? b).map Block.successors).getD []

def predecessorsOf (f : Function) (b : BlockId) : List BlockId :=
  ((f.block? b).map Block.predecessors).getD []

def fallThroughOf (f : Function) (b : BlockId) : Option BlockId :=
  ((f.block? b).map Block.fallThrough).getD none

def listing (f : Function) (b : BlockId) : List InsnId :=
  ((f.block? b).map Block.instructions).getD []

def edgeCount (f : Function) (a b : BlockId) : Nat := (f.successorsOf a).count b

theorem isLive_iff : f.isLive b = true ↔ ∃ block, f.block? b = some block :=
  Option.isSome_iff_exists

theorem isLive_of_block? {block : Block} (h : f.block? b = some block) : f.isLive b = true :=
  isLive_iff.mpr ⟨block, h⟩

theorem block?_eq_none (h : f.isLive b = false) : f.block? b = none := by
  simpa [isLive] using h

theorem block_eq_ok {block : Block} : f.block b = .ok block ↔ f.block? b = some block := by
  unfold Function.block
  cases f.block? b <;> simp

theorem block_eq_error (h : f.isLive b = false) : f.block b = .error (.deadBlock b) := by
  unfold Function.block
  rw [block?_eq_none h]

theorem views_of_block? {block : Block} (h : f.block? b = some block) :
    f.successorsOf b = block.successors ∧ f.predecessorsOf b = block.predecessors ∧
      f.fallThroughOf b = block.fallThrough ∧ f.listing b = block.instructions := by
  simp [successorsOf, predecessorsOf, fallThroughOf, listing, h]

theorem isLive_of_view {α : Type} {p : Block → α} {d : α}
    (h : ((f.block? b).map p).getD d ≠ d) : f.isLive b = true := by
  cases hb : f.block? b with
  | some block => exact isLive_of_block? hb
  | none => simp [hb] at h

theorem isLive_of_mem_successorsOf (h : c ∈ f.successorsOf b) : f.isLive b = true :=
  isLive_of_view (List.ne_nil_of_mem h)

theorem isLive_of_mem_predecessorsOf (h : c ∈ f.predecessorsOf b) : f.isLive b = true :=
  isLive_of_view (List.ne_nil_of_mem h)

theorem isLive_of_mem_listing {i : InsnId} (h : i ∈ f.listing b) : f.isLive b = true :=
  isLive_of_view (List.ne_nil_of_mem h)

theorem instructionsOf_eq (f : Function) (b : BlockId) :
    f.instructionsOf b = (f.listing b).filterMap f.instruction? := by
  unfold instructionsOf listing
  cases f.block? b <;> simp

theorem isLive_of_mem_instructionsOf {insn : Instruction} (h : insn ∈ f.instructionsOf b) :
    f.isLive b = true := by
  rw [instructionsOf_eq] at h
  obtain ⟨i, hi, _⟩ := List.mem_filterMap.mp h
  exact isLive_of_mem_listing hi

def modifyBlock (f : Function) (b : BlockId) (g : Block → Block) : Function :=
  match f.block? b with
  | some block => { f with blocks := f.blocks.set b.index (g block) }
  | none => f

section modifyBlock

variable (f) (b) (g : Block → Block)

theorem block?_modifyBlock (c : BlockId) :
    (f.modifyBlock b g).block? c = if c = b then (f.block? b).map g else f.block? c := by
  cases hb : f.block? b with
  | none =>
    by_cases h : c = b
    · simp [modifyBlock, hb, h]
    · simp [modifyBlock, hb, h]
  | some block =>
    have hlt : b.index < f.blocks.size := Arena.lt_size_of_get? hb
    simp only [modifyBlock, hb]
    simp only [block?, Arena.get?_set, hlt, and_true, BlockId.index_inj, Option.map_some]
    simp only [eq_comm]

@[simp] theorem isLive_modifyBlock (c : BlockId) : (f.modifyBlock b g).isLive c = f.isLive c := by
  simp only [isLive, block?_modifyBlock]
  split
  · next h => simp [h]
  · rfl

@[simp] theorem order_modifyBlock : (f.modifyBlock b g).order = f.order := by
  unfold modifyBlock
  split <;> rfl

@[simp] theorem instructions_modifyBlock : (f.modifyBlock b g).instructions = f.instructions := by
  unfold modifyBlock
  split <;> rfl

@[simp] theorem registers_modifyBlock : (f.modifyBlock b g).registers = f.registers := by
  unfold modifyBlock
  split <;> rfl

@[simp] theorem registerTable_modifyBlock :
    (f.modifyBlock b g).registerTable = f.registerTable := by
  unfold modifyBlock
  split <;> rfl

@[simp] theorem size_blocks_modifyBlock : (f.modifyBlock b g).blocks.size = f.blocks.size := by
  unfold modifyBlock
  split <;> simp

@[simp] theorem instruction?_modifyBlock (i : InsnId) :
    (f.modifyBlock b g).instruction? i = f.instruction? i := by
  simp [instruction?]

/-- An update leaves alone whatever part `p` of the block it keeps. -/
theorem map_modifyBlock {α : Type} {p : Block → α} (h : ∀ x, p (g x) = p x) (c : BlockId) :
    ((f.modifyBlock b g).block? c).map p = (f.block? c).map p := by
  rw [block?_modifyBlock]
  split
  · next hc => simp [hc, Function.comp_def, h]
  · rfl

theorem successorsOf_modifyBlock (h : ∀ x, (g x).successors = x.successors) (c : BlockId) :
    (f.modifyBlock b g).successorsOf c = f.successorsOf c := by
  simp only [successorsOf, map_modifyBlock f b g h]

theorem predecessorsOf_modifyBlock (h : ∀ x, (g x).predecessors = x.predecessors) (c : BlockId) :
    (f.modifyBlock b g).predecessorsOf c = f.predecessorsOf c := by
  simp only [predecessorsOf, map_modifyBlock f b g h]

theorem fallThroughOf_modifyBlock (h : ∀ x, (g x).fallThrough = x.fallThrough) (c : BlockId) :
    (f.modifyBlock b g).fallThroughOf c = f.fallThroughOf c := by
  simp only [fallThroughOf, map_modifyBlock f b g h]

theorem listing_modifyBlock (h : ∀ x, (g x).instructions = x.instructions) (c : BlockId) :
    (f.modifyBlock b g).listing c = f.listing c := by
  simp only [listing, map_modifyBlock f b g h]

end modifyBlock

theorem updateBlock_eq (f : Function) (b : BlockId) (g : Block → Block) :
    f.updateBlock b g = if f.isLive b then .ok (f.modifyBlock b g) else .error (.deadBlock b) := by
  unfold updateBlock block modifyBlock isLive
  cases f.block? b <;> rfl

theorem isLive_nextBlock (f : Function) : f.isLive f.nextBlock = false := by
  cases h : f.block? f.nextBlock with
  | none => simp [isLive, h]
  | some block =>
    have hlt : f.blocks.size < f.blocks.size := Arena.lt_size_of_get? h
    omega

theorem block?_addBlock (f : Function) (c : BlockId) :
    f.addBlock.block? c = if c = f.nextBlock then some { id := f.nextBlock } else f.block? c := by
  simp only [addBlock, block?, Arena.get?_push, nextBlock, ← BlockId.index_inj]

theorem isLive_addBlock (f : Function) (c : BlockId) :
    f.addBlock.isLive c = (decide (c = f.nextBlock) || f.isLive c) := by
  simp only [isLive, block?_addBlock]
  split
  · next h => simp [h]
  · next h => simp [h]

/-- A new block says of itself what a dead one says. -/
theorem view_addBlock {α : Type} (p : Block → α) (d : α) (hp : ∀ b, p { id := b } = d)
    (f : Function) (c : BlockId) :
    ((f.addBlock.block? c).map p).getD d = ((f.block? c).map p).getD d := by
  rw [block?_addBlock]
  split
  · next h => simp [h, block?_eq_none (isLive_nextBlock f), hp]
  · rfl

@[simp] theorem successorsOf_addBlock (f : Function) (c : BlockId) :
    f.addBlock.successorsOf c = f.successorsOf c := view_addBlock _ _ (fun _ => rfl) f c

@[simp] theorem predecessorsOf_addBlock (f : Function) (c : BlockId) :
    f.addBlock.predecessorsOf c = f.predecessorsOf c := view_addBlock _ _ (fun _ => rfl) f c

@[simp] theorem fallThroughOf_addBlock (f : Function) (c : BlockId) :
    f.addBlock.fallThroughOf c = f.fallThroughOf c := view_addBlock _ _ (fun _ => rfl) f c

@[simp] theorem listing_addBlock (f : Function) (c : BlockId) :
    f.addBlock.listing c = f.listing c := view_addBlock _ _ (fun _ => rfl) f c

@[simp] theorem instructionsOf_addBlock (f : Function) (c : BlockId) :
    f.addBlock.instructionsOf c = f.instructionsOf c := by
  rw [instructionsOf_eq, instructionsOf_eq, listing_addBlock]
  rfl

def withEdge (f : Function) (source target : BlockId) : Function :=
  ((f.modifyBlock source (·.addSuccessor target)).modifyBlock target
    (·.addPredecessor source)).invalidateTrees

def withoutEdge (f : Function) (source target : BlockId) : Function :=
  ((f.modifyBlock source (·.eraseSuccessor target)).modifyBlock target
    (·.erasePredecessor source)).invalidateTrees

@[simp] theorem block?_invalidateTrees : f.invalidateTrees.block? b = f.block? b := rfl

@[simp] theorem isLive_invalidateTrees : f.invalidateTrees.isLive b = f.isLive b := rfl

section edges

variable (f) (s t : BlockId)

@[simp] theorem isLive_withEdge : (f.withEdge s t).isLive b = f.isLive b := by simp [withEdge]

@[simp] theorem isLive_withoutEdge : (f.withoutEdge s t).isLive b = f.isLive b := by
  simp [withoutEdge]

@[simp] theorem fallThroughOf_withEdge : (f.withEdge s t).fallThroughOf b = f.fallThroughOf b := by
  change ((f.modifyBlock s (·.addSuccessor t)).modifyBlock t
    (·.addPredecessor s)).fallThroughOf b = _
  rw [fallThroughOf_modifyBlock _ _ (·.addPredecessor s) fun _ => rfl,
    fallThroughOf_modifyBlock _ _ (·.addSuccessor t) fun _ => rfl]

@[simp] theorem fallThroughOf_withoutEdge :
    (f.withoutEdge s t).fallThroughOf b = f.fallThroughOf b := by
  change ((f.modifyBlock s (·.eraseSuccessor t)).modifyBlock t
    (·.erasePredecessor s)).fallThroughOf b = _
  rw [fallThroughOf_modifyBlock _ _ (·.erasePredecessor s) fun _ => rfl,
    fallThroughOf_modifyBlock _ _ (·.eraseSuccessor t) fun _ => rfl]

@[simp] theorem listing_withEdge : (f.withEdge s t).listing b = f.listing b := by
  change ((f.modifyBlock s (·.addSuccessor t)).modifyBlock t (·.addPredecessor s)).listing b = _
  rw [listing_modifyBlock _ _ (·.addPredecessor s) fun _ => rfl,
    listing_modifyBlock _ _ (·.addSuccessor t) fun _ => rfl]

@[simp] theorem listing_withoutEdge : (f.withoutEdge s t).listing b = f.listing b := by
  change ((f.modifyBlock s (·.eraseSuccessor t)).modifyBlock t (·.erasePredecessor s)).listing b = _
  rw [listing_modifyBlock _ _ (·.erasePredecessor s) fun _ => rfl,
    listing_modifyBlock _ _ (·.eraseSuccessor t) fun _ => rfl]

theorem successorsOf_withEdge (hs : f.isLive s = true) :
    (f.withEdge s t).successorsOf b =
      if b = s then f.successorsOf b ++ [t] else f.successorsOf b := by
  obtain ⟨block, hb⟩ := isLive_iff.mp hs
  change ((f.modifyBlock s (·.addSuccessor t)).modifyBlock t
    (·.addPredecessor s)).successorsOf b = _
  rw [successorsOf_modifyBlock _ _ (·.addPredecessor s) fun _ => rfl]
  simp only [successorsOf, block?_modifyBlock]
  split
  · next h => simp [h, hb, Block.addSuccessor]
  · rfl

theorem predecessorsOf_withEdge (ht : f.isLive t = true) :
    (f.withEdge s t).predecessorsOf b =
      if b = t then f.predecessorsOf b ++ [s] else f.predecessorsOf b := by
  have hkeep := predecessorsOf_modifyBlock f s (·.addSuccessor t) fun _ => rfl
  rw [← isLive_modifyBlock f s (·.addSuccessor t)] at ht
  obtain ⟨block, hb⟩ := isLive_iff.mp ht
  simp only [← hkeep]
  simp only [predecessorsOf, withEdge, block?_invalidateTrees, block?_modifyBlock _ t]
  split
  · next h => simp [h, hb, Block.addPredecessor]
  · rfl

theorem successorsOf_withoutEdge :
    (f.withoutEdge s t).successorsOf b =
      if b = s then (f.successorsOf b).erase t else f.successorsOf b := by
  change ((f.modifyBlock s (·.eraseSuccessor t)).modifyBlock t
    (·.erasePredecessor s)).successorsOf b = _
  rw [successorsOf_modifyBlock _ _ (·.erasePredecessor s) fun _ => rfl]
  simp only [successorsOf, block?_modifyBlock]
  split
  · next h => cases hb : f.block? s <;> simp [h, hb, Block.eraseSuccessor]
  · rfl

theorem predecessorsOf_withoutEdge :
    (f.withoutEdge s t).predecessorsOf b =
      if b = t then (f.predecessorsOf b).erase s else f.predecessorsOf b := by
  have hkeep := predecessorsOf_modifyBlock f s (·.eraseSuccessor t) fun _ => rfl
  simp only [← hkeep]
  simp only [predecessorsOf, withoutEdge, block?_invalidateTrees, block?_modifyBlock _ t]
  split
  · next h =>
    cases hb : (f.modifyBlock s (·.eraseSuccessor t)).block? t <;>
      simp [h, hb, Block.erasePredecessor]
  · rfl

end edges

theorem edgeCount_withEdge {s t : BlockId} (hs : f.isLive s = true) (a b : BlockId) :
    (f.withEdge s t).edgeCount a b = f.edgeCount a b + if a = s ∧ b = t then 1 else 0 := by
  simp only [edgeCount, successorsOf_withEdge f s t hs]
  by_cases ha : a = s
  · by_cases hb : b = t
    · simp [ha, hb]
    · simp [ha, hb, Ne.symm hb]
  · simp [ha]

theorem edgeCount_withoutEdge (f : Function) (s t a b : BlockId) :
    (f.withoutEdge s t).edgeCount a b = f.edgeCount a b - if a = s ∧ b = t then 1 else 0 := by
  simp only [edgeCount, successorsOf_withoutEdge]
  by_cases ha : a = s
  · simp only [ha, if_true, true_and, List.count_erase, beq_iff_eq, eq_comm (a := b)]
  · simp [ha]

theorem addEdge_eq (f : Function) (s t : BlockId) :
    f.addEdge s t =
      if f.isLive t then
        if f.isLive s then .ok (f.withEdge s t) else .error (.deadBlock s)
      else .error (.deadBlock t) := by
  unfold addEdge
  cases ht : f.isLive t with
  | false =>
    rw [block_eq_error ht]
    rfl
  | true =>
    obtain ⟨x, hx⟩ := isLive_iff.mp ht
    rw [block_eq_ok.mpr hx, ok_bind, updateBlock_eq]
    cases hs : f.isLive s with
    | false => rfl
    | true =>
      simp only [if_true, ok_bind, updateBlock_eq, isLive_modifyBlock, ht]
      rfl

theorem removeEdge_eq (f : Function) (s t : BlockId) :
    f.removeEdge s t =
      if f.isLive t then
        if f.isLive s then
          if (f.successorsOf s).contains t = (f.predecessorsOf t).contains s then
            .ok ((f.successorsOf s).contains t, f.withoutEdge s t)
          else .error (.asymmetricEdge s t)
        else .error (.deadBlock s)
      else .error (.deadBlock t) := by
  unfold removeEdge
  cases ht : f.isLive t with
  | false =>
    rw [block_eq_error ht]
    rfl
  | true =>
    obtain ⟨listed, hl⟩ := isLive_iff.mp ht
    rw [block_eq_ok.mpr hl, ok_bind]
    cases hs : f.isLive s with
    | false =>
      rw [block_eq_error hs]
      rfl
    | true =>
      obtain ⟨listing, hb⟩ := isLive_iff.mp hs
      rw [block_eq_ok.mpr hb, ok_bind, (views_of_block? hb).1, (views_of_block? hl).2.1]
      simp only [if_true, ok_bind, updateBlock_eq, isLive_modifyBlock, ht, hs]
      rfl

/-- Give up an edge of `b` and take another one; either may be missing. -/
def switchEdge (f : Function) (b : BlockId) (old new : Option BlockId) : Except Fault Function :=
  (match old with
    | some t => f.dropEdge b t
    | none => .ok f) >>= fun f =>
  match new with
  | some t => f.addEdge b t
  | none => .ok f

theorem setFallThrough_eq (f : Function) (b : BlockId) (target : Option BlockId) :
    f.setFallThrough b target = f.block b >>= fun block =>
      if block.fallThrough = target then .ok f
      else f.switchEdge b block.fallThrough target >>= fun f =>
        f.updateBlock b fun block => { block with fallThrough := target } := by
  unfold setFallThrough switchEdge
  congr 1
  funext block
  split
  · rfl
  · cases block.fallThrough with
    | none => cases target <;> rfl
    | some old =>
      simp only
      cases f.dropEdge b old <;> cases target <;> rfl

theorem detach_eq (f : Function) (i : InsnId) :
    f.detach i = f.instruction i >>= fun insn =>
      match insn.block with
      | none => .ok f
      | some b =>
        (f.updateBlock b fun block => { block with instructions := block.instructions.erase i }) >>=
          fun f =>
            (f.setInstruction i { insn with block := none }).switchEdge b insn.target? none := by
  unfold detach switchEdge
  congr 1
  funext insn
  cases insn.block with
  | none => rfl
  | some b =>
    simp only
    congr 1
    funext f
    cases insn.target? with
    | none => rfl
    | some t =>
      simp only
      cases (f.setInstruction i { insn with block := none }).dropEdge b t <;> rfl

theorem attach_eq (f : Function) (i : InsnId) (b : BlockId) :
    f.attach i b = f.instruction i >>= fun insn =>
      (f.setInstruction i { insn with block := some b }).switchEdge b none insn.target? := by
  rfl

theorem redirectBranch_eq (f : Function) (i : InsnId) (old : BlockId) (next : Option BlockId) :
    f.redirectBranch i old next = f.instruction i >>= fun insn =>
      if insn.operation.targets old then
        (match insn.block with
          | none => .ok (f.setInstruction i (insn.redirect old next))
          | some b =>
            (f.setInstruction i (insn.redirect old next)).switchEdge b (some old) next) >>=
          fun f => .ok (true, f)
      else .ok (false, f) := by
  unfold redirectBranch switchEdge
  congr 1
  funext insn
  split
  · cases insn.block with
    | none => rfl
    | some b =>
      simp only
      cases (f.setInstruction i (insn.redirect old next)).dropEdge b old with
      | error e => rfl
      | ok f₁ =>
        cases next with
        | none => rfl
        | some t => rfl
  · rfl

theorem redirect_eq (f : Function) (b old : BlockId) (next : Option BlockId) :
    f.redirect b old next = f.block b >>= fun block =>
      (if block.fallThrough = some old then f.setFallThrough b next else .ok f) >>= fun f =>
      f.block b >>= fun block =>
      f.branchesAmong block.instructions >>= fun branches =>
      redirectBranches old next branches f := by
  unfold redirect
  congr 1
  funext block
  split
  · rfl
  · rfl

def withoutBlock (f : Function) (b : BlockId) : Function :=
  { f with
    blocks := f.blocks.erase b.index
    order := f.order.filter (· ≠ b)
    dominators := f.dominators.erase b
    postDominators := f.postDominators.erase b }

theorem block?_withoutBlock (f : Function) (b c : BlockId) :
    (f.withoutBlock b).block? c = if c = b then none else f.block? c := by
  simp only [withoutBlock, block?, Arena.get?_erase, BlockId.index_inj, eq_comm]

theorem isLive_withoutBlock (f : Function) (b c : BlockId) :
    (f.withoutBlock b).isLive c = true ↔ c ≠ b ∧ f.isLive c = true := by
  rw [isLive, block?_withoutBlock, isLive]
  split
  · next hc => simp [hc]
  · next hc => simp [hc]

theorem successorsOf_withoutBlock (f : Function) (b c : BlockId) :
    (f.withoutBlock b).successorsOf c = if c = b then [] else f.successorsOf c := by
  simp only [successorsOf, block?_withoutBlock]
  split <;> rfl

theorem predecessorsOf_withoutBlock (f : Function) (b c : BlockId) :
    (f.withoutBlock b).predecessorsOf c = if c = b then [] else f.predecessorsOf c := by
  simp only [predecessorsOf, block?_withoutBlock]
  split <;> rfl

theorem forgetBlock_eq (f : Function) (b : BlockId) :
    f.forgetBlock b =
      if f.isLive b then
        if f.predecessorsOf b ≠ [] then .error .remainingPredecessors
        else if f.successorsOf b ≠ [] then .error .remainingSuccessors
        else .ok (f.withoutBlock b)
      else .error (.deadBlock b) := by
  unfold forgetBlock
  cases hb : f.isLive b with
  | false =>
    rw [block_eq_error hb]
    rfl
  | true =>
    obtain ⟨block, hx⟩ := isLive_iff.mp hb
    rw [block_eq_ok.mpr hx, ok_bind, (views_of_block? hx).1, (views_of_block? hx).2.1]
    rfl

theorem outcome_reroute (f : Function) (source b : BlockId) (next : Option BlockId) :
    (f.reroute source b next).outcome = f.block b >>= fun before =>
      f.redirect source b next >>= fun f => f.block b >>= fun after =>
      if after.predecessors.length = before.predecessors.length then f.dropEdge source b
      else .ok f := by
  unfold reroute
  simp only [Logged.outcome_bind, Logged.outcome_lift]
  congr 1
  funext before
  congr 1
  funext f
  congr 1
  funext after
  split
  · rfl
  · rfl

theorem outcome_rerouteAll_succ (b : BlockId) (next : Option BlockId) (rounds : Nat)
    (f : Function) :
    (rerouteAll b next (rounds + 1) f).outcome = f.block b >>= fun block =>
      match block.predecessors with
      | [] => .ok f
      | source :: _ => (f.reroute source b next).outcome >>= fun f =>
        (rerouteAll b next rounds f).outcome := by
  simp only [rerouteAll, Logged.outcome_bind, Logged.outcome_lift]
  congr 1
  funext block
  cases block.predecessors with
  | nil => rfl
  | cons source rest => simp only [Logged.outcome_bind]

theorem outcome_destroy (f : Function) (b : BlockId) :
    (f.destroy b).outcome = f.clearBlock b >>= fun r => r.2.block b >>= fun block =>
      (rerouteAll b r.1 block.predecessors.length r.2).outcome >>= fun f => f.forgetBlock b := by
  simp only [destroy, Logged.outcome_bind, Logged.outcome_lift, Logged.outcome_report, ok_bind]

end Function

end FlowGraph
