import FlowGraph.Proofs.Graph.Accounting
import Mathlib.Data.List.Basic

/-!
# Destroying a block

A destroyed block takes its instructions with it. Whatever a fall-through or a listed branch had
sent there is sent on to the heir of the block, one predecessor in each round. Rounds only ever send
on, so sending everything on gives the same before and after a round; when no edge to the block is
left, everything has been sent on already.
-/

namespace FlowGraph

set_option autoImplicit false

/-- Where control goes instead of `b`. -/
def sendOn (b : BlockId) (next target : Option BlockId) : Option BlockId :=
  if target = some b then next else target

namespace Instruction

/-- A listed branch to `b` leads on to `next`; every other instruction stays as it is. -/
def sendOn (insn : Instruction) (b : BlockId) (next : Option BlockId) : Instruction :=
  if insn.block = none then insn else insn.redirect b next

/-- What is left of an instruction when `b` is destroyed and `next` is its heir. -/
def outlive (insn : Instruction) (b : BlockId) (next : Option BlockId) : Option Instruction :=
  if insn.block = some b then none
  else if insn.block = none then some (insn.redirect b none)
  else some (insn.redirect b next)

theorem sendOn_redirect {insn : Instruction} {c : BlockId} (h : insn.block = some c) (b : BlockId)
    (next : Option BlockId) : (insn.redirect b next).sendOn b next = insn.sendOn b next := by
  rw [sendOn, sendOn, block_redirect, redirect_redirect, h]
  rfl

end Instruction

namespace Function

variable {f f' : Function} {R R' : EdgeRule} {b c s t x : BlockId} {i : InsnId}
  {next : Option BlockId}

namespace Balanced

theorem congr (h : Balanced f R) (hs : ∀ b, f'.successorsOf b = f.successorsOf b)
    (hp : ∀ b, f'.predecessorsOf b = f.predecessorsOf b)
    (hf : ∀ b, f'.fallThroughOf b = f.fallThroughOf b) (hl : ∀ b, f'.listing b = f.listing b)
    (hi : ∀ b, ∀ i ∈ f.listing b, f'.instruction? i = f.instruction? i)
    (ho : f'.Owned) (hn : f'.Numbered) : Balanced f' R := by
  refine ⟨h.symmetric.congr hs hp, ho, hn, ?_⟩
  intro x y
  have hbranch : f'.branchCount x y = f.branchCount x y :=
    branchCount_congr (hl x) fun i hmem => by simp only [leadsTo, hi x i hmem]
  rw [edgeCount, hs, drivenCount, hf, hbranch]
  exact h.rule x y

theorem addBlock (h : Balanced f R) : Balanced f.addBlock R :=
  h.congr (successorsOf_addBlock f) (predecessorsOf_addBlock f) (fallThroughOf_addBlock f)
    (listing_addBlock f) (fun _ _ _ => rfl) h.owned.addBlock h.numbered.addBlock

theorem sameContents (h : Balanced f R) (hb : f'.blocks = f.blocks) (ho : f'.order = f.order)
    (hi : f'.instructions = f.instructions) : Balanced f' R := by
  obtain ⟨blocks, order, instructions, registers, registerTable, dominators, postDominators⟩ := f'
  subst hb ho hi
  exact h.congr (fun _ => rfl) (fun _ => rfl) (fun _ => rfl) (fun _ => rfl) (fun _ _ _ => rfl)
    (h.owned.congr (fun _ => rfl) fun _ => rfl)
    ⟨h.numbered.ids, h.numbered.mem_order, h.numbered.sorted⟩

theorem addInstruction (h : Balanced f R) (operation : Encoding) :
    Balanced (f.addInstruction operation) R := by
  refine h.congr (fun _ => rfl) (fun _ => rfl) (fun _ => rfl) (fun _ => rfl) ?_
    (h.owned.addInstruction operation) ⟨h.numbered.ids, h.numbered.mem_order, h.numbered.sorted⟩
  intro b i hmem
  rw [instruction?_addInstruction, if_neg]
  rintro rfl
  exact h.owned.nextInstruction_notMem b hmem

theorem withoutInstruction (h : Balanced f R) (hi : f.homeOf i = none) :
    Balanced (f.withoutInstruction i) R := by
  refine h.congr (fun _ => rfl) (fun _ => rfl) (fun _ => rfl) (fun _ => rfl) ?_
    (h.owned.withoutInstruction hi) ⟨h.numbered.ids, h.numbered.mem_order, h.numbered.sorted⟩
  intro b j hmem
  rw [instruction?_withoutInstruction, if_neg]
  rintro rfl
  have hhome := (h.owned.mem_iff b j).mp hmem
  rw [hi] at hhome
  cases hhome

theorem forgetTarget (h : Balanced f R) (b : BlockId) : Balanced (f.forgetTarget b) R := by
  refine h.congr (fun _ => rfl) (fun _ => rfl) (fun _ => rfl) (fun _ => rfl) ?_
    (h.owned.forgetTarget b) ⟨h.numbered.ids, h.numbered.mem_order, h.numbered.sorted⟩
  intro c i hmem
  obtain ⟨insn, hi, hb⟩ := h.owned.exists_of_mem hmem
  rw [instruction?_forgetTarget, hi]
  simp [hb]

theorem withEdge (h : Balanced f R) (hs : f.isLive s = true) (ht : f.isLive t = true)
    (hR' : ∀ x y d e, R x y d e → R' x y d (e + if x = s ∧ y = t then 1 else 0)) :
    Balanced (f.withEdge s t) R' := by
  have hsame := SameBodies.withEdge f s t
  refine ⟨h.symmetric.withEdge hs ht, h.owned.sameBodies hsame,
    h.numbered.sameBlocks hsame.toSameBlocks, ?_⟩
  intro x y
  rw [edgeCount_withEdge hs, drivenCount_sameBodies hsame]
  exact hR' x y _ _ (h.rule x y)

theorem withoutEdge (h : Balanced f R)
    (hR' : ∀ x y, R' x y (f.drivenCount x y) (f.edgeCount x y - if x = s ∧ y = t then 1 else 0)) :
    Balanced (f.withoutEdge s t) R' := by
  have hsame := SameBodies.withoutEdge f s t
  refine ⟨h.symmetric.withoutEdge, h.owned.sameBodies hsame,
    h.numbered.sameBlocks hsame.toSameBlocks, ?_⟩
  intro x y
  rw [edgeCount_withoutEdge, drivenCount_sameBodies hsame]
  exact hR' x y

theorem withoutBlock (h : Balanced f R) (hzero : ∀ y, R b y 0 0) (hl : f.listing b = [])
    (hp : f.predecessorsOf b = []) (hs : f.successorsOf b = []) :
    Balanced (f.withoutBlock b) R := by
  refine ⟨h.symmetric.withoutBlock hp hs, h.owned.withoutBlock hl, h.numbered.withoutBlock b, ?_⟩
  intro x y
  have hblock : (f.withoutBlock b).block? x = if x = b then none else f.block? x :=
    block?_withoutBlock f b x
  unfold drivenCount branchCount fallThroughOf instructionsOf edgeCount successorsOf
  rw [hblock]
  by_cases hx : x = b
  · subst hx
    simpa using hzero y
  · rw [if_neg hx]
    exact h.rule x y

theorem delete (h : Balanced f R) (hR : Steady R) (hd : f.delete i = .ok f') :
    Balanced f' R ∧ Becomes f f' f.fallThroughOf (fun b => (f.listing b).erase i) fun j =>
      if j = i then none else f.instruction? j := by
  obtain ⟨f₁, h₁, hd⟩ := bind_eq_ok_iff.mp hd
  cases hd
  obtain ⟨insn, hi, hbal, hbec⟩ := h.detach hR h₁
  have hhome : f₁.homeOf i = none := by simp [homeOf, hbec.instruction]
  refine ⟨hbal.withoutInstruction hhome, ?_⟩
  refine ⟨⟨hbec.live, hbec.ids, hbec.order, hbec.registers, hbec.size⟩, hbec.fallThrough,
    hbec.listing, ?_⟩
  intro j
  refine (instruction?_withoutInstruction f₁ i j).trans ?_
  split
  · rfl
  · next hj => rw [hbec.instruction, if_neg hj]

/-- No other block lists an instruction of `b`, so the other lists stay as they are. -/
theorem deleteAll (h : Balanced f R) (hR : Steady R) {is : List InsnId} (hl : f.listing b = is)
    (hd : deleteAll is f = .ok f') :
    Balanced f' R ∧ Becomes f f' f.fallThroughOf (fun c => if c = b then [] else f.listing c)
      fun i => if i ∈ is then none else f.instruction? i := by
  induction is generalizing f with
  | nil =>
    cases hd
    refine ⟨h, .refl _, fun _ => rfl, ?_, fun _ => (if_neg List.not_mem_nil).symm⟩
    intro c
    split
    · next hc => rw [hc, hl]
    · rfl
  | cons i is ih =>
    obtain ⟨f₁, h₁, hd⟩ := bind_eq_ok_iff.mp hd
    obtain ⟨hbal₁, hbec₁⟩ := h.delete hR h₁
    have hl₁ : f₁.listing b = is := by rw [hbec₁.listing, hl, List.erase_cons_head]
    obtain ⟨hbal₂, hbec₂⟩ := ih hbal₁ hl₁ hd
    refine ⟨hbal₂, hbec₁.toSameBlocks.trans hbec₂.toSameBlocks,
      fun c => (hbec₂.fallThrough c).trans (hbec₁.fallThrough c), ?_, ?_⟩
    · intro c
      rw [hbec₂.listing, hbec₁.listing]
      split
      · rfl
      · next hc =>
        obtain ⟨insn, hi, hb⟩ := h.owned.exists_of_mem (hl ▸ List.mem_cons_self : i ∈ f.listing b)
        exact List.erase_of_not_mem (h.owned.notMem_listing hi (by simp [hb, Ne.symm hc]))
    · intro j
      rw [hbec₂.instruction, hbec₁.instruction]
      by_cases hji : j = i
      · simp [hji]
      · simp [hji]

end Balanced

/-- The block that takes over what led to `b`: its fall-through, unless `b` fell into itself. -/
def heir (f : Function) (b : BlockId) : Option BlockId := (f.fallThroughOf b).filter (· ≠ b)

/-- `f'` is `f` without what `b` held and without the targets of detached branches to `b`. -/
def Cleared (f : Function) (b : BlockId) (f' : Function) : Prop :=
  Becomes f f' (fun c => if c = b then none else f.fallThroughOf c)
    (fun c => if c = b then [] else f.listing c) fun i =>
      (f.instruction? i).bind fun insn => if insn.block = some b then none
        else some (if insn.block = none then insn.redirect b none else insn)

theorem heir_ne (f : Function) (b : BlockId) : f.heir b ≠ some b := by
  simp [heir, Option.filter_eq_some_iff]

theorem heir_eq (f : Function) (b : BlockId) :
    f.heir b = if f.fallThroughOf b = some b then none else f.fallThroughOf b := by
  unfold heir
  cases f.fallThroughOf b with
  | none => rfl
  | some t => by_cases ht : t = b <;> simp [ht]

namespace Balanced

theorem clearBlock (h : Balanced f R) (hR : Steady R) {r : Option BlockId × Function}
    (hc : f.clearBlock b = .ok r) :
    Balanced r.2 R ∧ r.1 = f.heir b ∧ f.Cleared b r.2 := by
  obtain ⟨block, hb, hc⟩ := bind_eq_ok_iff.mp hc
  obtain ⟨f₁, h₁, hc⟩ := bind_eq_ok_iff.mp hc
  obtain ⟨block₁, hb₁, hc⟩ := bind_eq_ok_iff.mp hc
  obtain ⟨f₂, h₂, hc⟩ := bind_eq_ok_iff.mp hc
  cases hc
  have hlist := (views_of_block? (block_eq_ok.mp hb)).2.2.2
  obtain ⟨hbal₁, hbec₁⟩ := h.deleteAll hR hlist h₁
  obtain ⟨hbal₂, hbec₂⟩ := (hbal₁.forgetTarget b).setFallThrough hR h₂
  have hfall : block₁.fallThrough = f.fallThroughOf b := by
    rw [← (views_of_block? (block_eq_ok.mp hb₁)).2.2.1]
    exact hbec₁.fallThrough b
  have hsame : SameBlocks f₁ (f₁.forgetTarget b) := ⟨fun _ => rfl, fun _ => rfl, rfl, rfl, rfl⟩
  refine ⟨hbal₂, ?_, (hbec₁.toSameBlocks.trans hsame).trans hbec₂.toSameBlocks, ?_, ?_, ?_⟩
  · simp only [hfall, heir_eq]
  · intro c
    rw [hbec₂.fallThrough]
    exact congrArg (ite (c = b) none) (hbec₁.fallThrough c)
  · intro c
    exact (hbec₂.listing c).trans (hbec₁.listing c)
  · intro i
    rw [hbec₂.instruction, instruction?_forgetTarget, hbec₁.instruction, ← hlist]
    cases hi : f.instruction? i with
    | none => simp
    | some insn =>
      have hmem : i ∈ f.listing b ↔ insn.block = some b := by
        rw [h.owned.mem_iff, homeOf, hi, Option.bind_some]
      by_cases hbl : insn.block = some b
      · simp [hmem, hbl]
      · simp [hmem, hbl]

end Balanced

theorem countP_redirect (insns : List Instruction) (b x : BlockId) (next : Option BlockId) :
    (insns.map (·.redirect b next)).countP (·.operation.targets x) +
        (if x = b then insns.countP (·.operation.targets b) else 0) =
      insns.countP (·.operation.targets x) +
        if next = some x then insns.countP (·.operation.targets b) else 0 := by
  induction insns with
  | nil => simp
  | cons insn insns ih =>
    have htarget : (insn.redirect b next).operation.target? =
        if insn.operation.target? = some b then next else insn.operation.target? :=
      Instruction.target?_redirect insn b next
    simp only [List.map_cons, List.countP_cons, Encoding.targets, htarget, beq_iff_eq] at ih ⊢
    by_cases hb : insn.operation.target? = some b
    · by_cases hx : x = b <;> by_cases hn : next = some x <;> grind
    · by_cases hx : x = b <;> by_cases hn : next = some x <;> grind

/-- If all that `c` sends to `b` is sent on to `next`, the driven edges follow. -/
theorem drivenCount_of_sentOn (hfall : f'.fallThroughOf c = sendOn b next (f.fallThroughOf c))
    (hinsns : f'.instructionsOf c = (f.instructionsOf c).map (·.redirect b next)) (x : BlockId) :
    f'.drivenCount c x + (if x = b then f.drivenCount c b else 0) =
      f.drivenCount c x + if next = some x then f.drivenCount c b else 0 := by
  have hbranches := countP_redirect (f.instructionsOf c) b x next
  have hfalls : (if f'.fallThroughOf c = some x then 1 else 0) +
        (if x = b then if f.fallThroughOf c = some b then 1 else 0 else 0) =
      (if f.fallThroughOf c = some x then 1 else 0) +
        if next = some x then if f.fallThroughOf c = some b then 1 else 0 else 0 := by
    rw [hfall, sendOn]
    grind
  unfold drivenCount branchCount
  rw [hinsns]
  by_cases hx : x = b <;> by_cases hn : next = some x <;> grind

/-- `f'` is `f` but for its edges and for some of the fall-throughs and listed branches to `b`,
which lead to `next`. -/
structure SendsOn (b : BlockId) (next : Option BlockId) (f f' : Function) : Prop
    extends SameBlocks f f' where
  fallThrough : ∀ c, sendOn b next (f'.fallThroughOf c) = sendOn b next (f.fallThroughOf c)
  listing : ∀ c, f'.listing c = f.listing c
  instruction : ∀ i, (f'.instruction? i).map (·.sendOn b next) =
    (f.instruction? i).map (·.sendOn b next)

namespace SendsOn

theorem refl (f : Function) : SendsOn b next f f :=
  ⟨.refl f, fun _ => rfl, fun _ => rfl, fun _ => rfl⟩

theorem trans {f'' : Function} (h : SendsOn b next f f') (h' : SendsOn b next f' f'') :
    SendsOn b next f f'' where
  toSameBlocks := h.toSameBlocks.trans h'.toSameBlocks
  fallThrough c := (h'.fallThrough c).trans (h.fallThrough c)
  listing c := (h'.listing c).trans (h.listing c)
  instruction i := (h'.instruction i).trans (h.instruction i)

theorem sameBodies (h : SameBodies f f') : SendsOn b next f f' where
  toSameBlocks := h.toSameBlocks
  fallThrough c := by rw [h.fallThrough]
  listing := h.listing
  instruction i := by rw [h.instruction?]

/-- When nothing drives an edge to `b` any more, everything has been sent on. -/
theorem becomes (h : SendsOn b next f f') (ho : f'.Owned) (hd : ∀ c, f'.drivenCount c b = 0) :
    Becomes f f' (fun c => sendOn b next (f.fallThroughOf c)) f.listing
      fun i => (f.instruction? i).map (·.sendOn b next) := by
  refine ⟨h.toSameBlocks, ?_, h.listing, ?_⟩
  · intro c
    have hfall : f'.fallThroughOf c ≠ some b := fun heq =>
      Nat.ne_of_gt (drivenCount_pos_of_fallThrough heq) (hd c)
    have hsent := h.fallThrough c
    rwa [sendOn, if_neg hfall] at hsent
  · intro i
    rw [← h.instruction]
    cases hi : f'.instruction? i with
    | none => rfl
    | some insn =>
      rw [Option.map_some, Instruction.sendOn]
      cases hb : insn.block with
      | none => rfl
      | some c =>
        have htarget : insn.target? ≠ some b := fun heq =>
          Nat.ne_of_gt (drivenCount_pos (ho.mem_listing hi hb) hi heq) (hd c)
        rw [if_neg (Option.some_ne_none c), Instruction.redirect_of_ne htarget]

end SendsOn

namespace Balanced

theorem sendsOn_redirect (h : Balanced f R) (hR : Steady R) (hr : f.redirect s b next = .ok f') :
    SendsOn b next f f' := by
  obtain ⟨-, -, hbec⟩ := h.redirect hR hr
  refine ⟨hbec.toSameBlocks, ?_, hbec.listing, ?_⟩
  · intro c
    rw [hbec.fallThrough]
    split
    · next hc =>
      rw [hc.1, hc.2]
      simp [sendOn]
    · rfl
  · intro i
    rw [hbec.instruction]
    split
    · next hi =>
      obtain ⟨insn, hinsn, hb⟩ := h.owned.exists_of_mem hi
      rw [hinsn, Option.map_some, Option.map_some, Option.map_some,
        Instruction.sendOn_redirect hb]
    · rfl

/-- The instructions of a redirected block are sent on; those of the others stay. -/
theorem instructionsOf_redirect (h : Balanced f R) (hR : Steady R)
    (hr : f.redirect s b next = .ok f') (c : BlockId) :
    f'.instructionsOf c = if c = s then (f.instructionsOf s).map (·.redirect b next)
      else f.instructionsOf c := by
  obtain ⟨-, -, hbec⟩ := h.redirect hR hr
  rw [instructionsOf_eq, hbec.listing]
  split
  · next hc =>
    rw [hc, instructionsOf_eq, List.map_filterMap]
    refine List.filterMap_congr fun i hi => ?_
    rw [hbec.instruction, if_pos hi]
  · next hc =>
    rw [instructionsOf_eq]
    refine List.filterMap_congr fun i hi => ?_
    obtain ⟨insn, hinsn, hb⟩ := h.owned.exists_of_mem hi
    rw [hbec.instruction, if_neg (h.owned.notMem_listing hinsn (by simp [hb, hc]))]

theorem drivenCount_redirect (h : Balanced f R) (hR : Steady R)
    (hr : f.redirect s b next = .ok f') (x y : BlockId) :
    f'.drivenCount x y + (if x = s ∧ y = b then f.drivenCount s b else 0) =
      f.drivenCount x y + if x = s ∧ next = some y then f.drivenCount s b else 0 := by
  have hinsns := h.instructionsOf_redirect hR hr x
  have hfall := (h.redirect hR hr).2.2.fallThrough x
  by_cases hx : x = s
  · subst hx
    rw [if_pos rfl] at hinsns
    simp only [true_and] at hfall ⊢
    exact drivenCount_of_sentOn hfall hinsns y
  · rw [if_neg fun hc => hx hc.1] at hfall
    rw [if_neg hx] at hinsns
    rw [if_neg fun hc => hx hc.1, if_neg fun hc => hx hc.1, drivenCount, drivenCount, branchCount,
      branchCount, hfall, hinsns]

theorem drivenCount_redirect_self (h : Balanced f R) (hR : Steady R) (hb : next ≠ some b)
    (hr : f.redirect s b next = .ok f') : f'.drivenCount s b = 0 := by
  have hcount := h.drivenCount_redirect hR hr s b
  rw [if_pos ⟨rfl, rfl⟩, if_neg fun hc => hb hc.2] at hcount
  omega

/-- The rule bears it that an edge to `b` is dropped which nothing drives. -/
def Drops (R : EdgeRule) (b : BlockId) : Prop := ∀ x e, R x b 0 e → R x b 0 (e - 1)

theorem reroute (h : Balanced f R) (hR : Steady R) (hdrop : Drops R b) (hb : next ≠ some b)
    (hr : (f.reroute s b next).outcome = .ok f') : Balanced f' R ∧ SendsOn b next f f' := by
  rw [outcome_reroute] at hr
  obtain ⟨before, -, hr⟩ := bind_eq_ok_iff.mp hr
  obtain ⟨f₁, h₁, hr⟩ := bind_eq_ok_iff.mp hr
  obtain ⟨after, -, hr⟩ := bind_eq_ok_iff.mp hr
  obtain ⟨-, hbal₁, -⟩ := h.redirect hR h₁
  have hsends := h.sendsOn_redirect hR h₁
  split at hr
  · obtain ⟨-, -, rfl⟩ := dropEdge_ok hr
    refine ⟨hbal₁.withoutEdge ?_, hsends.trans (.sameBodies (.withoutEdge ..))⟩
    intro x y
    have hxy := hbal₁.rule x y
    split
    · next hsb =>
      obtain ⟨rfl, rfl⟩ := hsb
      rw [h.drivenCount_redirect_self hR hb h₁] at hxy ⊢
      exact hdrop x _ hxy
    · exact hxy
  · cases hr
    exact ⟨hbal₁, hsends⟩

theorem rerouteAll (rounds : Nat) (h : Balanced f R) (hR : Steady R) (hdrop : Drops R b)
    (hb : next ≠ some b) (hr : (rerouteAll b next rounds f).outcome = .ok f') :
    Balanced f' R ∧ SendsOn b next f f' := by
  induction rounds generalizing f with
  | zero =>
    cases hr
    exact ⟨h, .refl _⟩
  | succ rounds ih =>
    rw [outcome_rerouteAll_succ] at hr
    obtain ⟨block, -, hr⟩ := bind_eq_ok_iff.mp hr
    cases hp : block.predecessors with
    | nil =>
      rw [hp] at hr
      cases hr
      exact ⟨h, .refl _⟩
    | cons source rest =>
      rw [hp] at hr
      obtain ⟨f₁, h₁, hr⟩ := bind_eq_ok_iff.mp hr
      obtain ⟨hbal₁, hsends₁⟩ := h.reroute hR hdrop hb h₁
      obtain ⟨hbal₂, hsends₂⟩ := ih hbal₁ hr
      exact ⟨hbal₂, hsends₁.trans hsends₂⟩

/-- The block is cleared, its predecessors are sent on, and then nothing is left at it. -/
theorem destroy_stages (h : Balanced f R) (hR : Steady R) (hdrop : Drops R b)
    (hd : (f.destroy b).outcome = .ok f') : ∃ f₁ f₂, f.Cleared b f₁ ∧
      SendsOn b (f.heir b) f₁ f₂ ∧ Balanced f₂ R ∧ f₂.predecessorsOf b = [] ∧
      f₂.successorsOf b = [] ∧ f' = f₂.withoutBlock b := by
  rw [outcome_destroy] at hd
  obtain ⟨⟨next, f₁⟩, h₁, hd⟩ := bind_eq_ok_iff.mp hd
  obtain ⟨block, -, hd⟩ := bind_eq_ok_iff.mp hd
  obtain ⟨f₂, h₂, hd⟩ := bind_eq_ok_iff.mp hd
  obtain ⟨hp, hs, rfl⟩ := forgetBlock_ok hd
  obtain ⟨hbal₁, rfl, hcleared⟩ := h.clearBlock hR h₁
  obtain ⟨hbal₂, hsends⟩ := hbal₁.rerouteAll _ hR hdrop (heir_ne f b) h₂
  exact ⟨f₁, f₂, hcleared, hsends, hbal₂, hp, hs, rfl⟩

theorem destroy (h : Balanced f R) (hR : Steady R) (hdrop : Drops R b) (hzero : ∀ y, R b y 0 0)
    (hd : (f.destroy b).outcome = .ok f') : Balanced f' R := by
  obtain ⟨f₁, f₂, hcleared, hsends, hbal₂, hp, hs, rfl⟩ := h.destroy_stages hR hdrop hd
  refine hbal₂.withoutBlock hzero ?_ hp hs
  rw [hsends.listing, hcleared.listing, if_pos rfl]

end Balanced

/-- `f'` is `f` after `b` has been destroyed. -/
structure Destroyed (f : Function) (b : BlockId) (f' : Function) : Prop where
  live : ∀ c, f'.isLive c = true ↔ c ≠ b ∧ f.isLive c = true
  order : f'.order = f.order.filter (· ≠ b)
  registers : f'.registers = f.registers
  fallThrough : ∀ c, c ≠ b → f'.fallThroughOf c = sendOn b (f.heir b) (f.fallThroughOf c)
  listing : ∀ c, c ≠ b → f'.listing c = f.listing c
  instruction : ∀ i, f'.instruction? i = (f.instruction? i).bind (·.outlive b (f.heir b))

/-- A rule that counts enough edges to `b` tells in the end that nothing drives an edge to it. -/
theorem Balanced.destroyed (h : Balanced f R) (hR : Steady R) (hdrop : Balanced.Drops R b)
    (henough : ∀ x d, R x b d 0 → d = 0) (hd : (f.destroy b).outcome = .ok f') :
    Destroyed f b f' := by
  obtain ⟨f₁, f₂, hcleared, hsends, hbal₂, hp, hs, rfl⟩ := h.destroy_stages hR hdrop hd
  have hnone : ∀ c, f₂.drivenCount c b = 0 := by
    intro c
    have hcb := hbal₂.rule c b
    rw [edgeCount, hbal₂.symmetric, hp] at hcb
    exact henough c _ hcb
  have hbec := hsends.becomes hbal₂.owned hnone
  refine ⟨?_, ?_, hbec.registers.trans hcleared.registers, ?_, ?_, ?_⟩
  · intro c
    rw [isLive_withoutBlock, hbec.live, hcleared.live]
  · change f₂.order.filter _ = _
    rw [hbec.order, hcleared.order]
  · intro c hc
    have hkeep : (f₂.withoutBlock b).fallThroughOf c = f₂.fallThroughOf c := by
      simp only [fallThroughOf, block?_withoutBlock, if_neg hc]
    rw [hkeep, hbec.fallThrough, hcleared.fallThrough, if_neg hc]
  · intro c hc
    have hkeep : (f₂.withoutBlock b).listing c = f₂.listing c := by
      simp only [Function.listing, block?_withoutBlock, if_neg hc]
    rw [hkeep, hbec.listing, hcleared.listing, if_neg hc]
  · intro i
    change f₂.instruction? i = _
    rw [hbec.instruction, hcleared.instruction]
    cases f.instruction? i with
    | none => rfl
    | some insn =>
      rw [Option.bind_some, Option.bind_some, Instruction.outlive]
      split
      · rfl
      · by_cases hb : insn.block = none
        · simp [hb, Instruction.sendOn, Instruction.block_redirect]
        · simp [hb, Instruction.sendOn]

namespace Destroyed

/-- The instructions of the other blocks stay in place, and those that led to `b` are sent on. -/
theorem instructionsOf (h : Destroyed f b f') (ho : f.Owned) (hc : c ≠ b) :
    f'.instructionsOf c = (f.instructionsOf c).map (·.redirect b (f.heir b)) := by
  rw [instructionsOf_eq, instructionsOf_eq, h.listing c hc, List.map_filterMap]
  refine List.filterMap_congr fun i hi => ?_
  obtain ⟨insn, hinsn, hb⟩ := ho.exists_of_mem hi
  rw [h.instruction, hinsn, Option.bind_some, Option.map_some, Instruction.outlive, if_neg, if_neg]
  · simp [hb]
  · simp [hb, hc]

theorem drivenCount (h : Destroyed f b f') (ho : f.Owned) (hc : c ≠ b) (hx : x ≠ b) :
    f'.drivenCount c x =
      f.drivenCount c x + if f.heir b = some x then f.drivenCount c b else 0 := by
  have hsent := drivenCount_of_sentOn (h.fallThrough c hc) (h.instructionsOf ho hc) x
  rwa [if_neg hx, Nat.add_zero] at hsent

end Destroyed

end Function

end FlowGraph
