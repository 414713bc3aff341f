import FlowGraph.Proofs.Graph.Symmetry

/-!
# Effects

What an operation that succeeded has done, as a composition of updates. A driven edge moves by
`moveEdge`, which touches nothing but edges; the other updates change one block or one instruction
and touch no edge.
-/

namespace FlowGraph.Function

set_option autoImplicit false

variable {f f' : Function} {a b c : BlockId} {i j : InsnId} {insn : Instruction}
  {old new next target : Option BlockId}

/-- Two functions with the same blocks and registers, whatever the blocks hold. -/
structure SameBlocks (f f' : Function) : Prop where
  live : ∀ b, f'.isLive b = f.isLive b
  ids : ∀ b, (f'.block? b).map Block.id = (f.block? b).map Block.id
  order : f'.order = f.order
  registers : f'.registers = f.registers
  size : f'.blocks.size = f.blocks.size

namespace SameBlocks

theorem refl (f : Function) : SameBlocks f f := ⟨fun _ => rfl, fun _ => rfl, rfl, rfl, rfl⟩

theorem trans {f'' : Function} (h : SameBlocks f f') (h' : SameBlocks f' f'') :
    SameBlocks f f'' where
  live b := (h'.live b).trans (h.live b)
  ids b := (h'.ids b).trans (h.ids b)
  order := h'.order.trans h.order
  registers := h'.registers.trans h.registers
  size := h'.size.trans h.size

theorem modifyBlock (f : Function) (b : BlockId) {g : Block → Block} (hg : ∀ x, (g x).id = x.id) :
    SameBlocks f (f.modifyBlock b g) where
  live _ := isLive_modifyBlock ..
  ids := map_modifyBlock f b g hg
  order := order_modifyBlock ..
  registers := registers_modifyBlock ..
  size := size_blocks_modifyBlock ..

theorem setInstruction (f : Function) (i : InsnId) (insn : Instruction) :
    SameBlocks f (f.setInstruction i insn) := ⟨fun _ => rfl, fun _ => rfl, rfl, rfl, rfl⟩

theorem invalidateTrees (f : Function) : SameBlocks f f.invalidateTrees :=
  ⟨fun _ => rfl, fun _ => rfl, rfl, rfl, rfl⟩

end SameBlocks

/-- Two functions that differ in their edges and the state of their trees only. -/
structure SameBodies (f f' : Function) : Prop extends SameBlocks f f' where
  fallThrough : ∀ b, f'.fallThroughOf b = f.fallThroughOf b
  listing : ∀ b, f'.listing b = f.listing b
  instructions : f'.instructions = f.instructions

namespace SameBodies

theorem refl (f : Function) : SameBodies f f :=
  ⟨.refl f, fun _ => rfl, fun _ => rfl, rfl⟩

theorem trans {f'' : Function} (h : SameBodies f f') (h' : SameBodies f' f'') :
    SameBodies f f'' where
  toSameBlocks := h.toSameBlocks.trans h'.toSameBlocks
  fallThrough b := (h'.fallThrough b).trans (h.fallThrough b)
  listing b := (h'.listing b).trans (h.listing b)
  instructions := h'.instructions.trans h.instructions

theorem instruction? (h : SameBodies f f') (i : InsnId) : f'.instruction? i = f.instruction? i := by
  simp only [Function.instruction?, h.instructions]

theorem instructionsOf (h : SameBodies f f') (b : BlockId) :
    f'.instructionsOf b = f.instructionsOf b := by
  have hi : f'.instruction? = f.instruction? := funext h.instruction?
  rw [instructionsOf_eq, instructionsOf_eq, h.listing, hi]

theorem withEdge (f : Function) (a b : BlockId) : SameBodies f (f.withEdge a b) where
  toSameBlocks := ((SameBlocks.modifyBlock f a (g := (·.addSuccessor b)) fun _ => rfl).trans
    (.modifyBlock _ b (g := (·.addPredecessor a)) fun _ => rfl)).trans (.invalidateTrees _)
  fallThrough _ := fallThroughOf_withEdge ..
  listing _ := listing_withEdge ..
  instructions := by simp [Function.withEdge, invalidateTrees]

theorem withoutEdge (f : Function) (a b : BlockId) : SameBodies f (f.withoutEdge a b) where
  toSameBlocks := ((SameBlocks.modifyBlock f a (g := (·.eraseSuccessor b)) fun _ => rfl).trans
    (.modifyBlock _ b (g := (·.erasePredecessor a)) fun _ => rfl)).trans (.invalidateTrees _)
  fallThrough _ := fallThroughOf_withoutEdge ..
  listing _ := listing_withoutEdge ..
  instructions := by simp [Function.withoutEdge, invalidateTrees]

end SameBodies

def moveEdge (f : Function) (b : BlockId) (old new : Option BlockId) : Function :=
  let f := match old with
    | some t => f.withoutEdge b t
    | none => f
  match new with
  | some t => f.withEdge b t
  | none => f

theorem removeEdge_ok {r : Bool × Function} (hr : f.removeEdge a b = .ok r) :
    f.isLive a = true ∧ f.isLive b = true ∧
      r = ((f.successorsOf a).contains b, f.withoutEdge a b) := by
  rw [removeEdge_eq] at hr
  split at hr
  · next hb =>
    split at hr
    · next ha =>
      split at hr
      · cases hr
        exact ⟨ha, hb, rfl⟩
      · cases hr
    · cases hr
  · cases hr

theorem dropEdge_ok (hd : f.dropEdge a b = .ok f') :
    f.isLive a = true ∧ f.isLive b = true ∧ f' = f.withoutEdge a b := by
  obtain ⟨r, hr, hd⟩ := bind_eq_ok_iff.mp hd
  cases hd
  obtain ⟨ha, hb, rfl⟩ := removeEdge_ok hr
  exact ⟨ha, hb, rfl⟩

theorem addEdge_ok (ha : f.addEdge a b = .ok f') :
    f.isLive a = true ∧ f.isLive b = true ∧ f' = f.withEdge a b := by
  rw [addEdge_eq] at ha
  split at ha
  · next hb =>
    split at ha
    · next hs =>
      cases ha
      exact ⟨hs, hb, rfl⟩
    · cases ha
  · cases ha

theorem switchEdge_ok (hf : f.switchEdge b old new = .ok f') :
    f' = f.moveEdge b old new ∧ (∀ t, old = some t → f.isLive b = true ∧ f.isLive t = true) ∧
      ∀ t, new = some t → f.isLive b = true ∧ f.isLive t = true := by
  obtain ⟨f₁, h₁, h₂⟩ := bind_eq_ok_iff.mp hf
  cases old with
  | none =>
    cases h₁
    cases new with
    | none =>
      cases h₂
      simp [moveEdge]
    | some t =>
      obtain ⟨hb, ht, rfl⟩ := addEdge_ok h₂
      simp [moveEdge, hb, ht]
  | some s =>
    obtain ⟨hb, hs, rfl⟩ := dropEdge_ok h₁
    cases new with
    | none =>
      cases h₂
      simp [moveEdge, hb, hs]
    | some t =>
      obtain ⟨-, ht, rfl⟩ := addEdge_ok h₂
      rw [isLive_withoutEdge] at ht
      simp [moveEdge, hb, hs, ht]

section moveEdge

variable (hnew : ∀ t, new = some t → f.isLive b = true ∧ f.isLive t = true)

theorem SameBodies.moveEdge (f : Function) (b : BlockId) (old new : Option BlockId) :
    SameBodies f (f.moveEdge b old new) := by
  cases old with
  | none =>
    cases new with
    | none => exact .refl f
    | some t => exact .withEdge f b t
  | some s =>
    cases new with
    | none => exact .withoutEdge f b s
    | some t => exact (SameBodies.withoutEdge f b s).trans (.withEdge _ b t)

include hnew

theorem Symmetric.moveEdge (h : f.Symmetric) : (f.moveEdge b old new).Symmetric := by
  cases old with
  | none =>
    cases new with
    | none => exact h
    | some t => exact h.withEdge (hnew t rfl).1 (hnew t rfl).2
  | some s =>
    cases new with
    | none => exact h.withoutEdge
    | some t =>
      refine h.withoutEdge.withEdge ?_ ?_
      · exact (isLive_withoutEdge ..).trans (hnew t rfl).1
      · exact (isLive_withoutEdge ..).trans (hnew t rfl).2

theorem edgeCount_moveEdge (x y : BlockId) :
    (f.moveEdge b old new).edgeCount x y =
      (f.edgeCount x y - if x = b ∧ old = some y then 1 else 0) +
        if x = b ∧ new = some y then 1 else 0 := by
  cases old with
  | none =>
    cases new with
    | none => simp [Function.moveEdge]
    | some t =>
      simp only [Function.moveEdge, edgeCount_withEdge (hnew t rfl).1]
      simp [eq_comm]
  | some s =>
    cases new with
    | none =>
      simp only [Function.moveEdge, edgeCount_withoutEdge]
      simp [eq_comm]
    | some t =>
      have hb := (isLive_withoutEdge f b s).trans (hnew t rfl).1
      simp only [Function.moveEdge, edgeCount_withEdge hb, edgeCount_withoutEdge]
      simp [eq_comm]

end moveEdge

theorem instruction_ok (h : f.instruction i = .ok insn) : f.instruction? i = some insn := by
  have hm := meets_instruction f i
  rw [h] at hm
  exact hm

/-- Change the list of `b` by `g` and put a new version of `i` in its place. -/
def relist (f : Function) (b : BlockId) (g : List InsnId → List InsnId) (i : InsnId)
    (insn : Instruction) : Function :=
  (f.modifyBlock b fun x => { x with instructions := g x.instructions }).setInstruction i insn

theorem instruction?_setInstruction (hi : (f.instruction? i).isSome) (j : InsnId) :
    (f.setInstruction i insn).instruction? j = if j = i then some insn else f.instruction? j := by
  obtain ⟨x, hx⟩ := Option.isSome_iff_exists.mp hi
  have hlt : i.index < f.instructions.size := Arena.lt_size_of_get? hx
  simp only [setInstruction, instruction?, Arena.get?_set, hlt, and_true, InsnId.index_inj, eq_comm]

section relist

variable {g : List InsnId → List InsnId}

theorem instruction?_relist (hi : (f.instruction? i).isSome) (j : InsnId) :
    (f.relist b g i insn).instruction? j = if j = i then some insn else f.instruction? j := by
  unfold relist
  rw [instruction?_setInstruction (by simpa using hi), instruction?_modifyBlock]

theorem listing_relist (hb : f.isLive b = true) (c : BlockId) :
    (f.relist b g i insn).listing c = if c = b then g (f.listing b) else f.listing c := by
  obtain ⟨block, hx⟩ := isLive_iff.mp hb
  change (f.modifyBlock b fun x => { x with instructions := g x.instructions }).listing c = _
  simp only [listing, block?_modifyBlock]
  split
  · simp [hx]
  · rfl

theorem isLive_relist (c : BlockId) : (f.relist b g i insn).isLive c = f.isLive c := by
  change (f.modifyBlock b fun x => { x with instructions := g x.instructions }).isLive c = _
  rw [isLive_modifyBlock]

theorem fallThroughOf_relist (c : BlockId) :
    (f.relist b g i insn).fallThroughOf c = f.fallThroughOf c := by
  change (f.modifyBlock b fun x => { x with instructions := g x.instructions }).fallThroughOf c = _
  rw [fallThroughOf_modifyBlock]
  simp

theorem successorsOf_relist (c : BlockId) :
    (f.relist b g i insn).successorsOf c = f.successorsOf c := by
  change (f.modifyBlock b fun x => { x with instructions := g x.instructions }).successorsOf c = _
  rw [successorsOf_modifyBlock]
  simp

theorem predecessorsOf_relist (c : BlockId) :
    (f.relist b g i insn).predecessorsOf c = f.predecessorsOf c := by
  change (f.modifyBlock b fun x => { x with instructions := g x.instructions }).predecessorsOf c = _
  rw [predecessorsOf_modifyBlock]
  simp

theorem SameBlocks.relist : SameBlocks f (f.relist b g i insn) :=
  (SameBlocks.modifyBlock f b (by simp)).trans (.setInstruction _ i insn)

theorem Symmetric.relist (h : f.Symmetric) : (f.relist b g i insn).Symmetric :=
  h.congr successorsOf_relist predecessorsOf_relist

end relist

theorem updateBlock_ok {g : Block → Block} (h : f.updateBlock b g = .ok f') :
    f.isLive b = true ∧ f' = f.modifyBlock b g := by
  rw [updateBlock_eq] at h
  split at h
  · next hb =>
    cases h
    exact ⟨hb, rfl⟩
  · cases h

theorem detach_ok (hd : f.detach i = .ok f') :
    ∃ insn, f.instruction? i = some insn ∧
      (insn.block = none ∧ f' = f ∨
        ∃ b, insn.block = some b ∧ f.isLive b = true ∧
          f' = (f.relist b (·.erase i) i { insn with block := none }).moveEdge b
            insn.target? none) := by
  rw [detach_eq] at hd
  obtain ⟨insn, hi, hd⟩ := bind_eq_ok_iff.mp hd
  refine ⟨insn, instruction_ok hi, ?_⟩
  cases hb : insn.block with
  | none =>
    rw [hb] at hd
    cases hd
    exact .inl ⟨rfl, rfl⟩
  | some b =>
    rw [hb] at hd
    obtain ⟨f₁, h₁, hd⟩ := bind_eq_ok_iff.mp hd
    obtain ⟨hlive, rfl⟩ := updateBlock_ok h₁
    change (f.relist b (·.erase i) i { insn with block := none }).switchEdge b _ _ = .ok f' at hd
    exact .inr ⟨b, rfl, hlive, (switchEdge_ok hd).1⟩

theorem insertAt_ok {is is' : List InsnId} {position : Position}
    (h : f.insertAt i is position = .ok is') : is'.Perm (i :: is) := by
  cases position with
  | first =>
    cases h
    exact .refl _
  | last =>
    cases h
    exact List.perm_append_singleton i is
  | beforeBranch =>
    obtain ⟨ends, -, h⟩ := bind_eq_ok_iff.mp h
    cases ends with
    | false =>
      cases h
      exact List.perm_append_singleton i is
    | true =>
      cases h
      refine List.perm_middle.trans (.cons i ?_)
      cases hl : is.getLast? with
      | none => simp [List.getLast?_eq_none_iff.mp hl]
      | some last =>
        obtain ⟨front, rfl⟩ := List.getLast?_eq_some_iff.mp hl
        simp

theorem place_ok {position : Position} (hp : f.place i b position = .ok f') :
    ∃ f₁ insn is, f.detach i = .ok f₁ ∧ f₁.isLive b = true ∧ f₁.instruction? i = some insn ∧
      f₁.insertAt i (f₁.listing b) position = .ok is ∧
      (∀ t, insn.target? = some t → f₁.isLive t = true) ∧
      f' = (f₁.relist b (fun _ => is) i { insn with block := some b }).moveEdge b none
        insn.target? := by
  unfold place at hp
  obtain ⟨f₁, h₁, hp⟩ := bind_eq_ok_iff.mp hp
  obtain ⟨block, hblock, hp⟩ := bind_eq_ok_iff.mp hp
  obtain ⟨is, his, hp⟩ := bind_eq_ok_iff.mp hp
  obtain ⟨f₂, h₂, hp⟩ := bind_eq_ok_iff.mp hp
  obtain ⟨hlive, rfl⟩ := updateBlock_ok h₂
  rw [attach_eq] at hp
  obtain ⟨insn, hi, hp⟩ := bind_eq_ok_iff.mp hp
  have hi := instruction_ok hi
  rw [instruction?_modifyBlock] at hi
  rw [← (views_of_block? (block_eq_ok.mp hblock)).2.2.2] at his
  obtain ⟨hf', -, hnew⟩ := switchEdge_ok hp
  refine ⟨f₁, insn, is, h₁, hlive, hi, his, ?_, hf'⟩
  intro t ht
  exact (isLive_relist (g := fun _ => is) t).symm.trans (hnew t ht).2

theorem redirectBranch_ok {r : Bool × Function} (hr : f.redirectBranch i a next = .ok r) :
    ∃ insn, f.instruction? i = some insn ∧
      (insn.target? ≠ some a ∧ r = (false, f) ∨
        insn.target? = some a ∧ r.1 = true ∧
          (insn.block = none ∧ r.2 = f.setInstruction i (insn.redirect a next) ∨
            ∃ b, insn.block = some b ∧ (∀ t, next = some t → f.isLive b ∧ f.isLive t = true) ∧
              r.2 = (f.setInstruction i (insn.redirect a next)).moveEdge b (some a) next)) := by
  rw [redirectBranch_eq] at hr
  obtain ⟨insn, hi, hr⟩ := bind_eq_ok_iff.mp hr
  refine ⟨insn, instruction_ok hi, ?_⟩
  split at hr
  · next ht =>
    have ht : insn.target? = some a := eq_of_beq ht
    obtain ⟨f₁, h₁, hr⟩ := bind_eq_ok_iff.mp hr
    cases hr
    refine .inr ⟨ht, rfl, ?_⟩
    cases hb : insn.block with
    | none =>
      rw [hb] at h₁
      cases h₁
      exact .inl ⟨rfl, rfl⟩
    | some b =>
      rw [hb] at h₁
      obtain ⟨hf, -, hnew⟩ := switchEdge_ok h₁
      exact .inr ⟨b, rfl, hnew, hf⟩
  · next ht =>
    cases hr
    exact .inl ⟨fun h => ht (beq_iff_eq.mpr h), rfl⟩

theorem setFallThrough_ok (hs : f.setFallThrough b target = .ok f') :
    f.isLive b = true ∧
      (f.fallThroughOf b = target ∧ f' = f ∨
        f.fallThroughOf b ≠ target ∧ (∀ t, target = some t → f.isLive t = true) ∧
          f' = (f.moveEdge b (f.fallThroughOf b) target).modifyBlock b
            fun x => { x with fallThrough := target }) := by
  rw [setFallThrough_eq] at hs
  obtain ⟨block, hb, hs⟩ := bind_eq_ok_iff.mp hs
  have hb := block_eq_ok.mp hb
  rw [(views_of_block? hb).2.2.1]
  refine ⟨isLive_of_block? hb, ?_⟩
  split at hs
  · next heq =>
    cases hs
    exact .inl ⟨heq, rfl⟩
  · next hne =>
    obtain ⟨f₁, h₁, hs⟩ := bind_eq_ok_iff.mp hs
    obtain ⟨rfl, -, hnew⟩ := switchEdge_ok h₁
    exact .inr ⟨hne, fun t ht => (hnew t ht).2, (updateBlock_ok hs).2⟩

theorem forgetBlock_ok (h : f.forgetBlock b = .ok f') :
    f.predecessorsOf b = [] ∧ f.successorsOf b = [] ∧ f' = f.withoutBlock b := by
  rw [forgetBlock_eq] at h
  split at h
  · split at h
    · cases h
    · next hp =>
      split at h
      · cases h
      · next hs =>
        cases h
        exact ⟨Decidable.not_not.mp hp, Decidable.not_not.mp hs, rfl⟩
  · cases h

/-- What an edit that succeeded has answered and made of the function. -/
def Edit.Done (f f' : Function) (reply : Reply) : Edit → Prop
  | .addBlock => reply = .block f.nextBlock ∧ f' = f.addBlock
  | .addRegister name => reply = .register f.nextRegister ∧ f' = f.addRegister name
  | .addInstruction operation =>
    reply = .instruction f.nextInstruction ∧ f' = f.addInstruction operation
  | .copyInstruction source =>
    reply = .done ∧ f' = f ∨ ∃ insn, f.instruction? source = some insn ∧
      reply = .instruction f.nextInstruction ∧ f' = f.addInstruction insn.operation
  | .append block operation =>
    reply = .instruction f.nextInstruction ∧ f.append block operation = .ok f'
  | .place insn block position => reply = .done ∧ f.place insn block position = .ok f'
  | .detach insn => reply = .done ∧ f.detach insn = .ok f'
  | .delete insn => reply = .done ∧ f.delete insn = .ok f'
  | .redirectBranch insn old next =>
    ∃ changed, reply = .flag changed ∧ f.redirectBranch insn old next = .ok (changed, f')
  | .setFallThrough block next => reply = .done ∧ f.setFallThrough block next = .ok f'
  | .addEdge source target => reply = .done ∧ f.addEdge source target = .ok f'
  | .removeEdge source target =>
    ∃ removed, reply = .flag removed ∧ f.removeEdge source target = .ok (removed, f')
  | .redirect block old next => reply = .done ∧ f.redirect block old next = .ok f'
  | .destroy block => reply = .done ∧ (f.destroy block).outcome = .ok f'
  | .dominators edit =>
    reply = treeReply f.dominators edit ∧ f' = { f with dominators := f.dominators.apply edit }
  | .postDominators edit =>
    reply = treeReply f.postDominators edit ∧
      f' = { f with postDominators := f.postDominators.apply edit }

theorem apply_ok {edit : Edit} {reply : Reply} (ha : (f.apply edit).outcome = .ok (reply, f')) :
    edit.Done f f' reply := by
  cases edit with
  | addBlock =>
    cases ha
    exact ⟨rfl, rfl⟩
  | addRegister name =>
    cases ha
    exact ⟨rfl, rfl⟩
  | addInstruction operation =>
    cases ha
    exact ⟨rfl, rfl⟩
  | copyInstruction source =>
    simp only [Function.apply] at ha
    split at ha
    · next insn hinsn =>
      cases ha
      exact .inr ⟨insn, hinsn, rfl, rfl⟩
    · cases ha
      exact .inl ⟨rfl, rfl⟩
  | append block operation =>
    simp only [Function.apply, Logged.outcome_bind, Logged.outcome_lift] at ha
    obtain ⟨f₁, h₁, ha⟩ := bind_eq_ok_iff.mp ha
    cases ha
    exact ⟨rfl, h₁⟩
  | place insn block position =>
    simp only [Function.apply, Logged.outcome_bind, Logged.outcome_lift] at ha
    obtain ⟨f₁, h₁, ha⟩ := bind_eq_ok_iff.mp ha
    cases ha
    exact ⟨rfl, h₁⟩
  | detach insn =>
    simp only [Function.apply, Logged.outcome_bind, Logged.outcome_lift] at ha
    obtain ⟨f₁, h₁, ha⟩ := bind_eq_ok_iff.mp ha
    cases ha
    exact ⟨rfl, h₁⟩
  | delete insn =>
    simp only [Function.apply, Logged.outcome_bind, Logged.outcome_lift] at ha
    obtain ⟨f₁, h₁, ha⟩ := bind_eq_ok_iff.mp ha
    cases ha
    exact ⟨rfl, h₁⟩
  | redirectBranch insn old next =>
    simp only [Function.apply, Logged.outcome_bind, Logged.outcome_lift] at ha
    obtain ⟨⟨flag, f₁⟩, h₁, ha⟩ := bind_eq_ok_iff.mp ha
    cases ha
    exact ⟨flag, rfl, h₁⟩
  | setFallThrough block next =>
    simp only [Function.apply, Logged.outcome_bind, Logged.outcome_lift] at ha
    obtain ⟨f₁, h₁, ha⟩ := bind_eq_ok_iff.mp ha
    cases ha
    exact ⟨rfl, h₁⟩
  | addEdge source target =>
    simp only [Function.apply, Logged.outcome_bind, Logged.outcome_lift] at ha
    obtain ⟨f₁, h₁, ha⟩ := bind_eq_ok_iff.mp ha
    cases ha
    exact ⟨rfl, h₁⟩
  | removeEdge source target =>
    simp only [Function.apply, Logged.outcome_bind, Logged.outcome_lift] at ha
    obtain ⟨⟨flag, f₁⟩, h₁, ha⟩ := bind_eq_ok_iff.mp ha
    cases ha
    exact ⟨flag, rfl, h₁⟩
  | redirect block old next =>
    simp only [Function.apply, Logged.outcome_bind, Logged.outcome_lift] at ha
    obtain ⟨f₁, h₁, ha⟩ := bind_eq_ok_iff.mp ha
    cases ha
    exact ⟨rfl, h₁⟩
  | destroy block =>
    simp only [Function.apply, Logged.outcome_bind] at ha
    obtain ⟨f₁, h₁, ha⟩ := bind_eq_ok_iff.mp ha
    cases ha
    exact ⟨rfl, h₁⟩
  | dominators edit =>
    cases ha
    exact ⟨rfl, rfl⟩
  | postDominators edit =>
    cases ha
    exact ⟨rfl, rfl⟩

end FlowGraph.Function
