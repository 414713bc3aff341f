import FlowGraph.Proofs.Graph.Discipline
import Mathlib.Data.List.Basic

/-!
# Growth

New instructions in a block, and new fall-throughs. Between live blocks neither of them can fail.
-/

namespace FlowGraph.Function

set_option autoImplicit false

variable {f f' : Function} {raw : RawEdges} {R : EdgeRule} {b c s t : BlockId}
  {i : InsnId} {insn : Instruction} {old new target : Option BlockId} {operation : Operation}

theorem block_of_isLive (h : f.isLive b = true) : ∃ block, f.block b = .ok block := by
  obtain ⟨block, hb⟩ := isLive_iff.mp h
  exact ⟨block, block_eq_ok.mpr hb⟩

theorem instruction_eq_ok (h : f.instruction? i = some insn) : f.instruction i = .ok insn := by
  rw [instruction, h]

theorem dropEdge_of_isLive (h : f.Symmetric) (hs : f.isLive s = true) (ht : f.isLive t = true) :
    f.dropEdge s t = .ok (f.withoutEdge s t) := by
  have hsame : (f.successorsOf s).contains t = (f.predecessorsOf t).contains s := by
    rw [List.contains_eq_mem, List.contains_eq_mem]
    exact decide_eq_decide.mpr h.mem_iff
  rw [dropEdge, removeEdge_eq, if_pos ht, if_pos hs, if_pos hsame]
  rfl

theorem switchEdge_of_isLive (h : f.Symmetric) (hb : f.isLive b = true)
    (hold : ∀ t, old = some t → f.isLive t = true)
    (hnew : ∀ t, new = some t → f.isLive t = true) :
    f.switchEdge b old new = .ok (f.moveEdge b old new) := by
  unfold switchEdge moveEdge
  cases old with
  | none =>
    cases new with
    | none => rfl
    | some t =>
      simp only [ok_bind, addEdge_eq, hb, hnew t rfl, if_true]
  | some s =>
    simp only [dropEdge_of_isLive h hb (hold s rfl), ok_bind]
    cases new with
    | none => rfl
    | some t =>
      simp only [addEdge_eq, isLive_withoutEdge, hb, hnew t rfl, if_true]

theorem Balanced.isLive_driven (h : Balanced f R) (hback : Backs R)
    (hd : 0 < f.drivenCount b s) : f.isLive s = true := by
  have hle := hback b s _ _ (h.rule b s)
  exact (h.symmetric.mem_successorsOf (Nat.lt_of_lt_of_le hd hle)).2

theorem Balanced.exists_setFallThrough (h : Balanced f R) (hback : Backs R)
    (hb : f.isLive b = true) (ht : ∀ t, target = some t → f.isLive t = true) :
    ∃ f', f.setFallThrough b target = .ok f' := by
  obtain ⟨block, hblock⟩ := isLive_iff.mp hb
  have hfall := (views_of_block? hblock).2.2.1
  rw [setFallThrough_eq, block_eq_ok.mpr hblock, ok_bind]
  split
  · exact ⟨f, rfl⟩
  · have hold : ∀ t, block.fallThrough = some t → f.isLive t = true := by
      intro t hx
      exact h.isLive_driven hback (drivenCount_pos_of_fallThrough (hfall.trans hx))
    rw [switchEdge_of_isLive h.symmetric hb hold ht, ok_bind, updateBlock_eq,
      (SameBodies.moveEdge f b _ _).live, hb]
    exact ⟨_, rfl⟩

theorem Accounted.exists_setFallThrough (h : Accounted f raw) (hb : f.isLive b = true)
    (ht : ∀ t, target = some t → f.isLive t = true) : ∃ f', f.setFallThrough b target = .ok f' :=
  (accounted_iff.mp h).exists_setFallThrough (backs_owed raw) hb ht

/-- A detached instruction can be entered into a live block if its target is live. -/
theorem exists_place_of_detach {f₁ : Function} {insn : Instruction} {is : List InsnId}
    {position : Position} (hd : f.detach i = .ok f₁) (hsym : f₁.Symmetric)
    (hb : f₁.isLive b = true) (hi : f₁.instruction? i = some insn)
    (his : f₁.insertAt i (f₁.listing b) position = .ok is)
    (ht : ∀ t, insn.target? = some t → f₁.isLive t = true) :
    ∃ f', f.place i b position = .ok f' := by
  obtain ⟨block, hblock⟩ := isLive_iff.mp hb
  rw [(views_of_block? hblock).2.2.2] at his
  rw [place, hd, ok_bind, block_eq_ok.mpr hblock, ok_bind, his, ok_bind, updateBlock_eq, if_pos hb,
    ok_bind, attach_eq, instruction_eq_ok ((instruction?_modifyBlock ..).trans hi), ok_bind]
  change ∃ f', (f₁.relist b (fun _ => is) i { insn with block := some b }).switchEdge b none
    insn.target? = .ok f'
  refine ⟨_, switchEdge_of_isLive hsym.relist ((isLive_relist b).trans hb) (by simp) ?_⟩
  intro t htarget
  exact (isLive_relist t).trans (ht t htarget)

theorem exists_append (hsym : f.Symmetric) (hb : f.isLive b = true)
    (ht : ∀ t, operation.encode.target? = some t → f.isLive t = true) :
    ∃ f', f.append b operation = .ok f' := by
  have hinsn : (f.addInstruction operation).instruction? f.nextInstruction =
      some { operation } := by
    rw [instruction?_addInstruction, if_pos rfl]
  have hdetach : (f.addInstruction operation).detach f.nextInstruction =
      .ok (f.addInstruction operation) := by
    rw [detach_eq, instruction_eq_ok hinsn, ok_bind]
  exact exists_place_of_detach hdetach (hsym.congr (fun _ => rfl) fun _ => rfl) hb hinsn rfl ht

/-- A new instruction stands at the end of its block, and nothing else changes. -/
theorem Accounted.append (h : Accounted f raw) (ha : f.append b operation = .ok f') :
    Accounted f' raw ∧ SameBlocks f f' ∧ (∀ c, f'.fallThroughOf c = f.fallThroughOf c) ∧
      ∀ c, f'.instructionsOf c =
        if c = b then f.instructionsOf b ++ [{ operation, block := some b }]
        else f.instructionsOf c := by
  obtain ⟨insn, is, f₁, hi, h₁, his, hbal, hbec⟩ :=
    ((accounted_iff.mp h).addInstruction operation).place (steady_owed raw) ha
  have hfresh := h.owned.nextInstruction_notMem
  have hinsn : insn = { operation } := by
    rw [instruction?_addInstruction, if_pos rfl] at hi
    exact (Option.some.inj hi).symm
  have hold : ∀ c, ∀ j ∈ f.listing c, f'.instruction? j = f.instruction? j := by
    intro c j hj
    have hne : j ≠ f.nextInstruction := fun heq => hfresh c (heq ▸ hj)
    rw [hbec.instruction, if_neg hne, instruction?_addInstruction, if_neg hne]
  have herase : ∀ c, ((f.addInstruction operation).listing c).erase f.nextInstruction =
      f.listing c := fun c => List.erase_of_not_mem (hfresh c)
  refine ⟨accounted_iff.mpr hbal,
    ⟨hbec.live, hbec.ids, hbec.order, hbec.registers, hbec.size⟩, hbec.fallThrough, ?_⟩
  intro c
  rw [instructionsOf_eq, hbec.listing]
  split
  · next hc =>
    rw [herase] at his
    cases his
    have hnew : f'.instruction? f.nextInstruction = some { operation, block := some b } := by
      rw [hbec.instruction, if_pos rfl, hinsn]
    rw [List.filterMap_append, List.filterMap_congr (hold b), ← instructionsOf_eq]
    simp [hnew]
  · rw [herase, List.filterMap_congr (hold c), ← instructionsOf_eq]

end FlowGraph.Function
