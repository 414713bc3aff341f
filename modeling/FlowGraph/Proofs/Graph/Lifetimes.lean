import FlowGraph.Proofs.Graph.Registers

/-!
# Lifetimes

Blocks and instructions are made once and go once. A handle that has gone never comes back, a new
one has never been seen before, and along any run the two sides of the custody of instructions
agree: what a block lists and what an instruction calls its block.
-/

namespace FlowGraph

set_option autoImplicit false

namespace Arena

variable {α : Type} {a a' a'' : Arena α}

/-- What an arena may become: it has handed out more places, and what was empty is still empty. -/
structure Grows (a a' : Arena α) : Prop where
  size_le : a.size ≤ a'.size
  stays_empty : ∀ i, i < a.size → a.get? i = none → a'.get? i = none

namespace Grows

theorem refl (a : Arena α) : Grows a a := ⟨Nat.le_refl _, fun _ _ h => h⟩

theorem trans (h : Grows a a') (h' : Grows a' a'') : Grows a a'' where
  size_le := Nat.le_trans h.size_le h'.size_le
  stays_empty i hi hnone :=
    h'.stays_empty i (Nat.lt_of_lt_of_le hi h.size_le) (h.stays_empty i hi hnone)

theorem push (a : Arena α) (x : α) : Grows a (a.push x) := by
  refine ⟨by simp, ?_⟩
  intro i hi hnone
  rw [get?_push, if_neg (Nat.ne_of_lt hi), hnone]

theorem set {i : Nat} {x : α} (h : a.get? i = some x) (y : α) : Grows a (a.set i y) := by
  refine ⟨by simp, ?_⟩
  intro j hj hnone
  rw [get?_set, if_neg, hnone]
  rintro ⟨rfl, -⟩
  rw [h] at hnone
  cases hnone

theorem erase (a : Arena α) (i : Nat) : Grows a (a.erase i) := by
  refine ⟨by simp, ?_⟩
  intro j hj hnone
  rw [get?_erase, hnone, ite_self]

theorem map (a : Arena α) (g : α → α) : Grows a (a.map g) := by
  refine ⟨by simp, ?_⟩
  intro j hj hnone
  rw [get?_map, hnone, Option.map_none]

end Grows

theorem get?_of_size_le {i : Nat} (h : a.size ≤ i) : a.get? i = none := by
  cases hi : a.get? i with
  | none => rfl
  | some x => exact absurd (lt_size_of_get? hi) (Nat.not_lt.mpr h)

end Arena

namespace Function

variable {f f' f'' : Function} {edits : List Edit} {b : BlockId} {i : InsnId} {insn : Instruction}

/-- What a function may become, as far as the lives of its blocks and instructions go. -/
structure Grows (f f' : Function) : Prop where
  blocks : f.blocks.Grows f'.blocks
  instructions : f.instructions.Grows f'.instructions

namespace Grows

theorem refl (f : Function) : Grows f f := ⟨.refl _, .refl _⟩

theorem trans (h : Grows f f') (h' : Grows f' f'') : Grows f f'' :=
  ⟨h.blocks.trans h'.blocks, h.instructions.trans h'.instructions⟩

theorem of_dead (h : Grows f f') (hlive : f'.isLive b = false) (hold : f.isLive b = true)
    (h' : Grows f' f'') : f''.isLive b = false := by
  obtain ⟨block, hb⟩ := isLive_iff.mp hold
  have hlt := Nat.lt_of_lt_of_le (Arena.lt_size_of_get? hb) h.blocks.size_le
  simpa [isLive, block?] using h'.blocks.stays_empty b.index hlt (block?_eq_none hlive)

theorem of_deleted (h : Grows f f') (hgone : f'.instruction? i = none)
    (hold : (f.instruction? i).isSome) (h' : Grows f' f'') : f''.instruction? i = none := by
  obtain ⟨insn, hi⟩ := Option.isSome_iff_exists.mp hold
  have hlt := Nat.lt_of_lt_of_le (Arena.lt_size_of_get? hi) h.instructions.size_le
  exact h'.instructions.stays_empty i.index hlt hgone

theorem isLive_nextBlock (h : Grows f f') : f.isLive f'.nextBlock = false := by
  have hnone : f.block? f'.nextBlock = none := Arena.get?_of_size_le h.blocks.size_le
  simp [isLive, hnone]

theorem instruction?_nextInstruction (h : Grows f f') : f.instruction? f'.nextInstruction = none :=
  Arena.get?_of_size_le h.instructions.size_le

theorem modifyBlock (f : Function) (b : BlockId) (g : Block → Block) :
    Grows f (f.modifyBlock b g) := by
  refine ⟨?_, by simpa using .refl _⟩
  unfold Function.modifyBlock
  split
  · next block hb => exact .set hb _
  · exact .refl _

theorem invalidateTrees (f : Function) : Grows f f.invalidateTrees := ⟨.refl _, .refl _⟩

theorem rework (hr : Rework f f') : Grows f f' := by
  cases hr with
  | block b g hg => exact .modifyBlock f b g
  | withEdge a b =>
    exact ((modifyBlock f a _).trans (.modifyBlock _ b _)).trans (.invalidateTrees _)
  | withoutEdge a b =>
    exact ((modifyBlock f a _).trans (.modifyBlock _ b _)).trans (.invalidateTrees _)
  | setInstruction hi _ => exact ⟨.refl _, .set hi _⟩
  | addInstruction operation => exact ⟨.refl _, .push ..⟩
  | copyInstruction _ => exact ⟨.refl _, .push ..⟩
  | withoutInstruction i => exact ⟨.refl _, .erase ..⟩
  | forgetTarget b => exact ⟨.refl _, .map ..⟩

theorem update (hu : Update f f') : Grows f f' := by
  cases hu with
  | rework hr => exact rework hr
  | addBlock => exact ⟨.push .., .refl _⟩
  | withoutBlock hs => exact ⟨.erase .., .refl _⟩
  | addRegister name => exact ⟨.refl _, .refl _⟩

theorem apply {edit : Edit} {reply : Reply} (ha : (f.apply edit).outcome = .ok (reply, f')) :
    Grows f f' :=
  apply_keeps (fun h hu => h.trans (update hu)) (fun _ h => h.trans ⟨.refl _, .refl _⟩)
    (fun _ h => h.trans ⟨.refl _, .refl _⟩) (refl f) ha

theorem run (hr : (f.run edits).outcome = .ok f') : Grows f f' := by
  refine run_keeps ?_ (refl f) hr
  intro edit _ g g' reply hgrows ha
  exact hgrows.trans (apply ha)

end Grows

/-- A block or an instruction that an edit answers exists after it, and did not exist in `f`. -/
def Reply.IsNew (f f' : Function) : Reply → Prop
  | .block b => f.isLive b = false ∧ f'.isLive b = true
  | .instruction i => f.instruction? i = none ∧ (f'.instruction? i).isSome
  | _ => True

theorem instruction?_append {operation : Operation} (ha : f.append b operation = .ok f') :
    (f'.instruction? f.nextInstruction).isSome := by
  obtain ⟨f₁, insn, is, -, -, hi, -, -, rfl⟩ := place_ok ha
  rw [(SameBodies.moveEdge ..).instruction?, instruction?_relist (Option.isSome_of_eq_some hi),
    if_pos rfl]
  rfl

theorem instruction?_made (f : Function) (operation : Encoding) :
    ((f.addInstruction operation).instruction? f.nextInstruction).isSome := by
  rw [instruction?_addInstruction, if_pos rfl]
  rfl

/-- `f` stands for any earlier state, so what is answered has never been seen. -/
theorem Grows.isNew (h : Grows f f') {edit : Edit} {reply : Reply}
    (ha : (f'.apply edit).outcome = .ok (reply, f'')) : reply.IsNew f f'' := by
  have hdone := apply_ok ha
  cases edit with
  | addBlock =>
    obtain ⟨rfl, rfl⟩ := hdone
    refine ⟨h.isLive_nextBlock, ?_⟩
    rw [isLive_addBlock, decide_eq_true rfl, Bool.true_or]
  | addInstruction operation =>
    obtain ⟨rfl, rfl⟩ := hdone
    exact ⟨h.instruction?_nextInstruction, instruction?_made f' operation⟩
  | copyInstruction source =>
    obtain ⟨rfl, -⟩ | ⟨insn, -, rfl, rfl⟩ := hdone
    · trivial
    · exact ⟨h.instruction?_nextInstruction, instruction?_made f' insn.operation⟩
  | append block operation =>
    obtain ⟨rfl, h₁⟩ := hdone
    exact ⟨h.instruction?_nextInstruction, instruction?_append h₁⟩
  | redirectBranch insn old next =>
    obtain ⟨changed, rfl, -⟩ := hdone
    trivial
  | removeEdge source target =>
    obtain ⟨removed, rfl, -⟩ := hdone
    trivial
  | dominators edit =>
    obtain ⟨rfl, -⟩ := hdone
    cases edit <;> trivial
  | postDominators edit =>
    obtain ⟨rfl, -⟩ := hdone
    cases edit <;> trivial
  | _ =>
    obtain ⟨rfl, -⟩ := hdone
    trivial

theorem Owned.count_listing (h : f.Owned) (hi : f.instruction? i = some insn) (b : BlockId) :
    (f.listing b).count i = if insn.block = some b then 1 else 0 := by
  have hmem := h.mem_iff b i
  simp only [homeOf, hi, Option.bind_some] at hmem
  rw [List.Nodup.count (h.nodup b)]
  simp only [hmem]

/-- Who lists what, what the order holds, which handles are new and which register a name leads to,
in every state of every run. -/
theorem run_keeps_custody (hr : (empty.run edits).outcome = .ok f) :
    (∀ i insn, f.instruction? i = some insn →
      (∀ b, insn.block = some b → f.isLive b = true) ∧
      ∀ b block, f.block? b = some block →
        block.instructions.count i = if insn.block = some b then 1 else 0) ∧
    (∀ b block, f.block? b = some block →
      block.id = b ∧ ∀ i ∈ block.instructions, (f.instruction? i).isSome) ∧
    (f.order.Pairwise fun a b => a.index < b.index) ∧
    (∀ b, b ∈ f.order ↔ f.isLive b = true) ∧
    (∀ more g, (f.run more).outcome = .ok g →
      (∀ rest h, (g.run rest).outcome = .ok h →
        (∀ b, f.isLive b = true → g.isLive b = false → h.isLive b = false) ∧
        ∀ i, (f.instruction? i).isSome → g.instruction? i = none → h.instruction? i = none) ∧
      (∀ edit reply h, (g.apply edit).outcome = .ok (reply, h) → reply.IsNew f h) ∧
      (∃ b h, (g.apply .addBlock).outcome = .ok (.block b, h)) ∧
      ∀ operation, ∃ i h, (g.apply (.addInstruction operation)).outcome = .ok (.instruction i, h)) ∧
    ∀ name,
      (f.findRegister? name = none ↔ ∀ r, f.registerName? r ≠ some name) ∧
      ∀ r, f.findRegister? name = some r ↔ f.registerName? r = some name ∧
        ∀ q, f.registerName? q = some name → q.index ≤ r.index := by
  have hbal := balanced_run hr
  refine ⟨?_, ?_, hbal.numbered.sorted, hbal.numbered.mem_order, ?_, ?_⟩
  · intro i insn hi
    refine ⟨fun b hb => isLive_of_mem_listing (hbal.owned.mem_listing hi hb), ?_⟩
    intro b block hb
    rw [← (views_of_block? hb).2.2.2]
    exact hbal.owned.count_listing hi b
  · intro b block hb
    refine ⟨hbal.numbered.ids b block hb, ?_⟩
    intro i hi
    rw [← (views_of_block? hb).2.2.2] at hi
    obtain ⟨insn, hinsn, -⟩ := hbal.owned.exists_of_mem hi
    exact Option.isSome_of_eq_some hinsn
  · intro more g hg
    have hgrows := Grows.run hg
    refine ⟨?_, fun edit reply h ha => hgrows.isNew ha, ⟨_, _, rfl⟩, fun operation => ⟨_, _, rfl⟩⟩
    intro rest h hh
    have hlater := Grows.run hh
    exact ⟨fun b hlive hdead => hgrows.of_dead hdead hlive hlater,
      fun i hsome hgone => hgrows.of_deleted hgone hsome hlater⟩
  · intro name
    have hcatalogued := catalogued_run hr
    exact ⟨hcatalogued.findRegister?_eq_none_iff, fun r => hcatalogued.findRegister?_eq_some_iff⟩

/-- An instruction is copied, moved to a block and moved within it. Then the block is destroyed,
which does not come back when a new one is made. -/
theorem custody_after_destroy :
    ∃ f g h, (empty.run [.addBlock, .append ⟨2⟩ .nop, .copyInstruction ⟨0⟩, .place ⟨1⟩ ⟨2⟩ .first,
        .place ⟨1⟩ ⟨2⟩ .last, .addRegister "x", .addRegister "x"]).outcome = .ok f ∧
      (f.run [.destroy ⟨2⟩]).outcome = .ok g ∧ (g.run [.addBlock]).outcome = .ok h ∧
      f.isLive ⟨2⟩ = true ∧ f.listing ⟨2⟩ = [⟨0⟩, ⟨1⟩] ∧ f.findRegister? "x" = some ⟨1⟩ ∧
      g.isLive ⟨2⟩ = false ∧ h.isLive ⟨2⟩ = false ∧ h.order = [⟨0⟩, ⟨1⟩, ⟨3⟩] := by
  have hview : ((empty.run [.addBlock, .append ⟨2⟩ .nop, .copyInstruction ⟨0⟩,
      .place ⟨1⟩ ⟨2⟩ .first, .place ⟨1⟩ ⟨2⟩ .last, .addRegister "x",
      .addRegister "x"]).outcome.toOption.bind fun f =>
        (f.run [.destroy ⟨2⟩]).outcome.toOption.bind fun g =>
          (g.run [.addBlock]).outcome.toOption.map fun h =>
            (f.isLive ⟨2⟩, f.listing ⟨2⟩, f.registers, g.isLive ⟨2⟩, h.order)) =
      some (true, [⟨0⟩, ⟨1⟩], ["x", "x"], false, [⟨0⟩, ⟨1⟩, ⟨3⟩]) := by
    decide +kernel
  obtain ⟨f, hf, hview⟩ := Option.bind_eq_some_iff.mp hview
  obtain ⟨g, hg, hview⟩ := Option.bind_eq_some_iff.mp hview
  obtain ⟨h, hh, hview⟩ := Option.map_eq_some_iff.mp hview
  simp only [Prod.mk.injEq] at hview
  obtain ⟨hlive, hlist, hregs, hdead, horder⟩ := hview
  have hok := eq_ok_of_toOption hf
  obtain ⟨-, -, -, -, hlives, hnames⟩ := run_keeps_custody hok
  have hgone := ((hlives _ g (eq_ok_of_toOption hg)).1 _ h (eq_ok_of_toOption hh)).1 ⟨2⟩ hlive hdead
  refine ⟨f, g, h, hok, eq_ok_of_toOption hg, eq_ok_of_toOption hh, hlive, hlist, ?_, hdead, hgone,
    horder⟩
  refine ((hnames "x").2 ⟨1⟩).mpr ⟨by simp [registerName?, hregs], ?_⟩
  intro q hq
  have hlt := (List.getElem?_eq_some_iff.mp hq).1
  rw [hregs] at hlt
  exact Nat.le_of_lt_succ hlt

end Function

end FlowGraph
