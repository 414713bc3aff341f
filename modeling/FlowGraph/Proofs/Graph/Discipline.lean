import FlowGraph.Proofs.Graph.Consistency
import FlowGraph.Proofs.Graph.Destruction

/-!
# Disciplined runs

A run is disciplined if it never takes away an edge that a fall-through or a branch drives. Along
such a run the raw edges are exactly those that the caller has added, less those that it has
removed and those that went with a destroyed block, and nothing refers to a block that is gone.
-/

namespace FlowGraph

set_option autoImplicit false

namespace RawEdges

def add (raw : Function.RawEdges) (s t : BlockId) : Function.RawEdges :=
  fun x y => raw x y + if x = s ∧ y = t then 1 else 0

def remove (raw : Function.RawEdges) (s t : BlockId) : Function.RawEdges :=
  fun x y => raw x y - if x = s ∧ y = t then 1 else 0

def clear (raw : Function.RawEdges) (d : BlockId) : Function.RawEdges :=
  fun x y => if x = d ∨ y = d then 0 else raw x y

theorem remove_of_zero {raw : Function.RawEdges} {s t : BlockId} (h : raw s t = 0) :
    remove raw s t = raw := by
  funext x y
  unfold remove
  split
  · next hst => rw [hst.1, hst.2, h]
  · rfl

end RawEdges

namespace Function

variable {f f' : Function} {raw : RawEdges} {R R' : EdgeRule} {a b c s t : BlockId} {i : InsnId}
  {next : Option BlockId}

/-- Whether an edit may add or take away an edge that nothing drives. -/
def Edit.isRaw : Edit → Bool
  | .addEdge _ _ | .removeEdge _ _ | .destroy _ => true
  | _ => false

namespace Balanced

/-- Edits that leave the raw edges alone keep every steady rule. -/
theorem apply (h : Balanced f R) (hR : Steady R) {edit : Edit} {reply : Reply}
    (hraw : edit.isRaw = false) (ha : (f.apply edit).outcome = .ok (reply, f')) :
    Balanced f' R := by
  have hdone := apply_ok ha
  cases edit with
  | addBlock => exact hdone.2 ▸ h.addBlock
  | addRegister name => exact hdone.2 ▸ h.sameContents rfl rfl rfl
  | addInstruction operation => exact hdone.2 ▸ h.addInstruction operation
  | copyInstruction source =>
    obtain ⟨-, rfl⟩ | ⟨insn, -, -, rfl⟩ := hdone
    · exact h
    · exact h.addInstruction insn.operation
  | append block operation =>
    obtain ⟨_, _, _, _, _, _, hbal, _⟩ := (h.addInstruction operation).place hR hdone.2
    exact hbal
  | place insn block position =>
    obtain ⟨_, _, _, _, _, _, hbal, _⟩ := h.place hR hdone.2
    exact hbal
  | detach insn =>
    obtain ⟨_, _, hbal, _⟩ := h.detach hR hdone.2
    exact hbal
  | delete insn => exact (h.delete hR hdone.2).1
  | redirectBranch insn old next =>
    obtain ⟨changed, -, h₁⟩ := hdone
    exact (h.redirectBranch hR h₁).1
  | setFallThrough block next => exact (h.setFallThrough hR hdone.2).1
  | addEdge source target => cases hraw
  | removeEdge source target => cases hraw
  | redirect block old next => exact (h.redirect hR hdone.2).2.1
  | destroy block => cases hraw
  | dominators edit => exact hdone.2 ▸ h.sameContents rfl rfl rfl
  | postDominators edit => exact hdone.2 ▸ h.sameContents rfl rfl rfl

end Balanced

namespace Accounted

theorem addBlock (h : Accounted f raw) : Accounted f.addBlock raw :=
  accounted_iff.mpr (accounted_iff.mp h).addBlock

theorem sameContents (h : Accounted f raw) (hb : f'.blocks = f.blocks) (ho : f'.order = f.order)
    (hi : f'.instructions = f.instructions) : Accounted f' raw :=
  accounted_iff.mpr ((accounted_iff.mp h).sameContents hb ho hi)

theorem setFallThrough (h : Accounted f raw) (hs : f.setFallThrough b next = .ok f') :
    Accounted f' raw ∧ Becomes f f' (fun c => if c = b then next else f.fallThroughOf c) f.listing
      f.instruction? := by
  obtain ⟨hbal, hbec⟩ := (accounted_iff.mp h).setFallThrough (steady_owed raw) hs
  exact ⟨accounted_iff.mpr hbal, hbec⟩

theorem withEdge (h : Accounted f raw) (hs : f.isLive s = true) (ht : f.isLive t = true) :
    Accounted (f.withEdge s t) (RawEdges.add raw s t) := by
  refine accounted_iff.mpr ((accounted_iff.mp h).withEdge hs ht ?_)
  intro x y d e hxy
  unfold owed RawEdges.add at *
  omega

theorem withoutEdge (h : Accounted f raw)
    (hallowed : f.edgeCount s t = 0 ∨ f.drivenCount s t < f.edgeCount s t) :
    Accounted (f.withoutEdge s t) (RawEdges.remove raw s t) := by
  refine accounted_iff.mpr ((accounted_iff.mp h).withoutEdge ?_)
  intro x y
  have hxy := h.balance x y
  unfold owed RawEdges.remove
  by_cases hst : x = s ∧ y = t
  · obtain ⟨rfl, rfl⟩ := hst
    simp only [and_self, if_true]
    omega
  · simp only [hst, if_false]
    omega

theorem removeEdge (h : Accounted f raw) {r : Bool × Function}
    (hallowed : f.edgeCount s t = 0 ∨ f.drivenCount s t < f.edgeCount s t)
    (hr : f.removeEdge s t = .ok r) :
    Accounted r.2 (if r.1 then RawEdges.remove raw s t else raw) := by
  obtain ⟨-, -, rfl⟩ := removeEdge_ok hr
  have hacc := h.withoutEdge hallowed
  dsimp only
  split
  · exact hacc
  · next hno =>
    have hzero : f.edgeCount s t = 0 := List.count_eq_zero.mpr (by simpa using hno)
    have hraw : raw s t = 0 := by
      have hst := h.balance s t
      omega
    rwa [RawEdges.remove_of_zero hraw] at hacc

/-- Every edge to another block than `b` is driven or raw; to `b` there are edges enough. -/
def owedApart (raw : RawEdges) (b : BlockId) : EdgeRule := fun x y d e =>
  if y = b then d ≤ e else e = d + raw x y

theorem steady_owedApart (raw : RawEdges) (b : BlockId) : Steady (owedApart raw b) := by
  refine ⟨?_, ?_⟩
  · intro x y d e h
    unfold owedApart at h ⊢
    by_cases hb : y = b
    · rw [if_pos hb] at h ⊢
      omega
    · rw [if_neg hb] at h ⊢
      omega
  · intro x y d e h
    unfold owedApart at h ⊢
    by_cases hb : y = b
    · rw [if_pos hb] at h ⊢
      omega
    · rw [if_neg hb] at h ⊢
      omega

theorem drops_owedApart (raw : RawEdges) (b : BlockId) :
    Balanced.Drops (owedApart raw b) b := by
  intro x e _
  simp [owedApart]

theorem balanced_owedApart (h : Accounted f raw) (b : BlockId) :
    Balanced f (owedApart raw b) := by
  refine ⟨h.symmetric, h.owned, h.numbered, ?_⟩
  intro x y
  have hxy := h.balance x y
  unfold owedApart
  split <;> omega

theorem destroyed (h : Accounted f raw) (hd : (f.destroy b).outcome = .ok f') :
    Destroyed f b f' := by
  refine (h.balanced_owedApart b).destroyed (steady_owedApart raw b) (drops_owedApart raw b) ?_ hd
  intro x d hrule
  simpa [owedApart] using hrule

/-- A block with raw edges to other blocks cannot be destroyed. -/
theorem raw_of_destroy (h : Accounted f raw) (hd : (f.destroy b).outcome = .ok f') (ht : t ≠ b) :
    raw b t = 0 := by
  obtain ⟨_, f₂, -, -, hbal₂, -, hs, -⟩ :=
    (h.balanced_owedApart b).destroy_stages (steady_owedApart raw b) (drops_owedApart raw b) hd
  have hrule := hbal₂.rule b t
  rw [owedApart, if_neg ht, edgeCount, hs, List.count_nil] at hrule
  omega

/-- Destroying a block takes the raw edges at it along and leaves the others alone. -/
theorem destroy (h : Accounted f raw) (hd : (f.destroy b).outcome = .ok f') :
    Accounted f' (RawEdges.clear raw b) := by
  have hzero : ∀ y, owedApart raw b b y 0 0 := by
    intro y
    unfold owedApart
    split
    · exact Nat.le_refl 0
    · next hy => rw [h.raw_of_destroy hd hy]
  have hbal := (h.balanced_owedApart b).destroy (steady_owedApart raw b) (drops_owedApart raw b)
    hzero hd
  refine ⟨hbal.symmetric, hbal.owned, hbal.numbered, ?_⟩
  intro x y
  have hxy := hbal.rule x y
  unfold owedApart at hxy
  unfold RawEdges.clear
  by_cases hy : y = b
  · rw [if_pos hy] at hxy
    rw [if_pos (.inr hy)]
    have hdead : f'.isLive b = false := by
      have hlive := (h.destroyed hd).live b
      simpa using hlive
    have hnone : f'.edgeCount x y = 0 := by
      rw [hy, edgeCount, hbal.symmetric]
      simp [predecessorsOf, block?_eq_none hdead]
    omega
  · rw [if_neg hy] at hxy
    by_cases hx : x = b
    · rw [hx, h.raw_of_destroy hd hy] at hxy
      rw [hx, if_pos (.inl rfl)]
      exact hxy
    · rw [if_neg (not_or.mpr ⟨hx, hy⟩)]
      exact hxy

end Accounted

/-- An edge may be removed if there is none or if not all of them are driven. -/
def allows (f : Function) : Edit → Bool
  | .removeEdge s t => f.edgeCount s t = 0 ∨ f.drivenCount s t < f.edgeCount s t
  | _ => true

/-- The raw edges on record after an edit with this answer. -/
def recordEdit (raw : RawEdges) : Edit → Reply → RawEdges
  | .addEdge s t, _ => RawEdges.add raw s t
  | .removeEdge s t, .flag true => RawEdges.remove raw s t
  | .destroy d, _ => RawEdges.clear raw d
  | _, _ => raw

/-- The states of disciplined runs, each with the raw edges on record. -/
inductive Reached : Function → RawEdges → Prop
  | new : Reached empty fun _ _ => 0
  | edit {f f' : Function} {raw : RawEdges} {edit : Edit} {reply : Reply} :
      Reached f raw → f.allows edit = true → (f.apply edit).outcome = .ok (reply, f') →
      Reached f' (recordEdit raw edit reply)

/-- Carry out edits as long as they are disciplined, with the raw edges on record. -/
def runOnRecord (f : Function) (raw : RawEdges) : List Edit → Option (Function × RawEdges)
  | [] => some (f, raw)
  | edit :: edits =>
    if f.allows edit then
      match (f.apply edit).outcome with
      | .ok (reply, f') => f'.runOnRecord (recordEdit raw edit reply) edits
      | .error _ => none
    else none

theorem Reached.runOnRecord (h : Reached f raw) {edits : List Edit} {raw' : RawEdges}
    (hr : f.runOnRecord raw edits = some (f', raw')) : Reached f' raw' := by
  induction edits generalizing f raw with
  | nil =>
    cases hr
    exact h
  | cons edit edits ih =>
    simp only [Function.runOnRecord] at hr
    split at hr
    · next hallowed =>
      split at hr
      · next ha => exact ih (h.edit hallowed ha) hr
      · cases hr
    · cases hr

theorem accounted_empty : Accounted empty fun _ _ => 0 := by
  have hblock : ∀ b, ({} : Function).block? b = none := by
    intro b
    simp [block?, Arena.get?]
  have h : Accounted ({} : Function) fun _ _ => 0 := by
    refine ⟨?_, ⟨?_, ?_⟩, ⟨?_, ?_, ?_⟩, ?_⟩
    · intro a b
      simp [successorsOf, predecessorsOf, hblock]
    · intro b i
      simp [listing, hblock, homeOf, instruction?, Arena.get?]
    · intro b
      simp [listing, hblock]
    · intro b block hb
      rw [hblock] at hb
      cases hb
    · intro b
      simp [isLive, hblock]
    · exact .nil
    · intro b s
      simp [edgeCount, drivenCount, branchCount, successorsOf, fallThroughOf, instructionsOf,
        hblock]
  exact h.addBlock.addBlock

theorem Accounted.apply (h : Accounted f raw) {edit : Edit} {reply : Reply}
    (hallowed : f.allows edit = true) (ha : (f.apply edit).outcome = .ok (reply, f')) :
    Accounted f' (recordEdit raw edit reply) := by
  cases edit with
  | addEdge source target =>
    obtain ⟨-, h₁⟩ := apply_ok ha
    obtain ⟨hs, ht, rfl⟩ := addEdge_ok h₁
    exact h.withEdge hs ht
  | removeEdge source target =>
    obtain ⟨removed, rfl, h₁⟩ := apply_ok ha
    have hacc := h.removeEdge (of_decide_eq_true hallowed) h₁
    cases removed with
    | true => exact hacc
    | false => exact hacc
  | destroy block =>
    obtain ⟨-, h₁⟩ := apply_ok ha
    exact h.destroy h₁
  | _ => exact accounted_iff.mpr ((accounted_iff.mp h).apply (steady_owed raw) rfl ha)

theorem Reached.accounted (h : Reached f raw) : Accounted f raw := by
  induction h with
  | new => exact accounted_empty
  | edit _ hallowed ha ih => exact ih.apply hallowed ha

theorem Symmetric.mem_successorsOf (h : f.Symmetric) (hpos : 0 < f.edgeCount b s) :
    s ∈ f.successorsOf b ∧ f.isLive s = true := by
  have hmem : s ∈ f.successorsOf b := List.count_pos_iff.mp hpos
  exact ⟨hmem, h.isLive_successor hmem⟩

theorem Accounted.mem_successorsOf (h : Accounted f raw) (hd : 0 < f.drivenCount b s) :
    s ∈ f.successorsOf b ∧ f.isLive s = true := by
  have hbs := h.balance b s
  exact h.symmetric.mem_successorsOf (by omega)

theorem Accounted.fallThrough_mem (h : Accounted f raw) (hf : f.fallThroughOf b = some s) :
    s ∈ f.successorsOf b ∧ f.isLive s = true :=
  h.mem_successorsOf (drivenCount_pos_of_fallThrough hf)

/-- Where edges are symmetric, all that can be wrong at a block is its fall-through. -/
theorem Symmetric.of_firstInconsistent? (h : f.Symmetric) (hn : f.Numbered)
    (hb : f.firstInconsistent? = some b) :
    ∃ t, f.fallThroughOf b = some t ∧ t ∉ f.successorsOf b := by
  obtain ⟨-, -, -, ⟨x, hx, hflaw⟩, -⟩ := (firstInconsistent?_eq_some_iff hn.ids).mp hb
  obtain ⟨hs, hp, hf, -⟩ := views_of_block? hx
  cases hflaw with
  | deadSuccessor hc hdead =>
    rw [h.isLive_successor (hs ▸ hc)] at hdead
    cases hdead
  | deadPredecessor hc hdead =>
    rw [h.isLive_predecessor (hp ▸ hc)] at hdead
    cases hdead
  | @successorCount c y hc hy hne =>
    have hsym := h b c
    rw [hs, (views_of_block? hy).2.1] at hsym
    exact absurd hsym hne
  | @predecessorCount c y hc hy hne =>
    have hsym := h c b
    rw [hp, (views_of_block? hy).1] at hsym
    exact absurd hsym.symm hne
  | fallThrough ht hnot => exact ⟨_, hf.trans ht, hs ▸ hnot⟩

theorem Accounted.firstInconsistent?_eq_none (h : Accounted f raw) :
    f.firstInconsistent? = none := by
  cases hb : f.firstInconsistent? with
  | none => rfl
  | some b =>
    obtain ⟨t, hfall, hmem⟩ := h.symmetric.of_firstInconsistent? h.numbered hb
    exact absurd (h.fallThrough_mem hfall).1 hmem

/-- In a disciplined run every edge is a fall-through, a listed branch or on record as raw. -/
theorem reached_edges_accounted (h : Reached f raw) :
    (∀ b block, f.block? b = some block →
      (∀ s, block.edgesTo s = (if block.fallThrough = some s then 1 else 0) +
        (f.instructionsOf b).countP (·.operation.targets s) + raw b s) ∧
      ∀ s, block.fallThrough = some s → s ∈ block.successors ∧ f.isLive s = true) ∧
    (∀ i insn b s, f.instruction? i = some insn → insn.block = some b → insn.target? = some s →
      ∃ block, f.block? b = some block ∧ i ∈ block.instructions ∧ s ∈ block.successors ∧
        f.isLive s = true) ∧
    f.firstInconsistent? = none := by
  have hacc := h.accounted
  refine ⟨?_, ?_, hacc.firstInconsistent?_eq_none⟩
  · intro b block hb
    obtain ⟨hs, -, hf, -⟩ := views_of_block? hb
    refine ⟨?_, ?_⟩
    · intro s
      have hbs := hacc.balance b s
      rw [edgeCount, drivenCount, hs, hf] at hbs
      exact hbs
    · intro s hfall
      rw [← hs]
      exact hacc.fallThrough_mem (hf.trans hfall)
  · intro i insn b s hi hb ht
    have hmem := hacc.owned.mem_listing hi hb
    obtain ⟨block, hblock⟩ := isLive_iff.mp (isLive_of_mem_listing hmem)
    obtain ⟨hs, -, -, hl⟩ := views_of_block? hblock
    have hsucc := hacc.mem_successorsOf (drivenCount_pos hmem hi ht)
    exact ⟨block, hblock, hl ▸ hmem, hs ▸ hsucc⟩

/-- A raw edge is removed and a block with raw, branch and fall-through edges is destroyed. -/
theorem edges_accounted_after_destroy :
    ∃ f raw, Reached f raw ∧ f.successorsOf ⟨0⟩ = [⟨0⟩, ⟨1⟩, ⟨1⟩] ∧ raw ⟨0⟩ ⟨0⟩ = 1 ∧
      (∀ block, f.block? ⟨0⟩ = some block → ∀ s, block.edgesTo s =
        (if block.fallThrough = some s then 1 else 0) +
        (f.instructionsOf ⟨0⟩).countP (·.operation.targets s) + raw ⟨0⟩ s) ∧
      f.firstInconsistent? = none := by
  have hview : (empty.runOnRecord (fun _ _ => 0) [.addBlock, .setFallThrough ⟨0⟩ (some ⟨2⟩),
      .append ⟨0⟩ (.branch ⟨0⟩ (some ⟨2⟩)), .addEdge ⟨0⟩ ⟨2⟩, .addEdge ⟨0⟩ ⟨2⟩, .addEdge ⟨0⟩ ⟨0⟩,
      .removeEdge ⟨0⟩ ⟨2⟩, .setFallThrough ⟨2⟩ (some ⟨1⟩), .destroy ⟨2⟩]).map
        (fun r => (r.1.successorsOf ⟨0⟩, r.2 ⟨0⟩ ⟨0⟩)) = some ([⟨0⟩, ⟨1⟩, ⟨1⟩], 1) := by
    decide +kernel
  obtain ⟨⟨f, raw⟩, hrun, hf⟩ := Option.map_eq_some_iff.mp hview
  obtain ⟨hsucc, hraw⟩ := Prod.mk.inj hf
  have h := Reached.new.runOnRecord hrun
  have hedges := reached_edges_accounted h
  exact ⟨f, raw, h, hsucc, hraw, fun block hb => (hedges.1 ⟨0⟩ block hb).1, hedges.2.2⟩

end Function

end FlowGraph
