import FlowGraph.Proofs.Graph.Growth
import FlowGraph.Proofs.Graph.Reachability

/-!
# The contract of destruction

When the destruction of a block ends, when it faults, and what it leaves. Where every driven edge is
listed, whatever a fall-through or a listed branch refers to is live, so no step meets a dead block
on the way. Each round of rerouting takes predecessors away and brings none back, so the rounds end
with none left. All that can be in the way by then is a raw edge from the block to another one.
-/

namespace FlowGraph.Function

set_option autoImplicit false

open Relation

variable {f f' : Function} {R : EdgeRule} {raw : RawEdges} {a b s : BlockId} {i : InsnId}
  {insn : Instruction} {next : Option BlockId}

theorem exists_branchesAmong {is : List InsnId} (h : ∀ i ∈ is, (f.instruction? i).isSome = true) :
    ∃ bs, f.branchesAmong is = .ok bs := by
  induction is with
  | nil => exact ⟨[], rfl⟩
  | cons i is ih =>
    obtain ⟨insn, hi⟩ := Option.isSome_iff_exists.mp (h i List.mem_cons_self)
    obtain ⟨bs, hbs⟩ := ih fun j hj => h j (List.mem_cons_of_mem i hj)
    rw [branchesAmong, instruction_eq_ok hi, ok_bind, hbs, ok_bind]
    exact ⟨_, rfl⟩

namespace Balanced

theorem exists_detach (h : Balanced f R) (hback : Backs R) (hi : f.instruction? i = some insn) :
    ∃ f', f.detach i = .ok f' := by
  rw [detach_eq, instruction_eq_ok hi, ok_bind]
  cases hb : insn.block with
  | none => exact ⟨f, rfl⟩
  | some b =>
    have hmem := h.owned.mem_listing hi hb
    have hlive := isLive_of_mem_listing hmem
    simp only [updateBlock_eq, hlive, if_true, ok_bind]
    change ∃ f', (f.relist b (·.erase i) i { insn with block := none }).switchEdge b insn.target?
      none = .ok f'
    refine ⟨_, switchEdge_of_isLive h.symmetric.relist ((isLive_relist b).trans hlive) ?_ (by simp)⟩
    intro t ht
    exact (isLive_relist t).trans (h.isLive_driven hback (drivenCount_pos hmem hi ht))

theorem exists_deleteAll (h : Balanced f R) (hR : Steady R) (hback : Backs R) {is : List InsnId}
    (hl : f.listing b = is) : ∃ f', Function.deleteAll is f = .ok f' := by
  induction is generalizing f with
  | nil => exact ⟨f, rfl⟩
  | cons i is ih =>
    have hi : i ∈ f.listing b := by simp [hl]
    obtain ⟨insn, hinsn, -⟩ := h.owned.exists_of_mem hi
    obtain ⟨f₁, h₁⟩ := h.exists_detach hback hinsn
    have hdelete : f.delete i = .ok (f₁.withoutInstruction i) := by
      rw [Function.delete, h₁]
      rfl
    obtain ⟨hbal, hbec⟩ := h.delete hR hdelete
    have hl₁ : (f₁.withoutInstruction i).listing b = is := by
      rw [hbec.listing, hl, List.erase_cons_head]
    obtain ⟨f₂, h₂⟩ := ih hbal hl₁
    refine ⟨f₂, ?_⟩
    rw [Function.deleteAll, hdelete, ok_bind, h₂]

theorem exists_clearBlock (h : Balanced f R) (hR : Steady R) (hback : Backs R)
    (hb : f.isLive b = true) : ∃ f₁, f.clearBlock b = .ok (f.heir b, f₁) := by
  obtain ⟨block, hblock⟩ := isLive_iff.mp hb
  have hlist := (views_of_block? hblock).2.2.2
  obtain ⟨f₁, h₁⟩ := h.exists_deleteAll hR hback hlist
  obtain ⟨hbal₁, hbec₁⟩ := h.deleteAll hR hlist h₁
  have hlive₁ : (f₁.forgetTarget b).isLive b = true := (hbec₁.live b).trans hb
  obtain ⟨block₁, hblock₁⟩ := block_of_isLive hlive₁
  obtain ⟨f₂, h₂⟩ : ∃ f₂, (f₁.forgetTarget b).setFallThrough b none = .ok f₂ :=
    (hbal₁.forgetTarget b).exists_setFallThrough hback hlive₁ (by simp)
  have hclear : ∃ r, f.clearBlock b = .ok r := by
    simp only [Function.clearBlock, block_eq_ok.mpr hblock, ok_bind, h₁, hblock₁, h₂]
    exact ⟨_, rfl⟩
  obtain ⟨⟨next, f₃⟩, h₃⟩ := hclear
  obtain ⟨-, rfl, -⟩ := h.clearBlock hR h₃
  exact ⟨f₃, h₃⟩

theorem exists_redirectBranch (h : Balanced f R) (hback : Backs R)
    (hi : f.instruction? i = some insn) (hnext : ∀ t, next = some t → f.isLive t = true) :
    ∃ r, f.redirectBranch i a next = .ok r := by
  rw [redirectBranch_eq, instruction_eq_ok hi, ok_bind]
  split
  · next htarget =>
    have htarget : insn.target? = some a := eq_of_beq htarget
    cases hb : insn.block with
    | none => exact ⟨_, rfl⟩
    | some b =>
      have hmem := h.owned.mem_listing hi hb
      have hlive := isLive_of_mem_listing hmem
      have hold : ∀ t, some a = some t → f.isLive t = true := by
        rintro t ⟨⟩
        exact h.isLive_driven hback (drivenCount_pos hmem hi htarget)
      have hsym : (f.setInstruction i (insn.redirect a next)).Symmetric :=
        h.symmetric.congr (fun _ => rfl) fun _ => rfl
      simp only [switchEdge_of_isLive hsym hlive hold hnext, ok_bind]
      exact ⟨_, rfl⟩
  · exact ⟨_, rfl⟩

theorem exists_redirectBranches (h : Balanced f R) (hR : Steady R) (hback : Backs R)
    {is : List InsnId} (his : ∀ i ∈ is, (f.instruction? i).isSome = true)
    (hnext : ∀ t, next = some t → f.isLive t = true) :
    ∃ f', Function.redirectBranches a next is f = .ok f' := by
  induction is generalizing f with
  | nil => exact ⟨f, rfl⟩
  | cons i is ih =>
    obtain ⟨insn, hi⟩ := Option.isSome_iff_exists.mp (his i List.mem_cons_self)
    obtain ⟨⟨moved, f₁⟩, hr⟩ := h.exists_redirectBranch (a := a) hback hi hnext
    obtain ⟨hbal, hbec⟩ := h.redirectBranch hR hr
    have his₁ : ∀ j ∈ is, (f₁.instruction? j).isSome = true := by
      intro j hj
      have hsome := his j (List.mem_cons_of_mem i hj)
      rw [hbec.instruction]
      split
      · rw [Option.isSome_map, hsome]
      · exact hsome
    obtain ⟨f₂, h₂⟩ := ih hbal his₁ fun t ht => (hbec.live t).trans (hnext t ht)
    refine ⟨f₂, ?_⟩
    rw [Function.redirectBranches, hr, ok_bind]
    exact h₂

theorem exists_redirect (h : Balanced f R) (hR : Steady R) (hback : Backs R)
    (hs : f.isLive s = true) (hnext : ∀ t, next = some t → f.isLive t = true) :
    ∃ f', f.redirect s a next = .ok f' := by
  obtain ⟨block, hblock⟩ := isLive_iff.mp hs
  rw [redirect_eq, block_eq_ok.mpr hblock, ok_bind]
  have hfirst : ∃ f₁, (if block.fallThrough = some a then f.setFallThrough s next else .ok f) =
      .ok f₁ ∧ Balanced f₁ R ∧ SameBlocks f f₁ := by
    split
    · obtain ⟨f₁, h₁⟩ := h.exists_setFallThrough hback hs hnext
      obtain ⟨hbal, hbec⟩ := h.setFallThrough hR h₁
      exact ⟨f₁, h₁, hbal, hbec.toSameBlocks⟩
    · exact ⟨f, rfl, h, .refl f⟩
  obtain ⟨f₁, h₁, hbal₁, hsame⟩ := hfirst
  obtain ⟨block₁, hblock₁⟩ := isLive_iff.mp ((hsame.live s).trans hs)
  have hlisted : ∀ i ∈ block₁.instructions, (f₁.instruction? i).isSome = true := by
    intro i hi
    rw [← (views_of_block? hblock₁).2.2.2] at hi
    exact hbal₁.owned.isSome_of_mem hi
  obtain ⟨bs, hbs⟩ := exists_branchesAmong hlisted
  rw [h₁, ok_bind, block_eq_ok.mpr hblock₁, ok_bind, hbs, ok_bind]
  refine hbal₁.exists_redirectBranches hR hback ?_ fun t ht => (hsame.live t).trans (hnext t ht)
  intro i hi
  exact hlisted i ((branchesAmong_ok hbs i).mp hi).1

end Balanced

/-- One round: the first predecessor of `b` is led elsewhere. -/
def Reroutes (b : BlockId) (next : Option BlockId) (f f' : Function) : Prop :=
  ∃ s, (f.predecessorsOf b).head? = some s ∧ (f.reroute s b next).outcome = .ok f'

/-- What holds before and after every round. -/
structure Rerouting (raw : RawEdges) (b : BlockId) (next : Option BlockId) (f : Function) :
    Prop where
  balanced : Balanced f (Accounted.owedApart raw b)
  live : f.isLive b = true
  next_ne : next ≠ some b
  next_live : ∀ t, next = some t → f.isLive t = true

theorem backs_owedApart (raw : RawEdges) (b : BlockId) : Backs (Accounted.owedApart raw b) := by
  intro x y d e h
  unfold Accounted.owedApart at h
  split at h
  · exact h
  · omega

namespace Rerouting

theorem exists_reroute (h : Rerouting raw b next f) (hs : f.isLive s = true) :
    ∃ f', (f.reroute s b next).outcome = .ok f' := by
  have hR := Accounted.steady_owedApart raw b
  obtain ⟨before, hbefore⟩ := block_of_isLive h.live
  obtain ⟨f₁, h₁⟩ := h.balanced.exists_redirect (a := b) hR (backs_owedApart raw b) hs h.next_live
  obtain ⟨-, hbal₁, hbec₁⟩ := h.balanced.redirect hR h₁
  have hb₁ : f₁.isLive b = true := (hbec₁.live b).trans h.live
  have hs₁ : f₁.isLive s = true := (hbec₁.live s).trans hs
  obtain ⟨after, hafter⟩ := block_of_isLive hb₁
  rw [outcome_reroute, hbefore, ok_bind, h₁, ok_bind, hafter, ok_bind,
    dropEdge_of_isLive hbal₁.symmetric hs₁ hb₁]
  split
  · exact ⟨_, rfl⟩
  · exact ⟨_, rfl⟩

theorem exists_reroutes (h : Rerouting raw b next f) (hp : f.predecessorsOf b ≠ []) :
    ∃ f', Reroutes b next f f' := by
  obtain ⟨s, rest, hs⟩ := List.exists_cons_of_ne_nil hp
  have hmem : s ∈ f.predecessorsOf b := by simp [hs]
  obtain ⟨f', hf'⟩ := h.exists_reroute (h.balanced.symmetric.isLive_predecessor hmem)
  exact ⟨f', s, by rw [hs, List.head?_cons], hf'⟩

theorem round (h : Rerouting raw b next f) (hr : Reroutes b next f f') :
    Rerouting raw b next f' ∧ SendsOn b next f f' := by
  obtain ⟨s, -, hr⟩ := hr
  obtain ⟨hbal, hsends⟩ := h.balanced.reroute (Accounted.steady_owedApart raw b)
    (Accounted.drops_owedApart raw b) h.next_ne hr
  refine ⟨⟨hbal, (hsends.live b).trans h.live, h.next_ne, ?_⟩, hsends⟩
  intro t ht
  exact (hsends.live t).trans (h.next_live t ht)

theorem length_lt (h : Rerouting raw b next f) (hr : Reroutes b next f f') :
    (f'.predecessorsOf b).length < (f.predecessorsOf b).length := by
  obtain ⟨s, hs, hr⟩ := hr
  have hmem : s ∈ f.predecessorsOf b := List.mem_of_head? hs
  exact ((meets_reroute h.balanced.symmetric hmem h.next_ne).of_ok hr).2

theorem rounds (h : Rerouting raw b next f) (hr : ReflTransGen (Reroutes b next) f f') :
    Rerouting raw b next f' ∧ SendsOn b next f f' := by
  induction hr with
  | refl => exact ⟨h, .refl f⟩
  | tail _ hround ih =>
    obtain ⟨h₁, hsends₁⟩ := ih
    obtain ⟨h₂, hsends₂⟩ := h₁.round hround
    exact ⟨h₂, hsends₁.trans hsends₂⟩

/-- As many rounds as there are predecessors are enough. -/
theorem rerouteAll (rounds : Nat) (h : Rerouting raw b next f)
    (hlen : (f.predecessorsOf b).length ≤ rounds) :
    ∃ f', (rerouteAll b next rounds f).outcome = .ok f' ∧ ReflTransGen (Reroutes b next) f f' ∧
      f'.predecessorsOf b = [] := by
  induction rounds generalizing f with
  | zero => exact ⟨f, rfl, .refl, List.length_eq_zero_iff.mp (by omega)⟩
  | succ rounds ih =>
    obtain ⟨block, hblock⟩ := block_of_isLive h.live
    have hpreds := (views_of_block? (block_eq_ok.mp hblock)).2.1
    rw [outcome_rerouteAll_succ, hblock, ok_bind, ← hpreds]
    cases hp : f.predecessorsOf b with
    | nil => exact ⟨f, rfl, .refl, hp⟩
    | cons s rest =>
      have hmem : s ∈ f.predecessorsOf b := by simp [hp]
      obtain ⟨f₁, h₁⟩ := h.exists_reroute (h.balanced.symmetric.isLive_predecessor hmem)
      have hround : Reroutes b next f f₁ := ⟨s, by rw [hp, List.head?_cons], h₁⟩
      have hlt := h.length_lt hround
      obtain ⟨f₂, h₂, hrounds, hnone⟩ := ih (h.round hround).1 (by omega)
      refine ⟨f₂, ?_, .head hround hrounds, hnone⟩
      simp only [h₁, ok_bind, h₂]

/-- When no predecessor is left, the successors of a cleared block are the ends of its raw edges to
other blocks. -/
theorem successorsOf_eq_nil_iff (h : Rerouting raw b next f) (hl : f.listing b = [])
    (hf : f.fallThroughOf b = none) (hp : f.predecessorsOf b = []) :
    f.successorsOf b = [] ↔ ∀ t, t ≠ b → raw b t = 0 := by
  have hraw : ∀ t, t ≠ b → (f.successorsOf b).count t = raw b t := by
    intro t ht
    have hrule := h.balanced.rule b t
    have hdriven : f.drivenCount b t = 0 := by
      rw [drivenCount, hf, branchCount_eq, hl]
      rfl
    rw [Accounted.owedApart, if_neg ht, hdriven, edgeCount] at hrule
    omega
  constructor
  · intro hs t ht
    rw [← hraw t ht, hs, List.count_nil]
  · intro hzero
    refine List.eq_nil_iff_forall_not_mem.mpr ?_
    intro t hmem
    by_cases ht : t = b
    · have hself := h.balanced.symmetric.mem_iff.mp (ht ▸ hmem)
      rw [hp] at hself
      exact List.not_mem_nil hself
    · have hpos := List.count_pos_iff.mpr hmem
      rw [hraw t ht, hzero t ht] at hpos
      exact Nat.lt_irrefl 0 hpos

end Rerouting

theorem outcome_destroy_of_dead (hb : f.isLive b = false) :
    (f.destroy b).outcome = .error (.deadBlock b) := by
  rw [outcome_destroy, clearBlock, block_eq_error hb]
  rfl

namespace Accounted

theorem clearBlock (h : Accounted f raw) (hb : f.isLive b = true) :
    ∃ f₁, f.clearBlock b = .ok (f.heir b, f₁) ∧ f.Cleared b f₁ ∧
      Rerouting raw b (f.heir b) f₁ := by
  have hbal := h.balanced_owedApart b
  have hR := steady_owedApart raw b
  obtain ⟨f₁, h₁⟩ := hbal.exists_clearBlock hR (backs_owedApart raw b) hb
  obtain ⟨hbal₁, -, hcleared⟩ := hbal.clearBlock hR h₁
  refine ⟨f₁, h₁, hcleared, hbal₁, (hcleared.live b).trans hb, heir_ne f b, ?_⟩
  intro t ht
  exact (hcleared.live t).trans (h.fallThrough_mem (fallThroughOf_of_heir ht)).2

/-- A live block is cleared, its predecessors go in rounds, and only its raw edges to other blocks
can keep it from being forgotten then. -/
theorem destroy_rounds (h : Accounted f raw) (hb : f.isLive b = true) :
    ∃ f₁ f₂, f.clearBlock b = .ok (f.heir b, f₁) ∧ Rerouting raw b (f.heir b) f₁ ∧
      ReflTransGen (Reroutes b (f.heir b)) f₁ f₂ ∧ f₂.predecessorsOf b = [] ∧
      (f.destroy b).outcome = f₂.forgetBlock b ∧ f₂.isLive b = true ∧
      (f₂.successorsOf b = [] ↔ ∀ t, t ≠ b → raw b t = 0) := by
  obtain ⟨f₁, h₁, hcleared, hloop⟩ := h.clearBlock hb
  obtain ⟨block, hblock⟩ := block_of_isLive hloop.live
  have hpreds := (views_of_block? (block_eq_ok.mp hblock)).2.1
  obtain ⟨f₂, h₂, hrounds, hnone⟩ := hloop.rerouteAll _ (Nat.le_refl _)
  obtain ⟨hloop₂, hsends⟩ := hloop.rounds hrounds
  refine ⟨f₁, f₂, h₁, hloop, hrounds, hnone, ?_, hloop₂.live, ?_⟩
  · rw [outcome_destroy, h₁, ok_bind, hblock, ok_bind, ← hpreds, h₂, ok_bind]
  · have hlist : f₂.listing b = [] := by rw [hsends.listing, hcleared.listing, if_pos rfl]
    have hdriven : ∀ c, f₂.drivenCount c b = 0 := by
      intro c
      have hrule := backs_owedApart raw b c b _ _ (hloop₂.balanced.rule c b)
      rw [edgeCount, hloop₂.balanced.symmetric, hnone, List.count_nil] at hrule
      omega
    have hfall : f₂.fallThroughOf b = none := by
      rw [(hsends.becomes hloop₂.balanced.owned hdriven).fallThrough, hcleared.fallThrough,
        if_pos rfl]
      rfl
    exact hloop₂.successorsOf_eq_nil_iff hlist hfall hnone

theorem raw_eq_zero_iff (h : Accounted f raw) :
    (∀ t, t ≠ b → raw b t = 0) ↔ ¬∃ t, t ≠ b ∧ f.drivenCount b t < f.edgeCount b t := by
  constructor
  · rintro hzero ⟨t, ht, hlt⟩
    have hbal := h.balance b t
    rw [hzero t ht] at hbal
    omega
  · intro hnone t ht
    have hbal := h.balance b t
    have hle : ¬f.drivenCount b t < f.edgeCount b t := fun hlt => hnone ⟨t, ht, hlt⟩
    omega

theorem outcome_destroy_eq_error_iff (h : Accounted f raw) (hb : f.isLive b = true) {e : Fault} :
    (f.destroy b).outcome = .error e ↔
      e = .remainingSuccessors ∧ ∃ t, t ≠ b ∧ f.drivenCount b t < f.edgeCount b t := by
  obtain ⟨f₁, f₂, -, -, -, hp, hd, hlive, hs⟩ := h.destroy_rounds hb
  rw [h.raw_eq_zero_iff] at hs
  rw [hd, forgetBlock_eq, if_pos hlive, if_neg (not_not_intro hp)]
  by_cases hleft : ∃ t, t ≠ b ∧ f.drivenCount b t < f.edgeCount b t
  · rw [if_pos fun hnil => hs.mp hnil hleft, Except.error.injEq]
    exact ⟨fun he => ⟨he.symm, hleft⟩, fun he => he.1.symm⟩
  · rw [if_neg (not_not_intro (hs.mpr hleft))]
    simp [hleft]

end Accounted

/-- Destroying a block faults exactly if the block is dead or has a raw edge to another block. -/
theorem destroy_faults_exactly (h : Reached f raw) (b : BlockId) :
    ((∃ e, (f.destroy b).outcome = .error e) ↔
      f.isLive b = false ∨ ∃ s, s ≠ b ∧ f.drivenCount b s < f.edgeCount b s) ∧
    (f.isLive b = false → (f.destroy b).outcome = .error (.deadBlock b)) ∧
    (f.isLive b = true → ∀ e, (f.destroy b).outcome = .error e →
      e = .remainingSuccessors ∧ e.message = "Destroyed block has remaining successors") ∧
    (f.isLive b = true → ∃ f₁, f.clearBlock b = .ok (f.heir b, f₁) ∧
      (∀ g, ReflTransGen (Reroutes b (f.heir b)) f₁ g →
        (g.predecessorsOf b ≠ [] → ∃ g', Reroutes b (f.heir b) g g') ∧
        ∀ g', Reroutes b (f.heir b) g g' →
          (g'.predecessorsOf b).length < (g.predecessorsOf b).length) ∧
      ∃ f₂, ReflTransGen (Reroutes b (f.heir b)) f₁ f₂ ∧ f₂.predecessorsOf b = [] ∧
        (f.destroy b).outcome = f₂.forgetBlock b) := by
  have hacc := h.accounted
  refine ⟨?_, outcome_destroy_of_dead, ?_, ?_⟩
  · cases hb : f.isLive b with
    | false => simp [outcome_destroy_of_dead hb]
    | true => simp [hacc.outcome_destroy_eq_error_iff hb]
  · intro hb e he
    obtain ⟨rfl, -⟩ := (hacc.outcome_destroy_eq_error_iff hb).mp he
    exact ⟨rfl, rfl⟩
  · intro hb
    obtain ⟨f₁, f₂, h₁, hloop, hrounds, hnone, hd, -⟩ := hacc.destroy_rounds hb
    refine ⟨f₁, h₁, ?_, f₂, hrounds, hnone, hd⟩
    intro g hg
    obtain ⟨hloop', -⟩ := hloop.rounds hg
    exact ⟨hloop'.exists_reroutes, fun g' => hloop'.length_lt⟩

/-- Raw edges of a block to itself and from another block do not keep it from being destroyed; a raw
edge to another block does. -/
theorem destroy_despite_self_edges :
    ∃ f raw, Reached f raw ∧ f.successorsOf ⟨2⟩ = [⟨1⟩, ⟨2⟩, ⟨2⟩] ∧
      f.predecessorsOf ⟨2⟩ = [⟨2⟩, ⟨2⟩, ⟨0⟩] ∧ (¬∃ e, (f.destroy ⟨2⟩).outcome = .error e) ∧
      f.successorsOf ⟨0⟩ = [⟨2⟩, ⟨1⟩] ∧ ∃ e, (f.destroy ⟨0⟩).outcome = .error e := by
  have hview : (empty.runOnRecord (fun _ _ => 0) [.addBlock, .setFallThrough ⟨2⟩ (some ⟨1⟩),
      .addEdge ⟨2⟩ ⟨2⟩, .addEdge ⟨2⟩ ⟨2⟩, .addEdge ⟨0⟩ ⟨2⟩, .addEdge ⟨0⟩ ⟨1⟩]).any
        (fun r => r.1.isLive ⟨2⟩ = true ∧ r.1.successorsOf ⟨2⟩ = [⟨1⟩, ⟨2⟩, ⟨2⟩] ∧
          r.1.predecessorsOf ⟨2⟩ = [⟨2⟩, ⟨2⟩, ⟨0⟩] ∧ r.1.drivenCount ⟨2⟩ ⟨1⟩ = 1 ∧
          r.1.successorsOf ⟨0⟩ = [⟨2⟩, ⟨1⟩] ∧ r.1.drivenCount ⟨0⟩ ⟨1⟩ = 0) = true := by
    decide +kernel
  obtain ⟨⟨f, raw⟩, hrun, hf⟩ := (Option.any_eq_true _ _).mp hview
  obtain ⟨hlive, hsucc, hpred, hdriven, hsucc₀, hdriven₀⟩ := of_decide_eq_true hf
  have h := Reached.new.runOnRecord hrun
  refine ⟨f, raw, h, hsucc, hpred, ?_, hsucc₀, ?_⟩
  · rw [(destroy_faults_exactly h ⟨2⟩).1]
    rintro (hdead | ⟨s, hs, hlt⟩)
    · rw [hlive] at hdead
      cases hdead
    · rw [edgeCount, hsucc] at hlt
      by_cases h₁ : s = ⟨1⟩
      · rw [h₁, hdriven] at hlt
        exact absurd hlt (by decide)
      · have hzero : [(⟨1⟩ : BlockId), ⟨2⟩, ⟨2⟩].count s = 0 := by
          rw [List.count_eq_zero]
          simp [h₁, hs]
        omega
  · refine (destroy_faults_exactly h ⟨0⟩).1.mpr (.inr ⟨⟨1⟩, by decide, ?_⟩)
    rw [edgeCount, hsucc₀, hdriven₀]
    decide

namespace Destroyed

/-- The instructions of `b` are gone; all others are kept, and those that led to `b` lead on to its
heir, or nowhere if no block lists them. -/
theorem instruction_eq (h : Destroyed f b f') (ho : f.Owned) (i : InsnId) :
    f'.instruction? i = if i ∈ f.listing b then none else (f.instruction? i).map fun insn =>
      insn.redirect b (if insn.block = none then none else f.heir b) := by
  rw [h.instruction]
  cases hi : f.instruction? i with
  | none =>
    split
    · rfl
    · rfl
  | some insn =>
    have hmem : i ∈ f.listing b ↔ insn.block = some b := by
      rw [ho.mem_iff, homeOf, hi, Option.bind_some]
    rw [Option.bind_some, Option.map_some, Instruction.outlive]
    by_cases hb : insn.block = some b
    · rw [if_pos hb, if_pos (hmem.mpr hb)]
    · rw [if_neg hb, if_neg fun hin => hb (hmem.mp hin)]
      split
      · rfl
      · rfl

end Destroyed

/-- A destroyed block takes its instructions and its raw edges along, and what led to it goes on to
its heir. -/
theorem destroy_effect (h : Reached f raw) (hd : (f.destroy b).outcome = .ok f') :
    f.isLive b = true ∧ (∀ c, f'.isLive c = true ↔ c ≠ b ∧ f.isLive c = true) ∧
    (∀ c, b ∉ f'.successorsOf c ∧ b ∉ f'.predecessorsOf c) ∧
    (∀ p, p ≠ b →
      (∀ x, x ≠ b → f'.edgeCount p x =
        f.edgeCount p x + if f.heir b = some x then f.drivenCount p b else 0) ∧
      f'.fallThroughOf p =
        (if f.fallThroughOf p = some b then f.heir b else f.fallThroughOf p) ∧
      f'.listing p = f.listing p) ∧
    (∀ i, f'.instruction? i = if i ∈ f.listing b then none else
      (f.instruction? i).map fun insn => if insn.target? = some b then
        { insn with
          operation := insn.operation.withTarget (if insn.block = none then none else f.heir b) }
        else insn) ∧
    f'.registers = f.registers ∧ f'.order = f.order.filter (· ≠ b) := by
  have hacc := h.accounted
  have hdone := hacc.destroyed hd
  have hsym := (hacc.destroy hd).symmetric
  have hdead : f'.isLive b ≠ true := fun hb => ((hdone.live b).mp hb).1 rfl
  refine ⟨?_, hdone.live, ?_, ?_, ?_, hdone.registers, hdone.order⟩
  · cases hb : f.isLive b with
    | true => rfl
    | false =>
      rw [outcome_destroy_of_dead hb] at hd
      cases hd
  · intro c
    exact ⟨fun hmem => hdead (hsym.isLive_successor hmem),
      fun hmem => hdead (hsym.isLive_predecessor hmem)⟩
  · intro p hp
    exact ⟨fun x hx => hacc.edgeCount_destroy hd hp hx, hdone.fallThrough p hp,
      hdone.listing p hp⟩
  · intro i
    rw [hdone.instruction_eq hacc.owned]
    simp only [Instruction.redirect_eq_ite]

/-- A fall-through and a branch are sent on, a raw edge is dropped, a detached branch loses its
target, and the instruction of the block is deleted. -/
theorem destroy_effect_two_ways :
    ∃ f raw f', Reached f raw ∧ (f.destroy ⟨2⟩).outcome = .ok f' ∧ f.edgeCount ⟨0⟩ ⟨2⟩ = 3 ∧
      f.edgeCount ⟨0⟩ ⟨1⟩ = 1 ∧ ⟨2⟩ ∉ f'.successorsOf ⟨0⟩ ∧ f'.edgeCount ⟨0⟩ ⟨1⟩ = 3 ∧
      f'.fallThroughOf ⟨0⟩ = some ⟨1⟩ ∧
      f'.instruction? ⟨0⟩ = some { operation := .branch ⟨0⟩ (some ⟨1⟩), block := some ⟨0⟩ } ∧
      f'.instruction? ⟨1⟩ = none ∧
      f'.instruction? ⟨2⟩ = some { operation := .branch ⟨0⟩ none } := by
  have hview : (empty.runOnRecord (fun _ _ => 0) [.addBlock, .setFallThrough ⟨2⟩ (some ⟨1⟩),
      .setFallThrough ⟨0⟩ (some ⟨2⟩), .append ⟨0⟩ (.branch ⟨0⟩ (some ⟨2⟩)), .append ⟨2⟩ .nop,
      .addInstruction (.branch ⟨0⟩ (some ⟨2⟩)), .addEdge ⟨0⟩ ⟨2⟩, .addEdge ⟨0⟩ ⟨1⟩]).any
        (fun r => (r.1.destroy ⟨2⟩).outcome.isOk = true ∧ r.1.heir ⟨2⟩ = some ⟨1⟩ ∧
          r.1.listing ⟨2⟩ = [⟨1⟩] ∧ r.1.edgeCount ⟨0⟩ ⟨2⟩ = 3 ∧ r.1.edgeCount ⟨0⟩ ⟨1⟩ = 1 ∧
          r.1.drivenCount ⟨0⟩ ⟨2⟩ = 2 ∧ r.1.fallThroughOf ⟨0⟩ = some ⟨2⟩ ∧
          r.1.instruction? ⟨0⟩ =
            some { operation := .branch ⟨0⟩ (some ⟨2⟩), block := some ⟨0⟩ } ∧
          r.1.instruction? ⟨2⟩ = some { operation := .branch ⟨0⟩ (some ⟨2⟩) }) = true := by
    decide +kernel
  obtain ⟨⟨f, raw⟩, hrun, hf⟩ := (Option.any_eq_true _ _).mp hview
  obtain ⟨hok, hheir, hlist, hin, hout, hdriven, hfall, hinsn₀, hinsn₂⟩ := of_decide_eq_true hf
  have h := Reached.new.runOnRecord hrun
  cases hd : (f.destroy ⟨2⟩).outcome with
  | error e =>
    rw [hd] at hok
    cases hok
  | ok f' =>
    obtain ⟨-, -, hgone, hblocks, hinsns, -⟩ := destroy_effect h hd
    obtain ⟨hedges, hfall', -⟩ := hblocks ⟨0⟩ (by decide)
    refine ⟨f, raw, f', h, hd, hin, hout, (hgone ⟨0⟩).1, ?_, ?_, ?_, ?_, ?_⟩
    · rw [hedges ⟨1⟩ (by decide), hheir, hout, hdriven]
      rfl
    · rw [hfall', hfall, hheir]
      rfl
    · rw [hinsns, hlist, hinsn₀, hheir]
      rfl
    · rw [hinsns, hlist]
      rfl
    · rw [hinsns, hlist, hinsn₂]
      rfl

end FlowGraph.Function
