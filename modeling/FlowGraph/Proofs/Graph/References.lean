import FlowGraph.Proofs.Graph.Discipline

/-!
# References

A fall-through or a listed branch refers to a block, and an edge stands for the reference. Taking
away an edge where all of them stand for references cuts one: the reference stays, and a later
destruction of the block that it names does not find it. Along any run whatever, this is the only
way in which a reference can come to lack its edge.
-/

namespace FlowGraph.Function

set_option autoImplicit false

variable {f f' : Function} {edits : List Edit} {b s : BlockId} {R R' : EdgeRule}

theorem outcome_run_cons (f : Function) (edit : Edit) (edits : List Edit) :
    (f.run (edit :: edits)).outcome =
      (f.apply edit).outcome >>= fun r => (r.2.run edits).outcome := by
  simp only [run, Logged.outcome_bind]

/-- What every edit of a run keeps, the run keeps. -/
theorem run_keeps {P : Function → Prop}
    (hstep : ∀ edit ∈ edits, ∀ f f' reply, P f → (f.apply edit).outcome = .ok (reply, f') → P f')
    (h : P f) (hr : (f.run edits).outcome = .ok f') : P f' := by
  induction edits generalizing f with
  | nil =>
    cases hr
    exact h
  | cons edit edits ih =>
    rw [outcome_run_cons] at hr
    obtain ⟨r, ha, hr⟩ := bind_eq_ok_iff.mp hr
    have hnext : P r.2 := hstep edit List.mem_cons_self f r.2 r.1 h ha
    exact ih (fun edit hmem => hstep edit (List.mem_cons_of_mem _ hmem)) hnext hr

/-- There is an edge for every reference, except from and to blocks where one was cut. -/
def upTo (cut : BlockId → BlockId → Prop) : EdgeRule := fun b s d e => cut b s ∨ d ≤ e

theorem steady_upTo (cut : BlockId → BlockId → Prop) : Steady (upTo cut) := by
  refine ⟨?_, ?_⟩
  · intro b s d e h
    exact h.imp_right Nat.succ_le_succ
  · intro b s d e h
    exact h.imp_right fun hle => Nat.le_sub_one_of_lt hle

theorem Balanced.mono (h : Balanced f R) (hR : ∀ b s d e, R b s d e → R' b s d e) :
    Balanced f R' :=
  ⟨h.symmetric, h.owned, h.numbered, fun b s => hR b s _ _ (h.rule b s)⟩

/-- The edit takes away an edge although all of its kind stand for references. -/
def Severs (f : Function) (edit : Edit) (b s : BlockId) : Prop :=
  edit = .removeEdge b s ∧ f.allows edit = false

theorem Balanced.apply_upTo {cut : BlockId → BlockId → Prop} (h : Balanced f (upTo cut))
    {edit : Edit} {reply : Reply} (ha : (f.apply edit).outcome = .ok (reply, f')) :
    Balanced f' (upTo fun b s => cut b s ∨ f.Severs edit b s) := by
  have hsteady := steady_upTo cut
  have hweaken : ∀ b s d e, upTo cut b s d e →
      upTo (fun b s => cut b s ∨ f.Severs edit b s) b s d e :=
    fun b s d e hcut => hcut.imp_left .inl
  cases edit with
  | addEdge source target =>
    obtain ⟨-, h₁⟩ := apply_ok ha
    obtain ⟨hs, ht, rfl⟩ := addEdge_ok h₁
    refine h.withEdge hs ht ?_
    intro x y d e hxy
    exact (hweaken x y d e hxy).imp_right fun hle => Nat.le_trans hle (Nat.le_add_right ..)
  | removeEdge source target =>
    obtain ⟨removed, -, h₁⟩ := apply_ok ha
    obtain ⟨-, -, heq⟩ := removeEdge_ok h₁
    obtain ⟨rfl, rfl⟩ := Prod.mk.inj heq
    refine h.withoutEdge ?_
    intro x y
    have hxy := hweaken x y _ _ (h.rule x y)
    by_cases hst : x = source ∧ y = target
    · obtain ⟨rfl, rfl⟩ := hst
      cases hallowed : f.allows (.removeEdge x y) with
      | false => exact .inl (.inr ⟨rfl, hallowed⟩)
      | true =>
        have hspare := of_decide_eq_true hallowed
        refine hxy.imp_right fun hle => ?_
        rw [if_pos ⟨rfl, rfl⟩]
        omega
    · rw [if_neg hst]
      exact hxy
  | destroy block =>
    obtain ⟨-, h₁⟩ := apply_ok ha
    have hdrop : Balanced.Drops (upTo cut) block := fun x e _ => .inr (Nat.zero_le _)
    exact (h.destroy hsteady hdrop (fun _ => .inr (Nat.zero_le _)) h₁).mono hweaken
  | _ => exact (h.apply hsteady rfl ha).mono hweaken

/-- Somewhere in these edits of `f`, an edge from `b` to `s` was taken away although all of them
stood for references. -/
def Cut (f : Function) (edits : List Edit) (b s : BlockId) : Prop :=
  ∃ above below g, edits = above ++ .removeEdge b s :: below ∧ (f.run above).outcome = .ok g ∧
    g.Severs (.removeEdge b s) b s

theorem Cut.of_severs {edit : Edit} (h : f.Severs edit b s) : f.Cut (edit :: edits) b s := by
  obtain ⟨rfl, hallowed⟩ := h
  exact ⟨[], edits, f, rfl, rfl, rfl, hallowed⟩

theorem Cut.cons {edit : Edit} {r : Reply × Function} (ha : (f.apply edit).outcome = .ok r)
    (h : r.2.Cut edits b s) : f.Cut (edit :: edits) b s := by
  obtain ⟨above, below, g, rfl, hg, hsev⟩ := h
  refine ⟨edit :: above, below, g, rfl, ?_, hsev⟩
  rw [outcome_run_cons, ha]
  exact hg

theorem Balanced.run_upTo {cut : BlockId → BlockId → Prop} (h : Balanced f (upTo cut))
    (hr : (f.run edits).outcome = .ok f') :
    Balanced f' (upTo fun b s => cut b s ∨ f.Cut edits b s) := by
  induction edits generalizing f cut with
  | nil =>
    cases hr
    exact h.mono fun b s d e hcut => hcut.imp_left .inl
  | cons edit edits ih =>
    rw [outcome_run_cons] at hr
    obtain ⟨r, ha, hr⟩ := bind_eq_ok_iff.mp hr
    refine (ih (h.apply_upTo ha) hr).mono fun b s d e hcut => hcut.imp_left ?_
    rintro ((hold | hsev) | hlater)
    · exact .inl hold
    · exact .inr (.of_severs hsev)
    · exact .inr (hlater.cons ha)

theorem balanced_run (hr : (empty.run edits).outcome = .ok f) :
    Balanced f (upTo (empty.Cut edits)) := by
  have hnew : Balanced empty (upTo fun _ _ => False) := by
    refine (accounted_iff.mp accounted_empty).mono fun b s d e howed => .inr ?_
    unfold owed at howed
    omega
  exact (hnew.run_upTo hr).mono fun b s d e h => h.imp_left fun hcut => hcut.resolve_left id

theorem Balanced.mem_successorsOf {cut : BlockId → BlockId → Prop} (h : Balanced f (upTo cut))
    (hcut : ¬ cut b s) (hd : 0 < f.drivenCount b s) :
    s ∈ f.successorsOf b ∧ f.isLive s = true := by
  have hle := (h.rule b s).resolve_left hcut
  exact h.symmetric.mem_successorsOf (Nat.lt_of_lt_of_le hd hle)

/-- A fall-through or a listed branch leads to a live successor unless the run has cut its edge. -/
theorem run_references_live (hr : (empty.run edits).outcome = .ok f) :
    (∀ b block s, f.block? b = some block → block.fallThrough = some s →
      ¬ empty.Cut edits b s → s ∈ block.successors ∧ f.isLive s = true) ∧
    (∀ i insn b s, f.instruction? i = some insn → insn.block = some b → insn.target? = some s →
      ¬ empty.Cut edits b s →
      ∃ block, f.block? b = some block ∧ s ∈ block.successors ∧ f.isLive s = true) ∧
    ∀ b, f.firstInconsistent? = some b →
      ∃ s, f.fallThroughOf b = some s ∧ s ∉ f.successorsOf b ∧ empty.Cut edits b s := by
  have hbal := balanced_run hr
  refine ⟨?_, ?_, ?_⟩
  · intro b block s hb hfall hcut
    obtain ⟨hs, -, hf, -⟩ := views_of_block? hb
    exact hs ▸ hbal.mem_successorsOf hcut (drivenCount_pos_of_fallThrough (hf.trans hfall))
  · intro i insn b s hi hb ht hcut
    have hmem := hbal.owned.mem_listing hi hb
    obtain ⟨block, hblock⟩ := isLive_iff.mp (isLive_of_mem_listing hmem)
    have hsucc := hbal.mem_successorsOf hcut (drivenCount_pos hmem hi ht)
    exact ⟨block, hblock, (views_of_block? hblock).1 ▸ hsucc⟩
  · intro b hb
    obtain ⟨s, hfall, hmem⟩ := hbal.symmetric.of_firstInconsistent? hbal.numbered hb
    refine ⟨s, hfall, hmem, ?_⟩
    apply Classical.byContradiction
    intro hcut
    exact hmem (hbal.mem_successorsOf hcut (drivenCount_pos_of_fallThrough hfall)).1

theorem not_cut_of_notMem (h : .removeEdge b s ∉ edits) : ¬ f.Cut edits b s := by
  rintro ⟨above, below, g, rfl, -, -⟩
  exact h (by simp)

/-- One reference of a block is cut, the other one stays as it should. -/
theorem references_live_beside_cut :
    ∃ f, (empty.run [.addBlock, .setFallThrough ⟨0⟩ (some ⟨2⟩),
        .append ⟨0⟩ (.branch ⟨0⟩ (some ⟨1⟩)), .removeEdge ⟨0⟩ ⟨2⟩, .destroy ⟨2⟩]).outcome = .ok f ∧
      f.instruction? ⟨0⟩ = some ⟨.branch ⟨0⟩ (some ⟨1⟩), some ⟨0⟩⟩ ∧
      ∃ block, f.block? ⟨0⟩ = some block ∧ ⟨1⟩ ∈ block.successors ∧ f.isLive ⟨1⟩ = true := by
  have hview : ((empty.run [.addBlock, .setFallThrough ⟨0⟩ (some ⟨2⟩),
      .append ⟨0⟩ (.branch ⟨0⟩ (some ⟨1⟩)), .removeEdge ⟨0⟩ ⟨2⟩, .destroy ⟨2⟩]).outcome.toOption.map
        (·.instruction? ⟨0⟩)) = some (some ⟨.branch ⟨0⟩ (some ⟨1⟩), some ⟨0⟩⟩) := by
    decide +kernel
  obtain ⟨f, hf, hi⟩ := Option.map_eq_some_iff.mp hview
  have hok := eq_ok_of_toOption hf
  refine ⟨f, hok, hi, ?_⟩
  exact (run_references_live hok).2.1 ⟨0⟩ _ ⟨0⟩ ⟨1⟩ hi rfl rfl (not_cut_of_notMem (by decide))

/-- A fall-through and a branch outlive their block, because their edges were taken away before. -/
theorem references_outlive_block :
    ∃ f block, (empty.run [.addBlock, .setFallThrough ⟨0⟩ (some ⟨2⟩),
        .append ⟨0⟩ (.branch ⟨0⟩ (some ⟨2⟩)), .removeEdge ⟨0⟩ ⟨2⟩, .removeEdge ⟨0⟩ ⟨2⟩,
        .destroy ⟨2⟩]).outcome = .ok f ∧
      f.block? ⟨0⟩ = some block ∧ block.fallThrough = some ⟨2⟩ ∧ block.successors = [] ∧
      f.instruction? ⟨0⟩ = some ⟨.branch ⟨0⟩ (some ⟨2⟩), some ⟨0⟩⟩ ∧ f.isLive ⟨2⟩ = false ∧
      f.firstInconsistent? = some ⟨0⟩ := by
  have hview : (empty.run [.addBlock, .setFallThrough ⟨0⟩ (some ⟨2⟩),
      .append ⟨0⟩ (.branch ⟨0⟩ (some ⟨2⟩)), .removeEdge ⟨0⟩ ⟨2⟩, .removeEdge ⟨0⟩ ⟨2⟩,
      .destroy ⟨2⟩]).outcome.toOption.map
        (fun f => ((f.block? ⟨0⟩).map fun x => (x.fallThrough, x.successors), f.instruction? ⟨0⟩,
          f.isLive ⟨2⟩, f.firstInconsistent?)) =
      some (some (some ⟨2⟩, []), some ⟨.branch ⟨0⟩ (some ⟨2⟩), some ⟨0⟩⟩, false, some ⟨0⟩) := by
    decide +kernel
  obtain ⟨f, hf, hfields⟩ := Option.map_eq_some_iff.mp hview
  simp only [Prod.mk.injEq, Option.map_eq_some_iff] at hfields
  obtain ⟨⟨block, hblock, hfall, hsucc⟩, hrest⟩ := hfields
  exact ⟨f, block, eq_ok_of_toOption hf, hblock, hfall, hsucc, hrest⟩

end FlowGraph.Function
