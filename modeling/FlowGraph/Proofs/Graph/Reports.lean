import FlowGraph.Proofs.Graph.Demolition

/-!
# The log of a destruction

A destruction reports that it begins, and then every round of rerouting. What a round reports is
decided by the number of predecessors before and after it. If its source drives edges to the block,
all of them are sent on at once and the number falls; else it stays, and the round drops one raw
edge. Nothing is ever sent back to the block. So of each source the first round reports the
rerouting, if there is any, and each later one reports a raw edge.
-/

namespace FlowGraph

set_option autoImplicit false

/-- Whether an event tells what became of an edge from `p`. -/
def Event.concerns (p : BlockId) : Event → Bool
  | rerouted source _ _ | droppedRawEdge source _ => source = p
  | _ => false

namespace Function

variable {f f' g : Function} {raw raw₀ : RawEdges} {b s p : BlockId} {next : Option BlockId}
  {e : Event} {trace : List Event}

/-- The rounds of rerouting until `b` has no predecessor, with the one event that each reports. -/
inductive Rounds (b : BlockId) (next : Option BlockId) : Function → List Event → Function → Prop
  | done {f : Function} : f.predecessorsOf b = [] → Rounds b next f [] f
  | round {f g f' : Function} {s : BlockId} {e : Event} {trace : List Event} :
      (f.predecessorsOf b).head? = some s → f.reroute s b next = ⟨.ok g, [e]⟩ →
      Rounds b next g trace f' → Rounds b next f (e :: trace) f'

/-- What is to be reported of the edges from `p` to `b`: once that the driven ones are sent on, and
then each raw one. -/
def due (f : Function) (raw : RawEdges) (b : BlockId) (next : Option BlockId) (p : BlockId) :
    List Event :=
  (if 0 < f.drivenCount p b then [.rerouted p b next] else []) ++
    List.replicate (raw p b) (.droppedRawEdge p b)

theorem reroute_eq (hr : f.redirect s b next = .ok g) (hf : f.isLive b = true)
    (hg : g.isLive b = true) : f.reroute s b next =
      if (g.predecessorsOf b).length = (f.predecessorsOf b).length then
        ⟨g.dropEdge s b, [.droppedRawEdge s b]⟩
      else ⟨.ok g, [.rerouted s b next]⟩ := by
  obtain ⟨before, hbefore⟩ := isLive_iff.mp hf
  obtain ⟨after, hafter⟩ := isLive_iff.mp hg
  rw [reroute, block_eq_ok.mpr hbefore, Logged.lift_ok_bind, hr, Logged.lift_ok_bind,
    block_eq_ok.mpr hafter, Logged.lift_ok_bind, (views_of_block? hbefore).2.1,
    (views_of_block? hafter).2.1]
  split
  · cases g.dropEdge s b <;> rfl
  · rfl

namespace Accounted

theorem count_predecessorsOf (h : Accounted f raw) (p b : BlockId) :
    (f.predecessorsOf b).count p = f.drivenCount p b + raw p b := by
  rw [← h.symmetric]
  exact h.balance p b

theorem redirect (h : Accounted f raw) (hr : f.redirect s b next = .ok g) : Accounted g raw :=
  accounted_iff.mpr ((accounted_iff.mp h).redirect (steady_owed raw) hr).2.1

theorem drivenCount_redirect (h : Accounted f raw) (hb : next ≠ some b)
    (hr : f.redirect s b next = .ok g) (p : BlockId) :
    g.drivenCount p b = if p = s then 0 else f.drivenCount p b := by
  have hmoved := (accounted_iff.mp h).drivenCount_redirect (steady_owed raw) hr p b
  simp only [hb, and_true, and_false, if_false, Nat.add_zero] at hmoved
  split
  · next hp =>
    rw [if_pos hp, hp] at hmoved
    rw [hp]
    omega
  · next hp => rwa [if_neg hp] at hmoved

/-- A redirection keeps the number of predecessors if and only if there is nothing to send on. -/
theorem length_redirect (h : Accounted f raw) (hb : next ≠ some b)
    (hr : f.redirect s b next = .ok g) :
    (g.predecessorsOf b).length = (f.predecessorsOf b).length ↔ f.drivenCount s b = 0 := by
  have hcount : ∀ p, (g.predecessorsOf b).count p =
      (if p = s then 0 else f.drivenCount p b) + raw p b := by
    intro p
    rw [(h.redirect hr).count_predecessorsOf, h.drivenCount_redirect hb hr]
  constructor
  · intro hlen
    have hsub := ((meets_redirect h.symmetric).of_ok hr).shrinks b hb
    have hs := hcount s
    rw [hsub.eq_of_length hlen, h.count_predecessorsOf, if_pos rfl] at hs
    omega
  · intro hnone
    refine (List.perm_iff_count.mpr fun p => ?_).length_eq
    rw [hcount, h.count_predecessorsOf]
    split
    · next hp => rw [hp, hnone]
    · rfl

end Accounted

theorem eq_of_mem_due (h : e ∈ due f raw b next p) :
    e = .rerouted p b next ∨ e = .droppedRawEdge p b := by
  rcases List.mem_append.mp h with he | he
  · split at he
    · exact .inl (List.mem_singleton.mp he)
    · exact absurd he List.not_mem_nil
  · exact .inr (List.eq_of_mem_replicate he)

theorem concerns_of_mem_due {q : BlockId} (h : e ∈ due f raw b next p) :
    e.concerns q = decide (p = q) := by
  rcases eq_of_mem_due h with rfl | rfl
  · rfl
  · rfl

theorem count_rerouted_due : (due f raw b next p).count (.rerouted p b next) =
    if 0 < f.drivenCount p b then 1 else 0 := by
  have hdrops : (List.replicate (raw p b) (Event.droppedRawEdge p b)).count (.rerouted p b next) =
      0 := by simp [List.count_replicate]
  rw [due, List.count_append, hdrops]
  split
  · simp
  · rfl

theorem count_droppedRawEdge_due :
    (due f raw b next p).count (.droppedRawEdge p b) = raw p b := by
  rw [due, List.count_append, List.count_replicate_self]
  split
  · simp
  · simp

theorem not_sublist_due :
    ¬[.droppedRawEdge p b, .rerouted p b next].Sublist (due f raw b next p) := by
  have hdrops : ∀ n, ¬[.droppedRawEdge p b, .rerouted p b next].Sublist
      (List.replicate n (Event.droppedRawEdge p b)) := by
    intro n hsub
    have hmem := hsub.subset (List.mem_cons_of_mem _ List.mem_cons_self)
    cases List.eq_of_mem_replicate hmem
  unfold due
  split
  · intro hsub
    cases hsub with
    | cons _ hsub => exact hdrops _ hsub
  · exact hdrops _

theorem due_eq_of_driven (hpos : 0 < f.drivenCount s b)
    (hdriven : ∀ p, g.drivenCount p b = if p = s then 0 else f.drivenCount p b) (p : BlockId) :
    due f raw b next p =
      (if p = s then [.rerouted s b next] else []) ++ due g raw b next p := by
  unfold due
  rw [hdriven]
  by_cases hp : p = s
  · simp [hp, hpos]
  · simp [hp]

theorem due_eq_of_raw (hnone : f.drivenCount s b = 0) (hraw : 0 < raw s b)
    (hdriven : ∀ p, g.drivenCount p b = if p = s then 0 else f.drivenCount p b) (p : BlockId) :
    due f raw b next p =
      (if p = s then [.droppedRawEdge s b] else []) ++
        due g (RawEdges.remove raw s b) b next p := by
  unfold due RawEdges.remove
  rw [hdriven]
  by_cases hp : p = s
  · obtain ⟨n, hn⟩ := Nat.exists_eq_add_one.mpr hraw
    simp [hp, hnone, hn, List.replicate_succ]
  · simp [hp]

namespace Rerouting

/-- A round reports the first thing that is due of its source and settles it. -/
theorem exists_round (h : Rerouting raw₀ b next f) (hacc : Accounted f raw)
    (hs : (f.predecessorsOf b).head? = some s) :
    ∃ g e raw', f.reroute s b next = ⟨.ok g, [e]⟩ ∧ Rerouting raw₀ b next g ∧ Accounted g raw' ∧
      ∀ p, due f raw b next p = (if p = s then [e] else []) ++ due g raw' b next p := by
  have hmem : s ∈ f.predecessorsOf b := List.mem_of_head? hs
  have hlive := hacc.symmetric.isLive_predecessor hmem
  obtain ⟨g, hr⟩ := (accounted_iff.mp hacc).exists_redirect (a := b) (steady_owed raw)
    (backs_owed raw) hlive h.next_live
  have hsame := ((accounted_iff.mp hacc).redirect (steady_owed raw) hr).2.2.toSameBlocks
  have hg := hacc.redirect hr
  have hdriven := hacc.drivenCount_redirect h.next_ne hr
  have hlen := hacc.length_redirect h.next_ne hr
  have heq := reroute_eq hr h.live ((hsame.live b).trans h.live)
  by_cases hnone : f.drivenCount s b = 0
  · have hraw : 0 < raw s b := by
      have hpos := List.count_pos_iff.mpr hmem
      rwa [hacc.count_predecessorsOf, hnone, Nat.zero_add] at hpos
    have hallowed : g.drivenCount s b < g.edgeCount s b := by
      rw [hg.balance]
      omega
    rw [if_pos (hlen.mpr hnone), dropEdge_of_isLive hg.symmetric ((hsame.live s).trans hlive)
      ((hsame.live b).trans h.live)] at heq
    refine ⟨_, _, _, heq, (h.round ⟨s, hs, congrArg Logged.outcome heq⟩).1,
      hg.withoutEdge (.inr hallowed), due_eq_of_raw hnone hraw ?_⟩
    intro p
    rw [drivenCount_sameBodies (.withoutEdge ..), hdriven]
  · rw [if_neg (mt hlen.mp hnone)] at heq
    exact ⟨_, _, _, heq, (h.round ⟨s, hs, congrArg Logged.outcome heq⟩).1, hg,
      due_eq_of_driven (Nat.pos_of_ne_zero hnone) hdriven⟩

theorem due_of_round (h : Rerouting raw₀ b next f) (hacc : Accounted f raw)
    (hs : (f.predecessorsOf b).head? = some s) (hr : f.reroute s b next = ⟨.ok g, [e]⟩) :
    ∃ raw', Rerouting raw₀ b next g ∧ Accounted g raw' ∧
      ∀ p, due f raw b next p = (if p = s then [e] else []) ++ due g raw' b next p := by
  obtain ⟨g', e', raw', hr', hround⟩ := h.exists_round hacc hs
  rw [hr] at hr'
  cases hr'
  exact ⟨raw', hround⟩

end Rerouting

theorem Accounted.due_of_nil (h : Accounted f raw) (hp : f.predecessorsOf b = []) :
    due f raw b next p = [] := by
  have hcount := h.count_predecessorsOf p b
  rw [hp, List.count_nil] at hcount
  have hdriven : f.drivenCount p b = 0 := by omega
  have hraw : raw p b = 0 := by omega
  rw [due, hdriven, hraw]
  rfl

/-- The loop goes on as long as there is a predecessor, and each round reports one event. -/
theorem Rerouting.rerouteAll_rounds (rounds : Nat) (h : Rerouting raw₀ b next f)
    (hacc : Accounted f raw) (hlen : (f.predecessorsOf b).length ≤ rounds) :
    ∃ f' trace, Function.rerouteAll b next rounds f = ⟨.ok f', trace⟩ ∧
      Rounds b next f trace f' := by
  induction rounds generalizing f raw with
  | zero => exact ⟨f, [], rfl, .done (List.length_eq_zero_iff.mp (by omega))⟩
  | succ rounds ih =>
    obtain ⟨block, hblock⟩ := isLive_iff.mp h.live
    have hpreds := (views_of_block? hblock).2.1
    rw [Function.rerouteAll, block_eq_ok.mpr hblock, Logged.lift_ok_bind, ← hpreds]
    cases hp : f.predecessorsOf b with
    | nil => exact ⟨f, [], rfl, .done hp⟩
    | cons s rest =>
      have hs : (f.predecessorsOf b).head? = some s := by rw [hp, List.head?_cons]
      obtain ⟨g, e, raw', hr, hg, hacc', -⟩ := h.exists_round hacc hs
      have hlt := h.length_lt ⟨s, hs, congrArg Logged.outcome hr⟩
      obtain ⟨f', trace, hall, hrounds⟩ := ih hg hacc' (by omega)
      refine ⟨f', e :: trace, ?_, .round hs hr hrounds⟩
      simp only [Logged.bind_of_ok hr, hall]
      rfl

namespace Rounds

/-- Whatever is due of a source is reported in order, and nothing else of it. -/
theorem filter_eq (hr : Rounds b next f trace f') (h : Rerouting raw₀ b next f)
    (hacc : Accounted f raw) (p : BlockId) :
    trace.filter (Event.concerns p) = due f raw b next p := by
  induction hr generalizing raw with
  | done hp => exact (hacc.due_of_nil hp).symm
  | @round f g f' s e trace hs hr _ ih =>
    obtain ⟨raw', hg, hacc', hdue⟩ := h.due_of_round hacc hs hr
    have hmem : e ∈ due f raw b next s := by
      rw [hdue, if_pos rfl]
      exact List.mem_cons_self
    rw [List.filter_cons, concerns_of_mem_due hmem, ih hg hacc', hdue]
    by_cases hp : p = s
    · simp [hp]
    · simp [hp, Ne.symm hp]

theorem exists_of_mem (hr : Rounds b next f trace f') (h : Rerouting raw₀ b next f)
    (hacc : Accounted f raw) (he : e ∈ trace) : ∃ p, e ∈ due f raw b next p := by
  induction hr generalizing raw with
  | done hp => exact absurd he List.not_mem_nil
  | @round f g f' s e' trace hs hr _ ih =>
    obtain ⟨raw', hg, hacc', hdue⟩ := h.due_of_round hacc hs hr
    rcases List.mem_cons.mp he with rfl | he
    · refine ⟨s, ?_⟩
      rw [hdue, if_pos rfl]
      exact List.mem_cons_self
    · obtain ⟨p, hp⟩ := ih hg hacc' he
      refine ⟨p, ?_⟩
      rw [hdue]
      exact List.mem_append_right _ hp

end Rounds

theorem drivenCount_pos_iff : 0 < f.drivenCount p b ↔
    f.fallThroughOf p = some b ∨ ∃ insn ∈ f.instructionsOf p, insn.target? = some b := by
  have hbranch : 0 < f.branchCount p b ↔ ∃ insn ∈ f.instructionsOf p, insn.target? = some b := by
    simp only [branchCount, List.countP_pos_iff, Encoding.targets, beq_iff_eq,
      Instruction.target?]
  rw [← hbranch, drivenCount]
  by_cases hfall : f.fallThroughOf p = some b
  · simp only [hfall, if_true, true_or, iff_true]
    omega
  · simp [hfall]

namespace Cleared

theorem instructionsOf (h : f.Cleared b g) (ho : f.Owned) (hp : p ≠ b) :
    g.instructionsOf p = f.instructionsOf p := by
  rw [instructionsOf_eq, instructionsOf_eq, h.listing, if_neg hp]
  refine List.filterMap_congr fun i hi => ?_
  obtain ⟨insn, hinsn, hhome⟩ := ho.exists_of_mem hi
  rw [h.instruction, hinsn]
  simp [hhome, hp]

/-- A cleared block drives nothing, and the others drive what they did. -/
theorem drivenCount (h : f.Cleared b g) (ho : f.Owned) (p x : BlockId) :
    g.drivenCount p x = if p = b then 0 else f.drivenCount p x := by
  unfold Function.drivenCount Function.branchCount
  rw [h.fallThrough]
  split
  · next hp =>
    rw [instructionsOf_eq, h.listing, if_pos hp]
    rfl
  · next hp => rw [h.instructionsOf ho hp]

/-- A cleared block keeps its predecessors, itself only as often as it has raw edges to itself. -/
theorem length_predecessorsOf (h : f.Cleared b g) (hf : Accounted f raw) (hg : Accounted g raw) :
    (g.predecessorsOf b).length = (f.predecessorsOf b).countP (· ≠ b) + raw b b := by
  have hperm : (g.predecessorsOf b).Perm
      ((f.predecessorsOf b).filter (· ≠ b) ++ List.replicate (raw b b) b) := by
    refine List.perm_iff_count.mpr fun p => ?_
    rw [hg.count_predecessorsOf, h.drivenCount hf.owned, List.count_append]
    by_cases hp : p = b
    · simp [hp, List.count_eq_zero]
    · rw [List.count_filter (by simpa using hp), hf.count_predecessorsOf, List.count_replicate]
      simp [hp, Ne.symm hp]
  rw [hperm.length_eq, List.length_append, List.countP_eq_length_filter, List.length_replicate]

end Cleared

/-- A destruction reports its beginning and then the event of every round. -/
theorem Accounted.destroy_eq (h : Accounted f raw) (hb : f.isLive b = true) :
    ∃ f₁ f₂ trace, f.clearBlock b = .ok (f.heir b, f₁) ∧ f.Cleared b f₁ ∧
      Rerouting raw b (f.heir b) f₁ ∧ Accounted f₁ raw ∧ Rounds b (f.heir b) f₁ trace f₂ ∧
      f.destroy b = ⟨f₂.forgetBlock b,
        .destroying b (f₁.predecessorsOf b).length (f.heir b) :: trace⟩ := by
  obtain ⟨f₁, h₁, hcleared, hloop⟩ := h.clearBlock hb
  have hacc := accounted_iff.mpr ((accounted_iff.mp h).clearBlock (steady_owed raw) h₁).1
  obtain ⟨f₂, trace, hall, hrounds⟩ := hloop.rerouteAll_rounds _ hacc (Nat.le_refl _)
  refine ⟨f₁, f₂, trace, h₁, hcleared, hloop, hacc, hrounds, ?_⟩
  obtain ⟨block, hblock⟩ := isLive_iff.mp hloop.live
  rw [(views_of_block? hblock).2.1] at hall ⊢
  rw [Function.destroy, h₁, Logged.lift_ok_bind]
  simp only [block_eq_ok.mpr hblock, Logged.lift_ok_bind, Logged.bind_of_ok hall]
  change Logged.mk (f₂.forgetBlock b) (_ :: (trace ++ [])) = _
  rw [List.append_nil]

/-- The log of a destruction: the number of edges that are left, then one event for each round. -/
theorem destroy_log_exact (h : Reached f raw) (hd : (f.destroy b).outcome = .ok f') :
    ∃ f₁ f₂ trace, f.clearBlock b = .ok (f.heir b, f₁) ∧ Rounds b (f.heir b) f₁ trace f₂ ∧
      f₂.forgetBlock b = .ok f' ∧
      (f.destroy b).log = .destroying b ((f.predecessorsOf b).countP (· ≠ b) + raw b b)
        (f.heir b) :: trace ∧
      (∀ e ∈ trace, e.level = "TRACE" ∧
        ∃ p, e = .rerouted p b (f.heir b) ∨ e = .droppedRawEdge p b) ∧
      (∀ p, trace.count (.rerouted p b (f.heir b)) = if p ≠ b ∧ (f.fallThroughOf p = some b ∨
        ∃ insn ∈ f.instructionsOf p, insn.target? = some b) then 1 else 0) ∧
      (∀ p, trace.count (.droppedRawEdge p b) = raw p b) ∧
      ∀ p, ¬[.droppedRawEdge p b, .rerouted p b (f.heir b)].Sublist trace := by
  have hacc := h.accounted
  have hb : f.isLive b = true := by
    cases hb : f.isLive b with
    | true => rfl
    | false =>
      rw [outcome_destroy_of_dead hb] at hd
      cases hd
  obtain ⟨f₁, f₂, trace, h₁, hcleared, hloop, hacc₁, hrounds, heq⟩ := hacc.destroy_eq hb
  have hfilter := hrounds.filter_eq hloop hacc₁
  rw [heq] at hd ⊢
  refine ⟨f₁, f₂, trace, h₁, hrounds, hd, ?_, ?_, ?_, ?_, ?_⟩
  · rw [hcleared.length_predecessorsOf hacc hacc₁]
  · intro e he
    obtain ⟨p, hp⟩ := hrounds.exists_of_mem hloop hacc₁ he
    have he := eq_of_mem_due hp
    refine ⟨?_, p, he⟩
    rcases he with rfl | rfl
    · rfl
    · rfl
  · intro p
    rw [← List.count_filter (p := Event.concerns p) (by simp [Event.concerns]), hfilter,
      count_rerouted_due, hcleared.drivenCount hacc.owned]
    simp only [← drivenCount_pos_iff]
    by_cases hp : p = b
    · simp [hp]
    · simp [hp]
  · intro p
    rw [← List.count_filter (p := Event.concerns p) (by simp [Event.concerns]), hfilter,
      count_droppedRawEdge_due]
  · intro p hsub
    have hdue := hsub.filter (Event.concerns p)
    rw [hfilter] at hdue
    exact not_sublist_due (by simpa [Event.concerns] using hdue)

/-- Block 2 has a raw edge and a branch to itself, of which only the raw one is counted and dropped.
-/
theorem log_of_mixed_edges :
    ∃ f raw f' trace, Reached f raw ∧ (f.destroy ⟨2⟩).outcome = .ok f' ∧
      f.predecessorsOf ⟨2⟩ = [⟨0⟩, ⟨0⟩, ⟨0⟩, ⟨0⟩, ⟨3⟩, ⟨2⟩, ⟨2⟩] ∧
      (f.destroy ⟨2⟩).log = .destroying ⟨2⟩ 6 (some ⟨1⟩) :: trace ∧
      trace.count (.rerouted ⟨0⟩ ⟨2⟩ (some ⟨1⟩)) = 1 ∧
      trace.count (.rerouted ⟨2⟩ ⟨2⟩ (some ⟨1⟩)) = 0 ∧
      trace.count (.droppedRawEdge ⟨0⟩ ⟨2⟩) = 2 ∧ trace.count (.droppedRawEdge ⟨3⟩ ⟨2⟩) = 1 ∧
      trace.count (.droppedRawEdge ⟨2⟩ ⟨2⟩) = 1 ∧
      ¬[.droppedRawEdge ⟨0⟩ ⟨2⟩, .rerouted ⟨0⟩ ⟨2⟩ (some ⟨1⟩)].Sublist trace := by
  have hview : (empty.runOnRecord (fun _ _ => 0) [.addBlock, .addBlock, .addEdge ⟨0⟩ ⟨2⟩,
      .setFallThrough ⟨0⟩ (some ⟨2⟩), .append ⟨0⟩ (.branch ⟨0⟩ (some ⟨2⟩)), .addEdge ⟨0⟩ ⟨2⟩,
      .addEdge ⟨3⟩ ⟨2⟩, .append ⟨2⟩ (.branch ⟨0⟩ (some ⟨2⟩)), .addEdge ⟨2⟩ ⟨2⟩,
      .setFallThrough ⟨2⟩ (some ⟨1⟩)]).any
        (fun r => (r.1.destroy ⟨2⟩).outcome.isOk = true ∧ r.1.heir ⟨2⟩ = some ⟨1⟩ ∧
          r.1.predecessorsOf ⟨2⟩ = [⟨0⟩, ⟨0⟩, ⟨0⟩, ⟨0⟩, ⟨3⟩, ⟨2⟩, ⟨2⟩] ∧
          r.1.fallThroughOf ⟨0⟩ = some ⟨2⟩ ∧ r.2 ⟨0⟩ ⟨2⟩ = 2 ∧ r.2 ⟨3⟩ ⟨2⟩ = 1 ∧
          r.2 ⟨2⟩ ⟨2⟩ = 1) = true := by
    decide +kernel
  obtain ⟨⟨f, raw⟩, hrun, hf⟩ := (Option.any_eq_true _ _).mp hview
  obtain ⟨hok, hheir, hpreds, hfall, hraw₀, hraw₃, hraw₂⟩ := of_decide_eq_true hf
  have h := Reached.new.runOnRecord hrun
  cases hd : (f.destroy ⟨2⟩).outcome with
  | error e =>
    rw [hd] at hok
    cases hok
  | ok f' =>
    obtain ⟨-, -, trace, -, -, -, hlog, -, hrerouted, hdropped, horder⟩ := destroy_log_exact h hd
    rw [hheir] at hlog hrerouted horder
    have hcount : (f.predecessorsOf ⟨2⟩).countP (· ≠ ⟨2⟩) + raw ⟨2⟩ ⟨2⟩ = 6 := by
      rw [hpreds]
      exact congrArg (5 + ·) hraw₂
    rw [hcount] at hlog
    refine ⟨f, raw, f', trace, h, hd, hpreds, hlog, ?_, ?_, ?_, ?_, ?_, horder ⟨0⟩⟩
    · rw [hrerouted, if_pos ⟨by decide, .inl hfall⟩]
    · rw [hrerouted, if_neg fun hc => hc.1 rfl]
    · exact (hdropped ⟨0⟩).trans hraw₀
    · exact (hdropped ⟨3⟩).trans hraw₃
    · exact (hdropped ⟨2⟩).trans hraw₂

end Function

end FlowGraph
