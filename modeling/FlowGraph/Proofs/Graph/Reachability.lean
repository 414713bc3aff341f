import FlowGraph.Proofs.Graph.Discipline
import Mathlib.Logic.Relation

/-!
# Reachability across a destruction

A destroyed block hands the edges that were driven to it on to its heir, and takes every other edge
at it along. So each edge that comes up had been a way through the block. A way through a block
without branches can only lead on to the heir, so it is kept unless it came in by a raw edge.
-/

namespace FlowGraph.Function

set_option autoImplicit false

open Relation

variable {f f' : Function} {raw : RawEdges} {a b c x z : BlockId}

/-- Control can go from `a` to `c` along one edge. -/
def Flows (f : Function) (a c : BlockId) : Prop := c ∈ f.successorsOf a

/-- Control can go from `a` to `c` along one edge or more. -/
def Leads (f : Function) : BlockId → BlockId → Prop := TransGen f.Flows

/-- Control can go from `a` to `c`, or is there already. -/
def Reaches (f : Function) : BlockId → BlockId → Prop := ReflTransGen f.Flows

theorem flows_iff : f.Flows a c ↔ 0 < f.edgeCount a c := List.count_pos_iff.symm

theorem reaches_iff : f.Reaches a c ↔ c = a ∨ f.Leads a c := reflTransGen_iff_eq_or_transGen

theorem fallThroughOf_of_heir (h : f.heir b = some x) : f.fallThroughOf b = some x :=
  (Option.filter_eq_some_iff.mp h).1

/-- Without branches, a block drives an edge to another one only as its heir. -/
theorem heir_of_drivenCount (hbranch : ∀ insn ∈ f.instructionsOf b, insn.target? = none)
    (hx : x ≠ b) (hd : 0 < f.drivenCount b x) : f.heir b = some x := by
  have hnone : f.branchCount b x = 0 := by
    rw [branchCount, List.countP_eq_zero]
    intro insn hinsn htarget
    have hleads : insn.target? = some x := eq_of_beq htarget
    rw [hbranch insn hinsn] at hleads
    cases hleads
  rw [drivenCount, hnone] at hd
  refine Option.filter_eq_some_iff.mpr ⟨?_, by simpa using hx⟩
  by_cases hfall : f.fallThroughOf b = some x
  · exact hfall
  · rw [if_neg hfall] at hd
    omega

namespace Accounted

/-- The edges between two other blocks, counted after `b` has been destroyed. -/
theorem edgeCount_destroy (h : Accounted f raw) (hd : (f.destroy b).outcome = .ok f')
    (hc : c ≠ b) (hx : x ≠ b) :
    f'.edgeCount c x =
      f.edgeCount c x + if f.heir b = some x then f.drivenCount c b else 0 := by
  have hafter := (h.destroy hd).balance c x
  rw [RawEdges.clear, if_neg (not_or.mpr ⟨hc, hx⟩),
    (h.destroyed hd).drivenCount h.owned hc hx] at hafter
  have hbefore := h.balance c x
  omega

theorem ne_of_flows_destroy (h : Accounted f raw) (hd : (f.destroy b).outcome = .ok f')
    (hflow : f'.Flows c x) : c ≠ b ∧ x ≠ b := by
  have hsource := isLive_of_mem_successorsOf hflow
  have htarget := (h.destroy hd).symmetric.isLive_successor hflow
  exact ⟨(((h.destroyed hd).live c).mp hsource).1, (((h.destroyed hd).live x).mp htarget).1⟩

/-- Whatever edge there is afterwards, it was there before or cuts short a way through `b`. -/
theorem leads_of_flows_destroy (h : Accounted f raw) (hd : (f.destroy b).outcome = .ok f')
    (hflow : f'.Flows c x) : f.Leads c x := by
  obtain ⟨hc, hx⟩ := h.ne_of_flows_destroy hd hflow
  rw [flows_iff, h.edgeCount_destroy hd hc hx] at hflow
  by_cases hold : f.Flows c x
  · exact .single hold
  · rw [flows_iff] at hold
    have hheir : f.heir b = some x := by
      apply Classical.byContradiction
      intro hne
      rw [if_neg hne] at hflow
      omega
    rw [if_pos hheir] at hflow
    have hin : f.Flows c b := (h.mem_successorsOf (by omega)).1
    have hout : f.Flows b x := (h.fallThrough_mem (fallThroughOf_of_heir hheir)).1
    exact .tail (.single hin) hout

theorem flows_destroy (h : Accounted f raw) (hd : (f.destroy b).outcome = .ok f') (hc : c ≠ b)
    (hx : x ≠ b) (hflow : f.Flows c x) : f'.Flows c x := by
  rw [flows_iff] at hflow ⊢
  rw [h.edgeCount_destroy hd hc hx]
  omega

theorem flows_destroy_heir (h : Accounted f raw) (hd : (f.destroy b).outcome = .ok f')
    (hc : c ≠ b) (hheir : f.heir b = some x) (hdriven : 0 < f.drivenCount c b) :
    f'.Flows c x := by
  have hx : x ≠ b := fun heq => heir_ne f b (heq ▸ hheir)
  rw [flows_iff, h.edgeCount_destroy hd hc hx, if_pos hheir]
  omega

theorem leads_of_leads_destroy (h : Accounted f raw) (hd : (f.destroy b).outcome = .ok f')
    (hlead : f'.Leads a c) : f.Leads a c := by
  induction hlead with
  | single hflow => exact h.leads_of_flows_destroy hd hflow
  | tail _ hflow ih => exact ih.trans (h.leads_of_flows_destroy hd hflow)

/-- A walk that ends elsewhere is kept. One that ends in `b` is kept as a walk to the heir of `b`.
-/
theorem leads_destroy (h : Accounted f raw) (hd : (f.destroy b).outcome = .ok f')
    (hbranch : ∀ insn ∈ f.instructionsOf b, insn.target? = none)
    (hraw : ∀ p ∈ f.order, p ≠ b → f.edgeCount p b = f.drivenCount p b) (ha : a ≠ b)
    (hlead : f.Leads a z) :
    (z ≠ b → f'.Leads a z) ∧ (z = b → ∀ y, f.heir b = some y → f'.Leads a y) := by
  have hdriven : ∀ p, p ≠ b → f.Flows p b → 0 < f.drivenCount p b := by
    intro p hp hflow
    have hmem := (h.numbered.mem_order p).mpr (isLive_of_mem_successorsOf hflow)
    rw [← hraw p hmem hp]
    exact flows_iff.mp hflow
  have hon : ∀ y, y ≠ b → f.Flows b y → f.heir b = some y := by
    intro y hy hflow
    have hby := h.balance b y
    rw [h.raw_of_destroy hd hy, Nat.add_zero] at hby
    exact heir_of_drivenCount hbranch hy (hby ▸ flows_iff.mp hflow)
  induction hlead with
  | single hflow =>
    refine ⟨?_, ?_⟩
    · intro hz
      exact .single (h.flows_destroy hd ha hz hflow)
    · rintro rfl y hy
      exact .single (h.flows_destroy_heir hd ha hy (hdriven a ha hflow))
  | @tail w z _ hflow ih =>
    by_cases hw : w = b
    · subst hw
      refine ⟨?_, ?_⟩
      · intro hz
        exact ih.2 rfl z (hon z hz hflow)
      · intro _
        exact ih.2 rfl
    · refine ⟨?_, ?_⟩
      · intro hz
        exact (ih.1 hw).tail (h.flows_destroy hd hw hz hflow)
      · rintro rfl y hy
        exact (ih.1 hw).tail (h.flows_destroy_heir hd hw hy (hdriven w hw hflow))

end Accounted

/-- Destroying a block makes nothing newly reachable, and if only its fall-through leads on from it,
nothing unreachable. -/
theorem destroy_reachability (h : Reached f raw) (hd : (f.destroy b).outcome = .ok f') :
    (∀ a c, f'.Leads a c → f.Leads a c) ∧ (∀ a c, f'.Reaches a c → f.Reaches a c) ∧
    ((∀ insn ∈ f.instructionsOf b, insn.target? = none) →
      (∀ p ∈ f.order, p ≠ b → f.edgeCount p b = f.drivenCount p b) →
      ∀ a c, a ≠ b → c ≠ b →
        (f'.Leads a c ↔ f.Leads a c) ∧ (f'.Reaches a c ↔ f.Reaches a c)) := by
  have hacc := h.accounted
  have hback : ∀ a c, f'.Leads a c → f.Leads a c := fun a c => hacc.leads_of_leads_destroy hd
  refine ⟨hback, ?_, ?_⟩
  · intro a c hreach
    exact reaches_iff.mpr ((reaches_iff.mp hreach).imp_right (hback a c))
  · intro hbranch hraw a c ha hc
    have hiff : f'.Leads a c ↔ f.Leads a c :=
      ⟨hback a c, fun hlead => (hacc.leads_destroy hd hbranch hraw ha hlead).1 hc⟩
    exact ⟨hiff, by rw [reaches_iff, reaches_iff, hiff]⟩

/-- A loop of block 3 goes through block 2 and outlives it. -/
theorem loop_outlives_destroyed_block :
    ∃ f raw f', Reached f raw ∧ (f.destroy ⟨2⟩).outcome = .ok f' ∧
      f.successorsOf ⟨3⟩ = [⟨2⟩, ⟨1⟩] ∧ f.successorsOf ⟨2⟩ = [⟨2⟩, ⟨3⟩] ∧
      f'.Leads ⟨3⟩ ⟨3⟩ ∧ (f'.Leads ⟨0⟩ ⟨1⟩ ↔ f.Leads ⟨0⟩ ⟨1⟩) := by
  have hview : (empty.runOnRecord (fun _ _ => 0) [.addBlock, .addBlock,
      .setFallThrough ⟨0⟩ (some ⟨2⟩), .addEdge ⟨2⟩ ⟨2⟩, .append ⟨2⟩ (.branch ⟨0⟩ none),
      .setFallThrough ⟨2⟩ (some ⟨3⟩), .append ⟨3⟩ (.branch ⟨0⟩ (some ⟨2⟩)),
      .setFallThrough ⟨3⟩ (some ⟨1⟩)]).map
        (fun r => ((r.1.destroy ⟨2⟩).outcome.toOption.isSome, r.1.successorsOf ⟨3⟩,
          r.1.successorsOf ⟨2⟩, (r.1.instructionsOf ⟨2⟩).all (·.target?.isNone),
          r.1.order.all fun p => p = ⟨2⟩ ∨ r.1.edgeCount p ⟨2⟩ = r.1.drivenCount p ⟨2⟩)) =
      some (true, [⟨2⟩, ⟨1⟩], [⟨2⟩, ⟨3⟩], true, true) := by
    decide +kernel
  obtain ⟨⟨f, raw⟩, hrun, hfields⟩ := Option.map_eq_some_iff.mp hview
  simp only [Prod.mk.injEq, List.all_eq_true, decide_eq_true_eq, Option.isNone_iff_eq_none,
    Option.isSome_iff_exists] at hfields
  obtain ⟨⟨f', hdestroy⟩, hsucc₃, hsucc₂, hbranch, hraw⟩ := hfields
  have hreached := Reached.new.runOnRecord hrun
  have hd := eq_ok_of_toOption hdestroy
  have hkept := (destroy_reachability hreached hd).2.2 hbranch
    fun p hp hne => (hraw p hp).resolve_left hne
  refine ⟨f, raw, f', hreached, hd, hsucc₃, hsucc₂, ?_, ?_⟩
  · refine (hkept ⟨3⟩ ⟨3⟩ (by decide) (by decide)).1.mpr (.tail (b := ⟨2⟩) (.single ?_) ?_)
    · simp [Flows, hsucc₃]
    · simp [Flows, hsucc₂]
  · exact (hkept ⟨0⟩ ⟨1⟩ (by decide) (by decide)).1

end FlowGraph.Function
