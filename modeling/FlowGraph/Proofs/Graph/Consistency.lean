import FlowGraph.Function.Consistency
import FlowGraph.Proofs.Graph.Ownership

/-!
# The check of the edges

The check looks at what the blocks list and at nothing else. Still it compares every pair of blocks
between which there is an edge at either end: one end visits the pair among its successors, the
other one among its predecessors. Where neither end lists the other, both counts are zero.

Nothing here relies on how the function came about.
-/

namespace FlowGraph.Function

set_option autoImplicit false

variable {f : Function} {b c : BlockId} {x : Block}

/-- What can be wrong with the edges that the block `x`, stored under `b`, lists. -/
inductive Flaw (f : Function) (b : BlockId) (x : Block) : Prop
  | deadSuccessor {c : BlockId} (hc : c ∈ x.successors) (hdead : f.isLive c = false)
  | deadPredecessor {c : BlockId} (hc : c ∈ x.predecessors) (hdead : f.isLive c = false)
  /-- A successor counts another number of edges from `b`. -/
  | successorCount {c : BlockId} {y : Block} (hc : c ∈ x.successors) (hy : f.block? c = some y)
      (hne : x.edgesTo c ≠ y.edgesFrom b)
  /-- A predecessor counts another number of edges to `b`. -/
  | predecessorCount {c : BlockId} {y : Block} (hc : c ∈ x.predecessors)
      (hy : f.block? c = some y) (hne : x.edgesFrom c ≠ y.edgesTo b)
  /-- The fall-through is no edge. -/
  | fallThrough {t : BlockId} (ht : x.fallThrough = some t) (hnot : t ∉ x.successors)

/-- A live block at which something is wrong. -/
def Flawed (f : Function) (b : BlockId) : Prop := ∃ x, f.block? b = some x ∧ f.Flaw b x

theorem agreesOnSuccessor_iff : f.agreesOnSuccessor x c = true ↔
    ∃ y, f.block? c = some y ∧ x.edgesTo c = y.edgesFrom x.id := by
  unfold agreesOnSuccessor
  cases f.block? c with
  | none => simp
  | some y => simp

theorem agreesOnPredecessor_iff : f.agreesOnPredecessor x c = true ↔
    ∃ y, f.block? c = some y ∧ x.edgesFrom c = y.edgesTo x.id := by
  unfold agreesOnPredecessor
  cases f.block? c with
  | none => simp
  | some y => simp

theorem blockIsConsistent_iff : f.blockIsConsistent x = true ↔
    (∀ c ∈ x.successors, f.agreesOnSuccessor x c = true) ∧
    (∀ c ∈ x.predecessors, f.agreesOnPredecessor x c = true) ∧
    ∀ t, x.fallThrough = some t → t ∈ x.successors := by
  unfold blockIsConsistent
  rw [Bool.and_eq_true, Bool.and_eq_true, List.all_eq_true, List.all_eq_true, and_assoc]
  cases x.fallThrough with
  | none => simp
  | some t => simp [Block.edgesTo, List.count_eq_zero]

theorem blockIsConsistent_iff_not_flaw (hid : x.id = b) :
    f.blockIsConsistent x = true ↔ ¬ f.Flaw b x := by
  rw [blockIsConsistent_iff]
  constructor
  · rintro ⟨hsucc, hpred, hfall⟩ hflaw
    cases hflaw with
    | deadSuccessor hc hdead =>
      obtain ⟨y, hy, -⟩ := agreesOnSuccessor_iff.mp (hsucc _ hc)
      rw [isLive_of_block? hy] at hdead
      cases hdead
    | deadPredecessor hc hdead =>
      obtain ⟨y, hy, -⟩ := agreesOnPredecessor_iff.mp (hpred _ hc)
      rw [isLive_of_block? hy] at hdead
      cases hdead
    | successorCount hc hy hne =>
      obtain ⟨y', hy', hcount⟩ := agreesOnSuccessor_iff.mp (hsucc _ hc)
      rw [hy] at hy'
      cases hy'
      exact hne (hid ▸ hcount)
    | predecessorCount hc hy hne =>
      obtain ⟨y', hy', hcount⟩ := agreesOnPredecessor_iff.mp (hpred _ hc)
      rw [hy] at hy'
      cases hy'
      exact hne (hid ▸ hcount)
    | fallThrough ht hnot => exact hnot (hfall _ ht)
  · intro hnone
    refine ⟨?_, ?_, ?_⟩
    · intro c hc
      apply agreesOnSuccessor_iff.mpr
      cases hy : f.block? c with
      | none => exact absurd (.deadSuccessor hc (by simp [isLive, hy])) hnone
      | some y =>
        refine ⟨y, rfl, ?_⟩
        rw [hid]
        exact Decidable.not_not.mp fun hne => hnone (.successorCount hc hy hne)
    · intro c hc
      apply agreesOnPredecessor_iff.mpr
      cases hy : f.block? c with
      | none => exact absurd (.deadPredecessor hc (by simp [isLive, hy])) hnone
      | some y =>
        refine ⟨y, rfl, ?_⟩
        rw [hid]
        exact Decidable.not_not.mp fun hne => hnone (.predecessorCount hc hy hne)
    · intro t ht
      exact Decidable.not_not.mp fun hnot => hnone (.fallThrough ht hnot)

def isFlawed (f : Function) (b : BlockId) : Bool :=
  (f.block? b).any fun x => !f.blockIsConsistent x

section

variable (hids : ∀ b x, f.block? b = some x → x.id = b)
include hids

theorem isFlawed_iff : f.isFlawed b = true ↔ f.Flawed b := by
  unfold isFlawed
  rw [Option.any_eq_true]
  refine exists_congr fun x => and_congr_right fun hx => ?_
  rw [Bool.not_eq_true', ← Bool.not_eq_true, blockIsConsistent_iff_not_flaw (hids b x hx)]
  exact Classical.not_not

theorem firstInconsistent?_eq_find? : f.firstInconsistent? = f.order.find? f.isFlawed := by
  unfold firstInconsistent? blockList
  rw [List.find?_filterMap]
  change ((f.order.find? f.isFlawed).bind f.block?).map Block.id = _
  cases hb : f.order.find? f.isFlawed with
  | none => rfl
  | some b =>
    obtain ⟨x, hx, -⟩ := (isFlawed_iff hids).mp (List.find?_some hb)
    rw [Option.bind_some, hx, Option.map_some, hids b x hx]

theorem firstInconsistent?_eq_some_iff : f.firstInconsistent? = some b ↔
    ∃ older younger, f.order = older ++ b :: younger ∧ f.Flawed b ∧ ∀ c ∈ older, ¬ f.Flawed c := by
  have hsound : ∀ c, (!f.isFlawed c) = true ↔ ¬ f.Flawed c := by
    intro c
    rw [Bool.not_eq_true', ← Bool.not_eq_true, isFlawed_iff hids]
  rw [firstInconsistent?_eq_find? hids, List.find?_eq_some_iff_append, isFlawed_iff hids]
  simp only [hsound]
  constructor
  · rintro ⟨hb, older, younger, horder, holder⟩
    exact ⟨older, younger, horder, hb, holder⟩
  · rintro ⟨older, younger, horder, hb, holder⟩
    exact ⟨hb, older, younger, horder, holder⟩

theorem firstInconsistent?_eq_none_iff : f.firstInconsistent? = none ↔
    ∀ b ∈ f.order, ¬ f.Flawed b := by
  rw [firstInconsistent?_eq_find? hids, List.find?_eq_none]
  simp only [isFlawed_iff hids]

end

/-- Both ends of every edge list it equally often, no block lists a dead one, and every fall-through
is an edge. -/
structure Coherent (f : Function) : Prop where
  counts : ∀ a x b y, f.block? a = some x → f.block? b = some y → x.edgesTo b = y.edgesFrom a
  successors : ∀ a x, f.block? a = some x → ∀ c ∈ x.successors, f.isLive c = true
  predecessors : ∀ a x, f.block? a = some x → ∀ c ∈ x.predecessors, f.isLive c = true
  fallThrough : ∀ a x t, f.block? a = some x → x.fallThrough = some t → t ∈ x.successors

/-- Two blocks that count differently are not both without a flaw: the one that lists the other has
compared the counts. -/
theorem edgesTo_eq_of_not_flawed {a b : BlockId} {x y : Block} (hx : f.block? a = some x)
    (hy : f.block? b = some y) (ha : ¬ f.Flawed a) (hb : ¬ f.Flawed b) :
    x.edgesTo b = y.edgesFrom a := by
  by_cases hsucc : b ∈ x.successors
  · exact Decidable.not_not.mp fun hne => ha ⟨x, hx, .successorCount hsucc hy hne⟩
  · by_cases hpred : a ∈ y.predecessors
    · exact Decidable.not_not.mp fun hne => hb ⟨y, hy, .predecessorCount hpred hx (Ne.symm hne)⟩
    · rw [Block.edgesTo, Block.edgesFrom, List.count_eq_zero.mpr hsucc,
        List.count_eq_zero.mpr hpred]

theorem coherent_iff : f.Coherent ↔ ∀ b, ¬ f.Flawed b := by
  constructor
  · rintro h b ⟨x, hx, hflaw⟩
    cases hflaw with
    | deadSuccessor hc hdead =>
      rw [h.successors b x hx _ hc] at hdead
      cases hdead
    | deadPredecessor hc hdead =>
      rw [h.predecessors b x hx _ hc] at hdead
      cases hdead
    | successorCount hc hy hne => exact hne (h.counts b x _ _ hx hy)
    | predecessorCount hc hy hne => exact hne (h.counts _ _ b x hy hx).symm
    | fallThrough ht hnot => exact hnot (h.fallThrough b x _ hx ht)
  · intro h
    refine ⟨?_, ?_, ?_, ?_⟩
    · intro a x b y hx hy
      exact edgesTo_eq_of_not_flawed hx hy (h a) (h b)
    · intro a x hx c hc
      exact Bool.of_not_eq_false fun hdead => h a ⟨x, hx, .deadSuccessor hc hdead⟩
    · intro a x hx c hc
      exact Bool.of_not_eq_false fun hdead => h a ⟨x, hx, .deadPredecessor hc hdead⟩
    · intro a x t hx ht
      exact Decidable.not_not.mp fun hnot => h a ⟨x, hx, .fallThrough ht hnot⟩

/-- The check of the edges finds nothing if they are coherent, and else the first block of the order
at which something is wrong. -/
theorem edge_check_exact (horder : ∀ b, b ∈ f.order ↔ f.isLive b = true)
    (hids : ∀ b x, f.block? b = some x → x.id = b) :
    (f.firstInconsistent? = none ↔ f.Coherent) ∧
    (∀ b, f.firstInconsistent? = some b ↔ ∃ older younger, f.order = older ++ b :: younger ∧
      f.Flawed b ∧ ∀ c ∈ older, ¬ f.Flawed c) ∧
    (f.order.Pairwise (fun a b => a.index < b.index) → ∀ b, f.firstInconsistent? = some b →
      ∀ c, f.Flawed c → b.index ≤ c.index) := by
  have hmem : ∀ c, f.Flawed c → c ∈ f.order := by
    rintro c ⟨x, hx, -⟩
    exact (horder c).mpr (isLive_of_block? hx)
  refine ⟨?_, fun b => firstInconsistent?_eq_some_iff hids, ?_⟩
  · rw [firstInconsistent?_eq_none_iff hids, coherent_iff]
    exact ⟨fun h b hb => h b (hmem b hb) hb, fun h b _ => h b⟩
  · intro hsorted b hfirst c hc
    obtain ⟨older, younger, hsplit, -, holder⟩ := (firstInconsistent?_eq_some_iff hids).mp hfirst
    rw [hsplit, List.pairwise_append, List.pairwise_cons] at hsorted
    have hin := hmem c hc
    rw [hsplit, List.mem_append, List.mem_cons] at hin
    rcases hin with hin | rfl | hin
    · exact absurd hc (holder c hin)
    · exact Nat.le_refl _
    · exact Nat.le_of_lt (hsorted.2.1.1 c hin)

/-- The exit lists an edge that the entry does not, and the check stops at the exit. -/
theorem half_edge_found_at_target :
    ∃ f : Function, f.order = [⟨0⟩, ⟨1⟩] ∧ f.successorsOf ⟨0⟩ = [] ∧ f.predecessorsOf ⟨1⟩ = [⟨0⟩] ∧
      f.firstInconsistent? = some ⟨1⟩ ∧ ¬ f.Coherent ∧ f.Flawed ⟨1⟩ ∧ ¬ f.Flawed ⟨0⟩ := by
  have hn : (empty.modifyBlock ⟨1⟩ (·.addPredecessor ⟨0⟩)).Numbered :=
    numbered_empty.sameBlocks (.modifyBlock empty ⟨1⟩ fun _ => rfl)
  have hview : (empty.modifyBlock ⟨1⟩ (·.addPredecessor ⟨0⟩)).order = [⟨0⟩, ⟨1⟩] ∧
      (empty.modifyBlock ⟨1⟩ (·.addPredecessor ⟨0⟩)).successorsOf ⟨0⟩ = [] ∧
      (empty.modifyBlock ⟨1⟩ (·.addPredecessor ⟨0⟩)).predecessorsOf ⟨1⟩ = [⟨0⟩] ∧
      (empty.modifyBlock ⟨1⟩ (·.addPredecessor ⟨0⟩)).firstInconsistent? = some ⟨1⟩ := by
    decide +kernel
  obtain ⟨horder, hsucc, hpred, hfirst⟩ := hview
  obtain ⟨hnone, hsome, holdest⟩ := edge_check_exact hn.mem_order hn.ids
  obtain ⟨-, -, -, hflawed, -⟩ := (hsome ⟨1⟩).mp hfirst
  refine ⟨_, horder, hsucc, hpred, hfirst, ?_, hflawed, ?_⟩
  · rw [← hnone, hfirst]
    simp
  · intro hentry
    exact absurd (holdest hn.sorted ⟨1⟩ hfirst ⟨0⟩ hentry) (by decide)

end FlowGraph.Function
