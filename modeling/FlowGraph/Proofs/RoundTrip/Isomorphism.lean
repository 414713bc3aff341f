import FlowGraph.Proofs.RoundTrip.Function

/-!
# Isomorphic functions

A function that leaves nothing to the layout is read back up to the numbers of its blocks. All of
its edges are driven by fall-throughs and branches, so the edges come back with them.
-/

namespace FlowGraph

set_option autoImplicit false

/-- A renaming of the blocks carries `f` into `g`. -/
structure Function.Isomorphic (f g : Function) (φ : BlockId → BlockId) : Prop where
  registers : g.registers = f.registers
  blockCount : g.blockCount = f.blockCount
  entry : φ .entry = .entry
  exit : φ .exit = .exit
  injective : ∀ b c, f.isLive b = true → f.isLive c = true → φ b = φ c → b = c
  live : ∀ c, g.isLive c = true ↔ ∃ b, f.isLive b = true ∧ φ b = c
  operations : ∀ b, f.isLive b = true → (g.instructionsOf (φ b)).map Instruction.operation =
    (f.instructionsOf b).map fun insn => insn.operation.mapTarget φ
  fallThrough : ∀ b, f.isLive b = true → g.fallThroughOf (φ b) = (f.fallThroughOf b).map φ
  successors : ∀ b, f.isLive b = true → (g.successorsOf (φ b)).Perm ((f.successorsOf b).map φ)
  predecessors : ∀ b, f.isLive b = true →
    (g.predecessorsOf (φ b)).Perm ((f.predecessorsOf b).map φ)

namespace Function

variable {f g : Function} {φ : BlockId → BlockId} {b : BlockId}

/-- The blocks that the fall-through and the branches of a block lead to. -/
def driven (f : Function) (b : BlockId) : List BlockId :=
  (f.fallThroughOf b).toList ++ (f.instructionsOf b).filterMap Instruction.target?

theorem count_driven (f : Function) (b s : BlockId) :
    (f.driven b).count s = f.drivenCount b s := by
  rw [driven, List.count_append, List.count_filterMap]
  congr 1
  cases f.fallThroughOf b with
  | none => rfl
  | some t => by_cases ht : t = s <;> simp [ht]

theorem Accounted.successors_perm (h : Accounted f fun _ _ => 0) (b : BlockId) :
    (f.successorsOf b).Perm (f.driven b) := by
  refine List.perm_iff_count.mpr ?_
  intro s
  rw [count_driven]
  exact h.balance b s

theorem target?_mapTarget (φ : BlockId → BlockId) (e : Encoding) :
    (e.mapTarget φ).target? = e.target?.map φ := by
  obtain ⟨kind, operands, result⟩ := e
  cases kind <;> rfl

theorem targets_eq_map (h : (g.instructionsOf (φ b)).map Instruction.operation =
      (f.instructionsOf b).map fun insn => insn.operation.mapTarget φ) :
    (g.instructionsOf (φ b)).filterMap Instruction.target? =
      ((f.instructionsOf b).filterMap Instruction.target?).map φ := calc
  (g.instructionsOf (φ b)).filterMap Instruction.target?
      = ((g.instructionsOf (φ b)).map Instruction.operation).filterMap Encoding.target? :=
        List.filterMap_map.symm
  _ = (f.instructionsOf b).filterMap fun insn => insn.target?.map φ := by
        rw [h, List.filterMap_map]
        exact List.filterMap_congr fun insn _ => target?_mapTarget φ insn.operation
  _ = ((f.instructionsOf b).filterMap Instruction.target?).map φ := List.map_filterMap.symm

theorem driven_eq_map
    (hops : (g.instructionsOf (φ b)).map Instruction.operation =
      (f.instructionsOf b).map fun insn => insn.operation.mapTarget φ)
    (hfall : g.fallThroughOf (φ b) = (f.fallThroughOf b).map φ) :
    g.driven (φ b) = (f.driven b).map φ := by
  rw [driven, driven, targets_eq_map hops, hfall, List.map_append]
  cases f.fallThroughOf b <;> rfl

/-- Control has somewhere to go from every block but the exit. -/
structure Complete (f : Function) : Prop where
  entry : f.isLive .entry = true
  exit : f.isLive .exit = true
  fallThrough : ∀ b, f.isLive b = true → b ≠ .exit → f.fallThroughOf b ≠ none

theorem Complete.named_iff (h : f.Complete) (b : BlockId) : f.Named b ↔ f.isLive b = true := by
  constructor
  · rintro (hb | rfl | rfl)
    · exact hb
    · exact h.entry
    · exact h.exit
  · exact .inl

theorem count_map_of_injective {l : List BlockId} {a : BlockId}
    (h : ∀ x ∈ l, φ x = φ a → x = a) : (l.map φ).count (φ a) = l.count a := by
  induction l with
  | nil => rfl
  | cons x l ih =>
    have hx : φ x = φ a ↔ x = a := ⟨h x List.mem_cons_self, congrArg φ⟩
    rw [List.map_cons, List.count_cons, List.count_cons,
      ih fun y hy => h y (List.mem_cons_of_mem x hy)]
    simp only [beq_iff_eq, hx]

theorem predecessors_perm (hf : f.Symmetric) (hg : g.Symmetric)
    (hinj : ∀ b c, f.isLive b = true → f.isLive c = true → φ b = φ c → b = c)
    (hlive : ∀ c, g.isLive c = true ↔ ∃ b, f.isLive b = true ∧ φ b = c)
    (hsucc : ∀ b, f.isLive b = true → (g.successorsOf (φ b)).Perm ((f.successorsOf b).map φ))
    (hb : f.isLive b = true) : (g.predecessorsOf (φ b)).Perm ((f.predecessorsOf b).map φ) := by
  refine List.perm_iff_count.mpr ?_
  intro c
  by_cases hc : g.isLive c = true
  · obtain ⟨a, ha, rfl⟩ := (hlive c).mp hc
    calc (g.predecessorsOf (φ b)).count (φ a)
        = (g.successorsOf (φ a)).count (φ b) := (hg _ _).symm
      _ = ((f.successorsOf a).map φ).count (φ b) := (hsucc a ha).count_eq _
      _ = (f.successorsOf a).count b :=
          count_map_of_injective fun x hx heq => hinj x b (hf.isLive_successor hx) hb heq
      _ = (f.predecessorsOf b).count a := hf a b
      _ = ((f.predecessorsOf b).map φ).count (φ a) :=
          (count_map_of_injective fun x hx heq => hinj x a (hf.isLive_predecessor hx) ha heq).symm
  · have hg₀ : c ∉ g.predecessorsOf (φ b) := fun hmem => hc (hg.isLive_predecessor hmem)
    have hf₀ : c ∉ (f.predecessorsOf b).map φ := by
      intro hmem
      obtain ⟨a, ha, rfl⟩ := List.mem_map.mp hmem
      exact hc ((hlive _).mpr ⟨a, hf.isLive_predecessor ha, rfl⟩)
    rw [List.count_eq_zero.mpr hg₀, List.count_eq_zero.mpr hf₀]

theorem blockCount_eq (hf : f.Numbered) (hg : g.Numbered)
    (hinj : ∀ b c, f.isLive b = true → f.isLive c = true → φ b = φ c → b = c)
    (hlive : ∀ c, g.isLive c = true ↔ ∃ b, f.isLive b = true ∧ φ b = c) :
    g.blockCount = f.blockCount := by
  have hnodup : (f.order.map φ).Nodup := by
    refine List.Nodup.map_on ?_ hf.nodup_order
    intro b hb c hc heq
    exact hinj b c ((hf.mem_order b).mp hb) ((hf.mem_order c).mp hc) heq
  have hperm : g.order.Perm (f.order.map φ) := by
    refine (List.perm_ext_iff_of_nodup hg.nodup_order hnodup).mpr ?_
    intro c
    rw [hg.mem_order, hlive, List.mem_map]
    exact exists_congr fun b => and_congr_left' (hf.mem_order b).symm
  exact hperm.length_eq.trans (List.length_map φ)

/-- Nothing is added or lost if every block has its fall-through and every edge is driven. -/
theorem ReadBack.isomorphic (h : ReadBack f g φ) (hf : Accounted f fun _ _ => 0)
    (hg : Accounted g fun _ _ => 0) (hcomplete : f.Complete) : Isomorphic f g φ := by
  have hinj : ∀ b c, f.isLive b = true → f.isLive c = true → φ b = φ c → b = c :=
    fun b c hb hc => h.injective b c (.inl hb) (.inl hc)
  have hlive : ∀ c, g.isLive c = true ↔ ∃ b, f.isLive b = true ∧ φ b = c := by
    intro c
    simp only [h.live c, hcomplete.named_iff]
  have hfall : ∀ b, f.isLive b = true → g.fallThroughOf (φ b) = (f.fallThroughOf b).map φ := by
    intro b hb
    rw [h.fallThrough b hb]
    cases hfall : f.fallThroughOf b with
    | some t => rfl
    | none =>
      by_cases hexit : b = .exit
      · simp [hexit]
      · exact absurd hfall (hcomplete.fallThrough b hb hexit)
  have hsucc : ∀ b, f.isLive b = true →
      (g.successorsOf (φ b)).Perm ((f.successorsOf b).map φ) := by
    intro b hb
    have hdriven := driven_eq_map (h.operations b hb) (hfall b hb)
    exact (hg.successors_perm _).trans (hdriven ▸ ((hf.successors_perm b).map φ).symm)
  exact ⟨h.registers, blockCount_eq hf.numbered hg.numbered hinj hlive, h.entry, h.exit, hinj,
    hlive, h.operations, hfall, hsucc, fun b hb =>
      predecessors_perm hf.symmetric hg.symmetric hinj hlive hsucc hb⟩

end Function

end FlowGraph
