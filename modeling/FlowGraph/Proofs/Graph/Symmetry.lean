import FlowGraph.Function.Edit
import FlowGraph.Proofs.Graph.View

/-!
# Symmetry of edges

Every edge is listed as often at its target as at its source. Each operation keeps this, whatever
its arguments, so the assertions that guard it cannot fail. The one loop that needs more is the
rerouting of predecessors: a round never adds a predecessor to the block that is destroyed, and
takes away at least one.
-/

namespace FlowGraph.Function

set_option autoImplicit false

variable {f f' f'' : Function} {a b s t : BlockId} {i : InsnId} {grown target next : Option BlockId}

/-- Both ends of every edge list it equally often. A dead block lists nothing, so this includes
that every listed block is live. -/
def Symmetric (f : Function) : Prop :=
  ∀ a b, (f.successorsOf a).count b = (f.predecessorsOf b).count a

namespace Symmetric

theorem congr (h : f.Symmetric) (hs : ∀ b, f'.successorsOf b = f.successorsOf b)
    (hp : ∀ b, f'.predecessorsOf b = f.predecessorsOf b) : f'.Symmetric := by
  intro a b
  rw [hs, hp]
  exact h a b

theorem mem_iff (h : f.Symmetric) : b ∈ f.successorsOf a ↔ a ∈ f.predecessorsOf b := by
  rw [← List.count_pos_iff, ← List.count_pos_iff, h a b]

theorem isLive_successor (h : f.Symmetric) (hb : b ∈ f.successorsOf a) : f.isLive b = true :=
  isLive_of_mem_predecessorsOf (h.mem_iff.mp hb)

theorem isLive_predecessor (h : f.Symmetric) (hb : b ∈ f.predecessorsOf a) : f.isLive b = true :=
  isLive_of_mem_successorsOf (h.mem_iff.mpr hb)

theorem withEdge (h : f.Symmetric) (hs : f.isLive s = true) (ht : f.isLive t = true) :
    (f.withEdge s t).Symmetric := by
  intro a b
  rw [successorsOf_withEdge f s t hs, predecessorsOf_withEdge f s t ht]
  have hab := h a b
  by_cases ha : a = s <;> by_cases hb : b = t <;> grind

theorem withoutEdge (h : f.Symmetric) : (f.withoutEdge s t).Symmetric := by
  intro a b
  rw [successorsOf_withoutEdge, predecessorsOf_withoutEdge]
  have hab := h a b
  by_cases ha : a = s <;> by_cases hb : b = t <;> grind

end Symmetric

/-- A change that keeps the edges symmetric and the blocks, and gives no block but `grown` a new
predecessor. -/
structure EdgeStep (f f' : Function) (grown : Option BlockId) : Prop where
  symmetric : f'.Symmetric
  live : ∀ b, f'.isLive b = f.isLive b
  shrinks : ∀ b, grown ≠ some b → (f'.predecessorsOf b).Sublist (f.predecessorsOf b)

namespace EdgeStep

theorem refl (h : f.Symmetric) : EdgeStep f f grown :=
  ⟨h, fun _ => rfl, fun _ _ => .refl _⟩

theorem trans (h : EdgeStep f f' grown) (h' : EdgeStep f' f'' grown) : EdgeStep f f'' grown :=
  ⟨h'.symmetric, fun b => (h'.live b).trans (h.live b),
    fun b hb => (h'.shrinks b hb).trans (h.shrinks b hb)⟩

theorem of_same_edges (h : f.Symmetric) (hl : ∀ b, f'.isLive b = f.isLive b)
    (hs : ∀ b, f'.successorsOf b = f.successorsOf b)
    (hp : ∀ b, f'.predecessorsOf b = f.predecessorsOf b) : EdgeStep f f' grown :=
  ⟨h.congr hs hp, hl, fun b _ => hp b ▸ .refl _⟩

theorem modifyBlock (h : f.Symmetric) {g : Block → Block}
    (hs : ∀ x, (g x).successors = x.successors) (hp : ∀ x, (g x).predecessors = x.predecessors) :
    EdgeStep f (f.modifyBlock b g) grown :=
  of_same_edges h (fun _ => isLive_modifyBlock ..) (successorsOf_modifyBlock f b g hs)
    (predecessorsOf_modifyBlock f b g hp)

theorem withEdge (h : f.Symmetric) (hs : f.isLive s = true) (ht : f.isLive t = true) :
    EdgeStep f (f.withEdge s t) (some t) := by
  refine ⟨h.withEdge hs ht, fun _ => isLive_withEdge .., ?_⟩
  intro b hb
  have hbt : b ≠ t := fun hbt => hb (hbt ▸ rfl)
  have hpreds : (f.withEdge s t).predecessorsOf b = f.predecessorsOf b := by
    rw [predecessorsOf_withEdge f s t ht, if_neg hbt]
  exact hpreds ▸ .refl _

theorem withoutEdge (h : f.Symmetric) : EdgeStep f (f.withoutEdge s t) grown := by
  refine ⟨h.withoutEdge, fun _ => isLive_withoutEdge .., ?_⟩
  intro b _
  rw [predecessorsOf_withoutEdge]
  split
  · exact List.erase_sublist
  · exact .refl _

end EdgeStep

theorem meets_block (f : Function) (b : BlockId) :
    Meets (fun block => f.block? b = some block) (f.block b) := by
  unfold block
  cases f.block? b with
  | some block => exact rfl
  | none => exact rfl

theorem meets_instruction (f : Function) (i : InsnId) :
    Meets (fun insn => f.instruction? i = some insn) (f.instruction i) := by
  unfold instruction
  cases f.instruction? i with
  | some insn => exact rfl
  | none => exact rfl

theorem meets_updateBlock (h : f.Symmetric) {g : Block → Block}
    (hs : ∀ x, (g x).successors = x.successors) (hp : ∀ x, (g x).predecessors = x.predecessors) :
    Meets (EdgeStep f · grown) (f.updateBlock b g) := by
  rw [updateBlock_eq]
  split
  · exact EdgeStep.modifyBlock h hs hp
  · exact rfl

theorem meets_addEdge (h : f.Symmetric) : Meets (EdgeStep f · (some t)) (f.addEdge s t) := by
  rw [addEdge_eq]
  split
  · next ht =>
    split
    · next hs => exact EdgeStep.withEdge h hs ht
    · exact rfl
  · exact rfl

theorem meets_removeEdge (h : f.Symmetric) :
    Meets (fun r => r.2 = f.withoutEdge s t) (f.removeEdge s t) := by
  have hsame : (f.successorsOf s).contains t = (f.predecessorsOf t).contains s := by
    simp only [List.contains_eq_mem, h.mem_iff]
  rw [removeEdge_eq, if_pos hsame]
  split
  · split
    · exact rfl
    · exact rfl
  · exact rfl

theorem meets_dropEdge (h : f.Symmetric) :
    Meets (fun f' => f' = f.withoutEdge s t) (f.dropEdge s t) :=
  (meets_removeEdge h).bind fun _ hr => hr

theorem meets_switchEdge (h : f.Symmetric) :
    Meets (EdgeStep f · next) (f.switchEdge b target next) := by
  refine Meets.bind (P := (EdgeStep f · next)) ?_ fun f₁ h₁ => ?_
  · cases target with
    | none => exact EdgeStep.refl h
    | some old => exact (meets_dropEdge h).mono fun _ hr => hr ▸ EdgeStep.withoutEdge h
  · cases next with
    | none => exact h₁
    | some new => exact (meets_addEdge h₁.symmetric).mono fun _ h₂ => h₁.trans h₂

theorem meets_setFallThrough (h : f.Symmetric) :
    Meets (EdgeStep f · target) (f.setFallThrough b target) := by
  rw [setFallThrough_eq]
  refine (meets_block f b).bind fun block _ => ?_
  split
  · exact EdgeStep.refl h
  · refine (meets_switchEdge h).bind fun f₁ h₁ => ?_
    exact (meets_updateBlock h₁.symmetric (by simp) (by simp)).mono fun _ h₂ => h₁.trans h₂

theorem EdgeStep.setInstruction (h : f.Symmetric) {insn : Instruction} :
    EdgeStep f (f.setInstruction i insn) grown :=
  of_same_edges h (fun _ => rfl) (fun _ => rfl) fun _ => rfl

theorem meets_detach (h : f.Symmetric) : Meets (EdgeStep f · none) (f.detach i) := by
  rw [detach_eq]
  refine (meets_instruction f i).bind fun insn _ => ?_
  cases insn.block with
  | none => exact EdgeStep.refl h
  | some b =>
    refine Meets.bind (P := (EdgeStep f · none)) ?_ fun f₁ h₁ => ?_
    · exact meets_updateBlock h (by simp) (by simp)
    · have h₂ : EdgeStep f₁ (f₁.setInstruction i { insn with block := none }) none :=
        EdgeStep.setInstruction h₁.symmetric
      exact (meets_switchEdge h₂.symmetric).mono fun _ h₃ => (h₁.trans h₂).trans h₃

theorem meets_delete (h : f.Symmetric) : Meets (EdgeStep f · none) (f.delete i) := by
  refine (meets_detach h).bind fun f₁ h₁ => h₁.trans ?_
  exact EdgeStep.of_same_edges h₁.symmetric (fun _ => rfl) (fun _ => rfl) fun _ => rfl

theorem meets_deleteAll (is : List InsnId) (h : f.Symmetric) :
    Meets (EdgeStep f · none) (deleteAll is f) := by
  induction is generalizing f with
  | nil => exact EdgeStep.refl h
  | cons i is ih =>
    refine (meets_delete h).bind fun f₁ h₁ => ?_
    exact (ih h₁.symmetric).mono fun _ h₂ => h₁.trans h₂

theorem meets_attach (h : f.Symmetric) :
    Meets (fun f' => ∃ grown, EdgeStep f f' grown) (f.attach i b) := by
  rw [attach_eq]
  refine (meets_instruction f i).bind fun insn _ => ?_
  have h₁ : EdgeStep f (f.setInstruction i { insn with block := some b }) insn.target? :=
    EdgeStep.setInstruction h
  exact (meets_switchEdge h₁.symmetric).mono fun _ h₂ => ⟨insn.target?, h₁.trans h₂⟩

theorem meets_endsInBranch (f : Function) (is : List InsnId) :
    Meets (fun _ => True) (f.endsInBranch is) := by
  unfold endsInBranch
  cases is.getLast? with
  | none => exact trivial
  | some last => exact (meets_instruction f last).bind fun _ _ => trivial

theorem meets_insertAt (f : Function) (i : InsnId) (is : List InsnId) (position : Position) :
    Meets (fun _ => True) (f.insertAt i is position) := by
  cases position with
  | first => exact trivial
  | last => exact trivial
  | beforeBranch =>
    refine (meets_endsInBranch f is).bind fun ends _ => ?_
    cases ends with
    | true => exact trivial
    | false => exact trivial

theorem meets_place (h : f.Symmetric) (position : Position) :
    Meets (fun f' => f'.Symmetric ∧ ∀ b, f'.isLive b = f.isLive b) (f.place i b position) := by
  unfold place
  refine (meets_detach h).bind fun f₁ h₁ => ?_
  refine (meets_block f₁ b).bind fun block _ => ?_
  refine (meets_insertAt f₁ i block.instructions position).bind fun is _ => ?_
  refine Meets.bind (P := (EdgeStep f₁ · none)) ?_ fun f₂ h₂ => ?_
  · exact meets_updateBlock h₁.symmetric (by simp) (by simp)
  · refine (meets_attach h₂.symmetric).mono ?_
    rintro f₃ ⟨grown, h₃⟩
    exact ⟨h₃.symmetric, fun b => (h₃.live b).trans ((h₂.live b).trans (h₁.live b))⟩

theorem meets_redirectBranch (h : f.Symmetric) :
    Meets (fun r => EdgeStep f r.2 next) (f.redirectBranch i a next) := by
  rw [redirectBranch_eq]
  refine (meets_instruction f i).bind fun insn _ => ?_
  split
  · have h₁ : EdgeStep f (f.setInstruction i (insn.redirect a next)) next :=
      EdgeStep.setInstruction h
    refine Meets.bind (P := (EdgeStep f · next)) ?_ fun _ h₂ => h₂
    cases insn.block with
    | none => exact h₁
    | some b => exact (meets_switchEdge h₁.symmetric).mono fun _ h₂ => h₁.trans h₂
  · exact EdgeStep.refl h

theorem meets_branchesAmong (f : Function) (is : List InsnId) :
    Meets (fun _ => True) (f.branchesAmong is) := by
  induction is with
  | nil => exact trivial
  | cons i is ih =>
    refine (meets_instruction f i).bind fun insn _ => ih.bind fun rest _ => ?_
    cases insn.isBranch with
    | true => exact trivial
    | false => exact trivial

theorem meets_redirectBranches (is : List InsnId) (h : f.Symmetric) :
    Meets (EdgeStep f · next) (redirectBranches a next is f) := by
  induction is generalizing f with
  | nil => exact EdgeStep.refl h
  | cons i is ih =>
    refine (meets_redirectBranch h).bind fun r h₁ => ?_
    exact (ih h₁.symmetric).mono fun _ h₂ => h₁.trans h₂

theorem meets_redirect (h : f.Symmetric) :
    Meets (EdgeStep f · next) (f.redirect b a next) := by
  rw [redirect_eq]
  refine (meets_block f b).bind fun block _ => ?_
  refine Meets.bind (P := (EdgeStep f · next)) ?_ fun f₁ h₁ => ?_
  · split
    · exact meets_setFallThrough h
    · exact EdgeStep.refl h
  · refine (meets_block f₁ b).bind fun block _ => ?_
    refine (meets_branchesAmong f₁ block.instructions).bind fun branches _ => ?_
    exact (meets_redirectBranches branches h₁.symmetric).mono fun _ h₂ => h₁.trans h₂

theorem meets_clearBlock (h : f.Symmetric) :
    Meets (fun r => EdgeStep f r.2 none ∧ r.1 ≠ some b) (f.clearBlock b) := by
  unfold clearBlock
  refine (meets_block f b).bind fun block _ => ?_
  refine (meets_deleteAll block.instructions h).bind fun f₁ h₁ => ?_
  have h₂ : EdgeStep f₁ (f₁.forgetTarget b) none :=
    EdgeStep.of_same_edges h₁.symmetric (fun _ => rfl) (fun _ => rfl) fun _ => rfl
  refine (meets_block (f₁.forgetTarget b) b).bind fun block _ => ?_
  refine (meets_setFallThrough h₂.symmetric).bind fun f₃ h₃ => ?_
  refine ⟨(h₁.trans h₂).trans h₃, ?_⟩
  dsimp only
  split
  · simp
  · assumption

/-- A round of rerouting takes at least one predecessor away. -/
theorem meets_reroute (h : f.Symmetric) (hs : s ∈ f.predecessorsOf b) (hb : next ≠ some b) :
    Meets (fun f' => EdgeStep f f' next ∧
      (f'.predecessorsOf b).length < (f.predecessorsOf b).length) (f.reroute s b next).outcome := by
  rw [outcome_reroute]
  refine (meets_block f b).bind fun before hbefore => ?_
  refine (meets_redirect h).bind fun f₁ h₁ => ?_
  refine (meets_block f₁ b).bind fun after hafter => ?_
  rw [← (views_of_block? hbefore).2.1, ← (views_of_block? hafter).2.1]
  have hsub := h₁.shrinks b hb
  split
  · next hlen =>
    have hsame := hsub.eq_of_length hlen
    refine (meets_dropEdge h₁.symmetric).mono ?_
    rintro f₂ rfl
    refine ⟨h₁.trans (EdgeStep.withoutEdge h₁.symmetric), ?_⟩
    rw [predecessorsOf_withoutEdge, if_pos rfl, hsame, List.length_erase_of_mem hs]
    have hpos := List.length_pos_of_mem hs
    omega
  · next hlen =>
    have hle := hsub.length_le
    exact ⟨h₁, by omega⟩

theorem meets_rerouteAll (rounds : Nat) (h : f.Symmetric) (hb : next ≠ some b)
    (hlen : (f.predecessorsOf b).length ≤ rounds) :
    Meets (fun f' => EdgeStep f f' next ∧ f'.predecessorsOf b = [])
      (rerouteAll b next rounds f).outcome := by
  induction rounds generalizing f with
  | zero => exact ⟨EdgeStep.refl h, List.length_eq_zero_iff.mp (by omega)⟩
  | succ rounds ih =>
    rw [outcome_rerouteAll_succ]
    refine (meets_block f b).bind fun block hblock => ?_
    have hpreds := (views_of_block? hblock).2.1
    cases hp : block.predecessors with
    | nil => exact ⟨EdgeStep.refl h, hpreds.trans hp⟩
    | cons source rest =>
      have hs : source ∈ f.predecessorsOf b := by simp [hpreds, hp]
      refine (meets_reroute h hs hb).bind fun f₁ h₁ => ?_
      refine (ih h₁.1.symmetric (by omega)).mono fun f₂ h₂ => ?_
      exact ⟨h₁.1.trans h₂.1, h₂.2⟩

theorem Symmetric.withoutBlock (h : f.Symmetric) (hp : f.predecessorsOf b = [])
    (hs : f.successorsOf b = []) : (f.withoutBlock b).Symmetric := by
  intro x y
  rw [successorsOf_withoutBlock, predecessorsOf_withoutBlock]
  have hxy := h x y
  by_cases hx : x = b
  · subst hx
    rw [hs] at hxy
    by_cases hy : y = x
    · simp [hy]
    · simpa [hy] using hxy
  · by_cases hy : y = b
    · subst hy
      rw [hp] at hxy
      simpa [hx] using hxy
    · simpa [hx, hy] using hxy

theorem meets_forgetBlock (h : f.Symmetric) (hp : f.predecessorsOf b = []) :
    Meets Symmetric (f.forgetBlock b) := by
  rw [forgetBlock_eq, hp]
  split
  · rw [if_neg (by simp)]
    split
    · exact rfl
    · next hs => exact h.withoutBlock hp (by simpa using hs)
  · exact rfl

theorem meets_destroy (h : f.Symmetric) : Meets Symmetric (f.destroy b).outcome := by
  rw [outcome_destroy]
  refine (meets_clearBlock h).bind fun r h₁ => ?_
  refine (meets_block r.2 b).bind fun block hblock => ?_
  have hlen : (r.2.predecessorsOf b).length ≤ block.predecessors.length :=
    Nat.le_of_eq (congrArg List.length (views_of_block? hblock).2.1)
  refine (meets_rerouteAll block.predecessors.length h₁.1.symmetric h₁.2 hlen).bind
    fun f₂ h₂ => ?_
  exact meets_forgetBlock h₂.1.symmetric h₂.2

theorem Symmetric.addBlock (h : f.Symmetric) : f.addBlock.Symmetric :=
  h.congr (successorsOf_addBlock f) (predecessorsOf_addBlock f)

theorem symmetric_empty : empty.Symmetric := by
  have h : ({} : Function).Symmetric := by
    intro a b
    simp [successorsOf, predecessorsOf, block?, Arena.get?]
  exact h.addBlock.addBlock

theorem meets_append (h : f.Symmetric) (operation : Operation) :
    Meets Symmetric (f.append b operation) := by
  have h₁ : (f.addInstruction operation).Symmetric := h.congr (fun _ => rfl) fun _ => rfl
  exact (meets_place h₁ .last).mono fun _ h₂ => h₂.1

theorem meets_apply (h : f.Symmetric) (edit : Edit) :
    Meets (fun r => r.2.Symmetric) (f.apply edit).outcome := by
  cases edit with
  | addBlock => exact h.addBlock
  | addRegister name => exact h
  | addInstruction operation => exact h
  | copyInstruction source =>
    simp only [apply]
    cases f.instruction? source with
    | none => exact h
    | some insn => exact h
  | dominators edit => exact h
  | postDominators edit => exact h
  | append block operation =>
    simp only [apply, Logged.outcome_bind, Logged.outcome_lift]
    exact (meets_append h operation).bind fun _ h₁ => h₁
  | place insn block position =>
    simp only [apply, Logged.outcome_bind, Logged.outcome_lift]
    exact (meets_place h position).bind fun _ h₁ => h₁.1
  | detach insn =>
    simp only [apply, Logged.outcome_bind, Logged.outcome_lift]
    exact (meets_detach h).bind fun _ h₁ => h₁.symmetric
  | delete insn =>
    simp only [apply, Logged.outcome_bind, Logged.outcome_lift]
    exact (meets_delete h).bind fun _ h₁ => h₁.symmetric
  | redirectBranch insn old next =>
    simp only [apply, Logged.outcome_bind, Logged.outcome_lift]
    exact (meets_redirectBranch h).bind fun _ h₁ => h₁.symmetric
  | setFallThrough block next =>
    simp only [apply, Logged.outcome_bind, Logged.outcome_lift]
    exact (meets_setFallThrough h).bind fun _ h₁ => h₁.symmetric
  | addEdge source target =>
    simp only [apply, Logged.outcome_bind, Logged.outcome_lift]
    exact (meets_addEdge h).bind fun _ h₁ => h₁.symmetric
  | removeEdge source target =>
    simp only [apply, Logged.outcome_bind, Logged.outcome_lift]
    refine (meets_removeEdge h).bind ?_
    rintro ⟨removed, f₁⟩ rfl
    exact h.withoutEdge
  | redirect block old next =>
    simp only [apply, Logged.outcome_bind, Logged.outcome_lift]
    exact (meets_redirect h).bind fun _ h₁ => h₁.symmetric
  | destroy block =>
    simp only [apply, Logged.outcome_bind]
    exact (meets_destroy h).bind fun _ h₁ => h₁

theorem meets_run (h : f.Symmetric) (edits : List Edit) :
    Meets Symmetric (f.run edits).outcome := by
  induction edits generalizing f with
  | nil => exact h
  | cons edit edits ih =>
    simp only [run, Logged.outcome_bind]
    exact (meets_apply h edit).bind fun r h₁ => ih h₁

/-- Both ends of an edge list it equally often after any edits, and no edits end in a fault that
denies this. -/
theorem run_edges_symmetric (edits : List Edit) :
    (∀ f, (empty.run edits).outcome = .ok f →
      ∀ a x, f.block? a = some x →
        (∀ b y, f.block? b = some y → x.edgesTo b = y.edgesFrom a) ∧
        (∀ b ∈ x.successors, f.isLive b = true) ∧ ∀ b ∈ x.predecessors, f.isLive b = true) ∧
    (∀ s t, (empty.run edits).outcome ≠ .error (.asymmetricEdge s t)) ∧
    (empty.run edits).outcome ≠ .error .remainingPredecessors := by
  have hrun := meets_run symmetric_empty edits
  refine ⟨?_, ?_, ?_⟩
  · intro f hf a x hx
    have hsym : f.Symmetric := hrun.of_ok hf
    obtain ⟨hs, hp, -⟩ := views_of_block? hx
    refine ⟨?_, ?_, ?_⟩
    · intro b y hy
      have hab := hsym a b
      rw [hs, (views_of_block? hy).2.1] at hab
      exact hab
    · intro b hb
      exact hsym.isLive_successor (hs ▸ hb)
    · intro b hb
      exact hsym.isLive_predecessor (hp ▸ hb)
  · intro s t h
    exact Bool.noConfusion (hrun.not_internal h)
  · intro h
    exact Bool.noConfusion (hrun.not_internal h)

/-- A driven edge is removed behind the back of its branch, then its target is destroyed. -/
theorem edges_symmetric_after_destroy :
    ∃ f, (empty.run [.addBlock, .setFallThrough ⟨0⟩ (some ⟨2⟩),
        .append ⟨0⟩ (.branch ⟨0⟩ (some ⟨2⟩)), .removeEdge ⟨0⟩ ⟨2⟩, .addEdge ⟨0⟩ ⟨0⟩,
        .setFallThrough ⟨2⟩ (some ⟨1⟩), .destroy ⟨2⟩]).outcome = .ok f ∧
      f.successorsOf ⟨0⟩ = [⟨0⟩, ⟨1⟩, ⟨1⟩] ∧
      ∀ a x, f.block? a = some x → ∀ b y, f.block? b = some y → x.edgesTo b = y.edgesFrom a := by
  have hview : ((empty.run [.addBlock, .setFallThrough ⟨0⟩ (some ⟨2⟩),
      .append ⟨0⟩ (.branch ⟨0⟩ (some ⟨2⟩)), .removeEdge ⟨0⟩ ⟨2⟩, .addEdge ⟨0⟩ ⟨0⟩,
      .setFallThrough ⟨2⟩ (some ⟨1⟩), .destroy ⟨2⟩]).outcome.toOption.map
        (·.successorsOf ⟨0⟩)) = some [⟨0⟩, ⟨1⟩, ⟨1⟩] := by
    decide +kernel
  obtain ⟨f, hf, hsucc⟩ := Option.map_eq_some_iff.mp hview
  have hok := eq_ok_of_toOption hf
  exact ⟨f, hok, hsucc, fun a x hx => ((run_edges_symmetric _).1 f hok a x hx).1⟩

end FlowGraph.Function
