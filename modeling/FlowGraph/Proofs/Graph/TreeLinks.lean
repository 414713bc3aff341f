import FlowGraph.Proofs.Dominance.Links
import FlowGraph.Proofs.Graph.Validity

/-!
# Links of the trees of a function

No operation on the graph touches the nodes of the two trees, except that a destroyed block leaves
both. So their links stay consistent along every run, whatever their owner enters.
-/

namespace FlowGraph.Function

set_option autoImplicit false

open Dominance (Tree)

variable {f f' : Function} {b : BlockId} {edits : List Edit}

def tree (f : Function) : TreeKind → Tree
  | .dominators => f.dominators
  | .postDominators => f.postDominators

variable {kind : TreeKind}

theorem tree_modifyBlock (f : Function) (b : BlockId) (g : Block → Block) :
    (f.modifyBlock b g).tree kind = f.tree kind := by
  unfold modifyBlock
  split
  · cases kind <;> rfl
  · rfl

theorem nodes_invalidateTrees (f : Function) :
    (f.invalidateTrees.tree kind).nodes = (f.tree kind).nodes := by
  cases kind <;> rfl

theorem tree_withoutBlock (f : Function) (b : BlockId) :
    (f.withoutBlock b).tree kind = (f.tree kind).erase b := by
  cases kind <;> rfl

theorem Rework.nodes_eq (hr : Rework f f') : (f'.tree kind).nodes = (f.tree kind).nodes := by
  cases hr with
  | block b g hg => rw [tree_modifyBlock]
  | withEdge a b =>
    rw [Function.withEdge, nodes_invalidateTrees, tree_modifyBlock, tree_modifyBlock]
  | withoutEdge a b =>
    rw [Function.withoutEdge, nodes_invalidateTrees, tree_modifyBlock, tree_modifyBlock]
  | _ => cases kind <;> rfl

theorem Reworks.nodes_eq (hr : Reworks f f') : (f'.tree kind).nodes = (f.tree kind).nodes := by
  induction hr with
  | refl => rfl
  | tail _ hr ih => exact hr.nodes_eq.trans ih

def TreesLinked (f : Function) : Prop := ∀ kind, (f.tree kind).Linked

namespace TreesLinked

theorem empty : empty.TreesLinked := by
  intro kind
  cases kind <;> exact .empty

theorem update (h : f.TreesLinked) (hu : Update f f') : f'.TreesLinked := by
  intro kind
  cases hu with
  | rework hr => exact (h kind).of_nodes_eq hr.nodes_eq
  | addBlock => exact (h kind).of_nodes_eq (by cases kind <;> rfl)
  | @withoutBlock b hs =>
    rw [tree_withoutBlock]
    exact (h kind).erase b
  | addRegister name => exact (h kind).of_nodes_eq (by cases kind <;> rfl)

theorem apply {edit : Edit} {reply : Reply} (h : f.TreesLinked)
    (ha : (f.apply edit).outcome = .ok (reply, f')) : f'.TreesLinked := by
  refine apply_keeps update ?_ ?_ h ha
  · intro f e h kind
    cases kind with
    | dominators => exact (h .dominators).apply e
    | postDominators => exact h .postDominators
  · intro f e h kind
    cases kind with
    | dominators => exact h .dominators
    | postDominators => exact (h .postDominators).apply e

theorem run (h : f.TreesLinked) (hr : (f.run edits).outcome = .ok f') : f'.TreesLinked :=
  run_keeps (fun _ _ _ _ _ h ha => h.apply ha) h hr

/-- A destroyed block leaves both trees. -/
theorem departed (h : f.TreesLinked) (hd : (f.destroy b).outcome = .ok f') (kind : TreeKind) :
    (f.tree kind).Departed b (f'.tree kind) := by
  obtain ⟨f₁, hr, -, rfl⟩ := Reworks.of_destroy hd
  have hlinked : (f₁.tree kind).Linked := (h kind).of_nodes_eq hr.nodes_eq
  rw [tree_withoutBlock]
  exact (hlinked.departed b).of_nodes_eq hr.nodes_eq.symm rfl

end TreesLinked

/-- In a tree, a block has an immediate dominator exactly if it is listed there, once. -/
theorem tree_links_consistent :
    (∀ edits : List Dominance.Edit, ∀ t, edits.foldl Tree.apply {} = t →
      t.Linked ∧ ∀ b, t.Departed b (t.erase b)) ∧
    ∀ (edits : List Edit) (f : Function), (empty.run edits).outcome = .ok f → ∀ kind,
      (f.tree kind).Linked ∧ ∀ b f', (f.destroy b).outcome = .ok f' →
        (f'.tree kind).Linked ∧ (f.tree kind).Departed b (f'.tree kind) := by
  refine ⟨?_, ?_⟩
  · rintro edits t rfl
    have hlinked : (edits.foldl Tree.apply {}).Linked := Tree.Linked.empty.foldl_apply edits
    exact ⟨hlinked, hlinked.departed⟩
  · intro edits f hr kind
    have htrees : f.TreesLinked := TreesLinked.empty.run hr
    refine ⟨htrees kind, ?_⟩
    intro b f' hd
    exact ⟨Updates.keeps TreesLinked.update htrees (.destroy hd) kind, htrees.departed hd kind⟩

/-- A block above itself, two blocks above each other, and a destroyed block between two others. -/
theorem links_of_cycles_and_destroyed_block :
    (∃ t, [.insert ⟨1⟩ (some ⟨1⟩), .insert ⟨2⟩ (some ⟨3⟩), .insert ⟨4⟩ (some ⟨2⟩),
        .insert ⟨3⟩ (some ⟨2⟩), .insert ⟨1⟩ (some ⟨2⟩)].foldl Tree.apply {} = t ∧
      t.idom? ⟨2⟩ = some ⟨3⟩ ∧ t.idom? ⟨3⟩ = some ⟨2⟩ ∧
      t.childrenOf ⟨2⟩ = [⟨4⟩, ⟨3⟩, ⟨1⟩] ∧ t.childrenOf ⟨1⟩ = [] ∧
      t.Linked ∧ t.Departed ⟨3⟩ (t.erase ⟨3⟩)) ∧
    ∃ f f', (empty.run [.addBlock, .addBlock, .setFallThrough ⟨0⟩ (some ⟨2⟩),
        .append ⟨2⟩ (.branch ⟨0⟩ (some ⟨3⟩)), .dominators (.insert ⟨2⟩ (some ⟨0⟩)),
        .dominators (.insert ⟨3⟩ (some ⟨2⟩)), .postDominators (.insert ⟨0⟩ (some ⟨2⟩)),
        .postDominators (.insert ⟨2⟩ (some ⟨2⟩)), .dominators .markValid]).outcome = .ok f ∧
      (f.destroy ⟨2⟩).outcome = .ok f' ∧
      (f.tree .dominators).idom? ⟨3⟩ = some ⟨2⟩ ∧ (f'.tree .dominators).contains ⟨3⟩ = true ∧
      ∀ kind, (f'.tree kind).Linked ∧ (f.tree kind).Departed ⟨2⟩ (f'.tree kind) := by
  refine ⟨?_, ?_⟩
  · obtain ⟨hlinked, hdeparted⟩ := tree_links_consistent.1 [.insert ⟨1⟩ (some ⟨1⟩),
      .insert ⟨2⟩ (some ⟨3⟩), .insert ⟨4⟩ (some ⟨2⟩), .insert ⟨3⟩ (some ⟨2⟩),
      .insert ⟨1⟩ (some ⟨2⟩)] _ rfl
    exact ⟨_, rfl, by decide +kernel, by decide +kernel, by decide +kernel, by decide +kernel,
      hlinked, hdeparted ⟨3⟩⟩
  · have hview : ((empty.run [.addBlock, .addBlock, .setFallThrough ⟨0⟩ (some ⟨2⟩),
        .append ⟨2⟩ (.branch ⟨0⟩ (some ⟨3⟩)), .dominators (.insert ⟨2⟩ (some ⟨0⟩)),
        .dominators (.insert ⟨3⟩ (some ⟨2⟩)), .postDominators (.insert ⟨0⟩ (some ⟨2⟩)),
        .postDominators (.insert ⟨2⟩ (some ⟨2⟩)),
        .dominators .markValid]).outcome.toOption.bind fun f =>
          (f.destroy ⟨2⟩).outcome.toOption.map fun f' =>
            ((f.tree .dominators).idom? ⟨3⟩, (f'.tree .dominators).contains ⟨3⟩)) =
        some (some ⟨2⟩, true) := by
      decide +kernel
    obtain ⟨f, hf, hview⟩ := Option.bind_eq_some_iff.mp hview
    obtain ⟨f', hf', hview⟩ := Option.map_eq_some_iff.mp hview
    obtain ⟨hidom, hnode⟩ := Prod.mk.inj hview
    have hr := eq_ok_of_toOption hf
    have hd := eq_ok_of_toOption hf'
    refine ⟨f, f', hr, hd, hidom, hnode, ?_⟩
    intro kind
    exact (tree_links_consistent.2 _ f hr kind).2 ⟨2⟩ f' hd

end FlowGraph.Function
