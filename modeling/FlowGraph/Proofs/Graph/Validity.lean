import FlowGraph.Proofs.Graph.References
import FlowGraph.Proofs.Graph.Updates

/-!
# Validity of the trees

Whatever changes an edge invalidates both trees, and only their owner can call a tree valid again.
So a tree that is still valid speaks of the edges for which it was called valid.
-/

namespace FlowGraph

set_option autoImplicit false

namespace Dominance.Tree

theorem valid_insert (t : Tree) (block : BlockId) (idom : Option BlockId) :
    (t.insert block idom).valid = t.valid := by
  unfold insert
  cases t.idom? block with
  | none => cases idom <;> rfl
  | some old => cases idom <;> rfl

theorem valid_foldl_orphan (t : Tree) (blocks : List BlockId) :
    (blocks.foldl orphan t).valid = t.valid := by
  induction blocks generalizing t with
  | nil => rfl
  | cons block blocks ih => exact ih (t.orphan block)

theorem valid_erase (t : Tree) (block : BlockId) : (t.erase block).valid = t.valid := by
  unfold erase
  cases t.node? block with
  | none => rfl
  | some n =>
    simp only [valid_foldl_orphan]
    cases n.idom <;> rfl

/-- Only marking makes a tree valid. -/
theorem valid_of_valid_apply {t : Tree} {edit : Edit} (hedit : edit ≠ .markValid)
    (hv : (t.apply edit).valid = true) : t.valid = true := by
  cases edit with
  | insert block idom => rwa [apply, valid_insert] at hv
  | erase block => rwa [apply, valid_erase] at hv
  | markValid => exact absurd rfl hedit
  | invalidate => cases hv
  | clear => cases hv

end Dominance.Tree

namespace Function

variable {f f' f'' : Function} {edits : List Edit}

inductive TreeKind where
  | dominators
  | postDominators
deriving DecidableEq, Repr

def TreeKind.mark : TreeKind → Edit
  | .dominators => .dominators .markValid
  | .postDominators => .postDominators .markValid

def treeIsValid (f : Function) : TreeKind → Bool
  | .dominators => f.dominators.valid
  | .postDominators => f.postDominators.valid

variable {kind : TreeKind}

/-- If the tree is valid in `f'`, then it was valid in `f` and the edges are the same. -/
def Trusts (kind : TreeKind) (f f' : Function) : Prop :=
  f'.treeIsValid kind = true →
    f.treeIsValid kind = true ∧ ∀ a, f'.successorsOf a = f.successorsOf a

theorem treeIsValid_modifyBlock (f : Function) (b : BlockId) (g : Block → Block) :
    (f.modifyBlock b g).treeIsValid kind = f.treeIsValid kind := by
  unfold modifyBlock
  split
  · cases kind <;> rfl
  · rfl

theorem treeIsValid_invalidateTrees (f : Function) :
    f.invalidateTrees.treeIsValid kind = false := by
  cases kind <;> rfl

theorem treeIsValid_withoutBlock (f : Function) (b : BlockId) :
    (f.withoutBlock b).treeIsValid kind = f.treeIsValid kind := by
  cases kind with
  | dominators => exact f.dominators.valid_erase b
  | postDominators => exact f.postDominators.valid_erase b

namespace Trusts

theorem refl (f : Function) : Trusts kind f f := fun hv => ⟨hv, fun _ => rfl⟩

theorem trans (h : Trusts kind f f') (h' : Trusts kind f' f'') : Trusts kind f f'' := by
  intro hv
  obtain ⟨hv', hedges'⟩ := h' hv
  obtain ⟨hv'', hedges⟩ := h hv'
  exact ⟨hv'', fun a => (hedges' a).trans (hedges a)⟩

theorem of_same (hv : f'.treeIsValid kind = f.treeIsValid kind)
    (hs : ∀ a, f'.successorsOf a = f.successorsOf a) : Trusts kind f f' :=
  fun hvalid => ⟨hv ▸ hvalid, hs⟩

theorem invalidateTrees (f f' : Function) : Trusts kind f f'.invalidateTrees := by
  intro hv
  rw [treeIsValid_invalidateTrees] at hv
  cases hv

theorem rework (hr : Rework f f') : Trusts kind f f' := by
  cases hr with
  | block b g hg =>
    exact of_same (treeIsValid_modifyBlock f b g) (successorsOf_modifyBlock f b g hg)
  | withEdge a b => exact .invalidateTrees f _
  | withoutEdge a b => exact .invalidateTrees f _
  | _ => exact of_same (by cases kind <;> rfl) fun _ => rfl

theorem update (hu : Update f f') : Trusts kind f f' := by
  cases hu with
  | rework hr => exact rework hr
  | @withoutBlock b hs =>
    refine of_same (treeIsValid_withoutBlock f b) ?_
    intro a
    rw [successorsOf_withoutBlock]
    split
    · next ha => rw [ha, hs]
    · rfl
  | addBlock => exact of_same (by cases kind <;> rfl) (successorsOf_addBlock f)
  | addRegister name => exact of_same (by cases kind <;> rfl) fun _ => rfl

theorem apply {edit : Edit} {reply : Reply} (hedit : edit ≠ kind.mark)
    (ha : (f.apply edit).outcome = .ok (reply, f')) : Trusts kind f f' := by
  obtain hu | ⟨e, rfl, rfl⟩ | ⟨e, rfl, rfl⟩ := apply_cases ha
  · exact hu.keeps (fun h hu => h.trans (update hu)) (refl f)
  · cases kind with
    | dominators =>
      have he : e ≠ .markValid := fun heq => hedit (heq ▸ rfl)
      exact fun hv => ⟨Dominance.Tree.valid_of_valid_apply he hv, fun _ => rfl⟩
    | postDominators => exact of_same rfl fun _ => rfl
  · cases kind with
    | dominators => exact of_same rfl fun _ => rfl
    | postDominators =>
      have he : e ≠ .markValid := fun heq => hedit (heq ▸ rfl)
      exact fun hv => ⟨Dominance.Tree.valid_of_valid_apply he hv, fun _ => rfl⟩

theorem run (hr : (f.run edits).outcome = .ok f') (hmark : kind.mark ∉ edits) :
    Trusts kind f f' := by
  refine run_keeps ?_ (refl f) hr
  intro edit hmem g g' reply htrusts ha
  have hedit : edit ≠ kind.mark := by
    rintro rfl
    exact hmark hmem
  exact htrusts.trans (apply hedit ha)

end Trusts

/-- A tree that is valid at both ends of a run that does not mark it has seen no change of the
edges. -/
theorem valid_tree_means_same_edges (hr : (f.run edits).outcome = .ok f')
    (hmark : kind.mark ∉ edits) :
    (f.treeIsValid kind = true → f'.treeIsValid kind = true →
      ∀ a b, f'.edgeCount a b = f.edgeCount a b) ∧
    (f.treeIsValid kind = false → f'.treeIsValid kind = false) := by
  have htrusts := Trusts.run hr hmark
  refine ⟨?_, ?_⟩
  · intro _ hv a b
    rw [edgeCount, edgeCount, (htrusts hv).2 a]
  · intro hinvalid
    apply Bool.eq_false_iff.mpr
    intro hv
    rw [(htrusts hv).1] at hinvalid
    cases hinvalid

/-- Blocks come and go, instructions move and one tree is marked anew. The other tree stays valid,
because no edge is touched. -/
theorem same_edges_after_destroy :
    ∃ f f', (empty.run [.addBlock, .append ⟨0⟩ (.branch ⟨0⟩ (some ⟨2⟩)),
        .setFallThrough ⟨0⟩ (some ⟨2⟩), .dominators .markValid]).outcome = .ok f ∧
      (f.run [.addBlock, .append ⟨2⟩ .nop, .place ⟨1⟩ ⟨3⟩ .first, .destroy ⟨3⟩,
        .setFallThrough ⟨0⟩ (some ⟨2⟩), .dominators (.insert ⟨2⟩ (some ⟨0⟩)),
        .postDominators .markValid]).outcome = .ok f' ∧
      f.treeIsValid .dominators = true ∧ f'.treeIsValid .dominators = true ∧
      f.edgeCount ⟨0⟩ ⟨2⟩ = 2 ∧ ∀ a b, f'.edgeCount a b = f.edgeCount a b := by
  have hview : ((empty.run [.addBlock, .append ⟨0⟩ (.branch ⟨0⟩ (some ⟨2⟩)),
      .setFallThrough ⟨0⟩ (some ⟨2⟩), .dominators .markValid]).outcome.toOption.bind fun f =>
        (f.run [.addBlock, .append ⟨2⟩ .nop, .place ⟨1⟩ ⟨3⟩ .first, .destroy ⟨3⟩,
          .setFallThrough ⟨0⟩ (some ⟨2⟩), .dominators (.insert ⟨2⟩ (some ⟨0⟩)),
          .postDominators .markValid]).outcome.toOption.map fun f' =>
            (f.treeIsValid .dominators, f'.treeIsValid .dominators, f.edgeCount ⟨0⟩ ⟨2⟩)) =
      some (true, true, 2) := by
    decide +kernel
  obtain ⟨f, hf, hview⟩ := Option.bind_eq_some_iff.mp hview
  obtain ⟨f', hf', hview⟩ := Option.map_eq_some_iff.mp hview
  simp only [Prod.mk.injEq] at hview
  obtain ⟨hv, hv', hcount⟩ := hview
  have hr := eq_ok_of_toOption hf'
  refine ⟨f, f', eq_ok_of_toOption hf, hr, hv, hv', hcount, ?_⟩
  exact (@valid_tree_means_same_edges f f' _ .dominators hr (by decide)).1 hv hv'

end Function

end FlowGraph
