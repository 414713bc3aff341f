import FlowGraph.Proofs.Graph.References
import FlowGraph.Proofs.Graph.Updates

/-!
# Stored instructions

An instruction keeps its kind, its operands and its result side by side, and nothing but the way it
was made says that they belong together. Moving it to another block or target keeps them so.
-/

namespace FlowGraph

set_option autoImplicit false

namespace Encoding.WellFormed

variable {e : Encoding}

theorem exists_encode (h : e.WellFormed) : ∃ o : Operation, e = o.encode := ⟨e.decode, h.symm⟩

theorem withTarget (h : e.WellFormed) (next : Option BlockId) : (e.withTarget next).WellFormed := by
  obtain ⟨o, rfl⟩ := h.exists_encode
  cases o <;> rfl

end Encoding.WellFormed

namespace Function

variable {f f' : Function} {b : BlockId} {insn : Instruction} {edits : List Edit}

def WellEncoded (f : Function) : Prop :=
  ∀ i insn, f.instruction? i = some insn → insn.operation.WellFormed

namespace WellEncoded

theorem of_mem (h : f.WellEncoded) (hinsn : insn ∈ f.instructionsOf b) :
    insn.operation.WellFormed := by
  rw [instructionsOf_eq, List.mem_filterMap] at hinsn
  obtain ⟨i, -, hi⟩ := hinsn
  exact h i insn hi

theorem congr (h : f.WellEncoded) (hinsns : ∀ i, f'.instruction? i = f.instruction? i) :
    f'.WellEncoded := by
  intro i insn hi
  exact h i insn ((hinsns i).symm.trans hi)

theorem addInstruction (h : f.WellEncoded) {e : Encoding} (he : e.WellFormed) :
    (f.addInstruction e).WellEncoded := by
  intro i insn hi
  rw [instruction?_addInstruction] at hi
  split at hi
  · cases hi
    exact he
  · exact h i insn hi

theorem rework (h : f.WellEncoded) (hr : Rework f f') : f'.WellEncoded := by
  cases hr with
  | block b g hg => exact h.congr (instruction?_modifyBlock f b g)
  | withEdge a b => exact h.congr (SameBodies.withEdge f a b).instruction?
  | withoutEdge a b => exact h.congr (SameBodies.withoutEdge f a b).instruction?
  | setInstruction hi hop =>
    obtain ⟨next, hop⟩ := hop
    intro j insn hj
    rw [instruction?_setInstruction (hi ▸ rfl)] at hj
    split at hj
    · cases hj
      rw [hop]
      exact (h _ _ hi).withTarget next
    · exact h j insn hj
  | addInstruction operation => exact h.addInstruction (Encoding.wellFormed_encode operation)
  | copyInstruction hi => exact h.addInstruction (h _ _ hi)
  | withoutInstruction i =>
    intro j insn hj
    have hj := (instruction?_withoutInstruction f i j).symm.trans hj
    split at hj
    · cases hj
    · exact h j insn hj
  | forgetTarget b =>
    intro j insn hj
    rw [instruction?_forgetTarget] at hj
    obtain ⟨old, hold, rfl⟩ := Option.map_eq_some_iff.mp hj
    split
    · obtain ⟨next, hop⟩ := old.exists_withTarget_redirect b none
      rw [hop]
      exact (h j old hold).withTarget next
    · exact h j old hold

theorem reworks (h : f.WellEncoded) (hr : Reworks f f') : f'.WellEncoded := by
  induction hr with
  | refl => exact h
  | tail _ hr ih => exact ih.rework hr

theorem update (h : f.WellEncoded) (hu : Update f f') : f'.WellEncoded := by
  cases hu with
  | rework hr => exact h.rework hr
  | addBlock => exact h.congr fun _ => rfl
  | withoutBlock hs => exact h.congr fun _ => rfl
  | addRegister name => exact h.congr fun _ => rfl

theorem apply (h : f.WellEncoded) {edit : Edit} {reply : Reply}
    (ha : (f.apply edit).outcome = .ok (reply, f')) : f'.WellEncoded :=
  apply_keeps update (fun _ h => h.congr fun _ => rfl) (fun _ h => h.congr fun _ => rfl) h ha

end WellEncoded

theorem wellEncoded_empty : empty.WellEncoded := by
  intro i insn hi
  cases hi

theorem Reached.wellEncoded {raw : RawEdges} (h : Reached f raw) : f.WellEncoded := by
  induction h with
  | new => exact wellEncoded_empty
  | edit _ _ ha ih => exact ih.apply ha

theorem wellEncoded_run (hr : (empty.run edits).outcome = .ok f) : f.WellEncoded :=
  run_keeps (fun _ _ _ _ _ h ha => h.apply ha) wellEncoded_empty hr

end Function

end FlowGraph
