import FlowGraph.Proofs.Graph.References
import FlowGraph.Proofs.Graph.Updates

/-!
# Registers by name

A function keeps its registers in a list and, for each name, one of them in a table. Two registers
may share a name. In every state of every run the table leads a name to its newest register.
-/

namespace FlowGraph.Function

set_option autoImplicit false

variable {f f' : Function} {edits : List Edit} {name : String} {r : RegId}

/-- The table has every name that a register has, and leads it to its newest register. -/
structure Catalogued (f : Function) : Prop where
  missing : ∀ name, f.findRegister? name = none → ∀ r, f.registerName? r ≠ some name
  newest : ∀ name r, f.findRegister? name = some r →
    f.registerName? r = some name ∧ ∀ q, f.registerName? q = some name → q.index ≤ r.index

theorem findRegister?_addRegister (f : Function) (name n : String) :
    (f.addRegister name).findRegister? n =
      if name = n then some f.nextRegister else f.findRegister? n := by
  rw [findRegister?, addRegister, Std.TreeMap.getElem?_insert]
  simp only [Std.LawfulEqCmp.compare_eq_iff_eq]
  rfl

theorem registerName?_addRegister (f : Function) (name : String) (r : RegId) :
    (f.addRegister name).registerName? r =
      if r = f.nextRegister then some name else f.registerName? r := by
  obtain ⟨k⟩ := r
  simp only [registerName?, addRegister, nextRegister, RegId.mk.injEq, List.getElem?_append]
  grind

theorem index_lt_of_registerName? (h : f.registerName? r = some name) :
    r.index < f.nextRegister.index := (List.getElem?_eq_some_iff.mp h).1

namespace Catalogued

theorem congr (h : f.Catalogued) (hnames : f'.registers = f.registers)
    (htable : f'.registerTable = f.registerTable) : f'.Catalogued := by
  have hname : ∀ r, f'.registerName? r = f.registerName? r := by
    intro r
    rw [registerName?, registerName?, hnames]
  have hfind : ∀ name, f'.findRegister? name = f.findRegister? name := by
    intro name
    rw [findRegister?, findRegister?, htable]
  refine ⟨?_, ?_⟩
  · intro name hnone r
    rw [hname]
    exact h.missing name ((hfind name).symm.trans hnone) r
  · intro name r hsome
    simp only [hname]
    exact h.newest name r ((hfind name).symm.trans hsome)

theorem addRegister (h : f.Catalogued) (name : String) : (f.addRegister name).Catalogued := by
  refine ⟨?_, ?_⟩
  · intro n hnone r hr
    rw [findRegister?_addRegister] at hnone
    split at hnone
    · cases hnone
    · next hne =>
      rw [registerName?_addRegister] at hr
      split at hr
      · exact hne (Option.some.inj hr)
      · exact h.missing n hnone r hr
  · intro n r hsome
    rw [findRegister?_addRegister] at hsome
    simp only [registerName?_addRegister]
    split at hsome
    · next hname =>
      cases hsome
      refine ⟨by rw [if_pos rfl, hname], ?_⟩
      intro q hq
      split at hq
      · next hnew => exact Nat.le_of_eq (congrArg RegId.index hnew)
      · exact Nat.le_of_lt (index_lt_of_registerName? hq)
    · next hne =>
      obtain ⟨hr, hmax⟩ := h.newest n r hsome
      have hold : r ≠ f.nextRegister := by
        rintro rfl
        exact Nat.lt_irrefl _ (index_lt_of_registerName? hr)
      refine ⟨by rw [if_neg hold, hr], ?_⟩
      intro q hq
      split at hq
      · exact absurd (Option.some.inj hq) hne
      · exact hmax q hq

theorem reworks (h : f.Catalogued) (hr : Reworks f f') : f'.Catalogued :=
  h.congr hr.registers_eq hr.registerTable_eq

theorem update (h : f.Catalogued) (hu : Update f f') : f'.Catalogued := by
  cases hu with
  | rework hr => exact h.reworks (.single hr)
  | addBlock => exact h.congr rfl rfl
  | withoutBlock hs => exact h.congr rfl rfl
  | addRegister name => exact h.addRegister name

theorem apply (h : f.Catalogued) {edit : Edit} {reply : Reply}
    (ha : (f.apply edit).outcome = .ok (reply, f')) : f'.Catalogued :=
  apply_keeps update (fun _ h => h.congr rfl rfl) (fun _ h => h.congr rfl rfl) h ha

theorem findRegister?_eq_none_iff (h : f.Catalogued) :
    f.findRegister? name = none ↔ ∀ r, f.registerName? r ≠ some name := by
  refine ⟨h.missing name, fun hnone => ?_⟩
  cases hfind : f.findRegister? name with
  | none => rfl
  | some r => exact absurd (h.newest name r hfind).1 (hnone r)

theorem findRegister?_eq_some_iff (h : f.Catalogued) : f.findRegister? name = some r ↔
    f.registerName? r = some name ∧ ∀ q, f.registerName? q = some name → q.index ≤ r.index := by
  refine ⟨h.newest name r, ?_⟩
  rintro ⟨hr, hmax⟩
  cases hfind : f.findRegister? name with
  | none => exact absurd hr (h.missing name hfind r)
  | some q =>
    obtain ⟨hq, hmaxq⟩ := h.newest name q hfind
    exact congrArg (some ∘ RegId.mk) (Nat.le_antisymm (hmax q hq) (hmaxq r hr))

/-- If no two registers share a name, each name leads to its own. -/
theorem findRegister?_eq (h : f.Catalogued) (hnodup : f.registers.Nodup) (n : String) :
    f.findRegister? n = if n ∈ f.registers then some ⟨f.registers.idxOf n⟩ else none := by
  split
  · next hn =>
    refine h.findRegister?_eq_some_iff.mpr ⟨List.getElem?_idxOf hn, ?_⟩
    intro q hq
    obtain ⟨hlt, rfl⟩ := List.getElem?_eq_some_iff.mp hq
    exact Nat.le_of_eq (hnodup.idxOf_getElem q.index hlt).symm
  · next hn => exact h.findRegister?_eq_none_iff.mpr fun r hr => hn (List.mem_of_getElem? hr)

end Catalogued

theorem catalogued_empty : empty.Catalogued := by
  have h : ({} : Function).Catalogued := by
    refine ⟨?_, ?_⟩
    · intro name _ r hr
      cases hr
    · intro name r hr
      rw [findRegister?, Std.TreeMap.getElem?_emptyc] at hr
      cases hr
  exact h.congr rfl rfl

theorem catalogued_run (hr : (empty.run edits).outcome = .ok f) : f.Catalogued :=
  run_keeps (fun _ _ _ _ _ h ha => h.apply ha) catalogued_empty hr

end FlowGraph.Function
