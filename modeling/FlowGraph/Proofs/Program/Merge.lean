import FlowGraph.Proofs.RoundTrip.Acceptance
import Mathlib.Data.List.Induction

/-!
# Merging programs

The functions of one program are entered into another one in order. A name that is taken keeps its
place and gets the newer function. Where the policy lets all names in, or no name is in both
programs, this is what adding the functions one by one comes to.
-/

namespace FlowGraph.Program

set_option autoImplicit false

variable {p q : Program} {name n : String} {f g : Function}
  {entries : List (String × Function)}

/-- Enter a function, in the place of an older one of this name. -/
def put (p : Program) (name : String) (f : Function) : Program :=
  if name ∈ p.names then p.replace name f
  else { p with functions := p.functions ++ [(name, f)] }

def putAll (p : Program) (entries : List (String × Function)) : Program :=
  entries.foldl (fun p entry => p.put entry.1 entry.2) p

def onto (p q : Program) : Program := p.putAll q.functions

theorem add_eq (p : Program) (name : String) (f : Function) :
    p.add name f = if p.policy = .reject ∧ name ∈ p.names then .error (.nameTaken name)
      else .ok (p.put name f) := by
  unfold add put
  simp only [find?_isSome_iff]
  by_cases hn : name ∈ p.names
  · cases hp : p.policy <;> simp [hn]
  · simp [hn]

theorem policy_put : (p.put name f).policy = p.policy := by
  unfold put
  split <;> rfl

theorem mem_names_put : n ∈ (p.put name f).names ↔ n ∈ p.names ∨ n = name := by
  unfold put
  split
  · next hname =>
    rw [names_replace]
    constructor
    · exact .inl
    · rintro (hn | rfl)
      · exact hn
      · exact hname
  · simp [names]

theorem find?_replace :
    (p.replace name f).find? n =
      if n = name ∧ name ∈ p.names then some f else p.find? n := by
  unfold find? names replace
  induction p.functions with
  | nil => simp
  | cons entry entries ih =>
    obtain ⟨m, g⟩ := entry
    by_cases hm : m = name
    · subst hm
      by_cases hn : n = m
      · simp [hn]
      · simp [hn, List.lookup_cons, beq_false_of_ne hn] at ih ⊢
        exact ih
    · by_cases hn : n = m
      · simp [hn, hm]
      · have hmem : name ∈ m :: entries.map Prod.fst ↔ name ∈ entries.map Prod.fst := by
          simp [Ne.symm hm]
        simp only [List.map_cons, if_neg hm, List.lookup_cons, beq_false_of_ne hn, hmem]
        exact ih

theorem find?_put : (p.put name f).find? n = if n = name then some f else p.find? n := by
  unfold put
  split
  · next hname =>
    rw [find?_replace]
    simp [hname]
  · next hname =>
    have hnone : p.find? name = none := by
      rw [← Option.not_isSome_iff_eq_none, find?_isSome_iff]
      exact hname
    simp only [find?, List.lookup_append] at hnone ⊢
    by_cases hn : n = name
    · simp [hn, hnone]
    · simp [hn, List.lookup_cons, beq_false_of_ne hn]

theorem replace_of_notMem (h : name ∉ p.names) : p.replace name f = p := by
  have hkeep : ∀ entry ∈ p.functions, (if entry.1 = name then (name, f) else entry) = entry := by
    intro entry hentry
    refine if_neg ?_
    rintro rfl
    exact h (List.mem_map_of_mem hentry)
  exact congrArg (Program.mk p.policy) ((List.map_congr_left hkeep).trans (List.map_id _))

theorem replace_replace : (p.replace name g).replace name f = p.replace name f := by
  simp only [replace, List.map_map]
  refine congrArg (Program.mk p.policy) (List.map_congr_left ?_)
  intro entry _
  by_cases hn : entry.1 = name <;> simp [hn]

theorem replace_comm (h : n ≠ name) :
    (p.replace name f).replace n g = (p.replace n g).replace name f := by
  simp only [replace, List.map_map]
  refine congrArg (Program.mk p.policy) (List.map_congr_left ?_)
  intro entry _
  by_cases hn : entry.1 = n
  · simp [hn, h]
  · by_cases hname : entry.1 = name <;> simp [hn, hname, Ne.symm h]

theorem put_put : (p.put name g).put name f = p.put name f := by
  rw [put, if_pos (mem_names_put.mpr (.inr rfl))]
  unfold put
  split
  · exact replace_replace
  · next hname =>
    have hkeep := congrArg Program.functions (replace_of_notMem (f := f) hname)
    simp only [replace] at hkeep
    simp [replace, hkeep]

theorem put_comm (hmem : name ∈ p.names) (h : n ≠ name) :
    (p.put name f).put n g = (p.put n g).put name f := by
  rw [put, put, if_pos hmem, names_replace]
  by_cases hn : n ∈ p.names
  · rw [if_pos hn, put, put, if_pos hn, names_replace, if_pos hmem, replace_comm h]
  · have hmem' : name ∈ (p.put n g).names := mem_names_put.mpr (.inl hmem)
    rw [if_neg hn, put, if_pos hmem', put, if_neg hn]
    simp [replace, h]

theorem putAll_concat (entry : String × Function) :
    p.putAll (entries ++ [entry]) = (p.putAll entries).put entry.1 entry.2 := by
  rw [putAll, List.foldl_append]
  rfl

theorem mem_names_putAll :
    n ∈ (p.putAll entries).names ↔ n ∈ p.names ∨ n ∈ entries.map Prod.fst := by
  induction entries using List.reverseRecOn with
  | nil => simp [putAll]
  | append_singleton entries entry ih =>
    rw [putAll_concat, mem_names_put, ih]
    simp [or_assoc]

theorem policy_putAll : (p.putAll entries).policy = p.policy := by
  induction entries using List.reverseRecOn with
  | nil => rfl
  | append_singleton entries entry ih => rw [putAll_concat, policy_put, ih]

/-- Replacing a function that is entered is entering the other one afterwards. -/
theorem putAll_map_replace (hmem : name ∈ entries.map Prod.fst) :
    p.putAll (entries.map fun entry => if entry.1 = name then (name, f) else entry) =
      (p.putAll entries).put name f := by
  induction entries using List.reverseRecOn with
  | nil => cases hmem
  | append_singleton entries entry ih =>
    rw [List.map_append, List.map_singleton, putAll_concat, putAll_concat]
    by_cases hentry : entry.1 = name
    · rw [if_pos hentry, hentry, put_put]
      by_cases hearlier : name ∈ entries.map Prod.fst
      · rw [ih hearlier, put_put]
      · have hkeep := congrArg Program.functions
          (replace_of_notMem (p := { policy := p.policy, functions := entries }) (f := f) hearlier)
        exact congrArg (fun es => (p.putAll es).put name f) hkeep
    · have hearlier : name ∈ entries.map Prod.fst := by
        simpa [Ne.symm hentry] using hmem
      rw [if_neg hentry, ih hearlier, put_comm (mem_names_putAll.mpr (.inr hearlier)) hentry]

theorem mem_names_onto : n ∈ (p.onto q).names ↔ n ∈ p.names ∨ n ∈ q.names := mem_names_putAll

theorem policy_onto : (p.onto q).policy = p.policy := policy_putAll

theorem onto_put : p.onto (q.put name f) = (p.onto q).put name f := by
  by_cases hname : name ∈ q.names
  · have hput : q.put name f = q.replace name f := if_pos hname
    rw [hput]
    exact putAll_map_replace hname
  · have hput : q.put name f = { q with functions := q.functions ++ [(name, f)] } := if_neg hname
    rw [hput]
    exact putAll_concat (name, f)

/-- If the names do not meet, functions are added onto `p` as they are added to the program alone.
-/
theorem add_onto (hpolicy : q.policy = p.policy) (hfree : p.policy = .replace ∨ name ∉ p.names) :
    (p.onto q).add name f = (q.add name f).map p.onto := by
  have hclash : ((p.onto q).policy = .reject ∧ name ∈ (p.onto q).names) ↔
      (q.policy = .reject ∧ name ∈ q.names) := by
    rw [policy_onto, mem_names_onto, hpolicy]
    rcases hfree with hreplace | hname
    · simp [hreplace]
    · simp [hname]
  rw [add_eq, add_eq, ← onto_put]
  simp only [hclash]
  split <;> rfl

theorem find?_putAll (hnodup : (entries.map Prod.fst).Nodup) :
    (p.putAll entries).find? n = (entries.lookup n).or (p.find? n) := by
  induction entries using List.reverseRecOn with
  | nil => rfl
  | append_singleton entries entry ih =>
    rw [List.map_append, List.nodup_append] at hnodup
    obtain ⟨hnodup, -, hdisjoint⟩ := hnodup
    obtain ⟨m, g⟩ := entry
    rw [putAll_concat, find?_put, ih hnodup, List.lookup_append]
    by_cases hn : n = m
    · have hearlier : entries.lookup n = none := by
        rw [← Option.not_isSome_iff_eq_none]
        intro hsome
        have hmem : n ∈ entries.map Prod.fst := find?_isSome_iff (p := ⟨p.policy, entries⟩).mp hsome
        exact hdisjoint n hmem n (by simp [hn]) rfl
      simp [hn ▸ hearlier, hn]
    · simp [hn, List.lookup_cons, beq_false_of_ne hn]

theorem find?_onto (hnodup : q.names.Nodup) :
    (p.onto q).find? n = (q.find? n).or (p.find? n) := find?_putAll hnodup

theorem foldlM_add (hfree : p.policy = .replace ∨
      (entries.map Prod.fst).Nodup ∧ ∀ n ∈ entries.map Prod.fst, n ∉ p.names) :
    entries.foldlM (fun p entry => p.add entry.1 entry.2) p = .ok (p.putAll entries) := by
  induction entries generalizing p with
  | nil => rfl
  | cons entry entries ih =>
    have hadd : p.add entry.1 entry.2 = .ok (p.put entry.1 entry.2) := by
      rw [add_eq, if_neg]
      rintro ⟨hreject, hmem⟩
      rcases hfree with hreplace | ⟨-, hapart⟩
      · rw [hreject] at hreplace
        cases hreplace
      · exact hapart entry.1 (by simp) hmem
    rw [List.foldlM_cons, hadd, ok_bind]
    refine ih ?_
    rw [policy_put]
    refine hfree.imp_right ?_
    rintro ⟨hnodup, hapart⟩
    rw [List.map_cons, List.nodup_cons] at hnodup
    refine ⟨hnodup.2, ?_⟩
    intro n hn hmem
    rcases mem_names_put.mp hmem with hmem | rfl
    · exact hapart n (by simp [hn]) hmem
    · exact hnodup.1 hn

end FlowGraph.Program
