import FlowGraph.Proofs.Dominance.Links
import Mathlib.Data.List.Perm.Subperm
import Mathlib.Data.Nat.Find

/-!
# Ancestors

Who is above whom is told by going up from block to block. The query takes no more steps than the
tree has nodes, and this never hides an ancestor: a way up that comes to a block twice can be cut
short, and one that does not passes as many nodes as it has steps. So the query is right also where
the links run in circles and for blocks that the tree does not hold.
-/

namespace FlowGraph.Dominance.Tree

set_option autoImplicit false

variable {t : Tree} {a b c : BlockId} {m n : Nat}

def up? (t : Tree) : Nat → BlockId → Option BlockId
  | 0, b => some b
  | n + 1, b => (t.idom? b).bind (t.up? n)

/-- No block is above itself. -/
def Acyclic (t : Tree) : Prop := ∀ b n, t.up? (n + 1) b ≠ some b

theorem up?_add (t : Tree) (m n : Nat) (b : BlockId) :
    t.up? (m + n) b = (t.up? m b).bind (t.up? n) := by
  induction m generalizing b with
  | zero =>
    rw [Nat.zero_add]
    rfl
  | succ m ih =>
    rw [Nat.succ_add, up?, up?]
    cases t.idom? b with
    | none => rfl
    | some p => exact ih p

theorem up?_trans (hm : t.up? m c = some b) (hn : t.up? n b = some a) :
    t.up? (m + n) c = some a := by
  rw [up?_add, hm]
  exact hn

theorem climb_succ : t.climb a (n + 1) b = true ↔
    b = a ∨ ∃ p, t.idom? b = some p ∧ t.climb a n p = true := by
  rw [climb, Bool.or_eq_true, beq_iff_eq]
  cases t.idom? b with
  | none => simp
  | some p => simp

theorem climb_iff : t.climb a n b = true ↔ ∃ m, m ≤ n ∧ t.up? m b = some a := by
  induction n generalizing b with
  | zero =>
    rw [climb, beq_iff_eq]
    constructor
    · rintro rfl
      exact ⟨0, Nat.le_refl 0, rfl⟩
    · rintro ⟨m, hm, hup⟩
      obtain rfl := Nat.le_zero.mp hm
      exact Option.some.inj hup
  | succ n ih =>
    rw [climb_succ]
    constructor
    · rintro (rfl | ⟨p, hp, hclimb⟩)
      · exact ⟨0, Nat.zero_le _, rfl⟩
      · obtain ⟨m, hm, hup⟩ := ih.mp hclimb
        exact ⟨m + 1, Nat.succ_le_succ hm, Option.bind_eq_some_iff.mpr ⟨p, hp, hup⟩⟩
    · rintro ⟨m, hm, hup⟩
      cases m with
      | zero => exact .inl (Option.some.inj hup)
      | succ m =>
        obtain ⟨p, hp, hup⟩ := Option.bind_eq_some_iff.mp hup
        exact .inr ⟨p, hp, ih.mpr ⟨m, Nat.le_of_succ_le_succ hm, hup⟩⟩

/-- Every block below the end of a way up has a node. -/
theorem exists_key_of_lt (h : t.up? n b = some a) (hm : m < n) :
    ∃ c ∈ t.nodes.keys, t.up? m b = some c := by
  obtain ⟨k, rfl⟩ : ∃ k, n = m + (k + 1) := ⟨n - m - 1, by omega⟩
  rw [up?_add] at h
  obtain ⟨c, hc, h⟩ := Option.bind_eq_some_iff.mp h
  obtain ⟨p, hp, -⟩ := Option.bind_eq_some_iff.mp h
  have hnode : c ∈ t.nodes := Std.TreeMap.mem_iff_contains.mpr (contains_of_idom? hp)
  exact ⟨c, Std.TreeMap.mem_keys.mpr hnode, hc⟩

/-- On a shortest way up no block is met twice: what lies between could be left out. -/
theorem up?_ne_of_shortest (h : t.up? n b = some a) (hmin : ∀ k, t.up? k b = some a → n ≤ k)
    {i j : Nat} (hij : i < j) (hj : j ≤ n) : t.up? i b ≠ t.up? j b := by
  intro heq
  have hcut : t.up? (i + (n - j)) b = some a := by
    rw [up?_add, heq, ← up?_add, Nat.add_sub_cancel' hj]
    exact h
  have hle := hmin _ hcut
  omega

theorem le_size_of_shortest (h : t.up? n b = some a)
    (hmin : ∀ k, t.up? k b = some a → n ≤ k) : n ≤ t.size := by
  have hnodup : ((List.range n).map fun i => t.up? i b).Nodup := by
    refine List.Nodup.map_on ?_ List.nodup_range
    intro i hi j hj heq
    rw [List.mem_range] at hi hj
    rcases Nat.lt_trichotomy i j with hij | hij | hij
    · exact absurd heq (up?_ne_of_shortest h hmin hij (Nat.le_of_lt hj))
    · exact hij
    · exact absurd heq.symm (up?_ne_of_shortest h hmin hij (Nat.le_of_lt hi))
  have hsub : (List.range n).map (fun i => t.up? i b) ⊆ t.nodes.keys.map some := by
    intro x hx
    obtain ⟨i, hi, rfl⟩ := List.mem_map.mp hx
    obtain ⟨c, hc, hup⟩ := exists_key_of_lt h (List.mem_range.mp hi)
    exact List.mem_map.mpr ⟨c, hc, hup.symm⟩
  have hlength := (List.subperm_of_subset hnodup hsub).length_le
  rw [List.length_map, List.length_map, List.length_range, Std.TreeMap.length_keys] at hlength
  exact hlength

theorem exists_up?_le_size (h : t.up? n b = some a) : ∃ m, m ≤ t.size ∧ t.up? m b = some a := by
  have hsome : ∃ k, t.up? k b = some a := ⟨n, h⟩
  refine ⟨Nat.find hsome, ?_, Nat.find_spec hsome⟩
  exact le_size_of_shortest (Nat.find_spec hsome) fun k hk => Nat.find_min' hsome hk

theorem dominates_iff : t.dominates a b = true ↔ ∃ n, t.up? n b = some a := by
  rw [dominates, climb_iff]
  constructor
  · rintro ⟨n, -, hup⟩
    exact ⟨n, hup⟩
  · rintro ⟨n, hup⟩
    exact exists_up?_le_size hup

theorem dominates_trans (hab : t.dominates a b = true) (hbc : t.dominates b c = true) :
    t.dominates a c = true := by
  obtain ⟨n, hn⟩ := dominates_iff.mp hab
  obtain ⟨m, hm⟩ := dominates_iff.mp hbc
  exact dominates_iff.mpr ⟨m + n, up?_trans hm hn⟩

theorem Acyclic.dominates_antisymm (h : t.Acyclic) (hab : t.dominates a b = true)
    (hba : t.dominates b a = true) : a = b := by
  obtain ⟨n, hn⟩ := dominates_iff.mp hab
  obtain ⟨m, hm⟩ := dominates_iff.mp hba
  cases n with
  | zero => exact (Option.some.inj hn).symm
  | succ n =>
    have hround : t.up? (n + m + 1) b = some b := by
      rw [Nat.add_right_comm]
      exact up?_trans hn hm
    exact absurd hround (h b (n + m))

/-- Links that always lead to an older block do not run in a circle. -/
theorem acyclic_of_index_lt (h : ∀ c p, t.idom? c = some p → p.index < c.index) : t.Acyclic := by
  have hlt : ∀ n b a, t.up? (n + 1) b = some a → a.index < b.index := by
    intro n
    induction n with
    | zero =>
      intro b a hup
      obtain ⟨p, hp, hup⟩ := Option.bind_eq_some_iff.mp hup
      cases hup
      exact h b _ hp
    | succ n ih =>
      intro b a hup
      obtain ⟨p, hp, hup⟩ := Option.bind_eq_some_iff.mp hup
      exact Nat.lt_trans (ih p a hup) (h b p hp)
  intro b n hup
  exact Nat.lt_irrefl _ (hlt n b b hup)

/-- A block dominates another one exactly if it is some number of steps above it. -/
theorem dominates_exactly_ancestors (t : Tree) :
    (∀ a b, t.dominates a b = true ↔ ∃ n, t.up? n b = some a) ∧
    (∀ a, t.dominates a a = true) ∧
    (∀ a b c, t.dominates a b = true → t.dominates b c = true → t.dominates a c = true) ∧
    (t.Acyclic → ∀ a b, t.dominates a b = true → t.dominates b a = true → a = b) := by
  refine ⟨fun a b => dominates_iff, fun a => ?_, fun a b c => dominates_trans, ?_⟩
  · exact dominates_iff.mpr ⟨0, rfl⟩
  · intro hacyclic a b
    exact hacyclic.dominates_antisymm

/-- A block that leads into a circle is below all of it and above nothing but itself. -/
theorem ancestors_in_circle_and_chain :
    (∃ t, [.insert ⟨1⟩ (some ⟨2⟩), .insert ⟨2⟩ (some ⟨3⟩), .insert ⟨3⟩ (some ⟨4⟩),
        .insert ⟨4⟩ (some ⟨2⟩)].foldl Tree.apply {} = t ∧
      (∃ n, t.up? n ⟨1⟩ = some ⟨4⟩) ∧ (∀ n, t.up? n ⟨3⟩ ≠ some ⟨1⟩) ∧
      (∀ n, t.up? n ⟨9⟩ ≠ some ⟨2⟩) ∧ t.dominates ⟨9⟩ ⟨9⟩ = true ∧
      t.dominates ⟨2⟩ ⟨4⟩ = true ∧ t.dominates ⟨4⟩ ⟨2⟩ = true) ∧
    ∃ t, [.insert ⟨2⟩ (some ⟨0⟩), .insert ⟨3⟩ (some ⟨2⟩)].foldl Tree.apply {} = t ∧
      t.Acyclic ∧ t.dominates ⟨0⟩ ⟨3⟩ = true ∧
      ∀ a b, t.dominates a b = true → t.dominates b a = true → a = b := by
  refine ⟨⟨_, rfl, ?_⟩, ⟨_, rfl, ?_⟩⟩
  · obtain ⟨hiff, hrefl, -⟩ := dominates_exactly_ancestors ([.insert ⟨1⟩ (some ⟨2⟩),
      .insert ⟨2⟩ (some ⟨3⟩), .insert ⟨3⟩ (some ⟨4⟩), .insert ⟨4⟩ (some ⟨2⟩)].foldl Tree.apply {})
    refine ⟨(hiff _ _).mp (by decide +kernel), ?_, ?_, hrefl _, by decide +kernel,
      by decide +kernel⟩
    · intro n hup
      exact absurd ((hiff _ _).mpr ⟨n, hup⟩) (by decide +kernel)
    · intro n hup
      exact absurd ((hiff _ _).mpr ⟨n, hup⟩) (by decide +kernel)
  · have hacyclic : ([.insert ⟨2⟩ (some ⟨0⟩), .insert ⟨3⟩ (some ⟨2⟩)].foldl Tree.apply
        ({} : Tree)).Acyclic := by
      apply acyclic_of_index_lt
      intro c p hp
      simp only [List.foldl_cons, List.foldl_nil, Tree.apply, idom?_insert] at hp
      split at hp
      · next hc =>
        cases hp
        rw [hc]
        decide
      · split at hp
        · next hc =>
          cases hp
          rw [hc]
          decide
        · cases hp
    exact ⟨hacyclic, by decide +kernel, (dominates_exactly_ancestors _).2.2.2 hacyclic⟩

end FlowGraph.Dominance.Tree
