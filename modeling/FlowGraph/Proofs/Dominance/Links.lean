import FlowGraph.Dominance.Tree
import Mathlib.Data.List.Nodup

/-!
# Links of a dominator tree

A tree says twice who is under whom: a node names its immediate dominator, and the node of that one
lists it as a child. Every edit keeps the two in step, also where a block is put under itself, under
one of its descendants or under a block that the tree has not seen before. So the links may run in
circles, but none of them is loose.
-/

namespace FlowGraph.Dominance.Tree

set_option autoImplicit false

variable {t t' : Tree} {b c p q : BlockId} {idom : Option BlockId}

/-- The blocks that `p` immediately dominates; a block without a node dominates none. -/
def childrenOf (t : Tree) (p : BlockId) : List BlockId := ((t.node? p).map Node.children).getD []

theorem contains_eq (t : Tree) (b : BlockId) : t.contains b = (t.node? b).isSome :=
  Std.TreeMap.contains_eq_isSome_getElem?

theorem contains_of_idom? (h : t.idom? c = some p) : t.contains c = true := by
  obtain ⟨n, hn, -⟩ := Option.bind_eq_some_iff.mp h
  rw [contains_eq, hn]
  rfl

theorem childrenOf_of_node? {n : Node} (hn : t.node? p = some n) : t.childrenOf p = n.children := by
  rw [childrenOf, hn]
  rfl

theorem mem_childrenOf_iff : c ∈ t.childrenOf p ↔ ∃ n, t.node? p = some n ∧ c ∈ n.children := by
  unfold childrenOf
  cases t.node? p with
  | none => simp
  | some n => simp

theorem node?_dropChild (t : Tree) (p c q : BlockId) : (t.dropChild p c).node? q =
    if q = p then (t.node? p).map fun n => { n with children := n.children.filter (· ≠ c) }
    else t.node? q := by
  simp only [dropChild, node?, Std.TreeMap.getElem?_modify, Std.LawfulEqCmp.compare_eq_iff_eq,
    eq_comm (a := p)]

theorem node?_setIdom (t : Tree) (b : BlockId) (idom : Option BlockId) (q : BlockId) :
    (t.setIdom b idom).node? q =
      if q = b then some { (t.node? b).getD {} with idom } else t.node? q := by
  simp only [setIdom, node?, Std.TreeMap.getElem?_insert, Std.LawfulEqCmp.compare_eq_iff_eq,
    eq_comm (a := b)]

theorem node?_addChild (t : Tree) (p c q : BlockId) : (t.addChild p c).node? q =
    if q = p then
      some { (t.node? p).getD {} with children := ((t.node? p).getD {}).children ++ [c] }
    else t.node? q := by
  simp only [addChild, node?, Std.TreeMap.getElem?_insert, Std.LawfulEqCmp.compare_eq_iff_eq,
    eq_comm (a := p)]

theorem node?_orphan (t : Tree) (b q : BlockId) : (t.orphan b).node? q =
    if q = b then (t.node? b).map fun n => { n with idom := none } else t.node? q := by
  simp only [orphan, node?, Std.TreeMap.getElem?_modify, Std.LawfulEqCmp.compare_eq_iff_eq,
    eq_comm (a := b)]

theorem idom?_dropChild (t : Tree) (p c q : BlockId) :
    (t.dropChild p c).idom? q = t.idom? q := by
  unfold idom?
  rw [node?_dropChild]
  split
  · next hq => cases hn : t.node? p <;> simp [hq, hn]
  · rfl

theorem childrenOf_dropChild (t : Tree) (p c q : BlockId) : (t.dropChild p c).childrenOf q =
    if q = p then (t.childrenOf p).filter (· ≠ c) else t.childrenOf q := by
  unfold childrenOf
  rw [node?_dropChild]
  split
  · cases t.node? p <;> simp
  · rfl

theorem idom?_setIdom (t : Tree) (b : BlockId) (idom : Option BlockId) (q : BlockId) :
    (t.setIdom b idom).idom? q = if q = b then idom else t.idom? q := by
  unfold idom?
  rw [node?_setIdom]
  split
  · rfl
  · rfl

theorem childrenOf_setIdom (t : Tree) (b : BlockId) (idom : Option BlockId) (q : BlockId) :
    (t.setIdom b idom).childrenOf q = t.childrenOf q := by
  unfold childrenOf
  rw [node?_setIdom]
  split
  · next hq => cases hn : t.node? b <;> simp [hq, hn]
  · rfl

theorem idom?_addChild (t : Tree) (p c q : BlockId) : (t.addChild p c).idom? q = t.idom? q := by
  unfold idom?
  rw [node?_addChild]
  split
  · next hq => cases hn : t.node? p <;> simp [hq, hn]
  · rfl

theorem childrenOf_addChild (t : Tree) (p c q : BlockId) : (t.addChild p c).childrenOf q =
    if q = p then t.childrenOf p ++ [c] else t.childrenOf q := by
  unfold childrenOf
  rw [node?_addChild]
  split
  · cases t.node? p <;> simp
  · rfl

theorem node?_foldl_orphan (blocks : List BlockId) (t : Tree) (q : BlockId) :
    (blocks.foldl orphan t).node? q =
      (t.node? q).map fun n => if q ∈ blocks then { n with idom := none } else n := by
  induction blocks generalizing t with
  | nil => simp
  | cons b blocks ih =>
    rw [List.foldl_cons, ih, node?_orphan]
    by_cases hq : q = b
    · subst hq
      by_cases hmem : q ∈ blocks
      · simp [hmem, Function.comp_def]
      · simp [hmem, Function.comp_def]
    · simp [hq]

theorem idom?_insert (t : Tree) (b : BlockId) (idom : Option BlockId) (q : BlockId) :
    (t.insert b idom).idom? q = if q = b then idom else t.idom? q := by
  unfold insert
  cases t.idom? b with
  | none =>
    cases idom with
    | none => exact idom?_setIdom ..
    | some p => exact (idom?_addChild ..).trans (idom?_setIdom ..)
  | some old =>
    cases idom with
    | none => simp only [idom?_setIdom, idom?_dropChild]
    | some p => simp only [idom?_addChild, idom?_setIdom, idom?_dropChild]

theorem childrenOf_insert (t : Tree) (b : BlockId) (idom : Option BlockId) (q : BlockId) :
    (t.insert b idom).childrenOf q =
      (if t.idom? b = some q then (t.childrenOf q).filter (· ≠ b) else t.childrenOf q) ++
        if idom = some q then [b] else [] := by
  unfold insert
  cases t.idom? b with
  | none =>
    cases idom with
    | none => simp [childrenOf_setIdom]
    | some p =>
      simp only [childrenOf_addChild, childrenOf_setIdom]
      by_cases hq : q = p
      · simp [hq]
      · simp [hq, Ne.symm hq]
  | some old =>
    cases idom with
    | none =>
      simp only [childrenOf_setIdom, childrenOf_dropChild]
      by_cases hold : q = old
      · simp [hold]
      · simp [hold, Ne.symm hold]
    | some p =>
      simp only [childrenOf_addChild, childrenOf_setIdom, childrenOf_dropChild]
      by_cases hold : q = old <;> by_cases hq : q = p <;> grind

theorem erase_of_none (hb : t.node? b = none) : t.erase b = t := by
  rw [erase, hb]

/-- The tree without the node of `b`, but with all that names `b` in other nodes. -/
def withoutNode (t : Tree) (b : BlockId) : Tree := { t with nodes := t.nodes.erase b }

theorem node?_withoutNode (t : Tree) (b q : BlockId) :
    (t.withoutNode b).node? q = if q = b then none else t.node? q := by
  simp only [withoutNode, node?, Std.TreeMap.getElem?_erase, Std.LawfulEqCmp.compare_eq_iff_eq,
    eq_comm (a := b)]

theorem erase_of_some {n : Node} (hb : t.node? b = some n) : t.erase b =
    n.children.foldl orphan (match n.idom with
      | some p => (t.withoutNode b).dropChild p b
      | none => t.withoutNode b) := by
  rw [erase, hb]
  rfl

theorem node?_erase (t : Tree) (b q : BlockId) :
    (t.erase b).node? q = if q = b then none else (t.node? q).map fun n =>
      { idom := if q ∈ t.childrenOf b then none else n.idom
        children := if t.idom? b = some q then n.children.filter (· ≠ b) else n.children } := by
  cases hb : t.node? b with
  | none =>
    rw [erase_of_none hb]
    have hchildren : t.childrenOf b = [] := by simp [childrenOf, hb]
    have hidom : t.idom? b = none := by simp [idom?, hb]
    split
    · next hq => rw [hq, hb]
    · simp [hchildren, hidom]
  | some n =>
    have hidom : t.idom? b = n.idom := by simp [idom?, hb]
    rw [erase_of_some hb, childrenOf_of_node? hb, hidom, node?_foldl_orphan]
    by_cases hq : q = b
    · rw [if_pos hq]
      cases n.idom with
      | none => simp [node?_withoutNode, hq]
      | some p => by_cases hp : b = p <;> simp [node?_dropChild, node?_withoutNode, hq, hp]
    · rw [if_neg hq]
      cases n.idom with
      | none =>
        rw [node?_withoutNode, if_neg hq]
        by_cases hmem : q ∈ n.children <;> simp [hmem]
      | some p =>
        rw [node?_dropChild, node?_withoutNode, node?_withoutNode, if_neg hq]
        by_cases hp : q = p
        · subst hp
          by_cases hmem : q ∈ n.children <;> simp [hmem, hq, Function.comp_def]
        · by_cases hmem : q ∈ n.children <;> simp [hmem, hp, Ne.symm hp]

theorem contains_erase (t : Tree) (b q : BlockId) :
    (t.erase b).contains q = if q = b then false else t.contains q := by
  rw [contains_eq, contains_eq, node?_erase]
  split
  · rfl
  · exact Option.isSome_map

theorem idom?_erase (t : Tree) (b q : BlockId) : (t.erase b).idom? q =
    if q = b ∨ q ∈ t.childrenOf b then none else t.idom? q := by
  unfold idom?
  rw [node?_erase]
  by_cases hq : q = b
  · simp [hq]
  · by_cases hmem : q ∈ t.childrenOf b <;> cases t.node? q <;> simp [hq, hmem]

theorem childrenOf_erase (t : Tree) (b q : BlockId) : (t.erase b).childrenOf q =
    if q = b then []
    else if t.idom? b = some q then (t.childrenOf q).filter (· ≠ b) else t.childrenOf q := by
  rw [childrenOf, node?_erase]
  by_cases hq : q = b
  · simp [hq]
  · cases hn : t.node? q with
    | none => simp [childrenOf, hn]
    | some n => simp [childrenOf, hn, hq]

/-- A block names its immediate dominator exactly if it is listed there, once, and has a node. -/
structure Linked (t : Tree) : Prop where
  idom_iff (c p : BlockId) : t.idom? c = some p ↔ ∃ n, t.node? p = some n ∧ c ∈ n.children
  once (p : BlockId) (n : Node) (c : BlockId) :
    t.node? p = some n → c ∈ n.children → n.children.count c = 1 ∧ t.contains c = true

/-- The same said of the lists alone. -/
theorem linked_iff : t.Linked ↔
    (∀ c p, c ∈ t.childrenOf p ↔ t.idom? c = some p) ∧ ∀ p, (t.childrenOf p).Nodup := by
  constructor
  · intro h
    refine ⟨fun c p => mem_childrenOf_iff.trans (h.idom_iff c p).symm, fun p => ?_⟩
    rw [List.nodup_iff_count_le_one]
    intro c
    unfold childrenOf
    cases hn : t.node? p with
    | none => simp
    | some n =>
      by_cases hc : c ∈ n.children
      · exact Nat.le_of_eq (h.once p n c hn hc).1
      · simp [List.count_eq_zero_of_not_mem hc]
  · rintro ⟨hmem, hnodup⟩
    refine ⟨fun c p => (hmem c p).symm.trans mem_childrenOf_iff, fun p n c hn hc => ?_⟩
    have hup : t.idom? c = some p := (hmem c p).mp (mem_childrenOf_iff.mpr ⟨n, hn, hc⟩)
    have hlist := hnodup p
    rw [childrenOf_of_node? hn] at hlist
    exact ⟨List.count_eq_one_of_mem hlist hc, contains_of_idom? hup⟩

namespace Linked

theorem mem_childrenOf (h : t.Linked) : c ∈ t.childrenOf p ↔ t.idom? c = some p :=
  (linked_iff.mp h).1 c p

theorem nodup (h : t.Linked) (p : BlockId) : (t.childrenOf p).Nodup :=
  (linked_iff.mp h).2 p

theorem of_nodes_eq (h : t.Linked) (hn : t'.nodes = t.nodes) : t'.Linked := by
  obtain ⟨valid, nodes⟩ := t'
  subst hn
  exact ⟨h.idom_iff, h.once⟩

theorem empty : ({} : Tree).Linked := by
  have hnone (p : BlockId) : ({} : Tree).node? p = none := Std.TreeMap.getElem?_emptyc
  exact ⟨fun c p => by simp [idom?, hnone], fun p n c hn _ => by simp [hnone] at hn⟩

/-- A block stands in no list but that of its immediate dominator, so it may be struck from any. -/
theorem strike (h : t.Linked) (b p : BlockId) :
    (if t.idom? b = some p then (t.childrenOf p).filter (· ≠ b) else t.childrenOf p) =
      (t.childrenOf p).filter (· ≠ b) := by
  split
  · rfl
  · next hup =>
    symm
    rw [List.filter_eq_self]
    intro c hc
    have hne : c ≠ b := by
      rintro rfl
      exact hup (h.mem_childrenOf.mp hc)
    simpa using hne

theorem insert (h : t.Linked) (b : BlockId) (idom : Option BlockId) :
    (t.insert b idom).Linked := by
  refine linked_iff.mpr ⟨fun c p => ?_, fun p => ?_⟩
  · rw [childrenOf_insert, h.strike, idom?_insert, List.mem_append, List.mem_filter,
      h.mem_childrenOf]
    by_cases hc : c = b
    · by_cases hp : idom = some p <;> simp [hc, hp]
    · by_cases hp : idom = some p <;> simp [hc, hp]
  · rw [childrenOf_insert, h.strike, List.nodup_append']
    refine ⟨(h.nodup p).filter _, by split <;> simp, ?_⟩
    intro c hc hb
    have hne : c ≠ b := by simpa using (List.mem_filter.mp hc).2
    split at hb
    · exact hne (List.mem_singleton.mp hb)
    · exact List.not_mem_nil hb

theorem childrenOf_erase_of_ne (h : t.Linked) (hp : p ≠ b) :
    (t.erase b).childrenOf p = (t.childrenOf p).filter (· ≠ b) := by
  rw [childrenOf_erase, if_neg hp, h.strike]

theorem idom?_erase_eq (h : t.Linked) (b c : BlockId) :
    (t.erase b).idom? c = if c = b ∨ t.idom? c = some b then none else t.idom? c := by
  rw [idom?_erase]
  simp only [h.mem_childrenOf]

theorem erase (h : t.Linked) (b : BlockId) : (t.erase b).Linked := by
  refine linked_iff.mpr ⟨fun c p => ?_, fun p => ?_⟩
  · rw [h.idom?_erase_eq]
    by_cases hp : p = b
    · subst hp
      rw [childrenOf_erase, if_pos rfl]
      simp only [List.not_mem_nil, false_iff]
      split
      · exact nofun
      · next hc => exact fun hup => hc (.inr hup)
    · rw [h.childrenOf_erase_of_ne hp, List.mem_filter, h.mem_childrenOf]
      by_cases hc : c = b
      · simp [hc]
      · by_cases hup : t.idom? c = some b
        · simp [hc, hup, Ne.symm hp]
        · simp [hc, hup]
  · by_cases hp : p = b
    · rw [childrenOf_erase, if_pos hp]
      exact List.nodup_nil
    · rw [h.childrenOf_erase_of_ne hp]
      exact (h.nodup p).filter _

theorem apply (h : t.Linked) (e : Edit) : (t.apply e).Linked := by
  cases e with
  | insert b idom => exact h.insert b idom
  | erase b => exact h.erase b
  | markValid => exact h.of_nodes_eq rfl
  | invalidate => exact h.of_nodes_eq rfl
  | clear => exact empty

theorem foldl_apply (edits : List Edit) (h : t.Linked) : (edits.foldl Tree.apply t).Linked := by
  induction edits generalizing t with
  | nil => exact h
  | cons e edits ih => exact ih (h.apply e)

end Linked

/-- What the tree `t` becomes when `b` leaves it: nothing names `b` any more, the blocks right below
it are roots, and all else stands as it did. -/
structure Departed (t : Tree) (b : BlockId) (t' : Tree) : Prop where
  gone : t'.contains b = false
  unlisted (p : BlockId) (n : Node) : t'.node? p = some n → b ∉ n.children
  unnamed (c : BlockId) : t'.idom? c ≠ some b
  orphaned (c : BlockId) : c ≠ b → t.idom? c = some b → t'.contains c = true ∧ t'.idom? c = none
  stays (c : BlockId) : c ≠ b → t'.contains c = t.contains c
  kept (c : BlockId) : c ≠ b → t.idom? c ≠ some b → t'.idom? c = t.idom? c
  order (p : BlockId) : p ≠ b → t'.childrenOf p = (t.childrenOf p).filter (· ≠ b)

theorem Departed.of_nodes_eq {t₁ t₂ : Tree} (h : t.Departed b t') (h₁ : t₁.nodes = t.nodes)
    (h₂ : t₂.nodes = t'.nodes) : t₁.Departed b t₂ := by
  obtain ⟨valid₁, nodes₁⟩ := t₁
  obtain ⟨valid₂, nodes₂⟩ := t₂
  subst h₁ h₂
  exact ⟨h.gone, h.unlisted, h.unnamed, h.orphaned, h.stays, h.kept, h.order⟩

theorem Linked.departed (h : t.Linked) (b : BlockId) : t.Departed b (t.erase b) where
  gone := by rw [contains_erase, if_pos rfl]
  unlisted p n hn hb := by
    have hup := ((h.erase b).idom_iff b p).mpr ⟨n, hn, hb⟩
    rw [idom?_erase, if_pos (.inl rfl)] at hup
    cases hup
  unnamed c hup := by
    obtain ⟨n, hn, -⟩ := ((h.erase b).idom_iff c b).mp hup
    rw [node?_erase, if_pos rfl] at hn
    cases hn
  orphaned c hc hup := by
    rw [contains_erase, if_neg hc, h.idom?_erase_eq, if_pos (.inr hup)]
    exact ⟨contains_of_idom? hup, rfl⟩
  stays c hc := by rw [contains_erase, if_neg hc]
  kept c hc hup := by rw [h.idom?_erase_eq, if_neg (not_or.mpr ⟨hc, hup⟩)]
  order p hp := h.childrenOf_erase_of_ne hp

end FlowGraph.Dominance.Tree
