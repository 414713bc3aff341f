import FlowGraph.Function.Consistency
import FlowGraph.Proofs.Graph.Ownership

/-!
# Accounting for edges

Three things put an edge into the one list of a block: its fall-through, its listed branches, and
the caller. The first two are driven: they move with what drives them, so between two blocks the
driven edges and the listed edges come and go together. `Balanced` takes any relation of the two
numbers that bears this through the operations. `Accounted` is the strictest such relation: every
edge is either driven or among the raw edges that a caller is on record for.
-/

namespace FlowGraph.Function

set_option autoImplicit false

variable {f f' : Function} {a b c x y : BlockId} {i j : InsnId} {insn insn' : Instruction}
  {old new next target : Option BlockId}

def branchCount (f : Function) (b s : BlockId) : Nat :=
  (f.instructionsOf b).countP (·.operation.targets s)

/-- How many edges from `b` to `s` the fall-through and the branches of `b` stand for. -/
def drivenCount (f : Function) (b s : BlockId) : Nat :=
  (if f.fallThroughOf b = some s then 1 else 0) + f.branchCount b s

abbrev RawEdges := BlockId → BlockId → Nat

/-- What is known of the number `d` of driven edges and the number `e` of all edges from one block
to another. -/
abbrev EdgeRule := BlockId → BlockId → (d e : Nat) → Prop

/-- The rule bears it that a driven edge comes or goes. -/
structure Steady (R : EdgeRule) : Prop where
  gain : ∀ b s d e, R b s d e → R b s (d + 1) (e + 1)
  lose : ∀ b s d e, R b s (d + 1) e → R b s d (e - 1)

/-- The rule grants an edge for every driven one. -/
def Backs (R : EdgeRule) : Prop := ∀ b s d e, R b s d e → d ≤ e

/-- A well-kept function whose edges follow the rule. -/
structure Balanced (f : Function) (R : EdgeRule) : Prop where
  symmetric : f.Symmetric
  owned : f.Owned
  numbered : f.Numbered
  rule : ∀ b s, R b s (f.drivenCount b s) (f.edgeCount b s)

variable {R : EdgeRule} {raw : RawEdges}

/-- A well-kept function in which `raw` explains every edge that is not driven. -/
structure Accounted (f : Function) (raw : RawEdges) : Prop where
  symmetric : f.Symmetric
  owned : f.Owned
  numbered : f.Numbered
  balance : ∀ b s, f.edgeCount b s = f.drivenCount b s + raw b s

/-- Every edge is driven or raw. -/
def owed (raw : RawEdges) : EdgeRule := fun b s d e => e = d + raw b s

theorem steady_owed (raw : RawEdges) : Steady (owed raw) := by
  refine ⟨?_, ?_⟩
  · intro b s d e h
    unfold owed at h ⊢
    omega
  · intro b s d e h
    unfold owed at h ⊢
    omega

theorem backs_owed (raw : RawEdges) : Backs (owed raw) := by
  intro b s d e h
  unfold owed at h
  omega

theorem accounted_iff : Accounted f raw ↔ Balanced f (owed raw) := by
  constructor
  · intro h
    exact ⟨h.symmetric, h.owned, h.numbered, h.balance⟩
  · intro h
    exact ⟨h.symmetric, h.owned, h.numbered, h.rule⟩

def leadsTo (f : Function) (s : BlockId) (i : InsnId) : Bool :=
  ((f.instruction? i).map (·.operation.targets s)).getD false

theorem branchCount_eq (f : Function) (b s : BlockId) :
    f.branchCount b s = (f.listing b).countP (f.leadsTo s) := by
  rw [branchCount, instructionsOf_eq, List.countP_filterMap]
  rfl

theorem leadsTo_iff (h : f.instruction? i = some insn) (s : BlockId) :
    f.leadsTo s i = true ↔ insn.target? = some s := by
  simp [leadsTo, h, Encoding.targets, Instruction.target?]

theorem branchCount_congr (hl : f'.listing b = f.listing b)
    (hi : ∀ i ∈ f.listing b, f'.leadsTo x i = f.leadsTo x i) :
    f'.branchCount b x = f.branchCount b x := by
  rw [branchCount_eq, branchCount_eq, hl]
  exact List.countP_congr fun i hmem => by rw [hi i hmem]

theorem branchCount_of_perm {is : List InsnId} (hl : (f.listing b).Perm (i :: is))
    (hi : f.instruction? i = some insn) (s : BlockId) :
    f.branchCount b s = is.countP (f.leadsTo s) + if insn.target? = some s then 1 else 0 := by
  rw [branchCount_eq, hl.countP_eq, List.countP_cons]
  simp only [leadsTo_iff hi]

/-- If the driven edges and the listed edges change alike, the rule still holds. -/
theorem rule_of_move (hR : Steady R) (b : BlockId) (old new : Option BlockId)
    (h : ∀ x y, R x y (f.drivenCount x y) (f.edgeCount x y))
    (hedge : ∀ x y, f'.edgeCount x y =
      (f.edgeCount x y - if x = b ∧ old = some y then 1 else 0) +
        if x = b ∧ new = some y then 1 else 0)
    (hold : ∀ s, old = some s → 0 < f.drivenCount b s)
    (hdriven : ∀ x y, f'.drivenCount x y + (if x = b ∧ old = some y then 1 else 0) =
      f.drivenCount x y + if x = b ∧ new = some y then 1 else 0) (x y : BlockId) :
    R x y (f'.drivenCount x y) (f'.edgeCount x y) := by
  have hxy := h x y
  have hd := hdriven x y
  rw [hedge]
  have hgain : ∀ d e, R x y d e →
      R x y (d + if x = b ∧ new = some y then 1 else 0)
        (e + if x = b ∧ new = some y then 1 else 0) := by
    intro d e hde
    split
    · exact hR.gain x y d e hde
    · exact hde
  by_cases ho : x = b ∧ old = some y
  · rw [if_pos ho] at hd ⊢
    obtain ⟨d, hpos⟩ : ∃ d, f.drivenCount x y = d + 1 :=
      Nat.exists_eq_add_one.mpr (ho.1 ▸ hold y ho.2)
    rw [hpos] at hxy hd
    have hd' : f'.drivenCount x y = d + if x = b ∧ new = some y then 1 else 0 := by omega
    rw [hd']
    exact hgain d _ (hR.lose x y d _ hxy)
  · rw [if_neg ho] at hd ⊢
    rw [Nat.add_zero] at hd
    rw [hd]
    exact hgain _ _ hxy

theorem drivenCount_sameBodies (h : SameBodies f f') (b s : BlockId) :
    f'.drivenCount b s = f.drivenCount b s := by
  simp only [drivenCount, branchCount, h.fallThrough, h.instructionsOf]

theorem drivenCount_pos (hi : i ∈ f.listing b) (h : f.instruction? i = some insn)
    (ht : insn.target? = some x) : 0 < f.drivenCount b x := by
  have hpos : 0 < f.branchCount b x := by
    rw [branchCount_eq, List.countP_pos_iff]
    exact ⟨i, hi, (leadsTo_iff h x).mpr ht⟩
  unfold drivenCount
  omega

theorem drivenCount_pos_of_fallThrough (h : f.fallThroughOf b = some x) :
    0 < f.drivenCount b x := by
  rw [drivenCount, if_pos h]
  omega

theorem leadsTo_relist {g : List InsnId → List InsnId} (hi : f.instruction? i = some insn)
    (home : Option BlockId) (y : BlockId) :
    (f.relist b g i { insn with block := home }).leadsTo y = f.leadsTo y := by
  funext j
  simp only [leadsTo, instruction?_relist (hi ▸ rfl : (f.instruction? i).isSome)]
  split
  · next hj => simp [hj, hi]
  · rfl

theorem drivenCount_relist_erase (ho : f.Owned) (hi : f.instruction? i = some insn)
    (hb : insn.block = some b) (home : Option BlockId) (x y : BlockId) :
    (f.relist b (·.erase i) i { insn with block := home }).drivenCount x y +
      (if x = b ∧ insn.target? = some y then 1 else 0) = f.drivenCount x y := by
  have hmem := ho.mem_listing hi hb
  have hlist : ∀ c, (f.relist b (·.erase i) i { insn with block := home }).listing c =
      if c = b then (f.listing b).erase i else f.listing c :=
    listing_relist (isLive_of_mem_listing hmem)
  have hleads := leadsTo_relist (b := b) (g := (·.erase i)) hi home y
  simp only [drivenCount, fallThroughOf_relist]
  by_cases hx : x = b
  · subst hx
    rw [branchCount_of_perm (List.perm_cons_erase hmem) hi, branchCount_eq, hlist, if_pos rfl,
      hleads]
    simp only [true_and]
    omega
  · rw [branchCount_congr ((hlist x).trans (if_neg hx)) fun _ _ => by rw [hleads]]
    simp [hx]

theorem drivenCount_relist_insert (hi : f.instruction? i = some insn) (hb : f.isLive b = true)
    {is : List InsnId} (his : is.Perm (i :: f.listing b)) (home : Option BlockId)
    (x y : BlockId) :
    (f.relist b (fun _ => is) i { insn with block := home }).drivenCount x y =
      f.drivenCount x y + if x = b ∧ insn.target? = some y then 1 else 0 := by
  have hlist : ∀ c, (f.relist b (fun _ => is) i { insn with block := home }).listing c =
      if c = b then is else f.listing c := listing_relist hb
  have hleads := leadsTo_relist (b := b) (g := fun _ => is) hi home y
  have hi' : (f.relist b (fun _ => is) i { insn with block := home }).instruction? i =
      some { insn with block := home } := by
    rw [instruction?_relist (hi ▸ rfl), if_pos rfl]
  simp only [drivenCount, fallThroughOf_relist]
  by_cases hx : x = b
  · subst hx
    have hperm : ((f.relist x (fun _ => is) i { insn with block := home }).listing x).Perm
        (i :: f.listing x) := by
      rw [hlist, if_pos rfl]
      exact his
    have htarget : ({ insn with block := home } : Instruction).target? = insn.target? := rfl
    rw [branchCount_of_perm hperm hi', branchCount_eq, hleads, htarget]
    simp only [true_and]
    omega
  · rw [branchCount_congr ((hlist x).trans (if_neg hx)) fun _ _ => by rw [hleads]]
    simp [hx]

theorem drivenCount_setInstruction (ho : f.Owned) (hi : f.instruction? i = some insn)
    (hb : insn.block = some b) (x y : BlockId) :
    (f.setInstruction i insn').drivenCount x y +
        (if x = b ∧ insn.target? = some y then 1 else 0) =
      f.drivenCount x y + if x = b ∧ insn'.target? = some y then 1 else 0 := by
  have hmem := ho.mem_listing hi hb
  have hsome : (f.instruction? i).isSome := hi ▸ rfl
  have hleads : ∀ j, j ≠ i → (f.setInstruction i insn').leadsTo y j = f.leadsTo y j := by
    intro j hj
    simp only [leadsTo, instruction?_setInstruction hsome, if_neg hj]
  change (if f.fallThroughOf x = some y then 1 else 0) + _ + _ = _
  by_cases hx : x = b
  · subst hx
    have hi' : (f.setInstruction i insn').instruction? i = some insn' := by
      rw [instruction?_setInstruction hsome, if_pos rfl]
    have hrest : ((f.listing x).erase i).countP ((f.setInstruction i insn').leadsTo y) =
        ((f.listing x).erase i).countP (f.leadsTo y) := by
      refine List.countP_congr fun j hj => ?_
      rw [hleads j fun h => (ho.nodup x).not_mem_erase (h ▸ hj)]
    have hperm : ((f.setInstruction i insn').listing x).Perm (i :: (f.listing x).erase i) :=
      List.perm_cons_erase hmem
    rw [branchCount_of_perm hperm hi', hrest, drivenCount,
      branchCount_of_perm (List.perm_cons_erase hmem) hi]
    simp only [true_and]
    omega
  · have hnot : i ∉ f.listing x := ho.notMem_listing hi (by simp [hb, Ne.symm hx])
    have hsame : (f.setInstruction i insn').branchCount x y = f.branchCount x y :=
      branchCount_congr rfl fun j hj => hleads j fun h => hnot (h ▸ hj)
    rw [hsame, drivenCount]
    simp [hx]

/-- An edge moves along with what drives it, in a function `f₁` that has the edges of `f`. -/
theorem Balanced.moveEdge {f₁ : Function} (h : Balanced f R) (hR : Steady R)
    (hblocks : SameBlocks f f₁) (hs : ∀ c, f₁.successorsOf c = f.successorsOf c)
    (hp : ∀ c, f₁.predecessorsOf c = f.predecessorsOf c) (howned : f₁.Owned)
    (hnew : ∀ t, new = some t → f.isLive b = true ∧ f.isLive t = true)
    (hold : ∀ s, old = some s → 0 < f.drivenCount b s)
    (hdriven : ∀ x y, f₁.drivenCount x y + (if x = b ∧ old = some y then 1 else 0) =
      f.drivenCount x y + if x = b ∧ new = some y then 1 else 0) :
    Balanced (f₁.moveEdge b old new) R := by
  have hsame := SameBodies.moveEdge f₁ b old new
  have hnew₁ : ∀ t, new = some t → f₁.isLive b = true ∧ f₁.isLive t = true := by
    intro t ht
    exact ⟨(hblocks.live b).trans (hnew t ht).1, (hblocks.live t).trans (hnew t ht).2⟩
  refine ⟨(h.symmetric.congr hs hp).moveEdge hnew₁, howned.sameBodies hsame,
    h.numbered.sameBlocks (hblocks.trans hsame.toSameBlocks), ?_⟩
  refine rule_of_move hR b old new h.rule ?_ hold ?_
  · intro x y
    rw [edgeCount_moveEdge hnew₁, edgeCount, hs, edgeCount]
  · intro x y
    rw [drivenCount_sameBodies hsame, hdriven]

/-- The function `f'` has the blocks of `f`, with these fall-throughs, lists and instructions. -/
structure Becomes (f f' : Function) (falls : BlockId → Option BlockId)
    (lists : BlockId → List InsnId) (insns : InsnId → Option Instruction) : Prop
    extends SameBlocks f f' where
  fallThrough : ∀ b, f'.fallThroughOf b = falls b
  listing : ∀ b, f'.listing b = lists b
  instruction : ∀ i, f'.instruction? i = insns i

/-- An instruction leaves its list and takes its edge along. -/
theorem Balanced.detach (h : Balanced f R) (hR : Steady R) (hd : f.detach i = .ok f') :
    ∃ insn, f.instruction? i = some insn ∧ Balanced f' R ∧
      Becomes f f' f.fallThroughOf (fun b => (f.listing b).erase i) fun j =>
        if j = i then some { insn with block := none } else f.instruction? j := by
  obtain ⟨insn, hi, ⟨hn, rfl⟩ | ⟨b, hb, hlive, rfl⟩⟩ := detach_ok hd
  · refine ⟨insn, hi, h, .refl _, fun _ => rfl, ?_, ?_⟩
    · intro b
      have hnot : i ∉ f'.listing b := h.owned.notMem_listing hi (by simp [hn])
      exact (List.erase_of_not_mem hnot).symm
    · intro j
      split
      · next hj =>
        subst hj
        rw [hi, ← hn]
      · rfl
  · have hsame := SameBodies.moveEdge (f.relist b (·.erase i) i { insn with block := none }) b
      insn.target? none
    refine ⟨insn, hi, ?_, SameBlocks.relist.trans hsame.toSameBlocks, ?_, ?_, ?_⟩
    · refine h.moveEdge hR SameBlocks.relist successorsOf_relist predecessorsOf_relist
        (h.owned.relist_erase hi hb rfl) (by simp) ?_ ?_
      · intro s hs
        exact drivenCount_pos (h.owned.mem_listing hi hb) hi hs
      · intro x y
        rw [drivenCount_relist_erase h.owned hi hb none]
        simp
    · intro c
      rw [hsame.fallThrough, fallThroughOf_relist]
    · intro c
      rw [hsame.listing, listing_relist hlive]
      split
      · next hc => rw [hc]
      · next hc =>
        have hnot : i ∉ f.listing c := h.owned.notMem_listing hi (by simp [hb, Ne.symm hc])
        exact (List.erase_of_not_mem hnot).symm
    · intro j
      rw [hsame.instruction?, instruction?_relist (hi ▸ rfl)]

/-- An instruction enters a list and brings its edge along. -/
theorem Balanced.place (h : Balanced f R) (hR : Steady R) {position : Position}
    (hp : f.place i b position = .ok f') :
    ∃ insn is f₁, f.instruction? i = some insn ∧ f.detach i = .ok f₁ ∧
      f₁.insertAt i ((f.listing b).erase i) position = .ok is ∧ Balanced f' R ∧
      Becomes f f' f.fallThroughOf (fun c => if c = b then is else (f.listing c).erase i) fun j =>
        if j = i then some { insn with block := some b } else f.instruction? j := by
  obtain ⟨f₁, insn₁, is, h₁, hlive, hi₁, his, htarget, rfl⟩ := place_ok hp
  obtain ⟨insn, hi, hacc, hbec⟩ := h.detach hR h₁
  have hinsn : insn₁ = { insn with block := none } := by
    have := hbec.instruction i
    rw [hi₁, if_pos rfl] at this
    exact Option.some.inj this
  subst hinsn
  rw [hbec.listing] at his
  have hperm := insertAt_ok his
  rw [← hbec.listing b] at hperm
  have hsame := SameBodies.moveEdge (f₁.relist b (fun _ => is) i { insn with block := some b }) b
    none insn.target?
  refine ⟨insn, is, f₁, hi, h₁, his, ?_, ?_, ?_, ?_, ?_⟩
  · refine hacc.moveEdge hR SameBlocks.relist successorsOf_relist predecessorsOf_relist
      (hacc.owned.relist_insert hi₁ rfl hlive hperm rfl) (fun t ht => ⟨hlive, htarget t ht⟩)
      (by simp) ?_
    intro x y
    simp only [reduceCtorEq, and_false, if_false, Nat.add_zero]
    exact drivenCount_relist_insert hi₁ hlive hperm (some b) x y
  · exact hbec.toSameBlocks.trans (SameBlocks.relist.trans hsame.toSameBlocks)
  · intro c
    exact (hsame.fallThrough c).trans ((fallThroughOf_relist c).trans (hbec.fallThrough c))
  · intro c
    refine (hsame.listing c).trans ((listing_relist hlive c).trans ?_)
    rw [hbec.listing]
  · intro j
    refine (hsame.instruction? j).trans ((instruction?_relist (hi₁ ▸ rfl) j).trans ?_)
    split
    · rfl
    · next hj => rw [hbec.instruction, if_neg hj]

theorem fallThroughOf_setFall (hb : f.isLive b = true) (c : BlockId) :
    (f.modifyBlock b fun x => { x with fallThrough := target }).fallThroughOf c =
      if c = b then target else f.fallThroughOf c := by
  obtain ⟨block, hx⟩ := isLive_iff.mp hb
  simp only [fallThroughOf, block?_modifyBlock]
  split
  · simp [hx]
  · rfl

theorem Balanced.setFallThrough (h : Balanced f R) (hR : Steady R)
    (hs : f.setFallThrough b target = .ok f') :
    Balanced f' R ∧ Becomes f f' (fun c => if c = b then target else f.fallThroughOf c) f.listing
      f.instruction? := by
  obtain ⟨hb, ⟨heq, rfl⟩ | ⟨hne, htarget, rfl⟩⟩ := setFallThrough_ok hs
  · refine ⟨h, .refl _, ?_, fun _ => rfl, fun _ => rfl⟩
    intro c
    split
    · next hc => rw [hc, heq]
    · rfl
  · have hsame := SameBodies.moveEdge f b (f.fallThroughOf b) target
    have hnew : ∀ t, target = some t → f.isLive b = true ∧ f.isLive t = true :=
      fun t ht => ⟨hb, htarget t ht⟩
    have hblocks : SameBlocks f ((f.moveEdge b (f.fallThroughOf b) target).modifyBlock b
        fun x => { x with fallThrough := target }) :=
      hsame.toSameBlocks.trans (.modifyBlock _ b (by simp))
    have hfall : ∀ c, ((f.moveEdge b (f.fallThroughOf b) target).modifyBlock b
        fun x => { x with fallThrough := target }).fallThroughOf c =
        if c = b then target else f.fallThroughOf c := by
      intro c
      rw [fallThroughOf_setFall ((hsame.live b).trans hb), hsame.fallThrough]
    have hlist : ∀ c, ((f.moveEdge b (f.fallThroughOf b) target).modifyBlock b
        fun x => { x with fallThrough := target }).listing c = f.listing c := by
      intro c
      rw [listing_modifyBlock _ _ _ (by simp), hsame.listing]
    have hinsn : ∀ i, ((f.moveEdge b (f.fallThroughOf b) target).modifyBlock b
        fun x => { x with fallThrough := target }).instruction? i = f.instruction? i := by
      intro i
      rw [instruction?_modifyBlock, hsame.instruction?]
    refine ⟨⟨?_, ?_, ?_, ?_⟩, hblocks, hfall, hlist, hinsn⟩
    · exact (h.symmetric.moveEdge hnew).congr (successorsOf_modifyBlock _ _ _ (by simp))
        (predecessorsOf_modifyBlock _ _ _ (by simp))
    · exact h.owned.congr hlist fun i => by simp only [homeOf, hinsn]
    · exact h.numbered.sameBlocks hblocks
    · refine rule_of_move hR b (f.fallThroughOf b) target h.rule ?_ ?_ ?_
      · intro x y
        rw [← edgeCount_moveEdge hnew, edgeCount, successorsOf_modifyBlock _ _ _ (by simp),
          edgeCount]
      · intro s hs
        rw [drivenCount, if_pos hs]
        omega
      · intro x y
        have hbranch : ((f.moveEdge b (f.fallThroughOf b) target).modifyBlock b
            fun x => { x with fallThrough := target }).branchCount x y = f.branchCount x y :=
          branchCount_congr (hlist x) fun i _ => by simp only [leadsTo, hinsn]
        rw [drivenCount, drivenCount, hbranch, hfall]
        by_cases hx : x = b
        · simp only [hx, if_true, true_and]
          omega
        · simp [hx]

theorem Balanced.setInstruction (h : Balanced f R) (hR : Steady R)
    (hi : f.instruction? i = some insn)
    (hb : insn.block = some b) (hb' : insn'.block = some b)
    (hlive : ∀ t, insn'.target? = some t → f.isLive t = true) :
    Balanced ((f.setInstruction i insn').moveEdge b insn.target? insn'.target?) R := by
  have hmem := h.owned.mem_listing hi hb
  refine h.moveEdge hR (SameBlocks.setInstruction f i insn') (fun _ => rfl) (fun _ => rfl)
    (h.owned.setInstruction hi (hb'.trans hb.symm)) ?_ ?_ ?_
  · intro t ht
    exact ⟨isLive_of_mem_listing hmem, hlive t ht⟩
  · intro s hs
    exact drivenCount_pos hmem hi hs
  · intro x y
    exact drivenCount_setInstruction h.owned hi hb x y

theorem Balanced.setDetached (h : Balanced f R) (hi : f.instruction? i = some insn)
    (hn : insn.block = none) (hn' : insn'.block = none) :
    Balanced (f.setInstruction i insn') R := by
  refine ⟨h.symmetric.congr (fun _ => rfl) fun _ => rfl,
    h.owned.setInstruction hi (hn'.trans hn.symm),
    h.numbered.sameBlocks (.setInstruction f i insn'), ?_⟩
  intro x y
  have hbranch : (f.setInstruction i insn').branchCount x y = f.branchCount x y := by
    refine branchCount_congr rfl fun j hj => ?_
    have hji : j ≠ i := by
      rintro rfl
      exact h.owned.notMem_listing hi (by simp [hn]) hj
    have hsome : (f.instruction? i).isSome := hi ▸ rfl
    simp only [leadsTo, instruction?_setInstruction hsome, if_neg hji]
  have hxy := h.rule x y
  rw [drivenCount, ← hbranch] at hxy
  exact hxy

theorem Balanced.redirectBranch (h : Balanced f R) (hR : Steady R) {r : Bool × Function}
    (hr : f.redirectBranch i a next = .ok r) :
    Balanced r.2 R ∧ Becomes f r.2 f.fallThroughOf f.listing fun j =>
      if j = i then (f.instruction? j).map (·.redirect a next) else f.instruction? j := by
  obtain ⟨insn, hi, ⟨hne, rfl⟩ | ⟨htarget, -, hcase⟩⟩ := redirectBranch_ok hr
  · refine ⟨h, .refl _, fun _ => rfl, fun _ => rfl, ?_⟩
    intro j
    split
    · next hj => rw [hj, hi, Option.map_some, Instruction.redirect_of_ne hne]
    · rfl
  · have hinsn : ∀ j, (f.setInstruction i (insn.redirect a next)).instruction? j =
        if j = i then (f.instruction? j).map (·.redirect a next) else f.instruction? j := by
      intro j
      rw [instruction?_setInstruction (hi ▸ rfl : (f.instruction? i).isSome)]
      split
      · next hj => rw [hj, hi, Option.map_some]
      · rfl
    have hblocks := SameBlocks.setInstruction f i (insn.redirect a next)
    obtain ⟨hn, hr⟩ | ⟨b, hb, hnew, hr⟩ := hcase
    · rw [hr]
      have hacc : Balanced (f.setInstruction i (insn.redirect a next)) R :=
        h.setDetached hi hn ((Instruction.block_redirect ..).trans hn)
      exact ⟨hacc, hblocks, fun _ => rfl, fun _ => rfl, hinsn⟩
    · rw [hr]
      have hnext : (insn.redirect a next).target? = next := by
        rw [Instruction.target?_redirect, if_pos htarget]
      have hacc : Balanced ((f.setInstruction i (insn.redirect a next)).moveEdge b insn.target?
          (insn.redirect a next).target?) R :=
        h.setInstruction hR hi hb ((Instruction.block_redirect ..).trans hb)
          fun t ht => (hnew t (hnext ▸ ht)).2
      rw [hnext, htarget] at hacc
      have hsame := SameBodies.moveEdge (f.setInstruction i (insn.redirect a next)) b (some a) next
      refine ⟨hacc, hblocks.trans hsame.toSameBlocks, hsame.fallThrough, hsame.listing, ?_⟩
      intro j
      rw [hsame.instruction?, hinsn]

theorem Balanced.redirectBranches (is : List InsnId) (h : Balanced f R) (hR : Steady R)
    (hr : redirectBranches a next is f = .ok f') :
    Balanced f' R ∧ Becomes f f' f.fallThroughOf f.listing fun j =>
      if j ∈ is then (f.instruction? j).map (·.redirect a next) else f.instruction? j := by
  induction is generalizing f with
  | nil =>
    cases hr
    exact ⟨h, .refl _, fun _ => rfl, fun _ => rfl, fun _ => (if_neg List.not_mem_nil).symm⟩
  | cons i is ih =>
    obtain ⟨r, h₁, hr⟩ := bind_eq_ok_iff.mp hr
    obtain ⟨hacc₁, hbec₁⟩ := h.redirectBranch hR h₁
    obtain ⟨hacc₂, hbec₂⟩ := ih hacc₁ hr
    refine ⟨hacc₂, hbec₁.toSameBlocks.trans hbec₂.toSameBlocks,
      fun c => (hbec₂.fallThrough c).trans (hbec₁.fallThrough c),
      fun c => (hbec₂.listing c).trans (hbec₁.listing c), ?_⟩
    intro j
    rw [hbec₂.instruction, hbec₁.instruction]
    by_cases hji : j = i
    · by_cases hjs : j ∈ is
      · simp [hji, hji ▸ hjs, Function.comp_def, Instruction.redirect_redirect]
      · simp [hji, hji ▸ hjs]
    · simp [hji]

theorem branchesAmong_ok {is bs : List InsnId} (h : f.branchesAmong is = .ok bs) (j : InsnId) :
    j ∈ bs ↔ j ∈ is ∧ ∃ insn, f.instruction? j = some insn ∧ insn.isBranch = true := by
  induction is generalizing bs with
  | nil =>
    cases h
    simp
  | cons i is ih =>
    obtain ⟨insn, hi, h⟩ := bind_eq_ok_iff.mp h
    obtain ⟨rest, hrest, h⟩ := bind_eq_ok_iff.mp h
    have hi := instruction_ok hi
    cases hbr : insn.isBranch with
    | true =>
      rw [hbr] at h
      cases h
      by_cases hj : j = i
      · simp [hj, hi, hbr]
      · simp [hj, ih hrest]
    | false =>
      rw [hbr] at h
      cases h
      by_cases hj : j = i
      · subst hj
        simp [ih hrest, hi, hbr]
      · simp [hj, ih hrest]

/-- The driven edges of a block that lead to `a` are sent on, and only these. -/
theorem Balanced.redirect (h : Balanced f R) (hR : Steady R) (hr : f.redirect b a next = .ok f') :
    f.isLive b = true ∧ Balanced f' R ∧
      Becomes f f' (fun c => if c = b ∧ f.fallThroughOf b = some a then next else f.fallThroughOf c)
        f.listing fun j =>
          if j ∈ f.listing b then (f.instruction? j).map (·.redirect a next)
          else f.instruction? j := by
  rw [redirect_eq] at hr
  obtain ⟨block, hb, hr⟩ := bind_eq_ok_iff.mp hr
  obtain ⟨f₁, h₁, hr⟩ := bind_eq_ok_iff.mp hr
  obtain ⟨block₁, hb₁, hr⟩ := bind_eq_ok_iff.mp hr
  obtain ⟨branches, hbranches, hr⟩ := bind_eq_ok_iff.mp hr
  have hb := block_eq_ok.mp hb
  have hfirst : Balanced f₁ R ∧ Becomes f f₁
      (fun c => if c = b ∧ f.fallThroughOf b = some a then next else f.fallThroughOf c) f.listing
      f.instruction? := by
    rw [← (views_of_block? hb).2.2.1] at h₁
    split at h₁
    · next hfall =>
      simpa [hfall] using h.setFallThrough hR h₁
    · next hfall =>
      cases h₁
      exact ⟨h, .refl _, fun c => (if_neg fun hc => hfall hc.2).symm, fun _ => rfl, fun _ => rfl⟩
  obtain ⟨hacc₁, hbec₁⟩ := hfirst
  obtain ⟨hacc₂, hbec₂⟩ := hacc₁.redirectBranches branches hR hr
  refine ⟨isLive_of_block? hb, hacc₂, hbec₁.toSameBlocks.trans hbec₂.toSameBlocks,
    fun c => (hbec₂.fallThrough c).trans (hbec₁.fallThrough c),
    fun c => (hbec₂.listing c).trans (hbec₁.listing c), ?_⟩
  intro j
  have hmem := branchesAmong_ok hbranches j
  rw [← (views_of_block? (block_eq_ok.mp hb₁)).2.2.2, hbec₁.listing, hbec₁.instruction] at hmem
  rw [hbec₂.instruction, hbec₁.instruction]
  by_cases hj : j ∈ f.listing b
  · obtain ⟨insn, hi, -⟩ := h.owned.exists_of_mem hj
    cases hbr : insn.isBranch with
    | true => rw [if_pos (hmem.mpr ⟨hj, insn, hi, hbr⟩), if_pos hj]
    | false =>
      rw [if_pos hj, hi, Option.map_some, Instruction.redirect_of_not_isBranch hbr]
      split <;> rfl
  · rw [if_neg fun hbranch => hj (hmem.mp hbranch).1, if_neg hj]

end FlowGraph.Function
