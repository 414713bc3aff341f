import FlowGraph.Proofs.Graph.Demolition

/-!
# Moves

A block is redirected, or an instruction is placed somewhere else. Both take edges from one list and
enter edges into another, and nothing in a list tells a driven edge from a raw one. What counts is
only how many there are: where every edge is accounted for, the edges follow what drives them, and
the raw edges stay where they were.
-/

namespace FlowGraph.Function

set_option autoImplicit false

variable {f f' : Function} {R : EdgeRule} {raw : RawEdges} {a b x y : BlockId} {i : InsnId}
  {insn : Instruction} {next : Option BlockId}

/-- Between two states with the same raw edges, the edges change as the driven edges do. -/
theorem Accounted.edgeCount_add (h : Accounted f raw) (h' : Accounted f' raw) {lost gained : Nat}
    (hd : f'.drivenCount x y + lost = f.drivenCount x y + gained) :
    f'.edgeCount x y + lost = f.edgeCount x y + gained := by
  have hbefore := h.balance x y
  have hafter := h'.balance x y
  omega

theorem Balanced.instruction?_redirect (h : Balanced f R) (hR : Steady R)
    (hr : f.redirect b a next = .ok f') (j : InsnId) :
    f'.instruction? j = (f.instruction? j).map fun insn =>
      if insn.block = some b ∧ insn.target? = some a then
        { insn with operation := insn.operation.withTarget next }
      else insn := by
  obtain ⟨-, -, hbec⟩ := h.redirect hR hr
  rw [hbec.instruction]
  cases hj : f.instruction? j with
  | none =>
    split
    · rfl
    · rfl
  | some insn =>
    have hmem : j ∈ f.listing b ↔ insn.block = some b := by
      rw [h.owned.mem_iff, homeOf, hj, Option.bind_some]
    rw [Option.map_some, Option.map_some, Instruction.redirect_eq_ite]
    by_cases hb : insn.block = some b
    · simp only [hmem, hb, if_true, true_and]
    · simp only [hmem, hb, if_false, false_and]

/-- Redirecting a block moves the edges that its fall-through and its branches stand for, and
nothing else. -/
theorem redirect_moves_driven_edges (h : Reached f raw) (hb : f.isLive b = true) (old : BlockId)
    (hnext : ∀ t, next = some t → f.isLive t = true) :
    ∃ f', f.redirect b old next = .ok f' ∧
      (next ≠ some old →
        f'.edgeCount b old + f.drivenCount b old = f.edgeCount b old ∧
        (∀ t, next = some t → f'.edgeCount b t = f.edgeCount b t + f.drivenCount b old) ∧
        ∀ x y, ¬ (x = b ∧ (y = old ∨ next = some y)) → f'.edgeCount x y = f.edgeCount x y) ∧
      (∀ x y, f.edgeCount x y = f.drivenCount x y + raw x y ∧
        f'.edgeCount x y = f'.drivenCount x y + raw x y) ∧
      (∀ x y, (f'.predecessorsOf y).count x = f'.edgeCount x y) ∧
      (∀ c, f'.fallThroughOf c =
        if c = b ∧ f.fallThroughOf b = some old then next else f.fallThroughOf c) ∧
      (∀ c, f'.listing c = f.listing c) ∧
      (∀ i, f'.instruction? i = (f.instruction? i).map fun insn =>
        if insn.block = some b ∧ insn.target? = some old then
          { insn with operation := insn.operation.withTarget next }
        else insn) ∧
      (next = some old → (∀ x y, f'.edgeCount x y = f.edgeCount x y) ∧
        (∀ c, f'.fallThroughOf c = f.fallThroughOf c) ∧
        ∀ i, f'.instruction? i = f.instruction? i) ∧
      SameBlocks f f' := by
  have hacc := h.accounted
  have hbal := accounted_iff.mp hacc
  have hR := steady_owed raw
  obtain ⟨f', hr⟩ := hbal.exists_redirect (a := old) hR (backs_owed raw) hb hnext
  obtain ⟨-, hbal', hbec⟩ := hbal.redirect hR hr
  have hacc' := accounted_iff.mpr hbal'
  have hedges : ∀ x y, f'.edgeCount x y + (if x = b ∧ y = old then f.drivenCount b old else 0) =
      f.edgeCount x y + if x = b ∧ next = some y then f.drivenCount b old else 0 :=
    fun x y => hacc.edgeCount_add hacc' (hbal.drivenCount_redirect hR hr x y)
  have hinsns := hbal.instruction?_redirect hR hr
  refine ⟨f', hr, ?_, fun x y => ⟨hacc.balance x y, hacc'.balance x y⟩,
    fun x y => (hacc'.symmetric x y).symm, hbec.fallThrough, hbec.listing, hinsns, ?_,
    hbec.toSameBlocks⟩
  · intro hne
    refine ⟨?_, ?_, ?_⟩
    · have hold := hedges b old
      rwa [if_pos ⟨rfl, rfl⟩, if_neg fun hc => hne hc.2] at hold
    · rintro t rfl
      have hnew := hedges b t
      rwa [if_neg fun hc => hne (congrArg some hc.2), if_pos ⟨rfl, rfl⟩] at hnew
    · intro x y hxy
      have hother := hedges x y
      rwa [if_neg fun hc => hxy ⟨hc.1, .inl hc.2⟩, if_neg fun hc => hxy ⟨hc.1, .inr hc.2⟩] at hother
  · rintro rfl
    refine ⟨?_, ?_, ?_⟩
    · intro x y
      have hsame := hedges x y
      simp only [Option.some.injEq, eq_comm (a := old)] at hsame
      omega
    · intro c
      rw [hbec.fallThrough]
      split
      · next hc => rw [hc.1, hc.2]
      · rfl
    · intro i
      rw [hinsns]
      cases f.instruction? i with
      | none => rfl
      | some insn =>
        rw [Option.map_some]
        split
        · next ht => rw [← ht.2, Instruction.target?, Encoding.withTarget_target?]
        · rfl

/-- A block that falls into itself, branches to itself twice and has a raw edge to itself. -/
theorem redirect_away_from_itself :
    ∃ f raw f', Reached f raw ∧ f.redirect ⟨2⟩ ⟨2⟩ (some ⟨1⟩) = .ok f' ∧
      f.edgeCount ⟨2⟩ ⟨2⟩ = 4 ∧ f.edgeCount ⟨2⟩ ⟨1⟩ = 1 ∧ f'.edgeCount ⟨2⟩ ⟨2⟩ = 1 ∧
      f'.edgeCount ⟨2⟩ ⟨1⟩ = 4 ∧ f'.fallThroughOf ⟨2⟩ = some ⟨1⟩ ∧
      f'.instruction? ⟨1⟩ = some { operation := .branch ⟨1⟩ (some ⟨1⟩), block := some ⟨2⟩ } := by
  have hview : (empty.runOnRecord (fun _ _ => 0) [.addBlock, .setFallThrough ⟨2⟩ (some ⟨2⟩),
      .append ⟨2⟩ (.branch ⟨0⟩ (some ⟨2⟩)), .append ⟨2⟩ (.branch ⟨1⟩ (some ⟨2⟩)),
      .append ⟨2⟩ (.branch ⟨0⟩ (some ⟨1⟩)), .addEdge ⟨2⟩ ⟨2⟩]).any
        (fun r => r.1.isLive ⟨1⟩ = true ∧ r.1.isLive ⟨2⟩ = true ∧ r.1.edgeCount ⟨2⟩ ⟨2⟩ = 4 ∧
          r.1.edgeCount ⟨2⟩ ⟨1⟩ = 1 ∧ r.1.drivenCount ⟨2⟩ ⟨2⟩ = 3 ∧
          r.1.fallThroughOf ⟨2⟩ = some ⟨2⟩ ∧ r.1.instruction? ⟨1⟩ =
            some { operation := .branch ⟨1⟩ (some ⟨2⟩), block := some ⟨2⟩ }) = true := by
    decide +kernel
  obtain ⟨⟨f, raw⟩, hrun, hf⟩ := (Option.any_eq_true _ _).mp hview
  obtain ⟨hexit, hlive, hself, hout, hdriven, hfall, hinsn⟩ := of_decide_eq_true hf
  have h := Reached.new.runOnRecord hrun
  have hnext : ∀ t : BlockId, some ⟨1⟩ = some t → f.isLive t = true := by
    rintro t ⟨⟩
    exact hexit
  obtain ⟨f', hr, hedges, -, -, hfalls, -, hinsns, -⟩ :=
    redirect_moves_driven_edges h hlive ⟨2⟩ hnext
  obtain ⟨hless, hmore, -⟩ := hedges (by decide)
  rw [hself, hdriven] at hless
  refine ⟨f, raw, f', h, hr, hself, hout, by omega, ?_, ?_, ?_⟩
  · rw [hmore ⟨1⟩ rfl, hout, hdriven]
  · rw [hfalls, hfall]
    rfl
  · rw [hinsns, hinsn]
    rfl

def finalBranch? (f : Function) (is : List InsnId) : Option InsnId :=
  is.getLast?.filter fun j => (f.instruction? j).any Instruction.isBranch

def entered (f : Function) (i : InsnId) (is : List InsnId) : Position → List InsnId
  | .first => i :: is
  | .last => is ++ [i]
  | .beforeBranch =>
    match f.finalBranch? is with
    | some j => is.dropLast ++ [i, j]
    | none => is ++ [i]

theorem finalBranch?_eq {is : List InsnId} {j : InsnId} (hlast : is.getLast? = some j)
    (hj : f.instruction? j = some insn) :
    f.finalBranch? is = if insn.isBranch then some j else none := by
  rw [finalBranch?, hlast, Option.filter_some, hj, Option.any_some]

theorem insertAt_eq {is : List InsnId} (h : ∀ j ∈ is, (f.instruction? j).isSome = true)
    (i : InsnId) (position : Position) :
    f.insertAt i is position = .ok (f.entered i is position) := by
  cases position with
  | first => rfl
  | last => rfl
  | beforeBranch =>
    cases hlast : is.getLast? with
    | none =>
      simp only [insertAt, endsInBranch, entered, finalBranch?, hlast]
      rfl
    | some j =>
      obtain ⟨insn, hj⟩ := Option.isSome_iff_exists.mp (h j (List.mem_of_getLast? hlast))
      have hends : f.endsInBranch is = .ok insn.isBranch := by
        rw [endsInBranch, hlast]
        simp only [instruction_eq_ok hj, ok_bind]
        rfl
      rw [insertAt, hends, ok_bind, entered, finalBranch?_eq hlast hj, hlast]
      cases insn.isBranch with
      | true => rfl
      | false => rfl

theorem entered_congr {is : List InsnId} (h : ∀ j ∈ is, f'.instruction? j = f.instruction? j)
    (i : InsnId) (position : Position) : f'.entered i is position = f.entered i is position := by
  have hfinal : f'.finalBranch? is = f.finalBranch? is := by
    unfold finalBranch?
    cases hlast : is.getLast? with
    | none => rfl
    | some j => simp only [Option.filter_some, h j (List.mem_of_getLast? hlast)]
  cases position with
  | first => rfl
  | last => rfl
  | beforeBranch => rw [entered, entered, hfinal]

theorem Owned.erase_listing (h : f.Owned) (b : BlockId) (i : InsnId) :
    (f.listing b).erase i = (f.listing b).filter (· ≠ i) := by
  rw [(h.nodup b).erase_eq_filter]
  refine List.filter_congr fun j _ => ?_
  rw [Bool.eq_iff_iff, bne_iff_ne, decide_eq_true_eq]

/-- Without `i`, the block that listed it counts one less if `i` counted. -/
theorem Owned.countP_erase (h : f.Owned) (hi : f.instruction? i = some insn) (p : InsnId → Bool)
    (x : BlockId) :
    ((f.listing x).erase i).countP p + (if insn.block = some x ∧ p i = true then 1 else 0) =
      (f.listing x).countP p := by
  by_cases hx : insn.block = some x
  · rw [(List.perm_cons_erase (h.mem_listing hi hx)).countP_eq, List.countP_cons]
    simp only [hx, true_and]
  · rw [List.erase_of_not_mem (h.notMem_listing hi hx), if_neg fun hc => hx hc.1, Nat.add_zero]

namespace Balanced

variable {position : Position}

theorem exists_place (h : Balanced f R) (hR : Steady R) (hback : Backs R) (hb : f.isLive b = true)
    (hi : f.instruction? i = some insn) (ht : ∀ t, insn.target? = some t → f.isLive t = true)
    (position : Position) : ∃ f', f.place i b position = .ok f' := by
  obtain ⟨f₁, h₁⟩ := h.exists_detach hback hi
  obtain ⟨insn', hi', hbal, hbec⟩ := h.detach hR h₁
  rw [hi] at hi'
  cases hi'
  have hi₁ : f₁.instruction? i = some { insn with block := none } := by
    rw [hbec.instruction, if_pos rfl]
  refine exists_place_of_detach h₁ hbal.symmetric ((hbec.live b).trans hb) hi₁
    (insertAt_eq (fun j => hbal.owned.isSome_of_mem) i position) ?_
  intro t htarget
  exact (hbec.live t).trans (ht t htarget)

/-- The place of an instruction tells which block drives its edge. -/
theorem drivenCount_place (h : Balanced f R) (hR : Steady R) (hi : f.instruction? i = some insn)
    (hp : f.place i b position = .ok f') (x y : BlockId) :
    f'.drivenCount x y + (if insn.block = some x ∧ insn.target? = some y then 1 else 0) =
      f.drivenCount x y + if x = b ∧ insn.target? = some y then 1 else 0 := by
  obtain ⟨insn', is, f₁, hi', h₁, his, hbal, hbec⟩ := h.place hR hp
  rw [hi] at hi'
  cases hi'
  have hleads : f'.leadsTo y = f.leadsTo y := by
    funext j
    simp only [leadsTo, hbec.instruction]
    split
    · next hj => simp [hj, hi]
    · rfl
  have hcount := h.owned.countP_erase hi (f.leadsTo y) x
  simp only [leadsTo_iff hi] at hcount
  have hafter : (f'.listing x).countP (f.leadsTo y) = ((f.listing x).erase i).countP (f.leadsTo y) +
      if x = b ∧ insn.target? = some y then 1 else 0 := by
    rw [hbec.listing]
    split
    · next hx =>
      rw [(insertAt_ok his).countP_eq, List.countP_cons, hx]
      simp only [leadsTo_iff hi, true_and]
    · next hx => rw [if_neg fun hc => hx hc.1, Nat.add_zero]
  rw [drivenCount, drivenCount, branchCount_eq, branchCount_eq, hbec.fallThrough, hleads]
  omega

/-- Whether the list ends in a branch is seen after `i` has left it. -/
theorem listing_place (h : Balanced f R) (hR : Steady R) (hp : f.place i b position = .ok f') :
    f'.listing b = f.entered i ((f.listing b).filter (· ≠ i)) position := by
  obtain ⟨insn, is, f₁, -, h₁, his, -, hbec⟩ := h.place hR hp
  obtain ⟨_, -, hbal₁, hbec₁⟩ := h.detach hR h₁
  have hlisted : ∀ j ∈ (f.listing b).erase i, (f₁.instruction? j).isSome = true := by
    intro j hj
    rw [← hbec₁.listing b] at hj
    exact hbal₁.owned.isSome_of_mem hj
  have hold : ∀ j ∈ (f.listing b).erase i, f₁.instruction? j = f.instruction? j := by
    intro j hj
    have hji : j ≠ i := by
      rintro rfl
      exact (h.owned.nodup b).not_mem_erase hj
    rw [hbec₁.instruction, if_neg hji]
  rw [insertAt_eq hlisted] at his
  cases his
  rw [← h.owned.erase_listing, hbec.listing, if_pos rfl, entered_congr hold]

end Balanced

/-- An instruction with a live target or none can be placed anywhere, and takes its edge along. -/
theorem place_moves_one_instruction (h : Reached f raw) (hb : f.isLive b = true)
    (hi : f.instruction? i = some insn) (ht : ∀ t, insn.target? = some t → f.isLive t = true)
    (position : Position) :
    ∃ f', f.place i b position = .ok f' ∧
      f'.listing b = f.entered i ((f.listing b).filter (· ≠ i)) position ∧
      (∀ c, c ≠ b → f'.listing c = (f.listing c).filter (· ≠ i)) ∧
      (∀ x y, f'.edgeCount x y +
          (if insn.block = some x ∧ insn.target? = some y then 1 else 0) =
        f.edgeCount x y + if x = b ∧ insn.target? = some y then 1 else 0) ∧
      (∀ x y, (f'.predecessorsOf y).count x = f'.edgeCount x y) ∧
      (∀ c, f'.fallThroughOf c = f.fallThroughOf c) ∧
      (∀ j, f'.instruction? j =
        if j = i then some { insn with block := some b } else f.instruction? j) ∧
      SameBlocks f f' := by
  have hacc := h.accounted
  have hbal := accounted_iff.mp hacc
  have hR := steady_owed raw
  obtain ⟨f', hp⟩ := hbal.exists_place hR (backs_owed raw) hb hi ht position
  obtain ⟨insn', is, f₁, hi', -, -, hbal', hbec⟩ := hbal.place hR hp
  rw [hi] at hi'
  cases hi'
  have hacc' := accounted_iff.mpr hbal'
  refine ⟨f', hp, hbal.listing_place hR hp, ?_, ?_, fun x y => (hacc'.symmetric x y).symm,
    hbec.fallThrough, hbec.instruction, hbec.toSameBlocks⟩
  · intro c hc
    rw [hbec.listing, if_neg hc, hacc.owned.erase_listing]
  · intro x y
    exact hacc.edgeCount_add hacc' (hbal.drivenCount_place hR hi hp x y)

/-- The second of two branches in a block is placed within the block, and then in the block that
both lead to. -/
theorem place_within_and_across :
    ∃ f raw f' f'', Reached f raw ∧ f.listing ⟨0⟩ = [⟨0⟩, ⟨1⟩] ∧ f.edgeCount ⟨0⟩ ⟨2⟩ = 2 ∧
      f.place ⟨1⟩ ⟨0⟩ .beforeBranch = .ok f' ∧ f'.listing ⟨0⟩ = [⟨1⟩, ⟨0⟩] ∧
      f'.edgeCount ⟨0⟩ ⟨2⟩ = 2 ∧
      f.place ⟨1⟩ ⟨2⟩ .first = .ok f'' ∧ f''.listing ⟨0⟩ = [⟨0⟩] ∧ f''.listing ⟨2⟩ = [⟨1⟩, ⟨2⟩] ∧
      f''.edgeCount ⟨0⟩ ⟨2⟩ = 1 ∧ f''.edgeCount ⟨2⟩ ⟨2⟩ = 1 := by
  have hview : (empty.runOnRecord (fun _ _ => 0) [.addBlock, .append ⟨0⟩ (.branch ⟨0⟩ (some ⟨2⟩)),
      .append ⟨0⟩ (.branch ⟨0⟩ (some ⟨2⟩)), .append ⟨2⟩ .nop]).any
        (fun r => r.1.isLive ⟨0⟩ = true ∧ r.1.isLive ⟨2⟩ = true ∧ r.1.listing ⟨0⟩ = [⟨0⟩, ⟨1⟩] ∧
          r.1.listing ⟨2⟩ = [⟨2⟩] ∧ r.1.edgeCount ⟨0⟩ ⟨2⟩ = 2 ∧ r.1.edgeCount ⟨2⟩ ⟨2⟩ = 0 ∧
          r.1.instruction? ⟨0⟩ =
            some { operation := .branch ⟨0⟩ (some ⟨2⟩), block := some ⟨0⟩ } ∧
          r.1.instruction? ⟨1⟩ =
            some { operation := .branch ⟨0⟩ (some ⟨2⟩), block := some ⟨0⟩ }) = true := by
    decide +kernel
  obtain ⟨⟨f, raw⟩, hrun, hf⟩ := (Option.any_eq_true _ _).mp hview
  obtain ⟨hlive₀, hlive₂, hlist₀, hlist₂, hedge₀, hedge₂, hinsn₀, hinsn₁⟩ := of_decide_eq_true hf
  have h := Reached.new.runOnRecord hrun
  have ht : ∀ t, ({ operation := .branch ⟨0⟩ (some ⟨2⟩), block := some ⟨0⟩ } :
      Instruction).target? = some t → f.isLive t = true := by
    rintro t ⟨⟩
    exact hlive₂
  obtain ⟨f', hp', hlist', -, hedges', -⟩ :=
    place_moves_one_instruction h hlive₀ hinsn₁ ht .beforeBranch
  obtain ⟨f'', hp'', hlist'', hlists'', hedges'', -⟩ :=
    place_moves_one_instruction h hlive₂ hinsn₁ ht .first
  have hrest : (f.listing ⟨0⟩).filter (· ≠ ⟨1⟩) = [⟨0⟩] := by
    rw [hlist₀]
    rfl
  refine ⟨f, raw, f', f'', h, hlist₀, hedge₀, hp', ?_, ?_, hp'', ?_, ?_, ?_, ?_⟩
  · rw [hlist', hrest, entered, finalBranch?_eq rfl hinsn₀]
    rfl
  · have hcount := hedges' ⟨0⟩ ⟨2⟩
    rw [hedge₀] at hcount
    exact Nat.add_right_cancel hcount
  · rw [hlists'' ⟨0⟩ (by decide), hrest]
  · rw [hlist'', hlist₂]
    rfl
  · have hcount := hedges'' ⟨0⟩ ⟨2⟩
    rw [hedge₀] at hcount
    exact Nat.add_right_cancel hcount
  · have hcount := hedges'' ⟨2⟩ ⟨2⟩
    rw [hedge₂] at hcount
    exact hcount

end FlowGraph.Function
