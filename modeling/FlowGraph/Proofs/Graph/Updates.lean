import FlowGraph.Proofs.Graph.Ownership
import Mathlib.Logic.Relation

/-!
# Updates

Every operation that succeeds is a sequence of a few kinds of updates. What each update keeps is
kept by every operation and, together with what an edit of a tree does, by every run.
-/

namespace FlowGraph.Function

set_option autoImplicit false

open Relation

variable {f f' : Function} {a b : BlockId} {i : InsnId} {next : Option BlockId}

/-- What an operation can do in one go while the blocks stay the same ones. -/
inductive Rework (f : Function) : Function → Prop
  /-- A block changes, but not its edges. -/
  | block (b : BlockId) (g : Block → Block) (hg : ∀ x, (g x).successors = x.successors) :
      Rework f (f.modifyBlock b g)
  | withEdge (a b : BlockId) : Rework f (f.withEdge a b)
  | withoutEdge (a b : BlockId) : Rework f (f.withoutEdge a b)
  /-- An instruction changes its block or its target. -/
  | setInstruction {i : InsnId} {insn insn' : Instruction} (hi : f.instruction? i = some insn)
      (hop : ∃ next, insn'.operation = insn.operation.withTarget next) :
      Rework f (f.setInstruction i insn')
  | addInstruction (operation : Operation) : Rework f (f.addInstruction operation)
  | copyInstruction {i : InsnId} {insn : Instruction} (hi : f.instruction? i = some insn) :
      Rework f (f.addInstruction insn.operation)
  | withoutInstruction (i : InsnId) :
      Rework f { f with instructions := f.instructions.erase i.index }
  | forgetTarget (b : BlockId) : Rework f (f.forgetTarget b)

/-- What an operation can do to a function in one go. -/
inductive Update (f : Function) : Function → Prop
  | rework {f' : Function} (hr : Rework f f') : Update f f'
  | addBlock : Update f f.addBlock
  /-- A block goes that has no edges left. -/
  | withoutBlock {b : BlockId} (hs : f.successorsOf b = []) : Update f (f.withoutBlock b)
  | addRegister (name : String) : Update f (f.addRegister name)

abbrev Reworks : Function → Function → Prop := ReflTransGen Rework

abbrev Updates : Function → Function → Prop := ReflTransGen Update

theorem Rework.size_blocks (hr : Rework f f') : f'.blocks.size = f.blocks.size := by
  cases hr with
  | block b g hg => exact size_blocks_modifyBlock f b g
  | withEdge a b => simp [Function.withEdge, invalidateTrees]
  | withoutEdge a b => simp [Function.withoutEdge, invalidateTrees]
  | _ => rfl

theorem Rework.registers_eq (hr : Rework f f') : f'.registers = f.registers := by
  cases hr with
  | block b g hg => exact registers_modifyBlock f b g
  | withEdge a b => simp [Function.withEdge, invalidateTrees]
  | withoutEdge a b => simp [Function.withoutEdge, invalidateTrees]
  | _ => rfl

theorem Rework.registerTable_eq (hr : Rework f f') : f'.registerTable = f.registerTable := by
  cases hr with
  | block b g hg => exact registerTable_modifyBlock f b g
  | withEdge a b => simp [Function.withEdge, invalidateTrees]
  | withoutEdge a b => simp [Function.withoutEdge, invalidateTrees]
  | _ => rfl

namespace Reworks

theorem size_blocks (h : Reworks f f') : f'.blocks.size = f.blocks.size := by
  induction h with
  | refl => rfl
  | tail _ hr ih => exact hr.size_blocks.trans ih

theorem registers_eq (h : Reworks f f') : f'.registers = f.registers := by
  induction h with
  | refl => rfl
  | tail _ hr ih => exact hr.registers_eq.trans ih

theorem registerTable_eq (h : Reworks f f') : f'.registerTable = f.registerTable := by
  induction h with
  | refl => rfl
  | tail _ hr ih => exact hr.registerTable_eq.trans ih

theorem updates (h : Reworks f f') : Updates f f' :=
  ReflTransGen.mono (fun _ _ => .rework) _ _ h

theorem moveEdge (f : Function) (b : BlockId) (old new : Option BlockId) :
    Reworks f (f.moveEdge b old new) := by
  cases old with
  | none =>
    cases new with
    | none => exact .refl
    | some t => exact .single (.withEdge b t)
  | some s =>
    cases new with
    | none => exact .single (.withoutEdge b s)
    | some t => exact .tail (.single (.withoutEdge b s)) (.withEdge b t)

theorem relist {insn : Instruction} (hi : f.instruction? i = some insn)
    (g : List InsnId → List InsnId) (home : Option BlockId) :
    Reworks f (f.relist b g i { insn with block := home }) := by
  have hlist : Rework f (f.modifyBlock b fun x => { x with instructions := g x.instructions }) :=
    .block b _ fun _ => rfl
  rw [← instruction?_modifyBlock f b fun x => { x with instructions := g x.instructions }] at hi
  exact .tail (.single hlist) (.setInstruction hi ⟨_, insn.operation.withTarget_target?.symm⟩)

theorem detach (hd : f.detach i = .ok f') : Reworks f f' := by
  obtain ⟨insn, hi, ⟨-, rfl⟩ | ⟨b, -, -, rfl⟩⟩ := detach_ok hd
  · exact .refl
  · exact (relist hi _ _).trans (moveEdge ..)

theorem place {position : Position} (hp : f.place i b position = .ok f') : Reworks f f' := by
  obtain ⟨f₁, insn, is, h₁, -, hi, -, -, rfl⟩ := place_ok hp
  exact (detach h₁).trans ((relist hi _ _).trans (moveEdge ..))

theorem append {operation : Operation} (ha : f.append b operation = .ok f') : Reworks f f' :=
  .head (.addInstruction operation) (place ha)

theorem delete (hd : f.delete i = .ok f') : Reworks f f' := by
  obtain ⟨f₁, h₁, hd⟩ := bind_eq_ok_iff.mp hd
  cases hd
  exact (detach h₁).tail (.withoutInstruction i)

theorem deleteAll {is : List InsnId} (hd : deleteAll is f = .ok f') : Reworks f f' := by
  induction is generalizing f with
  | nil =>
    cases hd
    exact .refl
  | cons i is ih =>
    obtain ⟨f₁, h₁, hd⟩ := bind_eq_ok_iff.mp hd
    exact (delete h₁).trans (ih hd)

theorem redirectBranch {r : Bool × Function} (hr : f.redirectBranch i a next = .ok r) :
    Reworks f r.2 := by
  obtain ⟨insn, hi, ⟨-, rfl⟩ | ⟨-, -, ⟨-, heq⟩ | ⟨b, -, -, heq⟩⟩⟩ := redirectBranch_ok hr
  · exact .refl
  · exact heq ▸ .single (.setInstruction hi (insn.exists_withTarget_redirect a next))
  · exact heq ▸ .head (.setInstruction hi (insn.exists_withTarget_redirect a next)) (moveEdge ..)

theorem redirectBranches {is : List InsnId} (hr : redirectBranches a next is f = .ok f') :
    Reworks f f' := by
  induction is generalizing f with
  | nil =>
    cases hr
    exact .refl
  | cons i is ih =>
    obtain ⟨r, h₁, hr⟩ := bind_eq_ok_iff.mp hr
    exact (redirectBranch h₁).trans (ih hr)

theorem setFallThrough (hs : f.setFallThrough b next = .ok f') : Reworks f f' := by
  obtain ⟨-, ⟨-, rfl⟩ | ⟨-, -, rfl⟩⟩ := setFallThrough_ok hs
  · exact .refl
  · exact (moveEdge f b _ _).tail (.block b _ fun _ => rfl)

theorem redirect (hr : f.redirect b a next = .ok f') : Reworks f f' := by
  rw [redirect_eq] at hr
  obtain ⟨block, -, hr⟩ := bind_eq_ok_iff.mp hr
  obtain ⟨f₁, h₁, hr⟩ := bind_eq_ok_iff.mp hr
  obtain ⟨block₁, -, hr⟩ := bind_eq_ok_iff.mp hr
  obtain ⟨branches, -, hr⟩ := bind_eq_ok_iff.mp hr
  refine .trans ?_ (redirectBranches hr)
  split at h₁
  · exact setFallThrough h₁
  · cases h₁
    exact .refl

theorem clearBlock {r : Option BlockId × Function} (hc : f.clearBlock b = .ok r) :
    Reworks f r.2 := by
  obtain ⟨block, -, hc⟩ := bind_eq_ok_iff.mp hc
  obtain ⟨f₁, h₁, hc⟩ := bind_eq_ok_iff.mp hc
  obtain ⟨block₁, -, hc⟩ := bind_eq_ok_iff.mp hc
  obtain ⟨f₂, h₂, hc⟩ := bind_eq_ok_iff.mp hc
  cases hc
  exact ((deleteAll h₁).tail (.forgetTarget b)).trans (setFallThrough h₂)

theorem reroute (hr : (f.reroute a b next).outcome = .ok f') : Reworks f f' := by
  rw [outcome_reroute] at hr
  obtain ⟨before, -, hr⟩ := bind_eq_ok_iff.mp hr
  obtain ⟨f₁, h₁, hr⟩ := bind_eq_ok_iff.mp hr
  obtain ⟨after, -, hr⟩ := bind_eq_ok_iff.mp hr
  split at hr
  · obtain ⟨-, -, rfl⟩ := dropEdge_ok hr
    exact (redirect h₁).tail (.withoutEdge a b)
  · cases hr
    exact redirect h₁

theorem rerouteAll (rounds : Nat) (hr : (rerouteAll b next rounds f).outcome = .ok f') :
    Reworks f f' := by
  induction rounds generalizing f with
  | zero =>
    cases hr
    exact .refl
  | succ rounds ih =>
    rw [outcome_rerouteAll_succ] at hr
    obtain ⟨block, -, hr⟩ := bind_eq_ok_iff.mp hr
    cases hp : block.predecessors with
    | nil =>
      rw [hp] at hr
      cases hr
      exact .refl
    | cons source rest =>
      rw [hp] at hr
      obtain ⟨f₁, h₁, hr⟩ := bind_eq_ok_iff.mp hr
      exact (reroute h₁).trans (ih hr)

/-- Before a block is forgotten, the function is only reworked. -/
theorem of_destroy (hd : (f.destroy b).outcome = .ok f') :
    ∃ f₁, Reworks f f₁ ∧ f₁.successorsOf b = [] ∧ f' = f₁.withoutBlock b := by
  rw [outcome_destroy] at hd
  obtain ⟨r, h₁, hd⟩ := bind_eq_ok_iff.mp hd
  obtain ⟨block, -, hd⟩ := bind_eq_ok_iff.mp hd
  obtain ⟨f₂, h₂, hd⟩ := bind_eq_ok_iff.mp hd
  obtain ⟨-, hs, rfl⟩ := forgetBlock_ok hd
  exact ⟨f₂, (clearBlock h₁).trans (rerouteAll _ h₂), hs, rfl⟩

end Reworks

theorem Updates.destroy (hd : (f.destroy b).outcome = .ok f') : Updates f f' := by
  obtain ⟨f₁, hr, hs, rfl⟩ := Reworks.of_destroy hd
  exact hr.updates.tail (.withoutBlock hs)

/-- An edit makes updates or edits one of the trees. -/
theorem apply_cases {edit : Edit} {reply : Reply}
    (ha : (f.apply edit).outcome = .ok (reply, f')) :
    Updates f f' ∨
      (∃ e, edit = .dominators e ∧ f' = { f with dominators := f.dominators.apply e }) ∨
      ∃ e, edit = .postDominators e ∧
        f' = { f with postDominators := f.postDominators.apply e } := by
  have hdone := apply_ok ha
  cases edit with
  | addBlock => exact .inl (hdone.2 ▸ .single .addBlock)
  | addRegister name => exact .inl (hdone.2 ▸ .single (.addRegister name))
  | addInstruction operation => exact .inl (hdone.2 ▸ .single (.rework (.addInstruction operation)))
  | copyInstruction source =>
    obtain ⟨-, rfl⟩ | ⟨insn, hi, -, rfl⟩ := hdone
    · exact .inl .refl
    · exact .inl (.single (.rework (.copyInstruction hi)))
  | append block operation => exact .inl (Reworks.append hdone.2).updates
  | place insn block position => exact .inl (Reworks.place hdone.2).updates
  | detach insn => exact .inl (Reworks.detach hdone.2).updates
  | delete insn => exact .inl (Reworks.delete hdone.2).updates
  | redirectBranch insn old next =>
    obtain ⟨changed, -, h₁⟩ := hdone
    exact .inl (Reworks.redirectBranch h₁).updates
  | setFallThrough block next => exact .inl (Reworks.setFallThrough hdone.2).updates
  | addEdge source target =>
    obtain ⟨-, -, rfl⟩ := addEdge_ok hdone.2
    exact .inl (.single (.rework (.withEdge source target)))
  | removeEdge source target =>
    obtain ⟨removed, -, h₁⟩ := hdone
    obtain ⟨-, rfl⟩ := Prod.mk.inj (removeEdge_ok h₁).2.2
    exact .inl (.single (.rework (.withoutEdge source target)))
  | redirect block old next => exact .inl (Reworks.redirect hdone.2).updates
  | destroy block => exact .inl (.destroy hdone.2)
  | dominators edit => exact .inr (.inl ⟨edit, rfl, hdone.2⟩)
  | postDominators edit => exact .inr (.inr ⟨edit, rfl, hdone.2⟩)

section keeps

variable {P : Function → Prop}

/-- What every update keeps, any number of them keep. -/
theorem Updates.keeps (hupdate : ∀ {f f'}, P f → Update f f' → P f') (h : P f)
    (hu : Updates f f') : P f' := by
  induction hu with
  | refl => exact h
  | tail _ hu ih => exact hupdate ih hu

/-- What every update and every edit of a tree keep, every edit keeps. -/
theorem apply_keeps (hupdate : ∀ {f f'}, P f → Update f f' → P f')
    (hdominators : ∀ {f} e, P f → P { f with dominators := f.dominators.apply e })
    (hpostDominators : ∀ {f} e, P f → P { f with postDominators := f.postDominators.apply e })
    (h : P f) {edit : Edit} {reply : Reply} (ha : (f.apply edit).outcome = .ok (reply, f')) :
    P f' := by
  obtain hu | ⟨e, -, rfl⟩ | ⟨e, -, rfl⟩ := apply_cases ha
  · exact hu.keeps hupdate h
  · exact hdominators e h
  · exact hpostDominators e h

end keeps

end FlowGraph.Function
