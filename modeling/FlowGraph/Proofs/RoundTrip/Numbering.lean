import FlowGraph.Proofs.Reading.Shape
import FlowGraph.Proofs.RoundTrip.Acceptance

/-!
# How a text numbers its blocks

When the text of a function is read, its blocks are numbered in the order in which the text
mentions them. A `goto` that is left out makes no difference: it leads to the block whose label
comes next, or to the exit, which has its number from the start.
-/

namespace FlowGraph.Function

open Text

set_option autoImplicit false

section lists

variable {α β : Type} [DecidableEq α] [DecidableEq β] {l m : List α} {a : α}

theorem eraseDups_append_cons (ha : a ∈ l) : (l ++ a :: m).eraseDups = (l ++ m).eraseDups := by
  rw [List.eraseDups_append, List.eraseDups_append]
  simp [List.removeAll, ha]

theorem prefix_eraseDups_append : l.eraseDups <+: (l ++ m).eraseDups := by
  rw [List.eraseDups_append]
  exact List.prefix_append _ _

theorem nodup_eraseDups (l : List α) : l.eraseDups.Nodup := by
  induction l using List.reverseRecOn with
  | nil => exact .nil
  | append_singleton l a ih =>
    rw [eraseDups_concat]
    split
    · exact ih
    · next ha =>
      refine List.nodup_append.mpr ⟨ih, by simp, ?_⟩
      intro x hx y hy
      rw [List.mem_singleton.mp hy]
      exact ne_of_mem_of_not_mem (List.mem_eraseDups.mp hx) ha

theorem eraseDups_map {g : α → β} (hg : ∀ x ∈ l, ∀ y ∈ l, g x = g y → x = y) :
    (l.map g).eraseDups = l.eraseDups.map g := by
  induction l using List.reverseRecOn with
  | nil => rfl
  | append_singleton l a ih =>
    have hmem : g a ∈ l.map g ↔ a ∈ l := by
      constructor
      · intro h
        obtain ⟨x, hx, heq⟩ := List.mem_map.mp h
        rw [← hg x (by simp [hx]) a (by simp) heq]
        exact hx
      · exact List.mem_map_of_mem
    rw [List.map_append, List.map_singleton, eraseDups_concat, eraseDups_concat,
      ih fun x hx y hy => hg x (by simp [hx]) y (by simp [hy])]
    simp only [hmem]
    split
    · rfl
    · simp

end lists

variable {f : Function} {b : BlockId} {bs seen : List BlockId}

/-- Where a `goto` leads at the end of `b` if `next` is written next; none if it is left out. -/
def writtenGoto (f : Function) (b : BlockId) (next : Option BlockId) : Option BlockId :=
  (f.fallThroughOf b).filter fun target => !isImplicit b target next

def sectionAt (f : Function) (b : BlockId) (next : Option BlockId) : Section where
  label := b.label
  ops := (f.instructionsOf b).map fun insn => f.spell insn.operation
  goto := (f.writtenGoto b next).map BlockId.label

def sectionsAt (f : Function) : List BlockId → List Section
  | [] => []
  | b :: bs => f.sectionAt b bs.head? :: f.sectionsAt bs

theorem sectionsOf_eq_sectionsAt {blocks : List Block}
    (h : ∀ block ∈ blocks, f.block? block.id = some block) :
    f.sectionsOf blocks = f.sectionsAt (blocks.map Block.id) := by
  induction blocks with
  | nil => rfl
  | cons block blocks ih =>
    have hfall : f.fallThroughOf block.id = block.fallThrough :=
      (views_of_block? (h block List.mem_cons_self)).2.2.1
    rw [sectionsOf, ih fun x hx => h x (List.mem_cons_of_mem block hx), List.map_cons, sectionsAt,
      sectionOf, sectionAt, gotoAfter, writtenGoto, hfall, List.head?_map]

theorem sections_eq (h : f.Numbered) : f.sectionsOf f.writtenBlocks = f.sectionsAt f.layout :=
  sectionsOf_eq_sectionsAt fun _ hblock => block?_of_mem_writtenBlocks h hblock

def branchTargets (f : Function) (b : BlockId) : List BlockId :=
  (f.instructionsOf b).filterMap Instruction.target?

/-- The blocks that the sections of some blocks mention. -/
def written (f : Function) : List BlockId → List BlockId
  | [] => []
  | b :: bs => b :: (f.branchTargets b ++ (f.writtenGoto b bs.head?).toList) ++ f.written bs

/-- The blocks that the sections mention if no `goto` is left out. -/
def mentioned (f : Function) (bs : List BlockId) : List BlockId :=
  bs.flatMap fun b => b :: (f.branchTargets b ++ (f.fallThroughOf b).toList)

theorem targets_spell {insn : Instruction} (h : insn.isBranch = true → insn.target? ≠ none) :
    (f.spell insn.operation).targets = insn.target?.toList.map BlockId.label := by
  obtain ⟨⟨kind, operands, result⟩, home⟩ := insn
  cases kind with
  | arith op => rfl
  | nop => rfl
  | branch target =>
    cases target with
    | none => exact absurd rfl (h rfl)
    | some t => rfl

theorem mentions_sectionAt (h : f.Targeted) (b : BlockId) (next : Option BlockId) :
    (f.sectionAt b next).mentions =
      (b :: (f.branchTargets b ++ (f.writtenGoto b next).toList)).map BlockId.label := by
  have hops : ((f.instructionsOf b).map fun insn => f.spell insn.operation).flatMap
      NamedOp.targets = (f.branchTargets b).map BlockId.label := calc
    ((f.instructionsOf b).map fun insn => f.spell insn.operation).flatMap NamedOp.targets
        = (f.instructionsOf b).flatMap fun insn => insn.target?.toList.map BlockId.label := by
          rw [List.flatMap_map]
          exact List.flatMap_congr fun insn hinsn => targets_spell (h b insn hinsn)
    _ = (f.branchTargets b).map BlockId.label := by
          rw [branchTargets, List.filterMap_eq_flatMap_toList, List.map_flatMap]
  have hgoto : ((f.writtenGoto b next).map BlockId.label).toList =
      (f.writtenGoto b next).toList.map BlockId.label := by
    cases f.writtenGoto b next <;> rfl
  rw [Section.mentions, sectionAt, hops, hgoto, List.map_cons, List.map_append]

theorem mentions_sectionsAt (h : f.Targeted) (bs : List BlockId) :
    (f.sectionsAt bs).flatMap Section.mentions = (f.written bs).map BlockId.label := by
  induction bs with
  | nil => rfl
  | cons b bs ih =>
    rw [sectionsAt, List.flatMap_cons, mentions_sectionAt h, ih, written, List.map_append]

/-- A `goto` that is left out does not change in which order blocks are first mentioned. -/
theorem eraseDups_written (hexit : .exit ∈ seen) :
    (seen ++ f.written bs).eraseDups = (seen ++ f.mentioned bs).eraseDups := by
  induction bs generalizing seen with
  | nil => rfl
  | cons b bs ih =>
    have hgoto : ∀ front, .exit ∈ front →
        (front ++ ((f.writtenGoto b bs.head?).toList ++ f.written bs)).eraseDups =
          (front ++ ((f.fallThroughOf b).toList ++ f.mentioned bs)).eraseDups := by
      intro front hfront
      rw [writtenGoto]
      cases f.fallThroughOf b with
      | none => exact ih hfront
      | some t =>
        cases himplicit : isImplicit b t bs.head? with
        | false =>
          rw [Option.filter_some_pos (by simp [himplicit]), ← List.append_assoc,
            ← List.append_assoc]
          exact ih (List.mem_append_left _ hfront)
        | true =>
          rw [Option.filter_some_neg (by simp [himplicit])]
          refine (ih hfront).trans ?_
          cases bs with
          | nil =>
            have ht : t = .exit ∧ b ≠ .exit := by simpa [isImplicit] using himplicit
            exact (eraseDups_append_cons (ht.1 ▸ hfront)).symm
          | cons c bs =>
            have ht : t = c := by simpa [isImplicit] using himplicit
            have hnext : f.mentioned (c :: bs) =
                c :: (f.branchTargets c ++ (f.fallThroughOf c).toList ++ f.mentioned bs) := rfl
            rw [ht, hnext, Option.toList_some, List.singleton_append]
            have hskip := eraseDups_append_cons (l := front ++ [c]) (a := c)
              (m := f.branchTargets c ++ (f.fallThroughOf c).toList ++ f.mentioned bs) (by simp)
            simpa using hskip.symm
    have hfront : .exit ∈ seen ++ b :: f.branchTargets b := List.mem_append_left _ hexit
    simpa [written, mentioned] using hgoto _ hfront

/-- The blocks in the order in which the text of `f` first mentions them, with the entry and the
exit in front. -/
def numbering (f : Function) : List BlockId :=
  (.entry :: .exit :: f.mentioned f.layout).eraseDups

def renumber (f : Function) (b : BlockId) : BlockId := ⟨f.numbering.idxOf b⟩

theorem labels_settleAll (o : Outline) (sections : List Section) :
    (sections.foldl Outline.settle o).labels =
      enterAll o.labels (sections.flatMap Section.mentions) := by
  induction sections generalizing o with
  | nil => rfl
  | cons s sections ih =>
    rw [List.foldl_cons, ih, List.flatMap_cons, enterAll_append]
    rfl

theorem Writable.labels_outline (h : f.Writable) :
    f.outline.labels = f.numbering.map BlockId.label := by
  have hinj : ∀ x ∈ BlockId.entry :: .exit :: f.written f.layout,
      ∀ y ∈ BlockId.entry :: .exit :: f.written f.layout, x.label = y.label → x = y :=
    fun x _ y _ => BlockId.label_inj
  have hexit : BlockId.exit ∈ [BlockId.entry, .exit] := by simp
  have hwritten : (BlockId.entry :: .exit :: f.written f.layout).eraseDups = f.numbering :=
    eraseDups_written hexit
  rw [outline, Outline.labels_fallInto, settled, labels_settleAll, sections_eq h.numbered,
    mentions_sectionsAt h.targeted, ← hwritten, ← eraseDups_map hinj]
  exact enterAll_eraseDups ["entry", "exit"] _

theorem idxOf_map_label (l : List BlockId) (b : BlockId) :
    (l.map BlockId.label).idxOf b.label = l.idxOf b := by
  induction l with
  | nil => rfl
  | cons c l ih =>
    by_cases hc : c = b
    · simp [hc]
    · have hlabel : c.label ≠ b.label := fun heq => hc (BlockId.label_inj heq)
      simp [List.idxOf_cons_ne _ hc, List.idxOf_cons_ne _ hlabel, ih]

theorem Writable.blockOf_label (h : f.Writable) (b : BlockId) :
    f.outline.blockOf b.label = f.renumber b := by
  rw [Outline.blockOf, h.labels_outline, idxOf_map_label]
  rfl

/-- The text of a function reads as the function with its blocks renumbered. -/
theorem Writable.parse_renumbered (h : f.Writable) :
    ∃ g, (parse (page f.script)).outcome = .ok g ∧ ReadBack f g f.renumber := by
  obtain ⟨g, hparse, hback⟩ := h.parse_labels
  rw [funext h.blockOf_label] at hback
  exact ⟨g, hparse, hback⟩

end FlowGraph.Function
