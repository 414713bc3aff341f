import FlowGraph.Proofs.Graph.Ownership
import FlowGraph.Proofs.Writing.Sections
import Mathlib.Data.List.Basic

/-!
# Layout

The order in which blocks are written: the entry comes first, the exit last, and every live block
has its place unless it is an exit with nothing in it.
-/

namespace FlowGraph.Function

set_option autoImplicit false

variable {f : Function} {b : BlockId}

def layout (f : Function) : List BlockId := f.writtenBlocks.map Block.id

/-- The block that is written next after `b`; the exit if `b` is the last. -/
def writtenAfter (f : Function) (b : BlockId) : BlockId :=
  (f.layout[f.layout.idxOf b + 1]?).getD .exit

/-- Whether the exit has a place among the written blocks. -/
def writesExit (f : Function) : Bool := (f.block? .exit).any Block.hasContent

theorem block?_of_mem_writtenBlocks (h : f.Numbered) {block : Block}
    (hb : block ∈ f.writtenBlocks) : f.block? block.id = some block := by
  have hfound : ∃ b, f.block? b = some block := by
    rw [writtenBlocks, List.mem_append, List.mem_append] at hb
    rcases hb with (hb | hb) | hb
    · exact ⟨.entry, Option.mem_toList.mp hb⟩
    · obtain ⟨b, -, hb⟩ := List.mem_filterMap.mp hb
      exact ⟨b, hb⟩
    · exact ⟨.exit, Option.mem_toList.mp (List.mem_filter.mp hb).1⟩
  obtain ⟨b, hb⟩ := hfound
  rw [h.ids b block hb, hb]

theorem map_id_filterMap (h : f.Numbered) {bs : List BlockId} (hbs : ∀ b ∈ bs, f.isLive b = true) :
    (bs.filterMap f.block?).map Block.id = bs := by
  induction bs with
  | nil => rfl
  | cons b bs ih =>
    obtain ⟨block, hb⟩ := isLive_iff.mp (hbs b List.mem_cons_self)
    rw [List.filterMap_cons_some hb, List.map_cons, h.ids b block hb,
      ih fun c hc => hbs c (List.mem_cons_of_mem b hc)]

theorem layout_eq (h : f.Numbered) : f.layout =
    (if f.isLive .entry then [BlockId.entry] else []) ++
    f.order.filter (fun b => b ≠ .entry && b ≠ .exit) ++
    if f.writesExit then [BlockId.exit] else [] := by
  have hmiddle : ∀ b ∈ f.order.filter (fun b => b ≠ .entry && b ≠ .exit), f.isLive b = true :=
    fun b hb => (h.mem_order b).mp (List.mem_filter.mp hb).1
  rw [layout, writtenBlocks, List.map_append, List.map_append, map_id_filterMap h hmiddle]
  congr 1
  · congr 1
    unfold isLive
    cases hb : f.block? .entry with
    | none => rfl
    | some block => simp [h.ids _ _ hb]
  · unfold writesExit
    cases hb : f.block? .exit with
    | none => rfl
    | some block =>
      cases hc : block.hasContent with
      | true => simp [hc, h.ids _ _ hb]
      | false => simp [hc]

theorem isLive_of_writesExit (h : f.writesExit = true) : f.isLive .exit = true := by
  unfold writesExit at h
  cases hb : f.block? .exit with
  | none => simp [hb] at h
  | some block => exact isLive_of_block? hb

theorem mem_layout_iff (h : f.Numbered) :
    b ∈ f.layout ↔ f.isLive b = true ∧ (b = .exit → f.writesExit = true) := by
  rw [layout_eq h, List.mem_append, List.mem_append, List.mem_filter, h.mem_order]
  have hne : BlockId.entry ≠ BlockId.exit := by decide
  by_cases hentry : b = .entry
  · subst hentry
    cases hlive : f.isLive .entry <;> simp [hne]
  · by_cases hexit : b = .exit
    · subst hexit
      cases hwrites : f.writesExit with
      | true => simp [isLive_of_writesExit hwrites]
      | false => simp [hne.symm]
    · simp [hentry, hexit]

theorem nodup_layout (h : f.Numbered) : f.layout.Nodup := by
  rw [layout_eq h]
  have hmiddle : (f.order.filter fun b => b ≠ .entry && b ≠ .exit).Nodup := h.nodup_order.filter _
  have hne : BlockId.entry ≠ BlockId.exit := by decide
  rw [List.nodup_append, List.nodup_append]
  refine ⟨⟨?_, hmiddle, ?_⟩, ?_, ?_⟩
  · split <;> simp
  · intro a ha b hb
    have hb := (List.mem_filter.mp hb).2
    split at ha
    · rw [List.mem_singleton.mp ha]
      rintro rfl
      simp at hb
    · cases ha
  · split <;> simp
  · intro a ha b hb
    split at hb
    · rw [List.mem_singleton.mp hb]
      rintro rfl
      rcases List.mem_append.mp ha with ha | ha
      · split at ha
        · exact hne (List.mem_singleton.mp ha).symm
        · cases ha
      · simpa using (List.mem_filter.mp ha).2
    · cases hb

theorem layout_of_isLive_entry (h : f.Numbered) (hlive : f.isLive .entry = true) :
    ∃ rest, f.layout = .entry :: rest := by
  rw [layout_eq h, if_pos hlive]
  exact ⟨_, rfl⟩

theorem entry_notMem_tail (h : f.Numbered) : BlockId.entry ∉ f.layout.tail := by
  cases hlive : f.isLive .entry with
  | true =>
    obtain ⟨rest, hrest⟩ := layout_of_isLive_entry h hlive
    have hnodup := nodup_layout h
    rw [hrest] at hnodup ⊢
    exact (List.nodup_cons.mp hnodup).1
  | false =>
    intro hmem
    have hentry := ((mem_layout_iff h).mp (List.mem_of_mem_tail hmem)).1
    rw [hlive] at hentry
    cases hentry

theorem exit_last (h : f.Numbered) {pre post : List BlockId}
    (hsplit : f.layout = pre ++ .exit :: post) : post = [] := by
  have hmem : BlockId.exit ∈ f.layout := by simp [hsplit]
  have hwrites := ((mem_layout_iff h).mp hmem).2 rfl
  have hlast : f.layout.getLast? = some .exit := by
    rw [layout_eq h, if_pos hwrites, List.getLast?_concat]
  have hnodup := nodup_layout h
  rw [hsplit] at hlast hnodup
  have hnot := (List.nodup_cons.mp (List.nodup_append.mp hnodup).2.1).1
  cases post with
  | nil => rfl
  | cons c cs =>
    rw [List.getLast?_append_cons, List.getLast?_cons_cons] at hlast
    exact absurd (List.mem_of_getLast? hlast) hnot

theorem writtenAfter_eq (h : f.Numbered) {pre post : List BlockId}
    (hsplit : f.layout = pre ++ b :: post) : f.writtenAfter b = post.head?.getD .exit := by
  have hnodup := nodup_layout h
  rw [hsplit] at hnodup
  have hpre : b ∉ pre := fun hmem =>
    (List.nodup_append.mp hnodup).2.2 b hmem b List.mem_cons_self rfl
  rw [writtenAfter, hsplit, List.idxOf_append_of_notMem hpre, List.idxOf_cons_self,
    List.getElem?_append_right (by omega)]
  cases post <;> simp

end FlowGraph.Function
