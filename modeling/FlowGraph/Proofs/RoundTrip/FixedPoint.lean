import FlowGraph.Proofs.RoundTrip.Numbering

/-!
# Texts that are written again

A text that is read and written over and over settles after as many rounds as the function has
blocks. If the first `m` blocks are mentioned in the order of their numbers, they keep these
numbers, and so their sections mention the other blocks in the same places again. That gives the
block `m` its number in the next round.
-/

namespace FlowGraph.Function

open Text

set_option autoImplicit false

variable {f g : Function} {φ : BlockId → BlockId} {b : BlockId} {bs : List BlockId} {m n : Nat}

def numbers (n : Nat) : List BlockId := (List.range n).map BlockId.mk

theorem numbers_succ (n : Nat) : numbers (n + 1) = numbers n ++ [⟨n⟩] := by
  rw [numbers, List.range_succ, List.map_append]
  rfl

theorem exists_numbers_eq_cons (h : 0 < n) : ∃ rest, numbers n = .entry :: rest := by
  cases n with
  | zero => omega
  | succ n =>
    rw [numbers, List.range_succ_eq_map, List.map_cons]
    exact ⟨_, rfl⟩

theorem length_numbers (n : Nat) : (numbers n).length = n := by
  rw [numbers, List.length_map, List.length_range]

theorem mem_numbers : b ∈ numbers n ↔ b.index < n := by
  rw [numbers, List.mem_map]
  constructor
  · rintro ⟨k, hk, rfl⟩
    exact List.mem_range.mp hk
  · intro hb
    exact ⟨b.index, List.mem_range.mpr hb, rfl⟩

theorem nodup_numbers (n : Nat) : (numbers n).Nodup :=
  List.nodup_range.map fun _ _ heq => congrArg BlockId.index heq

theorem isPrefix_numbers (h : m ≤ n) : numbers m <+: numbers n := by
  induction h with
  | refl => exact List.prefix_refl _
  | step _ ih =>
    rw [numbers_succ]
    exact ih.trans (List.prefix_append _ _)

theorem idxOf_numbers (h : b.index < n) : (numbers n).idxOf b = b.index := by
  have hlt : b.index < (numbers n).length := (length_numbers n).symm ▸ h
  have hget : (numbers n)[b.index] = b := by simp [numbers]
  have hidx := (nodup_numbers n).idxOf_getElem b.index hlt
  rwa [hget] at hidx

def before (n : Nat) : List BlockId := (numbers n).filter (· ≠ .exit)

theorem before_succ (h : 2 ≤ n) : before (n + 1) = before n ++ [⟨n⟩] := by
  have hexit : (⟨n⟩ : BlockId) ≠ .exit := by
    intro heq
    have hindex : n = 1 := congrArg BlockId.index heq
    omega
  rw [before, numbers_succ, List.filter_append, List.filter_singleton]
  simp [hexit, before]

theorem nodup_numbering (f : Function) : f.numbering.Nodup := nodup_eraseDups _

/-- Blocks that are mentioned in order keep their numbers. -/
theorem renumber_of_lt (h : numbers m <+: f.numbering) (hb : b.index < m) :
    f.renumber b = b := by
  obtain ⟨rest, hrest⟩ := h
  rw [renumber, ← hrest, List.idxOf_append_of_mem (mem_numbers.mpr hb), idxOf_numbers hb]

theorem map_renumber {l : List BlockId} (h : l <+: f.numbering) :
    l.map f.renumber = numbers l.length := by
  obtain ⟨rest, hrest⟩ := h
  have hnodup := f.nodup_numbering
  refine List.ext_getElem (by rw [List.length_map, length_numbers]) ?_
  intro i hi _
  rw [List.length_map] at hi
  have hlt : i < f.numbering.length := by
    rw [← hrest, List.length_append]
    omega
  have hget : f.numbering[i] = l[i] := by simp [← hrest, hi]
  have hidx := hnodup.idxOf_getElem i hlt
  rw [hget] at hidx
  simp [renumber, hidx, numbers]

theorem renumber_inj {c : BlockId} (hb : b ∈ f.numbering) (h : f.renumber b = f.renumber c) :
    b = c :=
  (List.idxOf_inj hb).mp (congrArg BlockId.index h)

theorem isPrefix_numbering (f : Function) : numbers 2 <+: f.numbering :=
  prefix_eraseDups_append (l := [BlockId.entry, .exit])

/-- An accepted function whose blocks are numbered without gaps. -/
structure Compact (f : Function) : Prop extends Accepted f where
  live : ∀ b, f.isLive b = true ↔ b.index < f.blockCount

theorem Stage.Sound.compact {stage : Stage} {line : LineCursor} (hs : stage.Sound)
    (h : (stage.feed line).verdict = .done f) : f.Compact := by
  refine ⟨hs.done h, ?_⟩
  obtain ⟨o, d, -, -, -, hd, rfl⟩ := hs.exists_describes h
  have horder := hd.accounted.numbered.order_eq hd.live
  intro b
  rw [hd.live, blockCount, horder, List.length_map, List.length_range]

theorem compact_of_parse {text : String} (h : (parse text).outcome = .ok f) : f.Compact := by
  refine LineReader.run_invariant Stage.Sound (r := lineReader) (s := .header)
    (fun s line s' hs hmore => hs.more hmore) (fun s line v hs hdone => hs.compact hdone) ?_ trivial
    h
  intro s line v _ hfinish
  cases hfinish

namespace Compact

theorem order_eq (h : f.Compact) : f.order = numbers f.blockCount :=
  h.accounted.numbered.order_eq h.live

theorem two_le (h : f.Compact) : 2 ≤ f.blockCount :=
  (h.live .exit).mp h.complete.exit

/-- The blocks but the exit are written in order, and then the exit if it has a place. -/
theorem layout_eq (h : f.Compact) :
    f.layout = before f.blockCount ++ if f.writesExit then [BlockId.exit] else [] := by
  have hpos : 0 < f.blockCount := Nat.lt_of_lt_of_le Nat.two_pos h.two_le
  obtain ⟨rest, hrest⟩ := exists_numbers_eq_cons hpos
  have hnodup := nodup_numbers f.blockCount
  rw [hrest] at hnodup
  have hmiddle : rest.filter (fun b => b ≠ .entry && b ≠ .exit) = rest.filter (· ≠ .exit) := by
    refine List.filter_congr ?_
    intro b hb
    have hentry : b ≠ .entry := ne_of_mem_of_not_mem hb (List.nodup_cons.mp hnodup).1
    simp [hentry]
  rw [Function.layout_eq h.accounted.numbered, if_pos h.complete.entry, h.order_eq, before, hrest,
    List.filter_cons_of_neg (by simp), List.filter_cons_of_pos (by decide), hmiddle]
  rfl

theorem isPrefix_layout (h : f.Compact) (hm : m ≤ f.blockCount) : before m <+: f.layout := by
  rw [h.layout_eq]
  exact ((isPrefix_numbers hm).filter _).trans (List.prefix_append _ _)

theorem isLive_of_mem_before (h : f.Compact) (hm : m ≤ f.blockCount) (hb : b ∈ before m) :
    f.isLive b = true := by
  have hlt := mem_numbers.mp (List.mem_filter.mp hb).1
  rw [h.live]
  omega

end Compact

theorem mentioned_append (f : Function) (bs cs : List BlockId) :
    f.mentioned (bs ++ cs) = f.mentioned bs ++ f.mentioned cs := List.flatMap_append

theorem mem_mentioned (hb : b ∈ bs) : b ∈ f.mentioned bs :=
  List.mem_flatMap.mpr ⟨b, hb, List.mem_cons_self⟩

theorem Isomorphic.mentioned_map (h : Isomorphic f g φ) (hbs : ∀ b ∈ bs, f.isLive b = true) :
    g.mentioned (bs.map φ) = (f.mentioned bs).map φ := by
  rw [mentioned, mentioned, List.flatMap_map, List.map_flatMap]
  refine List.flatMap_congr ?_
  intro b hb
  have hlive := hbs b hb
  have htargets : g.branchTargets (φ b) = (f.branchTargets b).map φ :=
    targets_eq_map (h.operations b hlive)
  have hfall : (g.fallThroughOf (φ b)).toList = (f.fallThroughOf b).toList.map φ := by
    rw [h.fallThrough b hlive]
    cases f.fallThroughOf b <;> rfl
  rw [htargets, hfall, List.map_cons, List.map_append]

/-- The blocks that are mentioned before the section of the block `n`. -/
def opening (f : Function) (n : Nat) : List BlockId := .entry :: .exit :: f.mentioned (before n)

theorem mem_opening (hb : b.index < n) : b ∈ f.opening n := by
  by_cases hexit : b = .exit
  · simp [opening, hexit]
  · have hmem : b ∈ before n := List.mem_filter.mpr ⟨mem_numbers.mpr hb, by simp [hexit]⟩
    simp [opening, mem_mentioned hmem]

theorem Compact.exists_numbering (h : f.Compact) (hm : m ≤ f.blockCount) :
    ∃ rest, f.numbering = (f.opening m ++ f.mentioned rest).eraseDups := by
  obtain ⟨rest, hrest⟩ := h.isPrefix_layout hm
  refine ⟨rest, ?_⟩
  rw [numbering, ← hrest, mentioned_append]
  rfl

theorem opening_succ (f : Function) (h : 2 ≤ n) :
    ∃ rest, f.opening (n + 1) = f.opening n ++ ⟨n⟩ :: rest := by
  rw [opening, before_succ h, mentioned_append]
  exact ⟨_, rfl⟩

/-- If the first `m` blocks are mentioned in order, their sections mention the same blocks in the
next round, up to the new numbers. -/
theorem Isomorphic.opening_map (h : Isomorphic f g f.renumber)
    (hlive : ∀ b ∈ before m, f.isLive b = true) (hm : numbers m <+: f.numbering) :
    g.opening m = (f.opening m).map f.renumber := by
  have hsame : (before m).map f.renumber = before m := by
    refine (List.map_congr_left ?_).trans (List.map_id _)
    intro b hb
    exact renumber_of_lt hm (mem_numbers.mp (List.mem_filter.mp hb).1)
  have hmentioned : g.mentioned ((before m).map f.renumber) =
      (f.mentioned (before m)).map f.renumber := h.mentioned_map hlive
  rw [opening, opening, List.map_cons, List.map_cons, h.entry, h.exit, ← hmentioned, hsame]

namespace Compact

theorem isPrefix_opening (h : f.Compact) (hm : m ≤ f.blockCount) :
    (f.opening m).eraseDups <+: f.numbering := by
  obtain ⟨rest, hrest⟩ := h.exists_numbering hm
  rw [hrest]
  exact prefix_eraseDups_append

/-- The numbers of the blocks that come up before a section are the first ones. -/
theorem exists_opening_eq (h : f.Compact) (hiso : Isomorphic f g f.renumber)
    (hm : m ≤ f.blockCount) (hp : numbers m <+: f.numbering) :
    ∃ k, (g.opening m).eraseDups = numbers k := by
  have hfirst := h.isPrefix_opening hm
  have hmem : ∀ x ∈ f.opening m, x ∈ f.numbering :=
    fun x hx => hfirst.subset (List.mem_eraseDups.mpr hx)
  refine ⟨(f.opening m).eraseDups.length, ?_⟩
  rw [hiso.opening_map (fun b hb => h.isLive_of_mem_before hm hb) hp,
    eraseDups_map fun x hx y _ heq => renumber_inj (hmem x hx) heq, map_renumber hfirst]

/-- One more block is mentioned in order. -/
theorem isPrefix_succ (h : f.Compact) (hg : g.Compact) (hiso : Isomorphic f g f.renumber)
    (hm : 2 ≤ m) (hlt : m < f.blockCount) (hp : numbers m <+: f.numbering) :
    numbers (m + 1) <+: g.numbering := by
  obtain ⟨k, hk⟩ := h.exists_opening_eq hiso (Nat.le_of_lt hlt) hp
  have hmem : ∀ b, b ∈ g.opening m ↔ b.index < k := by
    intro b
    rw [← List.mem_eraseDups, hk, mem_numbers]
  have hle : m ≤ k := by
    by_contra hlt
    have hself := (hmem ⟨k⟩).mp (mem_opening (Nat.lt_of_not_le hlt))
    exact Nat.lt_irrefl k hself
  have hcount : m + 1 ≤ g.blockCount := by
    rw [hiso.blockCount]
    exact hlt
  obtain ⟨rest, hrest⟩ := g.opening_succ hm
  have hopening := hg.isPrefix_opening hcount
  rw [hrest, List.append_cons] at hopening
  refine List.IsPrefix.trans ?_ (prefix_eraseDups_append.trans hopening)
  rcases Nat.eq_or_lt_of_le hle with rfl | hmore
  · have hnew : (⟨m⟩ : BlockId) ∉ g.opening m :=
      fun hb => Nat.lt_irrefl m ((hmem ⟨m⟩).mp hb)
    have hnext : numbers (m + 1) = (g.opening m ++ [BlockId.mk m]).eraseDups := by
      rw [eraseDups_concat, hk, if_neg hnew, numbers_succ]
    exact ⟨[], by rw [List.append_nil, hnext]⟩
  · rw [eraseDups_concat, if_pos ((hmem ⟨m⟩).mpr hmore), hk]
    exact isPrefix_numbers hmore

end Compact

theorem mapTarget_of_fixed {e : Encoding}
    (h : ∀ t, e.target? = some t → φ t = t) : e.mapTarget φ = e := by
  have htarget : e.target?.map φ = e.target? := by
    cases ht : e.target? with
    | none => rfl
    | some t => rw [Option.map_some, h t ht]
  rw [Encoding.mapTarget, htarget, Encoding.withTarget_target?]

theorem sectionsAt_congr (hregs : g.registers = f.registers)
    (hops : ∀ b ∈ bs, (g.instructionsOf b).map Instruction.operation =
      (f.instructionsOf b).map Instruction.operation)
    (hfall : ∀ b ∈ bs, g.fallThroughOf b = f.fallThroughOf b) :
    g.sectionsAt bs = f.sectionsAt bs := by
  have hspell : g.spell = f.spell := by
    funext o
    simp only [spell, registerText, registerName?, hregs]
  induction bs with
  | nil => rfl
  | cons b bs ih =>
    have hspelled : ((g.instructionsOf b).map fun insn => g.spell insn.operation) =
        (f.instructionsOf b).map fun insn => f.spell insn.operation := by
      have hb := congrArg (List.map fun e => f.spell e.decode) (hops b List.mem_cons_self)
      rw [List.map_map, List.map_map] at hb
      rw [hspell]
      exact hb
    rw [sectionsAt, sectionsAt, ih (fun c hc => hops c (List.mem_cons_of_mem b hc))
        (fun c hc => hfall c (List.mem_cons_of_mem b hc)), sectionAt, sectionAt, hspelled,
      writtenGoto, writtenGoto, hfall b List.mem_cons_self]

/-- Functions that differ only in what is not written have the same text. -/
theorem script_congr (hf : f.Numbered) (hg : g.Numbered) (hregs : g.registers = f.registers)
    (hlayout : g.layout = f.layout)
    (hops : ∀ b ∈ f.layout, (g.instructionsOf b).map Instruction.operation =
      (f.instructionsOf b).map Instruction.operation)
    (hfall : ∀ b ∈ f.layout, g.fallThroughOf b = f.fallThroughOf b) : g.script = f.script := by
  rw [script, script, statements, statements, sections_eq hf, sections_eq hg, hlayout, hregs,
    sectionsAt_congr hregs hops hfall]

namespace Compact

theorem layout_congr (h : f.Compact) (hg : g.Compact) (hcount : g.blockCount = f.blockCount)
    (hops : (g.instructionsOf .exit).map Instruction.operation =
      (f.instructionsOf .exit).map Instruction.operation)
    (hfall : g.fallThroughOf .exit = f.fallThroughOf .exit) : g.layout = f.layout := by
  have hwrites : g.writesExit = f.writesExit := by
    have hnil : g.instructionsOf .exit = [] ↔ f.instructionsOf .exit = [] := by
      rw [← List.map_eq_nil_iff, hops, List.map_eq_nil_iff]
    rw [Bool.eq_iff_iff, writesExit, writesExit, hg.accounted.owned.hasContent_iff,
      h.accounted.owned.hasContent_iff, hnil, hfall]
  rw [h.layout_eq, hg.layout_eq, hcount, hwrites]

/-- If all blocks are mentioned in order, the text says the same in the next round. -/
theorem script_eq (h : f.Compact) (hg : g.Compact) (hiso : Isomorphic f g f.renumber)
    (hp : numbers f.blockCount <+: f.numbering) : g.script = f.script := by
  have hfix : ∀ b, f.isLive b = true → f.renumber b = b :=
    fun b hb => renumber_of_lt hp ((h.live b).mp hb)
  have hops : ∀ b, f.isLive b = true → (g.instructionsOf b).map Instruction.operation =
      (f.instructionsOf b).map Instruction.operation := by
    intro b hb
    have hsame := hiso.operations b hb
    rw [hfix b hb] at hsame
    rw [hsame]
    refine List.map_congr_left ?_
    intro insn hinsn
    exact mapTarget_of_fixed fun t ht => hfix t (h.writable.targets b insn hinsn t ht)
  have hfall : ∀ b, f.isLive b = true → g.fallThroughOf b = f.fallThroughOf b := by
    intro b hb
    have hsame := hiso.fallThrough b hb
    rw [hfix b hb] at hsame
    rw [hsame]
    cases ht : f.fallThroughOf b with
    | none => rfl
    | some t => rw [Option.map_some, hfix t (h.writable.fallThrough b t ht)]
  have hexit := h.complete.exit
  have hlive : ∀ b ∈ f.layout, f.isLive b = true :=
    fun b hb => ((mem_layout_iff h.accounted.numbered).mp hb).1
  exact script_congr h.accounted.numbered hg.accounted.numbered hiso.registers
    (h.layout_congr hg hiso.blockCount (hops _ hexit) (hfall _ hexit))
    (fun b hb => hops b (hlive b hb)) (fun b hb => hfall b (hlive b hb))

end Compact

def reread (f : Function) : Function := (parse (page f.script)).outcome.toOption.getD f

theorem Compact.toText (h : f.Compact) : f.toText = .ok (page f.script) :=
  (emits_write h.writable.names_nodup h.writable.encoded h.writable.targeted).toText

theorem Compact.parse_script (h : f.Compact) : (parse (page f.script)).outcome = .ok f.reread ∧
    Isomorphic f f.reread f.renumber := by
  obtain ⟨g, hparse, hback⟩ := h.writable.parse_renumbered
  have hreread : f.reread = g := by
    rw [reread, hparse]
    rfl
  rw [hreread]
  exact ⟨hparse, hback.isomorphic h.accounted (compact_of_parse hparse).accounted h.complete⟩

/-- `g` is what `f` can have become after `i` rounds. -/
structure Round (f : Function) (i : Nat) (g : Function) : Prop where
  compact : g.Compact
  blockCount : g.blockCount = f.blockCount
  inOrder : ∀ m ≤ f.blockCount, m ≤ i + 2 → numbers m <+: g.numbering

namespace Round

variable {i : Nat}

theorem start (h : f.Compact) : Round f 0 f := by
  refine ⟨h, rfl, ?_⟩
  intro m _ hm
  exact (isPrefix_numbers hm).trans (isPrefix_numbering f)

theorem next (h : Round f i g) : Round f (i + 1) g.reread := by
  obtain ⟨hparse, hiso⟩ := h.compact.parse_script
  have hcompact := compact_of_parse hparse
  refine ⟨hcompact, hiso.blockCount.trans h.blockCount, ?_⟩
  intro m hle hm
  by_cases htwo : m ≤ 2
  · exact (isPrefix_numbers htwo).trans (isPrefix_numbering _)
  · obtain ⟨k, rfl⟩ : ∃ k, m = k + 1 := ⟨m - 1, by omega⟩
    have hlt : k < g.blockCount := by
      rw [h.blockCount]
      exact hle
    exact h.compact.isPrefix_succ hcompact hiso (by omega) hlt (h.inOrder k (by omega) (by omega))

theorem iterate (h : f.Compact) (i : Nat) : Round f i (reread^[i] f) := by
  induction i with
  | zero => exact start h
  | succ i ih =>
    rw [Function.iterate_succ_apply']
    exact ih.next

theorem script_reread (h : Round f i g) (hi : f.blockCount ≤ i) : g.reread.script = g.script := by
  obtain ⟨hparse, hiso⟩ := h.compact.parse_script
  refine h.compact.script_eq (compact_of_parse hparse) hiso ?_
  rw [h.blockCount]
  exact h.inOrder _ (Nat.le_refl _) (by omega)

end Round

/-- Reading and writing over and over never fails, and the text settles after as many rounds as
there are blocks. -/
theorem written_texts_settle {text : String}
    (h : (Reader.read {} (.ofText text.toList)).2.result.outcome = .ok f) :
    ∃ t : Nat → String, f.toText = .ok (t 0) ∧
      (∀ i, ∃ g, (Reader.read {} (.ofText (t i).toList)).2.result.outcome = .ok g ∧
        g.toText = .ok (t (i + 1))) ∧
      ∀ i, f.blockCount ≤ i → t (i + 1) = t i := by
  rw [Reader.read_idle] at h
  have hcompact : f.Compact := compact_of_parse h
  refine ⟨fun i => page (reread^[i] f).script, hcompact.toText, ?_, ?_⟩
  · intro i
    have hround := Round.iterate hcompact i
    refine ⟨(reread^[i] f).reread, ?_, ?_⟩
    · rw [Reader.read_idle]
      exact hround.compact.parse_script.1
    · simp only [Function.iterate_succ_apply']
      exact hround.next.compact.toText
  · intro i hi
    simp only [Function.iterate_succ_apply']
    rw [(Round.iterate hcompact i).script_reread hi]

/-- The blocks `c`, `d` and `e` follow each other below `b`. One round brings `d` before `b`, and
the next one brings `e` there. -/
theorem written_chain_settles :
    ∃ f, (Reader.read {} (.ofText ("\x7b\n  reg x\n  goto c\nb:\n  if (x) goto b\n" ++
        "  goto exit\nc:\n  goto d\nd:\n  goto e\ne:\n  nop\n\x7d\n").toList)
        ).2.result.outcome = .ok f ∧
      f.numbering = [⟨0⟩, ⟨1⟩, ⟨2⟩, ⟨4⟩, ⟨3⟩, ⟨5⟩] ∧
      ∃ t : Nat → String, f.toText = .ok (t 0) ∧
        (∀ i, ∃ g, (Reader.read {} (.ofText (t i).toList)).2.result.outcome = .ok g ∧
          g.toText = .ok (t (i + 1))) ∧
        ∀ i, 6 ≤ i → t (i + 1) = t i := by
  have hview : ((Reader.read {} (.ofText ("\x7b\n  reg x\n  goto c\nb:\n  if (x) goto b\n" ++
      "  goto exit\nc:\n  goto d\nd:\n  goto e\ne:\n  nop\n\x7d\n").toList)
      ).2.result.outcome.toOption.map fun f => (f.blockCount, f.numbering)) =
      some (6, [⟨0⟩, ⟨1⟩, ⟨2⟩, ⟨4⟩, ⟨3⟩, ⟨5⟩]) := by
    decide +kernel
  obtain ⟨f, hf, hfacts⟩ := Option.map_eq_some_iff.mp hview
  obtain ⟨hcount, hnumbering⟩ := Prod.mk.inj hfacts
  have hread := eq_ok_of_toOption hf
  have hsettles := written_texts_settle hread
  rw [hcount] at hsettles
  exact ⟨f, hread, hnumbering, hsettles⟩

end FlowGraph.Function
