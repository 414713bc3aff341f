import FlowGraph.Proofs.Graph.Discipline
import FlowGraph.Proofs.Reading.Language
import FlowGraph.Proofs.RoundTrip.Outline

/-!
# Functions written and read back

The text of a function reads back as a function of the same shape: the blocks are renumbered, and
what the text cannot say comes back as control that runs from each block into the next one.
-/

namespace FlowGraph

set_option autoImplicit false

open Text

def Encoding.mapTarget (φ : BlockId → BlockId) (e : Encoding) : Encoding :=
  e.withTarget (e.target?.map φ)

namespace Function

theorem spells_texts {sts : List Statement} (hsts : ∀ st ∈ sts, st.WellSpelled) :
    Spells (sts.map fun st => st.text.toList) sts := by
  induction sts with
  | nil => exact .nil
  | cons st sts ih =>
    have hst := hsts st List.mem_cons_self
    refine .statement ?_ (ih fun s hs => hsts s (List.mem_cons_of_mem st hs))
    rw [visible_of_isPlain (Statement.isPlain_text hst)]
    exact spelled_iff.mpr (Statement.tokens_text hst)

theorem wellSpelled_perform {op : NamedOp}
    (h : ∀ n ∈ op.operands ++ op.results ++ op.targets, isIdentifier n.toList = true) :
    (Statement.perform op).WellSpelled := by
  intro name hname
  cases op with
  | arith op lhs rhs result =>
    simp only [Statement.tokens, NamedOp.tokens, List.mem_cons, List.not_mem_nil, or_false,
      Token.word.injEq, reduceCtorEq, false_or] at hname
    rcases hname with rfl | rfl | rfl <;> exact h _ (by simp [NamedOp.operands, NamedOp.results])
  | branch cond target =>
    simp only [Statement.tokens, NamedOp.tokens, List.mem_cons, List.not_mem_nil, or_false,
      Token.word.injEq, reduceCtorEq, false_or] at hname
    rcases hname with rfl | rfl | rfl | rfl
    · decide
    · exact h _ (by simp [NamedOp.operands])
    · decide
    · exact h _ (by simp [NamedOp.targets])
  | nop =>
    simp only [Statement.tokens, NamedOp.tokens, List.mem_singleton, Token.word.injEq] at hname
    subst hname
    decide

theorem tokens_brace {c : Char} (hc : c = '\x7b' ∨ c = '\x7d') (n : Nat) :
    tokens (LineCursor.start n [c]).rest = [.symbol c] := by
  rcases hc with rfl | rfl
  · rw [LineCursor.start, visible_of_isPlain (by decide), tokens_symbol (by decide) (by decide),
      tokens_nil]
  · rw [LineCursor.start, visible_of_isPlain (by decide), tokens_symbol (by decide) (by decide),
      tokens_nil]

variable {f g : Function} {b : BlockId}

namespace Writable

theorem wellSpelled (h : f.Writable) : ∀ st ∈ f.statements, st.WellSpelled := by
  intro st hst
  rcases List.mem_append.mp hst with hst | hst
  · obtain ⟨name, hname, rfl⟩ := List.mem_map.mp hst
    intro n hn
    simp only [Statement.tokens, List.mem_cons, List.not_mem_nil, or_false, Token.word.injEq] at hn
    rcases hn with rfl | rfl
    · decide
    · exact h.names _ hname
  obtain ⟨s, hs, hst⟩ := List.mem_flatMap.mp hst
  have hlabel : ∀ n ∈ s.mentions, isIdentifier n.toList = true := by
    intro n hn
    obtain ⟨b, -, rfl⟩ := h.exists_of_mem_mentions hs hn
    exact b.isIdentifier_label
  have huses := h.ready.uses s hs
  rcases List.mem_cons.mp hst with rfl | hst
  · intro n hn
    simp only [Statement.tokens, List.mem_cons, List.not_mem_nil, or_false, Token.word.injEq,
      reduceCtorEq] at hn
    exact hlabel n (hn ▸ List.mem_cons_self)
  rcases List.mem_append.mp hst with hst | hst
  · obtain ⟨op, hop, rfl⟩ := List.mem_map.mp hst
    refine wellSpelled_perform ?_
    intro n hn
    rw [List.mem_append, List.mem_append] at hn
    rcases hn with (hn | hn) | hn
    · exact h.names n ((huses op hop).1 n hn)
    · exact h.names n ((huses op hop).2 n hn)
    · refine hlabel n (List.mem_cons_of_mem _ (List.mem_append_left _ ?_))
      exact List.mem_flatMap.mpr ⟨op, hop, hn⟩
  · obtain ⟨target, htarget, rfl⟩ := List.mem_map.mp hst
    intro n hn
    simp only [Statement.tokens, List.mem_cons, List.not_mem_nil, or_false, Token.word.injEq] at hn
    rcases hn with rfl | rfl
    · decide
    · exact hlabel _ (List.mem_cons_of_mem _ (List.mem_append_right _ htarget))

/-- A reader takes all statements, and what it has then is described by the outline. -/
theorem exists_draft (h : f.Writable) : ∃ d d', f.statements.foldlM Draft.take .start = some d ∧
    d.close = some d' ∧ f.settled.Valid ∧ f.outline.Valid ∧ Describes f.outline d' := by
  have hvalid : f.settled.Valid := Outline.valid_start.takeAll h.foldlM_take_statements
  have htaken := describes_start.takeAll Outline.valid_start f.statements
  rw [h.foldlM_take_statements] at htaken
  cases hd : f.statements.foldlM Draft.take .start with
  | none => simp [hd, Describes.Agree] at htaken
  | some d =>
    rw [hd] at htaken
    have hclosed := Describes.close htaken hvalid
    rw [h.close_settled] at hclosed
    cases hd' : d.close with
    | none => simp [hd', Describes.Agree] at hclosed
    | some d' =>
      rw [hd'] at hclosed
      exact ⟨d, d', rfl, hd', hvalid, hvalid.close h.close_settled, hclosed⟩

end Writable

/-- `g` is what the text of `f` reads as, with the blocks renamed by `φ`. -/
structure ReadBack (f g : Function) (φ : BlockId → BlockId) : Prop where
  registers : g.registers = f.registers
  entry : φ .entry = .entry
  exit : φ .exit = .exit
  injective : ∀ b c, f.Named b → f.Named c → φ b = φ c → b = c
  live : ∀ c, g.isLive c = true ↔ ∃ b, f.Named b ∧ φ b = c
  operations : ∀ b, f.isLive b = true → (g.instructionsOf (φ b)).map Instruction.operation =
    (f.instructionsOf b).map fun insn => insn.operation.mapTarget φ
  fallThrough : ∀ b, f.isLive b = true → g.fallThroughOf (φ b) =
    match f.fallThroughOf b with
    | some t => some (φ t)
    | none => if b = .exit then none else some (φ (f.writtenAfter b))
  /-- A destroyed entry comes back empty and falls through to the first written block. -/
  newEntry : f.isLive .entry = false → g.instructionsOf .entry = [] ∧
    g.fallThroughOf .entry = some (φ (f.layout.head?.getD .exit))
  /-- A destroyed exit comes back empty. -/
  newExit : f.isLive .exit = false → g.instructionsOf .exit = [] ∧ g.fallThroughOf .exit = none

namespace Writable

variable {d : Draft}

theorem registers_outline : f.outline.registers = f.registers := by
  rw [outline, Outline.registers_fallInto, settled, Outline.registers_settleAll]
  rfl

theorem registerOf_registerText (h : f.Writable) {insn : Instruction}
    (hinsn : insn ∈ f.instructionsOf b) {r : RegId} (hr : r ∈ insn.operation.registers) :
    f.outline.registerOf (f.registerText r) = r := by
  have hlt := h.uses b insn hinsn r hr
  rw [Outline.registerOf, registers_outline, registerText, registerName?,
    List.getElem?_eq_getElem hlt, Option.getD_some, h.names_nodup.idxOf_getElem]

theorem resolve_spell (h : f.Writable) {insn : Instruction} (hinsn : insn ∈ f.instructionsOf b) :
    (f.outline.resolve (f.spell insn.operation)).encode =
      insn.operation.mapTarget fun b => f.outline.blockOf b.label := by
  have hregister : ∀ r ∈ insn.operation.registers,
      f.outline.registerOf (f.registerText r) = r := fun r hr => h.registerOf_registerText hinsn hr
  have htargeted := h.targeted b insn hinsn
  rw [Instruction.isBranch, Instruction.target?] at htargeted
  obtain ⟨o, ho⟩ := (h.encoded.of_mem hinsn).exists_encode
  rw [ho] at hregister htargeted ⊢
  rw [Encoding.decode_encode]
  cases o with
  | arith op lhs rhs result =>
    have hlhs := hregister lhs (by simp [Encoding.registers, Operation.encode])
    have hrhs := hregister rhs (by simp [Encoding.registers, Operation.encode])
    have hresult := hregister result (by simp [Encoding.registers, Operation.encode])
    rw [spell, Outline.resolve, hlhs, hrhs, hresult]
    rfl
  | branch cond target =>
    have hcond := hregister cond (by simp [Encoding.registers, Operation.encode])
    cases target with
    | none => exact absurd rfl (htargeted rfl)
    | some t =>
      rw [spell, Outline.resolve, hcond]
      rfl
  | nop => rfl

theorem live_iff (h : f.Writable) (hv : f.settled.Valid) (ho : f.outline.Valid)
    (hd : Describes f.outline d) (c : BlockId) :
    d.function.isLive c = true ↔ ∃ b, f.Named b ∧ f.outline.blockOf b.label = c := by
  rw [hd.live]
  constructor
  · intro hc
    obtain ⟨b, hb, hlabel⟩ := (h.mem_labels_outline hv).mp (List.getElem_mem hc)
    refine ⟨b, hb, ?_⟩
    rw [hlabel, Outline.blockOf, ho.labels_nodup.idxOf_getElem]
  · rintro ⟨b, hb, rfl⟩
    exact List.idxOf_lt_length_iff.mpr ((h.mem_labels_outline hv).mpr ⟨b, hb, rfl⟩)

theorem readBack (h : f.Writable) (hv : f.settled.Valid) (ho : f.outline.Valid)
    (hd : Describes f.outline d) :
    ReadBack f d.function fun b => f.outline.blockOf b.label := by
  have hmem : ∀ b, f.Named b → b.label ∈ f.outline.labels :=
    fun b hb => (h.mem_labels_outline hv).mpr ⟨b, hb, rfl⟩
  have hentry : f.outline.blockOf BlockId.entry.label = .entry := Outline.blockOf_entry ho
  have hexit : f.outline.blockOf BlockId.exit.label = .exit := Outline.blockOf_exit ho
  have hbodies := fun b (hb : f.Named b) => hd.bodies b.label (hmem b hb)
  have hfalls := fun b (hb : f.Named b) => hd.falls b.label (hmem b hb)
  have hgone : ∀ b, f.Named b → f.isLive b = false →
      d.function.instructionsOf (f.outline.blockOf b.label) = [] ∧
      d.function.fallThroughOf (f.outline.blockOf b.label) =
        (if b = .entry then some (f.layout.head?.getD .exit).label else none).map
          f.outline.blockOf := by
    intro b hb hdead
    have hnot : b ∉ f.layout := fun hlisted =>
      absurd ((mem_layout_iff h.numbered).mp hlisted).1 (by simp [hdead])
    have hbody := hbodies b hb
    rw [bodies_outline_of_notMem hnot] at hbody
    refine ⟨List.map_eq_nil_iff.mp hbody, ?_⟩
    rw [hfalls b hb, h.falls_outline_of_notMem hnot]
  refine ⟨hd.registers.trans registers_outline, hentry, hexit, ?_, h.live_iff hv ho hd, ?_, ?_,
    ?_, ?_⟩
  · intro b c hb hc heq
    exact BlockId.label_inj ((Outline.blockOf_inj (hmem b hb)).mp heq)
  · intro b hb
    rw [hbodies b (.inl hb), h.bodies_outline hb, List.map_map]
    exact List.map_congr_left fun insn hinsn => h.resolve_spell hinsn
  · intro b hb
    rw [hfalls b (.inl hb), h.falls_outline hb]
    cases f.fallThroughOf b with
    | some t => rfl
    | none => by_cases hb : b = .exit <;> simp [hb]
  · intro hdead
    have hnew := hgone .entry (.inr (.inl rfl)) hdead
    rw [hentry] at hnew
    exact hnew
  · intro hdead
    have hnew := hgone .exit (.inr (.inr rfl)) hdead
    rw [hexit] at hnew
    exact hnew

theorem isPlain_of_mem_script (h : f.Writable) : ∀ l ∈ f.script, isPlain l.toList = true := by
  intro l hl
  rcases List.mem_cons.mp hl with rfl | hl
  · decide
  rcases List.mem_append.mp hl with hl | hl
  · obtain ⟨st, hst, rfl⟩ := List.mem_map.mp hl
    exact Statement.isPlain_text (h.wellSpelled st hst)
  · rw [List.mem_singleton.mp hl]
    decide

theorem exists_reads (h : f.Writable) : ∃ d g,
    LineReader.Reads lineReader (.body .start) (f.statements.map fun st => st.text.toList)
      (.body d) ∧
    (∀ n, ((Stage.body d).feed (.start n "\x7d".toList)).verdict = .done g) ∧
    (ReadBack f g fun b => f.outline.blockOf b.label) ∧ Accounted g fun _ _ => 0 := by
  obtain ⟨d, d', hd, hclose, hv, ho, hdescribes⟩ := h.exists_draft
  refine ⟨d, d'.function, (spells_texts h.wellSpelled).reads hd, ?_, h.readBack hv ho hdescribes,
    hdescribes.accounted⟩
  intro n
  exact Stage.feed_body_done_iff.mpr ⟨tokens_brace (.inr rfl) n, d', hclose, rfl⟩

theorem parse_labels (h : f.Writable) : ∃ g, (parse (page f.script)).outcome = .ok g ∧
    ReadBack f g fun b => f.outline.blockOf b.label := by
  obtain ⟨d, g, hreads, hdone, hback, -⟩ := h.exists_reads
  have hopen : ∀ n, (Stage.header.feed (.start n "\x7b".toList)).verdict = .more (.body .start) :=
    fun n => Stage.feed_header_more_iff.mpr (.inr ⟨tokens_brace (.inl rfl) n, rfl⟩)
  have hlines : f.script.map String.toList =
      ("\x7b".toList :: f.statements.map fun st => st.text.toList) ++ ["\x7d".toList] := by
    simp [script, Function.comp_def]
  refine ⟨g, ?_, hback⟩
  rw [parse, read, Cursor.ofText, lines_page h.isPlain_of_mem_script, hlines]
  exact LineReader.Reads.run_done (.cons hopen hreads) hdone 1 rfl

theorem parse_script (h : f.Writable) : ∃ g φ, (parse (page f.script)).outcome = .ok g ∧
    ReadBack f g φ := by
  obtain ⟨g, hparse, hback⟩ := h.parse_labels
  exact ⟨g, _, hparse, hback⟩

end Writable

theorem Accounted.writable {raw : RawEdges} (h : Accounted f raw) (hformed : f.WellEncoded)
    (hnodup : f.registers.Nodup)
    (hnames : ∀ name ∈ f.registers, isIdentifier name.toList = true)
    (huses : ∀ b, ∀ insn ∈ f.instructionsOf b, ∀ r ∈ insn.operation.registers,
      r.index < f.registers.length)
    (htargeted : f.Targeted) : f.Writable := by
  refine ⟨h.numbered, fun b t ht => (h.fallThrough_mem ht).2, ?_, hformed, htargeted, hnodup,
    hnames, huses⟩
  intro b insn hinsn t ht
  rw [instructionsOf_eq] at hinsn
  obtain ⟨i, hi, hfound⟩ := List.mem_filterMap.mp hinsn
  exact (h.mem_successorsOf (drivenCount_pos hi hfound ht)).2

/-- A built function can be written, and its text is read as the same function with its blocks
renamed. -/
theorem reached_reads_back {raw : RawEdges} (h : Reached f raw) (hnodup : f.registers.Nodup)
    (hnames : ∀ name ∈ f.registers, IsName name)
    (huses : ∀ b, ∀ insn ∈ f.instructionsOf b, ∀ r ∈ insn.operation.registers,
      r.index < f.registers.length)
    (htargeted : f.Targeted) :
    ∃ text g φ, f.toText = .ok text ∧ (parse text).outcome = .ok g ∧ ReadBack f g φ := by
  have hidentifiers : ∀ name ∈ f.registers, isIdentifier name.toList = true :=
    fun name hname => isName_iff.mp (hnames name hname)
  have hwritable : f.Writable :=
    h.accounted.writable h.wellEncoded hnodup hidentifiers huses htargeted
  obtain ⟨g, φ, hparse, hback⟩ := hwritable.parse_script
  exact ⟨page f.script, g, φ, (emits_write hnodup h.wellEncoded htargeted).toText, hparse, hback⟩

/-- A function with a register called `goto`, a gap in the numbers of its blocks, a loop, a raw edge
and a block without a fall-through. -/
theorem reads_back_after_destroy : ∃ f raw, Reached f raw ∧
    f.registers = ["goto", "x"] ∧ f.layout = [⟨0⟩, ⟨3⟩, ⟨4⟩] ∧ f.fallThroughOf ⟨3⟩ = none ∧
    ∃ text g φ, f.toText = .ok text ∧ (parse text).outcome = .ok g ∧ ReadBack f g φ := by
  have hview : (empty.runOnRecord (fun _ _ => 0) [.addRegister "goto", .addRegister "x", .addBlock,
      .addBlock, .addBlock, .append ⟨0⟩ (.branch ⟨0⟩ (some ⟨4⟩)), .setFallThrough ⟨0⟩ (some ⟨2⟩),
      .setFallThrough ⟨2⟩ (some ⟨3⟩), .append ⟨3⟩ (.arith .add ⟨0⟩ ⟨1⟩ ⟨0⟩),
      .setFallThrough ⟨4⟩ (some ⟨4⟩), .addEdge ⟨0⟩ ⟨0⟩, .destroy ⟨2⟩]).map
        (fun r => (r.1.registers, r.1.layout, r.1.fallThroughOf ⟨3⟩,
          r.1.order.flatMap fun b => (r.1.instructionsOf b).map Instruction.operation)) =
      some (["goto", "x"], [⟨0⟩, ⟨3⟩, ⟨4⟩], none,
        [.branch ⟨0⟩ (some ⟨4⟩), .arith .add ⟨0⟩ ⟨1⟩ ⟨0⟩]) := by
    decide +kernel
  obtain ⟨⟨f, raw⟩, hrun, hf⟩ := Option.map_eq_some_iff.mp hview
  obtain ⟨hregisters, hf⟩ := Prod.mk.inj hf
  obtain ⟨hlayout, hf⟩ := Prod.mk.inj hf
  obtain ⟨hfall, hoperations⟩ := Prod.mk.inj hf
  dsimp only at hregisters hlayout hfall hoperations
  have h : Reached f raw := Reached.new.runOnRecord hrun
  have hmem : ∀ b, ∀ insn ∈ f.instructionsOf b, insn.operation = .branch ⟨0⟩ (some ⟨4⟩) ∨
      insn.operation = .arith .add ⟨0⟩ ⟨1⟩ ⟨0⟩ := by
    intro b insn hinsn
    have hb : b ∈ f.order :=
      (h.accounted.numbered.mem_order b).mpr (isLive_of_mem_instructionsOf hinsn)
    have hop : insn.operation ∈
        f.order.flatMap fun b => (f.instructionsOf b).map Instruction.operation :=
      List.mem_flatMap.mpr ⟨b, hb, List.mem_map_of_mem hinsn⟩
    rw [hoperations] at hop
    simpa using hop
  refine ⟨f, raw, h, hregisters, hlayout, hfall, reached_reads_back h ?_ ?_ ?_ ?_⟩
  · rw [hregisters]
    decide
  · intro name hname
    rw [hregisters] at hname
    refine isName_iff.mpr ?_
    rcases List.mem_cons.mp hname with rfl | hname
    · decide
    · rw [List.mem_singleton.mp hname]
      decide
  · intro b insn hinsn r hr
    rw [hregisters]
    rcases hmem b insn hinsn with hop | hop
    · rw [hop] at hr
      revert r
      decide
    · rw [hop] at hr
      revert r
      decide
  · intro b insn hinsn _
    rcases hmem b insn hinsn with hop | hop
    · simp [Instruction.target?, hop, Encoding.target?]
    · simp_all [Instruction.isBranch, Encoding.isBranch]

end Function

end FlowGraph
