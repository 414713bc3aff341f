import FlowGraph.Function.Writing
import FlowGraph.Proofs.Graph.Encodings
import FlowGraph.Proofs.Reading.Statements
import FlowGraph.Proofs.Text.Pages

/-!
# Sections

The text of a function is a page of statements: its registers, and then a section for each written
block, which is its label, its operations and perhaps a `goto`. The tokens of a written statement
are the ones that a reader takes for this statement.
-/

namespace FlowGraph

set_option autoImplicit false

open Text

theorem Text.isIdRest_of_isDigit {c : Char} (h : c.isDigit = true) : isIdRest c = true := by
  have hn : isNumeric c = true := by
    simp only [Char.isDigit, Bool.and_eq_true, decide_eq_true_eq] at h
    have hlow : 48 ≤ c.toNat := h.1
    have hhigh : c.toNat ≤ 57 := h.2
    rw [isNumeric, numericRanges, inRanges, if_neg (by omega), decide_eq_true hhigh, Bool.true_or]
  simp [isIdRest, hn]

namespace BlockId

theorem toList_text (b : BlockId) : b.text.toList = '_' :: Nat.toDigits 10 b.index := by
  rw [text, String.toList_append, Nat.toList_repr]
  rfl

theorem isIdentifier_label (b : BlockId) : isIdentifier b.label.toList = true := by
  unfold label
  split
  · decide
  · split
    · decide
    · rw [toList_text, isIdentifier, Bool.and_eq_true, List.all_eq_true]
      refine ⟨by decide, ?_⟩
      intro c hc
      exact isIdRest_of_isDigit (Nat.isDigit_of_mem_toDigits (by decide) (by decide) hc)

theorem text_inj {a b : BlockId} (h : a.text = b.text) : a = b := by
  have hlist := congrArg String.toList h
  rw [toList_text, toList_text, List.cons.injEq] at hlist
  have hindex := congrArg (fun ds => Nat.ofDigitChars 10 ds 0) hlist.2
  simp only [Nat.ofDigitChars_ten_toDigits] at hindex
  cases a
  cases b
  exact congrArg mk hindex

/-- No number is written like a word. -/
theorem text_ne {b : BlockId} {word : String} (h : word.toList.head? ≠ some '_') :
    b.text ≠ word := by
  rintro rfl
  exact h (by rw [toList_text, List.head?_cons])

theorem label_inj {a b : BlockId} (h : a.label = b.label) : a = b := by
  have hentry : ∀ c : BlockId, c.text ≠ "entry" := fun c => text_ne (by decide)
  have hexit : ∀ c : BlockId, c.text ≠ "exit" := fun c => text_ne (by decide)
  unfold label at h
  split at h
  · next ha =>
    split at h
    · next hb => exact ha.trans hb.symm
    · split at h
      · exact absurd h (by decide)
      · exact absurd h.symm (hentry b)
  · split at h
    · next ha =>
      split at h
      · exact absurd h (by decide)
      · split at h
        · next hb => exact ha.trans hb.symm
        · exact absurd h.symm (hexit b)
    · split at h
      · exact absurd h (hentry a)
      · split at h
        · exact absurd h (hexit a)
        · exact text_inj h

end BlockId

namespace Function

def NamedOp.text : NamedOp → String
  | arith op lhs rhs result => result ++ " := " ++ lhs ++ (" " ++ op.text ++ " ") ++ rhs
  | branch cond target => "if (" ++ cond ++ (") goto " ++ target)
  | nop => "nop"

def Statement.text : Statement → String
  | label name => name ++ ":"
  | register name => "  reg " ++ name
  | perform op => "  " ++ op.text
  | goto target => "  goto " ++ target

def Statement.WellSpelled (st : Statement) : Prop :=
  ∀ name, .word name ∈ st.tokens → isIdentifier name.toList = true

theorem tokens_identifier_cons {name : String} (h : isIdentifier name.toList = true) {c : Char}
    (hc : isIdRest c = false) (cs : List Char) :
    tokens (name.toList ++ c :: cs) = .word name :: tokens (c :: cs) :=
  tokens_identifier_append h (by rw [endsWord, hc]; rfl)

theorem NamedOp.tokens_text {op : NamedOp} (h : (Statement.perform op).WellSpelled) :
    Text.tokens op.text.toList = op.tokens := by
  have hblank : isBlank ' ' = true := by decide
  have hspace : isIdRest ' ' = false := by decide
  cases op with
  | arith op lhs rhs result =>
    have hresult := h result (by simp [Statement.tokens, NamedOp.tokens])
    have hlhs := h lhs (by simp [Statement.tokens, NamedOp.tokens])
    have hrhs := h rhs (by simp [Statement.tokens, NamedOp.tokens])
    have hop : isBlank op.symbol = false ∧ isIdStart op.symbol = false := by
      cases op <;> decide
    simp only [NamedOp.text, ArithOp.text, String.toList_append, String.toList_singleton,
      List.append_assoc]
    change Text.tokens (result.toList ++ ' ' :: ':' :: '=' :: ' ' ::
      (lhs.toList ++ ' ' :: op.symbol :: ' ' :: rhs.toList)) = _
    rw [tokens_identifier_cons hresult hspace, tokens_blank hblank,
      tokens_symbol (by decide) (by decide), tokens_symbol (by decide) (by decide),
      tokens_blank hblank, tokens_identifier_cons hlhs hspace, tokens_blank hblank,
      tokens_symbol hop.1 hop.2, tokens_blank hblank, tokens_of_isIdentifier hrhs]
    rfl
  | branch cond target =>
    have hcond := h cond (by simp [Statement.tokens, NamedOp.tokens])
    have htarget := h target (by simp [Statement.tokens, NamedOp.tokens])
    have hif : isIdentifier "if".toList = true := by decide
    have hgoto : isIdentifier "goto".toList = true := by decide
    simp only [NamedOp.text, String.toList_append, List.append_assoc]
    change Text.tokens ("if".toList ++ ' ' :: '(' ::
      (cond.toList ++ ')' :: ' ' :: ("goto".toList ++ ' ' :: target.toList))) = _
    rw [tokens_identifier_cons hif hspace, tokens_blank hblank,
      tokens_symbol (by decide) (by decide), tokens_identifier_cons hcond (by decide),
      tokens_symbol (by decide) (by decide), tokens_blank hblank,
      tokens_identifier_cons hgoto hspace, tokens_blank hblank, tokens_of_isIdentifier htarget]
    rfl
  | nop => exact @tokens_of_isIdentifier "nop" (by decide)

theorem Statement.tokens_text {st : Statement} (h : st.WellSpelled) :
    Text.tokens st.text.toList = st.tokens := by
  have hblank : isBlank ' ' = true := by decide
  have hspace : isIdRest ' ' = false := by decide
  cases st with
  | label name =>
    have hname := h name (by simp [Statement.tokens])
    rw [Statement.text, String.toList_append]
    change Text.tokens (name.toList ++ [':']) = _
    rw [tokens_identifier_cons hname (by decide), tokens_symbol (by decide) (by decide), tokens_nil]
    rfl
  | register name =>
    have hname := h name (by simp [Statement.tokens])
    have hreg : isIdentifier "reg".toList = true := by decide
    rw [Statement.text, String.toList_append]
    change Text.tokens (' ' :: ' ' :: ("reg".toList ++ ' ' :: name.toList)) = _
    rw [tokens_blank hblank, tokens_blank hblank, tokens_identifier_cons hreg hspace,
      tokens_blank hblank, tokens_of_isIdentifier hname]
    rfl
  | perform op =>
    rw [Statement.text, String.toList_append]
    change Text.tokens (' ' :: ' ' :: op.text.toList) = _
    rw [tokens_blank hblank, tokens_blank hblank, NamedOp.tokens_text h]
    rfl
  | goto target =>
    have htarget := h target (by simp [Statement.tokens])
    have hgoto : isIdentifier "goto".toList = true := by decide
    rw [Statement.text, String.toList_append]
    change Text.tokens (' ' :: ' ' :: ("goto".toList ++ ' ' :: target.toList)) = _
    rw [tokens_blank hblank, tokens_blank hblank, tokens_identifier_cons hgoto hspace,
      tokens_blank hblank, tokens_of_isIdentifier htarget]
    rfl

theorem isPlain_of_isIdentifier {cs : List Char} (h : isIdentifier cs = true) :
    isPlain cs = true := by
  refine List.all_eq_true.mpr ?_
  intro c hc
  have hrest := isIdRest_of_mem h hc
  simp only [Bool.and_eq_true, bne_iff_ne]
  refine ⟨⟨?_, ?_⟩, ?_⟩
  all_goals
    rintro rfl
    exact absurd hrest (by decide)

theorem Statement.isPlain_text {st : Statement} (h : st.WellSpelled) :
    isPlain st.text.toList = true := by
  have hword : ∀ name, .word name ∈ st.tokens → isPlain name.toList = true :=
    fun name hname => isPlain_of_isIdentifier (h name hname)
  cases st with
  | perform op =>
    cases op with
    | arith op lhs rhs result =>
      have hop : isPlain [op.symbol] = true := by cases op <;> decide
      simp only [Statement.tokens, NamedOp.tokens] at hword
      simp only [Statement.text, NamedOp.text, ArithOp.text, String.toList_append,
        String.toList_singleton, isPlain_append, hop, hword lhs (by simp), hword rhs (by simp),
        hword result (by simp)]
      decide
    | branch cond target =>
      simp only [Statement.tokens, NamedOp.tokens] at hword
      simp only [Statement.text, NamedOp.text, String.toList_append, isPlain_append,
        hword cond (by simp), hword target (by simp)]
      decide
    | nop => decide
  | _ name =>
    simp only [Statement.text, String.toList_append, isPlain_append,
      hword name (by simp [Statement.tokens])]
    decide

/-- An operation by names. A branch without a target cannot be written. -/
def spell (f : Function) : Operation → NamedOp
  | .arith op lhs rhs result =>
    .arith op (f.registerText lhs) (f.registerText rhs) (f.registerText result)
  | .branch cond target => .branch (f.registerText cond) (target.elim "?" BlockId.label)
  | .nop => .nop

structure Section where
  label : String
  ops : List NamedOp
  goto : Option String

namespace Section

def statements (s : Section) : List Statement :=
  .label s.label :: (s.ops.map .perform ++ s.goto.toList.map .goto)

end Section

/-- Where a `goto` leads at the end of a block if `next` is written next; none if it is left out. -/
def gotoAfter (block : Block) (next : Option BlockId) : Option BlockId :=
  block.fallThrough.filter fun target => !isImplicit block.id target next

def sectionOf (f : Function) (block : Block) (next : Option BlockId) : Section where
  label := block.id.label
  ops := (f.instructionsOf block.id).map fun insn => f.spell insn.operation
  goto := (gotoAfter block next).map BlockId.label

def sectionsOf (f : Function) : List Block → List Section
  | [] => []
  | block :: blocks => f.sectionOf block (blocks.head?.map Block.id) :: f.sectionsOf blocks

def statements (f : Function) : List Statement :=
  f.registers.map .register ++ (f.sectionsOf f.writtenBlocks).flatMap Section.statements

def script (f : Function) : List String :=
  "\x7b" :: (f.statements.map Statement.text ++ ["\x7d"])

def Targeted (f : Function) : Prop :=
  ∀ b, ∀ insn ∈ f.instructionsOf b, insn.isBranch = true → insn.target? ≠ none

variable {f : Function}

theorem repeatedName?_eq_none {seen names : List String} (h : names.Nodup)
    (hseen : ∀ n ∈ names, n ∉ seen) : repeatedName? seen names = none := by
  induction names generalizing seen with
  | nil => rfl
  | cons name names ih =>
    obtain ⟨hname, hnames⟩ := List.nodup_cons.mp h
    rw [repeatedName?, if_neg (hseen name List.mem_cons_self)]
    refine ih hnames ?_
    intro n hn hmem
    rcases List.mem_cons.mp hmem with rfl | hmem
    · exact hname hn
    · exact hseen n (List.mem_cons_of_mem name hn) hmem

theorem emits_writeRegisters (names : List String) :
    Emits (writeRegisters names) (page (names.map fun name => (Statement.register name).text)) := by
  induction names with
  | nil => exact .pure
  | cons name names ih => exact (Emits.put _).bind ih

theorem emits_writeInstruction {insn : Instruction} (hformed : insn.operation.WellFormed)
    (h : insn.isBranch = true → insn.target? ≠ none) :
    Emits (f.writeInstruction insn) (f.spell insn.operation).text := by
  obtain ⟨o, ho⟩ := hformed.exists_encode
  rw [Instruction.isBranch, Instruction.target?, ho] at h
  rw [writeInstruction, ho, Encoding.decode_encode]
  cases o with
  | arith op lhs rhs result =>
    have htext : (f.spell (.arith op lhs rhs result)).text = f.registerText result ++ (" := " ++
        (f.registerText lhs ++ ((" " ++ op.text ++ " ") ++ f.registerText rhs))) := by
      simp only [spell, NamedOp.text, String.append_assoc]
    rw [htext]
    exact (Emits.put _).bind ((Emits.put _).bind ((Emits.put _).bind ((Emits.put _).bind (.put _))))
  | branch cond target =>
    cases target with
    | none => exact absurd rfl (h rfl)
    | some target =>
      rw [spell, NamedOp.text, String.append_assoc]
      exact (Emits.put _).bind ((Emits.put _).bind (.put _))
  | nop => exact .put _

theorem emits_writeInstructions {insns : List Instruction}
    (hformed : ∀ insn ∈ insns, insn.operation.WellFormed)
    (h : ∀ insn ∈ insns, insn.isBranch = true → insn.target? ≠ none) :
    Emits (f.writeInstructions insns)
      (page (insns.map fun insn => (Statement.perform (f.spell insn.operation)).text)) := by
  induction insns with
  | nil => exact .pure
  | cons insn insns ih =>
    have hinsn := emits_writeInstruction (f := f) (hformed insn List.mem_cons_self)
      (h insn List.mem_cons_self)
    have hrest := ih (fun i hi => hformed i (List.mem_cons_of_mem insn hi))
      fun i hi => h i (List.mem_cons_of_mem insn hi)
    rw [List.map_cons, page, Statement.text, String.append_assoc, String.append_assoc]
    exact (Emits.put _).bind (hinsn.bind ((Emits.put _).bind hrest))

theorem emits_writeFallThrough (block : Block) (next : Option BlockId) :
    Emits (writeFallThrough block next) (page (((gotoAfter block next).map BlockId.label).toList.map
      fun target => (Statement.goto target).text)) := by
  unfold writeFallThrough gotoAfter
  cases block.fallThrough with
  | none => exact .pure
  | some target =>
    change Emits (if isImplicit block.id target next then Pure.pure () else Sink.put _) _
    cases himplicit : isImplicit block.id target next with
    | true =>
      rw [if_pos rfl, Option.filter_some_neg (by simp [himplicit])]
      exact .pure
    | false =>
      rw [if_neg Bool.false_ne_true, Option.filter_some_pos (by simp [himplicit])]
      change Emits _ ("  goto " ++ target.label ++ "\n" ++ "")
      rw [String.append_empty]
      exact .put _

theorem emits_writeBlocks (hformed : f.WellEncoded) (h : f.Targeted) (blocks : List Block) :
    Emits (f.writeBlocks blocks)
      (page (((f.sectionsOf blocks).flatMap Section.statements).map Statement.text)) := by
  induction blocks with
  | nil => exact .pure
  | cons block blocks ih =>
    have hlabel : (Statement.label block.id.label).text ++ "\n" = block.id.label ++ ":\n" :=
      String.append_assoc
    rw [sectionsOf, sectionOf, List.flatMap_cons, Section.statements, List.cons_append,
      List.map_cons, page, List.append_assoc, List.map_append, List.map_append, page_append,
      page_append, List.map_map, List.map_map, List.map_map, hlabel]
    refine (Emits.put _).bind ?_
    refine (emits_writeInstructions (fun _ => hformed.of_mem) (h block.id)).bind ?_
    exact (emits_writeFallThrough block _).bind ih

/-- A function is written as its script. -/
theorem emits_write (hnames : f.registers.Nodup) (hformed : f.WellEncoded) (h : f.Targeted) :
    Emits f.write (page f.script) := by
  unfold write
  rw [repeatedName?_eq_none hnames fun n _ => List.not_mem_nil]
  have hlines : page f.script = "\x7b\n" ++
      (page (f.registers.map fun name => (Statement.register name).text) ++
      (page (((f.sectionsOf f.writtenBlocks).flatMap Section.statements).map Statement.text) ++
        "\x7d\n")) := by
    have hopen : "\x7b\n" = "\x7b" ++ "\n" := by decide
    simp only [script, page, page_append, statements, List.map_append, List.map_map, hopen,
      String.append_assoc]
    rfl
  rw [hlines]
  exact (Emits.put _).bind
    ((emits_writeRegisters _).bind ((emits_writeBlocks hformed h _).bind (.put _)))

end Function

end FlowGraph
