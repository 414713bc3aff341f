import FlowGraph.Function.Reading
import FlowGraph.Proofs.Text.Tokens

/-!
# Statements

A line of a body is blank, the closing brace, or one statement. What a reader makes of a statement
is told by `Draft.take`, which sees names and no characters.
-/

namespace FlowGraph.Function

open Text

set_option autoImplicit false

/-- An operation with names in the place of handles. -/
inductive NamedOp where
  | arith (op : ArithOp) (lhs rhs result : String)
  | branch (cond target : String)
  | nop
deriving DecidableEq, Repr

inductive Statement where
  | label (name : String)
  | register (name : String)
  | perform (op : NamedOp)
  | goto (target : String)
deriving DecidableEq, Repr

def NamedOp.tokens : NamedOp → List Token
  | arith op lhs rhs result =>
    [.word result, .symbol ':', .symbol '=', .word lhs, .symbol op.symbol, .word rhs]
  | branch cond target =>
    [.word "if", .symbol '(', .word cond, .symbol ')', .word "goto", .word target]
  | nop => [.word "nop"]

def Statement.tokens : Statement → List Token
  | label name => [.word name, .symbol ':']
  | register name => [.word "reg", .word name]
  | perform op => op.tokens
  | goto target => [.word "goto", .word target]

def Statement.inBlock : Statement → Bool
  | perform _ | goto _ => true
  | label _ | register _ => false

theorem Statement.inBlock_cases {st : Statement} {name : String} {ts : List Token}
    (hst : st.inBlock = true) (h : st.tokens = .word name :: ts) :
    (∃ op lhs rhs, st = .perform (.arith op lhs rhs name) ∧
      ts = [.symbol ':', .symbol '=', .word lhs, .symbol op.symbol, .word rhs]) ∨
    (name = "goto" ∧ ∃ target, st = .goto target ∧ ts = [.word target]) ∨
    (name = "if" ∧ ∃ cond target, st = .perform (.branch cond target) ∧
      ts = [.symbol '(', .word cond, .symbol ')', .word "goto", .word target]) ∨
    name = "nop" ∧ st = .perform .nop ∧ ts = [] := by
  cases st with
  | label n => cases hst
  | register n => cases hst
  | goto target =>
    obtain ⟨hname, rfl⟩ := List.cons.inj h
    exact .inr (.inl ⟨(Token.word.inj hname).symm, target, rfl, rfl⟩)
  | perform op =>
    obtain ⟨hname, rfl⟩ : op.tokens.head? = some (.word name) ∧ op.tokens.tail = ts := by
      rw [show op.tokens = .word name :: ts from h]
      exact ⟨rfl, rfl⟩
    cases op with
    | arith op lhs rhs result =>
      cases hname
      exact .inl ⟨op, lhs, rhs, rfl, rfl⟩
    | branch cond target =>
      cases hname
      exact .inr (.inr (.inl ⟨rfl, cond, target, rfl, rfl⟩))
    | nop =>
      cases hname
      exact .inr (.inr (.inr ⟨rfl, rfl, rfl⟩))

namespace Draft

def meet (d : Draft) (name : String) : BlockId × Draft :=
  match d.findLabel? name with
  | some block => (block, d)
  | none => (d.function.nextBlock, d.addLabel name)

def assigned (d : Draft) (name : String) : RegId × Draft :=
  match d.function.findRegister? name with
  | some r => (r, d)
  | none => (d.function.nextRegister, { d with function := d.function.addRegister name })

def edit (d : Draft) (change : Function → Except Fault Function) : Option Draft :=
  (change d.function).toOption.map fun f => { d with function := f }

def fallInto (d : Draft) (next : BlockId) : Option Draft :=
  match d.current with
  | some b => if b = next then some d else d.edit (·.setFallThrough b (some next))
  | none => some d

def perform (d : Draft) (b : BlockId) : NamedOp → Option Draft
  | .arith op lhs rhs result =>
    (d.function.findRegister? lhs).bind fun l =>
    (d.function.findRegister? rhs).bind fun r =>
    (d.assigned result).2.edit (·.append b (.arith op l r (d.assigned result).1))
  | .branch cond target =>
    (d.function.findRegister? cond).bind fun c =>
    (d.meet target).2.edit (·.append b (.branch c (some (d.meet target).1)))
  | .nop => d.edit (·.append b .nop)

/-- What is left of a draft by a statement; none if the statement does not fit. -/
def take (d : Draft) : Statement → Option Draft
  | .label name =>
    let met := d.meet name
    if (met.2.function.block? met.1).any Block.hasContent then none
    else ((met.2.define met.1).fallInto met.1).map (·.setCurrent (some met.1))
  | .register name =>
    if (d.function.findRegister? name).isSome then none
    else some { d with function := d.function.addRegister name }
  | .perform op => d.current.bind fun b => d.perform b op
  | .goto target =>
    let met := d.meet target
    d.current.bind fun b =>
    (met.2.edit (·.setFallThrough b (some met.1))).map (·.setCurrent none)

theorem take_perform {d : Draft} {b : BlockId} (hb : d.current = some b) (op : NamedOp) :
    d.take (.perform op) = d.perform b op := by
  simp [take, hb]

/-- The draft after the closing brace; none if a label has not had its line. -/
def close (d : Draft) : Option Draft :=
  if d.undefinedLabel?.isSome then none else d.fallInto .exit

end Draft

theorem isIdStart_symbol (op : ArithOp) : isIdStart op.symbol = false := by
  cases op <;> decide

theorem eq_symbol_of_ofChar? {d : Char} {op : ArithOp} (h : ArithOp.ofChar? d = some op) :
    d = op.symbol := by
  unfold ArithOp.ofChar? at h
  split at h <;> cases h <;> rfl

def DraftLine.meet (s : DraftLine) (name : String) : DraftLine :=
  { s with
    draft := (s.draft.meet name).2
    log := s.log ++ match s.draft.findLabel? name with
      | some _ => []
      | none => [.newLabel name s.draft.function.nextBlock] }

theorem DraftM.blockOf_eq (name : String) (s : DraftLine) :
    DraftM.blockOf name s = .ok (s.draft.meet name).1 (s.meet name) := by
  unfold DraftM.blockOf DraftLine.meet Draft.meet
  cases s.draft.findLabel? name with
  | some b => simp
  | none => rfl

theorem DraftM.openLabel_eq (name : String) (s : DraftLine) :
    DraftM.openLabel name s =
      if ((s.draft.meet name).2.function.block? (s.draft.meet name).1).any Block.hasContent then
        .ok none (s.meet name)
      else .ok (some (s.draft.meet name).1)
        { s.meet name with draft := (s.draft.meet name).2.define (s.draft.meet name).1 } := by
  rw [DraftM.openLabel, step_bind_of_ok (DraftM.blockOf_eq name s)]
  have hget : DraftM.getDraft (s.meet name) = .ok (s.draft.meet name).2 (s.meet name) := rfl
  rw [step_bind_of_ok hget]
  split
  · rfl
  · rfl

def Yields {α : Type} (x : Routine α) (P : α → DraftLine → Prop) (s : DraftLine) : Prop :=
  ∃ a t, x.run DraftM.obey s = .ok a t ∧ P a t

namespace Yields

variable {α β : Type} {P : α → DraftLine → Prop} {s : DraftLine}

theorem of_ok {x : Routine α} {a : α} {t : DraftLine} (h : x.run DraftM.obey s = .ok a t) :
    Yields x P s ↔ P a t := by
  constructor
  · rintro ⟨a', t', hx, hp⟩
    rw [h] at hx
    cases hx
    exact hp
  · intro hp
    exact ⟨a, t, h, hp⟩

theorem of_error {x : Routine α} {e : Error} {t : DraftLine}
    (h : x.run DraftM.obey s = .error e t) : ¬ Yields x P s := by
  rintro ⟨a, t', hx, -⟩
  rw [h] at hx
  cases hx

theorem bind {x : Routine β} {g : β → Routine α} :
    Yields (x >>= g) P s ↔ Yields x (fun b t => Yields (g b) P t) s := by
  unfold Yields
  rw [Routine.run_bind]
  constructor
  · rintro ⟨a, t, h, hp⟩
    obtain ⟨b, t', hx, hg⟩ := step_bind_ok_iff.mp h
    exact ⟨b, t', hx, a, t, hg, hp⟩
  · rintro ⟨b, t', hx, a, t, hg, hp⟩
    exact ⟨a, t, step_bind_ok_iff.mpr ⟨b, t', hx, hg⟩, hp⟩

theorem pure {a : α} : Yields (Pure.pure a) P s ↔ P a s := of_ok rfl

theorem fail {problem : Problem} : Yields (Routine.fail problem) P s ↔ False :=
  iff_false_intro (of_error rfl)

theorem ite {p : Prop} [Decidable p] {x y : Routine α} :
    Yields (if p then x else y) P s ↔ if p then Yields x P s else Yields y P s := by
  split <;> rfl

section requests

variable {r : Request} {P : r.Answer → DraftLine → Prop}

theorem request_of_ok {a : r.Answer} {t : DraftLine} (h : DraftM.obey r s = .ok a t) :
    Yields (Routine.request r) P s ↔ P a t :=
  of_ok ((congrFun (Routine.run_request r) s).trans h)

theorem request_of_error {e : Error} {t : DraftLine} (h : DraftM.obey r s = .error e t) :
    ¬ Yields (Routine.request r) P s :=
  of_error ((congrFun (Routine.run_request r) s).trans h)

end requests

section scans

variable {p : Probe} {P : p.Answer → DraftLine → Prop}

theorem scan_of_ok {a : p.Answer} {line : LineCursor} (h : p.scan s.line = .ok a line) :
    Yields (Routine.request (.scan p)) P s ↔ P a { s with line } :=
  request_of_ok (r := .scan p) (by rw [DraftM.obey, DraftM.scan, h])

theorem scan_of_error {e : Error} {line : LineCursor} (h : p.scan s.line = .error e line) :
    ¬ Yields (Routine.request (.scan p)) P s :=
  request_of_error (r := .scan p) (t := { s with line }) (by rw [DraftM.obey, DraftM.scan, h])

end scans

theorem identifier {P : String → DraftLine → Prop} : Yields Routine.identifier P s ↔
    ∃ name, (tokens s.line.rest).head? = some (.word name) ∧
      P name { s with line := s.line.nextToken } := by
  have h := Scan.identifier_eq s.line
  unfold Routine.identifier
  cases hhead : (tokens s.line.rest).head? with
  | none =>
    rw [hhead] at h
    simpa using scan_of_error (p := .identifier) h
  | some t =>
    rw [hhead] at h
    cases t with
    | symbol d => simpa using scan_of_error (p := .identifier) h
    | word name => simpa using scan_of_ok (p := .identifier) h

theorem keyword {P : Unit → DraftLine → Prop} {word : String} :
    Yields (Routine.keyword word) P s ↔
      (tokens s.line.rest).head? = some (.word word) ∧
        P () { s with line := s.line.nextToken } := by
  have h := Scan.keyword_eq word s.line
  unfold Routine.keyword
  split at h
  · next hhead => simpa [hhead] using scan_of_ok (p := .keyword word) h
  · next hhead => simpa [hhead] using scan_of_error (p := .keyword word) h

theorem symbol {P : Unit → DraftLine → Prop} {d : Char} (hd : isIdStart d = false) :
    Yields (Routine.symbol d) P s ↔
      (tokens s.line.rest).head? = some (.symbol d) ∧
        P () { s with line := s.line.nextToken } := by
  have h := Scan.symbol_eq hd s.line
  unfold Routine.symbol
  split at h
  · next hhead => simpa [hhead] using scan_of_ok (p := .symbol d) h
  · next hhead => simpa [hhead] using scan_of_error (p := .symbol d) h

theorem trySymbol {P : Bool → DraftLine → Prop} {d : Char} (hd : isIdStart d = false) :
    Yields (Routine.trySymbol d) P s ↔
      if (tokens s.line.rest).head? = some (.symbol d) then
        P true { s with line := s.line.nextToken }
      else P false { s with line := s.line.skipBlanks } := by
  have h := Scan.trySymbol_eq hd s.line
  split at h
  · next hhead =>
    rw [if_pos hhead]
    exact scan_of_ok (p := .trySymbol d) h
  · next hhead =>
    rw [if_neg hhead]
    exact scan_of_ok (p := .trySymbol d) h

theorem endOfLine {P : Unit → DraftLine → Prop} : Yields Routine.endOfLine P s ↔
    tokens s.line.rest = [] ∧ P () { s with line := s.line.skipBlanks } := by
  have h := Scan.endOfLine_eq s.line
  unfold Routine.endOfLine
  split at h
  · next hnil => simpa [hnil] using scan_of_ok (p := .endOfLine) h
  · next hnil => simpa [hnil] using scan_of_error (p := .endOfLine) h

theorem atEnd {P : Bool → DraftLine → Prop} : Yields Routine.atEnd P s ↔
    P (tokens s.line.rest).isEmpty { s with line := s.line.skipBlanks } :=
  scan_of_ok (p := .atEnd) (Scan.atEnd_eq s.line)

theorem peek {P : Option Char → DraftLine → Prop} : Yields Routine.peek P s ↔
    P s.line.skipBlanks.rest.head? { s with line := s.line.skipBlanks } :=
  scan_of_ok (p := .peek) rfl

theorem cutEnd_of_ok {P : Bool → DraftLine → Prop} {d : Char} {a : Bool} {line : LineCursor}
    (h : Scan.cutEnd d s.line = .ok a line) :
    Yields (Routine.cutEnd d) P s ↔ P a { s with line } :=
  scan_of_ok (p := .cutEnd d) h

theorem operator {P : α → DraftLine → Prop} {g : ArithOp → Routine α} :
    Yields (Routine.nextChar >>= fun c =>
      match ArithOp.ofChar? c with
      | none => Routine.fail (.unknownOperator c)
      | some op => g op) P s ↔
      ∃ op : ArithOp, (tokens s.line.rest).head? = some (.symbol op.symbol) ∧
        Yields (g op) P { s with line := s.line.nextToken } := by
  rw [bind]
  constructor
  · rintro ⟨d, t, hd, hp⟩
    cases hop : ArithOp.ofChar? d with
    | none =>
      rw [hop] at hp
      exact (fail.mp hp).elim
    | some op =>
      rw [hop] at hp
      rw [eq_symbol_of_ofChar? hop, Routine.nextChar, Routine.run_request, DraftM.obey,
        DraftM.scan] at hd
      split at hd
      · next d' line hline =>
        cases hd
        obtain ⟨hhead, rfl⟩ := (Scan.nextChar_ok_iff (isIdStart_symbol op)).mp hline
        exact ⟨op, hhead, hp⟩
      · cases hd
  · rintro ⟨op, hhead, hp⟩
    refine (scan_of_ok (p := .nextChar)
      ((Scan.nextChar_ok_iff (isIdStart_symbol op)).mpr ⟨hhead, rfl⟩)).mpr ?_
    simpa using hp

theorem edit_iff {change : Function → Except Fault Function} {x : Routine Unit}
    {P : Unit → DraftLine → Prop} (hx : x.run DraftM.obey = DraftM.edit change) :
    Yields x P s ↔ ∃ d, s.draft.edit change = some d ∧ P () { s with draft := d } := by
  cases h : change s.draft.function with
  | ok f =>
    have hok : x.run DraftM.obey s =
        .ok () { s with draft := { s.draft with function := f } } := by rw [hx, DraftM.edit, h]
    simp [of_ok hok, Draft.edit, h, Except.toOption]
  | error e =>
    have herror : x.run DraftM.obey s = .error (.fault e) s := by rw [hx, DraftM.edit, h]
    simpa [Draft.edit, h, Except.toOption] using of_error herror

theorem append {P : Unit → DraftLine → Prop} {b : BlockId} {operation : Operation} :
    Yields (Routine.append b operation) P s ↔
      ∃ d, s.draft.edit (·.append b operation) = some d ∧ P () { s with draft := d } :=
  edit_iff (Routine.run_request _)

theorem setFallThrough {P : Unit → DraftLine → Prop} {b next : BlockId} :
    Yields (Routine.setFallThrough b next) P s ↔
      ∃ d, s.draft.edit (·.setFallThrough b (some next)) = some d ∧ P () { s with draft := d } :=
  edit_iff (Routine.run_request _)

theorem setCurrent {P : Unit → DraftLine → Prop} {b : Option BlockId} :
    Yields (Routine.setCurrent b) P s ↔ P () { s with draft := s.draft.setCurrent b } :=
  request_of_ok (r := .setCurrent b) rfl

theorem current {P : Option BlockId → DraftLine → Prop} :
    Yields Routine.current P s ↔ P s.draft.current s := request_of_ok (r := .current) rfl

theorem undefinedLabel {P : Option String → DraftLine → Prop} :
    Yields Routine.undefinedLabel P s ↔ P s.draft.undefinedLabel? s :=
  request_of_ok (r := .undefinedLabel) rfl

theorem function {P : Function → DraftLine → Prop} :
    Yields Routine.function P s ↔ P s.draft.function s := request_of_ok (r := .function) rfl

theorem findRegister {P : Option RegId → DraftLine → Prop} {name : String} :
    Yields (Routine.findRegister name) P s ↔ P (s.draft.function.findRegister? name) s :=
  request_of_ok (r := .findRegister name) rfl

theorem addRegister {P : RegId → DraftLine → Prop} {name : String} :
    Yields (Routine.addRegister name) P s ↔ P s.draft.function.nextRegister
      { s with draft := { s.draft with function := s.draft.function.addRegister name } } :=
  request_of_ok (r := .addRegister name) rfl

theorem blockOf {P : BlockId → DraftLine → Prop} {name : String} :
    Yields (Routine.blockOf name) P s ↔ P (s.draft.meet name).1 (s.meet name) :=
  request_of_ok (r := .blockOf name) (DraftM.blockOf_eq name s)

theorem openLabel {P : Option BlockId → DraftLine → Prop} {name : String} :
    Yields (Routine.openLabel name) P s ↔
      if ((s.draft.meet name).2.function.block? (s.draft.meet name).1).any Block.hasContent then
        P none (s.meet name)
      else P (some (s.draft.meet name).1)
        { s.meet name with draft := (s.draft.meet name).2.define (s.draft.meet name).1 } := by
  have h := DraftM.openLabel_eq name s
  split at h
  · next hcontent =>
    rw [if_pos hcontent]
    exact request_of_ok (r := .openLabel name) h
  · next hcontent =>
    rw [if_neg hcontent]
    exact request_of_ok (r := .openLabel name) h

theorem register {P : RegId → DraftLine → Prop} : Yields Routine.register P s ↔
    ∃ name r, (tokens s.line.rest).head? = some (.word name) ∧
      s.draft.function.findRegister? name = some r ∧
      P r { s with line := s.line.nextToken } := by
  simp only [Routine.register, bind, identifier, findRegister]
  refine exists_congr fun name => ?_
  cases s.draft.function.findRegister? name with
  | some r => simp [pure]
  | none => simp [fail]

theorem resultRegister {P : RegId → DraftLine → Prop} {name : String} :
    Yields (Routine.resultRegister name) P s ↔
      P (s.draft.assigned name).1 { s with draft := (s.draft.assigned name).2 } := by
  simp only [Routine.resultRegister, bind, findRegister, Draft.assigned]
  cases s.draft.function.findRegister? name with
  | some r => simp [pure]
  | none => simp [addRegister]

theorem fallInto {P : Unit → DraftLine → Prop} {next : BlockId} :
    Yields (Routine.fallInto next) P s ↔
      ∃ d, s.draft.fallInto next = some d ∧ P () { s with draft := d } := by
  simp only [Routine.fallInto, bind, current, Draft.fallInto]
  cases s.draft.current with
  | none => simp [pure]
  | some b =>
    by_cases hb : b = next
    · simp [hb, pure]
    · simp [hb, setFallThrough]

end Yields

section lines

variable {P : Draft → Prop} {s : DraftLine}

theorem head?_tail_iff {t : Token} {ts us : List Token} :
    ts.head? = some t ∧ ts.tail = us ↔ ts = t :: us := by
  cases ts with
  | nil => simp
  | cons x xs => simp

theorem labelLine_iff : Yields Routine.labelLine (fun _ t => P t.draft) s ↔
    ∃ name d, tokens s.line.rest = [.word name] ∧ s.draft.take (.label name) = some d ∧ P d := by
  simp only [Routine.labelLine, Yields.bind, Yields.identifier, Yields.endOfLine,
    Yields.openLabel, LineCursor.tokens_nextToken, ← and_assoc, head?_tail_iff]
  refine exists_congr fun name => ?_
  simp only [and_assoc, exists_and_left]
  refine and_congr_right fun _ => ?_
  by_cases hc : ((s.draft.meet name).2.function.block? (s.draft.meet name).1).any Block.hasContent
  · simp [Draft.take, hc, Yields.fail]
  · simp [Draft.take, hc, Yields.setCurrent, Yields.fallInto]

theorem registerLine_iff : Yields Routine.registerLine (fun _ t => P t.draft) s ↔
    ∃ name d, tokens s.line.rest = [.word name] ∧ s.draft.take (.register name) = some d ∧ P d := by
  simp only [Routine.registerLine, Yields.bind, Yields.identifier, Yields.endOfLine,
    Yields.findRegister, LineCursor.tokens_nextToken, ← and_assoc, head?_tail_iff]
  refine exists_congr fun name => ?_
  simp only [and_assoc, exists_and_left]
  refine and_congr_right fun _ => ?_
  simp only [Draft.take]
  split
  · simp [Yields.fail]
  · simp [Yields.bind, Yields.addRegister, Yields.pure]

theorem assignmentLine_iff {name : String} {b : BlockId} :
    Yields (Routine.assignmentLine name b) (fun _ t => P t.draft) s ↔
      ∃ op lhs rhs d, tokens s.line.rest =
          [.symbol '=', .word lhs, .symbol op.symbol, .word rhs] ∧
        s.draft.perform b (.arith op lhs rhs name) = some d ∧ P d := by
  have heq : isIdStart '=' = false := by decide
  rw [Routine.assignmentLine, Yields.bind, Yields.symbol heq, Yields.bind, Yields.register]
  constructor
  · rintro ⟨hsym, lhs, l, hlhs, hl, hrest⟩
    obtain ⟨op, hop, hrest⟩ := Yields.operator.mp hrest
    simp only [Yields.bind, Yields.register, Yields.endOfLine, Yields.resultRegister,
      Yields.append] at hrest
    obtain ⟨rhs, r, hrhs, hr, hend, d, hd, hp⟩ := hrest
    refine ⟨op, lhs, rhs, d, ?_, ?_, hp⟩
    · simp only [LineCursor.tokens_nextToken] at hlhs hop hrhs hend
      exact head?_tail_iff.mp ⟨hsym, head?_tail_iff.mp ⟨hlhs, head?_tail_iff.mp ⟨hop,
        head?_tail_iff.mp ⟨hrhs, hend⟩⟩⟩⟩
    · simpa [Draft.perform, hl, hr] using hd
  · rintro ⟨op, lhs, rhs, d, htokens, hd, hp⟩
    simp only [Draft.perform, Option.bind_eq_some_iff] at hd
    obtain ⟨l, hl, r, hr, hd⟩ := hd
    refine ⟨by simp [htokens], lhs, l, by simp [htokens], hl, ?_⟩
    refine Yields.operator.mpr ⟨op, by simp [htokens], ?_⟩
    simp only [Yields.bind, Yields.register, Yields.endOfLine, Yields.resultRegister, Yields.append]
    exact ⟨rhs, r, by simp [htokens], hr, by simp [htokens], d, hd, hp⟩

theorem gotoLine_iff {b : BlockId} (hb : s.draft.current = some b) :
    Yields (Routine.gotoLine b) (fun _ t => P t.draft) s ↔
      ∃ target d, tokens s.line.rest = [.word target] ∧ s.draft.take (.goto target) = some d ∧
        P d := by
  simp only [Routine.gotoLine, Routine.label, Yields.bind, Yields.identifier, Yields.blockOf,
    Yields.endOfLine, Yields.setFallThrough, Yields.setCurrent, DraftLine.meet,
    LineCursor.tokens_nextToken, ← and_assoc, head?_tail_iff]
  refine exists_congr fun target => ?_
  simp only [and_assoc, exists_and_left]
  refine and_congr_right fun _ => ?_
  simp [Draft.take, hb]

theorem branchLine_iff {b : BlockId} :
    Yields (Routine.branchLine b) (fun _ t => P t.draft) s ↔
      ∃ cond target d, tokens s.line.rest =
          [.symbol '(', .word cond, .symbol ')', .word "goto", .word target] ∧
        s.draft.perform b (.branch cond target) = some d ∧ P d := by
  have hopen : isIdStart '(' = false := by decide
  have hclose : isIdStart ')' = false := by decide
  simp only [Routine.branchLine, Routine.label, Yields.bind, Yields.symbol hopen,
    Yields.symbol hclose, Yields.register, Yields.keyword, Yields.identifier, Yields.blockOf,
    Yields.endOfLine, Yields.append, DraftLine.meet, LineCursor.tokens_nextToken]
  constructor
  · rintro ⟨h₁, cond, c, h₂, hc, h₃, h₄, target, h₅, h₆, d, hd, hp⟩
    refine ⟨cond, target, d, ?_, by simpa [Draft.perform, hc] using hd, hp⟩
    exact head?_tail_iff.mp ⟨h₁, head?_tail_iff.mp ⟨h₂, head?_tail_iff.mp ⟨h₃,
      head?_tail_iff.mp ⟨h₄, head?_tail_iff.mp ⟨h₅, h₆⟩⟩⟩⟩⟩
  · rintro ⟨cond, target, d, htokens, hd, hp⟩
    obtain ⟨c, hc, hd⟩ := Option.bind_eq_some_iff.mp hd
    simp only [htokens]
    exact ⟨rfl, cond, c, rfl, hc, rfl, rfl, target, rfl, rfl, d, hd, hp⟩

theorem nopLine_iff {b : BlockId} : Yields (Routine.nopLine b) (fun _ t => P t.draft) s ↔
    ∃ d, tokens s.line.rest = [] ∧ s.draft.perform b .nop = some d ∧ P d := by
  simp only [Routine.nopLine, Yields.bind, Yields.endOfLine, Yields.append, Draft.perform,
    exists_and_left]

theorem assignment_iff {name : String} {b : BlockId} (hb : s.draft.current = some b)
    (hhead : (tokens s.line.rest).head? = some (.symbol ':')) :
    Yields (Routine.assignmentLine name b) (fun _ t => P t.draft)
        { s with line := s.line.nextToken } ↔
      ∃ st d, st.inBlock = true ∧ st.tokens = .word name :: tokens s.line.rest ∧
        s.draft.take st = some d ∧ P d := by
  rw [assignmentLine_iff, LineCursor.tokens_nextToken]
  constructor
  · rintro ⟨op, lhs, rhs, d, htail, hd, hp⟩
    refine ⟨.perform (.arith op lhs rhs name), d, rfl, ?_, (Draft.take_perform hb _).trans hd, hp⟩
    rw [head?_tail_iff.mp ⟨hhead, htail⟩]
    rfl
  · rintro ⟨st, d, hst, htokens, hd, hp⟩
    obtain ⟨op, lhs, rhs, rfl, hrest⟩ | ⟨-, target, -, hrest⟩ | ⟨-, cond, target, -, hrest⟩ |
      ⟨-, -, hrest⟩ := Statement.inBlock_cases hst htokens
    · rw [Draft.take_perform hb] at hd
      exact ⟨op, lhs, rhs, d, by rw [hrest]; rfl, hd, hp⟩
    · rw [hrest] at hhead
      cases hhead
    · rw [hrest] at hhead
      cases hhead
    · rw [hrest] at hhead
      cases hhead

theorem keyworded_iff {name : String} {b : BlockId} (hb : s.draft.current = some b)
    (hhead : (tokens s.line.rest).head? ≠ some (.symbol ':')) :
    Yields (if name = "goto" then Routine.gotoLine b else if name = "if" then Routine.branchLine b
        else if name = "nop" then Routine.nopLine b else Routine.fail .unknownInstruction)
        (fun _ t => P t.draft) s ↔
      ∃ st d, st.inBlock = true ∧ st.tokens = .word name :: tokens s.line.rest ∧
        s.draft.take st = some d ∧ P d := by
  constructor
  · intro h
    split at h
    · next hname =>
      obtain ⟨target, d, htokens, hd, hp⟩ := (gotoLine_iff hb).mp h
      exact ⟨.goto target, d, rfl, by rw [hname, htokens]; rfl, hd, hp⟩
    · split at h
      · next hname =>
        obtain ⟨cond, target, d, htokens, hd, hp⟩ := branchLine_iff.mp h
        exact ⟨.perform (.branch cond target), d, rfl, by rw [hname, htokens]; rfl,
          (Draft.take_perform hb _).trans hd, hp⟩
      · split at h
        · next hname =>
          obtain ⟨d, htokens, hd, hp⟩ := nopLine_iff.mp h
          exact ⟨.perform .nop, d, rfl, by rw [hname, htokens]; rfl,
            (Draft.take_perform hb _).trans hd, hp⟩
        · exact (Yields.fail.mp h).elim
  · rintro ⟨st, d, hst, htokens, hd, hp⟩
    obtain ⟨op, lhs, rhs, -, hrest⟩ | ⟨rfl, target, rfl, hrest⟩ |
      ⟨rfl, cond, target, rfl, hrest⟩ | ⟨rfl, rfl, hrest⟩ := Statement.inBlock_cases hst htokens
    · exact absurd (by rw [hrest]; rfl) hhead
    · rw [if_pos rfl]
      exact (gotoLine_iff hb).mpr ⟨target, d, hrest, hd, hp⟩
    · rw [if_neg (by decide), if_pos rfl]
      rw [Draft.take_perform hb] at hd
      exact branchLine_iff.mpr ⟨cond, target, d, hrest, hd, hp⟩
    · rw [if_neg (by decide), if_neg (by decide), if_pos rfl]
      rw [Draft.take_perform hb] at hd
      exact nopLine_iff.mpr ⟨d, hrest, hd, hp⟩

theorem instructionLine_iff {name : String} :
    Yields (Routine.instructionLine name) (fun _ t => P t.draft) s ↔
      ∃ st d, st.inBlock = true ∧ st.tokens = .word name :: tokens s.line.rest ∧
        s.draft.take st = some d ∧ P d := by
  have hcolon : isIdStart ':' = false := by decide
  rw [Routine.instructionLine, Yields.bind, Yields.current]
  cases hb : s.draft.current with
  | none =>
    simp only [Yields.fail, false_iff]
    rintro ⟨st, d, hst, -, hd, -⟩
    cases st with
    | label n => cases hst
    | register n => cases hst
    | perform op => simp [Draft.take, hb] at hd
    | goto target => simp [Draft.take, hb] at hd
  | some b =>
    simp only [Yields.bind, Yields.trySymbol hcolon]
    split
    · next hhead => exact assignment_iff hb hhead
    · next hhead =>
      have h := @keyworded_iff P { s with line := s.line.skipBlanks } name b hb
        (by rwa [LineCursor.tokens_skipBlanks])
      rwa [LineCursor.tokens_skipBlanks] at h

theorem closingLine_iff {P : Function → Draft → Prop} :
    Yields Routine.closingLine (fun f t => P f t.draft) s ↔
      tokens s.line.rest = [] ∧ ∃ d, s.draft.close = some d ∧ P d.function d := by
  rw [Routine.closingLine, Yields.bind, Yields.endOfLine]
  refine and_congr_right fun _ => ?_
  rw [Yields.bind, Yields.undefinedLabel, Draft.close]
  cases s.draft.undefinedLabel? with
  | some name => simp [Yields.fail]
  | none =>
    simp only [Yields.bind, Yields.fallInto, Yields.function]
    rfl

theorem statementLine_iff {name : String} :
    Yields (if name = "reg" then do
        if (← Routine.peek) = some ':' then Routine.instructionLine name
        else Routine.registerLine
      else Routine.instructionLine name) (fun _ t => P t.draft) s ↔
      ∃ st d, (∀ n, st ≠ .label n) ∧ st.tokens = .word name :: tokens s.line.rest ∧
        s.draft.take st = some d ∧ P d := by
  have hcolon : isIdStart ':' = false := by decide
  have hinsn : ∀ {st : Statement}, st.inBlock = true → ∀ n, st ≠ .label n := by
    rintro st hst n rfl
    cases hst
  constructor
  · intro h
    split at h
    · next hname =>
      rw [Yields.bind, Yields.peek] at h
      split at h
      · obtain ⟨st, d, hst, htokens, hd, hp⟩ := instructionLine_iff.mp h
        rw [LineCursor.tokens_skipBlanks] at htokens
        exact ⟨st, d, hinsn hst, htokens, hd, hp⟩
      · obtain ⟨n, d, htokens, hd, hp⟩ := registerLine_iff.mp h
        rw [LineCursor.tokens_skipBlanks] at htokens
        exact ⟨.register n, d, by simp, by rw [hname, htokens]; rfl, hd, hp⟩
    · obtain ⟨st, d, hst, htokens, hd, hp⟩ := instructionLine_iff.mp h
      exact ⟨st, d, hinsn hst, htokens, hd, hp⟩
  · rintro ⟨st, d, hlabel, htokens, hd, hp⟩
    have hrun : st.inBlock = true → ∀ t : DraftLine, tokens t.line.rest = tokens s.line.rest →
        t.draft = s.draft → Yields (Routine.instructionLine name) (fun _ t => P t.draft) t := by
      intro hst t ht hdraft
      exact instructionLine_iff.mpr ⟨st, d, hst, by rw [ht, htokens], by rw [hdraft, hd], hp⟩
    have hpeek := s.line.head?_skipBlanks_iff hcolon
    by_cases hname : name = "reg"
    · rw [if_pos hname, Yields.bind, Yields.peek]
      subst hname
      cases st with
      | label n => exact absurd rfl (hlabel n)
      | register n =>
        have hrest := (List.cons.inj htokens).2
        rw [if_neg (by rw [hpeek, ← hrest]; simp)]
        exact registerLine_iff.mpr ⟨n, d, by rw [LineCursor.tokens_skipBlanks, ← hrest], hd, hp⟩
      | goto target => exact absurd (List.cons.inj htokens).1 (by decide)
      | perform op =>
        cases op with
        | arith op lhs rhs result =>
          have hrest := (List.cons.inj htokens).2
          rw [if_pos (by rw [hpeek, ← hrest]; rfl)]
          exact hrun rfl _ (LineCursor.tokens_skipBlanks _) rfl
        | branch cond target => exact absurd (List.cons.inj htokens).1 (by decide)
        | nop => exact absurd (List.cons.inj htokens).1 (by decide)
    · rw [if_neg hname]
      cases st with
      | label n => exact absurd rfl (hlabel n)
      | register n => exact absurd (Token.word.inj (List.cons.inj htokens).1).symm hname
      | goto target => exact hrun rfl s rfl rfl
      | perform op => exact hrun rfl s rfl rfl

theorem Statement.tokens_ne_nil (st : Statement) : st.tokens ≠ [] := by
  cases st with
  | perform op => cases op <;> simp [tokens, NamedOp.tokens]
  | _ => simp [tokens]

theorem Statement.exists_word (st : Statement) : ∃ name, st.tokens.head? = some (.word name) := by
  cases st with
  | perform op => cases op <;> exact ⟨_, rfl⟩
  | _ => exact ⟨_, rfl⟩

theorem Statement.eq_label_of_tokens {st : Statement} {ts : List Token}
    (h : st.tokens = ts ++ [.symbol ':']) : ∃ name, st = .label name ∧ ts = [.word name] := by
  have hlast : st.tokens.getLast? = some (.symbol ':') := by rw [h, List.getLast?_concat]
  cases st with
  | label name =>
    have h : [.word name] ++ [.symbol ':'] = ts ++ [.symbol ':'] := h
    exact ⟨name, rfl, (List.append_cancel_right h).symm⟩
  | register name => cases hlast
  | goto target => cases hlast
  | perform op => cases op <;> cases hlast

theorem bodyLine_statement {P : Option Function → Draft → Prop}
    (hhead : (tokens s.line.rest).head? ≠ some (.symbol '}')) (hnil : tokens s.line.rest ≠ []) :
    Yields Routine.bodyLine (fun r t => P r t.draft) s ↔
      ∃ st d, tokens s.line.rest = st.tokens ∧ s.draft.take st = some d ∧ P none d := by
  have hbrace : isIdStart '}' = false := by decide
  have hempty : (tokens s.line.rest).isEmpty = false := by simpa using hnil
  rw [Routine.bodyLine, Yields.bind, Yields.trySymbol hbrace, if_neg hhead]
  simp only [Bool.false_eq_true, if_false, Yields.bind, Yields.atEnd,
    LineCursor.tokens_skipBlanks, hempty]
  obtain ⟨c, hcut, htokens⟩ | ⟨hcut, hlast⟩ :=
    Scan.cutEnd_cases (d := ':') (by decide) (by decide) s.line.skipBlanks.skipBlanks
  · rw [Yields.cutEnd_of_ok (s := ⟨s.line.skipBlanks.skipBlanks, s.draft, s.log⟩) hcut]
    simp only [LineCursor.tokens_skipBlanks] at htokens
    simp only [if_true, Yields.bind, Yields.pure, labelLine_iff (P := P none), htokens]
    constructor
    · rintro ⟨name, d, hname, hd, hp⟩
      exact ⟨.label name, d, by rw [hname]; rfl, hd, hp⟩
    · rintro ⟨st, d, hst, hd, hp⟩
      obtain ⟨name, rfl, hname⟩ := Statement.eq_label_of_tokens hst.symm
      exact ⟨name, d, hname, hd, hp⟩
  · rw [Yields.cutEnd_of_ok (s := ⟨s.line.skipBlanks.skipBlanks, s.draft, s.log⟩) hcut]
    simp only [LineCursor.tokens_skipBlanks] at hlast
    have hstatement := @statementLine_iff (P none)
      ⟨s.line.skipBlanks.skipBlanks.nextToken, s.draft, s.log⟩
    simp only [Yields.ite, Yields.bind, Yields.peek, LineCursor.tokens_nextToken,
      LineCursor.tokens_skipBlanks] at hstatement
    simp only [Bool.false_eq_true, if_false, Yields.bind, Yields.identifier, Yields.ite,
      Yields.peek, Yields.pure, hstatement, LineCursor.tokens_skipBlanks]
    constructor
    · rintro ⟨name, hname, st, d, -, htokens, hd, hp⟩
      exact ⟨st, d, by rw [htokens]; exact head?_tail_iff.mp ⟨hname, rfl⟩, hd, hp⟩
    · rintro ⟨st, d, htokens, hd, hp⟩
      obtain ⟨name, hword⟩ := st.exists_word
      refine ⟨name, by rw [htokens, hword], st, d, ?_, ?_, hd, hp⟩
      · rintro n rfl
        exact hlast [.word n] htokens
      · rw [htokens]
        exact head?_tail_iff.mp ⟨hword, rfl⟩

/-- A line of a body is the closing brace, blank, or a statement that fits. -/
theorem bodyLine_iff {P : Option Function → Draft → Prop} :
    Yields Routine.bodyLine (fun r t => P r t.draft) s ↔
      (tokens s.line.rest = [.symbol '}'] ∧ ∃ d, s.draft.close = some d ∧ P (some d.function) d) ∨
      (tokens s.line.rest = [] ∧ P none s.draft) ∨
      ∃ st d, tokens s.line.rest = st.tokens ∧ s.draft.take st = some d ∧ P none d := by
  have hbrace : isIdStart '}' = false := by decide
  by_cases hhead : (tokens s.line.rest).head? = some (.symbol '}')
  · rw [Routine.bodyLine, Yields.bind, Yields.trySymbol hbrace]
    simp only [hhead, if_true, Yields.bind, Yields.pure,
      closingLine_iff (P := fun f d => P (some f) d), LineCursor.tokens_nextToken]
    constructor
    · rintro ⟨htail, hclose⟩
      exact .inl ⟨head?_tail_iff.mp ⟨hhead, htail⟩, hclose⟩
    · rintro (⟨htokens, hclose⟩ | ⟨htokens, -⟩ | ⟨st, d, htokens, -⟩)
      · exact ⟨by rw [htokens]; rfl, hclose⟩
      · rw [htokens] at hhead
        cases hhead
      · obtain ⟨name, hword⟩ := st.exists_word
        rw [htokens, hword] at hhead
        cases hhead
  · rw [or_iff_right fun h => hhead (by rw [h.1]; rfl)]
    by_cases hnil : tokens s.line.rest = []
    · rw [Routine.bodyLine, Yields.bind, Yields.trySymbol hbrace, if_neg hhead]
      simp only [Bool.false_eq_true, if_false, Yields.bind, Yields.atEnd,
        LineCursor.tokens_skipBlanks, hnil, List.isEmpty_nil, if_true, Yields.pure, true_and]
      rw [or_iff_left]
      rintro ⟨st, d, htokens, -⟩
      exact st.tokens_ne_nil htokens.symm
    · rw [or_iff_right fun h => hnil h.1]
      exact bodyLine_statement hhead hnil

end lines

end FlowGraph.Function
