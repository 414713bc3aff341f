import FlowGraph.Proofs.Reading.Language
import FlowGraph.Proofs.Text.Rewriting

/-!
# Names of labels

A reader looks labels up by their names and keeps none of the names. So the function stays the same
when its labels get other names, as long as different labels get different ones. Any identifier will
do, also the word of a statement: where a label is expected, nothing else is.
-/

namespace FlowGraph.Function

open Text

set_option autoImplicit false

/-- Other names for labels. The entry and the exit keep theirs. -/
structure Renaming where
  name : String → String
  isName : ∀ n, IsName n → IsName (name n)
  injective : ∀ m n, IsName m → IsName n → name m = name n → m = n
  entry : name "entry" = "entry"
  exit : name "exit" = "exit"

variable {ρ : Renaming} {ts : List Token} {sts : List Statement} {l l' : List Char}
  {ls ls' : List (List Char)}

namespace Renaming

/-- The new name of a label. What is no name stays as it is. -/
def apply (ρ : Renaming) (n : String) : String :=
  if isIdentifier n.toList then ρ.name n else n

theorem isIdentifier_apply (ρ : Renaming) (n : String) :
    isIdentifier (ρ.apply n).toList = isIdentifier n.toList := by
  unfold apply
  cases hn : isIdentifier n.toList with
  | true => exact isName_iff.mp (ρ.isName n (isName_iff.mpr hn))
  | false => exact hn

theorem apply_inj {m n : String} : ρ.apply m = ρ.apply n ↔ m = n := by
  constructor
  · intro h
    have hsame : isIdentifier m.toList = isIdentifier n.toList := by
      rw [← ρ.isIdentifier_apply, h, ρ.isIdentifier_apply]
    cases hn : isIdentifier n.toList with
    | true =>
      rw [hn] at hsame
      rw [apply, apply, if_pos hsame, if_pos hn] at h
      exact ρ.injective m n (isName_iff.mpr hsame) (isName_iff.mpr hn) h
    | false =>
      rw [hn] at hsame
      rwa [apply, apply, if_neg (by simp [hsame]), if_neg (by simp [hn])] at h
  · rintro rfl
    rfl

def swap (a b : String) (ha : isIdentifier a.toList = true) (hb : isIdentifier b.toList = true)
    (h : ∀ n ∈ [a, b], n ≠ "entry" ∧ n ≠ "exit") : Renaming where
  name n := if n = a then b else if n = b then a else n
  isName := by
    intro n hn
    split
    · exact isName_iff.mpr hb
    · split
      · exact isName_iff.mpr ha
      · exact hn
  injective := by
    intro m n _ _ heq
    grind
  entry := by grind
  exit := by grind

/-- Rename the label among the tokens of a line, if there is one. -/
def relabel (ρ : Renaming) : List Token → List Token
  | [.word n, .symbol ':'] => [.word (ρ.apply n), .symbol ':']
  | [.word "goto", .word n] => [.word "goto", .word (ρ.apply n)]
  | [.word "if", .symbol '(', .word cond, .symbol ')', .word "goto", .word n] =>
    [.word "if", .symbol '(', .word cond, .symbol ')', .word "goto", .word (ρ.apply n)]
  | ts => ts

def relabelText (ρ : Renaming) (text : String) : String :=
  String.ofList (mapLines (reword ρ.relabel) text.toList)

theorem rewords_relabel (ρ : Renaming) (h : Rewords ts ts) : Rewords ts (ρ.relabel ts) := by
  unfold relabel
  split
  · obtain _ | ⟨hid, hrest⟩ | _ := h
    exact .word ((ρ.isIdentifier_apply _).trans hid) hrest
  · obtain _ | ⟨hgoto, _ | ⟨hid, hrest⟩ | _⟩ | _ := h
    exact .word hgoto (.word ((ρ.isIdentifier_apply _).trans hid) hrest)
  · obtain _ | ⟨hif, _ | _ | _ | ⟨hcond, _ | _ | _ | ⟨hgoto, hlast⟩⟩⟩ := h
    obtain _ | ⟨hid, hrest⟩ | _ := hlast
    exact .word hif (.symbol (.word hcond (.symbol (.word hgoto
      (.word ((ρ.isIdentifier_apply _).trans hid) hrest)))))
  · exact h

theorem rewords_shown (ρ : Renaming) (l : List Char) : Rewords (shown l) (ρ.relabel (shown l)) :=
  ρ.rewords_relabel (.refl fun _ => isIdentifier_of_mem_tokens)

theorem map_shown_relabelText (ρ : Renaming) (text : String) :
    (lines (ρ.relabelText text).toList).map shown =
      (lines text.toList).map (ρ.relabel ∘ shown) := by
  rw [relabelText, String.toList_ofList]
  exact map_shown_lines_reword ρ.rewords_shown text.toList

end Renaming

def NamedOp.relabel (ρ : Renaming) : NamedOp → NamedOp
  | branch cond target => branch cond (ρ.apply target)
  | op => op

def Statement.relabel (ρ : Renaming) : Statement → Statement
  | label name => label (ρ.apply name)
  | register name => register name
  | perform op => perform (op.relabel ρ)
  | goto target => goto (ρ.apply target)

theorem Statement.tokens_relabel (ρ : Renaming) (st : Statement) :
    (st.relabel ρ).tokens = ρ.relabel st.tokens := by
  cases st with
  | label name => rfl
  | register name => rfl
  | goto target => rfl
  | perform op =>
    cases op with
    | arith op lhs rhs result =>
      simp [tokens, relabel, NamedOp.tokens, NamedOp.relabel, Renaming.relabel]
    | branch cond target => rfl
    | nop => rfl

theorem Renaming.spelled (h : Spelled ts (LineCursor.visible l))
    (hl : shown l' = ρ.relabel (shown l)) : Spelled (ρ.relabel ts) (LineCursor.visible l') :=
  spelled_iff.mpr (hl.trans (congrArg ρ.relabel (spelled_iff.mp h)))

theorem Opens.relabel (h : Opens ls) (hls : ls'.map shown = ls.map (ρ.relabel ∘ shown)) :
    Opens ls' := by
  cases h with
  | first hopen =>
    obtain ⟨l', rfl, hl'⟩ := List.map_eq_singleton_iff.mp hls
    exact .first (Renaming.spelled hopen hl')
  | second hblank hopen =>
    obtain ⟨blank', rest, rfl, hblank', hrest⟩ := List.map_eq_cons_iff.mp hls
    obtain ⟨l', rfl, hl'⟩ := List.map_eq_singleton_iff.mp hrest
    exact .second (Renaming.spelled hblank hblank') (Renaming.spelled hopen hl')

theorem Spells.relabel (h : Spells ls sts) (hls : ls'.map shown = ls.map (ρ.relabel ∘ shown)) :
    Spells ls' (sts.map (·.relabel ρ)) := by
  induction h generalizing ls' with
  | nil =>
    rw [List.map_eq_nil_iff.mp hls]
    exact .nil
  | blank hblank _ ih =>
    obtain ⟨l', rest, rfl, hl', hrest⟩ := List.map_eq_cons_iff.mp hls
    exact .blank (Renaming.spelled hblank hl') (ih hrest)
  | @statement l ls st sts hst _ ih =>
    obtain ⟨l', rest, rfl, hl', hrest⟩ := List.map_eq_cons_iff.mp hls
    refine .statement ?_ (ih hrest)
    rw [st.tokens_relabel]
    exact Renaming.spelled hst hl'

theorem Presents.relabel (h : Presents ls sts) (hls : ls'.map shown = ls.map (ρ.relabel ∘ shown)) :
    Presents ls' (sts.map (·.relabel ρ)) := by
  obtain ⟨opening, body, closing, below, rfl, hopens, hbody, hclosing⟩ := h
  rw [List.map_append, List.map_append, List.map_cons] at hls
  obtain ⟨front, rest, rfl, hfront, hrest⟩ := List.map_eq_append_iff.mp hls
  obtain ⟨opening', body', rfl, hopening', hbody'⟩ := List.map_eq_append_iff.mp hfront
  obtain ⟨closing', below', rfl, hclosing', -⟩ := List.map_eq_cons_iff.mp hrest
  exact ⟨opening', body', closing', below', rfl, hopens.relabel hopening', hbody.relabel hbody',
    Renaming.spelled hclosing hclosing'⟩

def Label.relabel (ρ : Renaming) (label : Label) : Label :=
  { label with name := ρ.apply label.name }

namespace Draft

def relabel (ρ : Renaming) (d : Draft) : Draft :=
  { d with labels := d.labels.map (·.relabel ρ) }

theorem start_relabel (ρ : Renaming) : start.relabel ρ = start := by
  have hentry : ρ.apply "entry" = "entry" := (if_pos (by decide)).trans ρ.entry
  have hexit : ρ.apply "exit" = "exit" := (if_pos (by decide)).trans ρ.exit
  simp [start, relabel, Label.relabel, hentry, hexit]

theorem findLabel?_relabel (d : Draft) (n : String) :
    (d.relabel ρ).findLabel? (ρ.apply n) = d.findLabel? n := by
  have hname : (fun label : Label => decide (ρ.apply label.name = ρ.apply n)) =
      fun label => decide (label.name = n) := by
    funext label
    exact decide_eq_decide.mpr Renaming.apply_inj
  simp only [findLabel?, relabel, List.find?_map, Option.map_map]
  exact congrArg (fun p => (d.labels.find? p).map Label.block) hname

theorem meet_relabel (d : Draft) (n : String) :
    (d.relabel ρ).meet (ρ.apply n) = ((d.meet n).1, (d.meet n).2.relabel ρ) := by
  unfold meet
  rw [findLabel?_relabel]
  cases d.findLabel? n with
  | some b => rfl
  | none => simp [relabel, addLabel, Label.relabel]

theorem edit_relabel (d : Draft) (change : Function → Except Fault Function) :
    (d.relabel ρ).edit change = (d.edit change).map (relabel ρ) := by
  simp only [edit, Option.map_map]
  rfl

theorem fallInto_relabel (d : Draft) (next : BlockId) :
    (d.relabel ρ).fallInto next = (d.fallInto next).map (relabel ρ) := by
  have hcurrent : (d.relabel ρ).current = d.current := rfl
  rw [fallInto, fallInto, hcurrent]
  cases d.current with
  | none => rfl
  | some b =>
    by_cases hb : b = next
    · simp [hb]
    · simp [hb, edit_relabel]

theorem define_relabel (d : Draft) (b : BlockId) :
    (d.relabel ρ).define b = (d.define b).relabel ρ := by
  simp only [define, relabel, List.map_map, Draft.mk.injEq, true_and, and_true]
  refine List.map_congr_left fun label _ => ?_
  simp only [Function.comp_apply, Label.relabel]
  split
  · rfl
  · rfl

theorem assigned_relabel (d : Draft) (n : String) :
    (d.relabel ρ).assigned n = ((d.assigned n).1, (d.assigned n).2.relabel ρ) := by
  have hfunction : (d.relabel ρ).function = d.function := rfl
  rw [assigned, assigned, hfunction]
  cases d.function.findRegister? n with
  | some r => rfl
  | none => rfl

theorem perform_relabel (d : Draft) (b : BlockId) (op : NamedOp) :
    (d.relabel ρ).perform b (op.relabel ρ) = (d.perform b op).map (relabel ρ) := by
  cases op with
  | nop =>
    change (d.relabel ρ).edit (·.append b .nop) = (d.edit (·.append b .nop)).map (relabel ρ)
    exact d.edit_relabel _
  | arith op lhs rhs result =>
    simp only [NamedOp.relabel, perform, assigned_relabel, edit_relabel, Option.map_bind,
      Function.comp_def]
    rfl
  | branch cond target =>
    simp only [NamedOp.relabel, perform, meet_relabel, edit_relabel, Option.map_bind]
    rfl

/-- What a draft makes of a statement does not depend on the names of labels. -/
theorem take_relabel (d : Draft) (st : Statement) :
    (d.relabel ρ).take (st.relabel ρ) = (d.take st).map (relabel ρ) := by
  cases st with
  | label name =>
    simp only [Statement.relabel, take, meet_relabel, define_relabel, fallInto_relabel]
    change (if ((d.meet name).2.function.block? (d.meet name).1).any Block.hasContent then _
      else _) = _
    split
    · rfl
    · simp only [Option.map_map]
      rfl
  | register name =>
    simp only [Statement.relabel, take]
    change (if (d.function.findRegister? name).isSome then _ else _) = _
    split
    · rfl
    · rfl
  | perform op =>
    simp only [Statement.relabel, take, perform_relabel, Option.map_bind]
    rfl
  | goto target =>
    simp only [Statement.relabel, take, meet_relabel, edit_relabel, Option.map_bind,
      Option.map_map, Function.comp_def]
    rfl

theorem close_relabel (d : Draft) : (d.relabel ρ).close = d.close.map (relabel ρ) := by
  have hdefined : (fun label => !label.defined) ∘ Label.relabel ρ = fun label => !label.defined :=
    rfl
  have hsome : (d.relabel ρ).undefinedLabel?.isSome = d.undefinedLabel?.isSome := by
    simp only [undefinedLabel?, relabel, List.find?_map, hdefined, Option.isSome_map]
  rw [close, close, hsome, fallInto_relabel]
  split
  · rfl
  · rfl

theorem takeAll_relabel (sts : List Statement) (d : Draft) :
    (sts.map (·.relabel ρ)).foldlM take (d.relabel ρ) =
      (sts.foldlM take d).map (relabel ρ) := by
  induction sts generalizing d with
  | nil => rfl
  | cons st sts ih =>
    rw [List.map_cons, List.foldlM_cons, List.foldlM_cons, take_relabel]
    cases d.take st with
    | none => rfl
    | some d' => exact ih d'

end Draft

/-- The names of labels do not matter: a text with its labels renamed is read as the same function.
-/
theorem read_relabelText (ρ : Renaming) {text : String} {f : Function}
    (h : (Reader.read {} (.ofText text.toList)).2.result.outcome = .ok f) :
    (∃ sts, Presents (lines text.toList) sts ∧
      Presents (lines (ρ.relabelText text).toList) (sts.map (·.relabel ρ))) ∧
    (Reader.read {} (.ofText (ρ.relabelText text).toList)).2.result.outcome = .ok f := by
  rw [Reader.read_idle, Cursor.ofText, read_ok_iff] at h ⊢
  obtain ⟨sts, d, d', hsts, hd, hclose, rfl⟩ := h
  have hrelabelled := hsts.relabel (ρ.map_shown_relabelText text)
  refine ⟨⟨sts, hsts, hrelabelled⟩, sts.map (·.relabel ρ), d.relabel ρ, d'.relabel ρ, hrelabelled,
    ?_, ?_, rfl⟩
  · rw [← Draft.start_relabel ρ, Draft.takeAll_relabel, hd, Option.map_some]
  · rw [Draft.close_relabel, hclose, Option.map_some]

/-- A label gets the name of a keyword, and a register of its old name keeps it. -/
theorem read_relabelText_keyword : ∃ ρ text text' f, ρ.name "l" = "goto" ∧
    text = "\x7b\n  reg l\nl:\n  l := l + l # goto l\n  if (l) goto l\n\x7d" ∧
    text' = "\x7b\n  reg l\ngoto:\n  l := l + l # goto l\n  if (l) goto goto\n\x7d" ∧
    Renaming.relabelText ρ text = text' ∧ f.successorsOf ⟨2⟩ = [⟨2⟩, ⟨1⟩] ∧
    (Reader.read {} (.ofText text.toList)).2.result.outcome = .ok f ∧
    (Reader.read {} (.ofText text'.toList)).2.result.outcome = .ok f := by
  have htext : (Renaming.swap "l" "goto" (by decide) (by decide) (by decide)).relabelText
      "\x7b\n  reg l\nl:\n  l := l + l # goto l\n  if (l) goto l\n\x7d" =
      "\x7b\n  reg l\ngoto:\n  l := l + l # goto l\n  if (l) goto goto\n\x7d" := by
    decide +kernel
  have hview : ((Reader.read {} (.ofText
      "\x7b\n  reg l\nl:\n  l := l + l # goto l\n  if (l) goto l\n\x7d".toList)).2.result.outcome
        |>.toOption.map (successorsOf · ⟨2⟩)) = some [⟨2⟩, ⟨1⟩] := by
    decide +kernel
  obtain ⟨f, hf, hsucc⟩ := Option.map_eq_some_iff.mp hview
  have hread := eq_ok_of_toOption hf
  have hagain := (read_relabelText (.swap "l" "goto" (by decide) (by decide) (by decide)) hread).2
  rw [htext] at hagain
  exact ⟨_, _, _, f, rfl, rfl, rfl, htext, hsucc, hread, hagain⟩

end FlowGraph.Function
