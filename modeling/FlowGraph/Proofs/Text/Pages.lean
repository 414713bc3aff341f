import FlowGraph.Proofs.Outcome
import FlowGraph.Text.Cursor
import FlowGraph.Text.Sink
import Mathlib.Data.List.TakeWhile

/-!
# Pages

A page is the text of a list of lines. A writer that meets no limit is told by the page that it
adds to its sink, and a reader finds the lines of the page again.
-/

namespace FlowGraph.Text

set_option autoImplicit false

def page : List String → String
  | [] => ""
  | line :: lines => line ++ "\n" ++ page lines

theorem page_append (ls ms : List String) : page (ls ++ ms) = page ls ++ page ms := by
  induction ls with
  | nil => exact String.empty_append.symm
  | cons l ls ih =>
    simp only [List.cons_append, page, ih, String.append_assoc]

theorem append_page_cons (s l : String) (ls : List String) :
    s ++ page (l :: ls) = page ((s ++ l) :: ls) := by
  simp only [page, String.append_assoc]

/-- A line without ends of lines and comments, which reads as it stands. -/
def isPlain (line : List Char) : Bool :=
  line.all fun c => c != '\n' && c != '\r' && c != '#'

theorem isPlain_append (cs ds : List Char) :
    isPlain (cs ++ ds) = (isPlain cs && isPlain ds) := List.all_append

theorem lines_cons {c : Char} {cs : List Char} (hn : c ≠ '\n')
    (hr : c = '\r' → cs.head? ≠ some '\n') : lines (c :: cs) = consLine c (lines cs) := by
  rw [lines]
  · exact hn
  · rintro ds hc rfl
    exact hr hc rfl

theorem lines_append {line : List Char} (h : isPlain line = true) (cs : List Char) :
    lines (line ++ '\n' :: cs) = line :: lines cs := by
  induction line with
  | nil => rfl
  | cons c line ih =>
    simp only [isPlain, List.all_cons, Bool.and_eq_true, bne_iff_ne] at h
    rw [List.cons_append, lines_cons h.1.1.1 fun hr => absurd hr h.1.1.2, ih h.2]
    rfl

theorem consLine_append (c : Char) {ls : List (List Char)} (h : ls ≠ []) (ms : List (List Char)) :
    consLine c (ls ++ ms) = consLine c ls ++ ms := by
  cases ls with
  | nil => exact absurd rfl h
  | cons l ls => rfl

theorem lines_ne_nil {cs : List Char} (h : cs ≠ []) : lines cs ≠ [] := by
  fun_cases lines cs with
  | case1 => exact absurd rfl h
  | case2 cs => exact List.cons_ne_nil _ _
  | case3 cs => exact List.cons_ne_nil _ _
  | case4 c cs => cases lines cs <;> exact List.cons_ne_nil _ _

/-- Where a line feed ends the first part of a text, the parts do not share a line. -/
theorem lines_append_feed (cs ds : List Char) :
    lines (cs ++ '\n' :: ds) = lines (cs ++ ['\n']) ++ lines ds := by
  induction cs using lines.induct with
  | case1 => rfl
  | case2 cs ih => simp only [List.cons_append, lines, ih]
  | case3 cs ih => simp only [List.cons_append, lines, ih]
  | case4 c cs hn hr ih =>
    by_cases hc : c = '\r' ∧ cs = []
    · obtain ⟨rfl, rfl⟩ := hc
      rfl
    · have hhead : ∀ es, c = '\r' → (cs ++ '\n' :: es).head? ≠ some '\n' := by
        intro es hret
        cases cs with
        | nil => exact absurd ⟨hret, rfl⟩ hc
        | cons d cs =>
          intro hd
          exact hr cs hret (by rw [Option.some.inj hd])
      rw [List.cons_append, List.cons_append, lines_cons hn (hhead ds),
        lines_cons hn (hhead []), ih]
      exact consLine_append c (lines_ne_nil (by simp)) _

theorem lines_page {ls : List String} (h : ∀ l ∈ ls, isPlain l.toList = true) :
    lines (page ls).toList = ls.map String.toList := by
  induction ls with
  | nil => rfl
  | cons l ls ih =>
    rw [page, String.toList_append, String.toList_append, List.append_assoc]
    change lines (l.toList ++ '\n' :: (page ls).toList) = _
    rw [lines_append (h l List.mem_cons_self), ih fun m hm => h m (List.mem_cons_of_mem l hm)]
    rfl

theorem visible_of_isPlain {line : List Char} (h : isPlain line = true) :
    LineCursor.visible line = line := by
  refine List.takeWhile_eq_self_iff.mpr ?_
  intro c hc
  have hc := List.all_eq_true.mp h c hc
  simp only [Bool.and_eq_true, bne_iff_ne] at hc
  simpa using hc.2

/-- Whatever was written before, the step adds this text. -/
def Emits (step : Emit Unit) (text : String) : Prop :=
  ∀ sink : Sink, sink.room = none → step sink = .ok () { sink with text := sink.text ++ text }

namespace Emits

variable {step : Emit Unit} {s t : String}

theorem put (s : String) : Emits (Sink.put s) s := by
  intro sink hroom
  rw [Sink.put, hroom]

theorem pure : Emits (Pure.pure ()) "" := by
  intro sink _
  change EStateM.Result.ok () sink = .ok () { sink with text := sink.text ++ "" }
  rw [String.append_empty]

theorem bind {rest : Unit → Emit Unit} (h : Emits step s) (hrest : Emits (rest ()) t) :
    Emits (step >>= rest) (s ++ t) := by
  intro sink hroom
  rw [step_bind_of_ok (h sink hroom), ← String.append_assoc]
  exact hrest _ hroom

theorem toText (h : Emits step t) : step.toText = .ok t := by
  rw [Emit.toText, h {} rfl]
  exact congrArg Except.ok String.empty_append

end Emits

end FlowGraph.Text
