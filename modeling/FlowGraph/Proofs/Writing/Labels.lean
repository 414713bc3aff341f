import FlowGraph.Proofs.Text.Rewriting
import FlowGraph.Proofs.Writing.Sections

/-!
# Labels as tokens

An identifier goes on until a character follows that cannot belong to it, and all of it is read at
once. Labels are identifiers, and no two blocks share one. So a label in a text is read as it is,
whatever stands behind it, and names one block.
-/

namespace FlowGraph

open Text

set_option autoImplicit false

namespace Text

variable {c : LineCursor} {cs w s : List Char} {name : String}

theorem LineCursor.advance_advance (c : LineCursor) (m n : Nat) :
    (c.advance m).advance n = c.advance (m + n) := by
  simp only [advance, List.drop_drop, Nat.add_assoc]

theorem LineCursor.skipBlanks_of_rest {d : Char} (hw : ∀ x ∈ w, isBlank x = true)
    (hd : isBlank d = false) (hrest : c.rest = w ++ d :: s) :
    c.skipBlanks = c.advance w.length := by
  rw [skipBlanks, hrest, List.takeWhile_append_of_pos hw,
    List.takeWhile_cons_of_neg (by simp [hd]), List.append_nil]

theorem Scan.identifier_of_rest (hname : isIdentifier name.toList = true)
    (hw : ∀ x ∈ w, isBlank x = true) (hs : endsWord s = true)
    (hrest : c.rest = w ++ (name.toList ++ s)) :
    identifier c = .ok name (c.advance (w.length + name.toList.length)) := by
  cases hcs : name.toList with
  | nil =>
    rw [hcs] at hname
    cases hname
  | cons d ds =>
    rw [hcs] at hrest hname
    simp only [isIdentifier, Bool.and_eq_true, List.all_eq_true] at hname
    have hskip := LineCursor.skipBlanks_of_rest hw (isBlank_of_isIdStart hname.1) hrest
    have hleft : c.skipBlanks.rest = d :: (ds ++ s) := by
      rw [hskip, LineCursor.advance, hrest]
      exact List.drop_left
    have htail : (ds ++ s).takeWhile isIdRest = ds := by
      rw [takeWhile_append_of_endsWord ds hs]
      exact List.takeWhile_eq_self_iff.mpr hname.2
    simp only [identifier, hleft, hname.1, if_true, htail]
    rw [hskip, LineCursor.advance_advance, ← hcs, String.ofList_toList, hcs, List.length_cons]

theorem ne_of_isIdRest {x : Char} (h : isIdRest x = true) : x ≠ '#' ∧ x ≠ '\n' := by
  refine ⟨?_, ?_⟩
  · rintro rfl
    exact absurd h (by decide)
  · rintro rfl
    exact absurd h (by decide)

theorem Cursor.ofText_line (hne : cs ≠ []) (h : ∀ x ∈ cs, x ≠ '#' ∧ x ≠ '\n') :
    Cursor.ofText cs = { line := { rest := cs } } := by
  have hsign : '#' ∉ cs := fun hmem => (h _ hmem).1 rfl
  have hfeed : '\n' ∉ cs := fun hmem => (h _ hmem).2 rfl
  have hvisible : LineCursor.visible (cs ++ []) = cs := visible_append_comment hsign (.inl rfl)
  rw [List.append_nil] at hvisible
  rw [ofText, lines_of_notMem hfeed hne, ofLines, LineCursor.start, hvisible]

theorem Cursor.scan_identifier (hname : isIdentifier name.toList = true)
    (hw : ∀ x ∈ w, isBlank x = true) (hs : endsWord s = true)
    (hline : ∀ x ∈ w ++ s, x ≠ '#' ∧ x ≠ '\n') :
    (Cursor.ofText (w ++ name.toList ++ s)).scan Scan.identifier =
      (.ok name, { line := { taken := w.length + name.toList.length, rest := s } }) := by
  have hne : w ++ name.toList ++ s ≠ [] := by
    intro hnil
    rw [List.append_eq_nil_iff, List.append_eq_nil_iff] at hnil
    rw [hnil.1.2] at hname
    cases hname
  have hall : ∀ x ∈ w ++ name.toList ++ s, x ≠ '#' ∧ x ≠ '\n' := by
    intro x hx
    rw [List.append_assoc, List.mem_append, List.mem_append] at hx
    rcases hx with hx | hx | hx
    · exact hline x (List.mem_append_left s hx)
    · exact ne_of_isIdRest (isIdRest_of_mem hname hx)
    · exact hline x (List.mem_append_right w hx)
  have hread := Scan.identifier_of_rest (c := { rest := w ++ name.toList ++ s }) hname hw hs
    (List.append_assoc ..)
  have hleft : ({ rest := w ++ name.toList ++ s } : LineCursor).advance
      (w.length + name.toList.length) =
        { taken := w.length + name.toList.length, rest := s } := by
    rw [LineCursor.advance, Nat.zero_add, List.drop_left' List.length_append]
  rw [ofText_line hne hall]
  simp only [scan, hread, hleft]

end Text

/-- No two blocks share a label, and a label or any other identifier is read whole. -/
theorem labels_unambiguous :
    (∀ b c : BlockId, b.label = c.label → b = c) ∧
    (∀ (b : BlockId) (w s : List Char), (∀ x ∈ w, isBlank x = true) → endsWord s = true →
      (∀ x ∈ w ++ s, x ≠ '#' ∧ x ≠ '\n') →
      (Cursor.ofText (w ++ b.label.toList ++ s)).scan Scan.identifier =
        (.ok b.label, { line := { taken := w.length + b.label.toList.length, rest := s } })) ∧
    ∀ (name : String) (w s : List Char), isIdentifier name.toList = true →
      (∀ x ∈ w, isBlank x = true) → endsWord s = true → (∀ x ∈ w ++ s, x ≠ '#' ∧ x ≠ '\n') →
      (Cursor.ofText (w ++ name.toList ++ s)).scan Scan.identifier =
        (.ok name, { line := { taken := w.length + name.toList.length, rest := s } }) := by
  refine ⟨fun b c => BlockId.label_inj, ?_, ?_⟩
  · intro b w s hw hs hline
    exact Cursor.scan_identifier b.isIdentifier_label hw hs hline
  · intro name w s hname hw hs hline
    exact Cursor.scan_identifier hname hw hs hline

/-- A label in front of a colon, and a name with an ideographic space in front of it and a carriage
return behind it. -/
theorem label_and_name_unambiguous :
    (Cursor.ofText ([' ', '\t'] ++ (⟨12⟩ : BlockId).label.toList ++ [':', ' '])).scan
      Scan.identifier = (.ok "_12", { line := { taken := 5, rest := [':', ' '] } }) ∧
    (Cursor.ofText (['\u3000'] ++ "größe_2".toList ++ ['\r'])).scan Scan.identifier =
      (.ok "größe_2", { line := { taken := 8, rest := ['\r'] } }) ∧
    BlockId.exit.label = (⟨1⟩ : BlockId).label ∧ BlockId.exit = ⟨1⟩ := by
  refine ⟨?_, ?_, rfl, labels_unambiguous.1 .exit ⟨1⟩ rfl⟩
  · exact labels_unambiguous.2.1 ⟨12⟩ [' ', '\t'] [':', ' ']
      (List.all_eq_true.mp (by decide)) (by decide) (by simp)
  · exact labels_unambiguous.2.2 "größe_2" ['\u3000'] ['\r'] (by decide)
      (List.all_eq_true.mp (by decide)) (by decide) (by simp)

end FlowGraph
