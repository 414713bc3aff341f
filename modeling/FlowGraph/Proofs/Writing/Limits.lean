import FlowGraph.Program.Writing
import FlowGraph.Proofs.Outcome

/-!
# Sinks with a limit

A writer puts its text in many pieces, and a sink that runs full may stop it anywhere. All that
counts is the text as a whole: every writer comes to putting one text and then ending in one way, so
a sink with a limit gets the start of the text that a sink without one gets.
-/

namespace FlowGraph

open Text

set_option autoImplicit false

namespace Text

theorem Sink.put_unlimited (s text : String) :
    put s ⟨text, none⟩ = .ok () ⟨text ++ s, none⟩ := rfl

theorem Sink.put_of_fits {s : String} {room : Nat} (h : s.length ≤ room) (text : String) :
    put s ⟨text, some room⟩ = .ok () ⟨text ++ s, some (room - s.length)⟩ := if_pos h

theorem Sink.put_of_full {s : String} {room : Nat} (h : room < s.length) (text : String) :
    put s ⟨text, some room⟩ =
      .error .sinkFull ⟨text ++ String.ofList (s.toList.take room), some 0⟩ :=
  if_neg (Nat.not_le.mpr h)

/-- It makes no difference whether a text is put at once or in two pieces. -/
theorem Sink.put_append (s t : String) : put (s ++ t) = (do put s; put t) := by
  funext ⟨text, room⟩
  have hlength : (s ++ t).length = s.length + t.length := String.length_append s t
  cases room with
  | none =>
    rw [step_bind_of_ok (put_unlimited s text), put_unlimited, put_unlimited, String.append_assoc]
  | some room =>
    by_cases hs : s.length ≤ room
    · rw [step_bind_of_ok (put_of_fits hs text)]
      by_cases ht : t.length ≤ room - s.length
      · have hst : (s ++ t).length ≤ room := by omega
        rw [put_of_fits hst, put_of_fits ht, String.append_assoc, hlength, Nat.sub_add_eq]
      · have hst : room < (s ++ t).length := by omega
        have hwhole : s.toList.length ≤ room := by rwa [String.length_toList]
        rw [put_of_full hst, put_of_full (Nat.not_le.mp ht), String.toList_append,
          List.take_append, List.take_of_length_le hwhole, String.length_toList,
          String.ofList_append, String.ofList_toList, String.append_assoc]
    · have hst : room < (s ++ t).length := by omega
      have hcut : room ≤ s.toList.length := by
        rw [String.length_toList]
        omega
      rw [step_bind_of_error (put_of_full (Nat.not_le.mp hs) text), put_of_full hst,
        String.toList_append, List.take_append_of_le_length hcut]

namespace Emit

def ending : Except Error Unit → Emit Unit
  | .ok () => pure ()
  | .error e => throw e

/-- The step comes to putting one text and then ending in one way, whatever the sink. -/
def Fixed (step : Emit Unit) : Prop :=
  ∃ (text : String) (result : Except Error Unit), step = (do Sink.put text; ending result)

namespace Fixed

theorem put (s : String) : Fixed (Sink.put s) := by
  refine ⟨s, .ok (), ?_⟩
  exact (bind_pure (Sink.put s)).symm

theorem ending (result : Except Error Unit) : Fixed (ending result) := by
  refine ⟨"", result, ?_⟩
  funext ⟨text, room⟩
  have hput : Sink.put "" ⟨text, room⟩ = .ok () ⟨text, room⟩ := by
    cases room with
    | none => rw [Sink.put_unlimited, String.append_empty]
    | some room =>
      rw [Sink.put_of_fits (Nat.zero_le room), String.append_empty]
      rfl
  rw [step_bind_of_ok hput]

theorem pure : Fixed (Pure.pure ()) := ending (.ok ())

theorem throw (e : Error) : Fixed (throw e) := ending (.error e)

theorem bind {step : Emit Unit} {rest : Unit → Emit Unit} (hstep : Fixed step)
    (hrest : Fixed (rest ())) : Fixed (step >>= rest) := by
  obtain ⟨s, result, rfl⟩ := hstep
  obtain ⟨t, result', hrest⟩ := hrest
  cases result with
  | ok u =>
    refine ⟨s ++ t, result', ?_⟩
    rw [Sink.put_append, bind_assoc, bind_assoc, ← hrest]
    rfl
  | error e =>
    refine ⟨s, .error e, ?_⟩
    rw [bind_assoc]
    rfl

end Fixed

/-- What becomes of a text and its ending if only `n` characters fit. -/
def clip (n : Nat) (written : String × Except Error Unit) : String × Except Error Unit :=
  if written.1.length ≤ n then written
  else (String.ofList (written.1.toList.take n), .error .sinkFull)

theorem into_of_ok {step : Emit Unit} {room : Option Nat} {sink : Sink}
    (h : step { room } = .ok () sink) : step.into room = (sink.text, .ok ()) := by
  rw [into, h]

theorem into_of_error {step : Emit Unit} {room : Option Nat} {sink : Sink} {e : Error}
    (h : step { room } = .error e sink) : step.into room = (sink.text, .error e) := by
  rw [into, h]

theorem into_ending (result : Except Error Unit) {step : Emit Unit} {room : Option Nat}
    {sink : Sink} (h : step { room } = .ok () sink) :
    into (do step; ending result) room = (sink.text, result) := by
  cases result with
  | ok u => exact into_of_ok (step_bind_of_ok h)
  | error e => exact into_of_error (step_bind_of_ok h)

theorem Fixed.into_some {step : Emit Unit} (h : Fixed step) (n : Nat) :
    step.into (some n) = clip n (step.into none) := by
  obtain ⟨t, result, rfl⟩ := h
  rw [into_ending result (Sink.put_unlimited t ""), String.empty_append]
  by_cases ht : t.length ≤ n
  · rw [into_ending result (Sink.put_of_fits ht ""), String.empty_append]
    exact (if_pos ht).symm
  · have hfull := Sink.put_of_full (Nat.not_le.mp ht) ""
    rw [into_of_error (step_bind_of_error hfull), String.empty_append]
    exact (if_neg ht).symm

end Emit

end Text

namespace Function

open Text.Emit

theorem fixed_writeInstruction (f : Function) (insn : Instruction) :
    Fixed (f.writeInstruction insn) := by
  unfold writeInstruction
  split
  · exact (Fixed.put _).bind ((Fixed.put _).bind ((Fixed.put _).bind
      ((Fixed.put _).bind (.put _))))
  · exact (Fixed.put _).bind ((Fixed.put _).bind (.put _))
  · exact .throw _
  · exact .put _
  · exact .throw _

theorem fixed_writeRegisters (names : List String) : Fixed (writeRegisters names) := by
  induction names with
  | nil => exact .pure
  | cons name names ih => exact (Fixed.put _).bind ih

theorem fixed_writeInstructions (f : Function) (insns : List Instruction) :
    Fixed (f.writeInstructions insns) := by
  induction insns with
  | nil => exact .pure
  | cons insn insns ih =>
    exact (Fixed.put _).bind ((f.fixed_writeInstruction insn).bind ((Fixed.put _).bind ih))

theorem fixed_writeFallThrough (block : Block) (next : Option BlockId) :
    Fixed (writeFallThrough block next) := by
  unfold writeFallThrough
  split
  · split
    · exact .pure
    · exact .put _
  · exact .pure

theorem fixed_writeBlocks (f : Function) (blocks : List Block) :
    Fixed (f.writeBlocks blocks) := by
  induction blocks with
  | nil => exact .pure
  | cons block blocks ih =>
    refine (Fixed.put _).bind ?_
    refine (f.fixed_writeInstructions _).bind ?_
    exact (fixed_writeFallThrough block _).bind ih

theorem fixed_write (f : Function) : Fixed f.write := by
  unfold write
  split
  · exact .throw _
  · refine (Fixed.put _).bind ((fixed_writeRegisters _).bind ?_)
    exact (f.fixed_writeBlocks _).bind (.put _)

end Function

namespace Program

open Text.Emit

theorem fixed_writeFunction (name : String) (f : Function) : Fixed (writeFunction name f) :=
  (Fixed.put _).bind f.fixed_write

theorem fixed_writeMore (functions : List (String × Function)) : Fixed (writeMore functions) := by
  induction functions with
  | nil => exact .pure
  | cons entry functions ih =>
    exact (Fixed.put _).bind ((fixed_writeFunction entry.1 entry.2).bind ih)

theorem fixed_write (p : Program) : Fixed p.write := by
  unfold write
  split
  · exact .pure
  · exact (fixed_writeFunction _ _).bind (fixed_writeMore _)

end Program

/-- A sink that takes `n` characters gets the first `n` of those that a sink without a limit gets.
-/
theorem limited_sink_gets_start (n : Nat) :
    (∀ (f : Function) (insn : Instruction), (f.writeInstruction insn).into (some n) =
      Emit.clip n ((f.writeInstruction insn).into none)) ∧
    (∀ f : Function, f.write.into (some n) = Emit.clip n (f.write.into none)) ∧
    ∀ p : Program, p.write.into (some n) = Emit.clip n (p.write.into none) := by
  refine ⟨fun f insn => ?_, fun f => ?_, fun p => ?_⟩
  · exact (f.fixed_writeInstruction insn).into_some n
  · exact f.fixed_write.into_some n
  · exact p.fixed_write.into_some n

end FlowGraph
