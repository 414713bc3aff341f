import FlowGraph.Proofs.Program.Definitions
import FlowGraph.Proofs.Program.TableReader

/-!
# Readers used again

A reader may be used for one text after the other. Once it has failed it refuses to read until it is
reset. A reader that does not refuse reads as a new one does, whatever it was used for before.
-/

namespace FlowGraph

open Text

set_option autoImplicit false

inductive Call (α : Type) where
  | read (input : α)
  | reset

/-- How a reader with the state `ρ` is used. -/
structure Device (ρ α β : Type) where
  read : ρ → α → ρ × Reading β
  reset : ρ → ρ

namespace Device

variable {ρ σ α β : Type} {d : Device ρ α β} {e : Device σ α β} {r : ρ} {calls : List (Call α)}

def step (d : Device ρ α β) (r : ρ) : Call α → ρ
  | .read a => (d.read r a).1
  | .reset => d.reset r

def after (d : Device ρ α β) (r : ρ) (calls : List (Call α)) : ρ := calls.foldl d.step r

/-- A read has failed, and there was no reset since. -/
def Spoiled (d : Device ρ α β) (r : ρ) (calls : List (Call α)) : Prop :=
  ∃ earlier a later error, calls = earlier ++ .read a :: later ∧ .reset ∉ later ∧
    (d.read (d.after r earlier) a).2.result.outcome = .error error

theorem after_concat (call : Call α) :
    d.after r (calls ++ [call]) = d.step (d.after r calls) call := List.foldl_concat ..

theorem not_spoiled_nil : ¬ d.Spoiled r [] := by
  rintro ⟨earlier, a, later, error, hcalls, -⟩
  exact List.append_ne_nil_of_right_ne_nil _ (List.cons_ne_nil _ _) hcalls.symm

/-- The last call is the read that failed, or it came later and is no reset. -/
theorem spoiled_concat_iff {call : Call α} : d.Spoiled r (calls ++ [call]) ↔
    (call ≠ .reset ∧ d.Spoiled r calls) ∨
      ∃ a error, call = .read a ∧ (d.read (d.after r calls) a).2.result.outcome = .error error := by
  constructor
  · rintro ⟨earlier, a, later, error, hcalls, hlater, hfailed⟩
    obtain rfl | ⟨later, last, rfl⟩ := List.eq_nil_or_concat later
    · obtain ⟨rfl, hcall⟩ := List.append_inj' hcalls rfl
      exact .inr ⟨a, error, List.singleton_inj.mp hcall, hfailed⟩
    · rw [List.concat_eq_append, ← List.cons_append, ← List.append_assoc] at hcalls
      rw [List.concat_eq_append] at hlater
      obtain ⟨rfl, hcall⟩ := List.append_inj' hcalls rfl
      obtain rfl := List.singleton_inj.mp hcall
      refine .inl ⟨?_, earlier, a, later, error, rfl, ?_, hfailed⟩
      · rintro rfl
        exact hlater (List.mem_append_right _ List.mem_cons_self)
      · exact fun hreset => hlater (List.mem_append_left _ hreset)
  · rintro (⟨hcall, earlier, a, later, error, rfl, hlater, hfailed⟩ | ⟨a, error, rfl, hfailed⟩)
    · refine ⟨earlier, a, later ++ [call], error, ?_, ?_, hfailed⟩
      · rw [List.append_assoc, List.cons_append]
      · rw [List.mem_append, List.mem_singleton]
        rintro (hreset | hreset)
        · exact hlater hreset
        · exact hcall hreset.symm
    · exact ⟨calls, a, [], error, rfl, List.not_mem_nil, hfailed⟩

/-- The reader has a flag that goes up when it fails. While it is up, the reader refuses to read and
nothing changes. -/
structure Flagged (d : Device ρ α β) (active : ρ → Bool) (kind : ReaderKind)
    (place : ρ → α → Cursor) : Prop where
  refuse : ∀ r a, active r = true →
    d.read r a = (r, ⟨{ outcome := .error (.readerBusy kind) }, place r a⟩)
  ready : ∀ r a kind', active r = false →
    (d.read r a).2.result.outcome ≠ .error (.readerBusy kind')
  read : ∀ r a, active r = false → active (d.read r a).1 = !(d.read r a).2.result.outcome.isOk
  reset : ∀ r, active (d.reset r) = false

section flag

variable {active : ρ → Bool} {kind : ReaderKind} {place : ρ → α → Cursor}

theorem Flagged.active_read_iff (h : d.Flagged active kind place) (r : ρ) (a : α) :
    active (d.read r a).1 = true ↔ active r = true ∨
      ∃ error, (d.read r a).2.result.outcome = .error error := by
  cases hr : active r with
  | true =>
    rw [h.refuse r a hr]
    simp [hr]
  | false =>
    rw [h.read r a hr]
    cases (d.read r a).2.result.outcome with
    | ok b => simp [Except.isOk, Except.toBool]
    | error e => simp [Except.isOk, Except.toBool]

/-- The flag is up just if the reader is spoiled. -/
theorem Flagged.active_iff (h : d.Flagged active kind place) (hr : active r = false)
    (calls : List (Call α)) : active (d.after r calls) = true ↔ d.Spoiled r calls := by
  induction calls using List.reverseRecOn with
  | nil =>
    refine iff_of_false ?_ not_spoiled_nil
    change ¬ active r = true
    rw [hr]
    exact Bool.false_ne_true
  | append_singleton calls call ih =>
    rw [after_concat, spoiled_concat_iff, ← ih]
    cases call with
    | reset => simp [step, h.reset]
    | read a => simp [step, h.active_read_iff]

/-- A read is refused just if one has failed since the last reset, and every other read is that of a
new reader. -/
structure SafeToReuse (d : Device ρ α β) (kind : ReaderKind) (place : ρ → α → Cursor)
    (renew : ρ → ρ) (r : ρ) : Prop where
  refused_iff : ∀ calls a,
    (∃ kind', (d.read (d.after r calls) a).2.result.outcome = .error (.readerBusy kind')) ↔
      d.Spoiled r calls
  refused : ∀ calls a, d.Spoiled r calls → d.read (d.after r calls) a =
    (d.after r calls, ⟨{ outcome := .error (.readerBusy kind) }, place (d.after r calls) a⟩)
  fresh : ∀ calls a, ¬ d.Spoiled r calls →
    d.read (d.after r calls) a = d.read (renew (d.after r calls)) a

theorem Flagged.safeToReuse (h : d.Flagged active kind place) (hr : active r = false)
    {renew : ρ → ρ} (hrenew : ∀ r, active r = false → renew r = r) :
    d.SafeToReuse kind place renew r := by
  have hidle : ∀ calls, ¬ d.Spoiled r calls → active (d.after r calls) = false := by
    intro calls hcalls
    rw [← h.active_iff hr] at hcalls
    exact Bool.eq_false_of_not_eq_true hcalls
  refine ⟨?_, ?_, ?_⟩
  · intro calls a
    constructor
    · rintro ⟨kind', hbusy⟩
      apply Classical.byContradiction
      intro hcalls
      exact h.ready _ a kind' (hidle calls hcalls) hbusy
    · intro hcalls
      rw [h.refuse _ a ((h.active_iff hr calls).mpr hcalls)]
      exact ⟨kind, rfl⟩
  · intro calls a hcalls
    exact h.refuse _ a ((h.active_iff hr calls).mpr hcalls)
  · intro calls a hcalls
    rw [hrenew _ (hidle calls hcalls)]

end flag

/-- Whatever the two readers are used for, they answer alike. -/
theorem answers_eq {R : σ → ρ → Prop}
    (hread : ∀ s r a, R s r → (e.read s a).2 = (d.read r a).2 ∧ R (e.read s a).1 (d.read r a).1)
    (hreset : ∀ s r, R s r → R (e.reset s) (d.reset r)) {s : σ} (h : R s r)
    (calls : List (Call α)) (a : α) :
    (e.read (e.after s calls) a).2 = (d.read (d.after r calls) a).2 := by
  induction calls generalizing s r with
  | nil => exact (hread s r a h).1
  | cons call calls ih =>
    cases call with
    | read b => exact ih (hread s r b h).2
    | reset => exact ih (hreset s r h)

end Device

namespace Function

def Reader.device : Device Reader Cursor Function := ⟨read, reset⟩

def TableReader.device : Device TableReader Cursor Function := ⟨read, reset⟩

theorem Reader.read_device (r : Reader) (c : Cursor) : device.read r c = r.read c := rfl

theorem Reader.flagged : device.Flagged active .function fun _ c => c where
  refuse := fun _ c h => read_of_active h c
  ready := by
    intro r c kind h hbusy
    rw [read_device, read_of_idle h] at hbusy
    obtain ⟨_, _, _, herror⟩ | ⟨_, herror⟩ := fromText_of_read hbusy
    · cases herror
    · cases herror
  read := by
    intro r c h
    rw [read_device, read_of_idle h]
  reset := fun _ => rfl

theorem TableReader.answers_eq (calls : List (Call Cursor)) (c : Cursor) :
    (TableReader.device.read (TableReader.device.after {} calls) c).2 =
      (Reader.device.read (Reader.device.after {} calls) c).2 := by
  refine Device.answers_eq (R := fun s r => s.active = r.active) ?_ (fun _ _ _ => rfl) rfl calls c
  intro s r c h
  change (s.read c).2 = (r.read c).2 ∧ (s.read c).1.active = (r.read c).1.active
  cases hr : r.active with
  | true =>
    rw [read_of_active (h.trans hr), Reader.read_of_active hr]
    exact ⟨rfl, h⟩
  | false =>
    rw [Reader.read_of_idle hr]
    exact read_of_idle (h.trans hr) c

end Function

namespace Program

/-- The place of a reading is that of the reader. -/
def Reader.device : Device Reader Unit Program where
  read := fun q _ => (q.read.1, ⟨q.read.2, q.read.1.cursor⟩)
  reset := reset

def TableReader.device : Device TableReader Unit Program where
  read := fun r _ => (r.read.1, ⟨r.read.2, r.read.1.cursor⟩)
  reset := reset

theorem Reader.read_device (q : Reader) (a : Unit) :
    device.read q a = (q.read.1, ⟨q.read.2, q.read.1.cursor⟩) := rfl

theorem Reader.flagged : device.Flagged active .program fun q _ => q.cursor where
  refuse := by
    intro q _ h
    rw [read_device, read_of_active h]
  ready := by
    intro q _ kind h hbusy
    rw [read_device, read_of_idle h] at hbusy
    obtain ⟨_, _, _, herror⟩ | ⟨_, herror⟩ :=
      fromText_of_readOn { policy := q.policy } (some q.cursor) hbusy
    · cases herror
    · cases herror
  read := by
    intro q _ h
    rw [read_device, read_of_idle h]
  reset := fun _ => rfl

theorem Reader.policy_after (q : Reader) (calls : List (Call Unit)) :
    (device.after q calls).policy = q.policy := by
  have hread : ∀ q : Reader, q.read.1.policy = q.policy := by
    intro q
    cases h : q.active with
    | true => rw [read_of_active h]
    | false => rw [read_of_idle h]
  induction calls generalizing q with
  | nil => rfl
  | cons call calls ih =>
    cases call with
    | read a => exact (ih q.read.1).trans (hread q)
    | reset => exact ih q.reset

theorem TableReader.answers_eq (c : Cursor) (policy : DuplicatePolicy) (calls : List (Call Unit)) :
    (TableReader.device.read (TableReader.device.after { cursor := c, policy } calls) ()).2 =
      (Reader.device.read (Reader.device.after { cursor := c, policy } calls) ()).2 := by
  refine Device.answers_eq (R := Matches) ?_ (fun _ _ h => h.reset)
    ⟨rfl, rfl, rfl, fun _ => rfl⟩ calls ()
  intro r q _ h
  obtain ⟨hresult, hmatches⟩ := h.read
  refine ⟨?_, hmatches⟩
  change Reading.mk r.read.2 r.read.1.cursor = Reading.mk q.read.2 q.read.1.cursor
  rw [hresult, hmatches.cursor]

end Program

/-- What a reader was used for before does not matter, with or without tables that it keeps. -/
theorem readers_safe_to_reuse :
    Function.Reader.device.SafeToReuse .function (fun _ c => c) (fun _ => {}) {} ∧
    (∀ calls c,
      (Function.TableReader.device.read (Function.TableReader.device.after {} calls) c).2 =
        (Function.Reader.device.read (Function.Reader.device.after {} calls) c).2) ∧
    ∀ (c : Cursor) (policy : DuplicatePolicy),
      Program.Reader.device.SafeToReuse .program (fun q _ => q.cursor)
        (fun q => { cursor := q.cursor, policy := q.policy }) { cursor := c, policy } ∧
      ∀ calls,
        let q := Program.Reader.device.after { cursor := c, policy } calls
        let r := Program.TableReader.device.after { cursor := c, policy } calls
        (Program.TableReader.device.read r ()).2 = (Program.Reader.device.read q ()).2 ∧
          q.reset.cursor = q.cursor ∧ q.policy = policy := by
  refine ⟨?_, Function.TableReader.answers_eq, fun c policy => ⟨?_, ?_⟩⟩
  · refine Function.Reader.flagged.safeToReuse rfl ?_
    rintro ⟨active⟩ rfl
    rfl
  · refine Program.Reader.flagged.safeToReuse rfl ?_
    rintro ⟨cursor, policy, active⟩ rfl
    rfl
  · intro calls
    exact ⟨Program.TableReader.answers_eq c policy calls, rfl, Program.Reader.policy_after _ calls⟩

/-- A label of the first function is missing, which shows at its closing brace. -/
theorem reader_goes_on_after_reset :
    let fresh : Program.Reader :=
      { cursor := .ofText "fun f \x7b\ngoto x\n\x7d\nfun g \x7b\n\x7d".toList }
    let failed := Program.Reader.device.after fresh [.read ()]
    Program.Reader.device.Spoiled fresh [.read ()] ∧
    failed.read = (failed, { outcome := .error (.readerBusy .program) }) ∧
    ¬ Program.Reader.device.Spoiled fresh [.read (), .reset] ∧
    failed.reset.read = Program.Reader.read { cursor := failed.cursor, policy := failed.policy } ∧
    failed.reset.read.2.outcome.toOption.map Program.names = some ["g"] := by
  intro fresh failed
  obtain ⟨-, -, hprograms⟩ := readers_safe_to_reuse
  obtain ⟨hsafe, -⟩ := hprograms fresh.cursor .reject
  have herror : fresh.read.2.outcome = .error (.parse 3 2 (.undefinedLabel "x")) :=
    eq_error_of_map (g := fun _ => ()) (by decide +kernel)
  have hspoiled : Program.Reader.device.Spoiled fresh [.read ()] :=
    ⟨[], (), [], _, rfl, List.not_mem_nil, herror⟩
  have hreset : ¬ Program.Reader.device.Spoiled fresh [.read (), .reset] := by
    intro h
    have h' : Program.Reader.device.Spoiled fresh ([.read ()] ++ [.reset]) := h
    obtain ⟨hcall, -⟩ | ⟨_, _, hcall, -⟩ := Device.spoiled_concat_iff.mp h'
    · exact hcall rfl
    · cases hcall
  have hrefused := hsafe.refused [.read ()] () hspoiled
  have hfresh := hsafe.fresh [.read (), .reset] () hreset
  refine ⟨hspoiled, ?_, hreset, ?_, ?_⟩
  · exact Prod.ext (congrArg (·.1) hrefused) (congrArg (·.2.result) hrefused)
  · exact Prod.ext (congrArg (·.1) hfresh) (congrArg (·.2.result) hfresh)
  · decide +kernel

end FlowGraph
