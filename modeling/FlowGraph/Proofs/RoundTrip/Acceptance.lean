import FlowGraph.Proofs.RoundTrip.Isomorphism

/-!
# What readers accept

Every function that a reader accepts is complete, has only driven edges, and can be written. Every
program that a reader accepts holds such functions under different names.
-/

namespace FlowGraph

set_option autoImplicit false

open Text

namespace Function

/-- What a reader promises of a function. -/
structure Accepted (f : Function) : Prop where
  accounted : Accounted f fun _ _ => 0
  writable : f.Writable
  complete : f.Complete

def Outline.Spelled (o : Outline) : Prop := ∀ r ∈ o.registers, isIdentifier r.toList = true

theorem word_mem_tokens {st : Statement} {r : String} (h : r ∈ st.registers) :
    Token.word r ∈ st.tokens := by
  cases st with
  | register name => simp_all [Statement.registers, Statement.tokens]
  | perform op =>
    cases op <;> simp_all [Statement.registers, NamedOp.results, Statement.tokens, NamedOp.tokens]
  | label name => cases h
  | goto target => cases h

theorem Outline.Spelled.take {o o' : Outline} (hs : o.Spelled) {st : Statement}
    (hst : st.WellSpelled) (h : o.take st = some o') : o'.Spelled := by
  intro r hr
  rw [registers_take h] at hr
  rcases mem_enterAll.mp hr with hr | hr
  · exact hs r hr
  · exact hst r (word_mem_tokens hr)

theorem Outline.Spelled.close {o o' : Outline} (hs : o.Spelled) (h : o.close = some o') :
    o'.Spelled := by
  unfold Outline.close at h
  split at h
  · cases h
    intro r hr
    rw [registers_fallInto] at hr
    exact hs r hr
  · cases h

section drafts

variable {o : Outline} {d : Draft}

theorem Describes.writable (hd : Describes o d) (hv : o.Valid) (hs : o.Spelled) :
    d.function.Writable := by
  have hregisters := hd.registers
  refine hd.accounted.writable hd.encoded (hregisters ▸ hv.registers_nodup) (hregisters ▸ hs) ?_ ?_
  · intro b insn hinsn r hr
    exact hd.index_lt_registers hv hinsn hr
  · intro b insn hinsn hbranch
    obtain ⟨t, ht, -⟩ := hd.exists_target hv hinsn hbranch
    rw [ht]
    exact Option.some_ne_none t

theorem Describes.complete (hd : Describes o d) (hv : o.Valid)
    (hfalls : ∀ n ∈ o.labels, n ≠ "exit" → (o.falls n).isSome = true) : d.function.Complete := by
  obtain ⟨rest, hrest⟩ := hv.ends
  refine ⟨?_, ?_, ?_⟩
  · rw [← Outline.blockOf_entry hv]
    exact hd.isLive_blockOf (by simp [hrest])
  · rw [← Outline.blockOf_exit hv]
    exact hd.isLive_blockOf (by simp [hrest])
  · intro b hb hexit
    exact Option.isSome_iff_ne_none.mp (hd.isSome_fallThroughOf hv hfalls hb hexit)

end drafts

namespace Stage

/-- What is known of the lines that have been read. -/
def Sound : Stage → Prop
  | .header | .opening => True
  | .body d => ∃ o : Outline, o.Valid ∧ o.Linked ∧ o.Spelled ∧ Describes o d

variable {stage stage' : Stage} {line : LineCursor}

theorem sound_start : (Stage.body .start).Sound :=
  ⟨.start, Outline.valid_start, Outline.linked_start, fun _ hr => absurd hr List.not_mem_nil,
    describes_start⟩

theorem Sound.more (hs : stage.Sound) (h : (stage.feed line).verdict = .more stage') :
    stage'.Sound := by
  cases stage with
  | header =>
    rcases feed_header_more_iff.mp h with ⟨-, rfl⟩ | ⟨-, rfl⟩
    · exact trivial
    · exact sound_start
  | opening =>
    obtain ⟨-, rfl⟩ := feedOpening_more_iff.mp h
    exact sound_start
  | body d =>
    rcases feed_body_more_iff.mp h with ⟨-, rfl⟩ | ⟨st, d', htokens, htake, rfl⟩
    · exact hs
    · obtain ⟨o, hv, hl, hspelled, hd⟩ := hs
      have hst : st.WellSpelled := fun name hname =>
        isIdentifier_of_mem_tokens (htokens ▸ hname)
      obtain ⟨o', ho', hd'⟩ := Describes.Agree.exists_outline (htake ▸ hd.take hv st)
      exact ⟨o', hv.take ho', hl.take ho', hspelled.take hst ho', hd'⟩

theorem Sound.exists_describes (hs : stage.Sound) {f : Function}
    (h : (stage.feed line).verdict = .done f) :
    ∃ o d, o.Valid ∧ o.Spelled ∧ (∀ n ∈ o.labels, n ≠ "exit" → (o.falls n).isSome = true) ∧
      Describes o d ∧ d.function = f := by
  cases stage with
  | header => exact absurd h feed_header_ne_done
  | opening => exact absurd h feedOpening_ne_done
  | body d =>
    obtain ⟨-, d', hclose, rfl⟩ := feed_body_done_iff.mp h
    obtain ⟨o, hv, hl, hspelled, hd⟩ := hs
    obtain ⟨o', ho', hd'⟩ := Describes.Agree.exists_outline (hclose ▸ hd.close hv)
    exact ⟨o', d', hv.close ho', hspelled.close ho', hl.close ho', hd', rfl⟩

theorem Sound.done (hs : stage.Sound) {f : Function} (h : (stage.feed line).verdict = .done f) :
    f.Accepted := by
  obtain ⟨o, d, hv, hspelled, hfalls, hd, rfl⟩ := hs.exists_describes h
  exact ⟨hd.accounted, hd.writable hv hspelled, hd.complete hv hfalls⟩

end Stage

end Function

namespace Program

/-- What a reader promises of a program. -/
structure Accepted (p : Program) : Prop where
  names_nodup : p.names.Nodup
  names : ∀ name ∈ p.names, isIdentifier name.toList = true
  functions : ∀ entry ∈ p.functions, entry.2.Accepted

variable {p p' : Program} {name : String} {f : Function}

theorem find?_isSome_iff : (p.find? name).isSome = true ↔ name ∈ p.names := by
  rw [find?, names]
  induction p.functions with
  | nil => simp
  | cons entry entries ih =>
    obtain ⟨n, g⟩ := entry
    by_cases hn : name = n
    · simp [hn]
    · rw [List.lookup_cons, beq_false_of_ne hn, List.map_cons, List.mem_cons, ← ih]
      simp [hn]

theorem names_replace : (p.replace name f).names = p.names := by
  rw [names, names, replace, List.map_map]
  refine List.map_congr_left ?_
  intro entry _
  by_cases hn : entry.1 = name <;> simp [hn]

theorem Accepted.replace (h : p.Accepted) (hf : f.Accepted) : (p.replace name f).Accepted := by
  refine ⟨?_, ?_, ?_⟩
  · rw [names_replace]
    exact h.names_nodup
  · rw [names_replace]
    exact h.names
  · intro entry hentry
    obtain ⟨old, hold, rfl⟩ := List.mem_map.mp hentry
    split
    · exact hf
    · exact h.functions old hold

theorem Accepted.append (h : p.Accepted) (hname : isIdentifier name.toList = true)
    (hnew : name ∉ p.names) (hf : f.Accepted) :
    ({ p with functions := p.functions ++ [(name, f)] } : Program).Accepted := by
  have hnames : ({ p with functions := p.functions ++ [(name, f)] } : Program).names =
      p.names ++ [name] := List.map_append
  refine ⟨?_, ?_, ?_⟩
  · rw [hnames, List.nodup_append]
    refine ⟨h.names_nodup, by simp, ?_⟩
    intro a ha b hb heq
    rw [List.mem_singleton.mp hb] at heq
    exact hnew (heq ▸ ha)
  · intro n hn
    rw [hnames] at hn
    rcases List.mem_append.mp hn with hn | hn
    · exact h.names n hn
    · rw [List.mem_singleton.mp hn]
      exact hname
  · intro entry hentry
    rcases List.mem_append.mp hentry with hentry | hentry
    · exact h.functions entry hentry
    · rw [List.mem_singleton.mp hentry]
      exact hf

theorem Accepted.add (h : p.Accepted) (hname : isIdentifier name.toList = true) (hf : f.Accepted)
    (ha : p.add name f = .ok p') : p'.Accepted := by
  unfold Program.add at ha
  split at ha
  · split at ha
    · cases ha
    · cases ha
      exact h.replace hf
  · next hfree =>
    cases ha
    exact h.append hname (fun hmem => hfree (find?_isSome_iff.mpr hmem)) hf

def Stage.Sound : Stage → Prop
  | .between p => p.Accepted
  | .within p name stage => p.Accepted ∧ isIdentifier name.toList = true ∧ stage.Sound

theorem Stage.Sound.more {state state' : Stage} {line : LineCursor} (hs : state.Sound)
    (h : (state.feed line).verdict = .more state') : state'.Sound := by
  cases state with
  | between p =>
    rcases feed_between_more_iff.mp h with ⟨-, rfl⟩ | ⟨name, ts, htokens, -, hstage⟩
    · exact hs
    have hname : isIdentifier name.toList = true :=
      isIdentifier_of_mem_tokens (htokens ▸ List.mem_cons_of_mem _ List.mem_cons_self)
    rcases hstage with ⟨-, rfl⟩ | ⟨-, rfl⟩
    · exact ⟨hs, hname, trivial⟩
    · exact ⟨hs, hname, Function.Stage.sound_start⟩
  | within p name stage =>
    obtain ⟨hp, hname, hstage⟩ := hs
    rcases feed_within_more_iff.mp h with ⟨stage', hmore, rfl⟩ | ⟨f, p', hdone, hadd, rfl⟩
    · exact ⟨hp, hname, hstage.more hmore⟩
    · exact hp.add hname (hstage.done hdone) hadd

/-- A property of stages that every line keeps holds of the program in the end, which is what was
read when no function was open. -/
theorem invariant_of_run (I : Stage → Prop) {P : Program → Prop}
    (hmore : ∀ s line s', I s → (s.feed line).verdict = .more s' → I s')
    (hbetween : ∀ q, I (.between q) → P q) {s : Stage} {line : LineCursor}
    {below : List (List Char)} (hs : I s)
    (h : (lineReader.run s line below).result.outcome = .ok p) : P p := by
  refine LineReader.run_invariant I (r := lineReader) hmore
    (fun s line v _ hdone => absurd hdone Stage.feed_ne_done) ?_ hs h
  intro s line v hs hfinish
  cases s with
  | between q =>
    cases hfinish
    exact hbetween _ hs
  | within q name stage => cases hfinish

theorem accepted_of_parse {policy : DuplicatePolicy} {text : String}
    (h : (parse policy text).outcome = .ok p) : p.Accepted := by
  have hstart : (Stage.between { policy }).Sound :=
    ⟨.nil, fun _ hn => absurd hn List.not_mem_nil, fun _ he => absurd he List.not_mem_nil⟩
  exact invariant_of_run Stage.Sound (fun s line s' hs hmore => hs.more hmore) (fun q hq => hq)
    hstart h

end Program

end FlowGraph
