import FlowGraph.Proofs.Program.Definitions
import Std.Data.HashMap

/-!
# Programs as ordered maps

A program lists its functions by name. Whatever is added to it, each name is listed once, in the
order in which the names came up first, with its first function or its last one by the policy. The
same program may be kept as a vector with a table of slots by name. The table always tells the place
of a name in the vector, so nothing can tell the two apart.
-/

namespace FlowGraph.Program

set_option autoImplicit false

variable {p q : Program} {name n : String} {f g : Function} {e : Error}
  {adds : List (String × Function)} {policy : DuplicatePolicy}

/-- The program after a function was added, or as it was if the function is refused. -/
def tryAdd (p : Program) (name : String) (f : Function) : Program :=
  match p.add name f with
  | .ok q => q
  | .error _ => p

def addEach (p : Program) (adds : List (String × Function)) : Program :=
  adds.foldl (fun p entry => p.tryAdd entry.1 entry.2) p

/-- Change the function of a name in its place. -/
def change? (p : Program) (name : String) (change : Function → Function) : Option Program :=
  (p.find? name).map fun f => p.replace name (change f)

theorem tryAdd_eq (p : Program) (name : String) (f : Function) :
    p.tryAdd name f = if p.policy = .reject ∧ name ∈ p.names then p else p.put name f := by
  rw [tryAdd, add_eq]
  split
  · next hq =>
    split at hq
    · cases hq
    · next hfree =>
      cases hq
      exact (if_neg hfree).symm
  · next hq =>
    split at hq
    · next htaken => exact (if_pos htaken).symm
    · cases hq

theorem lookup_singleton (entry : String × Function) (n : String) :
    [entry].lookup n = if n = entry.1 then some entry.2 else none := by
  obtain ⟨m, g⟩ := entry
  by_cases hn : n = m
  · simp [hn]
  · simp [hn, List.lookup_cons, beq_false_of_ne hn]

theorem tryAdd_of_error (h : p.add name f = .error e) : p.tryAdd name f = p := by
  rw [tryAdd, h]

theorem addEach_concat (p : Program) (adds : List (String × Function))
    (entry : String × Function) :
    p.addEach (adds ++ [entry]) = (p.addEach adds).tryAdd entry.1 entry.2 := by
  rw [addEach, List.foldl_append]
  rfl

theorem policy_addEach (p : Program) (adds : List (String × Function)) :
    (p.addEach adds).policy = p.policy := by
  induction adds using List.reverseRecOn with
  | nil => rfl
  | append_singleton adds entry ih =>
    rw [addEach_concat, tryAdd_eq]
    split
    · exact ih
    · rw [policy_put]
      exact ih

theorem names_tryAdd (p : Program) (name : String) (f : Function) :
    (p.tryAdd name f).names = if name ∈ p.names then p.names else p.names ++ [name] := by
  rw [tryAdd_eq]
  split
  · next htaken => exact (if_pos htaken.2).symm
  · exact names_put p name f

/-- Names are listed in the order in which they came up first. -/
theorem names_addEach (policy : DuplicatePolicy) (adds : List (String × Function)) :
    (addEach { policy } adds).names = (adds.map Prod.fst).eraseDups := by
  induction adds using List.reverseRecOn with
  | nil => rfl
  | append_singleton adds entry ih =>
    rw [addEach_concat, names_tryAdd, ih, List.map_append, List.map_singleton,
      Function.eraseDups_concat]
    simp only [List.mem_eraseDups]

theorem mem_names_addEach :
    name ∈ (addEach { policy } adds).names ↔ name ∈ adds.map Prod.fst := by
  rw [names_addEach, List.mem_eraseDups]

/-- If duplicates are refused, the first function of a name stays. -/
theorem find?_addEach_reject (adds : List (String × Function)) (n : String) :
    (addEach { policy := .reject } adds).find? n = adds.lookup n := by
  induction adds using List.reverseRecOn with
  | nil => rfl
  | append_singleton adds entry ih =>
    rw [addEach_concat, tryAdd_eq, policy_addEach, List.lookup_append, lookup_singleton, ← ih]
    by_cases htaken : entry.1 ∈ (addEach { policy := .reject } adds).names
    · rw [if_pos ⟨rfl, htaken⟩]
      by_cases hn : n = entry.1
      · obtain ⟨f, hf⟩ := Option.isSome_iff_exists.mp (find?_isSome_iff.mpr htaken)
        rw [hn, hf]
        rfl
      · rw [if_neg hn, Option.or_none]
    · rw [if_neg fun h => htaken h.2, find?_put]
      by_cases hn : n = entry.1
      · have hnone : (addEach { policy := .reject } adds).find? n = none := by
          rw [← Option.not_isSome_iff_eq_none, find?_isSome_iff, hn]
          exact htaken
        rw [if_pos hn, if_pos hn, hnone]
        rfl
      · rw [if_neg hn, if_neg hn, Option.or_none]

/-- If duplicates are replaced, all functions are entered. -/
theorem addEach_replace (adds : List (String × Function)) :
    addEach { policy := .replace } adds = putAll { policy := .replace } adds := by
  induction adds using List.reverseRecOn with
  | nil => rfl
  | append_singleton adds entry ih =>
    have hfree : ¬ ((addEach { policy := .replace } adds).policy = .reject ∧
        entry.1 ∈ (addEach { policy := .replace } adds).names) := by
      rw [policy_addEach]
      rintro ⟨hreject, -⟩
      cases hreject
    rw [addEach_concat, tryAdd_eq, if_neg hfree, ih, putAll_concat]

/-- The function that counts among the ones that were added under a name. -/
def chosen? (policy : DuplicatePolicy) (adds : List (String × Function)) (name : String) :
    Option Function :=
  match policy with
  | .reject => adds.lookup name
  | .replace => adds.reverse.lookup name

theorem find?_addEach (policy : DuplicatePolicy) (adds : List (String × Function)) (n : String) :
    (addEach { policy } adds).find? n = chosen? policy adds n := by
  cases policy with
  | reject => exact find?_addEach_reject adds n
  | replace =>
    rw [addEach_replace]
    exact find?_putAll_last rfl n

/-- Only a name that is taken is refused, and only if the policy says so. -/
theorem add_eq_error_iff : p.add name f = .error e ↔
    p.policy = .reject ∧ name ∈ p.names ∧ e = .nameTaken name := by
  rw [add_eq]
  split
  · next htaken =>
    constructor
    · intro h
      cases h
      exact ⟨htaken.1, htaken.2, rfl⟩
    · rintro ⟨-, -, rfl⟩
      rfl
  · next hfree =>
    constructor
    · intro h
      cases h
    · rintro ⟨hreject, hname, -⟩
      exact absurd ⟨hreject, hname⟩ hfree

/-- A name that is listed stands in one place, and replacing its function changes this place
alone. -/
theorem exists_place (hnodup : p.names.Nodup) (h : name ∈ p.names) :
    ∃ before f after, p.functions = before ++ (name, f) :: after ∧
      name ∉ before.map Prod.fst ∧ name ∉ after.map Prod.fst ∧
      ∀ g, (p.replace name g).functions = before ++ (name, g) :: after := by
  obtain ⟨⟨n, f⟩, hmem, rfl⟩ := List.mem_map.mp h
  obtain ⟨before, after, hsplit⟩ := List.append_of_mem hmem
  rw [names, hsplit, List.map_append, List.map_cons, List.nodup_append, List.nodup_cons] at hnodup
  obtain ⟨-, ⟨hafter, -⟩, hapart⟩ := hnodup
  have hbefore : n ∉ before.map Prod.fst :=
    fun hmem => hapart n hmem n List.mem_cons_self rfl
  have hkeep : ∀ (g : Function) (entries : List (String × Function)), n ∉ entries.map Prod.fst →
      (entries.map fun entry => if entry.1 = n then (n, g) else entry) = entries :=
    fun g entries hn => congrArg Program.functions
      (replace_of_notMem (p := ⟨p.policy, entries⟩) (f := g) hn)
  refine ⟨before, f, after, hsplit, hbefore, hafter, fun g => ?_⟩
  rw [replace, hsplit, List.map_append, List.map_cons, hkeep g before hbefore,
    hkeep g after hafter, if_pos rfl]

theorem find?_eq_some_iff_mem (hnodup : p.names.Nodup) :
    p.find? name = some f ↔ (name, f) ∈ p.functions := by
  constructor
  · intro h
    obtain ⟨before, after, hsplit, -⟩ := List.lookup_eq_some_iff.mp h
    rw [hsplit]
    exact List.mem_append_right _ List.mem_cons_self
  · intro h
    obtain ⟨before, g, after, hsplit, hbefore, hafter, -⟩ :=
      exists_place hnodup (List.mem_map_of_mem (f := Prod.fst) h)
    have hg : p.find? name = some g := by
      refine List.lookup_eq_some_iff.mpr ⟨before, after, hsplit, ?_⟩
      intro entry hentry
      rw [bne_iff_ne]
      intro heq
      exact hbefore (List.mem_map.mpr ⟨entry, hentry, heq.symm⟩)
    rw [hg]
    rw [hsplit] at h
    rcases List.mem_append.mp h with hmem | hmem
    · exact absurd (List.mem_map_of_mem hmem) hbefore
    · rcases List.mem_cons.mp hmem with heq | hmem
      · rw [(Prod.mk.inj heq).2]
      · exact absurd (List.mem_map_of_mem hmem) hafter

/-- A program as a vector, with a table that tells the slot of a name. -/
structure Indexed where
  policy : DuplicatePolicy
  slots : Array (String × Function) := #[]
  index : Std.HashMap String Nat := ∅

namespace Indexed

/-- Put another function into a slot, whose name stays. -/
def changeSlot (s : Indexed) (slot : Nat) (change : Function → Function) : Indexed :=
  { s with slots := s.slots.modify slot fun entry => (entry.1, change entry.2) }

def add (s : Indexed) (name : String) (f : Function) : Except Error Unit × Indexed :=
  match s.index[name]? with
  | some slot =>
    match s.policy with
    | .reject => (.error (.nameTaken name), s)
    | .replace => (.ok (), s.changeSlot slot fun _ => f)
  | none =>
    (.ok (), { s with
      slots := s.slots.push (name, f)
      index := s.index.insert name s.slots.size })

def find? (s : Indexed) (name : String) : Option Function :=
  s.index[name]?.bind fun slot => s.slots[slot]?.map Prod.snd

def change? (s : Indexed) (name : String) (change : Function → Function) : Option Indexed :=
  s.index[name]?.map fun slot => s.changeSlot slot change

def addEach (s : Indexed) (adds : List (String × Function)) : Indexed :=
  adds.foldl (fun s entry => (s.add entry.1 entry.2).2) s

/-- The vector lists the program, and the table tells the place of every name. -/
structure Represents (s : Indexed) (p : Program) : Prop where
  policy : s.policy = p.policy
  slots : s.slots.toList = p.functions
  index : ∀ name, s.index[name]? = p.names.idxOf? name

variable {s : Indexed} {slot : Nat}

theorem idxOf?_append_cons {before after : List String} (h : name ∉ before) :
    (before ++ name :: after).idxOf? name = some before.length := by
  refine List.idxOf?_eq_some_iff.mpr ⟨by simp, by simp, ?_⟩
  intro j hj heq
  rw [List.getElem_append_left hj] at heq
  exact h (heq ▸ List.getElem_mem hj)

theorem idxOf?_concat (names : List String) (name n : String) :
    (names ++ [name]).idxOf? n =
      (names.idxOf? n).or (if name = n then some names.length else none) := by
  unfold List.idxOf?
  rw [List.findIdx?_append]
  by_cases hn : name = n <;> simp [hn]

/-- The slot of a name holds its function, and a change of the slot is one of this function. -/
theorem Represents.exists_slot (h : s.Represents p) (hnodup : p.names.Nodup)
    (hslot : s.index[name]? = some slot) :
    ∃ f, p.find? name = some f ∧ s.slots[slot]? = some (name, f) ∧
      ∀ change, (s.changeSlot slot change).Represents (p.replace name (change f)) := by
  rw [h.index] at hslot
  have hname : name ∈ p.names := List.isSome_idxOf?.mp (by rw [hslot]; rfl)
  obtain ⟨before, f, after, hsplit, hbefore, -, hreplace⟩ := exists_place hnodup hname
  have hnames : p.names = before.map Prod.fst ++ name :: after.map Prod.fst := by
    rw [names, hsplit, List.map_append, List.map_cons]
  have hplace : p.names.idxOf? name = some before.length := by
    rw [hnames, idxOf?_append_cons hbefore, List.length_map]
  obtain rfl : before.length = slot := Option.some.inj (hplace.symm.trans hslot)
  refine ⟨f, ?_, ?_, ?_⟩
  · rw [find?_eq_some_iff_mem hnodup, hsplit]
    exact List.mem_append_right _ List.mem_cons_self
  · rw [← Array.getElem?_toList, h.slots, hsplit, List.getElem?_append_right (Nat.le_refl _),
      Nat.sub_self]
    rfl
  · intro change
    refine ⟨h.policy, ?_, ?_⟩
    · rw [hreplace, changeSlot, Array.toList_modify, h.slots, hsplit]
      simp [List.modify_eq_take_cons_drop]
    · intro n
      rw [names_replace]
      exact h.index n

theorem Represents.find?_eq (h : s.Represents p) (hnodup : p.names.Nodup) (name : String) :
    s.find? name = p.find? name := by
  cases hslot : s.index[name]? with
  | none =>
    have hname : name ∉ p.names := List.idxOf?_eq_none_iff.mp ((h.index name).symm.trans hslot)
    have hnone : p.find? name = none := by
      rw [← Option.not_isSome_iff_eq_none, find?_isSome_iff]
      exact hname
    rw [find?, hslot, hnone]
    rfl
  | some slot =>
    obtain ⟨f, hf, hget, -⟩ := h.exists_slot hnodup hslot
    rw [find?, hslot, Option.bind_some, hget, hf]
    rfl

/-- Adding has the same answer and keeps the table and the vector in step. -/
theorem Represents.add (h : s.Represents p) (hnodup : p.names.Nodup) (name : String)
    (f : Function) :
    (s.add name f).1 = (p.add name f).map (fun _ => ()) ∧
      (s.add name f).2.Represents (p.tryAdd name f) := by
  rw [tryAdd_eq, add_eq, Indexed.add]
  cases hslot : s.index[name]? with
  | none =>
    have hplace : p.names.idxOf? name = none := (h.index name).symm.trans hslot
    have hname : name ∉ p.names := List.idxOf?_eq_none_iff.mp hplace
    have hsize : s.slots.size = p.names.length := by
      rw [names, List.length_map, ← h.slots, Array.length_toList]
    have hput : p.put name f = { p with functions := p.functions ++ [(name, f)] } := if_neg hname
    rw [if_neg fun htaken => hname htaken.2, if_neg fun htaken => hname htaken.2, hput]
    refine ⟨rfl, h.policy, ?_, ?_⟩
    · rw [Array.toList_push, h.slots]
    · intro n
      have hnames : names { p with functions := p.functions ++ [(name, f)] } =
          p.names ++ [name] := by
        rw [names, List.map_append]
        rfl
      rw [Std.HashMap.getElem?_insert, h.index, hsize, hnames, idxOf?_concat]
      by_cases hn : name = n
      · rw [← hn, hplace]
        simp
      · simp [hn]
  | some slot =>
    have hname : name ∈ p.names := by
      rw [← List.isSome_idxOf?, ← h.index, hslot]
      rfl
    obtain ⟨g, -, -, hchange⟩ := h.exists_slot hnodup hslot
    have hput : p.put name f = p.replace name f := if_pos hname
    rw [h.policy, hput]
    cases hpolicy : p.policy with
    | reject =>
      rw [if_pos ⟨rfl, hname⟩, if_pos ⟨rfl, hname⟩]
      exact ⟨rfl, h⟩
    | replace =>
      rw [if_neg (by simp), if_neg (by simp)]
      exact ⟨rfl, hchange fun _ => f⟩

theorem add_error_unchanged (h : (s.add name f).1 = .error e) : (s.add name f).2 = s := by
  unfold Indexed.add at h ⊢
  split at h
  · split at h
    · rfl
    · cases h
  · cases h

theorem Represents.change?_eq (h : s.Represents p) (hnodup : p.names.Nodup) (name : String)
    (change : Function → Function) :
    (s.change? name change = none ∧ p.change? name change = none) ∨
      ∃ s' q, s.change? name change = some s' ∧ p.change? name change = some q ∧
        s'.Represents q := by
  have hfind := h.find?_eq hnodup name
  cases hslot : s.index[name]? with
  | none =>
    refine .inl ⟨?_, ?_⟩
    · rw [change?, hslot]
      rfl
    · rw [Program.change?, ← hfind, find?, hslot]
      rfl
  | some slot =>
    obtain ⟨f, hf, -, hchange⟩ := h.exists_slot hnodup hslot
    refine .inr ⟨_, _, ?_, ?_, hchange change⟩
    · rw [change?, hslot]
      rfl
    · rw [Program.change?, hf]
      rfl

theorem represents_addEach (policy : DuplicatePolicy) (adds : List (String × Function)) :
    (Indexed.addEach { policy } adds).Represents (Program.addEach { policy } adds) := by
  induction adds using List.reverseRecOn with
  | nil => exact ⟨rfl, rfl, fun name => by simp [Indexed.addEach, Program.addEach, names]⟩
  | append_singleton adds entry ih =>
    have hnodup : (Program.addEach { policy } adds).names.Nodup := by
      rw [names_addEach]
      exact Function.nodup_eraseDups _
    rw [Program.addEach_concat, Indexed.addEach, List.foldl_append]
    exact (ih.add hnodup entry.1 entry.2).2

end Indexed

/-- A program is a map that remembers the order of its names, whether a list keeps it or a vector
with a table of slots. -/
theorem program_is_ordered_map (policy : DuplicatePolicy) (adds : List (String × Function)) :
    let p := addEach { policy } adds
    let s := Indexed.addEach { policy } adds
    (p.names.Nodup ∧ p.names = (adds.map Prod.fst).eraseDups) ∧
    (∀ name f, p.find? name = some f ↔ (name, f) ∈ p.functions) ∧
    (∀ name, p.find? name = chosen? policy adds name) ∧
    (∀ name change, p.find? name = none → p.change? name change = none) ∧
    (∀ name f, p.find? name = some f →
      ∃ before after, p.functions = before ++ (name, f) :: after ∧ ∀ change,
        (p.change? name change).map functions = some (before ++ (name, change f) :: after)) ∧
    (∀ name f e, p.add name f = .error e ↔
      policy = .reject ∧ name ∈ adds.map Prod.fst ∧ e = .nameTaken name) ∧
    (∀ name f e, p.add name f = .error e → addEach { policy } (adds ++ [(name, f)]) = p) ∧
    s.slots.toList = p.functions ∧
    (∀ (name : String) (slot : Nat), s.index[name]? = some slot →
      ∃ f, s.slots[slot]? = some (name, f)) ∧
    (∀ name, s.find? name = p.find? name) ∧
    (∀ name change, (s.change? name change).map (·.slots.toList) =
      (p.change? name change).map functions) ∧
    (∀ name f, (s.add name f).1 = (p.add name f).map fun _ => ()) ∧
    ∀ name f e, (s.add name f).1 = .error e → (s.add name f).2 = s := by
  intro p s
  have hnodup : p.names.Nodup := by
    rw [names_addEach]
    exact Function.nodup_eraseDups _
  have hrep : s.Represents p := Indexed.represents_addEach policy adds
  refine ⟨⟨hnodup, names_addEach policy adds⟩, fun name f => find?_eq_some_iff_mem hnodup,
    find?_addEach policy adds, ?_, ?_, ?_, ?_, hrep.slots, ?_, hrep.find?_eq hnodup, ?_,
    fun name f => (hrep.add hnodup name f).1, fun name f e => Indexed.add_error_unchanged⟩
  · intro name change hnone
    rw [change?, hnone]
    rfl
  · intro name f hfound
    have hname : name ∈ p.names := find?_isSome_iff.mp (by rw [hfound]; rfl)
    obtain ⟨before, g, after, hsplit, -, -, hreplace⟩ := exists_place hnodup hname
    have hg : p.find? name = some g := by
      rw [find?_eq_some_iff_mem hnodup, hsplit]
      exact List.mem_append_right _ List.mem_cons_self
    obtain rfl : g = f := Option.some.inj (hg.symm.trans hfound)
    refine ⟨before, after, hsplit, fun change => ?_⟩
    rw [change?, hg, Option.map_some, Option.map_some, hreplace]
  · intro name f e
    rw [add_eq_error_iff, policy_addEach, mem_names_addEach]
  · intro name f e herror
    rw [addEach_concat]
    exact tryAdd_of_error herror
  · intro name slot hslot
    obtain ⟨f, -, hget, -⟩ := hrep.exists_slot hnodup hslot
    exact ⟨f, hget⟩
  · intro name change
    obtain ⟨hs, hp⟩ | ⟨s', q, hs, hp, hrep'⟩ := hrep.change?_eq hnodup name change
    · rw [hs, hp]
      rfl
    · rw [hs, hp, Option.map_some, Option.map_some, hrep'.slots]

/-- One name comes up twice, with another one in between. -/
theorem ordered_map_of_repeated_name :
    let adds := [("b", .empty), ("a", .empty), ("b", Function.empty.addBlock)]
    (addEach { policy := .reject } adds).names = ["b", "a"] ∧
    (addEach { policy := .reject } adds).find? "b" = some .empty ∧
    (addEach { policy := .replace } adds).find? "b" = some Function.empty.addBlock ∧
    (addEach { policy := .reject } adds).add "a" .empty = .error (.nameTaken "a") ∧
    addEach { policy := .reject } (adds ++ [("a", .empty)]) = addEach { policy := .reject } adds ∧
    (addEach { policy := .replace } adds).change? "c" Function.addBlock = none ∧
    ∃ before after, (addEach { policy := .replace } adds).functions =
        before ++ ("a", .empty) :: after ∧
      ((addEach { policy := .replace } adds).change? "a" Function.addBlock).map functions =
        some (before ++ ("a", Function.empty.addBlock) :: after) := by
  intro adds
  obtain ⟨⟨-, hnames⟩, -, hfirst, -, -, hrefused, hkept, -⟩ := program_is_ordered_map .reject adds
  obtain ⟨-, -, hlast, habsent, hplace, -⟩ := program_is_ordered_map .replace adds
  have herror := (hrefused "a" .empty (.nameTaken "a")).mpr ⟨rfl, by decide, rfl⟩
  obtain ⟨before, after, hsplit, hchange⟩ := hplace "a" .empty (hlast "a")
  refine ⟨hnames.trans (by decide), hfirst "b", hlast "b", herror, hkept _ _ _ herror,
    habsent "c" _ (hlast "c"), before, after, hsplit, hchange Function.addBlock⟩

end FlowGraph.Program
