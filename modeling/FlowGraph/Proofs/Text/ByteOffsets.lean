import FlowGraph.Proofs.Reading.Steps

/-!
# Byte offsets

A cursor may be kept as two offsets into its line, in bytes, where what is left to read begins and
where it ends. A slice of the line exists only between two ends of characters, so a wrong offset
would stop the reader for good. `Tracks` says that the offsets stand for the place of a cursor, and
every step of reading keeps it: no slice is ever missing, and all answers are those of the cursor.
-/

namespace FlowGraph.Text

set_option autoImplicit false

def byteLength (cs : List Char) : Nat := (String.ofList cs).utf8ByteSize

@[simp] theorem byteLength_nil : byteLength [] = 0 := rfl

@[simp] theorem byteLength_append (cs ds : List Char) :
    byteLength (cs ++ ds) = byteLength cs + byteLength ds := by
  rw [byteLength, String.ofList_append, String.utf8ByteSize_append]
  rfl

theorem byteLength_singleton (c : Char) : byteLength [c] = c.utf8Size := by
  rw [byteLength, ← String.singleton_eq_ofList, String.utf8ByteSize_singleton]

theorem byteLength_cons (c : Char) (cs : List Char) :
    byteLength (c :: cs) = c.utf8Size + byteLength cs := by
  rw [← List.singleton_append, byteLength_append, byteLength_singleton]

/-- Part a text after `n` bytes, which must be at the end of a character. -/
def splitBytes? : List Char → Nat → Option (List Char × List Char)
  | cs, 0 => some ([], cs)
  | [], _ + 1 => none
  | c :: cs, n + 1 =>
    if c.utf8Size ≤ n + 1 then
      (splitBytes? cs (n + 1 - c.utf8Size)).map fun parts => (c :: parts.1, parts.2)
    else
      none

def slice? (cs : List Char) (low high : Nat) : Option (List Char) :=
  (splitBytes? cs high).bind fun parts => (splitBytes? parts.1 low).map Prod.snd

theorem splitBytes?_append (front back : List Char) :
    splitBytes? (front ++ back) (byteLength front) = some (front, back) := by
  induction front with
  | nil => cases back <;> rfl
  | cons c front ih =>
    have hpos := c.utf8Size_pos
    obtain ⟨n, hn⟩ : ∃ n, byteLength (c :: front) = n + 1 := by
      refine Nat.exists_eq_succ_of_ne_zero ?_
      rw [byteLength_cons]
      omega
    rw [List.cons_append, hn, splitBytes?]
    rw [byteLength_cons] at hn
    have hrest : n + 1 - c.utf8Size = byteLength front := by omega
    rw [if_pos (by omega), hrest, ih]
    rfl

theorem splitBytes?_eq_some_iff {cs front back : List Char} {n : Nat} :
    splitBytes? cs n = some (front, back) ↔ cs = front ++ back ∧ byteLength front = n := by
  constructor
  · intro h
    fun_induction splitBytes? cs n generalizing front with
    | case1 cs =>
      cases h
      exact ⟨rfl, rfl⟩
    | case2 n => cases h
    | case3 c cs n hle ih =>
      obtain ⟨⟨front', back'⟩, hsplit, heq⟩ := Option.map_eq_some_iff.mp h
      obtain ⟨rfl, rfl⟩ := Prod.mk.inj heq
      obtain ⟨rfl, hlength⟩ := ih hsplit
      refine ⟨rfl, ?_⟩
      rw [byteLength_cons, hlength]
      omega
    | case4 c cs n hnot => cases h
  · rintro ⟨rfl, rfl⟩
    exact splitBytes?_append front back

/-- A slice exists exactly between two ends of characters, the lower one first. -/
theorem slice?_eq_some_iff {cs mid : List Char} {low high : Nat} :
    slice? cs low high = some mid ↔ ∃ before after, cs = before ++ mid ++ after ∧
      byteLength before = low ∧ byteLength (before ++ mid) = high := by
  simp only [slice?, Option.bind_eq_some_iff, Option.map_eq_some_iff, Prod.exists,
    splitBytes?_eq_some_iff]
  constructor
  · rintro ⟨front, after, ⟨rfl, hhigh⟩, before, _, ⟨rfl, hlow⟩, rfl⟩
    exact ⟨before, after, rfl, hlow, hhigh⟩
  · rintro ⟨before, after, rfl, hlow, hhigh⟩
    exact ⟨before ++ mid, after, ⟨rfl, hhigh⟩, before, mid, ⟨rfl, hlow⟩, rfl⟩

/-- A place in a text, by offsets into the line. -/
structure ByteCursor where
  line : List Char
  number : Nat
  /-- Where the rest of the line begins. -/
  pos : Nat
  /-- Where the rest of the line ends. -/
  stop : Nat
  below : List (List Char)

/-- A step of reading by offsets. It has no outcome at all if a slice is missing. -/
abbrev ByteScan := ExceptT Error (StateT ByteCursor Option)

namespace ByteCursor

/-- The start of a line; the rest of the line ends at its comment. -/
def start (number : Nat) (line : List Char) (below : List (List Char)) : ByteCursor :=
  { line, number, pos := 0, stop := byteLength (line.takeWhile (· ≠ '#')), below }

def ofLines : List (List Char) → ByteCursor
  | [] => start 1 [] []
  | line :: below => start 1 line below

def nextLine (b : ByteCursor) : Bool × ByteCursor :=
  match b.below with
  | line :: below => (true, start (b.number + 1) line below)
  | [] => (false, { b with pos := b.stop })

end ByteCursor

namespace ByteScan

variable {α : Type}

def ofSlice (slice : ByteCursor → Option α) : ByteScan α :=
  fun b => (slice b).map fun a => (.ok a, b)

def rest : ByteScan (List Char) := ofSlice fun b => slice? b.line b.pos b.stop

/-- Fail at the column of the cursor, which is counted in characters. -/
def fail (problem : Problem) : ByteScan α := do
  let front ← ofSlice fun b => slice? b.line 0 b.pos
  throw (.parse (← get).number (front.length + 1) problem)

def move (bytes : Nat) : ByteScan Unit := modify fun b => { b with pos := b.pos + bytes }

def skipBlanks : ByteScan Unit := do
  let rest ← rest
  move (byteLength rest - byteLength (rest.dropWhile isBlank))

def peek : ByteScan (Option Char) := do
  skipBlanks
  return (← rest).head?

def atEnd : ByteScan Bool := do
  skipBlanks
  let b ← get
  return b.stop ≤ b.pos

def nextChar : ByteScan Char := do
  match ← peek with
  | some d =>
    move d.utf8Size
    return d
  | none => fail .endOfLine

def trySymbol (d : Char) : ByteScan Bool := do
  if (← peek) = some d then
    move d.utf8Size
    return true
  else
    return false

def cutEnd (d : Char) : ByteScan Bool := do
  let trimmed := ((← rest).reverse.dropWhile isBlank).reverse
  if trimmed.getLast? = some d then
    modify fun b => { b with stop := b.pos + byteLength trimmed - d.utf8Size }
    return true
  else
    return false

def symbol (d : Char) : ByteScan Unit := do
  if ← trySymbol d then
    return ()
  else
    fail (.expectedChar d)

def endOfLine : ByteScan Unit := do
  if ← atEnd then
    return ()
  else
    fail .trailingText

def identifier : ByteScan String := do
  skipBlanks
  let rest ← rest
  match rest with
  | d :: ds =>
    if isIdStart d then
      let bytes := byteLength (d :: ds.takeWhile isIdRest)
      move bytes
      let word ← ofSlice fun _ => slice? rest 0 bytes
      return String.ofList word
    else
      fail .expectedIdentifier
  | [] => fail .expectedIdentifier

/-- If another identifier comes, or none, the cursor is put back in front of it. -/
def keyword (word : String) : ByteScan Unit := do
  skipBlanks
  let start := (← get).pos
  let found ← ExceptT.lift identifier.run
  if found.toOption = some word then
    return ()
  else
    modify fun b => { b with pos := start }
    fail (.expectedKeyword word)

end ByteScan

section steps

variable {α β : Type} {x : ByteScan α} {g : α → ByteScan β} {b b' : ByteCursor}

theorem byteStep_bind_of_ok {a : α} (h : x b = some (.ok a, b')) : (x >>= g) b = g a b' := by
  change (x b).bind _ = _
  rw [h]
  rfl

theorem byteStep_bind_of_error {e : Error} (h : x b = some (.error e, b')) :
    (x >>= g) b = some (.error e, b') := by
  change (x b).bind _ = _
  rw [h]
  rfl

end steps

/-- The cursor is in this line: it has read a part of what is visible of the line, and the rest
follows upon this part. -/
def LineCursor.Within (line : List Char) (c : LineCursor) : Prop :=
  ∃ before after, visible line = before ++ c.rest ++ after ∧ c.taken = before.length

namespace ByteCursor

/-- The offsets are those of the place of the cursor. -/
structure Tracks (b : ByteCursor) (c : Cursor) : Prop where
  number : b.number = c.line.number
  below : b.below = c.below
  offsets : ∃ before after, LineCursor.visible b.line = before ++ c.line.rest ++ after ∧
    c.line.taken = before.length ∧ b.pos = byteLength before ∧
    b.stop = byteLength (before ++ c.line.rest)

variable {b : ByteCursor} {c : Cursor}

theorem tracks_start (number : Nat) (line : List Char) (below : List (List Char)) :
    (start number line below).Tracks ⟨.start number line, below⟩ :=
  ⟨rfl, rfl, [], [], (List.append_nil _).symm, rfl, rfl, rfl⟩

theorem tracks_ofLines (ls : List (List Char)) : (ofLines ls).Tracks (.ofLines ls) := by
  cases ls with
  | nil => exact tracks_start 1 [] []
  | cons line below => exact tracks_start 1 line below

theorem eq_visible_append (line : List Char) :
    line = LineCursor.visible line ++ line.dropWhile (· ≠ '#') :=
  List.takeWhile_append_dropWhile.symm

/-- The rest of the line is the slice between the offsets. -/
theorem Tracks.slice?_rest (h : b.Tracks c) : slice? b.line b.pos b.stop = some c.line.rest := by
  obtain ⟨-, -, before, after, hvisible, -, hpos, hstop⟩ := h
  refine slice?_eq_some_iff.mpr ⟨before, after ++ b.line.dropWhile (· ≠ '#'), ?_, hpos.symm,
    hstop.symm⟩
  rw [← List.append_assoc, ← hvisible]
  exact eq_visible_append b.line

theorem Tracks.rest_eq (h : b.Tracks c) : ByteScan.rest b = some (.ok c.line.rest, b) := by
  rw [ByteScan.rest, ByteScan.ofSlice, h.slice?_rest]
  rfl

/-- What was read of the line is the slice in front of the first offset. -/
theorem Tracks.slice?_front (h : b.Tracks c) :
    ∃ front, slice? b.line 0 b.pos = some front ∧ c.line.taken = front.length := by
  obtain ⟨-, -, before, after, hvisible, htaken, hpos, -⟩ := h
  refine ⟨before, slice?_eq_some_iff.mpr ⟨[], c.line.rest ++ after ++ b.line.dropWhile (· ≠ '#'),
    ?_, rfl, hpos.symm⟩, htaken⟩
  have hline := eq_visible_append b.line
  rw [hvisible] at hline
  simpa using hline

/-- The first offset moves over the characters that are read. -/
theorem Tracks.advance (h : b.Tracks c) {front back : List Char}
    (hrest : c.line.rest = front ++ back) :
    Tracks { b with pos := b.pos + byteLength front }
      { c with line := c.line.advance front.length } := by
  obtain ⟨hnumber, hbelow, before, after, hvisible, htaken, hpos, hstop⟩ := h
  have hback : (c.line.advance front.length).rest = back := by
    rw [LineCursor.advance, hrest, List.drop_left]
  have hwhole : before ++ c.line.rest = before ++ front ++ back := by
    rw [hrest, List.append_assoc]
  refine ⟨hnumber, hbelow, before ++ front, after, ?_, ?_, ?_, ?_⟩
  · rw [hback, ← hwhole]
    exact hvisible
  · rw [List.length_append, ← htaken]
    rfl
  · rw [byteLength_append, ← hpos]
  · rw [hback, ← hwhole]
    exact hstop

/-- The second offset moves to the end of what is left. -/
theorem Tracks.cut (h : b.Tracks c) {front back : List Char} (hrest : c.line.rest = front ++ back) :
    Tracks { b with stop := b.pos + byteLength front }
        { c with line := { c.line with rest := front } } ∧
      b.pos + byteLength front ≤ b.stop := by
  obtain ⟨hnumber, hbelow, before, after, hvisible, htaken, hpos, hstop⟩ := h
  refine ⟨⟨hnumber, hbelow, before, back ++ after, ?_, htaken, hpos, ?_⟩, ?_⟩
  · rw [hvisible, hrest]
    simp only [List.append_assoc]
  · rw [byteLength_append, ← hpos]
  · rw [hstop, hrest, hpos]
    simp only [byteLength_append]
    omega

theorem Tracks.nextLine (h : b.Tracks c) :
    b.nextLine.1 = c.nextLine.1 ∧ b.nextLine.2.Tracks c.nextLine.2 := by
  unfold ByteCursor.nextLine Cursor.nextLine
  rw [h.below]
  cases hbelow : c.below with
  | cons line below =>
    rw [h.number]
    exact ⟨rfl, tracks_start _ line below⟩
  | nil =>
    have hend : b.stop = b.pos + byteLength c.line.rest := by
      obtain ⟨-, -, before, after, -, -, hpos, hstop⟩ := h
      rw [hstop, hpos, byteLength_append]
    have hadvance := h.advance (List.append_nil _).symm
    rw [← hend, h.below, hbelow] at hadvance
    exact ⟨rfl, hadvance⟩

end ByteCursor

namespace ByteScan

open ByteCursor

variable {α β : Type}

/-- The step by offsets has the outcome of the step of the cursor and moves to its place. -/
def FollowsAt (b : ByteCursor) (c : Cursor) (byteStep : ByteScan α) (step : Scan α) : Prop :=
  ∃ n, byteStep b = some ((c.scan step).1, { b with pos := b.pos + n }) ∧
    Tracks { b with pos := b.pos + n } (c.scan step).2

def Follows (byteStep : ByteScan α) (step : Scan α) : Prop :=
  ∀ (b : ByteCursor) (c : Cursor), b.Tracks c → FollowsAt b c byteStep step

theorem scan_of_ok {c : Cursor} {step : Scan α} {a : α} {line : LineCursor}
    (h : step c.line = .ok a line) : c.scan step = (.ok a, { c with line }) := by
  rw [Cursor.scan, h]

theorem scan_of_error {c : Cursor} {step : Scan α} {e : Error} {line : LineCursor}
    (h : step c.line = .error e line) : c.scan step = (.error e, { c with line }) := by
  rw [Cursor.scan, h]

namespace FollowsAt

variable {b : ByteCursor} {c : Cursor}

theorem bind {x : ByteScan α} {y : Scan α} {g : α → ByteScan β} {k : α → Scan β}
    (hx : FollowsAt b c x y)
    (hg : ∀ (b' : ByteCursor) (a : α) (line : LineCursor), y c.line = .ok a line →
      b'.Tracks { c with line } → FollowsAt b' { c with line } (g a) (k a)) :
    FollowsAt b c (x >>= g) (y >>= k) := by
  obtain ⟨n, hstep, htracks⟩ := hx
  cases hy : y c.line with
  | error e line =>
    rw [scan_of_error hy] at hstep htracks
    rw [FollowsAt, scan_of_error (step_bind_of_error hy)]
    exact ⟨n, byteStep_bind_of_error hstep, htracks⟩
  | ok a line =>
    rw [scan_of_ok hy] at hstep htracks
    obtain ⟨m, hnext, htracks'⟩ := hg _ a line hy htracks
    have hscan : c.scan (y >>= k) = Cursor.scan { c with line } (k a) := by
      rw [Cursor.scan, Cursor.scan, step_bind_of_ok hy]
    rw [FollowsAt, hscan, byteStep_bind_of_ok hstep]
    refine ⟨n + m, ?_, ?_⟩
    · rw [hnext, Nat.add_assoc]
    · rw [← Nat.add_assoc]
      exact htracks'

theorem congr {x x' : ByteScan α} {y y' : Scan α} (h : FollowsAt b c x y) (hx : x' b = x b)
    (hy : y' c.line = y c.line) : FollowsAt b c x' y' := by
  have hscan : c.scan y' = c.scan y := by
    rw [Cursor.scan, Cursor.scan, hy]
  rw [FollowsAt, hx, hscan]
  exact h

/-- Moving over characters that come next is reading them. -/
theorem move (h : b.Tracks c) {front back : List Char} (hrest : c.line.rest = front ++ back) :
    FollowsAt b c (ByteScan.move (byteLength front)) (modify (·.advance front.length)) :=
  ⟨byteLength front, rfl, h.advance hrest⟩

theorem moveOne (h : b.Tracks c) {d : Char} {ds : List Char} (hrest : c.line.rest = d :: ds) :
    FollowsAt b c (ByteScan.move d.utf8Size) (modify (·.advance 1)) := by
  rw [← byteLength_singleton d]
  exact move h (List.singleton_append ▸ hrest)

end FollowsAt

namespace Follows

theorem pure (a : α) : Follows (Pure.pure a) (Pure.pure a) := fun _ _ h => ⟨0, rfl, h⟩

theorem bind {x : ByteScan α} {y : Scan α} {g : α → ByteScan β} {k : α → Scan β}
    (hx : Follows x y) (hg : ∀ a, Follows (g a) (k a)) : Follows (x >>= g) (y >>= k) :=
  fun b c h => (hx b c h).bind fun b' a _ _ h' => hg a b' _ h'

theorem ite {p : Prop} [Decidable p] {x x' : ByteScan α} {y y' : Scan α} (h : Follows x y)
    (h' : Follows x' y') : Follows (if p then x else x') (if p then y else y') := by
  split
  · exact h
  · exact h'

end Follows

theorem follows_rest : Follows rest (fun c => .ok c.rest c) :=
  fun _ _ h => ⟨0, h.rest_eq, h⟩

/-- The column is counted in front of the offset, so that a failure needs an end of a character
there. -/
theorem fail_eq (problem : Problem) {b : ByteCursor} {c : Cursor} (h : b.Tracks c) :
    (fail problem : ByteScan α) b = some (.error (c.line.error problem), b) := by
  obtain ⟨front, hfront, htaken⟩ := h.slice?_front
  have hslice : (ofSlice fun b => slice? b.line 0 b.pos) b = some (.ok front, b) := by
    rw [ofSlice, hfront]
    rfl
  have hplace : Error.parse b.number (front.length + 1) problem = c.line.error problem := by
    rw [h.number, ← htaken]
    rfl
  rw [fail, byteStep_bind_of_ok hslice]
  change some (Except.error (Error.parse b.number (front.length + 1) problem), b) =
    some (Except.error (c.line.error problem), b)
  rw [hplace]

theorem follows_fail (problem : Problem) : Follows (fail problem : ByteScan α) (.fail problem) :=
  fun _ _ h => ⟨0, fail_eq problem h, h⟩

theorem follows_skipBlanks : Follows skipBlanks .skipBlanks := by
  intro b c h
  have hrest : c.line.rest = c.line.rest.takeWhile isBlank ++ c.line.rest.dropWhile isBlank :=
    List.takeWhile_append_dropWhile.symm
  have hbytes : byteLength c.line.rest - byteLength (c.line.rest.dropWhile isBlank) =
      byteLength (c.line.rest.takeWhile isBlank) := by
    have hsum := congrArg byteLength hrest
    rw [byteLength_append] at hsum
    omega
  refine (FollowsAt.move h hrest).congr ?_ rfl
  rw [skipBlanks, byteStep_bind_of_ok h.rest_eq, hbytes]

theorem follows_peek : Follows peek .peek :=
  follows_skipBlanks.bind fun _ => follows_rest.bind fun rest => .pure rest.head?

theorem byteLength_eq_zero_iff {cs : List Char} : byteLength cs = 0 ↔ cs = [] := by
  cases cs with
  | nil => simp
  | cons c cs =>
    have hpos := c.utf8Size_pos
    simp only [byteLength_cons, reduceCtorEq, iff_false]
    omega

theorem follows_atEnd : Follows atEnd .atEnd := by
  refine follows_skipBlanks.bind (k := fun _ c => .ok c.rest.isEmpty c) fun _ => ?_
  intro b c h
  refine ⟨0, ?_, h⟩
  obtain ⟨-, -, before, after, -, -, hpos, hstop⟩ := h
  have hend : decide (b.stop ≤ b.pos) = c.line.rest.isEmpty := by
    rw [Bool.eq_iff_iff, decide_eq_true_iff, List.isEmpty_iff, ← byteLength_eq_zero_iff, hpos,
      hstop, byteLength_append]
    omega
  change some (Except.ok (decide (b.stop ≤ b.pos)), b) = _
  rw [hend]
  rfl

theorem follows_nextChar : Follows nextChar .nextChar := by
  intro b c h
  refine (follows_peek b c h).bind ?_
  intro b' next line hpeek h'
  cases hpeek
  cases hrest : c.line.skipBlanks.rest with
  | nil => exact follows_fail _ b' _ h'
  | cons d ds =>
    exact (FollowsAt.moveOne h' hrest).bind fun b'' _ _ _ h'' => Follows.pure d b'' _ h''

theorem follows_trySymbol (d : Char) : Follows (trySymbol d) (.trySymbol d) := by
  intro b c h
  refine (follows_peek b c h).bind ?_
  intro b' next line hpeek h'
  cases hpeek
  by_cases hhead : c.line.skipBlanks.rest.head? = some d
  · obtain ⟨ds, hrest⟩ := List.head?_eq_some_iff.mp hhead
    rw [if_pos hhead, if_pos hhead]
    exact (FollowsAt.moveOne h' hrest).bind fun b'' _ _ _ h'' => Follows.pure true b'' _ h''
  · rw [if_neg hhead, if_neg hhead]
    exact Follows.pure false b' _ h'

theorem follows_symbol (d : Char) : Follows (symbol d) (.symbol d) :=
  (follows_trySymbol d).bind fun _ => .ite (.pure ()) (follows_fail _)

theorem follows_endOfLine : Follows endOfLine .endOfLine :=
  follows_atEnd.bind fun _ => .ite (.pure ()) (follows_fail _)

def wordNext : Scan String := fun c =>
  match c.rest with
  | d :: ds =>
    if isIdStart d then
      .ok (String.ofList (d :: ds.takeWhile isIdRest))
        (c.advance ((ds.takeWhile isIdRest).length + 1))
    else
      .error (c.error .expectedIdentifier) c
  | [] => .error (c.error .expectedIdentifier) c

theorem follows_identifier : Follows identifier .identifier := by
  refine follows_skipBlanks.bind (k := fun _ => wordNext) fun _ => ?_
  intro b c h
  cases hrest : c.line.rest with
  | nil =>
    refine (follows_fail .expectedIdentifier b c h).congr ?_ ?_
    · rw [byteStep_bind_of_ok h.rest_eq, hrest]
    · rw [wordNext, hrest]
      rfl
  | cons d ds =>
    have hword : c.line.rest = (d :: ds.takeWhile isIdRest) ++ ds.dropWhile isIdRest := by
      rw [hrest, List.cons_append, List.takeWhile_append_dropWhile]
    by_cases hd : isIdStart d = true
    · have hslice : slice? c.line.rest 0 (byteLength (d :: ds.takeWhile isIdRest)) =
          some (d :: ds.takeWhile isIdRest) :=
        slice?_eq_some_iff.mpr ⟨[], ds.dropWhile isIdRest, hword, rfl, rfl⟩
      refine FollowsAt.congr ((FollowsAt.move h hword).bind
        (g := fun _ => do
          let word ← ofSlice fun _ => slice? c.line.rest 0 (byteLength (d :: ds.takeWhile isIdRest))
          return String.ofList word)
        (k := fun _ => Pure.pure (String.ofList (d :: ds.takeWhile isIdRest))) ?_) ?_ ?_
      · intro b' _ line _ h'
        refine (Follows.pure _ b' _ h').congr ?_ rfl
        refine byteStep_bind_of_ok ?_
        rw [ofSlice, hslice]
        rfl
      · rw [byteStep_bind_of_ok h.rest_eq, hrest]
        exact congrFun (if_pos hd) b
      · rw [wordNext, hrest]
        exact if_pos hd
    · refine (follows_fail .expectedIdentifier b c h).congr ?_ ?_
      · rw [byteStep_bind_of_ok h.rest_eq, hrest]
        exact congrFun (if_neg hd) b
      · rw [wordNext, hrest]
        exact if_neg hd

def keywordNext (word : String) : Scan Unit := fun c =>
  match Scan.identifier c with
  | .ok id next => if id = word then .ok () next else .error (c.error (.expectedKeyword word)) c
  | .error _ _ => .error (c.error (.expectedKeyword word)) c

theorem follows_keyword (word : String) : Follows (keyword word) (.keyword word) := by
  refine follows_skipBlanks.bind (k := fun _ => keywordNext word) fun _ => ?_
  intro b c h
  obtain ⟨n, hword, htracks⟩ := follows_identifier b c h
  have hget : (get : ByteScan ByteCursor) b = some (.ok b, b) := rfl
  have hlift : (ExceptT.lift identifier.run : ByteScan (Except Error String)) b =
      some (.ok (c.scan .identifier).1, { b with pos := b.pos + n }) := by
    change (identifier b).bind _ = _
    rw [hword]
    rfl
  by_cases hfound : (c.scan .identifier).1.toOption = some word
  · have hscan : ∃ line, Scan.identifier c.line = .ok word line := by
      cases hscan : Scan.identifier c.line with
      | error e line =>
        rw [scan_of_error hscan] at hfound
        cases hfound
      | ok id line =>
        rw [scan_of_ok hscan] at hfound
        cases hfound
        exact ⟨line, rfl⟩
    obtain ⟨line, hscan⟩ := hscan
    have hnext : keywordNext word c.line = .ok () line := by
      rw [keywordNext, hscan]
      exact if_pos rfl
    rw [scan_of_ok hscan] at htracks
    rw [FollowsAt, scan_of_ok hnext]
    refine ⟨n, ?_, htracks⟩
    rw [byteStep_bind_of_ok hget, byteStep_bind_of_ok hlift]
    exact congrFun (if_pos hfound) _
  · refine (follows_fail (.expectedKeyword word) b c h).congr ?_ ?_
    · rw [byteStep_bind_of_ok hget, byteStep_bind_of_ok hlift, if_neg hfound]
      rfl
    · cases hscan : Scan.identifier c.line with
      | error e line =>
        rw [keywordNext, hscan]
        rfl
      | ok id line =>
        rw [scan_of_ok hscan] at hfound
        rw [keywordNext, hscan]
        exact if_neg fun hid => hfound (congrArg some hid)

/-- Where the end of the line is hidden, the second offset moves instead of the first one. -/
theorem cutEnd_eq (d : Char) {b : ByteCursor} {c : Cursor} (h : b.Tracks c) :
    ∃ stop, cutEnd d b = some ((c.scan (.cutEnd d)).1, { b with stop }) ∧
      Tracks { b with stop } (c.scan (.cutEnd d)).2 ∧ stop ≤ b.stop := by
  have hkept : ((c.line.rest.reverse.dropWhile isBlank).reverse.getLast? ≠ some d) →
      Scan.cutEnd d c.line = .ok false c.line →
      ∃ stop, cutEnd d b = some ((c.scan (.cutEnd d)).1, { b with stop }) ∧
        Tracks { b with stop } (c.scan (.cutEnd d)).2 ∧ stop ≤ b.stop := by
    intro hne hscan
    rw [scan_of_ok hscan]
    refine ⟨b.stop, ?_, h, Nat.le_refl _⟩
    rw [cutEnd, byteStep_bind_of_ok h.rest_eq, if_neg hne]
    rfl
  cases htrim : c.line.rest.reverse.dropWhile isBlank with
  | nil =>
    refine hkept ?_ ?_
    · rw [htrim]
      exact nofun
    · rw [Scan.cutEnd, htrim]
  | cons last front =>
    by_cases hlast : last = d
    · subst hlast
      have hscan : Scan.cutEnd last c.line = .ok true { c.line with rest := front.reverse } := by
        rw [Scan.cutEnd, htrim]
        exact if_pos rfl
      have hrest : c.line.rest =
          front.reverse ++ last :: (c.line.rest.reverse.takeWhile isBlank).reverse := by
        have hwhole := List.takeWhile_append_dropWhile (p := isBlank) (l := c.line.rest.reverse)
        rw [htrim] at hwhole
        simpa using (congrArg List.reverse hwhole).symm
      have hbytes : b.pos + byteLength (last :: front).reverse - last.utf8Size =
          b.pos + byteLength front.reverse := by
        rw [List.reverse_cons, byteLength_append, byteLength_singleton]
        omega
      obtain ⟨htracks, hle⟩ := h.cut hrest
      rw [scan_of_ok hscan]
      refine ⟨_, ?_, htracks, hle⟩
      have hends : (last :: front).reverse.getLast? = some last := by simp
      rw [cutEnd, byteStep_bind_of_ok h.rest_eq, htrim, if_pos hends, ← hbytes]
      rfl
    · refine hkept ?_ ?_
      · rw [htrim]
        simpa using hlast
      · rw [Scan.cutEnd, htrim]
        exact if_neg hlast

end ByteScan

end FlowGraph.Text
