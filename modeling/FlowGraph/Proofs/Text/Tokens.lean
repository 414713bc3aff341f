import FlowGraph.Proofs.Outcome
import FlowGraph.Text.Cursor
import Mathlib.Data.List.TakeWhile

/-!
# Tokens

What a line looks like once blanks are gone: words, which are identifiers of greatest length, and
single characters. Every reading step takes its tokens from the left, and whether it succeeds
depends on the tokens alone.
-/

namespace FlowGraph.Text

set_option autoImplicit false

theorem exists_range_of_inRanges {ranges : List (Nat × Nat)} {n : Nat}
    (h : inRanges ranges n = true) : ∃ r ∈ ranges, r.1 ≤ n ∧ n ≤ r.2 := by
  induction ranges with
  | nil => cases h
  | cons r ranges ih =>
    obtain ⟨low, high⟩ := r
    simp only [inRanges] at h
    split at h
    · cases h
    · next hlow =>
      rcases Bool.or_eq_true_iff.mp h with hle | h
      · exact ⟨(low, high), List.mem_cons_self, Nat.le_of_not_lt hlow, of_decide_eq_true hle⟩
      · obtain ⟨r, hr, hn⟩ := ih h
        exact ⟨r, List.mem_cons_of_mem _ hr, hn⟩

theorem blankRanges_outside : blankRanges.all (fun r =>
    (List.range' r.1 (r.2 - r.1 + 1)).all fun n =>
      !inRanges alphabeticRanges n && !inRanges numericRanges n && n != '_'.toNat) = true := by
  decide +kernel

theorem isBlank_of_isIdRest {c : Char} (h : isIdRest c = true) : isBlank c = false := by
  cases hb : isBlank c with
  | false => rfl
  | true =>
    obtain ⟨r, hr, hlow, hhigh⟩ := exists_range_of_inRanges hb
    have hout := List.all_eq_true.mp (List.all_eq_true.mp blankRanges_outside r hr) c.toNat
      (List.mem_range'_1.mpr ⟨hlow, by omega⟩)
    simp only [Bool.and_eq_true, Bool.not_eq_true', bne_iff_ne, ne_eq] at hout
    obtain ⟨⟨halpha, hnum⟩, hlow⟩ := hout
    have hne : c ≠ '_' := fun heq => hlow (congrArg Char.toNat heq)
    simp [isIdRest, isAlphabetic, isNumeric, halpha, hnum, hne] at h

theorem isIdRest_of_isIdStart {c : Char} (h : isIdStart c = true) : isIdRest c = true := by
  simp only [isIdStart, Bool.or_eq_true] at h
  rcases h with h | h <;> simp [isIdRest, h]

theorem isBlank_of_isIdStart {c : Char} (h : isIdStart c = true) : isBlank c = false :=
  isBlank_of_isIdRest (isIdRest_of_isIdStart h)

def isIdentifier : List Char → Bool
  | [] => false
  | c :: cs => isIdStart c && cs.all isIdRest

theorem isIdRest_of_mem {cs : List Char} (h : isIdentifier cs = true) {c : Char} (hc : c ∈ cs) :
    isIdRest c = true := by
  cases cs with
  | nil => cases hc
  | cons d ds =>
    simp only [isIdentifier, Bool.and_eq_true, List.all_eq_true] at h
    rcases List.mem_cons.mp hc with rfl | hc
    · exact isIdRest_of_isIdStart h.1
    · exact h.2 c hc

/-- Whether a text does not go on with an identifier that ended in front of it. -/
def endsWord : List Char → Bool
  | [] => true
  | c :: _ => !isIdRest c

inductive Token where
  | word (name : String)
  | symbol (c : Char)
deriving DecidableEq, Repr

def tokens : List Char → List Token
  | [] => []
  | c :: cs =>
    if isBlank c then tokens cs
    else if isIdStart c then
      .word (String.ofList (c :: cs.takeWhile isIdRest)) :: tokens (cs.dropWhile isIdRest)
    else .symbol c :: tokens cs
termination_by cs => cs.length
decreasing_by
  · simp
  · have h := (List.dropWhile_suffix (l := cs) isIdRest).length_le
    simp only [List.length_cons]
    omega
  · simp

@[simp] theorem tokens_nil : tokens [] = [] := by
  rw [tokens]

theorem tokens_blank {c : Char} {cs : List Char} (h : isBlank c = true) :
    tokens (c :: cs) = tokens cs := by
  rw [tokens, if_pos h]

theorem tokens_word {c : Char} {cs : List Char} (h : isIdStart c = true) :
    tokens (c :: cs) =
      .word (String.ofList (c :: cs.takeWhile isIdRest)) :: tokens (cs.dropWhile isIdRest) := by
  rw [tokens, if_neg (by simp [isBlank_of_isIdStart h]), if_pos h]

theorem tokens_symbol {c : Char} {cs : List Char} (hb : isBlank c = false)
    (hs : isIdStart c = false) : tokens (c :: cs) = .symbol c :: tokens cs := by
  rw [tokens, if_neg (by simp [hb]), if_neg (by simp [hs])]

theorem tokens_dropWhile_blank (cs : List Char) : tokens (cs.dropWhile isBlank) = tokens cs := by
  induction cs with
  | nil => rfl
  | cons c cs ih =>
    cases hc : isBlank c with
    | true => rw [List.dropWhile_cons_of_pos hc, ih, tokens_blank hc]
    | false => rw [List.dropWhile_cons_of_neg (by simp [hc])]

theorem tokens_eq_nil_iff (cs : List Char) : tokens cs = [] ↔ ∀ c ∈ cs, isBlank c = true := by
  induction cs with
  | nil => simp
  | cons c cs ih =>
    rw [tokens]
    cases hc : isBlank c with
    | true => simp [hc, ih]
    | false =>
      simp only [Bool.false_eq_true, if_false]
      split <;> simp [hc]

theorem drop_length_takeWhile (p : Char → Bool) (cs : List Char) :
    cs.drop (cs.takeWhile p).length = cs.dropWhile p := by
  calc cs.drop (cs.takeWhile p).length
      = (cs.takeWhile p ++ cs.dropWhile p).drop (cs.takeWhile p).length := by
        rw [List.takeWhile_append_dropWhile]
    _ = cs.dropWhile p := List.drop_left

theorem takeWhile_append_of_endsWord (cs : List Char) {ds : List Char} (h : endsWord ds = true) :
    (cs ++ ds).takeWhile isIdRest = cs.takeWhile isIdRest := by
  induction cs with
  | nil =>
    cases ds with
    | nil => rfl
    | cons d ds => exact List.takeWhile_cons_of_neg (by simpa [endsWord] using h)
  | cons c cs ih =>
    rw [List.cons_append, List.takeWhile_cons, List.takeWhile_cons, ih]

theorem dropWhile_append_of_endsWord (cs : List Char) {ds : List Char} (h : endsWord ds = true) :
    (cs ++ ds).dropWhile isIdRest = cs.dropWhile isIdRest ++ ds := by
  induction cs with
  | nil =>
    cases ds with
    | nil => rfl
    | cons d ds => exact List.dropWhile_cons_of_neg (by simpa [endsWord] using h)
  | cons c cs ih =>
    rw [List.cons_append, List.dropWhile_cons, List.dropWhile_cons, ih]
    split <;> rfl

/-- Where no word is cut, the tokens of two texts follow each other. -/
theorem tokens_append (cs : List Char) {ds : List Char} (h : endsWord ds = true) :
    tokens (cs ++ ds) = tokens cs ++ tokens ds := by
  induction cs using tokens.induct with
  | case1 => simp
  | case2 c cs hb ih => rw [List.cons_append, tokens_blank hb, tokens_blank hb, ih]
  | case3 c cs hb hs ih =>
    rw [List.cons_append, tokens_word hs, tokens_word hs, takeWhile_append_of_endsWord cs h,
      dropWhile_append_of_endsWord cs h, ih]
    rfl
  | case4 c cs hb hs ih =>
    have hb : isBlank c = false := by simpa using hb
    have hs : isIdStart c = false := by simpa using hs
    rw [List.cons_append, tokens_symbol hb hs, tokens_symbol hb hs, ih]
    rfl

theorem tokens_of_isIdentifier {name : String} (h : isIdentifier name.toList = true) :
    tokens name.toList = [.word name] := by
  cases hcs : name.toList with
  | nil =>
    rw [hcs] at h
    cases h
  | cons c cs =>
    rw [hcs] at h
    simp only [isIdentifier, Bool.and_eq_true, List.all_eq_true] at h
    have htake : cs.takeWhile isIdRest = cs := List.takeWhile_eq_self_iff.mpr h.2
    have hdrop : cs.dropWhile isIdRest = [] := List.dropWhile_eq_nil_iff.mpr h.2
    rw [tokens_word h.1, htake, hdrop, tokens_nil, ← hcs, String.ofList_toList]

theorem tokens_identifier_append {name : String} (h : isIdentifier name.toList = true)
    {cs : List Char} (hcs : endsWord cs = true) :
    tokens (name.toList ++ cs) = .word name :: tokens cs := by
  rw [tokens_append _ hcs, tokens_of_isIdentifier h]
  rfl

theorem isIdentifier_of_mem_tokens {cs : List Char} {name : String} (h : .word name ∈ tokens cs) :
    isIdentifier name.toList = true := by
  induction cs using tokens.induct with
  | case1 => simp at h
  | case2 c cs hb ih =>
    rw [tokens_blank hb] at h
    exact ih h
  | case3 c cs hb hs ih =>
    rw [tokens_word hs] at h
    rcases List.mem_cons.mp h with hname | h
    · cases hname
      simp [isIdentifier, hs, List.all_takeWhile]
    · exact ih h
  | case4 c cs hb hs ih =>
    rw [tokens_symbol (by simpa using hb) (by simpa using hs)] at h
    rcases List.mem_cons.mp h with hname | h
    · cases hname
    · exact ih h

theorem exists_of_tokens_eq_append {cs : List Char} {ts : List Token} {d : Char}
    (h : tokens cs = ts ++ [.symbol d]) :
    ∃ front ws, cs = front ++ d :: ws ∧ ∀ c ∈ ws, isBlank c = true := by
  induction cs using tokens.induct generalizing ts with
  | case1 => simp at h
  | case2 c cs hb ih =>
    rw [tokens_blank hb] at h
    obtain ⟨front, ws, rfl, hws⟩ := ih h
    exact ⟨c :: front, ws, rfl, hws⟩
  | case3 c cs hb hs ih =>
    rw [tokens_word hs] at h
    cases ts with
    | nil => cases h
    | cons t ts =>
      obtain ⟨front, ws, hdrop, hws⟩ := ih (List.cons.inj h).2
      refine ⟨c :: (cs.takeWhile isIdRest ++ front), ws, ?_, hws⟩
      rw [List.cons_append, List.append_assoc, ← hdrop, List.takeWhile_append_dropWhile]
  | case4 c cs hb hs ih =>
    rw [tokens_symbol (by simpa using hb) (by simpa using hs)] at h
    cases ts with
    | nil =>
      obtain ⟨hc, hnil⟩ := List.cons.inj h
      cases hc
      exact ⟨[], cs, rfl, (tokens_eq_nil_iff cs).mp hnil⟩
    | cons t ts =>
      obtain ⟨front, ws, rfl, hws⟩ := ih (List.cons.inj h).2
      exact ⟨c :: front, ws, rfl, hws⟩

/-- A line is these tokens, with blanks wherever they do not split a word. A word ends where no
letter or digit follows. -/
inductive Spelled : List Token → List Char → Prop
  | nil : Spelled [] []
  | blank {c : Char} {ts : List Token} {cs : List Char} :
      isBlank c = true → Spelled ts cs → Spelled ts (c :: cs)
  | word {name : String} {ts : List Token} {cs : List Char} :
      isIdentifier name.toList = true → endsWord cs = true → Spelled ts cs →
      Spelled (.word name :: ts) (name.toList ++ cs)
  | symbol {c : Char} {ts : List Token} {cs : List Char} :
      isBlank c = false → isIdStart c = false → Spelled ts cs → Spelled (.symbol c :: ts) (c :: cs)

theorem endsWord_dropWhile (cs : List Char) : endsWord (cs.dropWhile isIdRest) = true := by
  have hhead := List.head?_dropWhile_not isIdRest cs
  cases hdrop : cs.dropWhile isIdRest with
  | nil => rfl
  | cons c rest =>
    rw [hdrop] at hhead
    simpa [endsWord] using hhead

theorem spelled_tokens (cs : List Char) : Spelled (tokens cs) cs := by
  induction cs using tokens.induct with
  | case1 =>
    rw [tokens_nil]
    exact .nil
  | case2 c cs hb ih =>
    rw [tokens_blank hb]
    exact .blank hb ih
  | case3 c cs hb hs ih =>
    rw [tokens_word hs]
    have hid : isIdentifier (String.ofList (c :: cs.takeWhile isIdRest)).toList = true := by
      simp [isIdentifier, hs, List.all_takeWhile]
    have hword := Spelled.word hid (endsWord_dropWhile cs) ih
    rwa [String.toList_ofList, List.cons_append, List.takeWhile_append_dropWhile] at hword
  | case4 c cs hb hs ih =>
    have hb : isBlank c = false := by simpa using hb
    have hs : isIdStart c = false := by simpa using hs
    rw [tokens_symbol hb hs]
    exact .symbol hb hs ih

theorem spelled_iff {ts : List Token} {cs : List Char} : Spelled ts cs ↔ tokens cs = ts := by
  constructor
  · intro h
    induction h with
    | nil => exact tokens_nil
    | blank hb _ ih => rw [tokens_blank hb, ih]
    | word hid hend _ ih => rw [tokens_identifier_append hid hend, ih]
    | symbol hb hs _ ih => rw [tokens_symbol hb hs, ih]
  · rintro rfl
    exact spelled_tokens cs

/-- A line can be split into tokens in one way only. -/
theorem Spelled.unique {ts ts' : List Token} {cs : List Char} (h : Spelled ts cs)
    (h' : Spelled ts' cs) : ts = ts' :=
  (spelled_iff.mp h).symm.trans (spelled_iff.mp h')

namespace LineCursor

variable {c : LineCursor}

theorem rest_skipBlanks (c : LineCursor) : c.skipBlanks.rest = c.rest.dropWhile isBlank :=
  drop_length_takeWhile isBlank c.rest

@[simp] theorem tokens_skipBlanks (c : LineCursor) : tokens c.skipBlanks.rest = tokens c.rest := by
  rw [rest_skipBlanks, tokens_dropWhile_blank]

theorem isBlank_head_skipBlanks {d : Char} {ds : List Char} (h : c.skipBlanks.rest = d :: ds) :
    isBlank d = false := by
  rw [rest_skipBlanks] at h
  have hd := List.head?_dropWhile_not isBlank c.rest
  rw [h] at hd
  simpa using hd

theorem skipBlanks_skipBlanks (c : LineCursor) : c.skipBlanks.skipBlanks = c.skipBlanks := by
  have h : c.skipBlanks.rest.takeWhile isBlank = [] := by
    cases hrest : c.skipBlanks.rest with
    | nil => rfl
    | cons d ds =>
      exact List.takeWhile_cons_of_neg (by simp [isBlank_head_skipBlanks hrest])
  rw [skipBlanks, h]
  simp [advance]

/-- Read one token; at the end of a line only blanks are read. -/
def nextToken (c : LineCursor) : LineCursor :=
  let c := c.skipBlanks
  match c.rest with
  | [] => c
  | d :: ds => c.advance (if isIdStart d then (ds.takeWhile isIdRest).length + 1 else 1)

theorem tokens_cases (c : LineCursor) :
    (c.skipBlanks.rest = [] ∧ tokens c.rest = [] ∧ c.nextToken = c.skipBlanks) ∨
    (∃ d ds, c.skipBlanks.rest = d :: ds ∧ isIdStart d = true ∧
      tokens c.rest =
        .word (String.ofList (d :: ds.takeWhile isIdRest)) :: tokens c.nextToken.rest ∧
      c.nextToken = c.skipBlanks.advance ((ds.takeWhile isIdRest).length + 1)) ∨
    ∃ d ds, c.skipBlanks.rest = d :: ds ∧ isIdStart d = false ∧
      tokens c.rest = .symbol d :: tokens c.nextToken.rest ∧
      c.nextToken = c.skipBlanks.advance 1 := by
  have htokens := (tokens_skipBlanks c).symm
  unfold nextToken
  cases hrest : c.skipBlanks.rest with
  | nil =>
    rw [hrest, tokens_nil] at htokens
    exact .inl ⟨rfl, htokens, by simp [hrest]⟩
  | cons d ds =>
    rw [hrest] at htokens
    simp only [hrest]
    cases hd : isIdStart d with
    | true =>
      refine .inr (.inl ⟨d, ds, rfl, hd, ?_, rfl⟩)
      rw [tokens_word hd] at htokens
      simpa [advance, hrest, drop_length_takeWhile] using htokens
    | false =>
      refine .inr (.inr ⟨d, ds, rfl, hd, ?_, rfl⟩)
      rw [tokens_symbol (isBlank_head_skipBlanks hrest) hd] at htokens
      simpa [advance, hrest] using htokens

@[simp] theorem tokens_nextToken (c : LineCursor) :
    tokens c.nextToken.rest = (tokens c.rest).tail := by
  obtain ⟨hrest, htokens, hnext⟩ | ⟨d, ds, hrest, hd, htokens, -⟩ |
    ⟨d, ds, hrest, hd, htokens, -⟩ := c.tokens_cases
  · rw [hnext, tokens_skipBlanks, htokens]
    rfl
  · rw [htokens]
    rfl
  · rw [htokens]
    rfl

theorem head?_skipBlanks_iff {d : Char} (hd : isIdStart d = false) (c : LineCursor) :
    c.skipBlanks.rest.head? = some d ↔ (tokens c.rest).head? = some (.symbol d) := by
  obtain ⟨hrest, htokens, -⟩ | ⟨x, xs, hrest, hx, htokens, -⟩ |
    ⟨x, xs, hrest, hx, htokens, -⟩ := c.tokens_cases
  · simp [hrest, htokens]
  · rw [hrest, htokens]
    simp only [List.head?_cons, Option.some.injEq, reduceCtorEq, iff_false]
    rintro rfl
    rw [hd] at hx
    cases hx
  · rw [hrest, htokens]
    simp

theorem nextToken_of_symbol {d : Char} (h : (tokens c.rest).head? = some (.symbol d)) :
    c.nextToken = c.skipBlanks.advance 1 := by
  obtain ⟨hrest, htokens, -⟩ | ⟨x, xs, hrest, hx, htokens, -⟩ |
    ⟨x, xs, hrest, hx, htokens, hnext⟩ := c.tokens_cases
  · rw [htokens] at h
    cases h
  · rw [htokens] at h
    cases h
  · exact hnext

end LineCursor

namespace Scan

variable {c c' : LineCursor} {d : Char}

theorem identifier_eq (c : LineCursor) : identifier c =
    match (tokens c.rest).head? with
    | some (.word name) => .ok name c.nextToken
    | _ => .error (c.skipBlanks.error .expectedIdentifier) c.skipBlanks := by
  unfold identifier
  obtain ⟨hrest, htokens, -⟩ | ⟨x, xs, hrest, hx, htokens, hnext⟩ |
    ⟨x, xs, hrest, hx, htokens, -⟩ := c.tokens_cases
  · simp [hrest, htokens]
  · rw [htokens, hnext]
    simp [hrest, hx]
  · rw [htokens]
    simp [hrest, hx]

theorem keyword_eq (word : String) (c : LineCursor) : keyword word c =
    if (tokens c.rest).head? = some (.word word) then .ok () c.nextToken
    else .error (c.skipBlanks.error (.expectedKeyword word)) c.skipBlanks := by
  have hnext : c.skipBlanks.nextToken = c.nextToken := by
    simp only [LineCursor.nextToken, LineCursor.skipBlanks_skipBlanks]
  simp only [keyword, identifier_eq, LineCursor.tokens_skipBlanks, hnext]
  cases (tokens c.rest).head? with
  | none => rfl
  | some t =>
    cases t with
    | symbol d => rfl
    | word name =>
      by_cases h : name = word
      · simp [h]
      · simp [h]

theorem identifier_ok_iff {name : String} : identifier c = .ok name c' ↔
    (tokens c.rest).head? = some (.word name) ∧ c.nextToken = c' := by
  rw [identifier_eq]
  split
  · next h => simp [h]
  · next h =>
    simp only [reduceCtorEq, false_iff, not_and]
    exact fun hword => absurd hword (h name)

theorem keyword_ok_iff {word : String} : keyword word c = .ok () c' ↔
    (tokens c.rest).head? = some (.word word) ∧ c.nextToken = c' := by
  rw [keyword_eq]
  split
  · next h => simp [h]
  · next h => simp [h]

theorem atEnd_eq (c : LineCursor) : atEnd c = .ok (tokens c.rest).isEmpty c.skipBlanks := by
  unfold atEnd
  obtain ⟨hrest, htokens, -⟩ | ⟨d, ds, hrest, hd, htokens, -⟩ |
    ⟨d, ds, hrest, hd, htokens, -⟩ := c.tokens_cases
  · rw [hrest, htokens]
    rfl
  · rw [hrest, htokens]
    rfl
  · rw [hrest, htokens]
    rfl

theorem endOfLine_eq (c : LineCursor) : endOfLine c =
    if tokens c.rest = [] then .ok () c.skipBlanks
    else .error (c.skipBlanks.error .trailingText) c.skipBlanks := by
  rw [endOfLine, step_bind_of_ok (atEnd_eq c)]
  cases tokens c.rest <;> rfl

theorem trySymbol_eq (hd : isIdStart d = false) (c : LineCursor) : trySymbol d c =
    if (tokens c.rest).head? = some (.symbol d) then .ok true c.nextToken
    else .ok false c.skipBlanks := by
  change (if c.skipBlanks.rest.head? = some d then _ else _ : Scan Bool) c.skipBlanks = _
  by_cases h : (tokens c.rest).head? = some (.symbol d)
  · rw [if_pos ((c.head?_skipBlanks_iff hd).mpr h), if_pos h, LineCursor.nextToken_of_symbol h]
    rfl
  · rw [if_neg (mt (c.head?_skipBlanks_iff hd).mp h), if_neg h]
    rfl

theorem symbol_eq (hd : isIdStart d = false) (c : LineCursor) : symbol d c =
    if (tokens c.rest).head? = some (.symbol d) then .ok () c.nextToken
    else .error (c.skipBlanks.error (.expectedChar d)) c.skipBlanks := by
  have htry := trySymbol_eq hd c
  split at htry
  · next h =>
    rw [symbol, step_bind_of_ok htry, if_pos h]
    rfl
  · next h =>
    rw [symbol, step_bind_of_ok htry, if_neg h]
    rfl

theorem nextChar_ok_iff (hd : isIdStart d = false) : nextChar c = .ok d c' ↔
    (tokens c.rest).head? = some (.symbol d) ∧ c' = c.nextToken := by
  rw [← c.head?_skipBlanks_iff hd]
  have hpeek : peek c = .ok c.skipBlanks.rest.head? c.skipBlanks := rfl
  rw [nextChar, step_bind_of_ok hpeek]
  cases hrest : c.skipBlanks.rest.head? with
  | none =>
    constructor
    · intro h
      cases h
    · rintro ⟨h, -⟩
      cases h
  | some x =>
    change EStateM.Result.ok x (c.skipBlanks.advance 1) = _ ↔ _
    rw [EStateM.Result.ok.injEq, Option.some.injEq]
    refine and_congr_right ?_
    rintro rfl
    have hnext := LineCursor.nextToken_of_symbol ((c.head?_skipBlanks_iff hd).mp hrest)
    rw [hnext]
    exact eq_comm

/-- Whether a line ends in a symbol is seen from its last token. -/
theorem cutEnd_cases (hr : isIdRest d = false) (hb : isBlank d = false) (c : LineCursor) :
    (∃ c', cutEnd d c = .ok true c' ∧ tokens c.rest = tokens c'.rest ++ [.symbol d]) ∨
    cutEnd d c = .ok false c ∧ ∀ ts, tokens c.rest ≠ ts ++ [.symbol d] := by
  have hstart : isIdStart d = false := by
    cases h : isIdStart d with
    | false => rfl
    | true => exact absurd (isIdRest_of_isIdStart h) (by simp [hr])
  have hrest : c.rest = (c.rest.reverse.dropWhile isBlank).reverse ++
      (c.rest.reverse.takeWhile isBlank).reverse := by
    rw [← List.reverse_append, List.takeWhile_append_dropWhile, List.reverse_reverse]
  have hblank : tokens (c.rest.reverse.takeWhile isBlank).reverse = [] :=
    (tokens_eq_nil_iff _).mpr fun x hx => List.mem_takeWhile_imp (List.mem_reverse.mp hx)
  have hlast : ∀ ts, tokens c.rest = ts ++ [.symbol d] →
      (c.rest.reverse.dropWhile isBlank).head? = some d := by
    intro ts hts
    obtain ⟨front, ws, hsplit, hws⟩ := exists_of_tokens_eq_append hts
    rw [hsplit, List.reverse_append, List.reverse_cons, List.append_assoc,
      List.dropWhile_append_of_pos fun x hx => hws x (List.mem_reverse.mp hx)]
    simp [hb]
  unfold cutEnd
  cases hdrop : c.rest.reverse.dropWhile isBlank with
  | nil =>
    refine .inr ⟨rfl, fun ts hts => ?_⟩
    rw [hdrop] at hlast
    cases hlast ts hts
  | cons last front =>
    by_cases hd : last = d
    · subst hd
      refine .inl ⟨_, if_pos rfl, ?_⟩
      rw [hrest, hdrop, List.reverse_cons, List.append_assoc,
        tokens_append _ (by simp [endsWord, hr])]
      rw [List.singleton_append, tokens_symbol hb hstart, hblank]
    · refine .inr ⟨if_neg hd, fun ts hts => ?_⟩
      rw [hdrop] at hlast
      exact hd (Option.some.inj (hlast ts hts))

end Scan

/-- The text is an identifier and reads as such. -/
def IsName (name : String) : Prop :=
  ∃ line, Scan.identifier { rest := name.toList } = .ok name line

theorem isName_iff {name : String} : IsName name ↔ isIdentifier name.toList = true := by
  constructor
  · rintro ⟨line, h⟩
    obtain ⟨hhead, -⟩ := Scan.identifier_ok_iff.mp h
    exact isIdentifier_of_mem_tokens (List.mem_of_head? hhead)
  · intro h
    refine ⟨_, Scan.identifier_ok_iff.mpr ⟨?_, rfl⟩⟩
    rw [tokens_of_isIdentifier h]
    rfl

end FlowGraph.Text
