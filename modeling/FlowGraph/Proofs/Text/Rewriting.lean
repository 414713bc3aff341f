import FlowGraph.Proofs.Text.Pages
import FlowGraph.Proofs.Text.Tokens

/-!
# Rewriting lines

Two ways to change a line whose effect on its tokens is known. Blanks and a comment at the end of a
line leave all tokens as they are. Other words in the place of words leave the symbols, the blanks,
the comment and the ends of lines as they are.
-/

namespace FlowGraph.Text

set_option autoImplicit false

variable {c d : Char} {cs l : List Char} {name : String} {ts us : List Token}

/-- The tokens of a line in front of its comment. -/
def shown (line : List Char) : List Token := tokens (LineCursor.visible line)

/-- Blanks, and then a comment or nothing. -/
def IsTrailer (cs : List Char) : Prop :=
  ∃ blanks comment, cs = blanks ++ comment ∧ (∀ c ∈ blanks, isBlank c = true) ∧
    (comment = [] ∨ comment.head? = some '#')

theorem isTrailer_append (blanks comment : List Char) (hblank : blanks.all isBlank = true)
    (hcomment : comment = [] ∨ comment.head? = some '#') : IsTrailer (blanks ++ comment) :=
  ⟨blanks, comment, rfl, List.all_eq_true.mp hblank, hcomment⟩

theorem visible_append_comment {front comment : List Char} (hfront : '#' ∉ front)
    (hcomment : comment = [] ∨ comment.head? = some '#') :
    LineCursor.visible (front ++ comment) = front := by
  have hshown : ∀ c ∈ front, decide (c ≠ '#') = true := by
    intro c hc
    refine decide_eq_true ?_
    rintro rfl
    exact hfront hc
  have hhidden : comment.takeWhile (· ≠ '#') = [] := by
    cases comment with
    | nil => rfl
    | cons c rest =>
      rcases hcomment with hnil | hhead
      · cases hnil
      · cases hhead
        rfl
  rw [LineCursor.visible, List.takeWhile_append_of_pos hshown, hhidden, List.append_nil]

theorem IsTrailer.visible (h : IsTrailer cs) :
    ∀ c ∈ LineCursor.visible cs, isBlank c = true := by
  obtain ⟨blanks, comment, rfl, hblank, hcomment⟩ := h
  have hfront : '#' ∉ blanks := fun hmem => absurd (hblank '#' hmem) (by decide)
  rw [visible_append_comment hfront hcomment]
  exact hblank

theorem IsTrailer.shown (h : IsTrailer cs) : shown cs = [] :=
  (tokens_eq_nil_iff _).mpr h.visible

theorem IsTrailer.endsWord (h : IsTrailer cs) : endsWord (LineCursor.visible cs) = true := by
  have hblank := h.visible
  cases hv : LineCursor.visible cs with
  | nil => rfl
  | cons c rest =>
    have hc : isBlank c = true := hblank c (by simp [hv])
    cases hrest : isIdRest c with
    | false => simp [Text.endsWord, hrest]
    | true =>
      rw [isBlank_of_isIdRest hrest] at hc
      cases hc

/-- A line keeps its tokens whatever follows in blanks and comments. -/
theorem shown_append (l : List Char) (h : IsTrailer cs) : shown (l ++ cs) = shown l := by
  unfold shown LineCursor.visible
  rw [List.takeWhile_append]
  split
  · next hall =>
    have hself : l.takeWhile (· ≠ '#') = l := (List.takeWhile_prefix _).eq_of_length hall
    have htokens := tokens_append l h.endsWord
    rw [show tokens (LineCursor.visible cs) = [] from h.shown, List.append_nil] at htokens
    rw [hself]
    exact htokens
  · rfl

/-- The second tokens are the first ones with identifiers in the place of the words. -/
inductive Rewords : List Token → List Token → Prop
  | nil : Rewords [] []
  | word {old new : String} {ts us : List Token} :
      isIdentifier new.toList = true → Rewords ts us → Rewords (.word old :: ts) (.word new :: us)
  | symbol {c : Char} {ts us : List Token} :
      Rewords ts us → Rewords (.symbol c :: ts) (.symbol c :: us)

theorem Rewords.refl (h : ∀ name, .word name ∈ ts → isIdentifier name.toList = true) :
    Rewords ts ts := by
  induction ts with
  | nil => exact .nil
  | cons t ts ih =>
    have hrest := ih fun name hname => h name (List.mem_cons_of_mem t hname)
    cases t with
    | word name => exact .word (h name List.mem_cons_self) hrest
    | symbol c => exact .symbol hrest

def Token.text : Token → List Char
  | word name => name.toList
  | symbol c => [c]

/-- Put these tokens in the place of those of a line. -/
def respell : List Token → List Char → List Char
  | u :: us, c :: cs =>
    if isBlank c then c :: respell (u :: us) cs
    else u.text ++ respell us (if isIdStart c then cs.dropWhile isIdRest else cs)
  | _, cs => cs
termination_by _ cs => cs.length
decreasing_by
  · simp
  · have h := (List.dropWhile_suffix (l := cs) isIdRest).length_le
    split <;> simp only [List.length_cons] <;> omega

@[simp] theorem respell_nil (us : List Token) : respell us [] = [] := by
  simp [respell]

theorem respell_blank (h : isBlank c = true) : respell us (c :: cs) = c :: respell us cs := by
  cases us with
  | nil => simp [respell]
  | cons u us => rw [respell, if_pos h]

theorem respell_word (h : isIdStart c = true) :
    respell (.word name :: us) (c :: cs) =
      name.toList ++ respell us (cs.dropWhile isIdRest) := by
  rw [respell, if_neg (by simp [isBlank_of_isIdStart h]), if_pos h]
  rfl

theorem respell_symbol (hb : isBlank c = false) (hs : isIdStart c = false) :
    respell (.symbol d :: us) (c :: cs) = d :: respell us cs := by
  rw [respell, if_neg (by simp [hb]), if_neg (by simp [hs])]
  rfl

theorem endsWord_respell (hcs : endsWord cs = true) (h : Rewords (tokens cs) us) :
    endsWord (respell us cs) = true := by
  cases cs with
  | nil =>
    rw [respell_nil]
    rfl
  | cons c cs =>
    cases hb : isBlank c with
    | true =>
      rw [respell_blank hb]
      exact hcs
    | false =>
      have hrest : isIdRest c = false := by simpa [endsWord] using hcs
      have hstart : isIdStart c = false := by
        cases hs : isIdStart c with
        | false => rfl
        | true => exact absurd (isIdRest_of_isIdStart hs) (by simp [hrest])
      rw [tokens_symbol hb hstart] at h
      cases h
      rw [respell_symbol hb hstart]
      exact hcs

theorem tokens_respell (h : Rewords (tokens cs) us) : tokens (respell us cs) = us := by
  induction cs using tokens.induct generalizing us with
  | case1 =>
    rw [tokens_nil] at h
    cases h
    rw [respell_nil, tokens_nil]
  | case2 c cs hb ih =>
    rw [tokens_blank hb] at h
    rw [respell_blank hb, tokens_blank hb, ih h]
  | case3 c cs hb hs ih =>
    rw [tokens_word hs] at h
    obtain _ | ⟨hid, hrest⟩ | _ := h
    rw [respell_word hs, tokens_identifier_append hid
      (endsWord_respell (endsWord_dropWhile cs) hrest), ih hrest]
  | case4 c cs hb hs ih =>
    have hb : isBlank c = false := by simpa using hb
    have hs : isIdStart c = false := by simpa using hs
    rw [tokens_symbol hb hs] at h
    obtain _ | _ | hrest := h
    rw [respell_symbol hb hs, tokens_symbol hb hs, ih hrest]

/-- No other characters come in than those of identifiers. -/
theorem mem_of_mem_respell (h : Rewords (tokens cs) us) (hd : d ∈ respell us cs) :
    d ∈ cs ∨ isIdRest d = true := by
  induction cs using tokens.induct generalizing us with
  | case1 =>
    rw [respell_nil] at hd
    cases hd
  | case2 c cs hb ih =>
    rw [tokens_blank hb] at h
    rw [respell_blank hb] at hd
    rcases List.mem_cons.mp hd with rfl | hd
    · exact .inl List.mem_cons_self
    · exact (ih h hd).imp_left (List.mem_cons_of_mem c)
  | case3 c cs hb hs ih =>
    rw [tokens_word hs] at h
    obtain _ | ⟨hid, hrest⟩ | _ := h
    rw [respell_word hs] at hd
    rcases List.mem_append.mp hd with hd | hd
    · exact .inr (isIdRest_of_mem hid hd)
    · refine (ih hrest hd).imp_left fun hmem => List.mem_cons_of_mem c ?_
      exact (List.dropWhile_suffix isIdRest).subset hmem
  | case4 c cs hb hs ih =>
    have hb : isBlank c = false := by simpa using hb
    have hs : isIdStart c = false := by simpa using hs
    rw [tokens_symbol hb hs] at h
    obtain _ | _ | hrest := h
    rw [respell_symbol hb hs] at hd
    rcases List.mem_cons.mp hd with rfl | hd
    · exact .inl List.mem_cons_self
    · exact (ih hrest hd).imp_left (List.mem_cons_of_mem c)

theorem respell_ne_nil (h : Rewords (tokens (c :: cs)) us) : respell us (c :: cs) ≠ [] := by
  cases hb : isBlank c with
  | true =>
    rw [respell_blank hb]
    exact List.cons_ne_nil _ _
  | false =>
    cases hs : isIdStart c with
    | true =>
      rw [tokens_word hs] at h
      obtain _ | ⟨hid, hrest⟩ | _ := h
      rw [respell_word hs]
      intro hnil
      rw [(List.append_eq_nil_iff.mp hnil).1] at hid
      cases hid
    | false =>
      rw [tokens_symbol hb hs] at h
      obtain _ | _ | hrest := h
      rw [respell_symbol hb hs]
      exact List.cons_ne_nil _ _

/-- Change the tokens of a line by `g`. Its blanks and its comment stay. -/
def reword (g : List Token → List Token) (line : List Char) : List Char :=
  respell (g (shown line)) (LineCursor.visible line) ++ line.dropWhile (· ≠ '#')

/-- Change every line of a text, whose ends of lines stay. -/
def mapLines (g : List Char → List Char) (text : List Char) : List Char :=
  ['\n'].intercalate ((text.splitOn '\n').map g)

section reword

variable {g : List Token → List Token} {text : List Char}

theorem shown_reword (h : Rewords (shown l) (g (shown l))) :
    shown (reword g l) = g (shown l) := by
  have hfront : '#' ∉ respell (g (shown l)) (LineCursor.visible l) := by
    intro hmem
    rcases mem_of_mem_respell h hmem with hmem | hid
    · simpa using List.mem_takeWhile_imp hmem
    · exact absurd hid (by decide)
  have hcomment : l.dropWhile (· ≠ '#') = [] ∨
      (l.dropWhile (· ≠ '#')).head? = some '#' := by
    have hhead := List.head?_dropWhile_not (· ≠ '#') l
    cases hrest : l.dropWhile (· ≠ '#') with
    | nil => exact .inl rfl
    | cons c rest =>
      rw [hrest] at hhead
      exact .inr (by simpa using hhead)
  rw [shown, reword, visible_append_comment hfront hcomment, tokens_respell h]

theorem feed_notMem_reword (h : Rewords (shown l) (g (shown l))) (hl : '\n' ∉ l) :
    '\n' ∉ reword g l := by
  intro hmem
  rcases List.mem_append.mp hmem with hmem | hmem
  · rcases mem_of_mem_respell h hmem with hmem | hid
    · exact hl ((List.takeWhile_prefix _).subset hmem)
    · exact absurd hid (by decide)
  · exact hl ((List.dropWhile_suffix _).subset hmem)

theorem reword_eq_nil_iff (h : Rewords (shown l) (g (shown l))) : reword g l = [] ↔ l = [] := by
  constructor
  · intro hnil
    obtain ⟨hfront, hback⟩ := List.append_eq_nil_iff.mp hnil
    have hvisible : LineCursor.visible l = [] := by
      cases hv : LineCursor.visible l with
      | nil => rfl
      | cons c cs =>
        rw [shown, hv] at h hfront
        exact absurd hfront (respell_ne_nil h)
    rw [← List.takeWhile_append_dropWhile (p := (· ≠ '#')) (l := l), hback, List.append_nil]
    exact hvisible
  · rintro rfl
    exact List.append_eq_nil_iff.mpr ⟨respell_nil _, rfl⟩

end reword

section mapLines

variable {k : List Char → List Char} {g : List Token → List Token} {text rest : List Char}

theorem lines_of_notMem (hl : '\n' ∉ l) (hne : l ≠ []) : lines l = [l] := by
  induction l with
  | nil => exact absurd rfl hne
  | cons c l ih =>
    obtain ⟨hc, hl⟩ := not_or.mp (mt List.mem_cons.mpr hl)
    have hhead : l.head? ≠ some '\n' := fun hhead => hl (List.mem_of_head? hhead)
    rw [lines_cons (Ne.symm hc) fun _ => hhead]
    cases l with
    | nil => rfl
    | cons d l => rw [ih hl (List.cons_ne_nil d l), consLine]

/-- A line with its end is one line, less a carriage return at its end. -/
theorem lines_append_single (hl : '\n' ∉ l) :
    ∃ x, lines (l ++ ['\n']) = [x] ∧ (l = x ∨ l = x ++ ['\r']) := by
  induction l with
  | nil => exact ⟨[], rfl, .inl rfl⟩
  | cons c l ih =>
    obtain ⟨hc, hl⟩ := not_or.mp (mt List.mem_cons.mpr hl)
    by_cases hret : c = '\r' ∧ l = []
    · obtain ⟨rfl, rfl⟩ := hret
      exact ⟨[], rfl, .inr rfl⟩
    · have hhead : c = '\r' → (l ++ ['\n']).head? ≠ some '\n' := by
        intro hr hhead
        cases l with
        | nil => exact hret ⟨hr, rfl⟩
        | cons d l => exact hl (List.mem_of_head? hhead)
      obtain ⟨x, hx, hlx⟩ := ih hl
      refine ⟨c :: x, ?_, hlx.imp (congrArg (c :: ·)) (congrArg (c :: ·))⟩
      rw [List.cons_append, lines_cons (Ne.symm hc) hhead, hx, consLine]

theorem map_shown_lines_append_single (hl : '\n' ∉ l) :
    (lines (l ++ ['\n'])).map shown = [shown l] := by
  obtain ⟨x, hx, rfl | rfl⟩ := lines_append_single hl
  · rw [hx, List.map_singleton]
  · have hreturn : IsTrailer ['\r'] := isTrailer_append ['\r'] [] (by decide) (.inl rfl)
    rw [hx, List.map_singleton, shown_append x hreturn]

theorem mapLines_of_notMem (hl : '\n' ∉ l) : mapLines k l = k l := by
  have hsplit : (['\n'].intercalate [l]).splitOn '\n' = [l] :=
    List.splitOn_intercalate '\n' (by simpa using hl) (by simp)
  rw [List.intercalate_singleton] at hsplit
  rw [mapLines, hsplit, List.map_singleton, List.intercalate_singleton]

theorem mapLines_append (hl : '\n' ∉ l) :
    mapLines k (l ++ '\n' :: rest) = k l ++ '\n' :: mapLines k rest := by
  have hsplit : (l ++ '\n' :: rest).splitOn '\n' = l :: rest.splitOn '\n' := by
    refine List.splitOnP_append_cons_of_forall_mem ?_ '\n' (by decide) rest
    intro c hc
    simpa using fun heq : c = '\n' => hl (heq ▸ hc)
  rw [mapLines, hsplit, mapLines]
  cases hrest : rest.splitOn '\n' with
  | nil => exact absurd hrest (List.splitOn_ne_nil '\n' rest)
  | cons x xs =>
    rw [List.map_cons, List.map_cons, List.intercalate_cons_cons, List.append_assoc]
    rfl

/-- A change of lines that is a change of tokens, and neither parts nor joins lines, is seen in the
tokens of the text line by line. -/
theorem map_shown_lines_mapLines (hk : ∀ l, shown (k l) = g (shown l))
    (hfeed : ∀ l, '\n' ∉ l → '\n' ∉ k l) (hnil : ∀ l, k l = [] ↔ l = []) (text : List Char) :
    (lines (mapLines k text)).map shown = (lines text).map (g ∘ shown) := by
  induction hn : text.length using Nat.strongRecOn generalizing text with
  | ind n ih =>
    by_cases hmem : '\n' ∈ text
    · obtain ⟨l, rest, rfl, hl⟩ := List.eq_append_cons_of_mem hmem
      have hrest := ih rest.length (by simp [← hn]; omega) rest rfl
      have hfirst : (lines (l ++ ['\n'])).map (g ∘ shown) = [g (shown l)] := by
        rw [← List.map_map, map_shown_lines_append_single hl, List.map_singleton]
      rw [mapLines_append hl, lines_append_feed, lines_append_feed l, List.map_append,
        List.map_append, hrest, hfirst, map_shown_lines_append_single (hfeed l hl), hk]
    · rw [mapLines_of_notMem hmem]
      by_cases hempty : text = []
      · rw [(hnil text).mpr hempty, hempty]
        rfl
      · have hne : k text ≠ [] := fun heq => hempty ((hnil text).mp heq)
        rw [lines_of_notMem hmem hempty, lines_of_notMem (hfeed text hmem) hne,
          List.map_singleton, List.map_singleton, hk]
        rfl

theorem map_shown_lines_reword (hg : ∀ l, Rewords (shown l) (g (shown l))) (text : List Char) :
    (lines (mapLines (reword g) text)).map shown = (lines text).map (g ∘ shown) :=
  map_shown_lines_mapLines (fun l => shown_reword (hg l)) (fun l => feed_notMem_reword (hg l))
    (fun l => reword_eq_nil_iff (hg l)) text

end mapLines

end FlowGraph.Text
