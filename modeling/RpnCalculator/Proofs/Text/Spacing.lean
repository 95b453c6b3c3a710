import Mathlib.Logic.ExistsUnique
import RpnCalculator.Proofs.Text.Calls
import RpnCalculator.Proofs.Text.Lines

/-!
# A text as words and the blanks between them

A text is some blanks, then words with blanks behind each.  `Spacing.Of` says when such a reading
of a text is one in words as they are meant: a word in quotes ends at the second quote, a word whose
quote is not closed is the last and has nothing behind it, and a word without quotes around it has
no blank in it and a blank behind it, unless it is the last.

Every text has such a reading (`exists_spacing`) and no text has two (`Spacing.Of.unique`), so
that splitting a text into words loses nothing but the blanks, and there is nothing to choose.  The
words of the reading are those that the splitter finds (`Spacing.Of.words_eq`).  That is proved from
the readings to the splitter and not the other way round: a word of each of the three kinds in
front of a rest is split off from it, so the induction is on the pieces.

Uniqueness rests on the splitter.  Two readings of a text have the words that the splitter finds,
and if the words are known then so are the blanks, because no word begins with one
(`Pieces.eq_of_words`).

Blanks can be exchanged for other blanks.  With one blank behind each word but the last the pieces
are pieces again (`Pieces.spaced`), and the text is the words joined by blanks.
-/

namespace RpnCalculator

namespace Token

open Text

/-! ## Pieces -/

/-- A run of blanks. -/
def Blanks (bs : List Char) : Prop := ∀ b ∈ bs, isBlank b = true

/-- A word in quotes. -/
inductive Quoted : List Char → Prop where
  | mk {text : List Char} (h : '"' ∉ text) : Quoted ('"' :: (text ++ ['"']))

/-- Words, each with the blanks behind it. -/
inductive Pieces : List (List Char × List Char) → Prop where
  | nil : Pieces []
  /-- A word whose quote is not closed is the last, and nothing stands behind it. -/
  | unclosed {w : List Char} (hw : isOpen w = true) : Pieces [(w, [])]
  | quoted {w gap : List Char} {ps : List (List Char × List Char)} (hw : Quoted w)
      (hgap : Blanks gap) (hps : Pieces ps) : Pieces ((w, gap) :: ps)
  /-- A word without quotes around it needs a blank to end, unless it is the last. -/
  | bare {w gap : List Char} {ps : List (List Char × List Char)} (hw : Bare w)
      (hgap : Blanks gap) (hsep : ps ≠ [] → gap ≠ []) (hps : Pieces ps) : Pieces ((w, gap) :: ps)

/-- The text of words with the blanks behind them. -/
def textOf (ps : List (List Char × List Char)) : List Char := ps.flatMap fun p => p.1 ++ p.2

theorem textOf_cons (w gap : List Char) (ps : List (List Char × List Char)) :
    textOf ((w, gap) :: ps) = w ++ (gap ++ textOf ps) := by
  rw [textOf, List.flatMap_cons, List.append_assoc]
  rfl

/-- A reading of a text: the blanks before the first word, and the words with the blanks behind
them. -/
structure Spacing where
  before : List Char
  pieces : List (List Char × List Char)

namespace Spacing

/-- The words of a reading. -/
def words (s : Spacing) : List (List Char) := s.pieces.map Prod.fst

/-- To be a reading of a text. -/
structure Of (cs : List Char) (s : Spacing) : Prop where
  text : s.before ++ textOf s.pieces = cs
  before : Blanks s.before
  pieces : Pieces s.pieces

end Spacing

/-! ## Every text has a reading

There are three places to read from, as there are in the splitter: between words, in a word
without quotes, and in a word with quotes that is closed. -/

/-- A text that can be read from between words. -/
def ReadsBetween (cs : List Char) : Prop :=
  ∃ before ps, cs = before ++ textOf ps ∧ Blanks before ∧ Pieces ps

/-- A text that can be read from within a word without quotes around it. -/
def ReadsBare (cs : List Char) : Prop :=
  ∃ w gap ps, cs = w ++ (gap ++ textOf ps) ∧ (∀ c ∈ w, isBlank c = false) ∧ Blanks gap ∧
    (ps ≠ [] → gap ≠ []) ∧ Pieces ps

/-- A text that can be read from within a word in quotes. -/
def ReadsQuoted (cs : List Char) : Prop :=
  ∃ text gap ps, cs = text ++ '"' :: (gap ++ textOf ps) ∧ '"' ∉ text ∧ Blanks gap ∧ Pieces ps

section

variable {c : Char} {cs : List Char}

theorem ReadsBetween.cons_blank (h : ReadsBetween cs) (hc : isBlank c = true) :
    ReadsBetween (c :: cs) := by
  obtain ⟨before, ps, rfl, hbefore, hps⟩ := h
  exact ⟨c :: before, ps, rfl, List.forall_mem_cons.mpr ⟨hc, hbefore⟩, hps⟩

theorem ReadsBare.cons (h : ReadsBare cs) (hc : isBlank c = false) : ReadsBare (c :: cs) := by
  obtain ⟨w, gap, ps, rfl, hw, hgap, hsep, hps⟩ := h
  exact ⟨c :: w, gap, ps, rfl, List.forall_mem_cons.mpr ⟨hc, hw⟩, hgap, hsep, hps⟩

theorem ReadsQuoted.cons (h : ReadsQuoted cs) (hc : c ≠ '"') : ReadsQuoted (c :: cs) := by
  obtain ⟨text, gap, ps, rfl, htext, hgap, hps⟩ := h
  refine ⟨c :: text, gap, ps, rfl, ?_, hgap, hps⟩
  rw [List.mem_cons, not_or]
  exact ⟨hc.symm, htext⟩

/-- A blank ends a word without quotes around it. -/
theorem ReadsBetween.bare (h : ReadsBetween cs) (hc : isBlank c = true) : ReadsBare (c :: cs) := by
  obtain ⟨before, ps, rfl, hbefore, hps⟩ := h
  exact ⟨[], c :: before, ps, rfl, nofun, List.forall_mem_cons.mpr ⟨hc, hbefore⟩,
    fun _ => List.cons_ne_nil _ _, hps⟩

/-- A quote ends a word in quotes. -/
theorem ReadsBetween.quoted (h : ReadsBetween cs) : ReadsQuoted ('"' :: cs) := by
  obtain ⟨before, ps, rfl, hbefore, hps⟩ := h
  exact ⟨[], before, ps, rfl, nofun, hbefore, hps⟩

/-- What begins with a character that is neither a blank nor a quote begins with a word. -/
theorem ReadsBare.between (h : ReadsBare cs) (hc : isBlank c = false) (hq : c ≠ '"') :
    ReadsBetween (c :: cs) := by
  obtain ⟨w, gap, ps, rfl, hw, hgap, hsep, hps⟩ := h
  have hbare : Bare (c :: w) := by
    refine ⟨List.cons_ne_nil _ _, List.forall_mem_cons.mpr ⟨hc, hw⟩, ?_⟩
    rw [List.head?_cons]
    exact fun h => hq (Option.some.inj h)
  exact ⟨[], _, by rw [textOf_cons]; rfl, nofun, .bare hbare hgap hsep hps⟩

theorem ReadsQuoted.between (h : ReadsQuoted cs) : ReadsBetween ('"' :: cs) := by
  obtain ⟨text, gap, ps, rfl, htext, hgap, hps⟩ := h
  refine ⟨[], _, ?_, nofun, .quoted (.mk htext) hgap hps⟩
  rw [textOf_cons]
  simp

/-- Without another quote, a quote begins the last word. -/
theorem readsBetween_unclosed (h : '"' ∉ cs) : ReadsBetween ('"' :: cs) := by
  have hopen : isOpen ('"' :: cs) = true := by simpa [isOpen_quote] using h
  exact ⟨[], [('"' :: cs, [])], by simp [textOf], nofun, .unclosed hopen⟩

end

/-- **Every text can be read**, from wherever in a word it is taken up. -/
theorem exists_reading (cs : List Char) :
    ReadsBetween cs ∧ ReadsBare cs ∧ ('"' ∈ cs → ReadsQuoted cs) := by
  induction cs with
  | nil =>
    exact ⟨⟨[], [], rfl, nofun, .nil⟩, ⟨[], [], [], rfl, nofun, nofun, fun h => absurd rfl h, .nil⟩,
      nofun⟩
  | cons c cs ih =>
    obtain ⟨hbetween, hbare, hquoted⟩ := ih
    refine ⟨?_, ?_, fun hmem => ?_⟩
    · cases hc : isBlank c with
      | true => exact hbetween.cons_blank hc
      | false =>
        by_cases hq : c = '"'
        · rw [hq]
          by_cases hmem : '"' ∈ cs
          · exact (hquoted hmem).between
          · exact readsBetween_unclosed hmem
        · exact hbare.between hc hq
    · cases hc : isBlank c with
      | true => exact hbetween.bare hc
      | false => exact hbare.cons hc
    · by_cases hq : c = '"'
      · rw [hq]
        exact hbetween.quoted
      · exact (hquoted ((List.mem_cons.mp hmem).resolve_left (Ne.symm hq))).cons hq

theorem exists_spacing (cs : List Char) : ∃ s : Spacing, s.Of cs := by
  obtain ⟨⟨before, ps, hcs, hbefore, hps⟩, -⟩ := exists_reading cs
  exact ⟨⟨before, ps⟩, hcs.symm, hbefore, hps⟩

/-! ## The splitter finds the words of a reading -/

theorem Quoted.words_append {w : List Char} (h : Quoted w) (rest : List Char) :
    words (w ++ rest) = w :: words rest := by
  obtain ⟨htext⟩ := h
  rw [List.cons_append, List.append_assoc]
  exact words_quote_append htext rest

theorem words_of_isOpen {w : List Char} (h : isOpen w = true) : words w = [w] := by
  unfold isOpen at h
  split at h
  · rename_i text
    have htext : '"' ∉ text := by simpa using h
    rw [words, if_neg (by simp [isBlank_quote]), if_pos rfl, quoted_of_notMem htext]
  · cases h

namespace Pieces

variable {ps qs : List (List Char × List Char)}

/-- **The splitter finds the words.** -/
theorem words_textOf (h : Pieces ps) : words (textOf ps) = ps.map Prod.fst := by
  induction h with
  | nil => rfl
  | unclosed hw =>
    rw [textOf_cons]
    simpa [textOf] using words_of_isOpen hw
  | quoted hw hgap _ ih =>
    rw [textOf_cons, hw.words_append, words_blanks_append hgap, ih]
    rfl
  | @bare w gap ps hw hgap hsep _ ih =>
    have hrest : ∀ c ∈ (gap ++ textOf ps).head?, isBlank c = true := by
      cases gap with
      | nil =>
        obtain rfl : ps = [] := by
          by_contra hne
          exact hsep hne rfl
        nofun
      | cons b gap =>
        rintro c ⟨⟩
        exact hgap b List.mem_cons_self
    rw [textOf_cons, hw.words_append hrest, words_blanks_append hgap, ih]
    rfl

/-! ## No text has two readings -/

/-- What is said of the first of several pieces. -/
theorem of_cons {w gap : List Char} (h : Pieces ((w, gap) :: ps)) :
    Blanks gap ∧ Pieces ps ∧ Pieces [(w, [])] ∧ ∃ c ∈ w.head?, isBlank c = false := by
  cases h with
  | unclosed hw =>
    refine ⟨nofun, .nil, .unclosed hw, '"', ?_, isBlank_quote⟩
    unfold isOpen at hw
    split at hw
    · rfl
    · cases hw
  | quoted hw hgap hps =>
    refine ⟨hgap, hps, .quoted hw nofun .nil, '"', ?_, isBlank_quote⟩
    cases hw
    rfl
  | bare hw hgap _ hps =>
    obtain ⟨c, cs, rfl⟩ := List.exists_cons_of_ne_nil hw.ne_nil
    exact ⟨hgap, hps, .bare hw nofun (fun h => absurd rfl h) .nil, c, rfl,
      hw.not_blank c List.mem_cons_self⟩

/-- The blanks before pieces are all that stand at the beginning. -/
theorem takeWhile_append (h : Pieces ps) {bs : List Char} (hbs : Blanks bs) :
    (bs ++ textOf ps).takeWhile isBlank = bs := by
  rw [List.takeWhile_append_of_pos hbs]
  cases ps with
  | nil => rw [textOf, List.flatMap_nil, List.takeWhile_nil, List.append_nil]
  | cons p ps =>
    obtain ⟨-, -, -, c, hc, hblank⟩ := h.of_cons
    obtain ⟨cs, hw⟩ := List.head?_eq_some_iff.mp hc
    rw [textOf_cons, hw, List.cons_append, List.takeWhile_cons_of_neg (by simp [hblank]),
      List.append_nil]

theorem before_eq (h : Pieces ps) (h' : Pieces qs) {bs bs' : List Char} (hbs : Blanks bs)
    (hbs' : Blanks bs') (heq : bs ++ textOf ps = bs' ++ textOf qs) :
    bs = bs' ∧ textOf ps = textOf qs := by
  have hbefore : bs = bs' := by rw [← h.takeWhile_append hbs, heq, h'.takeWhile_append hbs']
  refine ⟨hbefore, ?_⟩
  rw [hbefore] at heq
  exact List.append_cancel_left heq

/-- Words and text leave no choice for the blanks. -/
theorem eq_of_words (h : Pieces ps) (h' : Pieces qs) (hwords : ps.map Prod.fst = qs.map Prod.fst)
    (htext : textOf ps = textOf qs) : ps = qs := by
  induction ps generalizing qs with
  | nil => exact (List.map_eq_nil_iff.mp hwords.symm).symm
  | cons p ps ih =>
    obtain ⟨w, gap⟩ := p
    cases qs with
    | nil => cases hwords
    | cons q qs =>
      obtain ⟨v, gap'⟩ := q
      rw [List.map_cons, List.map_cons, List.cons.injEq] at hwords
      obtain ⟨rfl, hwords⟩ := hwords
      obtain ⟨hgap, hps, -⟩ := h.of_cons
      obtain ⟨hgap', hqs, -⟩ := h'.of_cons
      rw [textOf_cons, textOf_cons] at htext
      obtain ⟨rfl, hrest⟩ := before_eq hps hqs hgap hgap' (List.append_cancel_left htext)
      rw [ih hps hqs hwords hrest]

/-! ## Other blanks -/

/-- Each word alone is a piece. -/
theorem singleton (h : Pieces ps) {w : List Char} (hw : w ∈ ps.map Prod.fst) :
    Pieces [(w, [])] := by
  induction ps with
  | nil => cases hw
  | cons p ps ih =>
    obtain ⟨-, hps, hfirst, -⟩ := h.of_cons
    rw [List.map_cons, List.mem_cons] at hw
    rcases hw with rfl | hw
    · exact hfirst
    · exact ih hps hw

end Pieces

/-- Words with one blank behind each but the last. -/
def spaced : List (List Char) → List (List Char × List Char)
  | [] => []
  | [w] => [(w, [])]
  | w :: v :: ws => (w, [' ']) :: spaced (v :: ws)

theorem map_fst_spaced (ws : List (List Char)) : (spaced ws).map Prod.fst = ws := by
  fun_induction spaced ws with
  | case1 => rfl
  | case2 w => rfl
  | case3 w v ws ih => rw [List.map_cons, ih]

theorem textOf_spaced (ws : List (List Char)) : textOf (spaced ws) = [' '].intercalate ws := by
  fun_induction spaced ws with
  | case1 => rfl
  | case2 w => rw [textOf_cons, List.intercalate_singleton, textOf, List.flatMap_nil,
      List.append_nil, List.append_nil]
  | case3 w v ws ih => rw [textOf_cons, ih, List.intercalate_cons_cons, List.append_assoc]

theorem blanks_space : Blanks [' '] := List.all_eq_true.mp (by decide)

/-- **Words stay words when other blanks stand between them.** -/
theorem Pieces.spaced {ps : List (List Char × List Char)} (h : Pieces ps) :
    Pieces (Token.spaced (ps.map Prod.fst)) := by
  induction h with
  | nil => exact .nil
  | unclosed hw => exact .unclosed hw
  | @quoted w gap ps hw _ hps ih =>
    cases ps with
    | nil => exact .quoted hw nofun .nil
    | cons p ps => exact .quoted hw blanks_space ih
  | @bare w gap ps hw _ _ hps ih =>
    cases ps with
    | nil => exact .bare hw nofun (fun h => absurd rfl h) .nil
    | cons p ps => exact .bare hw blanks_space (fun _ => List.cons_ne_nil _ _) ih

namespace Spacing.Of

variable {cs : List Char} {s t : Spacing}

theorem words_eq (h : s.Of cs) : Token.words cs = s.words := by
  rw [← h.text, words_blanks_append h.before, h.pieces.words_textOf, Spacing.words]

/-- **A text is read in one way only.** -/
theorem unique (h : s.Of cs) (h' : t.Of cs) : s = t := by
  obtain ⟨hbefore, htext⟩ :=
    h.pieces.before_eq h'.pieces h.before h'.before (h.text.trans h'.text.symm)
  have hpieces := h.pieces.eq_of_words h'.pieces (h.words_eq.symm.trans h'.words_eq) htext
  obtain ⟨before, pieces⟩ := s
  obtain ⟨before', pieces'⟩ := t
  rw [Spacing.mk.injEq]
  exact ⟨hbefore, hpieces⟩

end Spacing.Of

theorem words_of_mem_words {cs w : List Char} (h : w ∈ words cs) : words w = [w] := by
  obtain ⟨s, hs⟩ := exists_spacing cs
  rw [hs.words_eq] at h
  have hword := (hs.pieces.singleton h).words_textOf
  rwa [textOf_cons, textOf, List.flatMap_nil, List.append_nil, List.append_nil] at hword

theorem words_intercalate (cs : List Char) : words ([' '].intercalate (words cs)) = words cs := by
  obtain ⟨s, hs⟩ := exists_spacing cs
  rw [hs.words_eq, ← textOf_spaced, Spacing.words, hs.pieces.spaced.words_textOf, map_fst_spaced]

end Token

/-! ## Splitting a text -/

open Token

theorem empty_notMem_tokenize (text : String) : "" ∉ tokenize text := by
  intro h
  obtain ⟨w, hw, hempty⟩ := List.mem_map.mp h
  obtain rfl : w = [] := String.ofList_inj.mp hempty
  exact nil_notMem_words _ hw

/-- No source that is a text delivers an empty word. -/
theorem empty_notMem_answers {s : Source} {texts : List String}
    (h : s.pending = texts.flatMap tokenize) (n : Nat) : some "" ∉ answers Source.call n s := by
  rw [answers_eq Source.takesFirst_call, h]
  intro hmem
  obtain ⟨text, -, hempty⟩ := List.mem_flatMap.mp (mem_of_some_mem_deliveries hmem)
  exact empty_notMem_tokenize text hempty

theorem pending_ofText_eq_flatMap (text : String) :
    (Source.ofText text).pending =
      ((Text.lines text.toList).map String.ofList).flatMap tokenize := by
  show ((Text.lines text.toList).flatMap words).map String.ofList = _
  rw [List.map_flatMap, List.flatMap_map]
  simp only [tokenize, String.toList_ofList]

/-- **Splitting a text into words loses nothing.**  The text can be read as words with blanks
between them, in one way only, and the splitter finds the words of that reading.  So each word is
split into itself, and the words with a blank between each two are split into the words.  No source
that is a text delivers an empty word. -/
theorem tokenize_lossless (text : String) :
    (∃! s : Spacing, s.Of text.toList) ∧
    (∀ s : Spacing, s.Of text.toList → tokenize text = s.words.map String.ofList) ∧
    (∀ w ∈ tokenize text, tokenize w = [w]) ∧
    tokenize (" ".intercalate (tokenize text)) = tokenize text ∧
    (∀ n, some "" ∉ answers Source.call n (.ofText text)) ∧
    ∀ bytes n, some "" ∉ answers Source.call n (.ofBytes bytes) := by
  refine ⟨?_, fun s hs => ?_, fun w hw => ?_, ?_, ?_, fun bytes => ?_⟩
  · obtain ⟨s, hs⟩ := exists_spacing text.toList
    exact ⟨s, hs, fun t ht => ht.unique hs⟩
  · rw [tokenize, hs.words_eq]
  · obtain ⟨cs, hcs, rfl⟩ := List.mem_map.mp hw
    rw [tokenize, String.toList_ofList, words_of_mem_words hcs, List.map_singleton]
  · have hlists : (tokenize text).map String.toList = words text.toList := by
      simp [tokenize]
    rw [tokenize, String.toList_intercalate, hlists]
    exact congrArg (List.map String.ofList) (words_intercalate _)
  · exact empty_notMem_answers (pending_ofText_eq_flatMap text)
  · exact empty_notMem_answers (Source.pending_ofBytes bytes)

/-- A word with a quote in it, a word in quotes with no blank behind it, and a last word whose quote
is not closed. -/
theorem tokenize_lossless_quotes :
    Spacing.Of " a\"b \"c d\"e  \"f ".toList
        ⟨[' '], [(['a', '"', 'b'], [' ']), (['"', 'c', ' ', 'd', '"'], []), (['e'], [' ', ' ']),
          (['"', 'f', ' '], [])]⟩ ∧
      tokenize " a\"b \"c d\"e  \"f " = ["a\"b", "\"c d\"", "e", "\"f "] ∧
      "\"f " ∈ tokenize " a\"b \"c d\"e  \"f " ∧ tokenize "\"f " = ["\"f "] := by
  have hfirst : Bare ['a', '"', 'b'] := by decide
  have hthird : Bare ['e'] := by decide
  have hsecond : Quoted ('"' :: (['c', ' ', 'd'] ++ ['"'])) := .mk (by decide)
  have hreading : Spacing.Of " a\"b \"c d\"e  \"f ".toList
      ⟨[' '], [(['a', '"', 'b'], [' ']), (['"', 'c', ' ', 'd', '"'], []), (['e'], [' ', ' ']),
        (['"', 'f', ' '], [])]⟩ :=
    ⟨by decide, blanks_space, .bare hfirst blanks_space (by decide) (.quoted hsecond nofun
      (.bare hthird (List.all_eq_true.mp (by decide)) (by decide) (.unclosed (by decide))))⟩
  obtain ⟨-, hwords, hself, -⟩ := tokenize_lossless " a\"b \"c d\"e  \"f "
  have hsplit := hwords _ hreading
  have hlast : "\"f " ∈ tokenize " a\"b \"c d\"e  \"f " := by decide
  exact ⟨hreading, hsplit, hlast, hself _ hlast⟩

end RpnCalculator
