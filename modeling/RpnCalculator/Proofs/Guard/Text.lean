import RpnCalculator.Proofs.Guard.Primitive
import RpnCalculator.Proofs.Text.Words

/-!
# Words are cut where characters begin

A text is kept as its bytes, and a word is a piece of it: the bytes up to an offset, where the
text after the word begins.  An offset that lies inside a character is not allowed, nor one
behind the end (`cut_eq_ok_iff`).

The offset is found by looking for a character, a blank or a quote, and what is found is the
offset of its first byte.  For a quoted word that is the offset in the text after the first
quote, so two is added, one for each quote; a quote is a single byte.  With any other number of
bytes the sum would not be the end of a character.

`Guarded.words` is the splitter that works with offsets.  It takes a word off the front as long
as something is left (`exists_first_word`), and it gives the words that `Token.words` gives
(`words_eq`).  Reading a source comes to the same as before, since all that it does with a text
is to split it.
-/

namespace RpnCalculator

namespace Guarded

open Text (isBlank)

/-! ## Offsets -/

/-- The number of bytes of a text. -/
def size (cs : List Char) : Nat := (cs.flatMap Utf8.encodeChar).length

theorem size_cons (c : Char) (cs : List Char) :
    size (c :: cs) = (Utf8.encodeChar c).length + size cs := by
  rw [size, List.flatMap_cons, List.length_append]
  rfl

theorem size_quote (cs : List Char) : size ('"' :: cs) = size cs + 1 := by
  rw [size_cons, Nat.add_comm]
  rfl

/-- Every character has bytes. -/
theorem size_cons_ne_zero (c : Char) (cs : List Char) : size (c :: cs) ≠ 0 := by
  have := List.length_pos_iff.mpr (Utf8.encodeChar_ne_nil c)
  rw [size_cons]
  omega

/-- The characters before an offset and those from it on.  A character has to begin there, or
the text to end. -/
def cut (offset : Nat) : List Char → Guarded (List Char × List Char)
  | [] => demand (offset = 0) .cut ([], [])
  | c :: cs =>
    if offset = 0 then .ok ([], c :: cs)
    else if offset < (Utf8.encodeChar c).length then .error .cut
    else do
      let (front, back) ← cut (offset - (Utf8.encodeChar c).length) cs
      pure (c :: front, back)

theorem cut_size (front back : List Char) :
    cut (size front) (front ++ back) = .ok (front, back) := by
  induction front with
  | nil => cases back <;> rfl
  | cons c front ih =>
    have hne := size_cons_ne_zero c front
    rw [size_cons] at hne ⊢
    rw [List.cons_append, cut, if_neg hne, if_neg (by omega), Nat.add_sub_cancel_left, ih]
    rfl

/-- **A text can be cut behind each of its beginnings, and nowhere else.** -/
theorem cut_eq_ok_iff {offset : Nat} {cs front back : List Char} :
    cut offset cs = .ok (front, back) ↔ front ++ back = cs ∧ size front = offset := by
  constructor
  · intro h
    induction cs generalizing offset front with
    | nil =>
      unfold cut demand at h
      split at h
      · rename_i hoffset
        cases h
        exact ⟨rfl, hoffset.symm⟩
      · cases h
    | cons c cs ih =>
      unfold cut at h
      split at h
      · rename_i hoffset
        cases h
        exact ⟨rfl, hoffset.symm⟩
      split at h
      · cases h
      rename_i hle
      cases hrest : cut (offset - (Utf8.encodeChar c).length) cs with
      | error b =>
        rw [hrest] at h
        cases h
      | ok p =>
        rw [hrest] at h
        cases h
        obtain ⟨happend, hsize⟩ := ih hrest
        exact ⟨congrArg (c :: ·) happend, by rw [size_cons, hsize]; omega⟩
  · rintro ⟨rfl, rfl⟩
    exact cut_size front back

/-! ## The end of a word -/

/-- The offset of the first character with a property. -/
def find? (p : Char → Bool) : List Char → Option Nat
  | [] => none
  | c :: cs => if p c then some 0 else (find? p cs).map ((Utf8.encodeChar c).length + ·)

/-- The offset where the first word of a text ends, if the text does not begin with a blank. -/
def wordEnd : List Char → Nat
  | [] => 0
  | c :: cs =>
    if c = '"' then
      match find? (· = '"') cs with
      | some closing => closing + 2
      | none => size (c :: cs)
    else (find? isBlank (c :: cs)).getD (size (c :: cs))

/-- A quoted word ends behind the next quote, or at the end of the text. -/
theorem exists_quoted (cs : List Char) :
    ∃ front back, front ++ back = cs ∧ Token.quoted cs = (front, Token.words back) ∧
      size front = ((find? (· = '"') cs).map (· + 1)).getD (size cs) := by
  induction cs with
  | nil => exact ⟨[], [], rfl, rfl, rfl⟩
  | cons c cs ih =>
    by_cases hc : c = '"'
    · refine ⟨[c], cs, rfl, ?_, ?_⟩
      · rw [Token.quoted, if_pos hc]
      · rw [hc]
        rfl
    · obtain ⟨front, back, happend, hquoted, hsize⟩ := ih
      refine ⟨c :: front, back, congrArg (c :: ·) happend, ?_, ?_⟩
      · rw [Token.quoted, if_neg hc, hquoted]
      · rw [find?, if_neg (by simpa using hc), size_cons, size_cons, hsize]
        cases find? (· = '"') cs with
        | none => rfl
        | some closing => exact (Nat.add_assoc ..).symm

/-- A plain word ends before the next blank, or at the end of the text. -/
theorem exists_plain (cs : List Char) :
    ∃ front back, front ++ back = cs ∧ Token.plain cs = (front, Token.words back) ∧
      size front = (find? isBlank cs).getD (size cs) := by
  induction cs with
  | nil => exact ⟨[], [], rfl, rfl, rfl⟩
  | cons c cs ih =>
    by_cases hc : isBlank c = true
    · refine ⟨[], c :: cs, rfl, ?_, ?_⟩
      · rw [Token.plain, if_pos hc, Token.words, if_pos hc]
      · rw [find?, if_pos hc]
        rfl
    · obtain ⟨front, back, happend, hplain, hsize⟩ := ih
      refine ⟨c :: front, back, congrArg (c :: ·) happend, ?_, ?_⟩
      · rw [Token.plain, if_neg hc, hplain]
      · rw [find?, if_neg hc, size_cons, size_cons, hsize]
        cases find? isBlank cs <;> rfl

/-- **The end of the first word is a place where the text can be cut**, and what is cut off is
the word. -/
theorem exists_first_word {c : Char} (hc : isBlank c = false) (cs : List Char) :
    ∃ front back, front ++ back = cs ∧ size (c :: front) = wordEnd (c :: cs) ∧
      Token.words (c :: cs) = (c :: front) :: Token.words back := by
  rw [Token.words, if_neg (by simp [hc])]
  by_cases hquote : c = '"'
  · obtain ⟨front, back, happend, hquoted, hsize⟩ := exists_quoted cs
    refine ⟨front, back, happend, ?_, ?_⟩
    · rw [hquote, size_quote, hsize, wordEnd, if_pos rfl, size_quote]
      cases find? (· = '"') cs <;> rfl
    · rw [if_pos hquote, hquoted]
  · obtain ⟨front, back, happend, hplain, hsize⟩ := exists_plain cs
    refine ⟨front, back, happend, ?_, ?_⟩
    · rw [wordEnd, if_neg hquote, find?, if_neg (by simp [hc]), size_cons, size_cons, hsize]
      cases find? isBlank cs <;> rfl
    · rw [if_neg hquote, hplain]

/-! ## Splitting -/

theorem isBlank_of_dropWhile {text cs : List Char} {c : Char}
    (h : text.dropWhile isBlank = c :: cs) : isBlank c = false := by
  have := List.head?_dropWhile_not isBlank text
  rwa [h] at this

/-- The words of a text, each cut off at its end. -/
def words (text : List Char) : Guarded (List (List Char)) :=
  match _ : text.dropWhile isBlank with
  | [] => .ok []
  | c :: cs =>
    match _ : cut (wordEnd (c :: cs)) (c :: cs) with
    | .error b => .error b
    | .ok (word, rest) => do
      let ws ← words rest
      pure (word :: ws)
termination_by text.length
decreasing_by
  -- the end of a word is not its beginning, so what is cut off is not empty
  have hbegin := ‹text.dropWhile isBlank = c :: cs›
  have hcut := ‹cut (wordEnd (c :: cs)) (c :: cs) = .ok (word, rest)›
  obtain ⟨front, _, _, hend, _⟩ := exists_first_word (isBlank_of_dropWhile hbegin) cs
  obtain ⟨happend, hsize⟩ := cut_eq_ok_iff.mp hcut
  have hne : word ≠ [] := by
    rintro rfl
    exact size_cons_ne_zero c front (hend.trans hsize.symm)
  have hword := List.length_pos_iff.mpr hne
  have hlen := congrArg List.length happend
  have htext : (c :: cs).length ≤ text.length := by
    rw [← hbegin]
    exact (List.dropWhile_sublist isBlank).length_le
  rw [List.length_append] at hlen
  omega

theorem words_dropWhile (text : List Char) :
    Token.words (text.dropWhile isBlank) = Token.words text := by
  induction text with
  | nil => rfl
  | cons c cs ih =>
    by_cases hc : isBlank c = true
    · rw [List.dropWhile_cons_of_pos hc, ih, Token.words, if_pos hc]
    · rw [List.dropWhile_cons_of_neg hc]

/-- **No word is cut inside a character**, whatever the text is. -/
theorem words_eq (text : List Char) : words text = .ok (Token.words text) := by
  fun_induction words text with
  | case1 text htext =>
    rw [← words_dropWhile, htext]
    rfl
  | case2 text c cs htext b hcut =>
    obtain ⟨front, back, happend, hend, _⟩ := exists_first_word (isBlank_of_dropWhile htext) cs
    rw [← hend, ← happend, ← List.cons_append, cut_size] at hcut
    cases hcut
  | case3 text c cs htext word rest hcut ih =>
    obtain ⟨front, back, happend, hend, hwords⟩ :=
      exists_first_word (isBlank_of_dropWhile htext) cs
    rw [← hend, ← happend, ← List.cons_append, cut_size] at hcut
    cases hcut
    rw [ih, ← words_dropWhile text, htext, hwords]
    rfl

/-- The words of a text. -/
def tokenize (text : String) : Guarded (List String) := do
  let ws ← words text.toList
  pure (ws.map String.ofList)

theorem tokenize_eq (text : String) : tokenize text = .ok (RpnCalculator.tokenize text) := by
  rw [tokenize, words_eq]
  rfl

/-! ## Sources -/

/-- The words of lines. -/
def wordsOfLines : List (List Char) → Guarded (List (List Char))
  | [] => .ok []
  | line :: lines => do
    let ws ← words line
    let rest ← wordsOfLines lines
    pure (ws ++ rest)

theorem wordsOfLines_eq (lines : List (List Char)) :
    wordsOfLines lines = .ok (lines.flatMap Token.words) := by
  induction lines with
  | nil => rfl
  | cons line lines ih =>
    rw [wordsOfLines, words_eq, ok_bind, ih, List.flatMap_cons]
    rfl

/-- The words of a text, line by line. -/
def ofText (text : String) : Guarded Source := do
  let ws ← wordsOfLines (Text.lines text.toList)
  pure (.words (ws.map String.ofList))

theorem ofText_eq (text : String) : ofText text = .ok (.ofText text) := by
  rw [ofText, wordsOfLines_eq]
  rfl

/-- The words of a line of a script. -/
def lineWords? (line : List UInt8) : Guarded (Option (List String)) :=
  match Utf8.decode? line with
  | none => .ok none
  | some text => do
    let ws ← tokenize text
    pure (some ws)

theorem lineWords?_eq (line : List UInt8) : lineWords? line = .ok (Source.lineWords? line) := by
  unfold lineWords? Source.lineWords?
  cases Utf8.decode? line with
  | none => rfl
  | some text =>
    dsimp only
    rw [tokenize_eq]
    rfl

/-- Read lines until one has a word. -/
def read? : List UInt8 → Guarded (Option (String × Source))
  | [] => .ok none
  | b :: bytes => do
    match ← lineWords? (Text.splitAfter Source.isLineEnd (b :: bytes)).1 with
    | none => pure none
    | some (w :: ws) =>
      pure (some (w, .script ws (Text.splitAfter Source.isLineEnd (b :: bytes)).2))
    | some [] => read? (Text.splitAfter Source.isLineEnd (b :: bytes)).2
termination_by bytes => bytes.length
decreasing_by exact Text.length_splitAfter_lt Source.isLineEnd b bytes

theorem read?_eq (bytes : List UInt8) : read? bytes = .ok (Source.read? bytes) := by
  fun_induction Source.read? bytes with
  | case1 => rw [read?]
  | case2 b bytes h =>
    rw [read?, lineWords?_eq, h]
    rfl
  | case3 b bytes w ws h =>
    rw [read?, lineWords?_eq, h]
    rfl
  | case4 b bytes h ih =>
    rw [read?, lineWords?_eq, h]
    exact ih

/-- The next word of a source. -/
def next? : Source → Guarded (Option (String × Source))
  | .script [] unread => read? unread
  | s => .ok s.next?

theorem next?_eq (s : Source) : next? s = .ok s.next? := by
  unfold next?
  split
  · exact read?_eq _
  · rfl

/-- The next word of the newest source that has one. -/
def nextOf? : Sources → Guarded (Option (String × Sources))
  | [] => .ok none
  | s :: rest => do
    match ← next? s with
    | some (w, s') => pure (some (w, s' :: rest))
    | none => nextOf? rest

theorem nextOf?_eq (ss : Sources) : nextOf? ss = .ok ss.next? := by
  induction ss with
  | nil => rfl
  | cons s rest ih =>
    rw [nextOf?, next?_eq, ok_bind, Sources.next?]
    cases s.next? with
    | none => exact ih
    | some p => rfl

end Guarded

end RpnCalculator
