/-!
# Splitting text into words

Words are separated by blanks, the characters with the White_Space property.  These are
more than the ASCII ones: a no-break space or an ideographic space ends a word as well.

A word that begins with a quote runs to the next quote and contains it, blanks and all;
without a next quote it runs to the end of the text.  A quote inside another word is an
ordinary character, and right after a closing quote a new word can begin.

The splitter is three functions for the three places a character can be in: between
words, inside a plain word, inside a quoted one.  The last two return the rest of the
word they are in together with the words after it.
-/

namespace RpnCalculator

/-! ## Blanks -/

namespace Text

/-- Whether a character has the White_Space property. -/
def isBlank (c : Char) : Bool :=
  let n := c.toNat
  (9 ≤ n && n ≤ 13) || n == 0x20 || n == 0x85 || n == 0xA0 || n == 0x1680 ||
    (0x2000 ≤ n && n ≤ 0x200A) || n == 0x2028 || n == 0x2029 || n == 0x202F ||
    n == 0x205F || n == 0x3000

/-- The text without blanks at either end. -/
def trim (cs : List Char) : List Char :=
  ((cs.dropWhile isBlank).reverse.dropWhile isBlank).reverse

end Text

/-! ## Words -/

namespace Token

open Text

mutual

/-- The words of a text. -/
def words : List Char → List (List Char)
  | [] => []
  | c :: cs =>
    if isBlank c then words cs
    else if c = '"' then (c :: (quoted cs).1) :: (quoted cs).2
    else (c :: (plain cs).1) :: (plain cs).2
termination_by structural cs => cs

/-- The rest of a plain word, up to the next blank, and the words after it. -/
def plain : List Char → List Char × List (List Char)
  | [] => ([], [])
  | c :: cs =>
    if isBlank c then ([], words cs)
    else (c :: (plain cs).1, (plain cs).2)
termination_by structural cs => cs

/-- The rest of a quoted word, with the quote that closes it, and the words after it. -/
def quoted : List Char → List Char × List (List Char)
  | [] => ([], [])
  | c :: cs =>
    if c = '"' then ([c], words cs)
    else (c :: (quoted cs).1, (quoted cs).2)
termination_by structural cs => cs

end

/-- No word is empty. -/
theorem nil_notMem_words (cs : List Char) : [] ∉ words cs := by
  suffices h : [] ∉ words cs ∧ [] ∉ (plain cs).2 ∧ [] ∉ (quoted cs).2 from h.1
  induction cs with
  | nil => simp [words, plain, quoted]
  | cons c cs ih =>
    obtain ⟨hw, hp, hq⟩ := ih
    refine ⟨?_, ?_, ?_⟩
    · unfold words
      split
      · exact hw
      · split
        · simpa using hq
        · simpa using hp
    · unfold plain
      split
      · exact hw
      · exact hp
    · unfold quoted
      split
      · exact hw
      · exact hq

/-- A word that does not begin with a quote contains no blank. -/
theorem plain_eq (cs : List Char) :
    plain cs = (cs.takeWhile (!isBlank ·), words (cs.dropWhile (!isBlank ·))) := by
  induction cs with
  | nil => simp [plain, words]
  | cons c cs ih =>
    unfold plain
    by_cases h : isBlank c = true
    · simp [h, words]
    · simp [h, ih]

end Token

/-- The words of a text. -/
def tokenize (text : String) : List String := (Token.words text.toList).map String.ofList

end RpnCalculator
