import RpnCalculator.Proofs.Text.Utf8
import RpnCalculator.Source

/-!
# The words of a text and of its bytes

A text that is entered is cut into lines, and the lines lose their ends before they are split
into words.  A script is read as bytes, and its lines keep their ends.  This file compares the
words of the two (`pending_ofBytes_encode`).

The end of a line consists of blanks, and blanks between words do not count.  But blanks in a
word count, if the word began with a quote.  A quoted word that is not closed on its line
(`Token.isOpen`) runs to the end of what the splitter is given, so it takes in the end of the
line if that is still there.  No other word does (`Token.words_append`).  So the words are the
same exactly when no line that has an end has a word that is still open
(`pending_ofBytes_encode_eq_iff`).

That lines can be compared one by one is because a line feed is a single byte in UTF-8, and a
byte of no other character (`Utf8.cutAfter_flatMap_encodeChar`).
-/

namespace RpnCalculator

/-! ## Blanks after words -/

namespace Token

open Text

/-- Whether a word begins with a quote that is not closed. -/
def isOpen : List Char → Bool
  | '"' :: rest => !rest.contains '"'
  | _ => false

/-- A word that takes in what stands behind it, if it is open. -/
def takeIn (behind word : List Char) : List Char :=
  if isOpen word then word ++ behind else word

theorem isOpen_quote (cs : List Char) : isOpen ('"' :: cs) = !cs.contains '"' := rfl

/-- A word that does not begin with a quote is not open. -/
theorem isOpen_of_ne {c : Char} (h : c ≠ '"') (cs : List Char) : isOpen (c :: cs) = false := by
  unfold isOpen
  split
  · rename_i heq
    cases heq
    exact absurd rfl h
  · rfl

theorem isBlank_quote : isBlank '"' = false := by decide

/-- Without a quote, all that follows belongs to the quoted word. -/
theorem quoted_of_notMem {cs : List Char} (h : '"' ∉ cs) : quoted cs = (cs, []) := by
  induction cs with
  | nil => rfl
  | cons c cs ih =>
    rw [List.mem_cons, not_or] at h
    rw [quoted, if_neg (Ne.symm h.1), ih h.2]

/-- The quote that closes a word is part of it. -/
theorem quote_mem_quoted {cs : List Char} (h : '"' ∈ cs) : '"' ∈ (quoted cs).1 := by
  induction cs with
  | nil => cases h
  | cons c cs ih =>
    rw [quoted]
    split
    · rename_i hc
      rw [hc]
      exact List.mem_singleton_self _
    · rename_i hc
      rcases List.mem_cons.mp h with rfl | h
      · exact absurd rfl hc
      · exact List.mem_cons_of_mem _ (ih h)

section

variable {bs : List Char}

theorem quote_notMem_of_blank (hbs : ∀ b ∈ bs, isBlank b = true) : '"' ∉ bs := by
  intro h
  have hblank := hbs _ h
  rw [isBlank_quote] at hblank
  cases hblank

theorem words_blanks_append (hbs : ∀ b ∈ bs, isBlank b = true) (rest : List Char) :
    words (bs ++ rest) = words rest := by
  induction bs with
  | nil => rfl
  | cons b bs ih =>
    rw [List.forall_mem_cons] at hbs
    rw [List.cons_append, words, if_pos hbs.1, ih hbs.2]

theorem words_of_blank (hbs : ∀ b ∈ bs, isBlank b = true) : words bs = [] := by
  simpa [words] using words_blanks_append hbs []

theorem plain_of_blank (hbs : ∀ b ∈ bs, isBlank b = true) : plain bs = ([], []) := by
  cases bs with
  | nil => rfl
  | cons b bs =>
    rw [List.forall_mem_cons] at hbs
    rw [plain, if_pos hbs.1, words_of_blank hbs.2]

/-- A quoted word takes in the blanks behind it, unless it is closed before. -/
theorem quoted_append (hbs : ∀ b ∈ bs, isBlank b = true) {cs : List Char}
    (ih : '"' ∈ cs → quoted (cs ++ bs) = ((quoted cs).1, (quoted cs).2.map (takeIn bs))) :
    ('"' :: (quoted (cs ++ bs)).1) :: (quoted (cs ++ bs)).2 =
      (('"' :: (quoted cs).1) :: (quoted cs).2).map (takeIn bs) := by
  by_cases hmem : '"' ∈ cs
  · have hclosed : isOpen ('"' :: (quoted cs).1) = false := by
      simp [isOpen_quote, quote_mem_quoted hmem]
    rw [ih hmem, List.map_cons, takeIn, hclosed]
    rfl
  · have happend : '"' ∉ cs ++ bs := by
      rw [List.mem_append, not_or]
      exact ⟨hmem, quote_notMem_of_blank hbs⟩
    have hopen : isOpen ('"' :: cs) = true := by simp [isOpen_quote, hmem]
    rw [quoted_of_notMem hmem, quoted_of_notMem happend, List.map_cons, takeIn, if_pos hopen]
    rfl

/-- **Blanks behind a text change nothing but the word that is still open.** -/
theorem words_append (hbs : ∀ b ∈ bs, isBlank b = true) (cs : List Char) :
    words (cs ++ bs) = (words cs).map (takeIn bs) := by
  suffices h : words (cs ++ bs) = (words cs).map (takeIn bs) ∧
      plain (cs ++ bs) = ((plain cs).1, (plain cs).2.map (takeIn bs)) ∧
      ('"' ∈ cs → quoted (cs ++ bs) = ((quoted cs).1, (quoted cs).2.map (takeIn bs))) from h.1
  induction cs with
  | nil =>
    rw [List.nil_append, words_of_blank hbs, plain_of_blank hbs]
    exact ⟨rfl, rfl, nofun⟩
  | cons c cs ih =>
    obtain ⟨hw, hp, hq⟩ := ih
    rw [List.cons_append]
    refine ⟨?_, ?_, ?_⟩
    · rw [words, words]
      split
      · exact hw
      split
      · rename_i hc
        rw [hc]
        exact quoted_append hbs hq
      · rename_i hc
        rw [hp, List.map_cons, takeIn, isOpen_of_ne hc]
        rfl
    · rw [plain, plain]
      split
      · rw [hw]
      · rw [hp]
    · intro hmem
      rw [quoted, quoted]
      split
      · rw [hw]
      · rename_i hc
        rcases List.mem_cons.mp hmem with rfl | hmem
        · exact absurd rfl hc
        · rw [hq hmem]

/-- An open word is all that can differ. -/
theorem map_takeIn_eq_self_iff {ws : List (List Char)} :
    ws.map (takeIn bs) = ws ↔ bs ≠ [] → ∀ w ∈ ws, isOpen w = false := by
  have hword (w : List Char) : takeIn bs w = w ↔ (bs ≠ [] → isOpen w = false) := by
    unfold takeIn
    cases isOpen w <;> simp
  have hmap : ws.map (takeIn bs) = ws.map id ↔ ∀ w ∈ ws, takeIn bs w = id w :=
    List.map_inj_left
  rw [List.map_id] at hmap
  simp only [hmap, id, hword]
  exact ⟨fun h hbs w hw => h w hw hbs, fun h w hw hbs => h hbs w hw⟩

end

end Token

/-! ## Ends of lines -/

namespace Text

/-- The end of a line, which `dropEnd` takes off. -/
def lineEnd (line : List Char) : List Char := line.drop (dropEnd line).length

theorem exists_eq_dropEnd_append (line : List Char) :
    ∃ e ∈ [[], ['\n'], ['\r', '\n']], line = dropEnd line ++ e := by
  have hline : line = line.reverse.reverse := (List.reverse_reverse line).symm
  unfold dropEnd
  split
  · rename_i r hr
    refine ⟨['\r', '\n'], by simp, ?_⟩
    rw [hline, hr]
    simp
  · rename_i r _ hr
    refine ⟨['\n'], by simp, ?_⟩
    rw [hline, hr]
    simp
  · exact ⟨[], by simp, (List.append_nil line).symm⟩

/-- A line is what it says and one of three ends. -/
theorem lineEnd_mem (line : List Char) : lineEnd line ∈ [[], ['\n'], ['\r', '\n']] := by
  obtain ⟨e, hmem, he⟩ := exists_eq_dropEnd_append line
  have hend : lineEnd line = e := by
    calc lineEnd line = (dropEnd line ++ e).drop (dropEnd line).length := by
          rw [lineEnd, ← he]
      _ = e := List.drop_left
  rwa [hend]

theorem dropEnd_append_lineEnd (line : List Char) : dropEnd line ++ lineEnd line = line := by
  obtain ⟨e, -, he⟩ := exists_eq_dropEnd_append line
  exact List.prefix_iff_eq_append.mp ⟨e, he.symm⟩

/-- What holds no end of a line belongs to the line of what follows. -/
theorem cutAfter_append {α : Type} {stop : α → Bool} {l : List α}
    (h : ∀ a ∈ l, stop a = false) (hne : l ≠ []) (rest : List α) :
    cutAfter stop (l ++ rest) =
      match cutAfter stop rest with
      | [] => [l]
      | x :: xs => (l ++ x) :: xs := by
  induction l with
  | nil => exact absurd rfl hne
  | cons a l ih =>
    rw [List.forall_mem_cons] at h
    rw [List.cons_append, cutAfter, if_neg (by simp [h.1])]
    cases l with
    | nil =>
      rw [List.nil_append]
      cases cutAfter stop rest <;> rfl
    | cons b l =>
      rw [ih h.2 (List.cons_ne_nil b l)]
      cases cutAfter stop rest <;> rfl

/-- The end of a line is blank. -/
theorem isBlank_of_mem_lineEnd {line : List Char} : ∀ c ∈ lineEnd line, isBlank c = true := by
  have hends : ∀ e ∈ [[], ['\n'], ['\r', '\n']], ∀ c ∈ e, isBlank c = true := by
    simp only [List.forall_mem_cons, List.not_mem_nil, false_imp_iff, implies_true, and_true,
      true_and]
    decide
  exact hends _ (lineEnd_mem line)

end Text

/-! ## Lines of one word -/

namespace Text

/-- What has no end of a line in it is one line. -/
theorem lines_eq_singleton {cs : List Char} (h : '\n' ∉ cs) (hne : cs ≠ []) : lines cs = [cs] := by
  have hcut : cutAfter (· == '\n') cs = [cs] := by
    have hstop : ∀ c ∈ cs, (c == '\n') = false := by
      intro c hc
      rw [beq_eq_false_iff_ne]
      rintro rfl
      exact h hc
    have happend := cutAfter_append hstop hne []
    rwa [List.append_nil] at happend
  have hend : lineEnd cs = [] := by
    have hmem : ∀ c ∈ lineEnd cs, c ≠ '\n' := by
      rintro c hc rfl
      exact h (List.mem_of_mem_drop hc)
    have hends := lineEnd_mem cs
    simp only [List.mem_cons, List.not_mem_nil, or_false] at hends
    rcases hends with hend | hend | hend
    · exact hend
    all_goals
      rw [hend] at hmem
      simp at hmem
  have hdrop := dropEnd_append_lineEnd cs
  rw [hend, List.append_nil] at hdrop
  rw [lines, hcut, List.map_singleton, hdrop]

end Text

namespace Token

open Text

/-- Texts that are one word without quotes around it. -/
structure Bare (cs : List Char) : Prop where
  ne_nil : cs ≠ []
  not_blank : ∀ c ∈ cs, isBlank c = false
  not_quote : cs.head? ≠ some '"'

theorem bare_iff {cs : List Char} :
    Bare cs ↔ cs ≠ [] ∧ cs.all (!isBlank ·) = true ∧ cs.head? ≠ some '"' := by
  have hall : cs.all (!isBlank ·) = true ↔ ∀ c ∈ cs, isBlank c = false := by simp
  exact ⟨fun h => ⟨h.ne_nil, hall.mpr h.not_blank, h.not_quote⟩,
    fun h => ⟨h.1, hall.mp h.2.1, h.2.2⟩⟩

instance (cs : List Char) : Decidable (Bare cs) := decidable_of_iff' _ bare_iff

/-- A word without quotes around it is split off at a blank. -/
theorem Bare.words_append {w rest : List Char} (h : Bare w)
    (hrest : ∀ c ∈ rest.head?, isBlank c = true) : words (w ++ rest) = w :: words rest := by
  obtain ⟨c, w, rfl⟩ := List.exists_cons_of_ne_nil h.ne_nil
  have hblank := List.forall_mem_cons.mp h.not_blank
  have hquote : c ≠ '"' := fun hc => h.not_quote (by rw [hc]; rfl)
  have hword : ∀ d ∈ w, (!isBlank d) = true := fun d hd => by rw [hblank.2 d hd]; rfl
  have hstop : rest.takeWhile (!isBlank ·) = [] ∧ rest.dropWhile (!isBlank ·) = rest := by
    cases rest with
    | nil => exact ⟨rfl, rfl⟩
    | cons d rest =>
      have hd : isBlank d = true := hrest d rfl
      exact ⟨List.takeWhile_cons_of_neg (by simp [hd]), List.dropWhile_cons_of_neg (by simp [hd])⟩
  rw [List.cons_append, words, if_neg (by simp [hblank.1]), if_neg hquote, plain_eq,
    List.takeWhile_append_of_pos hword, List.dropWhile_append_of_pos hword, hstop.1, hstop.2,
    List.append_nil]

theorem Bare.words_eq {cs : List Char} (h : Bare cs) : words cs = [cs] := by
  have hsplit : words (cs ++ []) = cs :: words [] := h.words_append nofun
  rwa [List.append_nil] at hsplit

theorem Bare.newline_notMem {cs : List Char} (h : Bare cs) : '\n' ∉ cs := fun hmem =>
  absurd (h.not_blank _ hmem) (by decide)

/-- A quoted word ends at the next quote. -/
theorem quoted_append_quote {cs : List Char} (h : '"' ∉ cs) (rest : List Char) :
    quoted (cs ++ '"' :: rest) = (cs ++ ['"'], words rest) := by
  induction cs with
  | nil => rfl
  | cons c cs ih =>
    rw [List.mem_cons, not_or] at h
    rw [List.cons_append, quoted, if_neg (Ne.symm h.1), ih h.2]
    rfl

/-- A word in quotes is split off wherever it ends. -/
theorem words_quote_append {cs : List Char} (h : '"' ∉ cs) (rest : List Char) :
    words ('"' :: (cs ++ '"' :: rest)) = ('"' :: (cs ++ ['"'])) :: words rest := by
  rw [words, if_neg (by simp [isBlank_quote]), if_pos rfl, quoted_append_quote h]

theorem words_quote {cs : List Char} (h : '"' ∉ cs) :
    words ('"' :: (cs ++ ['"'])) = ['"' :: (cs ++ ['"'])] := words_quote_append h []

end Token

namespace Source

/-- A line that is one word delivers it. -/
theorem pending_ofText_of_words {word : String} (h : '\n' ∉ word.toList)
    (hword : Token.words word.toList = [word.toList]) : (ofText word).pending = [word] := by
  have hne : word.toList ≠ [] := by
    intro hnil
    rw [hnil] at hword
    cases hword
  rw [ofText, pending, Text.lines_eq_singleton h hne, List.flatMap_singleton, hword,
    List.map_singleton, String.ofList_toList]

end Source

/-! ## Lines of bytes -/

namespace Utf8

open Source (isLineEnd)

theorem isLineEnd_byte {n : Nat} (h : n < 256) (hne : n ≠ 10) :
    isLineEnd (UInt8.ofNat n) = false := by
  rw [isLineEnd, beq_eq_false_iff_ne]
  intro heq
  have hn := congrArg UInt8.toNat heq
  rw [toNat_byte h] at hn
  exact hne hn

/-- A line feed is a byte of no other character. -/
theorem isLineEnd_of_mem_encodeChar {c : Char} (hc : c ≠ '\n') :
    ∀ b ∈ encodeChar c, isLineEnd b = false := by
  have hchar : c.toNat < 0x110000 := by
    rcases valid_toNat c with h | h <;> omega
  have hlow (n k : Nat) (h : 0x80 ≤ k ∧ k + n < 256) : isLineEnd (UInt8.ofNat (k + n)) = false :=
    isLineEnd_byte h.2 (by omega)
  by_cases h₁ : c.toNat < 0x80
  · have hne : c.toNat ≠ 10 := by
      intro h
      rw [← Char.ofNat_toNat c, h] at hc
      exact hc rfl
    simp only [encodeChar_one h₁, List.mem_singleton, forall_eq]
    exact isLineEnd_byte (by omega) hne
  by_cases h₂ : c.toNat < 0x800
  · simp only [encodeChar_two (by omega) h₂, List.forall_mem_cons]
    exact ⟨hlow _ _ (by omega), hlow _ _ (by omega), nofun⟩
  by_cases h₃ : c.toNat < 0x10000
  · simp only [encodeChar_three (by omega) h₃, List.forall_mem_cons]
    exact ⟨hlow _ _ (by omega), hlow _ _ (by omega), hlow _ _ (by omega), nofun⟩
  · simp only [encodeChar_four (Nat.not_lt.mp h₃), List.forall_mem_cons]
    exact ⟨hlow _ _ (by omega), hlow _ _ (by omega), hlow _ _ (by omega), hlow _ _ (by omega),
      nofun⟩

theorem encodeChar_ne_nil (c : Char) : encodeChar c ≠ [] := by
  unfold encodeChar
  dsimp only
  split
  · simp
  split
  · simp
  split <;> simp

/-- **The lines of the bytes of a text are the bytes of its lines.** -/
theorem cutAfter_flatMap_encodeChar (cs : List Char) :
    Text.cutAfter isLineEnd (cs.flatMap encodeChar) =
      (Text.cutAfter (· == '\n') cs).map (List.flatMap encodeChar) := by
  induction cs with
  | nil => rfl
  | cons c cs ih =>
    rw [List.flatMap_cons, Text.cutAfter]
    by_cases hc : c = '\n'
    · subst hc
      have hbytes : encodeChar '\n' = [10] := by decide
      rw [hbytes, List.singleton_append, Text.cutAfter, if_pos (by decide), ih]
      rfl
    · rw [Text.cutAfter_append (isLineEnd_of_mem_encodeChar hc) (encodeChar_ne_nil c), ih,
        if_neg (by simp [hc])]
      cases Text.cutAfter (· == '\n') cs <;> simp

/-- The bytes of characters are text. -/
theorem decode?_flatMap_encodeChar (cs : List Char) :
    decode? (cs.flatMap encodeChar) = some (String.ofList cs) := by
  have h := decode_encode (String.ofList cs)
  rw [encode, String.toList_ofList] at h
  rw [decode?, h]
  rfl

end Utf8

/-! ## The two kinds of source -/

namespace Source

open Text
open Token (isOpen takeIn words_append map_takeIn_eq_self_iff)

/-- The words of a line of a script.  A word that is still open has the end of the line in it. -/
def scriptWords (line : List Char) : List (List Char) :=
  (Token.words (dropEnd line)).map (takeIn (lineEnd line))

theorem words_eq_scriptWords (line : List Char) : Token.words line = scriptWords line := by
  rw [scriptWords, ← words_append isBlank_of_mem_lineEnd, dropEnd_append_lineEnd]

theorem wordsOfLines_encode (lines : List (List Char)) :
    wordsOfLines (lines.map (List.flatMap Utf8.encodeChar)) =
      (lines.flatMap scriptWords).map String.ofList := by
  induction lines with
  | nil => rfl
  | cons line lines ih =>
    have hline : lineWords? (line.flatMap Utf8.encodeChar) =
        some ((scriptWords line).map String.ofList) := by
      rw [lineWords?, Utf8.decode?_flatMap_encodeChar, Option.map_some, tokenize,
        String.toList_ofList, words_eq_scriptWords]
    rw [List.map_cons, wordsOfLines, hline, List.flatMap_cons, List.map_append, ih]

/-- **What a script delivers**, told line by line. -/
theorem pending_ofBytes_encode (text : String) :
    (ofBytes (Utf8.encode text)).pending =
      ((cutAfter (· == '\n') text.toList).flatMap scriptWords).map String.ofList := by
  rw [ofBytes, pending, List.nil_append, Utf8.encode, Utf8.cutAfter_flatMap_encodeChar,
    wordsOfLines_encode]

/-- What a text delivers, told in the same way. -/
theorem pending_ofText (text : String) :
    (ofText text).pending =
      ((cutAfter (· == '\n') text.toList).flatMap fun line => Token.words (dropEnd line)).map
        String.ofList := by
  rw [ofText, pending, Text.lines, List.flatMap_map]

/-- Every word that is still open at the end of a line is at the end of the text. -/
def Closed (text : String) : Prop :=
  ∀ line ∈ cutAfter (· == '\n') text.toList, lineEnd line ≠ [] →
    ∀ w ∈ Token.words (dropEnd line), isOpen w = false

instance (text : String) : Decidable (Closed text) :=
  inferInstanceAs (Decidable (∀ line ∈ _, _ → ∀ w ∈ _, _))

/-- Lists that are put together from as many lists of the same lengths. -/
theorem flatMap_eq_flatMap_iff {α β : Type} {f g : α → List β} (as : List α)
    (hlen : ∀ a ∈ as, (f a).length = (g a).length) :
    as.flatMap f = as.flatMap g ↔ ∀ a ∈ as, f a = g a := by
  induction as with
  | nil => simp
  | cons a as ih =>
    rw [List.forall_mem_cons] at hlen
    rw [List.flatMap_cons, List.flatMap_cons, List.forall_mem_cons, ← ih hlen.2]
    exact ⟨fun h => List.append_inj h hlen.1, fun h => by rw [h.1, h.2]⟩

/-- **A script delivers the words of its text exactly when no word is open at the end of a
line.** -/
theorem pending_ofBytes_encode_eq_iff (text : String) :
    (ofBytes (Utf8.encode text)).pending = (ofText text).pending ↔ Closed text := by
  rw [pending_ofBytes_encode, pending_ofText,
    List.map_inj_right fun _ _ h => String.ofList_inj.mp h, flatMap_eq_flatMap_iff]
  · exact forall₂_congr fun line _ => map_takeIn_eq_self_iff
  · intro line _
    rw [scriptWords, List.length_map]

end Source

end RpnCalculator
