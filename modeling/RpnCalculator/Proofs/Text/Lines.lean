import RpnCalculator.Proofs.Text.Words

/-!
# The words of texts that are joined

A text that is entered can have several lines, and then it is cut at their ends before it is split
into words.  So it does not matter to the words where a text was cut before it was entered: those
of two texts with a line feed between them are those of the one and then those of the other
(`Source.pending_ofText_newline`), and those of a text are those of its lines
(`Source.pending_ofText_lines`).

There is one exception.  A carriage return at the end of the first text is a blank if it stands
alone, but with the line feed it is the end of a line.  A blank does not separate what is behind an
open quote, and so the carriage return can belong to a word, and be lost.
-/

namespace RpnCalculator

namespace Text

/-! ## The first line -/

/-- A text is its last line, or a line and a text behind it. -/
@[elab_as_elim]
theorem line_induction {P : List Char → Prop} (last : ∀ cs, '\n' ∉ cs → P cs)
    (line : ∀ l rest, '\n' ∉ l → P rest → P (l ++ '\n' :: rest)) (cs : List Char) : P cs := by
  by_cases h : '\n' ∈ cs
  · obtain ⟨l, rest, hcs, hl⟩ := List.eq_append_cons_of_mem h
    have hlen : rest.length < cs.length := by
      rw [hcs, List.length_append, List.length_cons]
      omega
    rw [hcs]
    exact line l rest hl (line_induction last line rest)
  · exact last cs h
termination_by cs.length

/-- The first line ends with the first line feed. -/
theorem lines_append {l : List Char} (h : '\n' ∉ l) (rest : List Char) :
    lines (l ++ '\n' :: rest) = dropEnd (l ++ ['\n']) :: lines rest := by
  have hcut : cutAfter (· == '\n') ('\n' :: rest) = ['\n'] :: cutAfter (· == '\n') rest := by
    rw [cutAfter, if_pos (by decide)]
  cases l with
  | nil => rw [List.nil_append, lines, hcut, List.map_cons, lines, List.nil_append]
  | cons c l =>
    have hstop : ∀ a ∈ c :: l, (a == '\n') = false := by
      intro a ha
      rw [beq_eq_false_iff_ne]
      rintro rfl
      exact h ha
    rw [lines, cutAfter_append hstop (List.cons_ne_nil c l), hcut, List.map_cons, lines]

/-- A line feed at the end of a line takes a carriage return with it. -/
theorem dropEnd_append_newline (l : List Char) :
    dropEnd (l ++ ['\n']) = if l.getLast? = some '\r' then l.dropLast else l := by
  rcases List.eq_nil_or_concat l with rfl | ⟨front, c, rfl⟩
  · rfl
  · by_cases hc : c = '\r'
    · simp [dropEnd, hc]
    · simp [dropEnd, hc]

/-- No line of a text has a line feed in it. -/
theorem newline_notMem_of_mem_lines {cs line : List Char} (h : line ∈ lines cs) :
    '\n' ∉ line := by
  induction cs using line_induction with
  | last cs hcs =>
    cases cs with
    | nil => cases h
    | cons c cs =>
      rw [lines_eq_singleton hcs (List.cons_ne_nil c cs), List.mem_singleton] at h
      rwa [h]
  | line l rest hl ih =>
    rw [lines_append hl] at h
    rcases List.mem_cons.mp h with rfl | h
    · rw [dropEnd_append_newline]
      split
      · exact fun hmem => hl ((List.dropLast_prefix l).subset hmem)
      · exact hl
    · exact ih h

end Text

namespace Token

open Text (lines line_induction lines_append dropEnd_append_newline lines_eq_singleton
  newline_notMem_of_mem_lines)

/-! ## Words of lines -/

/-- The words of a text that has lines. -/
def textWords (cs : List Char) : List (List Char) := (lines cs).flatMap words

theorem textWords_of_notMem {cs : List Char} (h : '\n' ∉ cs) : textWords cs = words cs := by
  cases cs with
  | nil => rfl
  | cons c cs =>
    rw [textWords, lines_eq_singleton h (List.cons_ne_nil c cs), List.flatMap_singleton]

/-- A first line and what follows it. -/
theorem textWords_line {l : List Char} (hl : '\n' ∉ l) (rest : List Char) :
    textWords (l ++ '\n' :: rest) = words (Text.dropEnd (l ++ ['\n'])) ++ textWords rest := by
  rw [textWords, lines_append hl, List.flatMap_cons, textWords]

/-- **A line feed between two texts separates their words.** -/
theorem textWords_newline {cs : List Char} (h : cs.getLast? ≠ some '\r') (ds : List Char) :
    textWords (cs ++ '\n' :: ds) = textWords cs ++ textWords ds := by
  induction cs using line_induction with
  | last cs hcs =>
    rw [textWords_line hcs, dropEnd_append_newline, if_neg h, textWords_of_notMem hcs]
  | line l rest hl ih =>
    have hrest : rest.getLast? ≠ some '\r' := by
      intro hlast
      rw [List.getLast?_append, List.getLast?_cons, hlast] at h
      exact h rfl
    rw [List.append_assoc, List.cons_append, textWords_line hl, textWords_line hl, ih hrest,
      List.append_assoc]

end Token

namespace Source

open Token (textWords textWords_newline textWords_of_notMem)

theorem pending_ofText_eq (text : String) :
    (ofText text).pending = (textWords text.toList).map String.ofList := rfl

/-- **Two texts with a line feed between them deliver what they deliver one after the other.** -/
theorem pending_ofText_newline {s : String} (h : s.toList.getLast? ≠ some '\r') (t : String) :
    (ofText (s ++ "\n" ++ t)).pending = (ofText s).pending ++ (ofText t).pending := by
  have hchars : (s ++ "\n" ++ t).toList = s.toList ++ '\n' :: t.toList := by
    rw [String.toList_append, String.toList_append, List.append_assoc]
    rfl
  rw [pending_ofText_eq, hchars, textWords_newline h, List.map_append]
  rfl

/-- A carriage return at the end of the first text is lost. -/
example : (ofText ("\"a\r" ++ "\n" ++ "b")).pending = ["\"a", "b"] ∧
    (ofText "\"a\r").pending = ["\"a\r"] := by decide

/-- What texts deliver one after the other. -/
def pendingAll (texts : List String) : List String :=
  texts.flatMap fun text => (ofText text).pending

theorem pendingAll_singleton (text : String) : pendingAll [text] = (ofText text).pending :=
  List.flatMap_singleton ..

theorem pendingAll_cons (text : String) (texts : List String) :
    pendingAll (text :: texts) = (ofText text).pending ++ pendingAll texts := rfl

/-- So do any number of texts, if none but the last ends in a carriage return. -/
theorem pending_ofText_intercalate {text : String} {texts : List String}
    (h : ∀ s ∈ (text :: texts).dropLast, s.toList.getLast? ≠ some '\r') :
    (ofText ("\n".intercalate (text :: texts))).pending = pendingAll (text :: texts) := by
  induction texts generalizing text with
  | nil => rw [String.intercalate_singleton, pendingAll_singleton]
  | cons next texts ih =>
    rw [List.dropLast_cons_cons, List.forall_mem_cons] at h
    rw [String.intercalate_cons_cons, pending_ofText_newline h.1, ih h.2, pendingAll_cons text]

/-- **A text delivers what its lines deliver.** -/
theorem pending_ofText_lines (text : String) :
    (ofText text).pending = pendingAll ((Text.lines text.toList).map String.ofList) := by
  have hline (line : List Char) (h : line ∈ Text.lines text.toList) :
      (Token.words line).map String.ofList = (ofText (String.ofList line)).pending := by
    rw [pending_ofText_eq, String.toList_ofList,
      textWords_of_notMem (Text.newline_notMem_of_mem_lines h)]
  rw [pending_ofText_eq, textWords, pendingAll, List.map_flatMap, List.flatMap_map,
    List.flatMap_def, List.flatMap_def, List.map_congr_left hline]

end Source

end RpnCalculator
