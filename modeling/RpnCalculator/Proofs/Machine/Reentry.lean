import RpnCalculator.Proofs.Literal.Printing
import RpnCalculator.Proofs.Machine.Delivery

/-!
# What is shown can be entered

The text of an exact number can be entered as a line, and what it pushes is the number
(`evaluate_render`).  So can a text with quotes around it.

Between the text and the value there are three steps that could each lose something.  The line
is split into words, and the words have to be the whole text, as a single one.  That word is
looked for among the builtins, and must not be there.  And then it is read as a literal, under
the settings in force.  That a number is written as a literal that denotes it, as one word and
as no builtin, is known of its text alone (`Literal.denotes_writeInteger` and those after it);
what remains is a run of one word and its end (`evaluate_literal`).
-/

namespace RpnCalculator
namespace Machine

open Literal (Denotes Form)

variable {m : Machine} {v : Value}

/-- A literal is pushed. -/
theorem step_literal {f : Form} {word : String} (h : Denotes m.display f word.toList v) :
    m.step word = m.push v := by
  have hwords := h.shape.notMem_words
  obtain ⟨c, hc, -⟩ := h.shape.exists_mark
  have hne : word ≠ "" := by
    rintro rfl
    cases hc
  rw [step_other m hne (List.not_mem_of_not_mem_cons hwords), performOther, h.parse_eq]

/-- The first of the pending words is the next one. -/
theorem exists_next?_of_pending {sources : Sources} {word : String} {ws : List String}
    (h : sources.pending = word :: ws) :
    ∃ rest, sources.next? = some (word, rest) ∧ rest.pending = ws := by
  have huncons := Sources.next?_eq sources
  rw [h] at huncons
  cases hnext : sources.next? with
  | none =>
    rw [hnext] at huncons
    cases huncons
  | some p =>
    rw [hnext] at huncons
    obtain ⟨hword, hrest⟩ := List.cons.inj huncons
    exact ⟨p.2, by rw [← hword], hrest⟩

/-- **A line that is a literal** pushes its value and does nothing else. -/
theorem evaluate_literal (hm : m.stopped = false) (hs : m.sources.pending = []) {bound : Nat}
    (hb : 2 ≤ bound) {f : Form} {line : String} (hline : (Source.ofText line).pending = [line])
    (h : Denotes m.display f line.toList v) :
    m.evaluate bound line = some (.exhausted, { m.push v with sources := [] }) := by
  have hquit : line ≠ quitWord := List.ne_of_not_mem_cons h.shape.notMem_words
  have hpending : (m.submit line).sources.pending = [line] := by
    show (Source.ofText line).pending ++ m.sources.pending = [line]
    rw [hline, hs, List.append_nil]
  obtain ⟨rest, hnext, hrest⟩ := exists_next?_of_pending hpending
  -- the word is taken in the first turn, and the second one finds that there is no other
  have hfirst : (m.submit line).advance = .running ({ m with sources := rest }.push v) := by
    have hstep : step { m with sources := rest } line = { m with sources := rest }.push v :=
      step_literal h
    rw [← hstep]
    exact advance_eq_iff.mpr (.word hm hnext hquit)
  have hsecond : ({ m with sources := rest }.push v).advance =
      .ended .exhausted { m.push v with sources := [] } :=
    advance_eq_iff.mpr (.noWord hm (Sources.next?_eq_none_iff.mpr hrest))
  have hrun : (m.submit line).run 2 = some (.exhausted, { m.push v with sources := [] }) := by
    rw [run, hfirst]
    dsimp only
    rw [run, hsecond]
  exact run_mono hb hrun

/-- So does one that is an exact number. -/
theorem evaluate_exact (hm : m.stopped = false) (hs : m.sources.pending = []) {bound : Nat}
    (hb : 2 ≤ bound) {f : Form} {cs : List Char} (h : Denotes m.display f cs v)
    (hf : f.isExact = true) :
    m.evaluate bound (String.ofList cs) =
      some (.exhausted, { m.push v with sources := [] }) := by
  have hbare := h.bare hf
  rw [← String.toList_ofList (l := cs)] at h hbare
  exact evaluate_literal hm hs hb
    (Source.pending_ofText_of_words hbare.newline_notMem hbare.words_eq) h

/-- And one that is a text in quotes. -/
theorem evaluate_quoted (hm : m.stopped = false) (hs : m.sources.pending = []) {bound : Nat}
    (hb : 2 ≤ bound) {text : String} (hquote : '"' ∉ text.toList) (hline : '\n' ∉ text.toList) :
    m.evaluate bound ("\"" ++ text ++ "\"") =
      some (.exhausted, { m.push (.string text) with sources := [] }) := by
  have hchars : ("\"" ++ text ++ "\"").toList = '"' :: (text.toList ++ ['"']) := by simp
  have hdenotes : Denotes m.display .string ("\"" ++ text ++ "\"").toList (.string text) := by
    have hclosed : Denotes m.display .string ('"' :: (text.toList ++ ['"']))
        (.string (String.ofList text.toList)) := .closed
    rwa [String.ofList_toList, ← hchars] at hclosed
  refine evaluate_literal hm hs hb (Source.pending_ofText_of_words ?_ ?_) hdenotes
  · rw [hchars]
    simpa using hline
  · rw [hchars]
    exact Token.words_quote hquote

/-- **What is shown of an exact number can be entered.**  A calculator that has not stopped and
has no word pending pushes one value when it is given the text of an integer, of a fraction in
lowest terms or of a word, whatever its settings and variables are, and nothing else of it
changes.  The value is the number; of a word it is the part that was shown.  A text in quotes
can be entered in the same way if it has no quote and no end of a line in it. -/
theorem evaluate_render (hm : m.stopped = false) (hs : m.sources.pending = []) {bound : Nat}
    (hb : 2 ≤ bound) :
    (∀ n : Int, m.evaluate bound ((Value.integer n).render m.display) =
      some (.exhausted, { m.push (.integer n) with sources := [] })) ∧
    (∀ q : Fraction, q.Reduced → m.evaluate bound ((Value.rational q).render m.display) =
      some (.exhausted, { m.push (.rational q) with sources := [] })) ∧
    (∀ bits : UInt32, ∃ word : UInt32, word.toNat = m.display.word bits ∧
      m.evaluate bound ((Value.binary bits).render m.display) =
        some (.exhausted, { m.push (.binary word) with sources := [] })) ∧
    ∀ text : String, '"' ∉ text.toList → '\n' ∉ text.toList →
      m.evaluate bound ("\"" ++ text ++ "\"") =
        some (.exhausted, { m.push (.string text) with sources := [] }) := by
  refine ⟨fun n => ?_, fun q hq => ?_, fun bits => ?_, fun text hquote hline => ?_⟩
  · exact evaluate_exact hm hs hb (Literal.denotes_writeInteger n) rfl
  · exact evaluate_exact hm hs hb (Literal.denotes_fractionText hq) rfl
  · refine ⟨m.display.bitsOf (m.display.word bits), ?_, ?_⟩
    · rw [Display.toNat_bitsOf, Nat.mod_eq_of_lt (m.display.word_lt bits)]
    · exact evaluate_exact hm hs hb (Literal.denotes_wordText m.display bits) rfl
  · exact evaluate_quoted hm hs hb hquote hline

/-- Nine bits are seen in base sixteen, and a variable is named like the fraction. -/
theorem evaluate_render_hexadecimal :
    let m : Machine :=
      { display := { wordSize := 9 }, bindings := [("-3/7", .integer 0)], stack := [.integer 5] }
    m.stopped = false ∧ m.sources.pending = [] ∧
      m.evaluate 2 "-12" =
        some (.exhausted, { m with stack := [.integer (-12), .integer 5] }) ∧
      m.evaluate 2 "-3/7" =
        some (.exhausted, { m with stack := [.rational ⟨-3, 7⟩, .integer 5] }) ∧
      (∃ word : UInt32, word.toNat = 0x1BD ∧ m.evaluate 2 "#1BDh" =
        some (.exhausted, { m with stack := [.binary word, .integer 5] })) ∧
      m.evaluate 2 "\" a \"" =
        some (.exhausted, { m with stack := [.string " a ", .integer 5] }) := by
  intro m
  obtain ⟨hinteger, hrational, hbinary, hstring⟩ := evaluate_render (m := m) rfl rfl (le_refl 2)
  have hminus : (Value.integer (-12)).render m.display = "-12" := by decide
  have hfraction : (Value.rational ⟨-3, 7⟩).render m.display = "-3/7" := by decide
  have hword : (Value.binary 0xFBD).render m.display = "#1BDh" := by decide
  have hshown : m.display.word 0xFBD = 0x1BD := by decide
  have hquoted : "\"" ++ " a " ++ "\"" = "\" a \"" := by decide
  refine ⟨rfl, rfl, ?_, ?_, ?_, ?_⟩
  · rw [← hminus]
    exact hinteger (-12)
  · rw [← hfraction]
    exact hrational ⟨-3, 7⟩ (by decide)
  · rw [← hword, ← hshown]
    exact hbinary 0xFBD
  · rw [← hquoted]
    exact hstring " a " (by decide) (by decide)

end Machine
end RpnCalculator
