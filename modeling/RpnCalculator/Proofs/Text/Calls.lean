import Mathlib.Data.List.ReduceOption
import Mathlib.Logic.Function.Iterate
import RpnCalculator.Source

/-!
# Asking a source for words

A source that has no word left can be asked again.  `answers` are the answers to so many calls,
for anything that can be asked.  If a call takes the first of the words that are still to come,
the answers are those words and nothing after them (`answers_eq`).

## Reading line by line

`Source.read?` goes from a script straight to the next word.  What happens on the way is that
lines are read one at a time, as often as it takes, and that something has to be kept in mind
when there is nothing more to read.  `LineReader` spells this out.  It has the words of the lines
that were read, the bytes after those lines, and a mark that no line is to be read any more.  The
mark is set in two places: at the end of the bytes, and at a line that is not text.  In the second
place the line is gone and the lines after it are still there, so that it is the mark alone that
keeps them from being read.

A line moves its words from the bytes to the words that are ready, and the mark comes only where no
word follows.  So the words to come are not changed by reading a line (`toCome_readLine`), and they
are what the answers are taken from.  They are those of the source that the reader stands for
(`LineReader.toCome`), which is why the two give the same answers.
-/

namespace RpnCalculator

/-! ## Answers -/

section

variable {σ : Type}

/-- The answers to so many calls, one after the other. -/
def answers (call : σ → Option String × σ) : Nat → σ → List (Option String)
  | 0, _ => []
  | n + 1, s => (call s).1 :: answers call n (call s).2

/-- Words one at a time, and then no word any more. -/
def deliveries (words : List String) (n : Nat) : List (Option String) :=
  (words.take n).map some ++ List.replicate (n - words.length) none

/-- A call takes the first of the words that are to come. -/
structure TakesFirst (call : σ → Option String × σ) (toCome : σ → List String) : Prop where
  answer : ∀ s, (call s).1 = (toCome s).head?
  rest : ∀ s, toCome (call s).2 = (toCome s).tail

theorem deliveries_succ (words : List String) (n : Nat) :
    deliveries words (n + 1) = words.head? :: deliveries words.tail n := by
  cases words with
  | nil => simp [deliveries, List.replicate_succ]
  | cons w words => simp [deliveries]

/-- **The answers are the words that are to come, and nothing after them.** -/
theorem answers_eq {call : σ → Option String × σ} {toCome : σ → List String}
    (h : TakesFirst call toCome) (n : Nat) (s : σ) :
    answers call n s = deliveries (toCome s) n := by
  induction n generalizing s with
  | zero => simp [answers, deliveries]
  | succ n ih => rw [answers, ih, h.answer, h.rest, deliveries_succ]

theorem mem_of_some_mem_deliveries {words : List String} {n : Nat} {w : String}
    (h : some w ∈ deliveries words n) : w ∈ words := by
  rw [deliveries, List.mem_append] at h
  rcases h with h | h
  · obtain ⟨v, hv, heq⟩ := List.mem_map.mp h
    rw [← Option.some.inj heq]
    exact List.mem_of_mem_take hv
  · cases List.eq_of_mem_replicate h

end

/-! ## Sources -/

namespace Source

/-- Ask for the next word.  A source that has none stays as it is. -/
def call (s : Source) : Option String × Source :=
  match s.next? with
  | some (w, s') => (some w, s')
  | none => (none, s)

theorem takesFirst_call : TakesFirst call pending := by
  constructor
  · intro s
    rw [← s.next?_eq, call]
    cases s.next? <;> rfl
  · intro s
    have hpending := s.next?_eq
    rw [call]
    cases hnext : s.next? with
    | none =>
      rw [hnext] at hpending
      show s.pending = s.pending.tail
      rw [← hpending]
      rfl
    | some r =>
      rw [hnext] at hpending
      show r.2.pending = s.pending.tail
      rw [← hpending]
      rfl

/-- The lines of a script as texts, up to the first that is not text. -/
def textLines (bytes : List UInt8) : List String :=
  (((Text.cutAfter isLineEnd bytes).map Utf8.decode?).takeWhile Option.isSome).reduceOption

theorem wordsOfLines_eq (lines : List (List UInt8)) :
    wordsOfLines lines =
      ((lines.map Utf8.decode?).takeWhile Option.isSome).reduceOption.flatMap tokenize := by
  induction lines with
  | nil => rfl
  | cons line lines ih =>
    rw [wordsOfLines, lineWords?, List.map_cons]
    cases Utf8.decode? line with
    | none => rfl
    | some text =>
      rw [List.takeWhile_cons_of_pos rfl, List.reduceOption_cons_of_some, List.flatMap_cons, ← ih]
      rfl

/-- The words of a script are those of its lines. -/
theorem pending_ofBytes (bytes : List UInt8) :
    (ofBytes bytes).pending = (textLines bytes).flatMap tokenize :=
  wordsOfLines_eq _

end Source

/-! ## Readers -/

/-- A script that is being read. -/
structure LineReader where
  /-- Words of the lines that were read. -/
  ready : List String := []
  /-- The bytes after those lines. -/
  unread : List UInt8
  /-- Whether no line is to be read any more. -/
  exhausted : Bool := false

namespace LineReader

open Source (isLineEnd lineWords? wordsOfLines)

/-- Read a line.  A line that is not text is read as well, and is the last. -/
def readLine (r : LineReader) : LineReader :=
  match r.unread with
  | [] => { r with exhausted := true }
  | b :: bytes =>
    let rest := (Text.splitAfter isLineEnd (b :: bytes)).2
    match lineWords? (Text.splitAfter isLineEnd (b :: bytes)).1 with
    | some words => { r with ready := r.ready ++ words, unread := rest }
    | none => { r with unread := rest, exhausted := true }

/-- A reader that needs another line. -/
def Wanting (r : LineReader) : Prop := r.ready = [] ∧ r.exhausted = false

instance (r : LineReader) : Decidable r.Wanting := inferInstanceAs (Decidable (_ ∧ _))

/-- How often a line can be read, counting the end of the bytes. -/
def readings (r : LineReader) : Nat :=
  if r.exhausted then 0 else (Text.cutAfter isLineEnd r.unread).length + 1

theorem readings_readLine_lt {r : LineReader} (h : r.exhausted = false) :
    r.readLine.readings < r.readings := by
  have hr : r.readings = (Text.cutAfter isLineEnd r.unread).length + 1 := by
    rw [readings, h, if_neg Bool.false_ne_true]
  rw [hr]
  unfold readLine
  split
  · exact Nat.zero_lt_succ _
  · rename_i b bytes hunread
    dsimp only
    split
    · rw [readings, h, if_neg Bool.false_ne_true, hunread, Text.cutAfter_eq_cons]
      exact Nat.lt_succ_self _
    · exact Nat.zero_lt_succ _

/-- Read lines until a word is ready or none can come. -/
def fill (r : LineReader) : LineReader :=
  if r.Wanting then r.readLine.fill else r
termination_by r.readings
decreasing_by
  rename_i hwanting
  exact readings_readLine_lt hwanting.2

/-- Ask for the next word. -/
def call (r : LineReader) : Option String × LineReader :=
  (r.fill.ready.head?, { r.fill with ready := r.fill.ready.tail })

/-- The source that a reader reads. -/
def source (r : LineReader) : Source := .script r.ready (if r.exhausted then [] else r.unread)

/-- The words that are to come. -/
def toCome (r : LineReader) : List String := r.source.pending

theorem toCome_eq (r : LineReader) :
    r.toCome = r.ready ++
      if r.exhausted then [] else wordsOfLines (Text.cutAfter isLineEnd r.unread) := by
  rw [toCome, source, Source.pending]
  cases r.exhausted <;> rfl

/-- **Reading a line does not change what is to come.** -/
theorem toCome_readLine {r : LineReader} (h : r.exhausted = false) :
    r.readLine.toCome = r.toCome := by
  rw [toCome_eq, toCome_eq, h, if_neg Bool.false_ne_true]
  unfold readLine
  split
  · rename_i hunread
    rw [if_pos rfl, hunread]
    rfl
  · rename_i b bytes hunread
    rw [hunread, Text.cutAfter_eq_cons, wordsOfLines]
    cases lineWords? (Text.splitAfter isLineEnd (b :: bytes)).1 with
    | none => rfl
    | some words =>
      dsimp only
      rw [h, if_neg Bool.false_ne_true, List.append_assoc]

theorem toCome_fill (r : LineReader) : r.fill.toCome = r.toCome := by
  fun_induction fill r with
  | case1 r hwanting ih => rw [ih, toCome_readLine hwanting.2]
  | case2 r _ => rfl

theorem not_wanting_fill (r : LineReader) : ¬r.fill.Wanting := by
  fun_induction fill r with
  | case1 r _ ih => exact ih
  | case2 r hwanting => exact hwanting

/-- The lines that a call reads can be counted. -/
theorem exists_fill_eq (r : LineReader) : ∃ k ≤ r.readings, r.fill = readLine^[k] r := by
  fun_induction fill r with
  | case1 r hwanting ih =>
    obtain ⟨k, hk, hfill⟩ := ih
    exact ⟨k + 1, Nat.lt_of_le_of_lt hk (readings_readLine_lt hwanting.2), hfill⟩
  | case2 r _ => exact ⟨0, Nat.zero_le _, rfl⟩

/-- A filled reader that has no word ready has none to come. -/
theorem ready_fill (r : LineReader) :
    r.fill.ready.head? = r.toCome.head? ∧
      ({ r.fill with ready := r.fill.ready.tail } : LineReader).toCome = r.toCome.tail := by
  have hwanting := r.not_wanting_fill
  rw [← r.toCome_fill, toCome_eq, toCome_eq]
  cases hready : r.fill.ready with
  | nil =>
    have hexhausted : r.fill.exhausted = true := by
      rw [Wanting, hready] at hwanting
      simpa using hwanting
    rw [hexhausted]
    exact ⟨rfl, rfl⟩
  | cons w words => exact ⟨rfl, rfl⟩

theorem takesFirst_call : TakesFirst call toCome :=
  ⟨fun r => r.ready_fill.1, fun r => r.ready_fill.2⟩

end LineReader

/-- **A script delivers the words of its lines, up to the first line that is not text, and nothing
after them.**  A reader that goes line by line gives the same answers.  None of its calls reads more
lines than there are, and the end of the bytes. -/
theorem script_delivers (bytes : List UInt8) :
    (∀ n, answers Source.call n (.ofBytes bytes) =
      deliveries ((Source.textLines bytes).flatMap tokenize) n) ∧
    (∀ n, answers LineReader.call n { unread := bytes } =
      deliveries ((Source.textLines bytes).flatMap tokenize) n) ∧
    ∀ r : LineReader, ∃ k ≤ (Text.cutAfter Source.isLineEnd r.unread).length + 1,
      r.fill = LineReader.readLine^[k] r := by
  refine ⟨fun n => ?_, fun n => ?_, fun r => ?_⟩
  · rw [answers_eq Source.takesFirst_call, Source.pending_ofBytes]
  · rw [answers_eq LineReader.takesFirst_call]
    exact congrArg (deliveries · n) (Source.pending_ofBytes bytes)
  · obtain ⟨k, hk, hfill⟩ := r.exists_fill_eq
    refine ⟨k, Nat.le_trans hk ?_, hfill⟩
    unfold LineReader.readings
    split <;> omega

/-- The second line is not text. -/
example : Source.textLines [97, 10, 255, 10, 98] = ["a\n"] := by decide

end RpnCalculator
