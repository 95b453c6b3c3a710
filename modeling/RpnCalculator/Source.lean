import RpnCalculator.Text.Lines
import RpnCalculator.Text.Utf8
import RpnCalculator.Token

/-!
# Sources of words

A calculator reads words from a stack of sources.  A line that was entered is a source,
and so is a script or a program that a word of another source includes.  The newest
source is read first, so including works like calling a procedure.

A text has its words ready.  A script is read line by line, and its lines are looked at
only when their words are needed: the words of the lines before a line that is not text
are delivered, and that line ends the script.

A source that has no word left stays on the stack until a read finds it so.

## What is still to come

`Source.pending` is the list of the words that a source has yet to deliver, computed
without reading: for a script, the words of its lines up to the first that is not text.
A read delivers its first word and leaves the others (`Source.next?_eq`), and for the
stack the same holds of all pending words together, newest source first
(`Sources.next?_eq`).
-/

namespace RpnCalculator

/-- Something that words are read from. -/
inductive Source where
  /-- Words that are ready. -/
  | words (ws : List String)
  /-- A script: words of the line being read, and the bytes after that line. -/
  | script (ready : List String) (unread : List UInt8)
  deriving DecidableEq

namespace Source

/-- The words of a text.  No word runs over the end of a line. -/
def ofText (text : String) : Source :=
  .words (((Text.lines text.toList).flatMap Token.words).map String.ofList)

/-- A script with the given bytes. -/
def ofBytes (bytes : List UInt8) : Source := .script [] bytes

/-- Whether a byte ends a line. -/
def isLineEnd (b : UInt8) : Bool := b == 10

/-- The words of a line of a script, which keeps its end; none if it is not text. -/
def lineWords? (line : List UInt8) : Option (List String) :=
  (Utf8.decode? line).map tokenize

/-- Read lines until one has a word. -/
def read? : List UInt8 → Option (String × Source)
  | [] => none
  | b :: bytes =>
    match lineWords? (Text.splitAfter isLineEnd (b :: bytes)).1 with
    | none => none
    | some (w :: ws) => some (w, .script ws (Text.splitAfter isLineEnd (b :: bytes)).2)
    | some [] => read? (Text.splitAfter isLineEnd (b :: bytes)).2
termination_by bytes => bytes.length
decreasing_by exact Text.length_splitAfter_lt isLineEnd b bytes

/-- The next word, and the source after it. -/
def next? : Source → Option (String × Source)
  | .words [] => none
  | .words (w :: ws) => some (w, .words ws)
  | .script (w :: ws) unread => some (w, .script ws unread)
  | .script [] unread => read? unread

/-! ## Pending words -/

/-- The words of lines, up to the first line that is not text. -/
def wordsOfLines : List (List UInt8) → List String
  | [] => []
  | line :: lines =>
    match lineWords? line with
    | none => []
    | some ws => ws ++ wordsOfLines lines

/-- The words that a source has yet to deliver. -/
def pending : Source → List String
  | .words ws => ws
  | .script ready unread => ready ++ wordsOfLines (Text.cutAfter isLineEnd unread)

/-- The first element of a list and what remains, seen through a view of the remainder. -/
def uncons {α β : Type} (view : β → List α) (r : Option (α × β)) : List α :=
  match r with
  | none => []
  | some (a, b) => a :: view b

theorem uncons_read? (bytes : List UInt8) :
    uncons pending (read? bytes) = wordsOfLines (Text.cutAfter isLineEnd bytes) := by
  fun_induction read? bytes with
  | case1 => rfl
  | case2 b bytes h =>
    rw [Text.cutAfter_eq_cons, wordsOfLines, h]
    rfl
  | case3 b bytes w ws h =>
    rw [Text.cutAfter_eq_cons, wordsOfLines, h]
    rfl
  | case4 b bytes h ih =>
    rw [Text.cutAfter_eq_cons, wordsOfLines, h]
    exact ih

/-- **A read delivers the first pending word and leaves the others.**  It delivers nothing
exactly when none is pending. -/
theorem next?_eq (s : Source) : uncons pending s.next? = s.pending := by
  match s with
  | .words [] => rfl
  | .words (w :: ws) => rfl
  | .script (w :: ws) unread => rfl
  | .script [] unread => exact uncons_read? unread

end Source

/-- A stack of sources, the newest first. -/
abbrev Sources := List Source

namespace Sources

/-- The next word of the newest source that has one.  Sources without a word are taken off
on the way to it. -/
def next? : Sources → Option (String × Sources)
  | [] => none
  | s :: rest =>
    match s.next? with
    | some (w, s') => some (w, s' :: rest)
    | none => next? rest

/-- The words that the sources have yet to deliver. -/
def pending (ss : Sources) : List String := ss.flatMap Source.pending

/-- **A stack of sources is one queue of words.** -/
theorem next?_eq (ss : Sources) : Source.uncons pending ss.next? = ss.pending := by
  induction ss with
  | nil => rfl
  | cons s rest ih =>
    have h := s.next?_eq
    unfold next?
    split
    · rename_i w s' hs
      rw [hs] at h
      simp only [Source.uncons] at h ⊢
      simp [pending, ← h]
    · rename_i hs
      rw [hs] at h
      simp only [Source.uncons] at h
      rw [ih]
      simp [pending, ← h]

/-- Nothing is delivered exactly when nothing is pending. -/
theorem next?_eq_none_iff {ss : Sources} : ss.next? = none ↔ ss.pending = [] := by
  rw [← next?_eq ss]
  rcases ss.next? with _ | ⟨w, rest⟩ <;> simp [Source.uncons]

end Sources

end RpnCalculator
