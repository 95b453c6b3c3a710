import RpnCalculator.Proofs.Machine.Inlining
import RpnCalculator.Proofs.Text.Words

/-!
# A script and its text

The text of a script can also be entered as a line, or be a program on the stack.  What a run
does is told by the words that are pending, so the three come to the same if they deliver the
same words (`map_inlined_run_congr`).

They do so unless a quoted word of the text is still open at the end of a line
(`script_eq_text`).  There the script delivers a word that has the end of the line in it, and
the text does not (`script_ne_text`).
-/

namespace RpnCalculator
namespace Machine

open Source (ofBytes ofText Closed scriptWords)

variable {m m' : Machine}

/-- **Machines that differ in their sources, but not in the words of these, do the same.** -/
theorem map_inlined_run_congr (hidle : m.idle = m'.idle)
    (hpending : m.sources.pending = m'.sources.pending) (bound : Nat) :
    (m.run bound).map inlined = (m'.run bound).map inlined := by
  have hstopped : m.idle.stopped = m'.idle.stopped := congrArg stopped hidle
  by_cases hm : m.stopped = true
  · have hm' : m'.stopped = true := hstopped.symm.trans hm
    cases bound with
    | zero => rfl
    | succ bound =>
      rw [run_of_stopped hm, run_of_stopped hm', Option.map_some, Option.map_some, inlined,
        inlined, hidle, hpending]
  · rw [Bool.not_eq_true] at hm
    have hm' : m'.stopped = false := hstopped.symm.trans hm
    rw [run_eq_runInlined bound hm, run_eq_runInlined bound hm', hidle, hpending]

/-- The machine with words to be read first. -/
def reading (m : Machine) (words : List String) : Machine :=
  { m with sources := .words words :: m.sources }

/-- The machine with a script to be read first. -/
def readingScript (m : Machine) (bytes : List UInt8) : Machine :=
  { m with sources := ofBytes bytes :: m.sources }

theorem includeFile_of_openScript {path : String} {bytes : List UInt8}
    (h : m.disk.openScript path = .ok bytes) :
    m.includeFile path = .ok (m.readingScript bytes) := by
  rw [includeFile, h]
  rfl

/-- A script that is read comes to what a line of its words comes to. -/
theorem run_readingScript {text : String} {bytes : List UInt8}
    (hpending : (ofBytes bytes).pending = (ofText text).pending) (bound : Nat) :
    ((m.readingScript bytes).run bound).map inlined = (m.evaluate bound text).map inlined := by
  have hsources : (m.readingScript bytes).sources.pending = (m.submit text).sources.pending := by
    show (ofBytes bytes).pending ++ m.sources.pending = (ofText text).pending ++ m.sources.pending
    rw [hpending]
  have hidle : (m.readingScript bytes).idle = (m.submit text).idle := rfl
  exact map_inlined_run_congr hidle hsources bound

/-- A script that is included does what a program of its words does. -/
theorem performed_script {path text word : String} {bytes : List UInt8}
    (hopen : m.disk.openScript path = .ok bytes)
    (hpending : (ofBytes bytes).pending = (ofText text).pending) (hword : word ∈ includingWords) :
    (m.push (.string path)).performed word = (m.push (.program text)).performed word := by
  have hscript : (m.push (.string path)).splice? word = some (ofBytes bytes).pending := by
    rw [splice?, if_pos hword]
    simp only [push, hopen]
  have hprogram : (m.push (.program text)).splice? word = some (ofText text).pending := by
    rw [splice?, if_pos hword]
    rfl
  rw [performed, performed, hscript, hprogram, hpending]
  rfl

/-- A first word that does the same to two machines leads to the same run. -/
theorem run_reading_congr {word : String} {v w : Value} (hm : m.stopped = false)
    (hperformed : (m.idle.push v).performed word = (m.idle.push w).performed word)
    (hquit : word ≠ quitWord) (bound : Nat) :
    (((m.push v).reading [word]).run bound).map inlined =
      (((m.push w).reading [word]).run bound).map inlined := by
  have hturn (u : Value) : (((m.push u).reading [word]).run bound).map inlined =
      runInlined bound (m.idle.push u) (word :: m.sources.pending) :=
    run_eq_runInlined bound hm
  rw [hturn, hturn]
  cases bound with
  | zero => rfl
  | succ bound => rw [runInlined, runInlined, if_neg hquit, if_neg hquit, hperformed]

theorem ne_quitWord_of_including {word : String} (h : word ∈ includingWords) :
    word ≠ quitWord := by
  rintro rfl
  exact absurd h (by decide)

/-- **A script evaluates as its text does** if no word is still open at the end of a line.
It delivers the words of the text line by line, except that a word that is still open takes in
the end of its line; and so it delivers the same words in that case alone.  Then it does not
matter to a run whether the script was queued or the line, nor whether a word includes the
script by its path or the text as a program. -/
theorem script_eq_text (text : String) :
    (ofBytes (Utf8.encode text)).pending =
      ((Text.cutAfter (· == '\n') text.toList).flatMap scriptWords).map String.ofList ∧
    ((ofBytes (Utf8.encode text)).pending = (ofText text).pending ↔ Closed text) ∧
    (Closed text → ∀ (m : Machine) (path : String),
      m.disk.openScript path = .ok (Utf8.encode text) →
      (∃ m', m.includeFile path = .ok m' ∧ ∀ bound : Nat,
        (m'.run bound).map inlined = (m.evaluate bound text).map inlined) ∧
      (m.stopped = false → ∀ word ∈ includingWords, ∀ bound : Nat,
        (((m.push (.string path)).reading [word]).run bound).map inlined =
          (((m.push (.program text)).reading [word]).run bound).map inlined)) := by
  refine ⟨Source.pending_ofBytes_encode text, Source.pending_ofBytes_encode_eq_iff text, ?_⟩
  intro hclosed m path hopen
  have hpending := (Source.pending_ofBytes_encode_eq_iff text).mpr hclosed
  refine ⟨⟨_, includeFile_of_openScript hopen, run_readingScript hpending⟩, ?_⟩
  intro hm word hword bound
  exact run_reading_congr hm (performed_script hopen hpending hword)
    (ne_quitWord_of_including hword) bound

/-- The lines of this text end in both ways, one is blank and the last one has no end.  Its last
word is open, but not at the end of a line. -/
theorem script_eq_text_of_lines :
    (ofBytes (Utf8.encode "dup\n\r\n\"a\" drop\r\n\"b c")).pending =
      (ofText "dup\n\r\n\"a\" drop\r\n\"b c").pending ∧
    ∃ (m m' : Machine), m.includeFile "script" = .ok m' ∧
      (m'.run 3).map inlined = (m.evaluate 3 "dup drop\n").map inlined ∧
      (((m.push (.string "script")).reading ["eval"]).run 4).map inlined =
        (((m.push (.program "dup drop\n")).reading ["eval"]).run 4).map inlined := by
  refine ⟨(script_eq_text _).2.1.mpr (by decide), ?_⟩
  let m : Machine :=
    { stack := [.integer 1]
      disk := Disk.empty.install "script" (.file (Utf8.encode "dup drop\n")) }
  obtain ⟨⟨m', hinclude, hrun⟩, hword⟩ :=
    (script_eq_text "dup drop\n").2.2 (by decide) m "script" rfl
  exact ⟨m, m', hinclude, hrun 3, hword rfl "eval" (by decide) 4⟩

/-- **An open word at the end of a line tells the two apart**: the script delivers it with the
line feed in it. -/
theorem script_ne_text :
    (ofBytes (Utf8.encode "\"a b\n")).pending = ["\"a b\n"] ∧
    (ofText "\"a b\n").pending = ["\"a b"] ∧
    ¬∀ text : String, (ofBytes (Utf8.encode text)).pending = (ofText text).pending := by
  refine ⟨by decide, by decide, ?_⟩
  intro h
  exact absurd (h "\"a b\n") (by decide)

end Machine
end RpnCalculator
