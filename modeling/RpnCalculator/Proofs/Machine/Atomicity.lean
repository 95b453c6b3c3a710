import RpnCalculator.Proofs.Machine.Lasting

/-!
# A word that fails changes nothing

The effect of a word keeps what was done before a failure, and so what a failure finds is a
question about every word.  Since to perform a word is to attempt its outcome
(`perform_eq_attempt`), there is one answer for all of them: the machine is the one that the
word was given, the files on its disk included.

The fault is then put into a message, and the next word is taken.  It is never the fault of
a word that is not a literal, because a word that is no literal is looked up as a variable,
and dropped when there is none.
-/

namespace RpnCalculator

open Fault (NotLiteral)

namespace Machine

variable {m : Machine}

/-- The word `quit` never fails, if it is ever performed. -/
theorem outcomeOf_quitWord (m : Machine) :
    outcomeOf quitWord m = .ok (m.performOther quitWord) := by
  rw [outcomeOf, if_neg (by decide), ofWord?_quitWord]

/-- The turn of a word that is not `quit`. -/
theorem advance_of_next? {sources : Sources} {word : String} (hm : m.stopped = false)
    (hnext : sources.next? = some (word, m.sources)) (hword : word ≠ quitWord) :
    Machine.advance { m with sources } = .running (m.step word) := by
  rw [Machine.advance, if_neg (by simp [hm])]
  simp only [hnext, if_neg hword]

/-- A builtin that fails changes nothing, be there a word for it or not. -/
theorem eq_self_of_execute_error {b : Builtin} {f : Fault} {m' : Machine}
    (h : execute b m = (.error f, m')) : m' = m ∧ f.NotLiteral := by
  rw [execute_eq_attempt] at h
  obtain ⟨hout, hm⟩ := Effect.eq_of_attempt_eq_error h
  exact ⟨hm, (ends_builtinOutcome lasting_true m.holds_true b).of_error hout⟩

/-- A word that fails changes nothing, and is not `quit`. -/
theorem eq_self_of_perform_error {word : String} {f : Fault} {m' : Machine}
    (h : perform word m = (.error f, m')) :
    m' = m ∧ f.NotLiteral ∧ m.step word = m.report f ∧ word ≠ quitWord := by
  rw [perform_eq_attempt] at h
  obtain ⟨hout, hm⟩ := Effect.eq_of_attempt_eq_error h
  have hliteral : f.NotLiteral := (ends_outcomeOf lasting_true m.holds_true word).of_error hout
  have hstep : m.step word = m.report f := by rw [step_eq, hout]
  refine ⟨hm, hliteral, hstep, ?_⟩
  rintro rfl
  rw [outcomeOf_quitWord] at hout
  cases hout

/-- **What fails changes nothing.**  This holds of every builtin and of every word: stack,
sources, settings, variables, messages and files are as they were, and the fault is not that of
a literal.  After a word, one message of the fault is added to those that are queued, and the
run in which the word was taken goes on from there. -/
theorem unchanged_of_error :
    (∀ (b : Builtin) (f : Fault) (m m' : Machine), execute b m = (.error f, m') →
      m' = m ∧ f.category ≠ .malformedLiteral) ∧
    ∀ (word : String) (f : Fault) (m m' : Machine), perform word m = (.error f, m') →
      m' = m ∧ f.category ≠ .malformedLiteral ∧
      m.step word = { m with messages := m.messages ++ [.fault f] } ∧
      ∀ sources : Sources, sources.next? = some (word, m.sources) → m.stopped = false →
        Machine.advance { m with sources } =
            .running { m with messages := m.messages ++ [.fault f] } ∧
          ∀ bound : Nat, Machine.run (bound + 1) { m with sources } =
            Machine.run bound { m with messages := m.messages ++ [.fault f] } := by
  constructor
  · intro b f m m' h
    exact eq_self_of_execute_error h
  · intro word f m m' h
    obtain ⟨hm, hliteral, hstep, hword⟩ := eq_self_of_perform_error h
    refine ⟨hm, hliteral, hstep, ?_⟩
    intro sources hnext hstopped
    have hadvance := advance_of_next? hstopped hnext hword
    rw [hstep] at hadvance
    refine ⟨hadvance, ?_⟩
    intro bound
    rw [run, hadvance]
    rfl

/-- The bits of two strings cannot be combined, five values cannot be copied where there
is one, and a string cannot be added to a number. -/
theorem unchanged_of_error_dupn :
    execute (.binary .and) { stack := [.string "a", .string "b"] } =
        (.error (.unsupported (.binary .and) .string), { stack := [.string "a", .string "b"] }) ∧
      step { stack := [.integer 5, .integer 1] } "dupn" =
        { stack := [.integer 5, .integer 1], messages := [.fault (.tooShort 5 1)] } ∧
      run 3 { stack := [.string "a", .integer 1], sources := [.words ["+", "2"]] } =
        run 2
          { stack := [.string "a", .integer 1]
            sources := [.words ["2"]]
            messages := [.fault (.noCommonKind .integer .string)] } := by
  obtain ⟨hbuiltin, hword⟩ := unchanged_of_error
  refine ⟨?_, ?_, ?_⟩
  · have hfails : ∃ m', execute (.binary .and) { stack := [.string "a", .string "b"] } =
        (.error (.unsupported (.binary .and) .string), m') := ⟨_, rfl⟩
    obtain ⟨m', hm'⟩ := hfails
    rw [hm', (hbuiltin _ _ _ _ hm').1]
  · exact (hword "dupn" _ _ _ rfl).2.2.1
  · let m : Machine := { stack := [.string "a", .integer 1], sources := [.words ["2"]] }
    exact ((hword "+" (.noCommonKind .integer .string) m m rfl).2.2.2 _ rfl rfl).2 2

end Machine

end RpnCalculator
