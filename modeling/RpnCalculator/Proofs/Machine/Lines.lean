import RpnCalculator.Proofs.Machine.Inlining
import RpnCalculator.Proofs.Text.Lines

/-!
# Evaluating line by line

A text of several lines can be evaluated at once or line by line.  The two come to the same, and
the reason is that a run is told by the list of its words, and that the words of the lines, put
together, are those of the text.

What a list of words comes to is `Evaluates`.  Unlike a run, which takes its words within a bound,
it says nothing of how long that takes, and so it can be taken apart where one list ends and the
next begins (`Evaluates.append_iff`): either the words of the first are all performed, or `quit`
is read among them and no word of the second is.  In the second case the calculator has stopped,
and to evaluate the lines that are left does nothing.
-/

namespace RpnCalculator

namespace Machine

variable {m m' : Machine} {status : Status}

/-! ## What words come to -/

/-- The words, performed one after the other with those that they include, come to an end with
this status. -/
inductive Evaluates : Machine → List String → Status → Machine → Prop where
  | nil (m : Machine) : Evaluates m [] .exhausted m
  | quit (m : Machine) (words : List String) :
    Evaluates m (quitWord :: words) .stopped { m with stopped := true }
  | word {m m' : Machine} {word : String} {words : List String} {status : Status}
    (hquit : word ≠ quitWord)
    (hrest : Evaluates (m.performed word).1 ((m.performed word).2 ++ words) status m') :
    Evaluates m (word :: words) status m'

theorem evaluates_of_runInlined {bound : Nat} {words left : List String}
    (h : runInlined bound m words = some (status, m', left)) : Evaluates m words status m' := by
  induction bound generalizing m words with
  | zero => cases h
  | succ bound ih =>
    cases words with
    | nil =>
      cases h
      exact .nil _
    | cons word words =>
      rw [runInlined] at h
      split at h
      · rename_i hquit
        cases h
        rw [hquit]
        exact .quit _ _
      · rename_i hquit
        exact .word hquit (ih h)

namespace Evaluates

variable {words rest : List String}

theorem exists_runInlined (h : Evaluates m words status m') :
    ∃ bound left, runInlined bound m words = some (status, m', left) := by
  induction h with
  | nil m => exact ⟨1, [], rfl⟩
  | quit m words => exact ⟨1, words, by rw [runInlined, if_pos rfl]⟩
  | word hquit _ ih =>
    obtain ⟨bound, left, h⟩ := ih
    exact ⟨bound + 1, left, by rw [runInlined, if_neg hquit, h]⟩

/-- Words come to one end. -/
theorem unique {status' : Status} {m'' : Machine} (h : Evaluates m words status m')
    (h' : Evaluates m words status' m'') : status = status' ∧ m' = m'' := by
  induction h with
  | nil m =>
    cases h'
    exact ⟨rfl, rfl⟩
  | quit m words =>
    cases h' with
    | quit => exact ⟨rfl, rfl⟩
    | word hquit => exact absurd rfl hquit
  | word hquit _ ih =>
    cases h' with
    | quit => exact absurd rfl hquit
    | word _ hrest => exact ih hrest

/-- Words behind those that are performed. -/
theorem append {m₁ : Machine} (h : Evaluates m words .exhausted m₁)
    (hrest : Evaluates m₁ rest status m') : Evaluates m (words ++ rest) status m' := by
  generalize hstatus : Status.exhausted = first at h
  induction h with
  | nil m => exact hrest
  | quit m words => cases hstatus
  | word hquit _ ih =>
    have hwords := ih hrest hstatus
    rw [List.append_assoc] at hwords
    exact .word hquit hwords

/-- Words behind `quit`. -/
theorem append_of_stopped (h : Evaluates m words .stopped m') (rest : List String) :
    Evaluates m (words ++ rest) .stopped m' := by
  generalize hstatus : Status.stopped = first at h
  induction h with
  | nil m => cases hstatus
  | quit m words => exact .quit m (words ++ rest)
  | word hquit _ ih =>
    have hwords := ih hstatus
    rw [List.append_assoc] at hwords
    exact .word hquit hwords

/-- **Words are taken from one list and then from the next, unless `quit` is read in the first.** -/
theorem append_iff : Evaluates m (words ++ rest) status m' ↔
    (∃ m₁, Evaluates m words .exhausted m₁ ∧ Evaluates m₁ rest status m') ∨
      status = .stopped ∧ Evaluates m words .stopped m' := by
  constructor
  · intro h
    generalize hall : words ++ rest = all at h
    induction h generalizing words with
    | nil m =>
      obtain ⟨rfl, rfl⟩ := List.append_eq_nil_iff.mp hall
      exact .inl ⟨m, .nil m, .nil m⟩
    | quit m left =>
      cases words with
      | nil =>
        rw [List.nil_append] at hall
        rw [hall]
        exact .inl ⟨m, .nil m, .quit m left⟩
      | cons word words =>
        cases hall
        exact .inr ⟨rfl, .quit m words⟩
    | @word m m' word left status hquit hleft ih =>
      cases words with
      | nil =>
        rw [List.nil_append] at hall
        rw [hall]
        exact .inl ⟨m, .nil m, .word hquit hleft⟩
      | cons first words =>
        cases hall
        rcases ih (List.append_assoc _ words rest) with
          ⟨m₁, hwords, hrest⟩ | ⟨hstatus, hwords⟩
        · exact .inl ⟨m₁, .word hquit hwords, hrest⟩
        · exact .inr ⟨hstatus, .word hquit hwords⟩
  · rintro (⟨m₁, hwords, hrest⟩ | ⟨rfl, hwords⟩)
    · exact hwords.append hrest
    · exact hwords.append_of_stopped rest

/-- A calculator that has no sources gets none, and does not stop unless it says so. -/
theorem kept (h : Evaluates m words .exhausted m') (hsources : m.sources = []) :
    m'.sources = [] ∧ m'.stopped = m.stopped := by
  generalize hstatus : Status.exhausted = first at h
  induction h with
  | nil m => exact ⟨hsources, rfl⟩
  | quit m words => cases hstatus
  | @word m m' word words status hquit _ ih =>
    obtain ⟨hidle, -, hstopped⟩ := step_eq_performed m word
    rw [idle_eq_self hsources] at hidle
    obtain ⟨hsources', hstopped'⟩ := ih (by rw [← hidle]; rfl) hstatus
    refine ⟨hsources', hstopped'.trans ?_⟩
    rw [← hidle]
    exact hstopped

end Evaluates

/-! ## Runs -/

/-- A run has one end. -/
theorem run_unique {bound bound' : Nat} {r r' : Status × Machine} (h : m.run bound = some r)
    (h' : m.run bound' = some r') : r = r' := by
  have hlarger := run_mono (Nat.le_max_left bound bound') h
  rw [run_mono (Nat.le_max_right bound bound') h'] at hlarger
  exact (Option.some.inj hlarger).symm

theorem SameButSources.of_idle (h : m.idle = m'.idle) : SameButSources m m' :=
  ⟨(congrArg Machine.stack h).symm, (congrArg Machine.bindings h).symm,
    (congrArg Machine.display h).symm, (congrArg Machine.messages h).symm,
    (congrArg Machine.disk h).symm, (congrArg Machine.stopped h).symm⟩

/-- How a run ends, and the machine without the sources that it is left with. -/
def ending (r : Status × Machine) : Status × Machine := (r.1, r.2.idle)

/-- **A run comes to what the pending words come to.** -/
theorem run_iff_evaluates (hm : m.stopped = false) :
    (∃ bound, (m.run bound).map ending = some (status, m')) ↔
      Evaluates m.idle m.sources.pending status m' := by
  have hinlined (bound : Nat) : (m.run bound).map ending =
      (runInlined bound m.idle m.sources.pending).map fun r => (r.1, r.2.1) := by
    rw [← run_eq_runInlined bound hm, Option.map_map]
    rfl
  constructor
  · rintro ⟨bound, h⟩
    rw [hinlined] at h
    obtain ⟨⟨_, _, left⟩, hrun, hend⟩ := Option.map_eq_some_iff.mp h
    cases hend
    exact evaluates_of_runInlined hrun
  · intro h
    obtain ⟨bound, left, hrun⟩ := h.exists_runInlined
    exact ⟨bound, by rw [hinlined, hrun]; rfl⟩

/-- What a text comes to for a calculator that has nothing else to read. -/
theorem evaluate_iff (hm : m.stopped = false) (hpending : m.sources.pending = []) (text : String) :
    (∃ bound, (m.evaluate bound text).map ending = some (status, m')) ↔
      Evaluates m.idle (Source.ofText text).pending status m' := by
  have hsubmit : (m.submit text).sources.pending = (Source.ofText text).pending := by
    show (Source.ofText text).pending ++ m.sources.pending = _
    rw [hpending, List.append_nil]
  rw [← hsubmit]
  exact run_iff_evaluates (m := m.submit text) hm

/-- A text that is evaluated leaves no source and goes on, or it stops the calculator. -/
theorem evaluates_of_evaluate {bound : Nat} {text : String} (hm : m.stopped = false)
    (hpending : m.sources.pending = []) (h : m.evaluate bound text = some (status, m')) :
    Evaluates m.idle (Source.ofText text).pending status m'.idle ∧
      match status with
      | .exhausted => m'.sources = [] ∧ m'.stopped = false
      | .stopped => m'.stopped = true := by
  have hwords : Evaluates m.idle (Source.ofText text).pending status m'.idle :=
    (evaluate_iff hm hpending text).mp ⟨bound, by rw [h]; rfl⟩
  have hleft : Left status m' := left_of_run h
  cases status with
  | exhausted => exact ⟨hwords, hleft, (hwords.kept rfl).2.trans hm⟩
  | stopped => exact ⟨hwords, hleft⟩

/-- Words of a text that come to an end are evaluated with the text. -/
theorem Evaluates.exists_evaluate {text : String} (hm : m.stopped = false)
    (hpending : m.sources.pending = [])
    (h : Evaluates m.idle (Source.ofText text).pending status m') :
    ∃ bound m₁, m.evaluate bound text = some (status, m₁) ∧ m₁.idle = m' := by
  obtain ⟨bound, hrun⟩ := (evaluate_iff hm hpending text).mpr h
  obtain ⟨⟨status₁, m₁⟩, heval, hend⟩ := Option.map_eq_some_iff.mp hrun
  cases hend
  exact ⟨bound, m₁, heval, rfl⟩

/-- A calculator that has stopped evaluates nothing. -/
theorem evaluate_of_stopped (hm : m.stopped = true) (bound : Nat) (text : String) :
    m.evaluate (bound + 1) text = some (.stopped, m.submit text) :=
  run_of_stopped (m := m.submit text) hm bound

/-! ## Lines -/

/-- Evaluate texts one after the other, the first one apart. -/
def evaluateLines (bound : Nat) (m : Machine) (line : String) :
    List String → Option (Status × Machine)
  | [] => m.evaluate bound line
  | next :: lines =>
    match m.evaluate bound line with
    | none => none
    | some r => evaluateLines bound r.2 next lines

theorem evaluateLines_mono {bound larger : Nat} (h : bound ≤ larger) {line : String}
    {lines : List String} {r : Status × Machine} (hr : evaluateLines bound m line lines = some r) :
    evaluateLines larger m line lines = some r := by
  induction lines generalizing m line with
  | nil => exact run_mono h hr
  | cons next lines ih =>
    rw [evaluateLines] at hr ⊢
    cases hfirst : m.evaluate bound line with
    | none =>
      rw [hfirst] at hr
      cases hr
    | some first =>
      rw [hfirst] at hr
      have hfirst' : m.evaluate larger line = some first := run_mono h hfirst
      rw [hfirst']
      exact ih hr

theorem evaluateLines_of_stopped (hm : m.stopped = true) (bound : Nat) (line : String)
    (lines : List String) :
    (evaluateLines (bound + 1) m line lines).map ending = some (.stopped, m.idle) := by
  induction lines generalizing m line with
  | nil =>
    rw [evaluateLines, evaluate_of_stopped hm]
    rfl
  | cons next lines ih =>
    rw [evaluateLines, evaluate_of_stopped hm]
    exact ih (m := m.submit line) hm next

theorem evaluateLines_iff_of_stopped (hm : m.stopped = true) (line : String) (lines : List String)
    (r : Status × Machine) :
    (∃ bound, (evaluateLines bound m line lines).map ending = some r) ↔
      r = (.stopped, m.idle) := by
  constructor
  · rintro ⟨bound, h⟩
    obtain ⟨last, hlast, rfl⟩ := Option.map_eq_some_iff.mp h
    have hend := evaluateLines_of_stopped hm bound line lines
    rw [evaluateLines_mono (Nat.le_succ bound) hlast] at hend
    exact Option.some.inj hend
  · rintro rfl
    exact ⟨1, evaluateLines_of_stopped hm 0 line lines⟩

/-- A first line and the others, each within a bound. -/
theorem evaluateLines_cons {bound bound' : Nat} {line next : String} {lines : List String}
    {r r' : Status × Machine} (hfirst : m.evaluate bound line = some r)
    (hrest : (evaluateLines bound' r.2 next lines).map ending = some r') :
    ∃ larger, (evaluateLines larger m line (next :: lines)).map ending = some r' := by
  obtain ⟨last, hlast, hend⟩ := Option.map_eq_some_iff.mp hrest
  have hfirst' : m.evaluate (max bound bound') line = some r :=
    run_mono (Nat.le_max_left bound bound') hfirst
  have hlast' := evaluateLines_mono (Nat.le_max_right bound bound') hlast
  refine ⟨max bound bound', ?_⟩
  rw [evaluateLines, hfirst']
  exact Option.map_eq_some_iff.mpr ⟨last, hlast', hend⟩

/-- **Lines come to what their words come to, put together.** -/
theorem evaluateLines_iff (hm : m.stopped = false) (hpending : m.sources.pending = [])
    (line : String) (lines : List String) :
    (∃ bound, (evaluateLines bound m line lines).map ending = some (status, m')) ↔
      Evaluates m.idle (Source.pendingAll (line :: lines)) status m' := by
  induction lines generalizing m line with
  | nil =>
    rw [Source.pendingAll_singleton]
    exact evaluate_iff hm hpending line
  | cons next lines ih =>
    rw [Source.pendingAll_cons, Evaluates.append_iff]
    constructor
    · rintro ⟨bound, h⟩
      rw [evaluateLines] at h
      cases hfirst : m.evaluate bound line with
      | none =>
        rw [hfirst] at h
        cases h
      | some first =>
        obtain ⟨status₁, m₁⟩ := first
        rw [hfirst] at h
        obtain ⟨hwords, hleft⟩ := evaluates_of_evaluate hm hpending hfirst
        cases status₁ with
        | exhausted =>
          have hrest := (ih hleft.2 (by rw [hleft.1]; rfl) next).mp ⟨bound, h⟩
          exact .inl ⟨m₁.idle, hwords, hrest⟩
        | stopped =>
          cases bound with
          | zero => cases hfirst
          | succ bound =>
            rw [evaluateLines_of_stopped hleft] at h
            cases h
            exact .inr ⟨rfl, hwords⟩
    · rintro (⟨m₁, hwords, hrest⟩ | ⟨rfl, hwords⟩)
      · obtain ⟨bound, m₂, hfirst, rfl⟩ := hwords.exists_evaluate hm hpending
        obtain ⟨-, hsources, hm₂⟩ := evaluates_of_evaluate hm hpending hfirst
        obtain ⟨bound', hlines⟩ := (ih hm₂ (by rw [hsources]; rfl) next).mpr hrest
        exact evaluateLines_cons hfirst hlines
      · obtain ⟨bound, m₂, hfirst, rfl⟩ := hwords.exists_evaluate hm hpending
        obtain ⟨-, hm₂⟩ := evaluates_of_evaluate hm hpending hfirst
        exact evaluateLines_cons hfirst (evaluateLines_of_stopped hm₂ 0 next lines)

/-- **It does not matter where the lines are cut.** -/
theorem evaluateLines_iff_evaluate (hpending : m.sources.pending = []) {line : String}
    {lines : List String}
    (hends : ∀ l ∈ (line :: lines).dropLast, l.toList.getLast? ≠ some '\r')
    (r : Status × Machine) :
    (∃ bound, (evaluateLines bound m line lines).map ending = some r) ↔
      ∃ bound, (m.evaluate bound ("\n".intercalate (line :: lines))).map ending = some r := by
  obtain ⟨status, m'⟩ := r
  cases hm : m.stopped with
  | false =>
    rw [evaluateLines_iff hm hpending, evaluate_iff hm hpending,
      Source.pending_ofText_intercalate hends]
  | true =>
    have hjoined := evaluateLines_iff_of_stopped hm ("\n".intercalate (line :: lines)) []
    rw [evaluateLines_iff_of_stopped hm]
    exact (hjoined (status, m')).symm

/-- **Splitting input into lines does not matter.**  A calculator without pending words evaluates
texts one after the other, of which none but the last ends in a carriage return, and it evaluates
them joined by line feeds.  One comes to an end when the other does, and they leave the same status,
operands, variables, settings, messages and files. -/
theorem evaluateLines_eq_evaluate (m : Machine) (line : String) (lines : List String)
    (hpending : m.sources.pending = [])
    (hends : ∀ l ∈ (line :: lines).dropLast, l.toList.getLast? ≠ some '\r') :
    ((∃ bound, (evaluateLines bound m line lines).isSome) ↔
      ∃ bound, (m.evaluate bound ("\n".intercalate (line :: lines))).isSome) ∧
    ∀ (bound bound' : Nat) (status status' : Status) (m₁ m₂ : Machine),
      evaluateLines bound m line lines = some (status, m₁) →
      m.evaluate bound' ("\n".intercalate (line :: lines)) = some (status', m₂) →
      status = status' ∧ SameButSources m₁ m₂ := by
  have hiff := evaluateLines_iff_evaluate hpending hends
  have hsome {run : Nat → Option (Status × Machine)} :
      (∃ bound, (run bound).isSome) ↔ ∃ r bound, (run bound).map ending = some r := by
    simp only [Option.isSome_iff_exists, Option.map_eq_some_iff]
    exact ⟨fun ⟨bound, r, h⟩ => ⟨_, bound, r, h, rfl⟩, fun ⟨_, bound, r, h, _⟩ => ⟨bound, r, h⟩⟩
  constructor
  · rw [hsome, hsome]
    exact exists_congr hiff
  · intro bound bound' status status' m₁ m₂ hlines hjoined
    obtain ⟨larger, h⟩ := (hiff (status, m₁.idle)).mp ⟨bound, by rw [hlines]; rfl⟩
    obtain ⟨r, hr, hend⟩ := Option.map_eq_some_iff.mp h
    have hsame : r = (status', m₂) := run_unique hr hjoined
    rw [hsame] at hend
    obtain ⟨hstatus, hidle⟩ := Prod.mk.inj hend
    exact ⟨hstatus.symm, .of_idle hidle.symm⟩

/-- A quote that is not closed, a line of its own for a line feed, a word that fails, and `quit`
before the last line. -/
theorem evaluateLines_eq_evaluate_quit :
    let m : Machine := { stack := [.integer 1] }
    (∃ bound, (m.evaluate bound "\"a b\n\ndup swap\ndrop drop drop drop quit 3\n4").isSome) ∧
      ∀ (bound : Nat) (status : Status) (m' : Machine),
        m.evaluate bound "\"a b\n\ndup swap\ndrop drop drop drop quit 3\n4" = some (status, m') →
        status = .stopped ∧ m'.stack = [] ∧ m'.messages = [.fault .underflow] := by
  intro m
  have hends : ∀ l ∈ ["\"a b\n", "dup swap", "drop drop drop drop quit 3", "4"].dropLast,
      l.toList.getLast? ≠ some '\r' := by decide
  have hlines : (evaluateLines 9 m "\"a b\n" ["dup swap", "drop drop drop drop quit 3", "4"]).map
      (fun r => (r.1, r.2.stack, r.2.messages)) = some (.stopped, [], [.fault .underflow]) := rfl
  obtain ⟨hterminates, hagrees⟩ := evaluateLines_eq_evaluate m _ _ rfl hends
  obtain ⟨⟨status₁, m₁⟩, hrun, hend⟩ := Option.map_eq_some_iff.mp hlines
  simp only [Prod.mk.injEq] at hend
  obtain ⟨hstopped, hstack, hmessages⟩ := hend
  refine ⟨hterminates.mp ⟨9, by rw [hrun]; rfl⟩, fun bound status m' h => ?_⟩
  obtain ⟨hstatus, hsame⟩ := hagrees 9 bound _ _ _ _ hrun h
  exact ⟨hstatus.symm.trans hstopped, hsame.stack.trans hstack, hsame.messages.trans hmessages⟩

end Machine

end RpnCalculator
