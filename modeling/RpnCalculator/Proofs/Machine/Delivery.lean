import RpnCalculator.Proofs.Machine.Inlining

/-!
# The words that a run takes

Two statements about runs in this library have a condition on the words: that `clear` is not
among them, or none whose meaning depends on how values are shown.  The words of a run are not
known beforehand, because scripts and programs deliver words of their own.  So the condition
is on the words that are taken: `Machine.delivered n m` lists those of the first `n` turns,
and `Machine.after n m` is the machine that these turns lead to.

A machine whose run has ended stays as it is (`advance_of_ended`), and so both are defined for
every `n`, whether the run goes on that long or not.  Up to the end of a run they describe
the run (`after_of_run`).

## Turns

There are four things that a turn can come to.  `Takes m turn` lists them with what they
presuppose, and `advance_eq_iff` says that the list is complete.  What is shown of all turns is
shown by these four cases.
-/

namespace RpnCalculator
namespace Machine

variable {m m' : Machine}

/-! ## Turns -/

/-- What a turn can come to. -/
inductive Takes (m : Machine) : Turn → Prop where
  /-- A machine that has stopped reads nothing. -/
  | nothing (hm : m.stopped = true) : Takes m (.ended .stopped m)
  | noWord (hm : m.stopped = false) (hnext : m.sources.next? = none) :
      Takes m (.ended .exhausted { m with sources := [] })
  | quit {rest : Sources} (hm : m.stopped = false)
      (hnext : m.sources.next? = some (quitWord, rest)) :
      Takes m (.ended .stopped { m with sources := rest, stopped := true })
  | word {word : String} {rest : Sources} (hm : m.stopped = false)
      (hnext : m.sources.next? = some (word, rest)) (hquit : word ≠ quitWord) :
      Takes m (.running (step { m with sources := rest } word))

/-- **A turn comes to one of these.** -/
theorem advance_eq_iff {turn : Turn} : m.advance = turn ↔ Takes m turn := by
  constructor
  · rintro rfl
    unfold advance
    split
    · rename_i hm
      exact .nothing hm
    rename_i hm
    rw [Bool.not_eq_true] at hm
    split
    · rename_i hnext
      exact .noWord hm hnext
    · rename_i word rest hnext
      split
      · rename_i hquit
        subst hquit
        exact .quit hm hnext
      · rename_i hquit
        exact .word hm hnext hquit
  · rintro (hm | ⟨hm, hnext⟩ | ⟨hm, hnext⟩ | ⟨hm, hnext, hquit⟩)
    · rw [advance, if_pos hm]
    · simp only [advance, hm, hnext, Bool.false_eq_true, if_false]
    · simp only [advance, hm, hnext, Bool.false_eq_true, if_false, if_true]
    · simp only [advance, hm, hnext, hquit, Bool.false_eq_true, if_false]

/-- A run that has ended does not go on. -/
theorem advance_of_ended {status : Status} (h : m.advance = .ended status m') :
    m'.advance = .ended status m' := by
  obtain hm | ⟨hm, -⟩ | ⟨-, -⟩ := advance_eq_iff.mp h
  · exact advance_eq_iff.mpr (.nothing hm)
  · exact advance_eq_iff.mpr (.noWord hm rfl)
  · exact advance_eq_iff.mpr (.nothing rfl)

/-! ## Words and machines -/

/-- The word that is taken next. -/
def next? (m : Machine) : Option String :=
  if m.stopped then none else m.sources.next?.map Prod.fst

/-- The machine after some turns. -/
def after : Nat → Machine → Machine
  | 0, m => m
  | n + 1, m => after n m.advance.machine

/-- The words that are taken in these turns. -/
def delivered : Nat → Machine → List String
  | 0, _ => []
  | n + 1, m => m.next?.toList ++ delivered n m.advance.machine

theorem next?_of_next? {word : String} {rest : Sources} (hm : m.stopped = false)
    (hnext : m.sources.next? = some (word, rest)) : m.next? = some word := by
  rw [next?, hm, hnext]
  rfl

theorem after_of_ended {status : Status} (h : m.advance = .ended status m) (n : Nat) :
    m.after n = m := by
  induction n with
  | zero => rfl
  | succ n ih =>
    rw [after, h]
    exact ih

/-- **A run that ends within a bound is over after as many turns.** -/
theorem after_of_run {bound : Nat} {status : Status} (h : m.run bound = some (status, m')) :
    m.after bound = m' := by
  induction bound generalizing m with
  | zero => cases h
  | succ bound ih =>
    unfold run at h
    rw [after]
    cases hturn : m.advance with
    | ended status₁ m₁ =>
      rw [hturn] at h
      cases h
      exact after_of_ended (advance_of_ended hturn) bound
    | running m₁ =>
      rw [hturn] at h
      exact ih h

/-! ## Faults -/

/-- A word only adds to the faults that are queued. -/
theorem faults_step (m : Machine) (word : String) :
    (m.step word).faults = m.faults ++ (m.idle.faultOf? word).toList := by
  obtain ⟨hidle, -, -⟩ := step_eq_performed m word
  have hfaults := m.idle.faults_performed word
  rw [← hidle] at hfaults
  exact hfaults

/-- It has succeeded if it added none. -/
theorem exists_of_faults_step {word : String} (h : (m.step word).faults = m.faults) :
    ∃ m', outcomeOf word m = .ok m' := by
  rw [step_eq] at h
  cases hout : outcomeOf word m with
  | ok m' => exact ⟨m', rfl⟩
  | error f =>
    rw [hout] at h
    simp [faults, report, Message.fault?] at h

/-- So does a turn. -/
theorem faults_advance (m : Machine) : m.faults <+: m.advance.machine.faults := by
  generalize hturn : m.advance = turn
  cases advance_eq_iff.mp hturn with
  | nothing | noWord | quit => exact List.prefix_rfl
  | @word word rest hm hnext hquit =>
    have hstep := faults_step { m with sources := rest } word
    exact ⟨_, hstep.symm⟩

/-- So does a run. -/
theorem faults_run {bound : Nat} {status : Status} (h : m.run bound = some (status, m')) :
    m.faults <+: m'.faults := by
  induction bound generalizing m with
  | zero => cases h
  | succ bound ih =>
    have hturn := m.faults_advance
    unfold run at h
    cases hm : m.advance with
    | ended status₁ m₁ =>
      rw [hm] at h hturn
      cases h
      exact hturn
    | running m₁ =>
      rw [hm] at h hturn
      exact hturn.trans (ih h)

end Machine
end RpnCalculator
