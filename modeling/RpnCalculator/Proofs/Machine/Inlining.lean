import Mathlib.Data.List.Perm.Basic
import RpnCalculator.Proofs.Machine.Reachable

/-!
# Runs as one list of words

A calculator reads its words from a stack of sources, and including a script puts another
source on that stack while the one beneath it is still being read.  This file shows that a
reader need not know this.  What a run does is what it would do with a single list of words,
the pending ones of all sources in the order in which they are due, if a script or program
that is included is put into the list in front of the rest.

## The list

`Machine.runInlined` is that run.  It works on a machine without sources and on a list of
words, and it says itself which words include something: `splice?` looks for `eval` and `run`,
for a string or a program on top of the stack, and for the script on the disk.
`run_eq_runInlined` states that the run of a machine is this run, turn by turn, so that one
ends within a bound when the other does.

It rests on two facts about words.  No word looks at the sources, nor at the messages: with more
of them, it does the same (`outcomeOf_around`).  And no word but the two above puts a source on
the stack (`rests_outcomeOf`).

## Once each

In the list, what was spliced in and what was there before are not told apart.  `CarriedOut`
tells them apart: it is performing a list of words as a procedure would, where the words that
a word includes are all performed before the next one is.  Its record says of every word what
it put in front of the others and why it failed.  A run that leaves no word is such a
performance (`run_eq_exhausted_iff`), each word occurs in the record as often as it was
pending or spliced in (`CarriedOut.perm`), and the messages of faults are those of the words
that failed, in their order (`CarriedOut.faults_eq`).
-/

namespace RpnCalculator

/-! ## Words that include -/

/-- The words that include a script or a program. -/
def includingWords : List String := ["eval", "run"]

namespace Builtin

theorem ofWord?_of_including {word : String} (h : word ∈ includingWords) :
    ofWord? word = some (.action .includeSource) := by
  have hall : ∀ w ∈ includingWords, ofWord? w = some (.action .includeSource) := by
    decide
  exact hall word h

/-- A word that means an action stands in the table of actions. -/
theorem mem_actionWords_of_ofWord? {word : String} {a : Action}
    (h : ofWord? word = some (.action a)) : (word, a) ∈ actionWords := by
  unfold ofWord? at h
  split at h
  · cases h
  split at h
  · cases h
  obtain ⟨b, hb, haction⟩ := Option.map_eq_some_iff.mp h
  cases haction
  obtain ⟨before, after, hsplit, -⟩ := List.lookup_eq_some_iff.mp hb
  rw [hsplit]
  simp

/-- One that means a conversion or an operator on one value stands in the table of these. -/
theorem mem_unaryWords_of_ofWord? {word : String} {w : UnaryWord}
    (h : ofWord? word = some (.unary w)) : (word, w) ∈ unaryWords := by
  unfold ofWord? at h
  split at h
  · cases h
  split at h
  · rename_i u hu
    cases h
    obtain ⟨before, after, hsplit, -⟩ := List.lookup_eq_some_iff.mp hu
    rw [hsplit]
    simp
  · obtain ⟨a, -, ha⟩ := Option.map_eq_some_iff.mp h
    cases ha

/-- No other word includes anything. -/
theorem including_of_ofWord? {word : String}
    (h : ofWord? word = some (.action .includeSource)) : word ∈ includingWords := by
  have hall : ∀ e ∈ actionWords, e.2 = .includeSource → e.1 ∈ includingWords := by
    decide
  exact hall _ (mem_actionWords_of_ofWord? h) rfl

end Builtin

/-- The fault that a message is of. -/
def Message.fault? : Message → Option Fault
  | .fault f => some f
  | .notice _ => none

/-- Two computations that begin alike and go on alike up to a change of the result. -/
theorem Effect.bind_eq_map_bind {ε α β γ : Type} {r : Except ε α} {f : α → Except ε β}
    {g : α → Except ε γ} {t : γ → β} (h : ∀ a, f a = (g a).map t) :
    (r >>= f) = (r >>= g).map t := by
  cases r with
  | ok a => exact h a
  | error e => rfl

namespace Machine

open Effect (bind_eq_map_bind)

variable {m m' : Machine}

/-! ## Sources beneath and messages before -/

/-- The machine without its sources. -/
def idle (m : Machine) : Machine := { m with sources := [] }

/-- The machine with more sources beneath its own. -/
def above (m : Machine) (rest : Sources) : Machine := { m with sources := m.sources ++ rest }

/-- The machine with more sources beneath its own and other messages before its own. -/
def around (m : Machine) (before : List Message) (rest : Sources) : Machine :=
  { m with sources := m.sources ++ rest, messages := before ++ m.messages }

theorem idle_eq_self (h : m.sources = []) : m.idle = m := by
  show { m with sources := [] } = m
  rw [← h]

section

variable (m : Machine) (before : List Message) (rest : Sources)

theorem map_withStack_around (r : Except Fault Stack) :
    r.map (m.around before rest).withStack = (r.map m.withStack).map (·.around before rest) := by
  cases r <;> rfl

/-- A message is queued behind all others. -/
theorem queue_around (message : Message) :
    { m.around before rest with messages := (m.around before rest).messages ++ [message] } =
      around { m with messages := m.messages ++ [message] } before rest := by
  simp only [around, List.append_assoc]

/-- No action looks at the sources or the messages. -/
theorem outcome_around (a : Action) :
    outcome a (m.around before rest) = (outcome a m).map (·.around before rest) := by
  cases a with
  | setBase | setAngle | setComplex | clear => rfl
  | banner | quitReminder => exact congrArg Except.ok (m.queue_around before rest _)
  | setFloat float =>
    refine bind_eq_map_bind fun decimals => ?_
    split <;> rfl
  | setWordSize =>
    refine bind_eq_map_bind fun wordSize => ?_
    split <;> rfl
  | drop | swap | rotate => exact m.map_withStack_around before rest _
  | rollUp | rollDown => exact bind_eq_map_bind fun n => m.map_withStack_around before rest _
  | dropCount | duplicate | duplicateCount | purge | includeSource | shiftLeft | shiftRight =>
    exact bind_eq_map_bind fun _ => rfl
  | store | readObject => exact bind_eq_map_bind fun _ => bind_eq_map_bind fun _ => rfl
  | writeObject =>
    exact bind_eq_map_bind fun _ => bind_eq_map_bind fun _ => bind_eq_map_bind fun _ => rfl

/-- **No word looks at the sources or the messages.** -/
theorem outcomeOf_around (word : String) :
    outcomeOf word (m.around before rest) = (outcomeOf word m).map (·.around before rest) := by
  unfold outcomeOf
  split
  · exact m.outcome_around before rest .duplicate
  · cases Builtin.ofWord? word with
    | none =>
      show Except.ok ((m.around before rest).performOther word) =
        .ok ((m.performOther word).around before rest)
      unfold performOther
      cases hl : Literal.parse m.display word with
      | ok v =>
        simp only [around, hl]
        rfl
      | error f =>
        cases hb : Directory.find? word m.bindings with
        | none => simp only [around, hl, hb]
        | some v =>
          simp only [around, hl, hb]
          rfl
    | some b =>
      cases b with
      | binary op => exact bind_eq_map_bind fun _ => rfl
      | unary w => exact bind_eq_map_bind fun _ => rfl
      | action a => exact m.outcome_around before rest a

end

/-- With more sources beneath, a word does the same. -/
theorem outcomeOf_above (word : String) (m : Machine) (rest : Sources) :
    outcomeOf word (m.above rest) = (outcomeOf word m).map (·.above rest) :=
  m.outcomeOf_around [] rest word

/-! ## Words that include nothing -/

/-- The faults of the messages that are queued. -/
def faults (m : Machine) : List Fault := m.messages.filterMap Message.fault?

/-- What is left alone by a word that includes nothing and does not fail. -/
structure Rests (m m' : Machine) : Prop where
  sources : m'.sources = m.sources
  stopped : m'.stopped = m.stopped
  faults : m'.faults = m.faults

theorem rests_withStack (m : Machine) (s : Stack) : Rests m (m.withStack s) := ⟨rfl, rfl, rfl⟩

theorem rests_notice (m : Machine) (n : Notice) :
    Rests m { m with messages := m.messages ++ [.notice n] } :=
  ⟨rfl, rfl, by simp [faults, Message.fault?]⟩

/-- Every action but one puts no source on the stack of sources. -/
theorem rests_outcome {a : Action} (ha : a ≠ .includeSource) (m : Machine) :
    Ends (Rests m) (fun _ => True) (outcome a m) := by
  have hrearranged (r : Except Fault Stack) :
      Ends (Rests m) (fun _ => True) (r.map m.withStack) :=
    Ends.map_any fun s => m.rests_withStack s
  cases a with
  | includeSource => exact absurd rfl ha
  | setBase | setAngle | setComplex => exact ⟨rfl, rfl, rfl⟩
  | clear => exact m.rests_withStack []
  | banner | quitReminder => exact m.rests_notice _
  | setFloat float =>
    refine (Ends.any m.count).bind fun decimals _ => ?_
    rw [Ends.ite_iff]
    exact ⟨fun _ => trivial, fun _ => ⟨rfl, rfl, rfl⟩⟩
  | setWordSize =>
    refine (Ends.any m.count).bind fun wordSize _ => ?_
    rw [Ends.ite_iff]
    exact ⟨fun _ => ⟨rfl, rfl, rfl⟩, fun _ => trivial⟩
  | drop | swap | rotate => exact hrearranged _
  | rollUp | rollDown => exact (Ends.any (m.levels 1)).bind fun _ _ => hrearranged _
  | dropCount | duplicateCount =>
    exact (Ends.any (m.levels 0)).bind fun _ _ => m.rests_withStack _
  | duplicate => exact (Ends.any (m.stack.level 0)).bind fun v _ => m.rests_withStack _
  | store =>
    exact (Ends.any m.name).bind fun _ _ => (Ends.any (m.stack.level 1)).bind fun _ _ =>
      ⟨rfl, rfl, rfl⟩
  | purge => exact (Ends.any m.name).bind fun _ _ => ⟨rfl, rfl, rfl⟩
  | writeObject =>
    exact (Ends.any m.name).bind fun _ _ => (Ends.any (m.stack.level 1)).bind fun _ _ =>
      (Ends.any _).bind fun _ _ => ⟨rfl, rfl, rfl⟩
  | readObject =>
    exact (Ends.any m.name).bind fun path _ => (Ends.any (stored path m)).bind fun v _ =>
      m.rests_withStack _
  | shiftLeft | shiftRight =>
    exact (Ends.any (shifted _ m)).bind fun v _ => m.rests_withStack _

theorem rests_performOther (m : Machine) (word : String) : Rests m (m.performOther word) := by
  unfold performOther
  split
  · exact m.rests_withStack _
  · split
    · exact m.rests_withStack _
    · exact ⟨rfl, rfl, rfl⟩

/-- **Neither does a word, if it is not one of the two that include.** -/
theorem rests_outcomeOf {word : String} (hword : word ∉ includingWords) (m : Machine) :
    Ends (Rests m) (fun _ => True) (outcomeOf word m) := by
  unfold outcomeOf
  rw [Ends.ite_iff]
  refine ⟨fun _ => rests_outcome (by decide) m, fun _ => ?_⟩
  split
  · rename_i b hb
    cases b with
    | binary op => exact (Ends.any (binaryResult op m)).bind fun v _ => m.rests_withStack _
    | unary w => exact (Ends.any (unaryResult w m)).bind fun v _ => m.rests_withStack _
    | action a =>
      refine rests_outcome ?_ m
      rintro rfl
      exact hword (Builtin.including_of_ofWord? hb)
  · exact m.rests_performOther word

/-! ## Splicing -/

/-- The words that a word puts in front of those that are pending: the words of the program
on top of the stack, or of the script that the string there leads to. -/
def splice? (m : Machine) (word : String) : Option (List String) :=
  if word ∈ includingWords then
    match m.stack with
    | .program text :: _ => some (Source.ofText text).pending
    | .string path :: _ =>
      match m.disk.openScript path with
      | .ok bytes => some (Source.ofBytes bytes).pending
      | .error _ => none
    | _ => none
  else none

/-- Perform a word on a machine without sources: the machine after it, and the words that it
puts in front of the others.  A word that includes something takes its argument off and does
nothing else. -/
def performed (m : Machine) (word : String) : Machine × List String :=
  match m.splice? word with
  | some words => ({ m with stack := m.stack.tail }, words)
  | none => (m.step word, [])

theorem included_of_splice? {word : String} {words : List String}
    (h : m.splice? word = some words) :
    word ∈ includingWords ∧
      ∃ source : Source, m.included = .ok source ∧ source.pending = words := by
  unfold splice? at h
  split at h
  · rename_i hword
    refine ⟨hword, ?_⟩
    split at h
    · rename_i text rest hstack
      cases h
      exact ⟨.ofText text, by simp [included, Stack.level, hstack], rfl⟩
    · rename_i path rest hstack
      split at h
      · rename_i bytes hopen
        cases h
        exact ⟨.ofBytes bytes, by simp [included, Stack.level, hstack, hopen], rfl⟩
      · cases h
    · cases h
  · cases h

theorem outcomeOf_of_including {word : String} (h : word ∈ includingWords) (m : Machine) :
    outcomeOf word m = outcome .includeSource m := by
  have hne : word ≠ "" := by
    rintro rfl
    exact absurd h (by decide)
  rw [outcomeOf, if_neg hne, Builtin.ofWord?_of_including h]
  rfl

/-- What includes something succeeds, and puts a source with these words on the others. -/
theorem outcomeOf_of_splice? {word : String} {words : List String}
    (h : m.splice? word = some words) :
    ∃ source : Source, source.pending = words ∧
      outcomeOf word m =
        .ok { m with stack := m.stack.tail, sources := source :: m.sources } := by
  obtain ⟨hword, source, hsource, hpending⟩ := included_of_splice? h
  refine ⟨source, hpending, ?_⟩
  rw [outcomeOf_of_including hword, outcome, hsource]
  rfl

/-- What includes nothing fails, or leaves the sources alone. -/
theorem rests_of_splice? {word : String} (h : m.splice? word = none) :
    Ends (Rests m) (fun _ => True) (outcomeOf word m) := by
  by_cases hword : word ∈ includingWords
  · rw [outcomeOf_of_including hword, outcome]
    rw [splice?, if_pos hword] at h
    suffices hfails : ∃ f, m.included = .error f by
      obtain ⟨f, hf⟩ := hfails
      rw [hf]
      trivial
    rcases hstack : m.stack with _ | ⟨top, rest⟩
    · exact ⟨.underflow, by simp [included, Stack.level, hstack]⟩
    · rw [hstack] at h
      cases top with
      | program text => cases h
      | string path =>
        cases hopen : m.disk.openScript path with
        | ok bytes => simp [hopen] at h
        | error f =>
          exact ⟨.storage (.cannotOpen path f), by simp [included, Stack.level, hstack, hopen]⟩
      | _ =>
        exact ⟨.wrongKind .string _, by
          simp only [included, Stack.level, hstack]
          rfl⟩
  · exact rests_outcomeOf hword m

/-- The fault of a word, if it fails. -/
def faultOf? (m : Machine) (word : String) : Option Fault :=
  match (perform word m).1 with
  | .ok () => none
  | .error f => some f

theorem faultOf?_eq (m : Machine) (word : String) :
    m.faultOf? word =
      match outcomeOf word m with
      | .ok _ => none
      | .error f => some f := by
  rw [faultOf?, perform_eq_attempt, Effect.attempt]
  cases outcomeOf word m <;> rfl

/-- The message of its fault is all that a word adds to the faults that are queued. -/
theorem faults_performed (m : Machine) (word : String) :
    (m.performed word).1.faults = m.faults ++ (m.faultOf? word).toList := by
  rw [performed, faultOf?_eq]
  cases hsplice : m.splice? word with
  | some words =>
    obtain ⟨source, -, hout⟩ := outcomeOf_of_splice? hsplice
    simp [hout, faults]
  | none =>
    have hrests := rests_of_splice? hsplice
    simp only [step_eq]
    cases hout : outcomeOf word m with
    | ok m' => simpa using (hrests.of_ok hout).faults
    | error f => simp [faults, report, Message.fault?]

/-- **A turn of the calculator is a turn of the list.**  A word does to a machine what it does
without the sources, and the words that are then pending are those that it puts in front
and those that were. -/
theorem step_eq_performed (m : Machine) (word : String) :
    (m.step word).idle = (m.idle.performed word).1 ∧
      (m.step word).sources.pending =
        (m.idle.performed word).2 ++ m.sources.pending ∧
      (m.step word).stopped = m.stopped := by
  have habove : outcomeOf word m = (outcomeOf word m.idle).map (·.above m.sources) :=
    outcomeOf_above word m.idle m.sources
  rw [performed, step_eq m, habove]
  cases hsplice : m.idle.splice? word with
  | some words =>
    obtain ⟨source, hsource, hout⟩ := outcomeOf_of_splice? hsplice
    rw [hout]
    refine ⟨rfl, ?_, rfl⟩
    rw [← hsource]
    rfl
  | none =>
    have hrests := rests_of_splice? hsplice
    dsimp only
    rw [step_eq]
    cases hout : outcomeOf word m.idle with
    | error f => exact ⟨rfl, rfl, rfl⟩
    | ok m' =>
      obtain ⟨hsources, hstopped, -⟩ := hrests.of_ok hout
      refine ⟨idle_eq_self hsources, ?_, hstopped⟩
      · show Sources.pending (m'.sources ++ m.sources) = _
        rw [hsources]
        rfl

/-! ## Runs -/

/-- Take words from a list until it is empty or `quit` is read, at most `bound` of them
counting the end.  The result has the words that were not read. -/
def runInlined : Nat → Machine → List String → Option (Status × Machine × List String)
  | 0, _, _ => none
  | _ + 1, m, [] => some (.exhausted, m, [])
  | bound + 1, m, word :: words =>
    if word = quitWord then some (.stopped, { m with stopped := true }, words)
    else runInlined bound (m.performed word).1 ((m.performed word).2 ++ words)

/-- The machine at the end of a run without its sources, and the words of these. -/
def inlined (r : Status × Machine) : Status × Machine × List String :=
  (r.1, r.2.idle, r.2.sources.pending)

/-- The first pending word is the one that is read. -/
theorem pending_of_next? {sources rest : Sources} {word : String}
    (h : sources.next? = some (word, rest)) : sources.pending = word :: rest.pending := by
  rw [← Sources.next?_eq, h]
  rfl

/-- **A run is a run of one list of words.** -/
theorem run_eq_runInlined (bound : Nat) (hm : m.stopped = false) :
    (m.run bound).map inlined = runInlined bound m.idle m.sources.pending := by
  induction bound generalizing m with
  | zero => rfl
  | succ bound ih =>
    have hstopped : ¬ m.stopped = true := by simp [hm]
    rw [run, advance, if_neg hstopped]
    cases hnext : m.sources.next? with
    | none =>
      rw [Sources.next?_eq_none_iff.mp hnext]
      rfl
    | some p =>
      obtain ⟨word, rest⟩ := p
      rw [pending_of_next? hnext, runInlined]
      by_cases hword : word = quitWord
      · simp only [if_pos hword]
        rfl
      · obtain ⟨hidle, hpending, hstill⟩ := step_eq_performed { m with sources := rest } word
        simp only [if_neg hword]
        rw [ih (hstill.trans hm), hidle, hpending]
        rfl

/-- How a run leaves the machine that it ends with: without sources, or stopped for good. -/
def Left : Status → Machine → Prop
  | .exhausted, m => m.sources = []
  | .stopped, m => m.stopped = true

theorem left_of_advance {status : Status} (h : m.advance = .ended status m') :
    Left status m' := by
  unfold advance at h
  split at h
  · rename_i hstopped
    cases h
    exact hstopped
  · cases hnext : m.sources.next? with
    | none =>
      rw [hnext] at h
      cases h
      exact rfl
    | some p =>
      simp only [hnext] at h
      split at h
      · cases h
        exact rfl
      · cases h

theorem left_of_run {bound : Nat} {status : Status} (h : m.run bound = some (status, m')) :
    Left status m' := by
  induction bound generalizing m with
  | zero => cases h
  | succ bound ih =>
    unfold run at h
    cases hturn : m.advance with
    | ended status₁ m₁ =>
      rw [hturn] at h
      cases h
      exact left_of_advance hturn
    | running m₁ =>
      rw [hturn] at h
      exact ih h

/-! ## The record of a run -/

/-- What is recorded of a word that was performed. -/
structure Performance where
  word : String
  /-- The words that it put in front of the others. -/
  spliced : List String
  /-- Why it failed, if it did. -/
  fault? : Option Fault
  deriving DecidableEq

/-- `CarriedOut m words record m'`: the words, performed one after the other by `m`, lead to
`m'`, where the words that a word includes are performed before the one after it is. -/
inductive CarriedOut : Machine → List String → List Performance → Machine → Prop where
  | nil (m : Machine) : CarriedOut m [] [] m
  | cons {m m₁ m₂ : Machine} {word : String} {words : List String}
      {inner outer : List Performance} (hquit : word ≠ quitWord)
      (hinner : CarriedOut (m.performed word).1 (m.performed word).2 inner m₁)
      (houter : CarriedOut m₁ words outer m₂) :
      CarriedOut m (word :: words)
        (⟨word, (m.performed word).2, m.faultOf? word⟩ :: (inner ++ outer)) m₂

namespace CarriedOut

variable {words : List String} {record : List Performance}

/-- **Each word is performed once for each time that it was pending or spliced in.** -/
theorem perm (h : CarriedOut m words record m') :
    (record.map Performance.word).Perm (words ++ record.flatMap Performance.spliced) := by
  induction h with
  | nil m => simp
  | @cons m m₁ m₂ word words inner outer _ _ _ hinner houter =>
    simp only [List.map_cons, List.map_append, List.flatMap_cons, List.flatMap_append,
      List.cons_append]
    refine List.Perm.cons _ ?_
    refine (hinner.append houter).trans ?_
    -- what the word spliced in comes after the words that it was performed with
    generalize (m.performed word).2 = spliced
    generalize inner.flatMap Performance.spliced = deep
    generalize outer.flatMap Performance.spliced = wide
    calc spliced ++ deep ++ (words ++ wide)
        = (spliced ++ deep) ++ words ++ wide := by simp only [List.append_assoc]
      _ |>.Perm (words ++ (spliced ++ deep) ++ wide) := List.perm_append_comm.append_right wide
      _ = words ++ (spliced ++ (deep ++ wide)) := by simp only [List.append_assoc]

/-- **One message for each word that fails, in the order of the words.** -/
theorem faults_eq (h : CarriedOut m words record m') :
    m'.faults = m.faults ++ record.filterMap Performance.fault? := by
  induction h with
  | nil m => simp
  | @cons m m₁ m₂ word words inner outer _ _ _ hinner houter =>
    rw [houter, hinner, faults_performed]
    cases m.faultOf? word <;> simp

/-- Words that are carried out are taken from the list one by one. -/
theorem runInlined_append (h : CarriedOut m words record m') (bound : Nat)
    (rest : List String) :
    runInlined (record.length + bound) m (words ++ rest) = runInlined bound m' rest := by
  induction h generalizing bound rest with
  | nil m => simp
  | @cons m m₁ m₂ word words inner outer hquit _ _ hinner houter =>
    have hlength : (⟨word, (m.performed word).2, m.faultOf? word⟩ :: (inner ++ outer)).length +
        bound = inner.length + (outer.length + bound) + 1 := by
      simp only [List.length_cons, List.length_append]
      omega
    rw [hlength, List.cons_append, runInlined, if_neg hquit, hinner, houter]

end CarriedOut

/-- The words that come first are carried out before the others, if no `quit` is read. -/
theorem exists_carriedOut {bound : Nat} {words rest : List String}
    (h : runInlined bound m (words ++ rest) = some (.exhausted, m', [])) :
    ∃ record m₁ bound₁, bound₁ ≤ bound ∧ CarriedOut m words record m₁ ∧
      runInlined bound₁ m₁ rest = some (.exhausted, m', []) := by
  -- the words of a script are a list of their own, and the bound is what gets smaller
  induction bound using Nat.strongRecOn generalizing m words rest with
  | ind bound ih =>
    cases words with
    | nil => exact ⟨[], m, bound, Nat.le_refl bound, .nil m, h⟩
    | cons word words =>
      obtain _ | bound := bound
      · cases h
      rw [List.cons_append, runInlined] at h
      split at h
      · cases h
      rename_i hquit
      obtain ⟨inner, m₁, bound₁, hle₁, hinner, h₁⟩ := ih bound (Nat.lt_succ_self bound) h
      obtain ⟨outer, m₂, bound₂, hle₂, houter, h₂⟩ := ih bound₁ (by omega) h₁
      exact ⟨_, m₂, bound₂, by omega, .cons hquit hinner houter, h₂⟩

/-- **A run leaves no word exactly when the pending words can be carried out.** -/
theorem run_eq_exhausted_iff (hm : m.stopped = false) :
    (∃ bound, m.run bound = some (.exhausted, m')) ↔
      m'.sources = [] ∧ ∃ record, CarriedOut m.idle m.sources.pending record m' := by
  constructor
  · rintro ⟨bound, hrun⟩
    have hsources : m'.sources = [] := left_of_run hrun
    have hinlined := run_eq_runInlined bound hm
    rw [hrun] at hinlined
    have hend : runInlined bound m.idle (m.sources.pending ++ []) =
        some (.exhausted, m', []) := by
      rw [List.append_nil, ← hinlined]
      simp only [Option.map_some, inlined, idle_eq_self hsources, hsources]
      rfl
    obtain ⟨record, m₁, bound₁, -, hcarried, hrest⟩ := exists_carriedOut hend
    obtain _ | bound₁ := bound₁
    · cases hrest
    · cases hrest
      exact ⟨hsources, record, hcarried⟩
  · rintro ⟨hsources, record, hcarried⟩
    have hinlined := hcarried.runInlined_append 1 []
    rw [List.append_nil, ← run_eq_runInlined _ hm] at hinlined
    obtain ⟨⟨status, m₁⟩, hrun, heq⟩ := Option.map_eq_some_iff.mp hinlined
    cases status with
    | stopped => cases heq
    | exhausted =>
      have hleft : m₁.sources = [] := left_of_run hrun
      refine ⟨_, hrun.trans ?_⟩
      have hidle : m₁.idle = m' := congrArg (fun r => r.2.1) heq
      rw [← idle_eq_self hleft, hidle]

/-! ## After a stop -/

/-- What can be asked of a calculator. -/
inductive Call where
  | submit (line : String)
  | includeFile (path : String)
  | evaluate (line : String)
  | run
  deriving DecidableEq

/-- Answer a call.  Only `evaluate` and `run` return how a run ended. -/
def answer (bound : Nat) (m : Machine) : Call → Option (Option Status × Machine)
  | .submit line => some (none, m.submit line)
  | .includeFile path =>
    match m.includeFile path with
    | .ok m' => some (none, m')
    | .error _ => some (none, m)
  | .evaluate line => (m.evaluate bound line).map fun r => (some r.1, r.2)
  | .run => (m.run bound).map fun r => (some r.1, r.2)

/-- Answer calls in turn. -/
def answers (bound : Nat) : Machine → List Call → Option (List (Option Status) × Machine)
  | m, [] => some ([], m)
  | m, call :: calls =>
    match m.answer bound call with
    | none => none
    | some (status, m') => (answers bound m' calls).map fun r => (status :: r.1, r.2)

/-- What a calculator that has stopped says to a call. -/
def Call.stoppedAnswer : Call → Option Status
  | .submit _ | .includeFile _ => none
  | .evaluate _ | .run => some .stopped

/-- Only the sources of the machine may be others. -/
structure SameButSources (m m' : Machine) : Prop where
  stack : m'.stack = m.stack
  bindings : m'.bindings = m.bindings
  display : m'.display = m.display
  messages : m'.messages = m.messages
  disk : m'.disk = m.disk
  stopped : m'.stopped = m.stopped

namespace SameButSources

theorem withSources (m : Machine) (sources : Sources) :
    SameButSources m { m with sources } :=
  ⟨rfl, rfl, rfl, rfl, rfl, rfl⟩

theorem trans {m₁ m₂ m₃ : Machine} (h : SameButSources m₁ m₂) (h' : SameButSources m₂ m₃) :
    SameButSources m₁ m₃ :=
  ⟨h'.stack.trans h.stack, h'.bindings.trans h.bindings, h'.display.trans h.display,
    h'.messages.trans h.messages, h'.disk.trans h.disk, h'.stopped.trans h.stopped⟩

end SameButSources

/-- A calculator that has stopped reads nothing. -/
theorem run_of_stopped (hm : m.stopped = true) (bound : Nat) :
    m.run (bound + 1) = some (.stopped, m) := by
  rw [run, advance, if_pos hm]

theorem answer_of_stopped (hm : m.stopped = true) (bound : Nat) (call : Call) :
    ∃ m', m.answer (bound + 1) call = some (call.stoppedAnswer, m') ∧ SameButSources m m' := by
  cases call with
  | submit line => exact ⟨_, rfl, .withSources m _⟩
  | includeFile path =>
    rw [answer, includeFile]
    cases m.disk.openScript path with
    | ok bytes => exact ⟨_, rfl, .withSources m _⟩
    | error f => exact ⟨_, rfl, .withSources m _⟩
  | evaluate line =>
    refine ⟨m.submit line, ?_, .withSources m _⟩
    have hsubmit : (m.submit line).stopped = true := hm
    rw [answer, evaluate, run_of_stopped hsubmit]
    rfl
  | run =>
    refine ⟨m, ?_, .withSources m _⟩
    rw [answer, run_of_stopped hm]
    rfl

/-- **A calculator that has stopped stays as it is, whatever is asked of it.** -/
theorem answers_of_stopped (hm : m.stopped = true) (bound : Nat) (calls : List Call) :
    ∃ m', m.answers (bound + 1) calls = some (calls.map Call.stoppedAnswer, m') ∧
      SameButSources m m' := by
  induction calls generalizing m with
  | nil => exact ⟨m, rfl, .withSources m _⟩
  | cons call calls ih =>
    obtain ⟨m₁, hfirst, hsame₁⟩ := answer_of_stopped hm bound call
    obtain ⟨m₂, hrest, hsame₂⟩ := ih (hsame₁.stopped.trans hm)
    refine ⟨m₂, ?_, hsame₁.trans hsame₂⟩
    simp only [answers, hfirst, hrest]
    rfl

/-! ## The whole -/

/-- **What a run does is told by one list of words.**  A machine that has not stopped takes
its pending words from the front of a list and puts the words that are included there, and so
it stops with the words after `quit` unread.  It is exhausted exactly when these words can be
carried out one after the other, each followed by those that it includes; then no source is
left, every word that was pending or spliced in was performed once, and the messages of
faults are those of the words that failed.  Once it has stopped, it answers every later call
so and changes nothing but its sources. -/
theorem run_inlines :
    (∀ (bound : Nat) (m : Machine), m.stopped = false →
      (m.run bound).map (fun r => (r.1, r.2.idle, r.2.sources.pending)) =
        runInlined bound m.idle m.sources.pending) ∧
    (∀ m m' : Machine, m.stopped = false →
      ((∃ bound, m.run bound = some (.exhausted, m')) ↔
        m'.sources = [] ∧ ∃ record : List Performance,
          CarriedOut m.idle m.sources.pending record m' ∧
          (record.map Performance.word).Perm
            (m.sources.pending ++ record.flatMap Performance.spliced) ∧
          m'.faults = m.faults ++ record.filterMap Performance.fault?)) ∧
    (∀ (bound : Nat) (m m' : Machine), m.run bound = some (.stopped, m') →
      m'.stopped = true) ∧
    ∀ (bound : Nat) (m : Machine) (calls : List Call), m.stopped = true →
      ∃ m', m.answers (bound + 1) calls = some (calls.map Call.stoppedAnswer, m') ∧
        m'.stack = m.stack ∧ m'.bindings = m.bindings ∧ m'.display = m.display ∧
        m'.messages = m.messages := by
  refine ⟨fun bound m hm => run_eq_runInlined bound hm, ?_, ?_, ?_⟩
  · intro m m' hm
    rw [run_eq_exhausted_iff hm]
    refine and_congr_right fun _ => exists_congr fun record => ?_
    refine ⟨fun h => ⟨h, h.perm, h.faults_eq⟩, fun h => h.1⟩
  · intro bound m m' hrun
    exact left_of_run hrun
  · intro bound m calls hm
    obtain ⟨m', hanswers, hsame⟩ := answers_of_stopped hm bound calls
    exact ⟨m', hanswers, hsame.stack, hsame.bindings, hsame.display, hsame.messages⟩

/-- A program of two words is included and the words after it are performed; one of these
fails.  Another run stops in the middle of a program, and nothing is evaluated after it. -/
theorem run_inlines_program :
    (∃ record : List Performance,
      CarriedOut { stack := [.program "dup drop", .integer 1] } ["eval", "swap", "drop"] record
        { messages := [.fault (.tooShort 2 1)] } ∧
      [.tooShort 2 1] = [] ++ record.filterMap Performance.fault?) ∧
    (run 4
        { stack := [.program "dup quit drop", .integer 1]
          sources := [.words ["eval", "clear"]] }).map
        (fun r => (r.1, r.2.idle, r.2.sources.pending)) =
      some (.stopped, { stack := [.integer 1, .integer 1], stopped := true },
        ["drop", "clear"]) ∧
    ∃ m' : Machine,
      answers 1 { stack := [.integer 1], stopped := true }
          [.submit "drop", .evaluate "clear", .run] =
        some ([none, some .stopped, some .stopped], m') ∧
      m'.stack = [.integer 1] := by
  obtain ⟨hrun, hexhausted, -, hstopped⟩ := run_inlines
  refine ⟨?_, ?_, ?_⟩
  · let m : Machine :=
      { stack := [.program "dup drop", .integer 1]
        sources := [.words ["eval", "swap"], .words ["drop"]] }
    obtain ⟨-, record, hcarried, -, hfaults⟩ :=
      (hexhausted m { messages := [.fault (.tooShort 2 1)] } rfl).mp ⟨6, rfl⟩
    exact ⟨record, hcarried, hfaults⟩
  · exact (hrun 4 _ rfl).trans rfl
  · obtain ⟨m', hanswers, hstack, -⟩ := hstopped 0 { stack := [.integer 1], stopped := true }
      [.submit "drop", .evaluate "clear", .run] rfl
    exact ⟨m', hanswers, hstack⟩

end Machine

end RpnCalculator
