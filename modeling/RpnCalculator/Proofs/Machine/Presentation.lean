import RpnCalculator.Proofs.Machine.Delivery
import RpnCalculator.Proofs.Value.Presentation

/-!
# Runs do not depend on how values are shown

Two machines that differ only in the base, the form of complex numbers, the form of floats
and the decimals, and that take the same words, go on to differ in nothing else
(`style_unobserved`).  The two words that would tell them apart are left out: a conversion to a
string, and a binary word that is read in the base in force (`Styleless`).

## Which words are asked about

The condition is on the words that one of the two machines takes.  That the other one takes
the same words is part of what is shown, and no assumption: a word comes from the sources, the
sources come from the stack and the files, and these agree as long as all words before were
styleless.

## How it is shown

`Machine.unstyled` puts the four settings back to what they are in a new machine, and so two
machines differ only in them exactly when they are equal without style
(`sameButStyle_iff`).  Each part of a machine that a word looks at is the same without style,
except for the settings themselves.  What remains is that a word which changes a
setting changes it in the same way (`outcome_unstyled`).
-/

namespace RpnCalculator
namespace Machine

variable {m m' : Machine}

/-! ## Machines without style -/

/-- The machine with the four settings put back. -/
def unstyled (m : Machine) : Machine := { m with display := m.display.unstyled }

/-- Two machines that differ at most in how they show values. -/
structure SameButStyle (m m' : Machine) : Prop where
  stack : m.stack = m'.stack
  sources : m.sources = m'.sources
  bindings : m.bindings = m'.bindings
  messages : m.messages = m'.messages
  disk : m.disk = m'.disk
  stopped : m.stopped = m'.stopped
  angle : m.display.angle = m'.display.angle
  wordSize : m.display.wordSize = m'.display.wordSize

theorem sameButStyle_iff : SameButStyle m m' ↔ m.unstyled = m'.unstyled := by
  constructor
  · intro h
    simp only [unstyled, Display.unstyled, h.stack, h.sources, h.bindings, h.messages, h.disk,
      h.stopped, h.angle, h.wordSize]
  · intro h
    have hdisplay : m.display.unstyled = m'.display.unstyled := congrArg display h
    exact {
      stack := (congrArg stack h :)
      sources := (congrArg sources h :)
      bindings := (congrArg bindings h :)
      messages := (congrArg messages h :)
      disk := (congrArg disk h :)
      stopped := (congrArg stopped h :)
      angle := (congrArg Display.angle hdisplay :)
      wordSize := (congrArg Display.wordSize hdisplay :) }

/-- A word that means the same however values are shown. -/
def Styleless (word : String) : Prop := word ≠ ">STR" ∧ ¬Literal.Unsuffixed word.toList

instance (word : String) : Decidable (Styleless word) :=
  inferInstanceAs (Decidable (word ≠ ">STR" ∧ ¬Literal.Unsuffixed word.toList))

/-! ## Arguments -/

theorem count_unstyled (m : Machine) : m.unstyled.count = m.count := by
  have hinteger : Kind.integer ≠ .string := by decide
  unfold count unstyled
  simp only [Value.convert_unstyled hinteger]

theorem levels_unstyled (m : Machine) (least : Nat) : m.unstyled.levels least = m.levels least := by
  unfold levels
  rw [count_unstyled]
  rfl

theorem shifted_unstyled (op : UnaryOperator) (m : Machine) :
    shifted op m.unstyled = shifted op m := by
  unfold shifted unstyled
  simp only [UnaryOperator.apply_unstyled _ op]

theorem binaryResult_unstyled (op : BinaryOperator) (m : Machine) :
    binaryResult op m.unstyled = binaryResult op m := by
  unfold binaryResult unstyled
  simp only [BinaryOperator.apply_unstyled _ op]

theorem unaryResult_unstyled {w : UnaryWord} (hw : w ≠ .convert .string) (m : Machine) :
    unaryResult w m.unstyled = unaryResult w m := by
  cases w with
  | apply op =>
    unfold unaryResult unstyled
    simp only [UnaryOperator.apply_unstyled _ op]
  | convert target =>
    have htarget : target ≠ .string := by
      rintro rfl
      exact hw rfl
    unfold unaryResult unstyled
    simp only [Value.convert_unstyled htarget]

theorem pushed?_unstyled {word : String} (hword : Styleless word) (m : Machine) :
    m.unstyled.pushed? word = m.pushed? word := by
  unfold pushed? unstyled
  rw [Literal.parse_unstyled hword.2]

/-! ## Words -/

/-- Two computations that begin in the same way. -/
theorem bind_unstyled {α : Type} (r : Except Fault α) {g g' : α → Except Fault Machine}
    (h : ∀ a, (g a).map unstyled = (g' a).map unstyled) :
    (r >>= g).map unstyled = (r >>= g').map unstyled := by
  cases r with
  | error f => rfl
  | ok a => exact h a

/-- A new stack has no style. -/
theorem map_withStack_unstyled (r : Except Fault Stack) (m : Machine) :
    (r.map m.unstyled.withStack).map unstyled = (r.map m.withStack).map unstyled := by
  cases r <;> rfl

/-- **An action comes to the same without style**, a fault or a machine. -/
theorem outcome_unstyled (a : Action) (m : Machine) :
    (outcome a m.unstyled).map unstyled = (outcome a m).map unstyled := by
  cases a with
  | setBase | setAngle | setComplex | clear | banner | quitReminder => rfl
  | drop => exact map_withStack_unstyled m.stack.discard m
  | swap => exact map_withStack_unstyled m.stack.swap m
  | rotate => exact map_withStack_unstyled m.stack.rotate m
  | setFloat float =>
    dsimp only [outcome]
    rw [count_unstyled]
    refine bind_unstyled m.count fun decimals => ?_
    split <;> rfl
  | setWordSize =>
    dsimp only [outcome]
    rw [count_unstyled]
    refine bind_unstyled m.count fun wordSize => ?_
    split <;> rfl
  | dropCount | duplicateCount =>
    dsimp only [outcome]
    rw [levels_unstyled]
    exact bind_unstyled (m.levels 0) fun n => rfl
  | duplicate => exact bind_unstyled (m.stack.level 0) fun v => rfl
  | rollUp =>
    dsimp only [outcome]
    rw [levels_unstyled]
    exact bind_unstyled (m.levels 1) fun n => map_withStack_unstyled _ m
  | rollDown =>
    dsimp only [outcome]
    rw [levels_unstyled]
    exact bind_unstyled (m.levels 1) fun n => map_withStack_unstyled _ m
  | includeSource => exact bind_unstyled m.included fun source => rfl
  | store =>
    exact bind_unstyled m.name fun name => bind_unstyled (m.stack.level 1) fun v => rfl
  | purge => exact bind_unstyled m.name fun name => rfl
  | writeObject =>
    exact bind_unstyled m.name fun path => bind_unstyled (m.stack.level 1) fun v =>
      bind_unstyled ((m.disk.withObject path v).mapError .storage) fun disk => rfl
  | readObject =>
    exact bind_unstyled m.name fun path => bind_unstyled (stored path m) fun v => rfl
  | shiftLeft | shiftRight =>
    dsimp only [outcome]
    rw [shifted_unstyled]
    exact bind_unstyled (shifted _ m) fun v => rfl

/-- The word `>STR` is the only one that makes a string. -/
theorem ne_convert_string_of_ofWord? {word : String} {w : UnaryWord} (hword : word ≠ ">STR")
    (h : Builtin.ofWord? word = some (.unary w)) : w ≠ .convert .string := by
  have hall : ∀ e ∈ Builtin.unaryWords, e.2 = .convert .string → e.1 = ">STR" := by decide
  rintro rfl
  exact hword (hall _ (Builtin.mem_unaryWords_of_ofWord? h) rfl)

/-- **A styleless word comes to the same without style.** -/
theorem outcomeOf_unstyled {word : String} (hword : Styleless word) (m : Machine) :
    (outcomeOf word m.unstyled).map unstyled = (outcomeOf word m).map unstyled := by
  unfold outcomeOf
  by_cases hempty : word = ""
  · rw [if_pos hempty, if_pos hempty]
    exact outcome_unstyled .duplicate m
  rw [if_neg hempty, if_neg hempty]
  cases hb : Builtin.ofWord? word with
  | none =>
    dsimp only
    rw [performOther_eq, performOther_eq, pushed?_unstyled hword]
    cases m.pushed? word <;> rfl
  | some b =>
    cases b with
    | binary op =>
      dsimp only [builtinOutcome]
      rw [binaryResult_unstyled]
      exact bind_unstyled (binaryResult op m) fun v => rfl
    | unary w =>
      dsimp only [builtinOutcome]
      rw [unaryResult_unstyled (ne_convert_string_of_ofWord? hword.1 hb)]
      exact bind_unstyled (unaryResult w m) fun v => rfl
    | action a => exact outcome_unstyled a m

/-- A step changes the same things, and a word that fails queues the same message. -/
theorem step_unstyled {word : String} (hword : Styleless word) (m : Machine) :
    (m.unstyled.step word).unstyled = (m.step word).unstyled :=
  step_eq_of_outcomeOf (outcomeOf_unstyled hword m) fun _ => rfl

/-! ## Turns -/

/-- What a turn comes to, without style. -/
def Turn.unstyled : Turn → Turn
  | .ended status m => .ended status m.unstyled
  | .running m => .running m.unstyled

theorem Turn.machine_unstyled (turn : Turn) : turn.unstyled.machine = turn.machine.unstyled := by
  cases turn <;> rfl

/-- A turn with a styleless word comes to the same without style. -/
theorem advance_unstyled (h : ∀ word, m.next? = some word → Styleless word) :
    m.unstyled.advance.unstyled = m.advance.unstyled := by
  generalize hturn : m.advance = turn
  cases advance_eq_iff.mp hturn with
  | nothing hm =>
    have hturn' : Takes m.unstyled (.ended .stopped m.unstyled) := .nothing hm
    rw [advance_eq_iff.mpr hturn']
    rfl
  | noWord hm hnext =>
    have hturn' : Takes m.unstyled (.ended .exhausted { m.unstyled with sources := [] }) :=
      .noWord hm hnext
    rw [advance_eq_iff.mpr hturn']
    rfl
  | @quit rest hm hnext =>
    have hturn' : Takes m.unstyled
        (.ended .stopped { m.unstyled with sources := rest, stopped := true }) := .quit hm hnext
    rw [advance_eq_iff.mpr hturn']
    rfl
  | @word word rest hm hnext hquit =>
    have hturn' : Takes m.unstyled (.running (step { m.unstyled with sources := rest } word)) :=
      .word hm hnext hquit
    have hstyle := h word (next?_of_next? hm hnext)
    rw [advance_eq_iff.mpr hturn']
    exact congrArg Turn.running (step_unstyled hstyle { m with sources := rest })

namespace SameButStyle

theorem next?_eq (h : SameButStyle m m') : m.next? = m'.next? := by
  rw [next?, next?, h.stopped, h.sources]

/-- **Turns of two machines that differ in style come to the same.** -/
theorem advance (h : SameButStyle m m') (hword : ∀ word, m.next? = some word → Styleless word) :
    m.advance.unstyled = m'.advance.unstyled := by
  have hword' := hword
  rw [h.next?_eq] at hword'
  rw [← advance_unstyled hword, sameButStyle_iff.mp h, advance_unstyled hword']

theorem machine_advance (h : SameButStyle m m')
    (hword : ∀ word, m.next? = some word → Styleless word) :
    SameButStyle m.advance.machine m'.advance.machine := by
  rw [sameButStyle_iff, ← Turn.machine_unstyled, ← Turn.machine_unstyled, h.advance hword]

/-! ## Runs -/

/-- The next word is among those that are taken. -/
theorem styleless_next? {n : Nat} (h : ∀ word ∈ m.delivered (n + 1), Styleless word) (word : String)
    (hnext : m.next? = some word) : Styleless word :=
  h word (by simp [delivered, hnext])

/-- After any number of turns the two machines still differ only in style, and they have taken
the same words. -/
theorem after {n : Nat} (h : SameButStyle m m')
    (hwords : ∀ word ∈ m.delivered n, Styleless word) :
    SameButStyle (m.after n) (m'.after n) ∧ m.delivered n = m'.delivered n := by
  induction n generalizing m m' with
  | zero => exact ⟨h, rfl⟩
  | succ n ih =>
    have hfirst := styleless_next? hwords
    have hrest : ∀ word ∈ m.advance.machine.delivered n, Styleless word := fun word hword =>
      hwords word (List.mem_append_right _ hword)
    obtain ⟨hafter, hdelivered⟩ := ih (h.machine_advance hfirst) hrest
    refine ⟨hafter, ?_⟩
    rw [delivered, delivered, h.next?_eq, hdelivered]

/-- A run within a bound ends for both or for neither, and in the same way. -/
theorem run {n : Nat} (h : SameButStyle m m') (hwords : ∀ word ∈ m.delivered n, Styleless word) :
    Option.Rel (fun r r' => r.1 = r'.1 ∧ SameButStyle r.2 r'.2) (m.run n) (m'.run n) := by
  induction n generalizing m m' with
  | zero => exact .none
  | succ n ih =>
    have hfirst := styleless_next? hwords
    have hturn := h.advance hfirst
    have hnext := h.machine_advance hfirst
    have hrest : ∀ word ∈ m.advance.machine.delivered n, Styleless word := fun word hword =>
      hwords word (List.mem_append_right _ hword)
    unfold Machine.run
    cases hm : m.advance with
    | ended status m₁ =>
      cases hm' : m'.advance with
      | ended status' m₁' =>
        rw [hm, hm'] at hturn hnext
        exact .some ⟨(Turn.ended.inj hturn).1, hnext⟩
      | running m₁' =>
        rw [hm, hm'] at hturn
        cases hturn
    | running m₁ =>
      cases hm' : m'.advance with
      | ended status' m₁' =>
        rw [hm, hm'] at hturn
        cases hturn
      | running m₁' =>
        rw [hm, hm'] at hnext
        rw [hm] at hrest
        exact ih hnext hrest

/-! ## What is given to them -/

theorem submit (h : SameButStyle m m') (line : String) :
    SameButStyle (m.submit line) (m'.submit line) :=
  { h with sources := congrArg (Source.ofText line :: ·) h.sources }

theorem includeFile (h : SameButStyle m m') (path : String) :
    (m.includeFile path).map unstyled = (m'.includeFile path).map unstyled := by
  have hopen : m.disk.openScript path = m'.disk.openScript path := by rw [h.disk]
  unfold Machine.includeFile
  rw [hopen]
  cases m'.disk.openScript path with
  | error f => rfl
  | ok bytes =>
    refine congrArg Except.ok (sameButStyle_iff.mp ?_)
    exact { h with sources := congrArg (Source.ofBytes bytes :: ·) h.sources }

end SameButStyle

/-- **How values are shown does not influence computation.**  Take two machines that differ at
most in the base, the form of complex numbers, the form of floats and the decimals.  As long as
the words that one of them takes are styleless, the other one takes the same words, and after
each of them the machines still do not differ in anything else.  A run ends for both or for
neither, with the same status.  A line or a script that is given to both then is the same for
both. -/
theorem style_unobserved {m m' : Machine} (h : SameButStyle m m') (n : Nat)
    (hwords : ∀ word ∈ m.delivered n, Styleless word) :
    SameButStyle (m.after n) (m'.after n) ∧ m.delivered n = m'.delivered n ∧
      Option.Rel (fun r r' => r.1 = r'.1 ∧ SameButStyle r.2 r'.2) (m.run n) (m'.run n) ∧
      (∀ line, SameButStyle ((m.after n).submit line) ((m'.after n).submit line)) ∧
      ∀ path, ((m.after n).includeFile path).map unstyled =
        ((m'.after n).includeFile path).map unstyled := by
  obtain ⟨hafter, hdelivered⟩ := h.after hwords
  exact ⟨hafter, hdelivered, h.run hwords, hafter.submit, hafter.includeFile⟩

/-- One machine writes in hexadecimal and the other in binary and in polar form.  A program reads
a word with its base and changes the base. -/
theorem style_unobserved_program :
    SameButStyle
        (after 4
          { stack := [.program "#1Ah oct", .integer 2], sources := [.words ["eval", "+"]] })
        (after 4
          { stack := [.program "#1Ah oct", .integer 2], sources := [.words ["eval", "+"]]
            display := { base := .binary, complex := .polar } }) ∧
      delivered 4
          { stack := [.program "#1Ah oct", .integer 2], sources := [.words ["eval", "+"]]
            display := { base := .binary, complex := .polar } } =
        ["eval", "#1Ah", "oct", "+"] := by
  have hstyle : SameButStyle
      { stack := [.program "#1Ah oct", .integer 2], sources := [.words ["eval", "+"]] }
      { stack := [.program "#1Ah oct", .integer 2], sources := [.words ["eval", "+"]]
        display := { base := .binary, complex := .polar } } := by constructor <;> rfl
  have hwords : ∀ word ∈ delivered 4
      { stack := [.program "#1Ah oct", .integer 2], sources := [.words ["eval", "+"]] },
      Styleless word := by decide +kernel
  have h := style_unobserved hstyle 4 hwords
  refine ⟨h.1, ?_⟩
  decide +kernel

end Machine
end RpnCalculator
