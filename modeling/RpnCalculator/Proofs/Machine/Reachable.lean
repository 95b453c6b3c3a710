import RpnCalculator.Proofs.Machine.Lasting

/-!
# Machines that can be reached

`Reachable` lists all that can happen to a calculator after it was made: a line or a script
is queued, a word is taken, the messages are shown, and others change the files.  Words are
taken one at a time, so the machines in the middle of a run count, and those of a run that
never ends.

What holds of every machine that can be reached is shown by an `Invariant`.  It is about the
stack, the variables and the settings, which nothing but a word changes, and it has to be kept
only by words that do not fail.  There are two of them here.

* Whatever lasts holds of all that a machine holds (`invariant_holds`), and so everything is
  well-formed and in order.  Neither is checked while the calculator runs, except for what
  comes out of a file.
* The settings are in range (`invariant_inRange`).  They are set by two words that take a
  number, and these refuse it when it is out of range.
-/

namespace RpnCalculator

/-! ## Settings -/

/-- The settings that words can choose. -/
structure Display.InRange (d : Display) : Prop where
  one_le : 1 ≤ d.wordSize
  le : d.wordSize ≤ Display.maxWordSize
  decimals : d.decimals ≤ Display.maxDecimals

theorem Display.inRange_default : Display.InRange {} := by
  constructor <;> decide

namespace Machine

variable {m : Machine}

/-- Every action keeps the settings in range. -/
theorem inRange_outcome (h : m.display.InRange) (a : Action) :
    Ends (fun m' => m'.display.InRange) (fun _ => True) (outcome a m) := by
  cases a with
  | setBase | setAngle | setComplex => exact ⟨h.one_le, h.le, h.decimals⟩
  | clear | banner | quitReminder => exact h
  | setFloat float =>
    refine (Ends.any m.count).bind fun decimals _ => ?_
    rw [Ends.ite_iff]
    exact ⟨fun _ => trivial, fun hle => ⟨h.one_le, h.le, Nat.le_of_not_lt hle⟩⟩
  | setWordSize =>
    refine (Ends.any m.count).bind fun wordSize _ => ?_
    rw [Ends.ite_iff]
    exact ⟨fun hle => ⟨hle.1, hle.2, h.decimals⟩, fun _ => trivial⟩
  | drop | swap | rotate => exact Ends.map_any fun _ => h
  | dropCount | duplicateCount => exact (Ends.any (m.levels 0)).bind fun _ _ => h
  | rollUp | rollDown => exact (Ends.any (m.levels 1)).bind fun _ _ => Ends.map_any fun _ => h
  | duplicate => exact (Ends.any (m.stack.level 0)).bind fun _ _ => h
  | includeSource => exact (Ends.any m.included).bind fun _ _ => h
  | store => exact (Ends.any m.name).bind fun _ _ => (Ends.any (m.stack.level 1)).bind fun _ _ => h
  | purge => exact (Ends.any m.name).bind fun _ _ => h
  | writeObject =>
    exact (Ends.any m.name).bind fun _ _ => (Ends.any (m.stack.level 1)).bind fun _ _ =>
      (Ends.any _).bind fun _ _ => h
  | readObject =>
    exact (Ends.any m.name).bind fun path _ => (Ends.any (stored path m)).bind fun _ _ => h
  | shiftLeft | shiftRight => exact (Ends.any (shifted _ m)).bind fun _ _ => h

theorem display_performOther (m : Machine) (word : String) :
    (m.performOther word).display = m.display := by
  unfold performOther
  split
  · rfl
  · split <;> rfl

/-- Every word keeps the settings in range. -/
theorem inRange_outcomeOf (h : m.display.InRange) (word : String) :
    Ends (fun m' => m'.display.InRange) (fun _ => True) (outcomeOf word m) := by
  unfold outcomeOf
  rw [Ends.ite_iff]
  refine ⟨fun _ => inRange_outcome h .duplicate, fun _ => ?_⟩
  split
  · rename_i b _
    cases b with
    | binary op => exact (Ends.any (binaryResult op m)).bind fun _ _ => h
    | unary w => exact (Ends.any (unaryResult w m)).bind fun _ _ => h
    | action a => exact inRange_outcome h a
  · rw [Ends.ok_iff, display_performOther]
    exact h

/-! ## Reachable machines -/

/-- The machine after a turn. -/
def Turn.machine : Turn → Machine
  | .ended _ m => m
  | .running m => m

/-- The machines that a new one can become. -/
inductive Reachable : Machine → Prop where
  | new (disk : Disk) : Reachable { disk }
  | submit {m : Machine} (line : String) (h : Reachable m) : Reachable (m.submit line)
  | includeFile {m m' : Machine} {path : String} (h : Reachable m)
      (hok : m.includeFile path = .ok m') : Reachable m'
  | advance {m : Machine} (h : Reachable m) : Reachable m.advance.machine
  | takeMessages {m : Machine} (h : Reachable m) : Reachable m.takeMessages.2
  /-- Files can be changed by others. -/
  | disk {m : Machine} (disk : Disk) (h : Reachable m) : Reachable { m with disk }

/-- A run leads from reachable machines to reachable machines. -/
theorem Reachable.run {bound : Nat} {status : Status} {m' : Machine} (h : Reachable m)
    (hrun : m.run bound = some (status, m')) : Reachable m' := by
  induction bound generalizing m with
  | zero => cases hrun
  | succ bound ih =>
    have hnext := h.advance
    unfold Machine.run at hrun
    cases hturn : m.advance with
    | ended status' m₁ =>
      rw [hturn] at hrun hnext
      cases hrun
      exact hnext
    | running m₁ =>
      rw [hturn] at hrun hnext
      exact ih hnext hrun

/-- So does the evaluation of a line. -/
theorem Reachable.evaluate {bound : Nat} {line : String} {status : Status} {m' : Machine}
    (h : Reachable m) (hrun : m.evaluate bound line = some (status, m')) : Reachable m' :=
  (h.submit line).run hrun

/-! ## Invariants -/

/-- A property of the stack, the variables and the settings that every word keeps. -/
structure Invariant (I : Machine → Prop) : Prop where
  new : ∀ disk, I { disk }
  frame : ∀ {m m' : Machine}, I m → m'.stack = m.stack → m'.bindings = m.bindings →
    m'.display = m.display → I m'
  word : ∀ {m m' : Machine} {word : String}, I m → outcomeOf word m = .ok m' → I m'

namespace Invariant

variable {I : Machine → Prop}

/-- A word keeps an invariant, whether it fails or not. -/
theorem step (hI : Invariant I) (h : I m) (word : String) : I (m.step word) := by
  rw [step_eq]
  cases hout : outcomeOf word m with
  | ok m' => exact hI.word h hout
  | error f => exact hI.frame h rfl rfl rfl

/-- **So does a turn.** -/
theorem advance (hI : Invariant I) (h : I m) : I m.advance.machine := by
  unfold Machine.advance
  by_cases hstopped : m.stopped = true
  · rw [if_pos hstopped]
    exact h
  · rw [if_neg hstopped]
    cases hnext : m.sources.next? with
    | none => exact hI.frame h rfl rfl rfl
    | some p =>
      obtain ⟨word, sources⟩ := p
      have hm : I { m with sources } := hI.frame h rfl rfl rfl
      by_cases hword : word = quitWord
      · simp only [if_pos hword]
        exact hI.frame h rfl rfl rfl
      · simp only [if_neg hword]
        exact hI.step hm word

end Invariant

/-- **An invariant holds of every machine that can be reached.** -/
theorem Reachable.invariant {I : Machine → Prop} (h : Reachable m) (hI : Invariant I) : I m := by
  induction h with
  | new disk => exact hI.new disk
  | submit line _ ih => exact hI.frame ih rfl rfl rfl
  | @includeFile m m' path _ hok ih =>
    unfold Machine.includeFile at hok
    cases hopen : m.disk.openScript path with
    | ok bytes =>
      rw [hopen] at hok
      cases hok
      exact hI.frame ih rfl rfl rfl
    | error f =>
      rw [hopen] at hok
      cases hok
  | advance _ ih => exact hI.advance ih
  | takeMessages _ ih => exact hI.frame ih rfl rfl rfl
  | disk _ _ ih => exact hI.frame ih rfl rfl rfl

/-- What lasts holds of everything that a machine holds. -/
theorem invariant_holds {P : Value → Prop} (hP : Lasting P) : Invariant (Holds P) where
  new disk := by constructor <;> simp
  frame h hstack hbindings _ := by
    constructor
    · rw [hstack]
      exact h.stack
    · rw [hbindings]
      exact h.bindings
  word {m m' word} h hout := (ends_outcomeOf hP h word).of_ok hout

/-- The settings stay in range. -/
theorem invariant_inRange : Invariant fun m => m.display.InRange where
  new _ := Display.inRange_default
  frame h _ _ hdisplay := by
    rw [hdisplay]
    exact h
  word {m m' word} h hout := (inRange_outcomeOf h word).of_ok hout

/-- **What lies on a stack can be stored**, if its payload can be counted, and what is read
then is what was written. -/
theorem Reachable.decode_encode (h : Reachable m) {v : Value} (hv : v ∈ m.stack)
    (hlen : (StoredObject.payload v).length < 256 ^ 8) :
    StoredObject.decode (StoredObject.encode v) = .ok v := by
  have hordered := (h.invariant (invariant_holds lasting_ordered)).stack v hv
  have hwf := (h.invariant (invariant_holds lasting_wellFormed)).stack v hv
  exact StoredObject.decode_encode hordered hlen hwf

/-- **Nothing that is not well-formed ever comes to be.**  What passes `validate` is what is
well-formed; operators and conversions lead from well-formed values to well-formed values;
and a machine that can be reached holds nothing else, with a width from 1 to 32 and at most
20 decimals. -/
theorem wellFormed_throughout :
    (∀ v : Value, v.validate = .ok () ↔ v.WellFormed) ∧
    (∀ (d : Display) (op : UnaryOperator) (v w : Value),
      v.WellFormed → op.apply d v = .ok w → w.WellFormed) ∧
    (∀ (d : Display) (op : BinaryOperator) (l r w : Value),
      l.WellFormed → r.WellFormed → op.apply d l r = .ok w → w.WellFormed) ∧
    (∀ (d : Display) (target : Kind) (v w : Value),
      v.WellFormed → v.convert d target = .ok w → w.WellFormed) ∧
    ∀ m : Machine, m.Reachable →
      (∀ v ∈ m.stack, v.WellFormed) ∧ (∀ e ∈ m.bindings, e.2.WellFormed) ∧
      1 ≤ m.display.wordSize ∧ m.display.wordSize ≤ 32 ∧ m.display.decimals ≤ 20 := by
  refine ⟨fun v => Value.validate_eq_ok_iff, ?_, ?_, ?_, ?_⟩
  · intro d op v w hv hw
    exact (UnaryOperator.ends_apply hereditary_wellFormed v op hv).of_ok hw
  · intro d op l r w hl hr hw
    exact (BinaryOperator.ends_apply hereditary_wellFormed l op r hl hr).of_ok hw
  · intro d target v w hv hw
    exact (ends_convert hereditary_wellFormed hv target).of_ok hw
  · intro m hm
    have hholds := hm.invariant (invariant_holds lasting_wellFormed)
    have hrange := hm.invariant invariant_inRange
    exact ⟨hholds.stack, hholds.bindings, hrange.one_le, hrange.le, hrange.decimals⟩

/-- A matrix with a rational in it is negated, two vectors are added, a list becomes a
matrix, and a line is read. -/
theorem wellFormed_throughout_of_entry :
    Value.WellFormed (.matrix [[.rational ⟨-1, 2⟩, .integer (-3)]]) ∧
    Value.WellFormed (.vector [.integer 3]) ∧
    Value.WellFormed (.matrix [[.integer 1], [.integer 2]]) ∧
    ∃ m : Machine, m.stack = [.integer 2] ∧ ∀ v ∈ m.stack, v.WellFormed := by
  have h := wellFormed_throughout
  refine ⟨?_, ?_, ?_, ?_⟩
  · refine h.2.1 {} .neg (.matrix [[.rational ⟨1, 2⟩, .integer 3]]) _ ?_ rfl
    simp [Value.WellFormed, Value.RowsWellFormed, Value.ItemsWellFormed, Fraction.Reduced]
  · refine h.2.2.1 {} .add (.vector [.integer 1]) (.vector [.integer 2]) _ ?_ ?_ rfl
    · simp [Value.WellFormed, Value.ItemsWellFormed]
    · simp [Value.WellFormed, Value.ItemsWellFormed]
  · refine h.2.2.2.1 {} .matrix (.list [.list [.integer 1], .vector [.integer 2]]) _ ?_ rfl
    simp [Value.WellFormed, Value.ItemsWellFormed]
  · have hm : Reachable (submit {} "2").advance.machine :=
      ((Reachable.new .empty).submit "2").advance
    exact ⟨_, rfl, (h.2.2.2.2 _ hm).1⟩

end Machine

end RpnCalculator
